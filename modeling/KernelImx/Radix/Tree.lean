/-
**The radix tree (`lib/radix-tree.c`).**

Items are kept under indices of 32 bits in a tree of nodes with 64 slots each, and every item can
carry two tags. A bit in the tags of a node says that some item below that slot carries the tag; the
bits of the root are kept in its `gfp_mask`. A tree of height 0 holds at most the item at index 0, in
the root itself.

There is no sharing in the tree, so a node is the value of the pointer to it: `rnode` is an indirect
pointer exactly when it is a `node`. The loops over `height` are recursions on it, with the stores of
the source made on the way back. A node comes zeroed out of the slab. `none` stands for a `BUG_ON` or
the use of a `NULL` pointer.
-/

import KernelImx.Errno

namespace KernelImx.Radix

open Function

/-- A tag, below `RADIX_TREE_MAX_TAGS`. -/
abbrev Tag := Fin 2

/-- A slot of a node: `NULL`, an item, or a `struct radix_tree_node`. -/
inductive Slot (α : Type)
  | null
  | item (ptr : α)
  | node (height count : Nat) (slots : Nat → Slot α) (tags : Tag → Nat → Bool)

/-- `struct radix_tree_root`. -/
structure Root (α : Type) where
  rnode : Slot α
  height : Nat
  tags : Tag → Bool

/-- `RADIX_TREE_MAP_SIZE`, with `RADIX_TREE_MAP_SHIFT` 6. -/
def mapSize : Nat := 64

/-- `RADIX_TREE_MAX_PATH`, for indices of 32 bits. -/
def maxPath : Nat := 6

/-- `radix_tree_maxindex`. -/
def radixTreeMaxindex (height : Nat) : Nat :=
  if 32 < height * 6 then 2 ^ 32 - 1 else 2 ^ (height * 6) - 1

/-- `(index >> shift) & RADIX_TREE_MAP_MASK` in a node of height `h + 1`. -/
def offset (index h : Nat) : Nat :=
  index / mapSize ^ h % mapSize

variable {α : Type}

def Slot.isNull : Slot α → Bool
  | .null => true
  | _ => false

def Slot.toPtr : Slot α → Option α
  | .item ptr => some ptr
  | _ => none

/-- `tag_set` and `tag_clear`. -/
def setTag (tags : Tag → Nat → Bool) (tag : Tag) (off : Nat) (value : Bool) : Tag → Nat → Bool :=
  fun other i => if other = tag ∧ i = off then value else tags other i

/-- `any_tag_set`. -/
def anyTagSet (tags : Tag → Nat → Bool) (tag : Tag) : Bool :=
  (List.range mapSize).any (tags tag)

def emptyNode (height : Nat) : Slot α :=
  .node height 0 (fun _ => .null) (fun _ _ => false)

/-! ### Insertion -/

/-- `node->slots[off] = child`, with `node->count++` where the slot was `NULL`. -/
def storeSlot (height count : Nat) (slots : Nat → Slot α) (tags : Tag → Nat → Bool) (off : Nat)
    (child : Slot α) : Slot α :=
  .node height (if (slots off).isNull && !child.isNull then count + 1 else count)
    (update slots off child) tags

/-- The loop of `radix_tree_insert` from a slot on; `bits` are the tags of the slot. -/
def insertAt (index : Nat) (ptr : α) :
    Nat → Nat → (Tag → Bool) → Slot α → Option (Except Errno Unit × Slot α)
  | 0, _, bits, .null => if bits 0 || bits 1 then none else some (.ok (), .item ptr)
  | 0, _, _, slot => some (.error .eexist, slot)
  | _ + 1, 0, _, .null => some (.error .enomem, .null)
  | h + 1, grants + 1, _, .null =>
    (insertAt index ptr h grants (fun _ => false) .null).map fun (result, child) =>
      (result, storeSlot (h + 1) 0 (fun _ => .null) (fun _ _ => false) (offset index h) child)
  | h + 1, grants, _, .node height count slots tags =>
    (insertAt index ptr h grants (fun tag => tags tag (offset index h))
      (slots (offset index h))).map fun (result, child) =>
        (result, storeSlot height count slots tags (offset index h) child)
  | _ + 1, _, _, .item _ => none

variable (root : Root α)

/-- One round of the loop of `radix_tree_extend`. -/
def raise : Root α where
  rnode := .node (root.height + 1) 1 (fun i => if i = 0 then root.rnode else .null)
    (fun tag i => root.tags tag && i == 0)
  height := root.height + 1
  tags := root.tags

/-- The loop of `radix_tree_extend`, for so many levels: the nodes left over, or `-ENOMEM`. -/
def extendLoop : Nat → Root α → Nat → Except Errno Nat × Root α
  | 0, root, grants => (.ok grants, root)
  | _ + 1, root, 0 => (.error .enomem, root)
  | levels + 1, root, grants + 1 => extendLoop levels (raise root) grants

/-- The height that `radix_tree_extend` figures out. -/
def heightFor (index : Nat) : Nat → Nat → Nat
  | 0, height => height
  | fuel + 1, height =>
    if index > radixTreeMaxindex height then heightFor index fuel (height + 1) else height

/-- **`radix_tree_extend`.** -/
def radixTreeExtend (index grants : Nat) : Except Errno Nat × Root α :=
  let height := heightFor index maxPath (root.height + 1)
  if root.rnode.isNull then
    (.ok grants, { root with height := height })
  else
    extendLoop (height - root.height) root grants

/-- The part of `radix_tree_insert` behind the extension. -/
def insertBelow (index : Nat) (ptr : α) (grants : Nat) : Option (Except Errno Unit × Root α) :=
  (insertAt index ptr root.height grants root.tags root.rnode).map fun (result, rnode) =>
    (result, { root with rnode := rnode })

/-- **`radix_tree_insert`.** -/
def radixTreeInsert (index : Nat) (ptr : α) (grants : Nat) : Option (Except Errno Unit × Root α) :=
  if index > radixTreeMaxindex root.height then
    match radixTreeExtend root index grants with
    | (.error errno, root) => some (.error errno, root)
    | (.ok grants, root) => insertBelow root index ptr grants
  else
    insertBelow root index ptr grants

/-! ### Readers -/

def lookupAt (index : Nat) : Nat → Slot α → Slot α
  | 0, slot => slot
  | h + 1, .node _ _ slots _ => lookupAt index h (slots (offset index h))
  | _ + 1, _ => .null

/-- **`radix_tree_lookup`.** -/
def radixTreeLookup (index : Nat) : Option α :=
  match root.rnode with
  | .null => none
  | .item ptr => if index > 0 then none else some ptr
  | .node height count slots tags =>
    if index > radixTreeMaxindex height then
      none
    else
      (lookupAt index height (.node height count slots tags)).toPtr

/-- The way down of `radix_tree_tag_get`. -/
def tagGetAt (index : Nat) (tag : Tag) : Nat → Slot α → Bool
  | 1, .node _ _ _ tags => tags tag (offset index 0)
  | h + 2, .node _ _ slots _ => tagGetAt index tag (h + 1) (slots (offset index (h + 1)))
  | _, _ => false

/-- **`radix_tree_tag_get`.** -/
def radixTreeTagGet (index : Nat) (tag : Tag) : Bool :=
  if root.tags tag then
    match root.rnode with
    | .null => false
    | .item _ => index == 0
    | .node height count slots tags =>
      if index > radixTreeMaxindex height then
        false
      else
        tagGetAt index tag height (.node height count slots tags)
  else
    false

/-- **`radix_tree_tagged`.** -/
def radixTreeTagged (tag : Tag) : Bool :=
  root.tags tag

/-! ### Tags -/

/-- The loop of `radix_tree_tag_set`. -/
def tagSetAt (index : Nat) (tag : Tag) : Nat → Slot α → Option (Slot α)
  | 0, .null => none
  | 0, slot => some slot
  | h + 1, .node height count slots tags =>
    (tagSetAt index tag h (slots (offset index h))).map fun child =>
      .node height count (update slots (offset index h) child)
        (setTag tags tag (offset index h) true)
  | _ + 1, _ => none

/-- **`radix_tree_tag_set`**: the item and the tree. -/
def radixTreeTagSet (index : Nat) (tag : Tag) : Option (Option α × Root α) :=
  if index > radixTreeMaxindex root.height then
    none
  else if root.height = 0 ∧ root.rnode.isNull then
    some (none, root)
  else
    (tagSetAt index tag root.height root.rnode).map fun rnode =>
      ((lookupAt index root.height root.rnode).toPtr,
        { root with rnode := rnode, tags := update root.tags tag true })

/-- The second loop of `radix_tree_tag_clear`, from the item up, and whether to go on clearing. -/
def clearAt (index : Nat) (tag : Tag) : Nat → Slot α → Slot α × Bool
  | h + 1, .node height count slots tags =>
    let off := offset index h
    match clearAt index tag h (slots off) with
    | (child, false) => (.node height count (update slots off child) tags, false)
    | (child, true) =>
      if tags tag off then
        let tags := setTag tags tag off false
        (.node height count (update slots off child) tags, !anyTagSet tags tag)
      else
        (.node height count (update slots off child) tags, false)
  | _, slot => (slot, true)

/-- **`radix_tree_tag_clear`**: the item and the tree. -/
def radixTreeTagClear (index : Nat) (tag : Tag) : Option α × Root α :=
  if index > radixTreeMaxindex root.height then
    (none, root)
  else if (lookupAt index root.height root.rnode).isNull then
    (none, root)
  else
    ((lookupAt index root.height root.rnode).toPtr,
      match clearAt index tag root.height root.rnode with
      | (rnode, false) => { root with rnode := rnode }
      | (rnode, true) => { root with rnode := rnode, tags := update root.tags tag false })

/-! ### Deletion -/

/-- The loop of `radix_tree_delete` from the item up: what is left in a slot. -/
def removeAt (index : Nat) : Nat → Slot α → Slot α
  | 0, _ => .null
  | h + 1, .node height count slots tags =>
    let off := offset index h
    let child := removeAt index h (slots off)
    if child.isNull then
      if count - 1 = 0 then
        .null
      else
        .node height (count - 1) (update slots off .null) tags
    else
      .node height count (update slots off child) tags
  | _ + 1, slot => slot

/-- **`radix_tree_shrink`.** -/
def radixTreeShrink : Nat → Root α → Option (Root α)
  | 0, root => some root
  | h + 1, root =>
    match root.rnode with
    | .node _ count slots _ =>
      if count ≠ 1 ∨ (slots 0).isNull then
        some root
      else
        radixTreeShrink h { root with rnode := slots 0, height := h }
    | _ => none

/-- The root after the item went: it is reset when nothing is left, and shrunk when the loop stopped
at its node. -/
def unlink (index : Nat) : Option (Root α) :=
  match root.height, root.rnode with
  | h + 1, .node _ _ slots _ =>
    let rnode := removeAt index (h + 1) root.rnode
    if rnode.isNull then
      some ⟨.null, 0, fun _ => false⟩
    else if (removeAt index h (slots (offset index h))).isNull then
      radixTreeShrink root.height { root with rnode := rnode }
    else
      some { root with rnode := rnode }
  | _, _ => none

def clearTags (index : Nat) : Root α :=
  (List.finRange 2).foldl (fun root tag =>
    if tagGetAt index tag root.height root.rnode then (radixTreeTagClear root index tag).2
    else root) root

/-- **`radix_tree_delete`**: the item and the tree. -/
def radixTreeDelete (index : Nat) : Option (Option α × Root α) :=
  if index > radixTreeMaxindex root.height then
    some (none, root)
  else if root.height = 0 then
    some (root.rnode.toPtr, ⟨.null, 0, fun _ => false⟩)
  else if (lookupAt index root.height root.rnode).isNull then
    some (none, root)
  else
    (unlink (clearTags root index) index).map fun root' =>
      ((lookupAt index root.height root.rnode).toPtr, root')

end KernelImx.Radix
