/-
**The objects of a transaction** (`drivers/staging/android/binder.c`).

`binder_transaction` copies the data of a transaction into a buffer of the target process and
translates the objects in it in place: a node of the sender becomes a reference of the target, a
reference becomes a reference of the target or, when the node is its own, the node. When the buffer
is freed, `binder_transaction_buffer_release` reads the objects again and gives the counts back.

The data is a sequence of 32-bit words; an accepted offset is a multiple of 4. `none` stands for a
`BUG()` or the use of a node or a reference that is not there.
-/

import KernelImx.Binder.Refs

namespace KernelImx.Binder

/-! ### Objects -/

/-- The types of a `struct flat_binder_object`; weak and strong ones apart. -/
inductive ObjectType where
  | binder (strong : Bool)
  | handle (strong : Bool)
  | fd
  deriving DecidableEq, Repr

/-- `B_PACK_CHARS(c1, c2, '*', B_TYPE_LARGE)` -/
def packChars (c1 c2 : Char) : Nat := c1.toNat * 2 ^ 24 + c2.toNat * 2 ^ 16 + '*'.toNat * 2 ^ 8 + 0x85

/-- `BINDER_TYPE_*` -/
def ObjectType.word : ObjectType → Nat
  | .binder true => packChars 's' 'b'
  | .binder false => packChars 'w' 'b'
  | .handle true => packChars 's' 'h'
  | .handle false => packChars 'w' 'h'
  | .fd => packChars 'f' 'd'

/-- The cases of `switch (fp->type)`. The numbers are large: it is not unfolded by unification. -/
@[irreducible] def objectType (word : Nat) : Option ObjectType :=
  [.binder true, .binder false, .handle true, .handle false, .fd].find? fun type => type.word = word

/-- `sizeof(struct flat_binder_object)` -/
def objectSize : Nat := 16

abbrev Words := Nat → Nat

def Words.put (words : Words) (index value : Nat) : Words :=
  fun other => if other = index then value else words other

/-- The word of `fp->type`; `flags`, `binder` or `handle`, and `cookie` follow. -/
def typeAt (offset : Nat) : Nat := offset / 4

def valueAt (offset : Nat) : Nat := offset / 4 + 2

def cookieAt (offset : Nat) : Nat := offset / 4 + 3

/-- The checks on an offset; `data_size - sizeof(*fp)` wraps only when the second one fails. -/
def badOffset (dataSize offset : Nat) : Bool :=
  offset > dataSize - objectSize || dataSize < objectSize || offset % 4 ≠ 0

/-! ### Translation -/

variable (env : TransEnv)

variable (st : RefState)

end KernelImx.Binder
