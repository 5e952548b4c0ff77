/-
**Relations without cycles.**

Main result: `Acyclic.insert`.
-/

import Mathlib.Logic.Relation

namespace KernelImx.Lib

open Relation

variable {α : Type*} {r s : α → α → Prop}

def Acyclic (r : α → α → Prop) : Prop := ∀ a, ¬ TransGen r a a

/-- Fewer edges make no cycle. -/
theorem Acyclic.mono (acyclic : Acyclic s) (fewer : ∀ a b, r a b → s a b) : Acyclic r :=
  fun a cycle => acyclic a (TransGen.mono fewer a a cycle)

theorem transGen_insert {a b x y : α} (way : TransGen (fun x y => r x y ∨ (x = a ∧ y = b)) x y) :
    TransGen r x y ∨ (ReflTransGen r x a ∧ ReflTransGen r b y) := by
  induction way with
  | single edge =>
    rcases edge with old | ⟨rfl, rfl⟩
    · exact .inl (.single old)
    · exact .inr ⟨.refl, .refl⟩
  | tail _ edge ih =>
    rcases edge with old | ⟨rfl, rfl⟩
    · rcases ih with way | ⟨front, back⟩
      · exact .inl (way.tail old)
      · exact .inr ⟨front, back.tail old⟩
    · rcases ih with way | ⟨front, -⟩
      · exact .inr ⟨way.to_reflTransGen, .refl⟩
      · exact .inr ⟨front, .refl⟩

/-- Neither does an edge to a place from which there is no way back. -/
theorem Acyclic.insert (acyclic : Acyclic r) {a b : α} (noWay : ¬ ReflTransGen r b a) :
    Acyclic fun x y => r x y ∨ (x = a ∧ y = b) := by
  intro x cycle
  rcases transGen_insert cycle with old | ⟨front, back⟩
  · exact acyclic x old
  · exact noWay (back.trans front)

end KernelImx.Lib
