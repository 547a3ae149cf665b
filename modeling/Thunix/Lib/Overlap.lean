import Mathlib.Data.List.Nodup
import Mathlib.Logic.Function.Basic

/-!
# Copying where the cells overlap

Cells of a memory are copied one after another, each to where it belongs
(`Thunix.Overlap.copies`). What is meant is that all are copied at once. The two are the
same when no cell is read after it has been written (`Thunix.Overlap.ReadsFirst`): then a cell
that is written holds what its source held at the beginning
(`Thunix.Overlap.copies_of_mem`). That depends on the order of the copies, and not on the
pairs alone; a cell that is not written is never concerned
(`Thunix.Overlap.copies_of_notMem`).
-/

namespace Thunix.Overlap

variable {α β : Type*} {ps : List (α × α)} {p : α × α} {a : α}

/-- No copy reads a cell that an earlier one has written. The first of a pair is where to, the
second where from. -/
def ReadsFirst (ps : List (α × α)) : Prop := ps.Pairwise fun p q => q.2 ≠ p.1

variable [DecidableEq α] {m : α → β}

/-- The copies are made one after another. -/
def copies (m : α → β) : List (α × α) → α → β
  | [] => m
  | p :: ps => copies (Function.update m p.1 (m p.2)) ps

/-- What is not written stays. -/
theorem copies_of_notMem (ha : a ∉ ps.map Prod.fst) : copies m ps a = m a := by
  induction ps generalizing m with
  | nil => rfl
  | cons p ps ih =>
    rw [List.map_cons, List.mem_cons, not_or] at ha
    rw [copies, ih ha.2, Function.update_of_ne ha.1]

/-- **What is written** is what its source held before all the copies. -/
theorem copies_of_mem (hread : ReadsFirst ps) (honce : (ps.map Prod.fst).Nodup) (hp : p ∈ ps) :
    copies m ps p.1 = m p.2 := by
  induction ps generalizing m with
  | nil => cases hp
  | cons q ps ih =>
    obtain ⟨hfirst, hrest⟩ := List.pairwise_cons.mp hread
    obtain ⟨hnot, honce⟩ := List.nodup_cons.mp honce
    rw [copies]
    rcases List.mem_cons.mp hp with rfl | hp
    · rw [copies_of_notMem hnot, Function.update_self]
    · rw [ih hrest honce hp, Function.update_of_ne (hfirst p hp)]

end Thunix.Overlap
