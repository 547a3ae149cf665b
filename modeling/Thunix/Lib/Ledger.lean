import Mathlib.Data.Set.Lattice
import Mathlib.Data.Set.Pairwise.Basic
import Mathlib.Data.Set.Pairwise.Lattice
import Mathlib.Logic.Function.Basic
import Mathlib.Order.CompletePartialOrder

/-!
# Who owns what

A store of resources is kept in two places: each owner has a list of those that are its own, and a
mark says of each resource whether it is in use. The two agree when the owners' sets are disjoint
and make up what is in use (`Thunix.Ledger.Exact`). An owner that comes to be has nothing
(`Thunix.Ledger.Exact.birth`), one that goes gives back what it had (`Thunix.Ledger.Exact.release`),
and what an owner takes has to be free (`Thunix.Ledger.Exact.take`).
-/

namespace Thunix.Ledger

variable {ι β : Type*} {live : Set ι} {own own' : ι → Set β} {used new : Set β} {i j : ι} {b : β}

/-- **The books agree**: every resource in use has exactly one owner, and no other has one. -/
structure Exact (live : Set ι) (own : ι → Set β) (used : Set β) : Prop where
  apart : live.PairwiseDisjoint own
  union : ⋃ i ∈ live, own i = used

theorem Exact.mem_used_iff (h : Exact live own used) : b ∈ used ↔ ∃ i ∈ live, b ∈ own i := by
  rw [← h.union, Set.mem_iUnion₂]
  simp only [exists_prop]

theorem Exact.used_of_mem (h : Exact live own used) (hi : i ∈ live) (hb : b ∈ own i) : b ∈ used :=
  h.mem_used_iff.mpr ⟨i, hi, hb⟩

/-- There is one owner. -/
theorem Exact.eq_of_mem (h : Exact live own used) (hi : i ∈ live) (hj : j ∈ live) (hb : b ∈ own i)
    (hb' : b ∈ own j) : i = j :=
  h.apart.elim_set hi hj b hb hb'

/-- From what every owner has. -/
theorem exact_of_iff (hused : ∀ b, b ∈ used ↔ ∃ i ∈ live, b ∈ own i)
    (happart : ∀ i ∈ live, ∀ j ∈ live, ∀ b ∈ own i, b ∈ own j → i = j) :
    Exact live own used := by
  refine ⟨fun i hi j hj hne => Set.disjoint_left.mpr fun b hb hb' => ?_, Set.ext fun b => ?_⟩
  · exact hne (happart i hi j hj b hb hb')
  · rw [hused, Set.mem_iUnion₂]
    simp only [exists_prop]

theorem Exact.congr (h : Exact live own used) (hown : ∀ i ∈ live, own' i = own i) :
    Exact live own' used := by
  refine exact_of_iff (fun b => ?_) fun i hi j hj b hb hb' => ?_
  · rw [h.mem_used_iff]
    exact exists_congr fun i => and_congr_right fun hi => by rw [hown i hi]
  · rw [hown i hi] at hb
    rw [hown j hj] at hb'
    exact h.eq_of_mem hi hj hb hb'

/-- **An owner comes to be**, with nothing. -/
theorem Exact.birth (h : Exact live own used) (hi : i ∉ live) (hnone : own' i = ∅)
    (hown : ∀ j ∈ live, own' j = own j) : Exact (insert i live) own' used := by
  have h' := h.congr hown
  refine exact_of_iff (fun b => ?_) ?_
  · rw [h'.mem_used_iff]
    refine ⟨fun ⟨j, hj, hb⟩ => ⟨j, .inr hj, hb⟩, ?_⟩
    rintro ⟨j, rfl | hj, hb⟩
    · rw [hnone] at hb
      exact hb.elim
    · exact ⟨j, hj, hb⟩
  · rintro j (rfl | hj) k (rfl | hk) b hb hb'
    · rfl
    · rw [hnone] at hb
      exact hb.elim
    · rw [hnone] at hb'
      exact hb'.elim
    · exact h'.eq_of_mem hj hk hb hb'

/-- **An owner takes** what has been free. -/
theorem Exact.take (h : Exact live own used) (hi : i ∈ live) (hfree : Disjoint new used)
    (hmine : own' i = own i ∪ new) (hown : ∀ j ∈ live, j ≠ i → own' j = own j) :
    Exact live own' (used ∪ new) := by
  have hmem : ∀ j ∈ live, ∀ b, b ∈ own' j ↔ b ∈ own j ∨ j = i ∧ b ∈ new := by
    intro j hj b
    rcases eq_or_ne j i with rfl | hne
    · rw [hmine, Set.mem_union]
      exact or_congr_right (and_iff_right rfl).symm
    · rw [hown j hj hne]
      exact (or_iff_left fun hji => hne hji.1).symm
  have hnot : ∀ j ∈ live, ∀ b ∈ own j, b ∉ new := fun j hj b hb hnew =>
    Set.disjoint_left.mp hfree hnew (h.used_of_mem hj hb)
  refine exact_of_iff (fun b => ?_) fun j hj k hk b hb hb' => ?_
  · rw [Set.mem_union, h.mem_used_iff]
    constructor
    · rintro (⟨j, hj, hb⟩ | hb)
      · exact ⟨j, hj, (hmem j hj b).mpr (.inl hb)⟩
      · exact ⟨i, hi, (hmem i hi b).mpr (.inr ⟨rfl, hb⟩)⟩
    · rintro ⟨j, hj, hb⟩
      rcases (hmem j hj b).mp hb with hb | ⟨-, hb⟩
      · exact .inl ⟨j, hj, hb⟩
      · exact .inr hb
  · rcases (hmem j hj b).mp hb with hb | ⟨rfl, hb⟩ <;>
      rcases (hmem k hk b).mp hb' with hb' | ⟨rfl, hb'⟩
    · exact h.eq_of_mem hj hk hb hb'
    · exact absurd hb' (hnot j hj b hb)
    · exact absurd hb (hnot k hk b hb')
    · rfl

/-- **An owner goes**, and what it had is free. -/
theorem Exact.release (h : Exact live own used) (hi : i ∈ live) :
    Exact (live \ {i}) own (used \ own i) := by
  refine exact_of_iff (fun b => ?_) fun j hj k hk b hb hb' => h.eq_of_mem hj.1 hk.1 hb hb'
  rw [Set.mem_sdiff, h.mem_used_iff]
  constructor
  · rintro ⟨⟨j, hj, hb⟩, hnot⟩
    refine ⟨j, ⟨hj, ?_⟩, hb⟩
    rintro rfl
    exact hnot hb
  · rintro ⟨j, ⟨hj, hne⟩, hb⟩
    exact ⟨⟨j, hj, hb⟩, fun hbi => hne (h.eq_of_mem hj hi hb hbi)⟩

end Thunix.Ledger
