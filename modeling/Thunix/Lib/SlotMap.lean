import Mathlib.Data.Finset.Card
import Mathlib.Data.Finset.Range
import Mathlib.Logic.Function.Basic

/-!
# A map kept in slots

A finite map may be stored as a row of slots, each of which is free or holds a name with its
value, in no order and with free slots in between. It is a map when no name is held twice
(`Thunix.SlotMap.Once`); then to fill a free slot with a new name binds that name, to free a
slot unbinds the name it held (`Thunix.SlotMap.Keeps.fill`, `Thunix.SlotMap.Keeps.free`), and
no other name is concerned.

The map is meant for some of the names only: the others may stand in slots as well, and what
they are bound to is not said.
-/

namespace Thunix.SlotMap

variable {ι α β : Type*} {slots : ι → Option (α × β)} {S : Set α} {m : α → Option β} {i j : ι}
  {a x : α} {b c : β}

/-- A slot holds the name with the value. -/
def Lists (slots : ι → Option (α × β)) (a : α) (b : β) : Prop := ∃ i, slots i = some (a, b)

/-- No two slots hold the same name. -/
def Once (slots : ι → Option (α × β)) : Prop :=
  ∀ i j a b c, slots i = some (a, b) → slots j = some (a, c) → i = j

/-- The slots keep the map, of the names in `S`. -/
structure Keeps (slots : ι → Option (α × β)) (S : Set α) (m : α → Option β) : Prop where
  once : Once slots
  binds : ∀ a ∈ S, ∀ b, m a = some b ↔ Lists slots a b

/-- A name has one value. -/
theorem Once.unique (h : Once slots) (hb : Lists slots a b) (hc : Lists slots a c) : b = c := by
  obtain ⟨i, hi⟩ := hb
  obtain ⟨j, hj⟩ := hc
  obtain rfl := h i j a b c hi hj
  exact congrArg Prod.snd (Option.some.inj (hi.symm.trans hj))

/-- A name is not bound when no slot holds it. -/
theorem Keeps.eq_none_iff (h : Keeps slots S m) (ha : a ∈ S) :
    m a = none ↔ ∀ b, ¬Lists slots a b := by
  rw [Option.eq_none_iff_forall_ne_some]
  exact forall_congr' fun b => not_congr (h.binds a ha b)

/-- What a map is after a name has been bound. -/
theorem update_eq_some_iff [DecidableEq α] :
    Function.update m a (some b) x = some c ↔ (x = a ∧ c = b) ∨ (x ≠ a ∧ m x = some c) := by
  rcases eq_or_ne x a with rfl | hne
  · rw [Function.update_self, Option.some_inj]
    exact ⟨fun h => .inl ⟨rfl, h.symm⟩, fun h => (h.resolve_right fun h => h.1 rfl).2.symm⟩
  · rw [Function.update_of_ne hne]
    exact ⟨fun h => .inr ⟨hne, h⟩, fun h => (h.resolve_left fun h => hne h.1).2⟩

/-- And after one has been unbound. -/
theorem update_none_eq_some_iff [DecidableEq α] :
    Function.update m a none x = some c ↔ x ≠ a ∧ m x = some c := by
  rcases eq_or_ne x a with rfl | hne
  · rw [Function.update_self]
    exact iff_of_false (fun h => by cases h) fun h => h.1 rfl
  · rw [Function.update_of_ne hne]
    exact ⟨fun h => ⟨hne, h⟩, And.right⟩

variable [DecidableEq ι]

/-! ### Filling a slot -/

theorem lists_fill (hfree : slots j = none) :
    Lists (Function.update slots j (some (a, b))) x c ↔ (x = a ∧ c = b) ∨ Lists slots x c := by
  constructor
  · rintro ⟨i, hi⟩
    rcases eq_or_ne i j with rfl | hne
    · rw [Function.update_self] at hi
      cases hi
      exact .inl ⟨rfl, rfl⟩
    · rw [Function.update_of_ne hne] at hi
      exact .inr ⟨i, hi⟩
  · rintro (⟨rfl, rfl⟩ | ⟨i, hi⟩)
    · exact ⟨j, Function.update_self _ _ _⟩
    · have hne : i ≠ j := by
        rintro rfl
        rw [hfree] at hi
        cases hi
      exact ⟨i, (Function.update_of_ne hne _ _).trans hi⟩

/-- A slot filled with a name that no slot holds. -/
theorem Once.fill (h : Once slots) (hnew : ∀ c, ¬Lists slots a c) :
    Once (Function.update slots j (some (a, b))) := by
  intro i i' x c c' hi hi'
  rcases eq_or_ne i j with rfl | hne <;> rcases eq_or_ne i' i with heq | hne'
  · exact heq.symm
  · rw [Function.update_self] at hi
    rw [Function.update_of_ne hne'] at hi'
    cases hi
    exact absurd ⟨i', hi'⟩ (hnew c')
  · exact heq.symm
  · rw [Function.update_of_ne hne] at hi
    rcases eq_or_ne i' j with rfl | hnej
    · rw [Function.update_self] at hi'
      cases hi'
      exact absurd ⟨i, hi⟩ (hnew c)
    · rw [Function.update_of_ne hnej] at hi'
      exact h i i' x c c' hi hi'

/-- **A free slot that is filled with a new name** binds it. -/
theorem Keeps.fill [DecidableEq α] (h : Keeps slots S m) (hfree : slots j = none)
    (hnew : ∀ c, ¬Lists slots a c) :
    Keeps (Function.update slots j (some (a, b))) S (Function.update m a (some b)) := by
  refine ⟨h.once.fill hnew, fun x hx c => ?_⟩
  rw [lists_fill hfree, update_eq_some_iff, h.binds x hx]
  refine or_congr_right ⟨And.right, fun hc => ⟨?_, hc⟩⟩
  rintro rfl
  exact hnew c hc

/-! ### Freeing a slot -/

theorem lists_free (h : Once slots) (hj : slots j = some (a, b)) :
    Lists (Function.update slots j none) x c ↔ x ≠ a ∧ Lists slots x c := by
  constructor
  · rintro ⟨i, hi⟩
    have hne : i ≠ j := by
      rintro rfl
      rw [Function.update_self] at hi
      cases hi
    rw [Function.update_of_ne hne] at hi
    refine ⟨?_, i, hi⟩
    rintro rfl
    exact hne (h i j x c b hi hj)
  · rintro ⟨hne, i, hi⟩
    have hij : i ≠ j := by
      rintro rfl
      rw [hi] at hj
      cases hj
      exact hne rfl
    exact ⟨i, (Function.update_of_ne hij _ _).trans hi⟩

theorem Once.free (h : Once slots) : Once (Function.update slots j none) := by
  intro i i' x c c' hi hi'
  have hne : ∀ {i : ι} {c : β}, Function.update slots j none i = some (x, c) →
      slots i = some (x, c) := fun {i c} hi => by
    rcases eq_or_ne i j with rfl | hne
    · rw [Function.update_self] at hi
      cases hi
    · rwa [Function.update_of_ne hne] at hi
  exact h i i' x c c' (hne hi) (hne hi')

/-- **A slot that is freed** unbinds the name it held. -/
theorem Keeps.free [DecidableEq α] (h : Keeps slots S m) (hj : slots j = some (a, b)) :
    Keeps (Function.update slots j none) S (Function.update m a none) := by
  refine ⟨h.once.free, fun x hx c => ?_⟩
  rw [lists_free h.once hj, update_none_eq_some_iff, h.binds x hx]

/-! ### Counting -/

section Count

variable {γ : Type*} {row : ℕ → Option γ} {n k l : ℕ} {x : γ}

/-- How many of the first `n` slots of a row are filled. -/
def count (row : ℕ → Option γ) (n : ℕ) : ℕ :=
  ((Finset.range n).filter fun i => (row i).isSome = true).card

theorem mem_filled {i : ℕ} : i ∈ (Finset.range n).filter (fun i => (row i).isSome = true) ↔
    i < n ∧ (row i).isSome = true := by
  rw [Finset.mem_filter, Finset.mem_range]

theorem count_le : count row n ≤ n :=
  (Finset.card_filter_le _ _).trans (Finset.card_range n).le

/-- **A free slot that is filled** counts. -/
theorem count_fill (row : ℕ → Option γ) (hk : k < n) (hfree : row k = none) :
    count (Function.update row k (some x)) n = count row n + 1 := by
  have hinsert : (Finset.range n).filter
    (fun i => (Function.update row k (some x) i).isSome = true) =
      insert k ((Finset.range n).filter fun i => (row i).isSome = true) := by
    ext i
    rw [Finset.mem_insert, mem_filled, mem_filled]
    rcases eq_or_ne i k with rfl | hne
    · rw [Function.update_self]
      exact iff_of_true ⟨hk, rfl⟩ (.inl rfl)
    · rw [Function.update_of_ne hne]
      exact (or_iff_right hne).symm
  have hnot : k ∉ (Finset.range n).filter fun i => (row i).isSome = true := fun h => by
    have := (mem_filled.mp h).2
    rw [hfree] at this
    cases this
  rw [count, hinsert, Finset.card_insert_of_notMem hnot, count]

/-- **A slot that is freed** counts no more. -/
theorem count_free (hk : k < n) (hfull : row k = some x) :
    count (Function.update row k none) n + 1 = count row n := by
  have h := count_fill (Function.update row k none) (x := x) hk (Function.update_self _ _ _)
  rw [Function.update_idem, Function.update_eq_self_iff.mpr hfull.symm] at h
  exact h.symm

/-- When two slots are filled and no more, these are all. -/
theorem eq_or_eq_of_count (h : count row n = 2) (hk : k < n) (hl : l < n) (hne : k ≠ l)
    (hfk : (row k).isSome = true) (hfl : (row l).isSome = true) {i : ℕ} (hi : i < n)
    (hfi : (row i).isSome = true) : i = k ∨ i = l := by
  have hsub : ({k, l} : Finset ℕ) ⊆ (Finset.range n).filter fun i => (row i).isSome = true := by
    intro j hj
    rcases Finset.mem_insert.mp hj with rfl | hj
    · exact mem_filled.mpr ⟨hk, hfk⟩
    · obtain rfl := Finset.mem_singleton.mp hj
      exact mem_filled.mpr ⟨hl, hfl⟩
  have hcard : ((Finset.range n).filter fun i => (row i).isSome = true).card ≤
      ({k, l} : Finset ℕ).card := by
    rw [Finset.card_pair hne]
    exact h.le
  have hmem := mem_filled.mpr ⟨hi, hfi⟩
  rw [← Finset.eq_of_subset_of_card_le hsub hcard, Finset.mem_insert, Finset.mem_singleton] at hmem
  exact hmem

end Count

end Thunix.SlotMap
