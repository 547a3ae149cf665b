import Mathlib.Data.List.Basic
import Mathlib.Logic.Function.Basic

/-!
# A pool of numbers

The reference allocator: of the numbers below `n` some are used, a caller takes one,
naming the one it would like best, or gives one back. What is handed out is the target
if it is free and the least free number otherwise (`Thunix.Pool.Step`).

The law that makes a pool useful is about histories: a number that has been handed out
is not handed out again before it has been given back
(`Thunix.Pool.History.given_between`).
-/

namespace Thunix.Pool

/-- What is asked of a pool. -/
inductive Call
  /-- A number is wanted, this one if possible. -/
  | take (target : ℕ)
  /-- A number is given back. -/
  | give (k : ℕ)
  deriving DecidableEq, Repr

/-- What a pool answers. -/
inductive Answer
  | number (k : ℕ)
  | full
  | given
  deriving DecidableEq, Repr

/-- One call on a pool of the numbers below `n`. -/
inductive Step (n : ℕ) (used : ℕ → Bool) : Call → Answer → (ℕ → Bool) → Prop
  /-- The target is free. -/
  | target {t : ℕ} (free : used t = false) :
      Step n used (.take t) (.number t) (Function.update used t true)
  /-- It is not, and `k` is the least number that is. -/
  | least {t k : ℕ} (taken : used t = true) (lt : k < n) (free : used k = false)
      (below : ∀ j < k, used j = true) :
      Step n used (.take t) (.number k) (Function.update used k true)
  /-- No number is free. -/
  | full {t : ℕ} (taken : used t = true) (all : ∀ j < n, used j = true) :
      Step n used (.take t) .full used
  | give (k : ℕ) : Step n used (.give k) .given (Function.update used k false)

variable {n t k : ℕ} {used used' used'' : ℕ → Bool} {c c' : Call} {a : Answer}

/-- Only a free number is handed out. -/
theorem Step.free (h : Step n used c (.number k) used') : used k = false := by
  cases h with
  | target free => exact free
  | least _ _ free _ => exact free

/-- And it is used from then on. -/
theorem Step.used_number (h : Step n used c (.number k) used') : used' k = true := by
  cases h <;> exact Function.update_self _ _ _

/-- **The pool is full exactly when all its numbers are used.** -/
theorem Step.full_iff (h : Step n used (.take t) a used') (ht : t < n) :
    a = .full ↔ ∀ j < n, used j = true := by
  cases h with
  | target free =>
    refine ⟨fun h => (by cases h), fun hall => ?_⟩
    rw [hall t ht] at free
    cases free
  | least _ lt free _ =>
    refine ⟨fun h => (by cases h), fun hall => ?_⟩
    rw [hall _ lt] at free
    cases free
  | full _ all => exact ⟨fun _ => all, fun _ => rfl⟩

theorem update_true (hk : used k = true) (j : ℕ) : Function.update used j true k = true := by
  by_cases hkj : k = j
  · rw [hkj, Function.update_self]
  · rwa [Function.update_of_ne hkj]

/-- **What is handed out has a property** that free numbers inherit from greater ones,
exactly if some free number has it, or, where the target is free, the target. -/
theorem Step.admits_iff {p : ℕ → Prop} (h : Step n used (.take t) a used')
    (hdown : ∀ j k, k < n → j ≤ k → used j = false → p k → p j) :
    (a = .full ∨ ∃ k, a = .number k ∧ p k) ↔ (used t = false ∧ p t) ∨
      (used t = true ∧ ((∃ k < n, used k = false ∧ p k) ∨ ∀ k < n, used k = true)) := by
  cases h with
  | target free => simp [free]
  | @least _ j taken lt free below =>
    simp only [taken, reduceCtorEq, false_and, false_or, true_and, Answer.number.injEq,
      exists_eq_left']
    refine ⟨fun h => .inl ⟨j, lt, free, h⟩, ?_⟩
    rintro (⟨k, hk, hkfree, hpk⟩ | hall)
    · refine hdown j k hk (Nat.le_of_not_lt fun hkj => ?_) free hpk
      rw [below k hkj] at hkfree
      cases hkfree
    · rw [hall j lt] at free
      cases free
  | full taken all => exact iff_of_true (.inl rfl) (.inr ⟨taken, .inr all⟩)

/-- A number in use stays so unless it is given back. -/
theorem Step.keeps (h : Step n used c a used') (hk : used k = true) (hc : c ≠ .give k) :
    used' k = true := by
  cases h with
  | target => exact update_true hk _
  | least => exact update_true hk _
  | full _ _ => exact hk
  | give j =>
    have hkj : k ≠ j := fun h => hc (h ▸ rfl)
    rwa [Function.update_of_ne hkj]

/-! ### Histories -/

/-- Calls one after another, with their answers. -/
inductive History (n : ℕ) : (ℕ → Bool) → List (Call × Answer) → (ℕ → Bool) → Prop
  | nil (used : ℕ → Bool) : History n used [] used
  | cons {used used' used'' : ℕ → Bool} {c : Call} {a : Answer} {h : List (Call × Answer)} :
      Step n used c a used' → History n used' h used'' → History n used ((c, a) :: h) used''

variable {pre mid post : List (Call × Answer)}

/-- A history is cut in two. -/
theorem History.split (h : History n used (pre ++ post) used'') :
    ∃ used', History n used pre used' ∧ History n used' post used'' := by
  induction pre generalizing used with
  | nil => exact ⟨used, .nil used, h⟩
  | cons x pre ih =>
    cases h with
    | cons hs h =>
      obtain ⟨used', h1, h2⟩ := ih h
      exact ⟨used', .cons hs h1, h2⟩

theorem History.keeps (h : History n used mid used') (hk : used k = true)
    (hmid : ∀ a, (Call.give k, a) ∉ mid) : used' k = true := by
  induction h with
  | nil => exact hk
  | @cons u u' u'' c a h hs _ ih =>
    have hc : c ≠ .give k := by
      rintro rfl
      exact hmid a List.mem_cons_self
    exact ih (hs.keeps hk hc) fun a ha => hmid a (List.mem_cons_of_mem _ ha)

theorem History.given (h : History n used mid used') (hmid : (Call.give k, a) ∈ mid) :
    a = .given := by
  induction h with
  | nil => cases hmid
  | cons hs _ ih =>
    rcases List.mem_cons.mp hmid with heq | hmem
    · obtain ⟨rfl, rfl⟩ := Prod.mk.inj heq
      cases hs
      rfl
    · exact ih hmem

/-- **No number is handed out twice** without having been given back in between. -/
theorem History.given_between
    (h : History n used (pre ++ (c, .number k) :: (mid ++ (c', .number k) :: post)) used') :
    (Call.give k, Answer.given) ∈ mid := by
  obtain ⟨u1, -, h⟩ := h.split
  cases h with
  | cons hs h =>
    obtain ⟨u2, hm, h⟩ := h.split
    by_contra hmid
    have hk := hm.keeps hs.used_number fun a ha => hmid (hm.given ha ▸ ha)
    cases h with
    | cons hs' _ =>
      rw [hs'.free] at hk
      cases hk

/-- Before each call there is a state, from which the call is a step. -/
theorem History.step_at (h : History n used (pre ++ (c, a) :: post) used'') :
    ∃ u u', History n used pre u ∧ Step n u c a u' := by
  obtain ⟨u, hpre, h⟩ := h.split
  cases h with
  | cons hs _ => exact ⟨u, _, hpre, hs⟩

end Thunix.Pool
