import Mathlib.Logic.Basic

/-!
# Hoare triples

Total triples of programs on a state, `Thunix.Hoare P x Q`: from a state with `P`, the
program `x` ends with a result and a state that satisfy `Q`. The rules are those of
`Thunix.Traced.Triple`, without the log. A program that keeps a property of the state
(`Thunix.Preserves`) is one whose parts do.
-/

namespace Thunix

variable {σ τ α β : Type}

/-- From a state with `P`, `Q` holds of the result and the state after the program. -/
def Hoare (P : σ → Prop) (x : StateM σ α) (Q : α → σ → Prop) : Prop :=
  ∀ s, P s → Q (x s).1 (x s).2

variable {P P' : σ → Prop} {x : StateM σ α} {Q Q' : α → σ → Prop}

theorem Hoare.conseq (h : Hoare P x Q) (hP : ∀ s, P' s → P s) (hQ : ∀ a s, Q a s → Q' a s) :
    Hoare P' x Q' := fun s hs => hQ _ _ (h s (hP s hs))

theorem Hoare.pre (h : Hoare P x Q) (hP : ∀ s, P' s → P s) : Hoare P' x Q :=
  h.conseq hP fun _ _ hq => hq

theorem Hoare.post (h : Hoare P x Q) (hQ : ∀ a s, Q a s → Q' a s) : Hoare P x Q' :=
  h.conseq (fun _ hp => hp) hQ

/-- Two triples of one program. -/
theorem Hoare.and (h : Hoare P x Q) (h' : Hoare P' x Q') :
    Hoare (fun s => P s ∧ P' s) x fun a s => Q a s ∧ Q' a s :=
  fun s hs => ⟨h s hs.1, h' s hs.2⟩

theorem Hoare.pure {a : α} (h : ∀ s, P s → Q a s) : Hoare P (pure a : StateM σ α) Q := h

/-- Nothing is asked, and nothing known. -/
theorem Hoare.any : Hoare (fun _ => True) x fun _ _ => True := fun _ _ => trivial

/-- **One program after another.** -/
theorem Hoare.bind {f : α → StateM σ β} {R : β → σ → Prop} (hx : Hoare P x Q)
    (hf : ∀ a, Hoare (Q a) (f a) R) : Hoare P (x >>= f) R :=
  fun s hs => hf _ _ (hx s hs)

/-- One program after another, when the result of the first is known. -/
theorem Hoare.bind_eq {f : α → StateM σ β} {v : α} {S : σ → Prop} {R : β → σ → Prop}
    (hx : Hoare P x fun a s => a = v ∧ S s) (hf : Hoare S (f v) R) : Hoare P (x >>= f) R :=
  hx.bind fun _ s hs => hs.1 ▸ hf s hs.2

/-- Either of two states before. -/
theorem Hoare.or (h : Hoare P x Q) (h' : Hoare P' x Q) : Hoare (fun s => P s ∨ P' s) x Q :=
  fun s hs => hs.elim (h s) (h' s)

/-- Either branch. -/
theorem Hoare.ite {c : Prop} [Decidable c] {y : StateM σ α} (hx : c → Hoare P x Q)
    (hy : ¬c → Hoare P y Q) : Hoare P (if c then x else y) Q := by
  by_cases hc : c
  · rw [if_pos hc]
    exact hx hc
  · rw [if_neg hc]
    exact hy hc

/-- What comes before may be chosen. -/
theorem Hoare.exists {ι : Type} {P : ι → σ → Prop} (h : ∀ i, Hoare (P i) x Q) :
    Hoare (fun s => ∃ i, P i s) x Q := fun s ⟨i, hi⟩ => h i s hi

/-- A fact that does not depend on the state. -/
theorem Hoare.assume {p : Prop} (h : p → Hoare P x Q) : Hoare (fun s => P s ∧ p) x Q :=
  fun s hs => h hs.2 s hs.1

/-- The same, with the fact before the state. -/
theorem Hoare.given {p : Prop} (h : p → Hoare P x Q) : Hoare (fun s => p ∧ P s) x Q :=
  fun s hs => h hs.1 s hs.2

/-! ### What a program keeps -/

/-- The program keeps `P`. -/
def Preserves (P : σ → Prop) (x : StateM σ α) : Prop := Hoare P x fun _ s => P s

theorem Preserves.pure (P : σ → Prop) (a : α) : Preserves P (pure a : StateM σ α) := fun _ h => h

theorem Preserves.bind {f : α → StateM σ β} (hx : Preserves P x) (hf : ∀ a, Preserves P (f a)) :
    Preserves P (x >>= f) := Hoare.bind hx hf

theorem Preserves.ite {c : Prop} [Decidable c] {y : StateM σ α} (hx : Preserves P x)
    (hy : Preserves P y) : Preserves P (if c then x else y) := Hoare.ite (fun _ => hx) fun _ => hy

end Thunix
