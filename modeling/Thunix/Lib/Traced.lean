import Mathlib.Logic.Basic

/-!
# Programs that keep a log

A program on a state that includes a log only ever adds to it, and what is promised of
the program is often promised under a condition on what it adds: that the requests it
made were granted, that the transfers it started have gone well. `Thunix.Traced.Triple`
is the Hoare triple for this. Its condition judges each new entry by the log before it,
and the rules of the file are the usual ones; `Thunix.Traced.Triple.bind` is where the
condition on a whole program is split between its parts.
-/

namespace Thunix.Traced

variable {σ τ ε α β : Type}

/-- Every entry of the list may be added to the log, one after another. -/
def AllOk (ok : List ε → ε → Prop) : List ε → List ε → Prop
  | _, [] => True
  | log, ev :: es => ok log ev ∧ AllOk ok (log ++ [ev]) es

instance AllOk.decidable {ok : List ε → ε → Prop} [∀ log ev, Decidable (ok log ev)] :
    ∀ log es, Decidable (AllOk ok log es)
  | _, [] => isTrue trivial
  | log, ev :: es =>
    have : Decidable (AllOk ok (log ++ [ev]) es) := AllOk.decidable _ _
    inferInstanceAs (Decidable (_ ∧ _))

theorem allOk_append {ok : List ε → ε → Prop} {log es es' : List ε} :
    AllOk ok log (es ++ es') ↔ AllOk ok log es ∧ AllOk ok (log ++ es) es' := by
  induction es generalizing log with
  | nil => simp [AllOk]
  | cons ev es ih => simp [AllOk, ih, and_assoc]

/-- From a state with `P`, if what the program adds to the log is in order, `Q` holds of
its result and the state after it. -/
def Triple (log : σ → List ε) (ok : List ε → ε → Prop) (P : σ → Prop) (x : StateM σ α)
    (Q : α → σ → Prop) : Prop :=
  ∀ s, ∃ es, log (x s).2 = log s ++ es ∧ (P s → AllOk ok (log s) es → Q (x s).1 (x s).2)

variable {log : σ → List ε} {ok : List ε → ε → Prop} {P P' : σ → Prop} {x : StateM σ α}
  {Q Q' : α → σ → Prop}

theorem Triple.conseq (h : Triple log ok P x Q) (hP : ∀ s, P' s → P s)
    (hQ : ∀ a s, Q a s → Q' a s) : Triple log ok P' x Q' := fun s => by
  obtain ⟨es, hes, hq⟩ := h s
  exact ⟨es, hes, fun hp hok => hQ _ _ (hq (hP s hp) hok)⟩

/-- A program that adds nothing. -/
theorem Triple.silent (hlog : ∀ s, log (x s).2 = log s) (h : ∀ s, P s → Q (x s).1 (x s).2) :
    Triple log ok P x Q := fun s =>
  ⟨[], by rw [hlog, List.append_nil], fun hp _ => h s hp⟩

theorem Triple.pure {a : α} (h : ∀ s, P s → Q a s) :
    Triple log ok P (pure a : StateM σ α) Q :=
  .silent (fun _ => rfl) h

/-- **One program after another.** -/
theorem Triple.bind {f : α → StateM σ β} {R : β → σ → Prop} (hx : Triple log ok P x Q)
    (hf : ∀ a, Triple log ok (Q a) (f a) R) : Triple log ok P (x >>= f) R := fun s => by
  obtain ⟨es, hes, hq⟩ := hx s
  obtain ⟨es', hes', hr⟩ := hf (x s).1 (x s).2
  refine ⟨es ++ es', ?_, fun hp hok => ?_⟩
  · rw [← List.append_assoc, ← hes]
    exact hes'
  · obtain ⟨hok1, hok2⟩ := allOk_append.mp hok
    rw [← hes] at hok2
    exact hr (hq hp hok1) hok2

/-- A fact that does not depend on the state is kept. -/
theorem Triple.frame {p : Prop} (h : Triple log ok P x Q) :
    Triple log ok (fun s => P s ∧ p) x fun a s => Q a s ∧ p := fun s => by
  obtain ⟨es, hes, hq⟩ := h s
  exact ⟨es, hes, fun hp hok => ⟨hq hp.1 hok, hp.2⟩⟩

/-- What comes before may be chosen. -/
theorem Triple.exists {ι : Type} [Nonempty ι] {P : ι → σ → Prop}
    (h : ∀ i, Triple log ok (P i) x Q) : Triple log ok (fun s => ∃ i, P i s) x Q := fun s => by
  obtain ⟨i⟩ := ‹Nonempty ι›
  obtain ⟨es, hes, -⟩ := h i s
  refine ⟨es, hes, fun ⟨j, hj⟩ hok => ?_⟩
  obtain ⟨es', hes', hq⟩ := h j s
  rw [List.append_cancel_left (hes.symm.trans hes')] at hok
  exact hq hj hok

/-- Either branch. -/
theorem Triple.ite {c : Prop} [Decidable c] {y : StateM σ α} (hx : c → Triple log ok P x Q)
    (hy : ¬c → Triple log ok P y Q) : Triple log ok P (if c then x else y) Q := by
  by_cases hc : c
  · rw [if_pos hc]
    exact hx hc
  · rw [if_neg hc]
    exact hy hc

/-- **A program on a part of the state.** -/
theorem Triple.zoom {get : τ → σ} {y : StateM τ α} (h : Triple log ok P x Q)
    (hres : ∀ t, (y t).1 = (x (get t)).1) (hget : ∀ t, get (y t).2 = (x (get t)).2) :
    Triple (fun t => log (get t)) ok (fun t => P (get t)) y fun a t => Q a (get t) := fun t => by
  obtain ⟨es, hes, hq⟩ := h (get t)
  refine ⟨es, ?_, fun hp hok => ?_⟩
  · show log (get (y t).2) = log (get t) ++ es
    rw [hget, hes]
  · show Q (y t).1 (get (y t).2)
    rw [hres, hget]
    exact hq hp hok

end Thunix.Traced
