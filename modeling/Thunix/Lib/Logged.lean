import Mathlib.Logic.Basic

/-!
# Programs with their accesses

A program that has been written out access by access, with a log of what it touches on
the side. `Thunix.Logged.Runs W x s a s'` says that from `s` the program `x` returns `a`
and leaves `s'`, whatever the log held, and that each entry it adds satisfies `W`. With
`W` always true this is what the program computes; with `W` a set of places it says in
the same breath that the program stays inside of it, so that one derivation serves both.

The rules follow the program text: `Thunix.Logged.Runs.bind` for one step after another,
`Thunix.Logged.Runs.cond` for a branch, and `Thunix.Logged.Runs.visit` for an access.

`Thunix.Logged.Computes P x y` is the same for all states at once, and for the log as a whole: the
program is `y` with a log on the side, and the log satisfies `P`. That is what a bound on the
number of entries needs. `Thunix.Logged.Yields` is that from one state.
-/

namespace Thunix.Logged

variable {σ ε α β : Type}

/-- A program on a state and a log. -/
abbrev Prog (σ ε α : Type) := StateM (σ × List ε) α

/-- A step that touches nothing. -/
def quiet (f : σ → α × σ) : Prog σ ε α := fun t => ((f t.1).1, ((f t.1).2, t.2))

/-- A step that touches `e`. -/
def visit (e : ε) (f : σ → α × σ) : Prog σ ε α := fun t => ((f t.1).1, ((f t.1).2, t.2 ++ [e]))

/-- What the program touches from `s` on. -/
def touched (x : Prog σ ε α) (s : σ) : List ε := (x (s, [])).2.2

/-- From `s` the program returns `a` in `s'`, and touches only what is in `W`. -/
def Runs (W : ε → Prop) (x : Prog σ ε α) (s : σ) (a : α) (s' : σ) : Prop :=
  ∃ es, (∀ log, x (s, log) = (a, (s', log ++ es))) ∧ ∀ e ∈ es, W e

variable {W : ε → Prop} {x y : Prog σ ε α} {s s' s'' : σ} {a : α}

/-- What is touched is in `W`. -/
theorem Runs.touched (h : Runs W x s a s') : ∀ e ∈ touched x s, W e := by
  obtain ⟨es, hx, hes⟩ := h
  rw [Logged.touched, hx]
  exact hes

/-- The whole log of a run. -/
theorem Runs.apply (h : Runs W x s a s') (log : List ε) :
    x (s, log) = (a, (s', log ++ Logged.touched x s)) := by
  obtain ⟨es, hx, -⟩ := h
  rw [Logged.touched, hx, hx, List.nil_append]

theorem Runs.mono {V : ε → Prop} (h : Runs W x s a s') (hWV : ∀ e, W e → V e) :
    Runs V x s a s' := by
  obtain ⟨es, hx, hes⟩ := h
  exact ⟨es, hx, fun e he => hWV e (hes e he)⟩

theorem Runs.quiet (f : σ → α × σ) : Runs W (quiet f) s (f s).1 (f s).2 :=
  ⟨[], fun log => by simp [Logged.quiet], by simp⟩

/-- **An access.** -/
theorem Runs.visit {e : ε} (f : σ → α × σ) (he : W e) :
    Runs W (visit e f) s (f s).1 (f s).2 :=
  ⟨[e], fun _ => rfl, by simpa using he⟩

theorem Runs.pure (a : α) : Runs W (pure a : Prog σ ε α) s a s :=
  ⟨[], fun log => by rw [List.append_nil]; rfl, by simp⟩

/-- **One step after another.** -/
theorem Runs.bind {f : α → Prog σ ε β} {b : β} (hx : Runs W x s a s')
    (hf : Runs W (f a) s' b s'') : Runs W (x >>= f) s b s'' := by
  obtain ⟨es, hx, hes⟩ := hx
  obtain ⟨es', hf, hes'⟩ := hf
  refine ⟨es ++ es', fun log => ?_, fun e he => (List.mem_append.mp he).elim (hes e) (hes' e)⟩
  rw [← List.append_assoc, ← hf]
  exact congrArg (fun r : α × (σ × List ε) => f r.1 r.2) (hx log)

/-- What one step after another touches. -/
theorem Runs.touched_bind {f : α → Prog σ ε β} {b : β} {V : ε → Prop} (hx : Runs W x s a s')
    (hf : Runs V (f a) s' b s'') :
    Logged.touched (x >>= f) s = Logged.touched x s ++ Logged.touched (f a) s' := by
  have hrun : (x >>= f) (s, []) = f a (s', Logged.touched x s) :=
    congrArg (fun r : α × (σ × List ε) => f r.1 r.2) (hx.apply [])
  rw [Logged.touched, hrun, hf.apply]

/-- A step that touches nothing comes first. -/
theorem touched_quiet_bind (f : σ → α × σ) (g : α → Prog σ ε β) :
    Logged.touched (Logged.quiet f >>= g) s = Logged.touched (g (f s).1) (f s).2 := rfl

/-- An access comes first. -/
theorem Runs.touched_visit_bind {e : ε} {f : σ → α × σ} {g : α → Prog σ ε β} {b : β}
    (h : Runs W (g (f s).1) (f s).2 b s') :
    Logged.touched (Logged.visit e f >>= g) s = e :: Logged.touched (g (f s).1) (f s).2 := by
  have hrun : (Logged.visit e f >>= g) (s, []) = g (f s).1 ((f s).2, [e]) := rfl
  rw [Logged.touched, hrun, h.apply]
  rfl

/-- The program does nothing to the log but add to it. -/
def Adds (x : Prog σ ε α) : Prop := ∀ s, ∃ a s', Runs (fun _ => True) x s a s'

theorem Adds.pure (a : α) : Adds (pure a : Prog σ ε α) := fun s => ⟨a, s, .pure a⟩

theorem Adds.visit (e : ε) (f : σ → α × σ) : Adds (visit e f) := fun _ => ⟨_, _, .visit f trivial⟩

theorem Adds.bind {f : α → Prog σ ε β} (hx : Adds x) (hf : ∀ a, Adds (f a)) : Adds (x >>= f) :=
  fun s => by
    obtain ⟨a, s', hx⟩ := hx s
    obtain ⟨b, s'', hf⟩ := hf a s'
    exact ⟨b, s'', hx.bind hf⟩

theorem Adds.ite {c : Prop} [Decidable c] (hx : Adds x) (hy : Adds y) :
    Adds (if c then x else y) := by
  by_cases hc : c
  · rw [if_pos hc]
    exact hx
  · rw [if_neg hc]
    exact hy

/-- What the first step touches is touched. -/
theorem Adds.mem_touched_bind {f : α → Prog σ ε β} {e : ε} (hx : Adds x) (hf : ∀ a, Adds (f a))
    (he : e ∈ Logged.touched x s) : e ∈ Logged.touched (x >>= f) s := by
  obtain ⟨a, s', hx⟩ := hx s
  obtain ⟨b, s'', hf⟩ := hf a s'
  rw [Runs.touched_bind hx hf]
  exact List.mem_append_left _ he

/-- What the next step touches is touched. -/
theorem Runs.mem_touched_bind {f : α → Prog σ ε β} {e : ε} (hx : Runs W x s a s')
    (hf : Adds (f a)) (he : e ∈ Logged.touched (f a) s') : e ∈ Logged.touched (x >>= f) s := by
  obtain ⟨b, s'', hf⟩ := hf s'
  rw [Runs.touched_bind hx hf]
  exact List.mem_append_right _ he

/-- **A branch**, taken on a condition the two sides spell differently. -/
theorem Runs.cond {c d : Prop} [Decidable c] [Decidable d] (hcd : c ↔ d) (hx : d → Runs W x s a s')
    (hy : ¬d → Runs W y s a s'') :
    Runs W (if c then x else y) s a (if d then s' else s'') := by
  by_cases hd : d
  · rw [if_pos (hcd.mpr hd), if_pos hd]
    exact hx hd
  · rw [if_neg (mt hcd.mp hd), if_neg hd]
    exact hy hd

/-! ### What is computed, and what is logged -/

/-- Without its log the program is `y`, and from every state its log satisfies `P`. -/
def Computes (P : List ε → Prop) (x : Prog σ ε α) (y : StateM σ α) : Prop :=
  ∀ s, ∃ es, (∀ log, x (s, log) = ((y s).1, ((y s).2, log ++ es))) ∧ P es

section Computes

variable {P Q R : List ε → Prop} {u v : StateM σ α}

/-- What the program computes is `y`. -/
theorem Computes.apply (h : Computes P x u) (s : σ) (log : List ε) :
    x (s, log) = ((u s).1, ((u s).2, log ++ Logged.touched x s)) := by
  obtain ⟨es, hx, -⟩ := h s
  rw [Logged.touched, hx, hx, List.nil_append]

/-- What the program touches satisfies `P`. -/
theorem Computes.touched (h : Computes P x u) (s : σ) : P (Logged.touched x s) := by
  obtain ⟨es, hx, hes⟩ := h s
  rw [Logged.touched, hx]
  exact hes

theorem Computes.mono (h : Computes P x u) (hPQ : ∀ es, P es → Q es) : Computes Q x u := by
  intro s
  obtain ⟨es, hx, hes⟩ := h s
  exact ⟨es, hx, hPQ es hes⟩

theorem Computes.quiet (f : StateM σ α) (hP : P []) : Computes P (quiet f) f :=
  fun _ => ⟨[], fun log => by rw [List.append_nil]; rfl, hP⟩

theorem Computes.visit {e : ε} (f : StateM σ α) (hP : P [e]) : Computes P (visit e f) f :=
  fun _ => ⟨[e], fun _ => rfl, hP⟩

theorem Computes.pure (a : α) (hP : P []) : Computes P (pure a : Prog σ ε α) (pure a) :=
  .quiet (fun s => (a, s)) hP

/-- **One step after another:** the next step need only be known for what the first returns. -/
theorem Computes.bind {f : α → Prog σ ε β} {g : α → StateM σ β} (hx : Computes P x u)
    (hf : ∀ s, Computes Q (f (u s).1) (g (u s).1)) (hR : ∀ es fs, P es → Q fs → R (es ++ fs)) :
    Computes R (x >>= f) (u >>= g) := by
  intro s
  obtain ⟨es, hx, hes⟩ := hx s
  obtain ⟨fs, hf, hfs⟩ := hf s (u s).2
  refine ⟨es ++ fs, fun log => ?_, hR es fs hes hfs⟩
  rw [← List.append_assoc]
  exact (congrArg (fun r : α × (σ × List ε) => f r.1 r.2) (hx log)).trans (hf (log ++ es))

/-- A first step that returns what it computes in another shape. -/
theorem Computes.bind_map {γ : Type} {x : Prog σ ε γ} {h : α → γ} {f : γ → Prog σ ε β}
    {g : α → StateM σ β} (hx : Computes P x (h <$> u)) (hf : ∀ a, Computes Q (f (h a)) (g a))
    (hR : ∀ es fs, P es → Q fs → R (es ++ fs)) : Computes R (x >>= f) (u >>= g) := by
  intro s
  obtain ⟨es, hx, hes⟩ := hx s
  obtain ⟨fs, hf, hfs⟩ := hf (u s).1 (u s).2
  refine ⟨es ++ fs, fun log => ?_, hR es fs hes hfs⟩
  rw [← List.append_assoc]
  exact (congrArg (fun r : γ × (σ × List ε) => f r.1 r.2) (hx log)).trans (hf (log ++ es))

/-- A first step that changes nothing. -/
theorem Computes.bind_pure {a : α} {f : α → Prog σ ε β} {g : StateM σ β}
    (hx : Computes P x (Pure.pure a)) (hf : Computes Q (f a) g)
    (hR : ∀ es fs, P es → Q fs → R (es ++ fs)) : Computes R (x >>= f) g :=
  Computes.bind (g := fun _ => g) hx (fun _ => hf) hR

theorem Computes.ite {c : Prop} [Decidable c] (hx : c → Computes P x u)
    (hy : ¬c → Computes P y v) : Computes P (if c then x else y) (if c then u else v) := by
  by_cases hc : c
  · rw [if_pos hc, if_pos hc]
    exact hx hc
  · rw [if_neg hc, if_neg hc]
    exact hy hc

end Computes

section Yields

variable {P Q R : List ε → Prop}

/-- From `s` the program returns `a` in `s'`, and its log satisfies `P`. -/
def Yields (P : List ε → Prop) (x : Prog σ ε α) (s : σ) (a : α) (s' : σ) : Prop :=
  ∃ es, (∀ log, x (s, log) = (a, (s', log ++ es))) ∧ P es

theorem Computes.yields {u : StateM σ α} (h : Computes P x u) (s : σ) :
    Yields P x s (u s).1 (u s).2 := h s

theorem Yields.touched (h : Yields P x s a s') : P (touched x s) := by
  obtain ⟨es, hx, hes⟩ := h
  rw [Logged.touched, hx]
  exact hes

theorem Yields.runs (h : Yields P x s a s') : Runs (fun _ => True) x s a s' := by
  obtain ⟨es, hx, -⟩ := h
  exact ⟨es, hx, fun _ _ => trivial⟩

theorem Yields.mono (h : Yields P x s a s') (hPQ : ∀ es, P es → Q es) : Yields Q x s a s' := by
  obtain ⟨es, hx, hes⟩ := h
  exact ⟨es, hx, hPQ es hes⟩

theorem Yields.quiet (f : StateM σ α) (hP : P []) : Yields P (quiet f) s (f s).1 (f s).2 :=
  Computes.quiet f hP s

theorem Yields.visit {e : ε} (f : StateM σ α) (hP : P [e]) :
    Yields P (visit e f) s (f s).1 (f s).2 := Computes.visit f hP s

theorem Yields.pure (a : α) (hP : P []) : Yields P (pure a : Prog σ ε α) s a s :=
  Computes.pure a hP s

/-- **One step after another.** -/
theorem Yields.bind {f : α → Prog σ ε β} {b : β} (hx : Yields P x s a s')
    (hf : Yields Q (f a) s' b s'') (hR : ∀ es fs, P es → Q fs → R (es ++ fs)) :
    Yields R (x >>= f) s b s'' := by
  obtain ⟨es, hx, hes⟩ := hx
  obtain ⟨fs, hf, hfs⟩ := hf
  refine ⟨es ++ fs, fun log => ?_, hR es fs hes hfs⟩
  rw [← List.append_assoc, ← hf]
  exact congrArg (fun r : α × (σ × List ε) => f r.1 r.2) (hx log)

theorem Adds.of_computes {u : StateM σ α} (h : Computes P x u) : Adds x :=
  fun s => ⟨_, _, (h.yields s).runs⟩

theorem Adds.quiet (f : StateM σ α) : Adds (quiet f : Prog σ ε α) := fun _ => ⟨_, _, .quiet f⟩

end Yields

end Thunix.Logged
