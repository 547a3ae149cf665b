import Mathlib.Data.List.Basic
import Mathlib.Logic.Function.Basic
import Thunix.Lib.Run

/-!
# Timers

`add_timer` puts a function into a free slot of a fixed table, to be called in a
later call of `do_timer`, which the clock interrupt makes. The slots are meant to form a
list sorted by time, each with the ticks it comes after its predecessor; `next_timer`
is its head.

A called function may call `add_timer` itself, so one call of `do_timer` is not one
step here: `Thunix.Drivers.doTimerEntry` is what it does before its loop,
`Thunix.Drivers.doTimerNext` one turn of the loop, and calls of `add_timer` may come
between two turns. `Thunix.Drivers.clockStep` is the system they form, which also
remembers in which call of `do_timer` each function is due and in which it was called;
`Thunix.Drivers.OnTime` compares the two.

No statement assigns to the `next` field of a slot. The list therefore has one element,
and a timer that is added takes the place of the one that is pending, whose
function is never called and whose slot is never free again
(`Thunix.Drivers.not_onTime`). While no timer is added before the pending one has
fired, every timer fires once and on time (`Thunix.Drivers.onTime_of_reach`).
-/

namespace Thunix.Drivers

variable {φ : Type}

/-- `TIME_REQUESTS`. -/
abbrev timeRequests : ℕ := 64

/-- `struct timer_list`, over the functions `φ` that a timer may call. -/
structure TimerList (φ : Type) where
  timerTicks : UInt32
  fn : Option φ
  /-- A pointer into the table. -/
  next : Option (Fin timeRequests)

/-- The variables of `timer.c`. -/
structure Timers (φ : Type) where
  countDown : UInt32
  timerList : Fin timeRequests → TimerList φ
  nextTimer : Option (Fin timeRequests)

/-! ### The source -/

/-- The first loop of `add_timer`: the first slot that holds no function. -/
def freeSlot (list : Fin timeRequests → TimerList φ) : Option (Fin timeRequests) :=
  (List.finRange timeRequests).find? fun p => (list p).fn.isNone

/-- The second loop of `add_timer`: while the slot behind `p` is due earlier, the two
exchange what they hold. It has no result if the loop goes on for `fuel` turns. -/
def exchangeLoop : ℕ → (Fin timeRequests → TimerList φ) → Fin timeRequests →
    Option (Fin timeRequests → TimerList φ)
  | 0, _, _ => none
  | fuel + 1, list, p =>
    match (list p).next with
    | none => some list
    | some q =>
      if (list p).timerTicks > (list q).timerTicks then
        let ticks := (list p).timerTicks - (list q).timerTicks
        let fn := (list p).fn
        let list1 := Function.update list p
          { list p with timerTicks := (list q).timerTicks, fn := (list q).fn }
        let list2 := Function.update list1 q { list1 q with timerTicks := ticks, fn := fn }
        exchangeLoop fuel list2 q
      else some list

/-- `add_timer`, with the function it calls itself, if it calls one. It has no result
if it panics because no slot is free. -/
def addTimer (s : Timers φ) (timerTicks : UInt32) : Option φ → Option (Timers φ × Option φ)
  | none => some (s, none)
  | some fn =>
    if timerTicks ≤ 0 then some (s, some fn)
    else do
      let p ← freeSlot s.timerList
      let list ← exchangeLoop timeRequests
        (Function.update s.timerList p { s.timerList p with fn := some fn, timerTicks }) p
      some ({ s with timerList := list, nextTimer := some p }, none)

/-- `do_timer` up to its loop. -/
def doTimerEntry (s : Timers φ) : Timers φ :=
  let countDown := if s.countDown ≠ 0 then s.countDown - 1 else s.countDown
  match s.nextTimer with
  | none => { s with countDown }
  | some p =>
    let slot := s.timerList p
    { s with
      countDown
      timerList := Function.update s.timerList p
        { slot with timerTicks := slot.timerTicks - 1 } }

/-- A turn of the loop of `do_timer`: the variables and the function when the function is
about to be called, nothing when the loop is left. -/
def doTimerNext (s : Timers φ) : Option (Timers φ × Option φ) :=
  match s.nextTimer with
  | none => none
  | some p =>
    let slot := s.timerList p
    if slot.timerTicks ≤ 0 then
      some ({ s with
        timerList := Function.update s.timerList p { slot with fn := none }
        nextTimer := slot.next }, slot.fn)
    else none

/-! ### The system -/

/-- The timers, and what has been asked of them. -/
structure Clock (φ : Type) where
  timers : Timers φ
  /-- Whether `do_timer` is in its loop. -/
  inLoop : Bool
  /-- The calls of `do_timer` so far. -/
  ticks : ℕ
  /-- The functions added, each with the number of the call of `do_timer` it is due in. -/
  added : List (ℕ × φ)
  /-- The functions called, each with the number of the last call of `do_timer`. -/
  called : List (ℕ × φ)

/-- What happens to the timers. -/
inductive ClockAct (φ : Type)
  /-- `add_timer(t, fn)`, by the program or by a function that `do_timer` has called. -/
  | add (t : UInt32) (fn : φ)
  /-- `do_timer` is called. -/
  | tick
  /-- A turn of its loop. -/
  | turn

/-- The record of a call. -/
def Clock.call (s : Clock φ) : Option φ → Clock φ
  | none => s
  | some fn => { s with called := (s.ticks, fn) :: s.called }

/-- One step of the system. -/
def clockStep (s : Clock φ) : ClockAct φ → Option (Clock φ)
  | .add t fn =>
    (addTimer s.timers t (some fn)).map fun r =>
      { s with
        timers := r.1
        added := (s.ticks + t.toNat, fn) :: s.added }.call r.2
  | .tick =>
    if s.inLoop then none
    else some { s with
      timers := doTimerEntry s.timers
      inLoop := s.timers.nextTimer.isSome
      ticks := s.ticks + 1 }
  | .turn =>
    if s.inLoop then
      match doTimerNext s.timers with
      | none => some { s with inLoop := false }
      | some r => some ({ s with timers := r.1 }.call r.2)
    else none

/-- The table is zero-initialised. -/
def clockStart : Clock φ where
  timers :=
    { countDown := 0
      timerList := fun _ => { timerTicks := 0, fn := none, next := none }
      nextTimer := none }
  inLoop := false
  ticks := 0
  added := []
  called := []

/-- **Every timer fires once and on time**: the calls of `do_timer` that have returned
have called the functions that were due in them, each as often as it was due. -/
def OnTime (s : Clock φ) : Prop :=
  ∀ n, n < s.ticks ∨ n = s.ticks ∧ s.inLoop = false →
    (s.called.filter fun c => c.1 = n).Perm (s.added.filter fun c => c.1 = n)

/-- What callers promise: a timer is added for a later tick, and no more are pending
than the table has slots. -/
def Proper (s : Clock φ) : ClockAct φ → Prop
  | .add t _ => 0 < t ∧ s.added.length - s.called.length < timeRequests
  | _ => True

/-- The condition on a step: a timer is added when none is pending. -/
def OneAtATime (s : Clock φ) : ClockAct φ → Prop
  | .add _ _ => s.timers.nextTimer = none
  | _ => True

/-! ### A table without links -/

/-- The timers while they are used one at a time: no slot is linked, and the pending
function, if there is one, is the only one in the table. -/
structure Single (s : Timers φ) (pending : Option (UInt32 × φ)) : Prop where
  unlinked : ∀ p, (s.timerList p).next = none
  /-- Where no function is pending the table is free. -/
  idle : s.nextTimer = none → pending = none ∧ ∀ p, (s.timerList p).fn = none
  /-- The pending function is in the slot `next_timer` points to. -/
  head : ∀ p, s.nextTimer = some p →
    pending = (s.timerList p).fn.map ((s.timerList p).timerTicks, ·) ∧
      (s.timerList p).fn.isSome ∧ ∀ q, q ≠ p → (s.timerList q).fn = none

theorem exchangeLoop_unlinked {list : Fin timeRequests → TimerList φ} {p : Fin timeRequests}
    {fuel : ℕ} (h : (list p).next = none) : exchangeLoop (fuel + 1) list p = some list := by
  rw [exchangeLoop, h]

theorem unlinked_update {list : Fin timeRequests → TimerList φ} {slot : TimerList φ}
    {p : Fin timeRequests} (h : ∀ p, (list p).next = none) (hslot : slot.next = none)
    (q : Fin timeRequests) : (Function.update list p slot q).next = none := by
  by_cases hqp : q = p
  · rwa [hqp, Function.update_self]
  · rw [Function.update_of_ne hqp]
    exact h q

/-- **A timer added when none is pending** becomes the pending one. -/
theorem addTimer_single {s : Timers φ} {t : UInt32} (fn : φ) (hs : Single s none)
    (hnext : s.nextTimer = none) (ht : 0 < t) :
    ∃ s', addTimer s t (some fn) = some (s', none) ∧ Single s' (some (t, fn)) := by
  obtain ⟨-, hfree⟩ := hs.idle hnext
  have hsome : (freeSlot s.timerList).isSome := by
    rw [freeSlot, List.find?_isSome]
    exact ⟨0, List.mem_finRange _, by rw [hfree]; rfl⟩
  obtain ⟨p, hp⟩ := Option.isSome_iff_exists.mp hsome
  refine ⟨{ s with
    timerList := Function.update s.timerList p
      { s.timerList p with fn := some fn, timerTicks := t }
    nextTimer := some p }, ?_, unlinked_update hs.unlinked ?_, fun h => ?_, fun q hq => ?_⟩
  · rw [addTimer, if_neg (UInt32.not_le.mpr ht), hp]
    simp only [Option.bind_eq_bind, Option.bind_some, timeRequests]
    rw [exchangeLoop_unlinked]
    · rfl
    · apply unlinked_update hs.unlinked
      exact hs.unlinked p
  · exact hs.unlinked p
  · cases h
  · obtain rfl : p = q := Option.some.inj hq
    refine ⟨?_, ?_, fun r hr => ?_⟩
    · simp only [Function.update_self, Option.map_some]
    · simp only [Function.update_self, Option.isSome_some]
    · simp only [Function.update_of_ne hr]
      exact hfree r

/-- **A tick** takes one from the ticks of the pending function. -/
theorem doTimerEntry_single {s : Timers φ} {pending : Option (UInt32 × φ)}
    (hs : Single s pending) :
    Single (doTimerEntry s) (pending.map fun x => (x.1 - 1, x.2)) := by
  rcases hnext : s.nextTimer with _ | p
  · obtain ⟨rfl, hfree⟩ := hs.idle hnext
    have heq : doTimerEntry s =
        { s with countDown := if s.countDown ≠ 0 then s.countDown - 1 else s.countDown } := by
      rw [doTimerEntry, hnext]
    rw [heq]
    refine ⟨hs.unlinked, fun _ => ⟨rfl, hfree⟩, fun p hp => ?_⟩
    cases hnext ▸ hp
  · obtain ⟨rfl, hsome, hfree⟩ := hs.head p hnext
    have heq : doTimerEntry s = { s with
        countDown := if s.countDown ≠ 0 then s.countDown - 1 else s.countDown
        timerList := Function.update s.timerList p
          { s.timerList p with timerTicks := (s.timerList p).timerTicks - 1 } } := by
      rw [doTimerEntry, hnext]
    rw [heq]
    refine ⟨unlinked_update hs.unlinked ?_, fun h => ?_, fun q hq => ?_⟩
    · exact hs.unlinked p
    · cases hnext ▸ h
    · obtain rfl : p = q := Option.some.inj (hnext.symm.trans hq)
      refine ⟨?_, ?_, fun r hr => ?_⟩
      · simp only [Function.update_self, Option.map_map]
        rfl
      · simpa only [Function.update_self] using hsome
      · simp only [Function.update_of_ne hr]
        exact hfree r hr

/-- **A turn of the loop** calls the pending function if no ticks are left of it. -/
theorem doTimerNext_single {s : Timers φ} {pending : Option (UInt32 × φ)}
    (hs : Single s pending) :
    (doTimerNext s = none ∧ ∀ x ∈ pending, 0 < x.1) ∨
      ∃ s' fn, doTimerNext s = some (s', some fn) ∧ pending = some (0, fn) ∧ Single s' none := by
  rcases hnext : s.nextTimer with _ | p
  · obtain ⟨rfl, -⟩ := hs.idle hnext
    exact .inl ⟨by rw [doTimerNext, hnext], fun x hx => (by cases hx)⟩
  · obtain ⟨rfl, hsome, hfree⟩ := hs.head p hnext
    obtain ⟨fn, hfn⟩ := Option.isSome_iff_exists.mp hsome
    by_cases hticks : (s.timerList p).timerTicks ≤ 0
    · have hzero : (s.timerList p).timerTicks = 0 := by simpa using hticks
      refine .inr ⟨{ s with
        timerList := Function.update s.timerList p { s.timerList p with fn := none }
        nextTimer := (s.timerList p).next }, fn, ?_, ?_, unlinked_update hs.unlinked ?_,
        fun _ => ⟨rfl, fun q => ?_⟩, fun q hq => ?_⟩
      · rw [doTimerNext, hnext]
        simp only [if_pos hticks, hfn]
      · rw [hfn, hzero, Option.map_some]
      · exact hs.unlinked p
      · by_cases hqp : q = p
        · simp only [hqp, Function.update_self]
        · simp only [Function.update_of_ne hqp]
          exact hfree q hqp
      · cases (hs.unlinked p).symm.trans hq
    · refine .inl ⟨?_, fun x hx => ?_⟩
      · rw [doTimerNext, hnext]
        simp only [if_neg hticks]
      · rw [hfn, Option.map_some, Option.mem_some_iff] at hx
        rw [← hx]
        exact UInt32.not_le.mp hticks

/-! ### Runs -/

/-- The invariant: what has been added has been called, but for the pending function,
which is due in as many ticks as are left of it. -/
def ClockInv (s : Clock φ) : Prop :=
  ∃ pending : Option (UInt32 × φ), Single s.timers pending ∧
    s.added = (pending.map fun x => (s.ticks + x.1.toNat, x.2)).toList ++ s.called ∧
    (s.inLoop = false → ∀ x ∈ pending, 0 < x.1)

theorem clockInv_start : ClockInv (clockStart : Clock φ) :=
  ⟨none, ⟨fun _ => rfl, fun _ => ⟨rfl, fun _ => rfl⟩, fun p hp => (by cases hp)⟩, rfl,
    fun _ x hx => (by cases hx)⟩

theorem sub_one_toNat {t : UInt32} (ht : 0 < t) (n : ℕ) :
    n + 1 + (t - 1).toNat = n + t.toNat := by
  have hpos : 1 ≤ t.toNat := ht
  rw [UInt32.toNat_sub_of_le t 1 hpos, UInt32.toNat_one]
  omega

/-- **One step keeps the invariant.** -/
theorem ClockInv.step {s s' : Clock φ} {a : ClockAct φ} (hs : ClockInv s)
    (hok : Proper s a ∧ OneAtATime s a) (h : StepOf clockStep s a s') : ClockInv s' := by
  obtain ⟨pending, hsingle, hadded, hlate⟩ := hs
  cases a with
  | add t fn =>
    obtain ⟨⟨ht, -⟩, hnext⟩ := hok
    obtain rfl : pending = none := (hsingle.idle hnext).1
    obtain ⟨t', hadd, hsingle'⟩ := addTimer_single fn hsingle hnext ht
    simp only [StepOf, clockStep, hadd, Option.map_some, Option.some.injEq] at h
    subst h
    refine ⟨some (t, fn), hsingle', ?_, fun _ x hx => ?_⟩
    · simp only [Clock.call, hadded]
      rfl
    · rw [Option.mem_some_iff] at hx
      rw [← hx]
      exact ht
  | tick =>
    have hsingle' := doTimerEntry_single hsingle
    simp only [StepOf, clockStep] at h
    split at h
    · cases h
    · next hout =>
      have hlate' := hlate (by simpa using hout)
      cases h
      refine ⟨_, hsingle', ?_, fun hno x hx => ?_⟩
      · rw [hadded]
        rcases pending with _ | ⟨t, fn⟩
        · rfl
        · simp only [Option.map_some, Option.toList_some, sub_one_toNat (hlate' (t, fn) rfl)]
      · have hnone : pending = none :=
          (hsingle.idle (Option.isSome_eq_false_iff.mp hno |> Option.isNone_iff_eq_none.mp)).1
        rw [hnone] at hx
        cases hx
  | turn =>
    simp only [StepOf, clockStep] at h
    split at h
    · rcases doTimerNext_single hsingle with ⟨hnone, hpos⟩ | ⟨t', fn, hsome, rfl, hsingle'⟩
      · rw [hnone] at h
        cases h
        exact ⟨pending, hsingle, hadded, fun _ => hpos⟩
      · rw [hsome] at h
        cases h
        refine ⟨none, hsingle', ?_, fun _ x hx => (by cases hx)⟩
        rw [Clock.call, hadded]
        rfl
    · cases h

/-- The entries of one call of `do_timer` among those with the pending one, if that is
due later. -/
theorem filter_pending {pending : Option (UInt32 × φ)} {called : List (ℕ × φ)} {ticks n : ℕ}
    (h : ∀ x ∈ pending, n < ticks + x.1.toNat) :
    (((pending.map fun x => (ticks + x.1.toNat, x.2)).toList ++ called).filter
      fun c => c.1 = n) = called.filter fun c => c.1 = n := by
  rcases pending with _ | x
  · rfl
  · have hne : ¬ ticks + x.1.toNat = n := by
      have := h x rfl
      omega
    simp only [Option.map_some, Option.toList_some, List.singleton_append, List.filter_cons,
      hne, decide_false, Bool.false_eq_true, if_false]

theorem ClockInv.onTime {s : Clock φ} (hs : ClockInv s) : OnTime s := by
  obtain ⟨pending, -, hadded, hlate⟩ := hs
  intro n hn
  rw [hadded, filter_pending]
  intro x hx
  rcases hn with hn | ⟨rfl, hout⟩
  · omega
  · have hpos : 0 < x.1.toNat := hlate hout x hx
    omega

/-- **Used one at a time, timers fire once and on time**, and there is always a slot for
the next one. -/
theorem onTime_of_reach {s : Clock φ}
    (hs : Reach (StepOf clockStep) (fun s a => Proper s a ∧ OneAtATime s a) clockStart s) :
    OnTime s ∧ ∀ t fn, Proper s (.add t fn) ∧ OneAtATime s (.add t fn) →
      (clockStep s (.add t fn)).isSome := by
  have hinv := hs.invariant clockInv_start fun _ _ _ h hok hstep => h.step hok hstep
  refine ⟨hinv.onTime, fun t fn hok => ?_⟩
  obtain ⟨pending, hsingle, -⟩ := hinv
  obtain rfl : pending = none := (hsingle.idle hok.2).1
  obtain ⟨t', hadd, -⟩ := addTimer_single fn hsingle hok.2 hok.1.1
  simp only [clockStep, hadd, Option.map_some, Option.isSome_some]

instance : ∀ (s : Clock φ) a, Decidable (Proper s a)
  | _, .add _ _ => inferInstanceAs (Decidable (_ ∧ _))
  | _, .tick => inferInstanceAs (Decidable True)
  | _, .turn => inferInstanceAs (Decidable True)

instance : ∀ (s : Clock φ) a, Decidable (OneAtATime s a)
  | s, .add _ _ => decidable_of_iff (s.timers.nextTimer = none) Iff.rfl
  | _, .tick => inferInstanceAs (Decidable True)
  | _, .turn => inferInstanceAs (Decidable True)

/-- A function that adds itself again when it is called. -/
theorem onTime_of_reach_again : ∃ s : Clock Bool,
    Reach (StepOf clockStep) (fun s a => Proper s a ∧ OneAtATime s a) clockStart s ∧
      s.called = [(2, true)] ∧ OnTime s := by
  have h : ((runOf clockStep (fun s a => Proper s a ∧ OneAtATime s a) [.add 2 true, .tick, .turn,
      .tick, .turn, .add 3 true, .turn, .tick] clockStart).map Clock.called) =
      some [(2, true)] := by
    decide +kernel
  obtain ⟨s, hrun, hs⟩ := Option.map_eq_some_iff.mp h
  have hreach := reach_of_runOf .start hrun
  exact ⟨s, hreach, hs, (onTime_of_reach hreach).1⟩

/-- **A second timer takes the place of the first.** Of two timers, for 2 ticks and
for 1 tick, the first has not fired after 3 ticks. -/
theorem not_onTime : ¬∀ s : Clock Bool, Reach (StepOf clockStep) Proper clockStart s →
    OnTime s := by
  intro hall
  have hbad : ((runOf clockStep Proper [.add 2 false, .add 1 true, .tick, .turn, .turn, .tick,
      .tick] clockStart).map fun s : Clock Bool => (s.ticks, s.added, s.called)) =
      some (3, [(1, true), (2, false)], [(1, true)]) := by
    decide +kernel
  obtain ⟨s, hrun, hs⟩ := Option.map_eq_some_iff.mp hbad
  obtain ⟨hticks, hs⟩ := Prod.mk.inj hs
  obtain ⟨hadded, hcalled⟩ := Prod.mk.inj hs
  have hperm := hall s (reach_of_runOf .start hrun) 2 (.inl (by rw [hticks]; decide))
  rw [hadded, hcalled] at hperm
  exact absurd hperm.length_eq (by decide)

end Thunix.Drivers
