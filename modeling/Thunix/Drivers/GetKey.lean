import Mathlib.Data.Int.Notation
import Thunix.Drivers.Keyboard

/-!
# Reading keys

`get_key` returns the keys that the interrupt has stored in the ring buffer. When it has
none left it waits: it remembers the place where the next key will be stored, waits for
that key, gives more keys time to arrive, and takes the distance the write index has moved
as the number of keys it has. Interrupts come between any two of its statements, so
`Thunix.Drivers.keyStep` is one statement of `get_key` or one stored key.

The write index is reduced modulo the size of the buffer, the read index is
not, and neither is the distance between the two. `Thunix.Drivers.Undisturbed`
asks that the write index does not wrap round during a wait, and that no key is stored over
one that `get_key` has still to return; then the keys are returned in order, and those
that came during a wait before all later ones (`Thunix.Drivers.inOrder_of_reach`).
When the index wraps round during the wait, the number of keys is negative, and `get_key`
reads past the end of the buffer (`Thunix.Drivers.not_inBuffer`).
-/

namespace Thunix.Drivers

/-- The next statement of `get_key`, and of `do_get_key`, which it calls. -/
inductive Place
  /-- `get_key` has not been called, or has returned. -/
  | out
  /-- `if (key_left--)` -/
  | test
  /-- `return kbd_ring_buffer[ri++]` -/
  | read
  /-- `ri = wi` -/
  | reset
  /-- `while (ri == wi)` -/
  | wait
  /-- `sleep(10)` -/
  | delay
  /-- `key_left = wi - ri` -/
  | count
  deriving DecidableEq

/-- The keyboard's variables and what has become of the keys. -/
structure Keys where
  kbd : Kbd
  ri : ℤ
  keyLeft : ℤ
  place : Place
  /-- The keys stored so far. -/
  stored : List UInt8
  /-- The keys returned so far. -/
  returned : List UInt8
  /-- How many keys had been stored when the last wait began. -/
  begun : ℕ
  /-- The waits that are over: how many keys had been stored at the beginning of each,
  and how many when they were counted. -/
  waits : List (ℕ × ℕ)
  /-- The keys stored since the last call of `get_key`. -/
  since : ℕ

/-- What happens. -/
inductive KeyAct
  /-- The interrupt stores a key. -/
  | store (key : UInt8)
  /-- `get_key` is called. -/
  | call
  /-- It executes a statement. -/
  | run

/-- A statement of `get_key`. It has no result when the buffer is read outside. -/
def getKeyStep (s : Keys) : Option Keys :=
  match s.place with
  | .out => none
  | .test =>
    some { s with keyLeft := s.keyLeft - 1, place := if s.keyLeft ≠ 0 then .read else .reset }
  | .read =>
    if 0 ≤ s.ri ∧ s.ri < kbdBufSize then
      some { s with
        ri := s.ri + 1
        place := .out
        returned := s.returned ++ [s.kbd.kbdRingBuffer s.ri.toNat] }
    else none
  | .reset => some { s with ri := s.kbd.wi, place := .wait, begun := s.stored.length }
  | .wait => some { s with place := if s.ri = s.kbd.wi then .wait else .delay }
  | .delay => some { s with place := .count }
  | .count =>
    some { s with
      keyLeft := s.kbd.wi - s.ri
      place := .test
      waits := (s.begun, s.stored.length) :: s.waits }

/-- One step. -/
def keyStep (s : Keys) : KeyAct → Option Keys
  | .store key =>
    some { s with
      kbd := storeKey s.kbd key
      stored := s.stored ++ [key]
      since := s.since + 1 }
  | .call => if s.place = .out then some { s with place := .test, since := 0 } else none
  | .run => getKeyStep s

/-- Nothing has been typed. -/
def keysStart : Keys where
  kbd := kbdStart
  ri := 0
  keyLeft := 0
  place := .out
  stored := []
  returned := []
  begun := 0
  waits := []
  since := 0

/-- Fewer than `KBD_BUF_SIZE` keys arrive between two calls of `get_key`. -/
def Paced (s : Keys) : KeyAct → Prop
  | .store _ => s.since + 1 < kbdBufSize
  | _ => True

/-- The keys that `get_key` has counted and not returned. -/
def unread (s : Keys) : ℤ :=
  match s.place with
  | .out | .test => s.keyLeft
  | .read => s.keyLeft + 1
  | _ => 0

/-- The condition on a step: no key is stored in a place that holds one still to be
returned, and when the keys are counted the write index has not wrapped round since the
wait began. -/
def Undisturbed (s : Keys) : KeyAct → Prop
  | .store _ => ¬(s.ri ≤ s.kbd.wi ∧ s.kbd.wi < s.ri + unread s)
  | .run => s.place = .count → s.ri < s.kbd.wi
  | .call => True

/-- The buffer is read inside. -/
def InBuffer (s : Keys) : Prop := s.place = .read → 0 ≤ s.ri ∧ s.ri < kbdBufSize

/-- **Keys are returned in order**: those returned are some of those stored, each once,
and those stored during a wait have all been returned before any that came after it. -/
def InOrder (s : Keys) : Prop :=
  ∃ taken : List ℕ, taken.Pairwise (· < ·) ∧
    s.returned.map some = taken.map (s.stored[·]?) ∧
    ∀ w ∈ s.waits, ∀ i ∈ taken, w.2 ≤ i → ∀ j, w.1 ≤ j → j < w.2 → j ∈ taken

/-! ### The buffer -/

/-- The buffer holds the last `KBD_BUF_SIZE` keys stored. -/
structure HoldsKeys (k : Kbd) (stored : List UInt8) : Prop where
  wi : k.wi = stored.length % kbdBufSize
  key : ∀ p < stored.length, stored.length ≤ p + kbdBufSize →
    some (k.kbdRingBuffer (p % kbdBufSize)) = stored[p]?

theorem mod_ne_of_lt {p n : ℕ} (h : p < n) (hn : n < p + kbdBufSize) :
    p % kbdBufSize ≠ n % kbdBufSize := by
  rw [show kbdBufSize = 1024 from rfl] at *
  omega

/-- **A key stored** takes the place of the oldest. -/
theorem HoldsKeys.store {k : Kbd} {stored : List UInt8} (h : HoldsKeys k stored) (key : UInt8) :
    HoldsKeys (storeKey k key) (stored ++ [key]) where
  wi := by
    rw [storeKey, List.length_append, List.length_singleton]
    simp only [h.wi, Nat.mod_add_mod]
  key p hp hlen := by
    rw [List.length_append, List.length_singleton] at hp hlen
    rw [storeKey, h.wi]
    rcases Nat.lt_succ_iff_lt_or_eq.mp hp with hlt | rfl
    · rw [List.getElem?_append_left hlt]
      simp only [Function.update_of_ne (mod_ne_of_lt hlt hlen)]
      exact h.key p hlt (by omega)
    · simp only [Function.update_self, List.getElem?_concat_length]

/-! ### The invariant -/

/-- What holds between two steps, where the keys returned are those at the positions
`taken` and the read index stands at the position `front`. -/
structure KeysInv (s : Keys) (taken : List ℕ) (front : ℕ) : Prop where
  buffer : HoldsKeys s.kbd s.stored
  unread_nonneg : 0 ≤ unread s
  reading : s.place = .read → 0 < unread s
  /-- The keys counted lie in one piece, and in the buffer. -/
  counted : 0 < unread s → s.ri = (front % kbdBufSize : ℕ) ∧ s.ri + unread s < kbdBufSize ∧
    front + unread s ≤ s.stored.length ∧ s.stored.length ≤ front + kbdBufSize
  /-- A wait has begun at the read index. -/
  waiting : s.place = .wait ∨ s.place = .delay ∨ s.place = .count →
    s.ri = (front % kbdBufSize : ℕ) ∧ front = s.begun ∧ s.stored.length ≤ s.begun + s.since
  since_lt : s.since < kbdBufSize
  front_le : front ≤ s.stored.length
  sorted : taken.Pairwise (· < ·)
  below : ∀ i ∈ taken, i < front
  returned : s.returned.map some = taken.map (s.stored[·]?)
  /-- Of the keys counted, those before the read index have been returned. -/
  waits : ∀ w ∈ s.waits, w.2 ≤ front + unread s ∧
    ∀ j, w.1 ≤ j → j < w.2 → j < front → j ∈ taken

variable {s s' : Keys} {taken : List ℕ} {front : ℕ}

theorem keysInv_start : KeysInv keysStart [] 0 where
  buffer := ⟨rfl, fun p hp => absurd hp (Nat.not_lt_zero p)⟩
  unread_nonneg := Int.le_refl 0
  reading h := by cases h
  counted h := absurd h (Int.lt_irrefl 0)
  waiting h := by rcases h with h | h | h <;> cases h
  since_lt := by decide
  front_le := Nat.le_refl 0
  sorted := .nil
  below i hi := by cases hi
  returned := rfl
  waits w hw := by cases hw

theorem KeysInv.inOrder (h : KeysInv s taken front) : InOrder s := by
  refine ⟨taken, h.sorted, h.returned, fun w hw i hi hle j hj hlt => ?_⟩
  have := h.below i hi
  exact (h.waits w hw).2 j hj hlt (by omega)

theorem KeysInv.inBuffer (h : KeysInv s taken front) : InBuffer s := by
  intro hread
  obtain ⟨hri, hroom, -⟩ := h.counted (h.reading hread)
  have := h.reading hread
  omega

/-- **A key is stored.** -/
theorem KeysInv.store {key : UInt8} (h : KeysInv s taken front) (hpaced : Paced s (.store key))
    (hok : Undisturbed s (.store key)) :
    KeysInv { s with
      kbd := storeKey s.kbd key
      stored := s.stored ++ [key]
      since := s.since + 1 } taken front where
  buffer := h.buffer.store key
  unread_nonneg := h.unread_nonneg
  reading := h.reading
  counted hpos := by
    obtain ⟨hri, hroom, hle, hlen⟩ := h.counted hpos
    rw [Undisturbed, h.buffer.wi, hri] at hok
    refine ⟨hri, hroom, ?_, ?_⟩ <;> rw [List.length_append, List.length_singleton]
    · change (front : ℤ) + unread s ≤ _
      omega
    · change 0 < unread s at hpos
      rw [show kbdBufSize = 1024 from rfl] at *
      omega
  waiting hwait := by
    obtain ⟨hri, hfront, hlen⟩ := h.waiting hwait
    refine ⟨hri, hfront, ?_⟩
    change (s.stored ++ [key]).length ≤ s.begun + (s.since + 1)
    rw [List.length_append, List.length_singleton]
    omega
  since_lt := hpaced
  front_le := by
    rw [List.length_append]
    exact Nat.le_add_right_of_le h.front_le
  sorted := h.sorted
  below := h.below
  returned := by
    rw [h.returned]
    refine List.map_congr_left fun i hi => ?_
    exact (List.getElem?_append_left (Nat.lt_of_lt_of_le (h.below i hi) h.front_le)).symm
  waits := h.waits

/-- **`get_key` is called.** -/
theorem KeysInv.call (h : KeysInv s taken front) (hplace : s.place = .out) :
    KeysInv { s with place := .test, since := 0 } taken front := by
  have hunread : unread { s with place := .test, since := 0 } = unread s := by
    simp only [unread, hplace]
  exact {
    buffer := h.buffer
    unread_nonneg := hunread ▸ h.unread_nonneg
    reading := fun hr => (by cases hr)
    counted := fun hpos => by
      rw [hunread] at hpos ⊢
      exact h.counted hpos
    waiting := fun hw => (by rcases hw with hw | hw | hw <;> cases hw)
    since_lt := Nat.zero_lt_succ _
    front_le := h.front_le
    sorted := h.sorted
    below := h.below
    returned := h.returned
    waits := hunread ▸ h.waits }

/-- A statement that leaves the keys and the read index alone keeps the invariant. -/
theorem KeysInv.move {place : Place} (h : KeysInv s taken front) (left : ℤ)
    (hunread : unread { s with keyLeft := left, place } = unread s)
    (hread : place = .read → 0 < unread s)
    (hwait : place = .wait ∨ place = .delay ∨ place = .count →
      s.place = .wait ∨ s.place = .delay ∨ s.place = .count) :
    KeysInv { s with keyLeft := left, place } taken front where
  buffer := h.buffer
  unread_nonneg := hunread ▸ h.unread_nonneg
  reading hr := hunread ▸ hread hr
  counted hpos := by
    rw [hunread] at hpos ⊢
    exact h.counted hpos
  waiting hw := h.waiting (hwait hw)
  since_lt := h.since_lt
  front_le := h.front_le
  sorted := h.sorted
  below := h.below
  returned := h.returned
  waits := hunread ▸ h.waits

/-- **A key is returned.** -/
theorem KeysInv.read (h : KeysInv s taken front) (hplace : s.place = .read) :
    KeysInv { s with
      ri := s.ri + 1
      place := .out
      returned := s.returned ++ [s.kbd.kbdRingBuffer s.ri.toNat] } (taken ++ [front])
      (front + 1) := by
  have hpos := h.reading hplace
  obtain ⟨hri, hroom, hle, hlen⟩ := h.counted hpos
  have hunread : unread s = s.keyLeft + 1 := by simp only [unread, hplace]
  rw [hunread] at hpos hroom hle
  have hlt : front < s.stored.length := by omega
  exact {
    buffer := h.buffer
    unread_nonneg := by
      change 0 ≤ s.keyLeft
      omega
    reading := fun hr => (by cases hr)
    counted := fun hleft => by
      change 0 < s.keyLeft at hleft
      change s.ri + 1 = ((front + 1) % kbdBufSize : ℕ) ∧ s.ri + 1 + s.keyLeft < kbdBufSize ∧
        ((front + 1 : ℕ) : ℤ) + s.keyLeft ≤ s.stored.length ∧
        s.stored.length ≤ front + 1 + kbdBufSize
      rw [show kbdBufSize = 1024 from rfl] at *
      omega
    waiting := fun hw => (by rcases hw with hw | hw | hw <;> cases hw)
    since_lt := h.since_lt
    front_le := hlt
    sorted := by
      rw [List.pairwise_append]
      refine ⟨h.sorted, List.pairwise_singleton _ _, fun i hi j hj => ?_⟩
      rw [List.mem_singleton] at hj
      rw [hj]
      exact h.below i hi
    below := fun i hi => by
      rcases List.mem_append.mp hi with hi | hi
      · exact Nat.lt_succ_of_lt (h.below i hi)
      · rw [List.mem_singleton] at hi
        omega
    returned := by
      have hkey := h.buffer.key front hlt hlen
      have hri' : s.ri.toNat = front % kbdBufSize := by omega
      rw [List.map_append, List.map_append, h.returned, hri', List.map_singleton, hkey,
        List.map_singleton]
    waits := fun w hw => by
      obtain ⟨hend, htaken⟩ := h.waits w hw
      rw [hunread] at hend
      refine ⟨?_, fun j hj1 hj2 hj3 => ?_⟩
      · change (w.2 : ℤ) ≤ ((front + 1 : ℕ) : ℤ) + s.keyLeft
        omega
      · rcases Nat.lt_succ_iff_lt_or_eq.mp hj3 with hj | rfl
        · exact List.mem_append_left _ (htaken j hj1 hj2 hj)
        · exact List.mem_append_right _ (List.mem_singleton_self _) }

/-- **A wait begins**, at the end of what has been stored. -/
theorem KeysInv.reset (h : KeysInv s taken front) (hplace : s.place = .reset) :
    KeysInv { s with ri := s.kbd.wi, place := .wait, begun := s.stored.length } taken
      s.stored.length where
  buffer := h.buffer
  unread_nonneg := Int.le_refl 0
  reading hr := by cases hr
  counted hpos := absurd hpos (Int.lt_irrefl 0)
  waiting _ := ⟨congrArg _ h.buffer.wi, rfl, Nat.le_add_right _ _⟩
  since_lt := h.since_lt
  front_le := Nat.le_refl _
  sorted := h.sorted
  below i hi := Nat.lt_of_lt_of_le (h.below i hi) h.front_le
  returned := h.returned
  waits w hw := by
    obtain ⟨hend, htaken⟩ := h.waits w hw
    have hunread : unread s = 0 := by simp only [unread, hplace]
    rw [hunread] at hend
    have hle := h.front_le
    refine ⟨?_, fun j hj1 hj2 _ => htaken j hj1 hj2 (by omega)⟩
    change (w.2 : ℤ) ≤ (s.stored.length : ℤ) + 0
    omega

/-- **The keys are counted.** -/
theorem KeysInv.count (h : KeysInv s taken front) (hplace : s.place = .count)
    (hlt : s.ri < s.kbd.wi) :
    KeysInv { s with
      keyLeft := s.kbd.wi - s.ri
      place := .test
      waits := (s.begun, s.stored.length) :: s.waits } taken front := by
  obtain ⟨hri, hfront, hlen⟩ := h.waiting (.inr (.inr hplace))
  have hwi := h.buffer.wi
  have hsince := h.since_lt
  have hle := h.front_le
  -- the index has not wrapped round, so it has moved by the number of keys stored
  have hcount : (s.kbd.wi : ℤ) - s.ri = s.stored.length - front := by
    rw [show kbdBufSize = 1024 from rfl] at *
    omega
  exact {
    buffer := h.buffer
    unread_nonneg := by
      change (0 : ℤ) ≤ s.kbd.wi - s.ri
      omega
    reading := fun hr => (by cases hr)
    counted := fun hpos => by
      change s.ri = (front % kbdBufSize : ℕ) ∧ s.ri + (s.kbd.wi - s.ri) < kbdBufSize ∧
        (front : ℤ) + (s.kbd.wi - s.ri) ≤ s.stored.length ∧
        s.stored.length ≤ front + kbdBufSize
      rw [show kbdBufSize = 1024 from rfl] at *
      omega
    waiting := fun hw => (by rcases hw with hw | hw | hw <;> cases hw)
    since_lt := h.since_lt
    front_le := hle
    sorted := h.sorted
    below := h.below
    returned := h.returned
    waits := fun w hw => by
      rcases List.mem_cons.mp hw with rfl | hw
      · refine ⟨?_, fun j hj1 _ hj3 => absurd hj1 (by omega)⟩
        change (s.stored.length : ℤ) ≤ (front : ℤ) + (s.kbd.wi - s.ri)
        omega
      · obtain ⟨hend, htaken⟩ := h.waits w hw
        have hunread : unread s = 0 := by simp only [unread, hplace]
        rw [hunread] at hend
        refine ⟨?_, htaken⟩
        change (w.2 : ℤ) ≤ (front : ℤ) + (s.kbd.wi - s.ri)
        omega }

/-- The keys returned are those at some positions. -/
def InStep (s : Keys) : Prop := ∃ taken front, KeysInv s taken front

/-- **A statement of `get_key`.** -/
theorem KeysInv.run (h : KeysInv s taken front) (hok : Undisturbed s .run)
    (hs' : getKeyStep s = some s') : InStep s' := by
  rcases hplace : s.place <;> rw [getKeyStep, hplace] at hs'
  case out => cases hs'
  case test =>
    obtain rfl := Option.some.inj hs'
    have hunread : unread s = s.keyLeft := by simp only [unread, hplace]
    by_cases hleft : s.keyLeft ≠ 0
    · rw [if_pos hleft]
      have hnonneg := h.unread_nonneg
      refine ⟨taken, front, h.move _ ?_ (fun _ => by omega) fun hw => ?_⟩
      · change s.keyLeft - 1 + 1 = unread s
        omega
      · rcases hw with hw | hw | hw <;> cases hw
    · rw [if_neg hleft]
      refine ⟨taken, front, h.move _ ?_ (fun hr => by cases hr) fun hw => ?_⟩
      · change 0 = unread s
        omega
      · rcases hw with hw | hw | hw <;> cases hw
  case read =>
    simp only at hs'
    split at hs'
    · obtain rfl := Option.some.inj hs'
      exact ⟨_, _, h.read hplace⟩
    · cases hs'
  case reset =>
    obtain rfl := Option.some.inj hs'
    exact ⟨_, _, h.reset hplace⟩
  case wait =>
    obtain rfl := Option.some.inj hs'
    have hunread : unread s = 0 := by simp only [unread, hplace]
    refine ⟨taken, front, h.move s.keyLeft ?_ (fun hr => ?_) fun _ => .inl hplace⟩
    · rw [hunread]
      split <;> rfl
    · split at hr <;> cases hr
  case delay =>
    obtain rfl := Option.some.inj hs'
    have hunread : unread s = 0 := by simp only [unread, hplace]
    exact ⟨taken, front, h.move s.keyLeft hunread.symm (fun hr => by cases hr)
      fun _ => .inr (.inl hplace)⟩
  case count =>
    obtain rfl := Option.some.inj hs'
    exact ⟨taken, front, h.count hplace (hok hplace)⟩

/-- **One step keeps the invariant.** -/
theorem KeysInv.step {a : KeyAct} (h : KeysInv s taken front)
    (hok : Paced s a ∧ Undisturbed s a) (hs' : StepOf keyStep s a s') : InStep s' := by
  cases a with
  | store key =>
    obtain rfl := Option.some.inj hs'
    exact ⟨_, _, h.store hok.1 hok.2⟩
  | call =>
    rw [StepOf, keyStep] at hs'
    split at hs'
    · next hplace =>
      obtain rfl := Option.some.inj hs'
      exact ⟨_, _, h.call hplace⟩
    · cases hs'
  | run => exact h.run hok.2 hs'

/-- **Undisturbed, the keys are returned in order**, and the buffer is read inside. -/
theorem inOrder_of_reach {s : Keys}
    (hs : Reach (StepOf keyStep) (fun s a => Paced s a ∧ Undisturbed s a) keysStart s) :
    InBuffer s ∧ InOrder s := by
  have hinv : InStep s := by
    refine hs.invariant ⟨[], 0, keysInv_start⟩ ?_
    rintro _ _ _ ⟨_, _, h⟩ hok hstep
    exact h.step hok hstep
  obtain ⟨taken, front, hinv⟩ := hinv
  exact ⟨hinv.inBuffer, hinv.inOrder⟩

instance : ∀ s a, Decidable (Paced s a)
  | _, .store _ => inferInstanceAs (Decidable (_ < _))
  | _, .call => inferInstanceAs (Decidable True)
  | _, .run => inferInstanceAs (Decidable True)

instance : ∀ s a, Decidable (Undisturbed s a)
  | _, .store _ => inferInstanceAs (Decidable ¬(_ ∧ _))
  | _, .call => inferInstanceAs (Decidable True)
  | _, .run => inferInstanceAs (Decidable (_ → _))

/-- Two keys that come during a wait, and one that comes before the first is returned. -/
theorem inOrder_of_reach_two : ∃ s,
    Reach (StepOf keyStep) (fun s a => Paced s a ∧ Undisturbed s a) keysStart s ∧
      s.returned = [97, 98] ∧ InBuffer s ∧ InOrder s := by
  have h : ((runOf keyStep (fun s a => Paced s a ∧ Undisturbed s a) [.call, .run, .run, .store 97,
      .run, .store 98, .run, .run, .store 99, .run, .run, .call, .run, .run]
      keysStart).map Keys.returned) = some [97, 98] := by
    decide +kernel
  obtain ⟨s, hrun, hs⟩ := Option.map_eq_some_iff.mp h
  have hreach := reach_of_runOf .start hrun
  obtain ⟨hin, horder⟩ := inOrder_of_reach hreach
  exact ⟨s, hreach, hs, hin, horder⟩

/-- The steps of a call that waits until four keys have come. -/
def waitForFour : List KeyAct :=
  [.call, .run, .run, .store 1, .store 2, .store 3, .store 4, .run, .run, .run, .run, .run]

/-- **After the index has wrapped round the buffer is read outside.** Four keys come during
a wait that begins two places before the end of the buffer; they are not counted as 4 but
as less than 0, and the third read is behind the end. -/
theorem not_inBuffer : ¬∀ s, Reach (StepOf keyStep) Paced keysStart s →
    InBuffer s ∧ InOrder s := by
  intro hall
  have hbad : ((runOf keyStep Paced (List.replicate 1022 (.store 0) ++ waitForFour ++
      [.call, .run, .run, .call, .run] ) keysStart).map fun s => (s.place, s.ri)) =
      some (.read, 1024) := by
    decide +kernel
  obtain ⟨s, hrun, hs⟩ := Option.map_eq_some_iff.mp hbad
  obtain ⟨hplace, hri⟩ := Prod.mk.inj hs
  have hin := (hall s (reach_of_runOf .start hrun)).1 hplace
  rw [hri] at hin
  exact absurd hin (by decide)

end Thunix.Drivers
