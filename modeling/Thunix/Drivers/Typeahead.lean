import Thunix.Drivers.GetKey

/-!
# From the keys to the characters read

The keyboard interrupt stores characters in the ring buffer and `get_key` returns them, and each
works between any two statements of the other. `Thunix.Drivers.Listening` is both: a keyboard whose
keys are pressed and released, and a program that calls `get_key` again and again.

What a key means is said by the modifier keys that are held and by Caps Lock
(`Thunix.Drivers.keyChar`), not by the bits of `mode`. A key counts only while `get_key` waits:
when it has none left it begins at the write index, so that what has been typed before is lost. The
characters that count are all returned, each once and in the order of the keys
(`Thunix.Drivers.heard_of_reach`), and without further interrupts `get_key` comes to return them
all (`Thunix.Drivers.settles_of_reach`).
-/

namespace Thunix.Drivers

/-! ### What a key means -/

/-- The modifier keys that are held. -/
def modifiers (held : Key → Bool) : List Key :=
  [leftShift, rightShift, leftCtrl, rightCtrl, leftAlt, rightAlt].filter held

/-- **The character of a key**, from the modifier keys held and Caps Lock. Two modifier keys at once
make none, nor does a right Ctrl or Alt key. -/
def keyChar (held : Key → Bool) (caps : Bool) (code : UInt8) : Option UInt8 :=
  let lock := fun key => if caps then revertChar key else key
  match modifiers held with
  | [] => some (lock (normalMap code))
  | [m] =>
    if m = leftShift ∨ m = rightShift then some (lock (revertChar (shiftMap code)))
    else if m = leftCtrl then some (lock (ctrlMap code))
    else none
  | _ => none

/-- What a key makes when it is pressed or released. -/
def strokeChar (held : Key → Bool) (caps : Bool) (k : Key) (down : Bool) : Option UInt8 :=
  if down = true ∧ k.Printable then keyChar held caps k.code else none

/-- Caps Lock after a key is pressed or released. -/
def capsAfter (caps : Bool) (k : Key) (down : Bool) : Bool :=
  if down = true ∧ k.code = 0x3A then !caps else caps

/-- The lamp of Caps Lock. -/
def capsLed (caps : Bool) : UInt8 := if caps then CAPS_LOCK else 0

/-- A character is stored, if there is one. -/
def buffered (s : Kbd) (key : Option UInt8) : Kbd := key.elim s (storeKey s)

/-- **The mode and the modifier keys**: with none held it is 0, with one held the bit of this one,
and with two or more it does not have one bit. -/
theorem modifiers_cases (held : Key → Bool) :
    (modifiers held = [] ∧ heldMode held = 0) ∨
      (∃ m ∈ [leftShift, rightShift, leftCtrl, rightCtrl, leftAlt, rightAlt],
        modifiers held = [m] ∧ heldMode held = m.flag) ∨
      (2 ≤ (modifiers held).length ∧ (heldMode held &&& 0x3f).toNat ≠ 0 ∧
        ((heldMode held &&& 0x3f).toNat - 1) ||| (heldMode held &&& 0x3f).toNat ≠
          2 * (heldMode held &&& 0x3f).toNat - 1) := by
  simp only [modifiers, List.filter, heldMode]
  generalize held leftShift = a, held rightShift = b, held leftCtrl = c, held rightCtrl = d,
    held leftAlt = e, held rightAlt = f
  revert a b c d e f
  decide +kernel

theorem capsLed_and (caps : Bool) : capsLed caps &&& CAPS_LOCK ≠ 0 ↔ caps = true := by
  revert caps
  decide

/-- **A key is looked up.** -/
theorem pln_char {s : Kbd} {held : Key → Bool} {caps : Bool} {code : UInt8}
    (hmode : s.mode = heldMode held) (hleds : s.leds = capsLed caps)
    (hcode : ¬ code &&& 0x80 ≠ 0) (hclean : s.mode &&& 0x3f ∉ [RCTRL, LALT, RALT]) :
    pln s code = some (buffered s (keyChar held caps code)) := by
  have hlock : ∀ key, (if s.leds &&& CAPS_LOCK ≠ 0 then revertChar key else key) =
      if caps then revertChar key else key := by
    intro key
    rw [hleds]
    exact if_congr (capsLed_and caps) rfl rfl
  simp only [pln, if_neg hcode, finalKey, hlock]
  rcases modifiers_cases held with ⟨hnone, h0⟩ | ⟨m, hm, hone, hflag⟩ | ⟨htwo, h0, htest⟩
  · rw [hmode, h0]
    simp only [keyChar, hnone]
    rfl
  · rw [hmode, hflag] at hclean ⊢
    simp only [keyChar, hone]
    simp only [List.mem_cons, List.not_mem_nil, or_false] at hm
    rcases hm with rfl | rfl | rfl | rfl | rfl | rfl
    · rfl
    · rfl
    · rfl
    all_goals exact absurd (by decide) hclean
  · rw [hmode, if_neg h0, if_neg htest]
    have hnothing : keyChar held caps code = none := by
      rw [keyChar]
      split
      · next h => simp [h] at htwo
      · next h => simp [h] at htwo
      · rfl
    rw [hnothing]
    rfl

theorem capsAfter_of_ne {caps : Bool} {k : Key} {down : Bool} (h : k.code ≠ 0x3A) :
    capsAfter caps k down = caps :=
  if_neg fun hc => h hc.2

theorem strokeChar_of_not {held : Key → Bool} {caps : Bool} {k : Key} {down : Bool}
    (h : ¬(down = true ∧ k.Printable)) : strokeChar held caps k down = none :=
  if_neg h

theorem capsLed_not (caps : Bool) : capsLed caps ^^^ CAPS_LOCK = capsLed !caps := by
  revert caps
  decide

/-- The byte of Caps Lock. -/
theorem cap_char {s : Kbd} {caps : Bool} {k : Key} {down : Bool} (hleds : s.leds = capsLed caps)
    (hcap : k.code = 0x3A) : (cap s (k.byte down)).leds = capsLed (capsAfter caps k down) ∧
      (cap s (k.byte down)).kbdRingBuffer = s.kbdRingBuffer ∧
      (cap s (k.byte down)).wi = s.wi := by
  cases down with
  | false =>
    rw [cap, if_pos ((k.byte_top false).mpr rfl)]
    exact ⟨hleds, rfl, rfl⟩
  | true =>
    have htop : ¬ k.byte true &&& 0x80 ≠ 0 := fun hc => by cases (k.byte_top true).mp hc
    have hafter : capsAfter caps k true = !caps := if_pos ⟨rfl, hcap⟩
    rw [cap, if_neg htop, hafter, ← capsLed_not, hleds]
    exact ⟨rfl, rfl, rfl⟩

/-- **The byte of a key** stores its character, if it has one, and only Caps Lock changes the
lamps. -/
theorem keyboardInterrupt_char {s s' : Kbd} {held : Key → Bool} {caps : Bool} {k : Key}
    {down : Bool} (hmode : s.mode = heldMode held) (hleds : s.leds = capsLed caps)
    (h : keyboardInterrupt s (k.byte down) = some s') :
    s'.leds = capsLed (capsAfter caps k down) ∧
      s'.kbdRingBuffer = (buffered s (strokeChar held caps k down)).kbdRingBuffer ∧
      s'.wi = (buffered s (strokeChar held caps k down)).wi := by
  by_cases hk : k.flag = 0
  swap
  · obtain ⟨gotE0, heq⟩ := keyboardInterrupt_modifier s down hk
    obtain rfl := Option.some.inj (heq.symm.trans h)
    have hcode : k.code ≠ 0x3A := by
      rcases Key.modifier hk with rfl | rfl | rfl | rfl | rfl | rfl <;> decide
    rw [capsAfter_of_ne hcode, strokeChar_of_not fun hc => hk hc.2.1]
    exact ⟨hleds, rfl, rfl⟩
  obtain ⟨h36, h2A, h1D, h38⟩ := k.code_ne_modifier hk
  rw [keyboardInterrupt, if_neg (k.byte_ne down), k.byte_and, if_neg (not_or.mpr ⟨h36, h2A⟩)] at h
  by_cases hcap : k.code = 0x3A
  · rw [if_pos hcap] at h
    obtain rfl := Option.some.inj h
    rw [strokeChar_of_not fun hc => hc.2.2 hcap]
    exact cap_char hleds hcap
  rw [if_neg hcap, if_neg h1D, if_neg h38] at h
  rw [capsAfter_of_ne hcap]
  cases down with
  | false =>
    rw [pln, if_pos ((k.byte_top false).mpr rfl)] at h
    obtain rfl := Option.some.inj h
    rw [strokeChar_of_not fun hc => by cases hc.1]
    exact ⟨hleds, rfl, rfl⟩
  | true =>
    have htop : ¬ k.byte true &&& 0x80 ≠ 0 := fun hc => by cases (k.byte_top true).mp hc
    have hclean : s.mode &&& 0x3f ∉ [RCTRL, LALT, RALT] := by
      rw [← pln_eq_none_iff htop, h]
      exact Option.some_ne_none s'
    rw [pln_char hmode hleds htop hclean] at h
    obtain rfl := Option.some.inj h
    rw [strokeChar, if_pos ⟨rfl, hk, hcap⟩]
    refine ⟨?_, rfl, rfl⟩
    show (buffered s (keyChar held caps k.code)).leds = capsLed caps
    cases keyChar held caps k.code <;> exact hleds

/-! ### A keyboard and its reader -/

/-- `get_key` waits: the keys that come are for it. -/
def Keys.Waiting (s : Keys) : Prop := s.place = .wait ∨ s.place = .delay ∨ s.place = .count

instance (s : Keys) : Decidable s.Waiting := inferInstanceAs (Decidable (_ ∨ _))

/-- A key has been stored. -/
def Keys.gains (s : Keys) (kbd : Kbd) (key : UInt8) : Keys :=
  { s with kbd, stored := s.stored ++ [key], since := s.since + 1 }

/-- The keys after an interrupt. The write index tells whether it has stored one. -/
def Keys.interrupted (s : Keys) (kbd : Kbd) : Keys :=
  if kbd.wi = s.kbd.wi then { s with kbd } else s.gains kbd (kbd.kbdRingBuffer s.kbd.wi)

/-- A keyboard, and the program that reads its keys. -/
structure Listening where
  keys : Keys
  /-- The keys held. -/
  held : Key → Bool
  /-- The key whose `0xE0` has been handled. -/
  sent : Option (Key × Bool)
  /-- Whether Caps Lock is on. -/
  caps : Bool
  /-- The characters of the keys pressed while `get_key` has waited. -/
  heard : List UInt8

/-- The keyboard alone. -/
def Listening.typing (s : Listening) : Typing := ⟨s.keys.kbd, s.held, s.sent⟩

/-- What happens. -/
inductive ListenAct
  /-- An interrupt of the keyboard. -/
  | interrupt (a : TypeAct)
  /-- `get_key` is called. -/
  | call
  /-- It executes a statement. -/
  | run

/-- The character of the key that the interrupt handles. -/
def Listening.char (s : Listening) (a : TypeAct) : Option UInt8 :=
  (handled s.typing a).bind fun x => strokeChar s.held s.caps x.1 x.2

/-- One step. -/
def listenStep (s : Listening) : ListenAct → Option Listening
  | .interrupt a =>
    (typeStep s.typing a).map fun t =>
      { keys := s.keys.interrupted t.kbd
        held := t.held
        sent := t.sent
        caps := (handled s.typing a).elim s.caps fun x => capsAfter s.caps x.1 x.2
        heard := if s.keys.Waiting then s.heard ++ (s.char a).toList else s.heard }
  | .call => (keyStep s.keys .call).map fun keys => { s with keys }
  | .run => (getKeyStep s.keys).map fun keys => { s with keys }

/-- Nothing has been typed. -/
def listenStart : Listening where
  keys := keysStart
  held := fun _ => false
  sent := none
  caps := false
  heard := []

/-- **The condition on a step**: the interrupt is one that `mode` can be followed through, and what
it stores does not overtake `get_key`. -/
def Steady (s : Listening) : ListenAct → Prop
  | .interrupt a => Clean s.typing a ∧
    ∀ key ∈ s.char a, Paced s.keys (.store key) ∧ Undisturbed s.keys (.store key)
  | .call => True
  | .run => Undisturbed s.keys .run

/-- The characters that `get_key` has still to return: while it waits, all that have come since it
began to, and else the ones it has counted. -/
def ahead (s : Keys) (front : ℕ) : List UInt8 :=
  if s.Waiting then s.stored.drop front else (s.stored.drop front).take (unread s).toNat

/-- What holds between two steps. -/
structure ListenInv (s : Listening) : Prop where
  typing : TypeInv s.typing
  leds : s.keys.kbd.leds = capsLed s.caps
  keys : ∃ taken front, KeysInv s.keys taken front ∧
    s.heard = s.keys.returned ++ ahead s.keys front

theorem listenInv_start : ListenInv listenStart where
  typing := typeInv_start
  leds := rfl
  keys := ⟨[], 0, keysInv_start, rfl⟩

/-! ### One step -/

section

variable {s s' : Listening} {k : Keys} {taken : List ℕ} {front : ℕ}

theorem ahead_of_waiting (h : k.Waiting) : ahead k front = k.stored.drop front := if_pos h

theorem ahead_of_not (h : ¬k.Waiting) :
    ahead k front = (k.stored.drop front).take (unread k).toNat :=
  if_neg h

/-- **A key is stored** while `get_key` waits or while it does not. -/
theorem ahead_gains {kbd : Kbd} {key : UInt8} (h : KeysInv k taken front) :
    ahead (k.gains kbd key) front =
      if k.Waiting then ahead k front ++ [key] else ahead k front := by
  have hplace : (k.gains kbd key).Waiting ↔ k.Waiting := Iff.rfl
  have hdrop : (k.gains kbd key).stored.drop front = k.stored.drop front ++ [key] :=
    List.drop_append_of_le_length h.front_le
  by_cases hw : k.Waiting
  · rw [if_pos hw, ahead_of_waiting hw, ahead_of_waiting (hplace.mpr hw), hdrop]
  · rw [if_neg hw, ahead_of_not hw, ahead_of_not (hplace.not.mpr hw), hdrop]
    refine List.take_append_of_le_length ?_
    show (unread k).toNat ≤ _
    rw [List.length_drop]
    by_cases hpos : 0 < unread k
    · obtain ⟨-, -, hle, -⟩ := h.counted hpos
      omega
    · omega

/-- The write index moves when a key is stored. -/
theorem HoldsKeys.wi_ne {kbd : Kbd} {stored : List UInt8} (h : HoldsKeys kbd stored)
    (key : UInt8) : (storeKey kbd key).wi ≠ kbd.wi := by
  show (kbd.wi + 1) % kbdBufSize ≠ kbd.wi
  rw [h.wi, show kbdBufSize = 1024 from rfl]
  omega

/-- The invariant speaks of the buffer and its write index alone. -/
theorem KeysInv.of_kbd {kbd : Kbd} (h : KeysInv k taken front)
    (hring : kbd.kbdRingBuffer = k.kbd.kbdRingBuffer) (hwi : kbd.wi = k.kbd.wi) :
    KeysInv { k with kbd } taken front :=
  { h with
    buffer := {
      wi := hwi.trans h.buffer.wi
      key := fun p hp hlen => by
        rw [hring]
        exact h.buffer.key p hp hlen } }

/-- What an interrupt does to the keys, by the character of its key. -/
theorem KeysInv.interrupted {kbd : Kbd} {char : Option UInt8} {heard : List UInt8}
    (h : KeysInv k taken front) (hheard : heard = k.returned ++ ahead k front)
    (hring : kbd.kbdRingBuffer = (buffered k.kbd char).kbdRingBuffer)
    (hwi : kbd.wi = (buffered k.kbd char).wi)
    (hok : ∀ key ∈ char, Paced k (.store key) ∧ Undisturbed k (.store key)) :
    KeysInv (k.interrupted kbd) taken front ∧
      (if k.Waiting then heard ++ char.toList else heard) =
        (k.interrupted kbd).returned ++ ahead (k.interrupted kbd) front := by
  cases char with
  | none =>
    have hwi : kbd.wi = k.kbd.wi := hwi
    rw [Keys.interrupted, if_pos hwi]
    refine ⟨h.of_kbd hring hwi, ?_⟩
    rw [Option.toList_none, List.append_nil, ite_self]
    exact hheard
  | some key =>
    have hne : kbd.wi ≠ k.kbd.wi := hwi ▸ h.buffer.wi_ne key
    have hkey : kbd.kbdRingBuffer k.kbd.wi = key := by
      rw [hring]
      exact Function.update_self ..
    obtain ⟨hpaced, hfree⟩ := hok key rfl
    rw [Keys.interrupted, if_neg hne, hkey, ahead_gains h]
    refine ⟨(h.store hpaced hfree).of_kbd hring hwi, ?_⟩
    show _ = k.returned ++ _
    rw [hheard, Option.toList_some]
    split
    · exact List.append_assoc ..
    · rfl

/-- **An interrupt.** -/
theorem ListenInv.interrupt {a : TypeAct} (h : ListenInv s) (hok : Steady s (.interrupt a))
    (hs' : listenStep s (.interrupt a) = some s') : ListenInv s' := by
  obtain ⟨t, ht, rfl⟩ := Option.map_eq_some_iff.mp hs'
  obtain ⟨taken, front, hkeys, hheard⟩ := h.keys
  have hp := Possible.of_step ht
  have htyping := h.typing.step hok.1 ht
  -- whatever byte it is, it stores the character of the key whose byte it is
  have hkbd : t.kbd.leds = capsLed ((handled s.typing a).elim s.caps fun x =>
        capsAfter s.caps x.1 x.2) ∧
      t.kbd.kbdRingBuffer = (buffered s.keys.kbd (s.char a)).kbdRingBuffer ∧
      t.kbd.wi = (buffered s.keys.kbd (s.char a)).wi := by
    rw [Listening.char]
    rcases hh : handled s.typing a with _ | ⟨k, down⟩
    · obtain ⟨k, down, rfl, -⟩ := exists_leading hp hh
      obtain rfl := Option.some.inj ((typeStep_leading hp hh).symm.trans ht)
      exact ⟨h.leds, rfl, rfl⟩
    · rw [typeStep_byte hp hh] at ht
      obtain ⟨kbd, hkbd, rfl⟩ := Option.map_eq_some_iff.mp ht
      exact keyboardInterrupt_char h.typing.mode h.leds hkbd
  obtain ⟨hleds, hring, hwi⟩ := hkbd
  obtain ⟨hkeys', hheard'⟩ := hkeys.interrupted hheard hring hwi hok.2
  have hsame : (s.keys.interrupted t.kbd).kbd = t.kbd := by
    rw [Keys.interrupted]
    split <;> rfl
  exact ⟨by rw [Listening.typing, hsame]; exact htyping, by rw [hsame]; exact hleds,
    taken, front, hkeys', hheard'⟩

/-- A statement that leaves the keys and the read index alone. -/
theorem ListenInv.of_keys {keys : Keys} (h : ListenInv s) (hkbd : keys.kbd = s.keys.kbd)
    (hkeys : ∃ taken front, KeysInv keys taken front ∧
      s.heard = keys.returned ++ ahead keys front) : ListenInv { s with keys } := by
  refine ⟨?_, ?_, hkeys⟩
  · rw [Listening.typing, hkbd]
    exact h.typing
  · rw [hkbd]
    exact h.leds

/-- Nothing is ahead when a wait is about to begin. -/
theorem ahead_reset (h : k.place = .reset) : ahead k front = [] := by
  have hw : ¬k.Waiting := by simp [Keys.Waiting, h]
  rw [ahead_of_not hw, unread, h]
  rfl

/-- **The next key** is the one returned. -/
theorem KeysInv.ahead_read (h : KeysInv k taken front) (hplace : k.place = .read) :
    ahead k front = k.kbd.kbdRingBuffer k.ri.toNat ::
      (k.stored.drop (front + 1)).take k.keyLeft.toNat := by
  have hw : ¬k.Waiting := by simp [Keys.Waiting, hplace]
  have hunread : unread k = k.keyLeft + 1 := by simp only [unread, hplace]
  obtain ⟨hri, -, hle, hlen⟩ := h.counted (h.reading hplace)
  have hpos := h.reading hplace
  have hlt : front < k.stored.length := by omega
  have hkey := h.buffer.key front hlt hlen
  rw [show k.ri.toNat = front % kbdBufSize by omega]
  rw [List.getElem?_eq_getElem hlt, Option.some.injEq] at hkey
  rw [ahead_of_not hw, List.drop_eq_getElem_cons hlt, ← hkey, hunread,
    show (k.keyLeft + 1).toNat = k.keyLeft.toNat + 1 by omega, List.take_succ_cons]

/-- The write index has moved by the number of keys stored, if it has not wrapped round. -/
theorem KeysInv.wi_sub (h : KeysInv k taken front) (hplace : k.place = .count)
    (hlt : k.ri < k.kbd.wi) : (k.kbd.wi : ℤ) - k.ri = k.stored.length - front := by
  obtain ⟨hri, hfront, hlen⟩ := h.waiting (.inr (.inr hplace))
  have hwi := h.buffer.wi
  have hsince := h.since_lt
  have hle := h.front_le
  rw [show kbdBufSize = 1024 from rfl] at *
  omega

/-- **A statement of `get_key`.** -/
theorem ListenInv.run {keys : Keys} (h : ListenInv s) (hok : Undisturbed s.keys .run)
    (hs' : getKeyStep s.keys = some keys) : ListenInv { s with keys } := by
  obtain ⟨taken, front, hkeys, hheard⟩ := h.keys
  rcases hplace : s.keys.place <;> rw [getKeyStep, hplace] at hs'
  case out => cases hs'
  case test =>
    obtain rfl := Option.some.inj hs'
    have hunread : unread s.keys = s.keys.keyLeft := by simp only [unread, hplace]
    have hw : ¬s.keys.Waiting := by simp [Keys.Waiting, hplace]
    refine h.of_keys rfl ⟨taken, front, ?_⟩
    by_cases hleft : s.keys.keyLeft ≠ 0
    · rw [if_pos hleft]
      have hnonneg := hkeys.unread_nonneg
      have hkeep : s.keys.keyLeft - 1 + 1 = unread s.keys := by omega
      refine ⟨hkeys.move _ hkeep (fun _ => by omega) fun hw' => ?_, ?_⟩
      · rcases hw' with hw' | hw' | hw' <;> cases hw'
      · rw [hheard, ahead_of_not hw, ahead_of_not (by simp [Keys.Waiting])]
        show _ = s.keys.returned ++ (s.keys.stored.drop front).take (s.keys.keyLeft - 1 + 1).toNat
        rw [hkeep]
    · rw [if_neg hleft]
      have hzero : unread s.keys = 0 := by omega
      refine ⟨hkeys.move _ hzero.symm (fun hr => by cases hr) fun hw' => ?_, ?_⟩
      · rcases hw' with hw' | hw' | hw' <;> cases hw'
      · rw [hheard, ahead_of_not hw, hzero, ahead_reset rfl]
        rfl
  case read =>
    simp only at hs'
    split at hs'
    · obtain rfl := Option.some.inj hs'
      refine h.of_keys rfl ⟨_, _, hkeys.read hplace, ?_⟩
      rw [hheard, hkeys.ahead_read hplace, ahead_of_not (by simp [Keys.Waiting])]
      exact List.append_cons ..
    · cases hs'
  case reset =>
    obtain rfl := Option.some.inj hs'
    refine h.of_keys rfl ⟨_, _, hkeys.reset hplace, ?_⟩
    rw [hheard, ahead_reset hplace, ahead_of_waiting (.inl rfl)]
    show _ = s.keys.returned ++ s.keys.stored.drop s.keys.stored.length
    rw [List.drop_length]
  case wait =>
    obtain rfl := Option.some.inj hs'
    have hunread : unread s.keys = 0 := by simp only [unread, hplace]
    refine h.of_keys rfl ⟨taken, front, hkeys.move s.keys.keyLeft ?_ (fun hr => ?_) fun _ =>
      .inl hplace, ?_⟩
    · rw [hunread]
      split <;> rfl
    · split at hr <;> cases hr
    · rw [hheard, ahead_of_waiting (.inl hplace), ahead_of_waiting]
      split
      · exact .inl rfl
      · exact .inr (.inl rfl)
  case delay =>
    obtain rfl := Option.some.inj hs'
    have hunread : unread s.keys = 0 := by simp only [unread, hplace]
    refine h.of_keys rfl ⟨taken, front, hkeys.move s.keys.keyLeft hunread.symm
      (fun hr => by cases hr) fun _ => .inr (.inl hplace), ?_⟩
    rw [hheard, ahead_of_waiting (.inr (.inl hplace)), ahead_of_waiting (.inr (.inr rfl))]
  case count =>
    obtain rfl := Option.some.inj hs'
    refine h.of_keys rfl ⟨taken, front, hkeys.count hplace (hok hplace), ?_⟩
    rw [hheard, ahead_of_waiting (.inr (.inr hplace)), ahead_of_not (by simp [Keys.Waiting])]
    show _ = s.keys.returned ++ (s.keys.stored.drop front).take (s.keys.kbd.wi - s.keys.ri).toNat
    rw [hkeys.wi_sub hplace (hok hplace), List.take_of_length_le]
    rw [List.length_drop]
    omega

/-- **One step keeps the invariant.** -/
theorem ListenInv.step {a : ListenAct} (h : ListenInv s) (hok : Steady s a)
    (hs' : StepOf listenStep s a s') : ListenInv s' := by
  cases a with
  | interrupt a => exact h.interrupt hok hs'
  | call =>
    obtain ⟨keys, hcall, rfl⟩ := Option.map_eq_some_iff.mp hs'
    obtain ⟨taken, front, hkeys, hheard⟩ := h.keys
    rw [keyStep] at hcall
    split at hcall
    · next hplace =>
      obtain rfl := Option.some.inj hcall
      refine h.of_keys rfl ⟨taken, front, hkeys.call hplace, ?_⟩
      rw [hheard, ahead_of_not (by simp [Keys.Waiting, hplace]),
        ahead_of_not (by simp [Keys.Waiting]), unread, hplace]
      rfl
    · cases hcall
  | run =>
    obtain ⟨keys, hrun, rfl⟩ := Option.map_eq_some_iff.mp hs'
    exact h.run hok hrun

/-! ### Runs -/

/-- `get_key` waits and no key has come since. -/
def Listening.Idle (s : Listening) : Prop := s.keys.place = .wait ∧ s.keys.ri = s.keys.kbd.wi

/-- **When `get_key` waits for a key, it has returned all.** -/
theorem ListenInv.idle (h : ListenInv s) (hidle : s.Idle) : s.keys.returned = s.heard := by
  obtain ⟨taken, front, hkeys, hheard⟩ := h.keys
  obtain ⟨hplace, heq⟩ := hidle
  obtain ⟨hri, hfront, hlen⟩ := hkeys.waiting (.inl hplace)
  have hwi := hkeys.buffer.wi
  have hsince := hkeys.since_lt
  have hle := hkeys.front_le
  have hall : s.keys.stored.length ≤ front := by
    rw [show kbdBufSize = 1024 from rfl] at *
    omega
  rw [hheard, ahead_of_waiting (.inl hplace), List.drop_eq_nil_of_le hall, List.append_nil]

/-- The program's next step, without an interrupt. -/
def programStep (s : Listening) : Option Listening :=
  listenStep s (if s.keys.place = .out then .call else .run)

/-- Some steps of the program alone. -/
def programSteps : ℕ → Listening → Option Listening
  | 0, s => some s
  | n + 1, s => (programStep s).bind (programSteps n)

/-- The program alone comes to wait for a key, and has then returned all that was heard. -/
def Settles (s : Listening) : Prop :=
  ∃ n t, programSteps n s = some t ∧ t.Idle ∧ t.heard = s.heard ∧ t.keys.returned = s.heard

theorem Settles.of_idle (h : ListenInv s) (hidle : s.Idle) : Settles s :=
  ⟨0, s, rfl, hidle, rfl, h.idle hidle⟩

theorem Settles.of_step (hs : programStep s = some s') (hheard : s'.heard = s.heard)
    (h : Settles s') : Settles s := by
  obtain ⟨n, t, ht, hidle, h1, h2⟩ := h
  refine ⟨n + 1, t, ?_, hidle, h1.trans hheard, h2.trans hheard⟩
  rw [programSteps, hs]
  exact ht

/-- A statement of `get_key` is the program's next step. -/
theorem Settles.of_run {keys : Keys} (h : ListenInv s) (hplace : s.keys.place ≠ .out)
    (hok : Undisturbed s.keys .run) (hs : getKeyStep s.keys = some keys)
    (hset : ListenInv { s with keys } → Settles { s with keys }) : Settles s := by
  have hstep : programStep s = some { s with keys } := by
    rw [programStep, if_neg hplace, listenStep, hs]
    rfl
  exact .of_step hstep rfl (hset (h.run hok hs))

theorem Settles.of_reset (h : ListenInv s) (hplace : s.keys.place = .reset) : Settles s := by
  refine .of_run h (by rw [hplace]; decide) (fun hc => by rw [hplace] at hc; cases hc)
    (by rw [getKeyStep, hplace]) fun h' => ?_
  exact .of_idle h' ⟨rfl, rfl⟩

/-- Before the test of `key_left`, by the number of keys left. -/
theorem Settles.of_test (n : ℕ) (h : ListenInv s) (hplace : s.keys.place = .test)
    (hleft : s.keys.keyLeft = n) : Settles s := by
  induction n generalizing s with
  | zero =>
    refine .of_run h (by rw [hplace]; decide) (fun hc => by rw [hplace] at hc; cases hc)
      (by rw [getKeyStep, hplace]) fun h' => ?_
    refine .of_reset h' ?_
    simp [hleft]
  | succ n ih =>
    refine .of_run h (by rw [hplace]; decide) (fun hc => by rw [hplace] at hc; cases hc)
      (by rw [getKeyStep, hplace]) fun h' => ?_
    simp only [hleft] at h' ⊢
    rw [if_pos (by omega)] at h' ⊢
    -- the read is inside the buffer
    obtain ⟨taken, front, hkeys, -⟩ := h'.keys
    have hin := hkeys.inBuffer rfl
    refine .of_run h' (fun hc => by cases hc) (fun hc => by cases hc) (if_pos hin) fun h'' => ?_
    refine .of_step rfl rfl (ih (h''.step (a := .call) trivial rfl) rfl ?_)
    show (n + 1 : ℕ) - (1 : ℤ) = n
    omega

theorem Settles.of_out (h : ListenInv s) (hplace : s.keys.place = .out) : Settles s := by
  obtain ⟨taken, front, hkeys, -⟩ := h.keys
  have hnonneg := hkeys.unread_nonneg
  simp only [unread, hplace] at hnonneg
  obtain ⟨t, ht, hheard, htest, hleft⟩ : ∃ t, listenStep s .call = some t ∧ t.heard = s.heard ∧
      t.keys.place = .test ∧ t.keys.keyLeft = s.keys.keyLeft := by
    rw [listenStep, keyStep, if_pos hplace]
    exact ⟨_, rfl, rfl, rfl, rfl⟩
  have hnext : ListenInv t := h.step (a := .call) trivial ht
  refine .of_step ?_ hheard (.of_test s.keys.keyLeft.toNat hnext htest ?_)
  · rw [programStep, if_pos hplace, ht]
  · rw [hleft]
    exact (Int.toNat_of_nonneg hnonneg).symm

theorem Settles.of_count (h : ListenInv s) (hplace : s.keys.place = .count)
    (hlt : s.keys.ri < s.keys.kbd.wi) : Settles s := by
  refine .of_run h (by rw [hplace]; decide) (fun _ => hlt) (by rw [getKeyStep, hplace]) fun h' => ?_
  refine .of_test (s.keys.kbd.wi - s.keys.ri).toNat h' rfl ?_
  show (s.keys.kbd.wi : ℤ) - s.keys.ri = _
  omega

theorem Settles.of_delay (h : ListenInv s) (hplace : s.keys.place = .delay)
    (hlt : s.keys.ri < s.keys.kbd.wi) : Settles s := by
  refine .of_run h (by rw [hplace]; decide) (fun hc => by rw [hplace] at hc; cases hc)
    (by rw [getKeyStep, hplace]) fun h' => ?_
  exact .of_count h' rfl hlt

/-- **From every statement**, if the write index has not wrapped round in the wait. -/
theorem ListenInv.settles (h : ListenInv s)
    (hwi : s.keys.Waiting → ¬s.Idle → s.keys.ri < s.keys.kbd.wi) : Settles s := by
  rcases hplace : s.keys.place
  case out => exact .of_out h hplace
  case test =>
    obtain ⟨taken, front, hkeys, -⟩ := h.keys
    have hnonneg := hkeys.unread_nonneg
    simp only [unread, hplace] at hnonneg
    exact .of_test s.keys.keyLeft.toNat h hplace (Int.toNat_of_nonneg hnonneg).symm
  case read =>
    obtain ⟨taken, front, hkeys, -⟩ := h.keys
    obtain ⟨keys, hread, hout⟩ : ∃ keys, getKeyStep s.keys = some keys ∧ keys.place = .out := by
      rw [getKeyStep, hplace]
      exact ⟨_, if_pos (hkeys.inBuffer hplace), rfl⟩
    exact .of_run h (by rw [hplace]; decide) (fun hc => by rw [hplace] at hc; cases hc) hread
      fun h' => .of_out h' hout
  case reset => exact .of_reset h hplace
  case wait =>
    by_cases heq : s.keys.ri = s.keys.kbd.wi
    · exact .of_idle h ⟨hplace, heq⟩
    · have hlt := hwi (.inl hplace) fun hidle => heq hidle.2
      refine .of_run h (by rw [hplace]; decide) (fun hc => by rw [hplace] at hc; cases hc)
        (by rw [getKeyStep, hplace]) fun h' => ?_
      exact .of_delay h' (if_neg heq) hlt
  case delay =>
    exact .of_delay h hplace (hwi (.inr (.inl hplace)) fun hidle => by
      cases hplace.symm.trans hidle.1)
  case count =>
    exact .of_count h hplace (hwi (.inr (.inr hplace)) fun hidle => by
      cases hplace.symm.trans hidle.1)

theorem ListenInv.of_reach (hs : Reach (StepOf listenStep) Steady listenStart s) : ListenInv s :=
  hs.invariant listenInv_start fun _ _ _ h hok hstep => h.step hok hstep

end

/-- **What is typed while `get_key` waits is read**, in every run: the characters returned are the
first ones of those of the keys pressed during the waits, and when `get_key` waits again for a key
they are all of them. -/
theorem heard_of_reach {s : Listening}
    (hs : Reach (StepOf listenStep) Steady listenStart s) :
    InBuffer s.keys ∧ s.keys.returned <+: s.heard ∧ (s.Idle → s.keys.returned = s.heard) := by
  have h := ListenInv.of_reach hs
  obtain ⟨taken, front, hkeys, hheard⟩ := h.keys
  exact ⟨hkeys.inBuffer, ⟨_, hheard.symm⟩, h.idle⟩

/-- **All of it is read in the end**: without further interrupts the program comes to wait for a
key, and has returned all that was heard. -/
theorem settles_of_reach {s : Listening}
    (hs : Reach (StepOf listenStep) Steady listenStart s)
    (hwi : s.keys.Waiting → ¬s.Idle → s.keys.ri < s.keys.kbd.wi) : Settles s :=
  (ListenInv.of_reach hs).settles hwi

instance : ∀ s a, Decidable (Steady s a)
  | _, .interrupt _ => inferInstanceAs (Decidable (_ ∧ ∀ key ∈ _, _))
  | _, .call => inferInstanceAs (Decidable True)
  | s, .run => inferInstanceAs (Decidable (Undisturbed s.keys .run))

/-- The key of the letter `a`. -/
def keyA : Key := ⟨0x1E, false, by decide, by decide, by decide⟩

/-- The letter is typed before `get_key` waits, and with a Shift key while it waits. -/
def typeTwice : List ListenAct :=
  [.interrupt (.stroke keyA true), .interrupt (.stroke keyA false), .call, .run, .run,
    .interrupt (.stroke leftShift true), .interrupt (.stroke keyA true), .run, .run, .run]

/-- Only the second letter is heard. -/
theorem reach_typeTwice : ∃ s, Reach (StepOf listenStep) Steady listenStart s ∧
    s.heard = [0x41] ∧ s.keys.returned = [] ∧ s.keys.place = .test := by
  have h : ((runOf listenStep Steady typeTwice listenStart).map fun s =>
      (s.heard, s.keys.returned, s.keys.place)) = some ([0x41], [], .test) := by
    decide +kernel
  obtain ⟨s, hrun, hs⟩ := Option.map_eq_some_iff.mp h
  simp only [Prod.mk.injEq] at hs
  exact ⟨s, reach_of_runOf .start hrun, hs⟩

theorem heard_of_reach_typeTwice : ∃ s : Listening, s.heard = [0x41] ∧ InBuffer s.keys ∧
    s.keys.returned <+: s.heard := by
  obtain ⟨s, hreach, hheard, -, -⟩ := reach_typeTwice
  obtain ⟨hin, hprefix, -⟩ := heard_of_reach hreach
  exact ⟨s, hheard, hin, hprefix⟩

theorem settles_of_reach_typeTwice : ∃ s : Listening, s.heard = [0x41] ∧ s.keys.returned = [] ∧
    Settles s := by
  obtain ⟨s, hreach, hheard, hreturned, hplace⟩ := reach_typeTwice
  refine ⟨s, hheard, hreturned, settles_of_reach hreach ?_⟩
  rintro (hw | hw | hw) <;> rw [hplace] at hw <;> cases hw

end Thunix.Drivers
