import Mathlib.Data.List.Basic
import Mathlib.Logic.Function.Basic
import Thunix.Lib.Run

/-!
# The keyboard interrupt

Each byte the keyboard sends raises an interrupt. `Thunix.Drivers.keyboardInterrupt`
handles it: the bytes of modifier keys set and clear bits of `mode`, and the make codes of
the other keys are looked up in the map that `mode` selects and stored in a ring buffer
(`Thunix.Drivers.pln`).

A key of the keyboard (`Thunix.Drivers.Key`) sends its code when it is pressed and the
code with the top bit set when it is released; some keys send the byte `0xE0` before
either. `Thunix.Drivers.typeStep` is one interrupt of a keyboard whose keys are pressed
and released one after another, and `Thunix.Drivers.Tracks` says that `mode` shows the
modifier keys that are held.

Two steps go wrong. The byte `0xE0` is remembered until the next byte of a Ctrl or Alt key,
whatever comes between, so that a left Ctrl key pressed after a grey cursor key is
taken for the right one (`Thunix.Drivers.not_tracks`). And `mode` less one is
used as an index into the six maps, although `mode` is a set of bits: for right Ctrl and
the two Alt keys the index is 7, 15 and 31. `Thunix.Drivers.Clean` excludes these
two, and `Thunix.Drivers.tracks_of_reach` says that nothing else goes wrong.
-/

namespace Thunix.Drivers

/-! ### The header -/

def LSHIFT : UInt8 := 0x1

def RSHIFT : UInt8 := 0x2

def LCTRL : UInt8 := 0x4

def RCTRL : UInt8 := 0x8

def LALT : UInt8 := 0x10

def RALT : UInt8 := 0x20

def CAPS_LOCK : UInt8 := 0x4

def HOME : UInt8 := 0xE0

def END : UInt8 := 0xE1

def UP : UInt8 := 0xE2

def DN : UInt8 := 0xE3

def LF : UInt8 := 0xE4

def RT : UInt8 := 0xE5

def PGUP : UInt8 := 0xE6

def PGDN : UInt8 := 0xE7

def INS : UInt8 := 0xE8

def DEL : UInt8 := 0xE9

def NO : UInt8 := 0

def ESC : UInt8 := 0x1b

/-! ### The maps -/

/-- The characters of a row of a map. -/
def chars (cs : List Char) : List UInt8 := cs.map fun c => c.toNat.toUInt8

/-- `C(x)`, for a row of letters. -/
def controls (cs : List Char) : List UInt8 := (chars cs).map (· - 0x40)

/-- An array of 256 entries, given by its first ones and by designators. -/
def keyMap (row : List UInt8) (designated : List (UInt8 × UInt8)) (scancode : UInt8) : UInt8 :=
  (designated.lookup scancode).getD (row.getD scancode.toNat NO)

/-- The designators that end all three maps. -/
def greyKeys : List (UInt8 × UInt8) :=
  [(0xC8, UP), (0xC9, PGUP), (0xCB, LF), (0xCD, RT), (0xCF, END), (0xD0, DN), (0xD1, PGDN),
    (0xD2, INS), (0xD3, DEL)]

def normalMap : UInt8 → UInt8 :=
  keyMap
    ([NO, ESC] ++ chars ['1', '2', '3', '4', '5', '6', '7', '8', '9', '0', '-', '='] ++ [8, 9] ++
      chars ['q', 'w', 'e', 'r', 't', 'y', 'u', 'i', 'o', 'p', '[', ']'] ++ [10, NO] ++
      chars ['a', 's', 'd', 'f', 'g', 'h', 'j', 'k', 'l', ';'] ++ [0x27, 0x60, NO, 0x5C] ++
      chars ['z', 'x', 'c', 'v', 'b', 'n', 'm', ',', '.', '/'] ++ [NO] ++ chars ['*'] ++ [NO] ++
      chars [' '] ++ List.replicate 13 NO ++ [HOME, UP, PGUP] ++ chars ['-'] ++ [LF] ++
      chars ['5'] ++ [RT] ++ chars ['+'] ++ [END, DN, PGDN, INS, DEL, NO, NO, NO, NO])
    ((0x97, HOME) :: (0x9C, 10) :: (0xB5, 0x2F) :: greyKeys)

def shiftMap : UInt8 → UInt8 :=
  keyMap
    ([NO, ESC] ++ chars ['!', '@', '#', '$', '%', '^', '&', '*', '(', ')', '_', '+'] ++ [8, 9] ++
      chars ['q', 'w', 'e', 'r', 't', 'y', 'u', 'i', 'o', 'p'] ++ [0x7B, 0x7D, 10, NO] ++
      chars ['a', 's', 'd', 'f', 'g', 'h', 'j', 'k', 'l', ':'] ++ [0x22, 0x7E, NO, 0x7C] ++
      chars ['z', 'x', 'c', 'v', 'b', 'n', 'm', '<', '>', '?'] ++ [NO] ++ chars ['*'] ++ [NO] ++
      chars [' '] ++ List.replicate 13 NO ++
      chars ['7', '8', '9', '-', '4', '5', '6', '+', '1', '2', '3', '0', '.'] ++ [NO, NO, NO, NO])
    ((0x97, HOME) :: (0x9C, 10) :: (0xB5, 0x2F) :: greyKeys)

def ctrlMap : UInt8 → UInt8 :=
  keyMap
    (List.replicate 16 NO ++
      controls ['Q', 'W', 'E', 'R', 'T', 'Y', 'U', 'I', 'O', 'P'] ++ [NO, NO, 13, NO] ++
      controls ['A', 'S', 'D', 'F', 'G', 'H', 'J', 'K', 'L'] ++ [NO, NO] ++ chars [' '] ++ [NO] ++
      [0x5C - 0x40] ++ controls ['Z', 'X', 'C', 'V', 'B', 'N', 'M'] ++ [NO, NO] ++
      controls ['/'] ++ [NO, NO])
    ((0x97, HOME) :: (0xB5, 0x2F - 0x40) :: greyKeys)

/-! ### The interrupt -/

/-- `KBD_BUF_SIZE`. -/
abbrev kbdBufSize : ℕ := 1024

/-- The variables of `kb.c` that the interrupt works on. -/
structure Kbd where
  mode : UInt8
  leds : UInt8
  /-- The static variable of `keyboard_interrupt`. -/
  gotE0 : Bool
  kbdRingBuffer : ℕ → UInt8
  wi : ℕ

/-- `revert_char`. -/
def revertChar (ch : UInt8) : UInt8 :=
  if 0x61 ≤ ch ∧ ch ≤ 0x7A then ch - 0x20
  else if 0x41 ≤ ch ∧ ch ≤ 0x5A then ch + 0x20
  else ch

/-- The end of `pln`, where the key is stored. -/
def storeKey (s : Kbd) (key : UInt8) : Kbd :=
  { s with
    kbdRingBuffer := Function.update s.kbdRingBuffer s.wi key
    wi := (s.wi + 1) % kbdBufSize }

/-- The array `maps` of `pln`, where `none` is `NULL`. -/
def maps : List (Option (UInt8 → UInt8)) :=
  [some shiftMap, some shiftMap, some ctrlMap, some ctrlMap, none, none]

/-- What is stored for an entry of a map. -/
def finalKey (s : Kbd) (key : UInt8) : UInt8 :=
  let key := if s.mode &&& (RSHIFT ||| LSHIFT) ≠ 0 then revertChar key else key
  if s.leds &&& CAPS_LOCK ≠ 0 then revertChar key else key

/-- `pln`. It has no result where it reads `maps` outside its six entries. -/
def pln (s : Kbd) (scancode : UInt8) : Option Kbd :=
  let xmode := (s.mode &&& 0x3f).toNat
  if scancode &&& 0x80 ≠ 0 then some s
  else if xmode = 0 then some (storeKey s (finalKey s (normalMap scancode)))
  else if (xmode - 1) ||| xmode = 2 * xmode - 1 then
    match maps[xmode - 1]? with
    | none => none
    | some none => some s
    | some (some map) => some (storeKey s (finalKey s (map scancode)))
  else some s

/-- `set_clear_mode`. -/
def setClearMode (s : Kbd) (scancode flag : UInt8) : Kbd :=
  if scancode &&& 0x80 ≠ 0 then { s with mode := s.mode &&& ~~~flag }
  else { s with mode := s.mode ||| flag }

def ctrl (s : Kbd) (scancode : UInt8) (gotE0 : Bool) : Kbd :=
  setClearMode s scancode (if gotE0 then RCTRL else LCTRL)

def alt (s : Kbd) (scancode : UInt8) (gotE0 : Bool) : Kbd :=
  setClearMode s scancode (if gotE0 then RALT else LALT)

def shift (s : Kbd) (scancode : UInt8) : Kbd :=
  setClearMode s scancode (if scancode &&& 0x7f = 0x2A then LSHIFT else RSHIFT)

/-- `cap`, less the command that lights the keyboard's lamp. -/
def cap (s : Kbd) (scancode : UInt8) : Kbd :=
  if scancode &&& 0x80 ≠ 0 then s else { s with leds := s.leds ^^^ CAPS_LOCK }

/-- `keyboard_interrupt`, for the byte read from the port. -/
def keyboardInterrupt (s : Kbd) (scancode : UInt8) : Option Kbd :=
  if scancode = 0xE0 then some { s with gotE0 := true }
  else if scancode &&& 0x7f = 0x36 ∨ scancode &&& 0x7f = 0x2A then some (shift s scancode)
  else if scancode &&& 0x7f = 0x3A then some (cap s scancode)
  else if scancode &&& 0x7f = 0x1D then some { ctrl s scancode s.gotE0 with gotE0 := false }
  else if scancode &&& 0x7f = 0x38 then some { alt s scancode s.gotE0 with gotE0 := false }
  else pln s scancode

/-- The variables before the first interrupt. -/
def kbdStart : Kbd where
  mode := 0
  leds := 0
  gotE0 := false
  kbdRingBuffer := fun _ => 0
  wi := 0

/-! ### A keyboard -/

/-- A key. No code is such that the byte of a release is `0xE0`, and the shift keys send no
`0xE0`. -/
structure Key where
  code : UInt8
  /-- Whether its bytes come after `0xE0`. -/
  extended : Bool
  code_lt : code < 0x80
  code_ne : code ≠ 0x60
  not_shift : extended = true → code ≠ 0x2A ∧ code ≠ 0x36
  deriving DecidableEq

/-- The byte sent when the key is pressed or released. -/
def Key.byte (k : Key) (down : Bool) : UInt8 := if down then k.code else k.code ||| 0x80

def leftShift : Key := ⟨0x2A, false, by decide, by decide, by decide⟩

def rightShift : Key := ⟨0x36, false, by decide, by decide, by decide⟩

def leftCtrl : Key := ⟨0x1D, false, by decide, by decide, by decide⟩

def rightCtrl : Key := ⟨0x1D, true, by decide, by decide, by decide⟩

def leftAlt : Key := ⟨0x38, false, by decide, by decide, by decide⟩

def rightAlt : Key := ⟨0x38, true, by decide, by decide, by decide⟩

/-- The bit of a modifier key, 0 for the others. -/
def Key.flag (k : Key) : UInt8 :=
  if k = leftShift then LSHIFT else if k = rightShift then RSHIFT
  else if k = leftCtrl then LCTRL else if k = rightCtrl then RCTRL
  else if k = leftAlt then LALT else if k = rightAlt then RALT else 0

/-- The keys that are looked up in a map when they are pressed. -/
def Key.Printable (k : Key) : Prop := k.flag = 0 ∧ k.code ≠ 0x3A

instance (k : Key) : Decidable k.Printable := inferInstanceAs (Decidable (_ ∧ _))

/-- Somebody typing. -/
structure Typing where
  kbd : Kbd
  /-- The keys held. -/
  held : Key → Bool
  /-- The key whose `0xE0` has been handled and whose byte comes next, and whether it has
  been pressed or released. -/
  sent : Option (Key × Bool)

/-- What causes the next interrupt. -/
inductive TypeAct
  /-- A key is pressed or released, and its first byte comes. -/
  | stroke (k : Key) (down : Bool)
  /-- The byte after `0xE0` comes. -/
  | rest

/-- A key that is up can be pressed, and one that is held can be released. -/
def Possible (s : Typing) : TypeAct → Prop
  | .stroke k down => s.sent = none ∧ s.held k = !down
  | .rest => s.sent.isSome

instance : ∀ s a, Decidable (Possible s a)
  | _, .stroke _ _ => inferInstanceAs (Decidable (_ ∧ _))
  | s, .rest => inferInstanceAs (Decidable (s.sent.isSome = true))

/-- The key whose byte the next interrupt handles. The keys with two bytes count as
pressed and released with the second. -/
def handled (s : Typing) : TypeAct → Option (Key × Bool)
  | .stroke k down => if k.extended then none else some (k, down)
  | .rest => s.sent

/-- One interrupt. -/
def typeStep (s : Typing) (a : TypeAct) : Option Typing :=
  if Possible s a then
    match handled s a, a with
    | some (k, down), _ =>
      (keyboardInterrupt s.kbd (k.byte down)).map fun kbd =>
        { kbd, held := Function.update s.held k down, sent := none }
    | none, .stroke k down =>
      (keyboardInterrupt s.kbd 0xE0).map fun kbd => { s with kbd, sent := some (k, down) }
    | none, .rest => none
  else none

/-- Nothing has been typed. -/
def typeStart : Typing := { kbd := kbdStart, held := fun _ => false, sent := none }

/-- **The modifier state shows the keys held.** -/
structure Tracks (s : Typing) : Prop where
  /-- The bit of a modifier key is set while the key is held. -/
  flag : ∀ k : Key, k.flag ≠ 0 → (s.kbd.mode &&& k.flag ≠ 0 ↔ s.held k = true)
  /-- When all keys are up no bit is set. -/
  up : (∀ k, s.held k = false) → s.kbd.mode = 0

/-- The condition on an interrupt: the byte of a left Ctrl or Alt key does not find
`0xE0` remembered, and no key is looked up while only right Ctrl, left Alt or right Alt is
held. -/
def Clean (s : Typing) (a : TypeAct) : Prop :=
  ∀ x ∈ handled s a, (x.1 = leftCtrl ∨ x.1 = leftAlt → s.kbd.gotE0 = false) ∧
    (x.1.Printable → x.2 = true → s.kbd.mode &&& 0x3f ∉ [RCTRL, LALT, RALT])

/-! ### The bits of the mode -/

/-- The mode that shows the keys held. -/
def heldMode (held : Key → Bool) : UInt8 :=
  (if held leftShift then LSHIFT else 0) ||| (if held rightShift then RSHIFT else 0) |||
    (if held leftCtrl then LCTRL else 0) ||| (if held rightCtrl then RCTRL else 0) |||
    (if held leftAlt then LALT else 0) ||| (if held rightAlt then RALT else 0)

/-- A byte below `0x80` is one of 128. -/
theorem forall_code {P : UInt8 → Prop} (h : ∀ n : Fin 128, P (UInt8.ofNat n)) {c : UInt8}
    (hc : c < 0x80) : P c := by
  have := h ⟨c.toNat, hc⟩
  rwa [UInt8.ofNat_toNat] at this

theorem Key.byte_and (k : Key) (down : Bool) : k.byte down &&& 0x7f = k.code := by
  revert down
  exact forall_code (P := fun c => ∀ down : Bool, (if down then c else c ||| 0x80) &&& 0x7f = c)
    (by decide) k.code_lt

theorem Key.byte_top (k : Key) (down : Bool) : k.byte down &&& 0x80 ≠ 0 ↔ down = false := by
  revert down
  exact forall_code
    (P := fun c => ∀ down : Bool, (if down then c else c ||| 0x80) &&& 0x80 ≠ 0 ↔ down = false)
    (by decide) k.code_lt

theorem Key.byte_ne (k : Key) (down : Bool) : k.byte down ≠ 0xE0 := by
  intro h
  have := k.byte_and down
  rw [h] at this
  exact k.code_ne this.symm

/-- A key with the code of a modifier key is one. -/
theorem Key.eq_of_code {k : Key} {j : Key} (hcode : k.code = j.code)
    (hext : k.extended = j.extended) : k = j := by
  cases k
  cases j
  cases hcode
  cases hext
  rfl

/-- The six modifier keys. -/
theorem Key.modifier {k : Key} (hk : k.flag ≠ 0) : k = leftShift ∨ k = rightShift ∨
    k = leftCtrl ∨ k = rightCtrl ∨ k = leftAlt ∨ k = rightAlt := by
  by_contra hno
  simp only [not_or] at hno
  obtain ⟨h1, h2, h3, h4, h5, h6⟩ := hno
  exact hk (by rw [Key.flag, if_neg h1, if_neg h2, if_neg h3, if_neg h4, if_neg h5, if_neg h6])

/-- **A bit of the mode is set** while its key is held. -/
theorem heldMode_and (held : Key → Bool) {k : Key} (hk : k.flag ≠ 0) :
    heldMode held &&& k.flag ≠ 0 ↔ held k = true := by
  rcases Key.modifier hk with rfl | rfl | rfl | rfl | rfl | rfl <;> rw [heldMode] <;>
    generalize held leftShift = a, held rightShift = b, held leftCtrl = c,
      held rightCtrl = d, held leftAlt = e, held rightAlt = f <;>
    revert a b c d e f <;> decide

/-- **One key changes its own bit.** -/
theorem heldMode_update (held : Key → Bool) (k : Key) (down : Bool) :
    heldMode (Function.update held k down) =
      if down then heldMode held ||| k.flag else heldMode held &&& ~~~k.flag := by
  by_cases hk : k.flag = 0
  · have hne : ∀ j : Key, j.flag ≠ 0 → Function.update held k down j = held j := by
      intro j hj
      refine Function.update_of_ne ?_ _ _
      rintro rfl
      exact hj hk
    have heq : heldMode (Function.update held k down) = heldMode held := by
      rw [heldMode, hne leftShift (by decide), hne rightShift (by decide), hne leftCtrl (by decide),
        hne rightCtrl (by decide), hne leftAlt (by decide), hne rightAlt (by decide), heldMode]
    rw [heq, hk]
    cases down <;> simp
  · rcases Key.modifier hk with rfl | rfl | rfl | rfl | rfl | rfl <;>
      simp only [heldMode, Function.update_apply] <;>
      generalize held leftShift = a, held rightShift = b, held leftCtrl = c,
        held rightCtrl = d, held leftAlt = e, held rightAlt = f <;>
      revert a b c d e f down <;> decide

/-! ### The interrupt of a key -/

/-- The modifier key that the interrupt takes a key for: for Ctrl and Alt the remembered
`0xE0` decides between left and right. -/
def Key.takenFor (k : Key) (gotE0 : Bool) : Key :=
  if k.code = 0x1D then if gotE0 then rightCtrl else leftCtrl
  else if k.code = 0x38 then if gotE0 then rightAlt else leftAlt
  else k

theorem setClearMode_byte (s : Kbd) (k : Key) (down : Bool) (flag : UInt8) :
    setClearMode s (k.byte down) flag =
      { s with mode := if down then s.mode ||| flag else s.mode &&& ~~~flag } := by
  cases down with
  | false => exact if_pos ((k.byte_top false).mpr rfl)
  | true => exact if_neg fun h => absurd ((k.byte_top true).mp h) (by decide)

/-- **A modifier key** sets or clears a bit. -/
theorem keyboardInterrupt_modifier (s : Kbd) {k : Key} (down : Bool) (hk : k.flag ≠ 0) :
    ∃ gotE0, keyboardInterrupt s (k.byte down) = some { s with
      mode := if down then s.mode ||| (k.takenFor s.gotE0).flag
        else s.mode &&& ~~~(k.takenFor s.gotE0).flag
      gotE0 } := by
  rw [keyboardInterrupt, if_neg (k.byte_ne down), k.byte_and]
  rcases Key.modifier hk with rfl | rfl | rfl | rfl | rfl | rfl
  · refine ⟨s.gotE0, ?_⟩
    simp only [shift, Key.byte_and, setClearMode_byte]
    rfl
  · refine ⟨s.gotE0, ?_⟩
    simp only [shift, Key.byte_and, setClearMode_byte]
    rfl
  all_goals
    refine ⟨false, ?_⟩
    simp only [ctrl, alt, setClearMode_byte]
    cases s.gotE0 <;> rfl

/-- The test of `pln` for a mode with one bit. -/
theorem one_bit : ∀ n : Fin 64, (n : ℕ) ≠ 0 → ((n : ℕ) - 1) ||| n = 2 * n - 1 →
    (n : ℕ) = 1 ∨ (n : ℕ) = 2 ∨ (n : ℕ) = 4 ∨ (n : ℕ) = 8 ∨ (n : ℕ) = 16 ∨ (n : ℕ) = 32 := by
  decide

/-- An index into the maps leads outside exactly for three modes. -/
theorem pln_eq_none_iff {s : Kbd} {c : UInt8} (hc : ¬ c &&& 0x80 ≠ 0) :
    pln s c = none ↔ s.mode &&& 0x3f ∈ [RCTRL, LALT, RALT] := by
  have hlt : (s.mode &&& 0x3f).toNat < 64 := by
    rw [UInt8.toNat_and]
    exact Nat.lt_succ_of_le Nat.and_le_right
  have hmem : s.mode &&& 0x3f ∈ [RCTRL, LALT, RALT] ↔
      (s.mode &&& 0x3f).toNat ∈ [8, 16, 32] := by
    simp only [List.mem_cons, List.not_mem_nil, or_false, ← UInt8.toNat_inj]
    rfl
  rw [pln, if_neg hc, hmem]
  generalize (s.mode &&& 0x3f).toNat = n at hlt ⊢
  by_cases h0 : n = 0
  · rw [if_pos h0, h0]
    simp
  rw [if_neg h0]
  by_cases hone : (n - 1) ||| n = 2 * n - 1
  · rw [if_pos hone]
    have hcases : n = 1 ∨ n = 2 ∨ n = 4 ∨ n = 8 ∨ n = 16 ∨ n = 32 := one_bit ⟨n, hlt⟩ h0 hone
    rcases hcases with rfl | rfl | rfl | rfl | rfl | rfl <;> simp [maps]
  · rw [if_neg hone]
    refine iff_of_false (by simp) fun hmem => hone ?_
    simp only [List.mem_cons, List.not_mem_nil, or_false] at hmem
    rcases hmem with rfl | rfl | rfl <;> rfl

theorem pln_eq_some {s s' : Kbd} {c : UInt8} (h : pln s c = some s') :
    s'.mode = s.mode ∧ s'.gotE0 = s.gotE0 := by
  simp only [pln] at h
  split at h
  · cases h
    exact ⟨rfl, rfl⟩
  split at h
  · cases h
    exact ⟨rfl, rfl⟩
  split at h
  · split at h
    · cases h
    · cases h
      exact ⟨rfl, rfl⟩
    · cases h
      exact ⟨rfl, rfl⟩
  · cases h
    exact ⟨rfl, rfl⟩

theorem Key.code_ne_modifier {k : Key} (hk : k.flag = 0) :
    k.code ≠ 0x36 ∧ k.code ≠ 0x2A ∧ k.code ≠ 0x1D ∧ k.code ≠ 0x38 := by
  have hne : ∀ j : Key, j.flag ≠ 0 → k.code = j.code → k.extended ≠ j.extended := by
    intro j hj hcode hext
    obtain rfl := Key.eq_of_code hcode hext
    exact hj hk
  rcases hext : k.extended with _ | _ <;> rw [hext] at hne
  · exact ⟨fun h => hne rightShift (by decide) h rfl, fun h => hne leftShift (by decide) h rfl,
      fun h => hne leftCtrl (by decide) h rfl, fun h => hne leftAlt (by decide) h rfl⟩
  · exact ⟨(k.not_shift hext).2, (k.not_shift hext).1,
      fun h => hne rightCtrl (by decide) h rfl, fun h => hne rightAlt (by decide) h rfl⟩

/-- **The other keys** leave the mode alone, if they are not looked up outside the maps. -/
theorem keyboardInterrupt_plain (s : Kbd) {k : Key} (down : Bool) (hk : k.flag = 0) :
    (∀ s' ∈ keyboardInterrupt s (k.byte down), s'.mode = s.mode ∧ s'.gotE0 = s.gotE0) ∧
      ((keyboardInterrupt s (k.byte down)).isSome ↔
        (k.Printable → down = true → s.mode &&& 0x3f ∉ [RCTRL, LALT, RALT])) := by
  obtain ⟨h36, h2A, h1D, h38⟩ := k.code_ne_modifier hk
  rw [keyboardInterrupt, if_neg (k.byte_ne down), k.byte_and,
    if_neg (not_or.mpr ⟨h36, h2A⟩)]
  by_cases hcap : k.code = 0x3A
  · rw [if_pos hcap]
    refine ⟨fun s' hs' => ?_, iff_of_true rfl fun hprint => absurd hcap hprint.2⟩
    rw [Option.mem_some_iff] at hs'
    rw [← hs', cap]
    split <;> exact ⟨rfl, rfl⟩
  · rw [if_neg hcap, if_neg h1D, if_neg h38]
    refine ⟨fun s' hs' => pln_eq_some hs', ?_⟩
    by_cases hdown : down = true
    · have htop : ¬ k.byte down &&& 0x80 ≠ 0 := by
        rw [k.byte_top, hdown]
        decide
      rw [← not_iff_not, Option.not_isSome_iff_eq_none, pln_eq_none_iff htop]
      have hprint : k.Printable := ⟨hk, hcap⟩
      exact ⟨fun h hall => hall hprint hdown h, fun h => by
        by_contra hno
        exact h fun _ _ => hno⟩
    · refine iff_of_true ?_ fun _ hd => absurd hd hdown
      rw [pln, if_pos ((k.byte_top down).mpr (by simpa using hdown))]
      rfl

/-! ### Runs -/

theorem tracks_of_mode {s : Typing} (h : s.kbd.mode = heldMode s.held) : Tracks s where
  flag k hk := by
    rw [h]
    exact heldMode_and s.held hk
  up hup := by
    rw [h, heldMode, hup, hup, hup, hup, hup, hup]
    rfl

theorem Key.takenFor_eq_iff {k : Key} {gotE0 : Bool} (hk : k.flag ≠ 0)
    (hext : k.extended = true → gotE0 = true) :
    k.takenFor gotE0 = k ↔ (k = leftCtrl ∨ k = leftAlt → gotE0 = false) := by
  rcases Key.modifier hk with rfl | rfl | rfl | rfl | rfl | rfl <;> revert gotE0 <;> decide

/-- The invariant: the mode shows the keys held, and where `0xE0` has come it is
remembered. -/
structure TypeInv (s : Typing) : Prop where
  mode : s.kbd.mode = heldMode s.held
  /-- The key with two bytes has not changed yet. -/
  sent : ∀ x ∈ s.sent, x.1.extended = true ∧ s.kbd.gotE0 = true ∧ s.held x.1 = !x.2

theorem typeInv_start : TypeInv typeStart :=
  ⟨by decide, fun x hx => (by cases hx)⟩

/-- What is asked of the interrupt that handles the byte of a key. -/
def CleanKey (s : Kbd) (k : Key) (down : Bool) : Prop :=
  (k = leftCtrl ∨ k = leftAlt → s.gotE0 = false) ∧
    (k.Printable → down = true → s.mode &&& 0x3f ∉ [RCTRL, LALT, RALT])

/-- The mode after the byte of a key. -/
theorem keyboardInterrupt_mode {s : Kbd} {held : Key → Bool} {k : Key} {down : Bool}
    (hmode : s.mode = heldMode held) (hext : k.extended = true → s.gotE0 = true)
    (hclean : CleanKey s k down) :
    ∃ s', keyboardInterrupt s (k.byte down) = some s' ∧
      s'.mode = heldMode (Function.update held k down) := by
  by_cases hk : k.flag = 0
  · obtain ⟨hsame, hsome⟩ := keyboardInterrupt_plain s down hk
    obtain ⟨s', hs'⟩ := Option.isSome_iff_exists.mp (hsome.mpr hclean.2)
    refine ⟨s', hs', ?_⟩
    rw [(hsame s' hs').1, hmode, heldMode_update, hk]
    cases down <;> simp
  · obtain ⟨gotE0, heq⟩ := keyboardInterrupt_modifier s down hk
    refine ⟨_, heq, ?_⟩
    rw [(Key.takenFor_eq_iff hk hext).mpr hclean.1, heldMode_update, hmode]

/-- **The byte of a key goes right** exactly if it is clean. -/
theorem keyboardInterrupt_iff {s : Kbd} {held : Key → Bool} {k : Key} {down : Bool}
    (hmode : s.mode = heldMode held) (hext : k.extended = true → s.gotE0 = true)
    (hheld : held k = !down) :
    (∃ kbd, keyboardInterrupt s (k.byte down) = some kbd ∧
      Tracks { kbd, held := Function.update held k down, sent := none }) ↔
        CleanKey s k down := by
  refine ⟨?_, fun hclean => ?_⟩
  · rintro ⟨s', hs', htracks⟩
    by_cases hk : k.flag = 0
    · refine ⟨?_, ?_⟩
      · rintro (rfl | rfl) <;> exact absurd hk (by decide)
      · exact (keyboardInterrupt_plain s down hk).2.mp (by rw [hs']; rfl)
    · obtain ⟨gotE0, heq⟩ := keyboardInterrupt_modifier s down hk
      refine ⟨(Key.takenFor_eq_iff hk hext).mp ?_, fun hprint => absurd hprint.1 hk⟩
      -- another key's bit would be the one that changes
      by_contra hne
      have hbit := htracks.flag k hk
      obtain rfl := Option.some.inj (heq.symm.trans hs')
      simp only [hmode, ← heldMode_update, Function.update_self] at hbit
      rw [heldMode_and _ hk, Function.update_of_ne (Ne.symm hne), hheld] at hbit
      cases down <;> simp at hbit
  · obtain ⟨s', hs', hmode'⟩ := keyboardInterrupt_mode hmode hext hclean
    exact ⟨s', hs', tracks_of_mode hmode'⟩

theorem typeStep_byte {s : Typing} {a : TypeAct} {k : Key} {down : Bool} (hp : Possible s a)
    (hh : handled s a = some (k, down)) :
    typeStep s a = (keyboardInterrupt s.kbd (k.byte down)).map fun kbd =>
      { kbd, held := Function.update s.held k down, sent := none } := by
  unfold typeStep
  rw [if_pos hp, hh]

theorem typeStep_leading {s : Typing} {k : Key} {down : Bool} (hp : Possible s (.stroke k down))
    (hh : handled s (.stroke k down) = none) :
    typeStep s (.stroke k down) =
      some { s with kbd := { s.kbd with gotE0 := true }, sent := some (k, down) } := by
  unfold typeStep
  rw [if_pos hp, hh]
  rfl

/-- The key whose byte comes is the one the invariant speaks of. -/
theorem TypeInv.handled {s : Typing} {a : TypeAct} {k : Key} {down : Bool} (hs : TypeInv s)
    (hp : Possible s a) (hh : handled s a = some (k, down)) :
    (k.extended = true → s.kbd.gotE0 = true) ∧ s.held k = !down := by
  cases a with
  | stroke j d =>
    rw [Drivers.handled] at hh
    split at hh
    · cases hh
    · next hext =>
      cases hh
      exact ⟨fun h => absurd h hext, hp.2⟩
  | rest =>
    obtain ⟨-, he0, hheld⟩ := hs.sent (k, down) hh
    exact ⟨fun _ => he0, hheld⟩

/-- A step that handles no key is the one for `0xE0`. -/
theorem exists_leading {s : Typing} {a : TypeAct} (hp : Possible s a) (hh : handled s a = none) :
    ∃ k down, a = .stroke k down ∧ k.extended = true := by
  cases a with
  | stroke k down =>
    refine ⟨k, down, rfl, ?_⟩
    by_contra hext
    rw [handled, if_neg hext] at hh
    cases hh
  | rest =>
    rw [handled] at hh
    rw [Possible, hh] at hp
    cases hp

theorem Possible.of_step {s s' : Typing} {a : TypeAct} (h : typeStep s a = some s') :
    Possible s a := by
  by_contra hno
  unfold typeStep at h
  rw [if_neg hno] at h
  cases h

/-- **One interrupt keeps the invariant.** -/
theorem TypeInv.step {s s' : Typing} {a : TypeAct} (hs : TypeInv s) (hclean : Clean s a)
    (h : StepOf typeStep s a s') : TypeInv s' := by
  have hp := Possible.of_step h
  rw [StepOf] at h
  rcases hh : Drivers.handled s a with _ | ⟨k, down⟩
  · obtain ⟨k, down, rfl, hext⟩ := exists_leading hp hh
    obtain rfl := Option.some.inj ((typeStep_leading hp hh).symm.trans h)
    refine ⟨hs.mode, fun x hx => ?_⟩
    rw [Option.mem_some_iff] at hx
    rw [← hx]
    exact ⟨hext, rfl, hp.2⟩
  · obtain ⟨hext, -⟩ := hs.handled hp hh
    obtain ⟨kbd, hkbd, hmode⟩ := keyboardInterrupt_mode hs.mode hext (hclean (k, down) hh)
    rw [typeStep_byte hp hh, hkbd, Option.map_some, Option.some.injEq] at h
    subst h
    exact ⟨hmode, fun x hx => (by cases hx)⟩

/-- **The mode tracks the keys held** as long as the interrupts are clean, and the next
one keeps it so, and stays within the maps, exactly if it is. -/
theorem tracks_of_reach {s : Typing} (hs : Reach (StepOf typeStep) Clean typeStart s) :
    Tracks s ∧ ∀ a, Possible s a →
      ((∃ s', typeStep s a = some s' ∧ Tracks s') ↔ Clean s a) := by
  have hinv := hs.invariant typeInv_start fun _ _ _ h hok hstep => h.step hok hstep
  refine ⟨tracks_of_mode hinv.mode, fun a hp => ?_⟩
  rcases hh : handled s a with _ | ⟨k, down⟩
  · obtain ⟨k, down, rfl, hext⟩ := exists_leading hp hh
    have hclean : Clean s (.stroke k down) := by
      rw [Clean, hh]
      exact fun x hx => (by cases hx)
    have hinv' := hinv.step hclean (typeStep_leading hp hh)
    exact iff_of_true ⟨_, typeStep_leading hp hh, tracks_of_mode hinv'.mode⟩ hclean
  · obtain ⟨hext, hheld⟩ := hinv.handled hp hh
    have hiff : Clean s a ↔ CleanKey s.kbd k down := by
      rw [Clean, hh]
      exact ⟨fun h => h (k, down) rfl, fun h x hx => (Option.mem_some_iff.mp hx) ▸ h⟩
    rw [hiff, ← keyboardInterrupt_iff hinv.mode hext hheld, typeStep_byte hp hh]
    simp only [Option.map_eq_some_iff]
    exact ⟨fun ⟨s', ⟨kbd, hkbd, heq⟩, ht⟩ => ⟨kbd, hkbd, heq ▸ ht⟩,
      fun ⟨kbd, hkbd, ht⟩ => ⟨_, ⟨kbd, hkbd, rfl⟩, ht⟩⟩

instance : ∀ s a, Decidable (Clean s a) := fun s a =>
  inferInstanceAs (Decidable (∀ x ∈ handled s a, _))

/-- The grey cursor key that moves up. -/
def greyUp : Key := ⟨0x48, true, by decide, by decide, by decide⟩

/-- Shift, right Ctrl and a cursor key. -/
theorem tracks_of_reach_rightCtrl : ∃ s, Reach (StepOf typeStep) Clean typeStart s ∧
    s.kbd.mode = RCTRL ∧ Tracks s := by
  have h : ((runOf typeStep Clean [.stroke leftShift true, .stroke leftShift false,
      .stroke greyUp true, .rest, .stroke greyUp false, .rest, .stroke rightCtrl true, .rest]
      typeStart).map fun s => s.kbd.mode) = some RCTRL := by
    decide +kernel
  obtain ⟨s, hrun, hs⟩ := Option.map_eq_some_iff.mp h
  have hreach := reach_of_runOf .start hrun
  exact ⟨s, hreach, hs, (tracks_of_reach hreach).1⟩

/-- **A grey key makes the next Ctrl key the right one.** After the up key and then left Ctrl
have been pressed and released, the bit of right Ctrl is set and no key is held. -/
theorem not_tracks : ¬∀ s, Reach (StepOf typeStep) (fun _ _ => True) typeStart s → Tracks s := by
  intro hall
  have hbad : ((runOf typeStep (fun _ _ => True) [.stroke greyUp true, .rest, .stroke greyUp false,
      .rest, .stroke leftCtrl true, .stroke leftCtrl false] typeStart).map fun s =>
        (s.kbd.mode, s.held leftCtrl, s.held rightCtrl)) = some (RCTRL, false, false) := by
    decide +kernel
  obtain ⟨s, hrun, hs⟩ := Option.map_eq_some_iff.mp hbad
  obtain ⟨hmode, hs⟩ := Prod.mk.inj hs
  obtain ⟨-, hheld⟩ := Prod.mk.inj hs
  have hflag := (hall s (reach_of_runOf .start hrun)).flag rightCtrl (by decide)
  rw [hmode, hheld] at hflag
  exact absurd hflag (by decide)

end Thunix.Drivers
