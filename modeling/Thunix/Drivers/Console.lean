import Mathlib.Logic.Function.Basic
import Mathlib.Tactic.Ring
import Thunix.Drivers.Keyboard

/-!
# The console

The screen is a piece of the video memory: 25 rows of 80 cells of two bytes, from `origin`
on, which is a register of the hardware. `Thunix.Drivers.conWrite` writes a string of
bytes, one after another (`Thunix.Drivers.conByte`), some of which move the cursor.
The screen is scrolled by moving `origin` on by a row; where it would leave the video
memory it is copied to its start (`Thunix.Drivers.scrup`).

The geometry of the screen, the bounds of the video memory and the word that clears a cell
are variables of the source to which `con_init` assigns, and nothing else; they are
constants here. The commands to the hardware that follow the changes of `origin`
and of the cursor are left out.
-/

namespace Thunix.Drivers

/-! ### The variables -/

/-- The 32 bits of an `unsigned long`. -/
def u32 (i : ℤ) : ℕ := (i % 2 ^ 32).toNat

def videoNumColumns : ℕ := 80

def videoSizeRow : ℕ := videoNumColumns * 2

def videoNumLines : ℕ := 25

def videoSizeAll : ℕ := videoSizeRow * videoNumLines

def videoMemStart : ℕ := 0xb8000

def videoMemEnd : ℕ := 0xba000

def videoEraseChar : UInt16 := 0x0720

/-- The other variables of `console.c`, and the memory. -/
structure Console where
  mem : ℕ → UInt8
  origin : ℕ
  scrEnd : ℕ
  pos : ℕ
  x : ℕ
  y : ℕ
  top : ℕ
  bottom : ℕ

/-! ### Memory -/

/-- A store of 16 bits. -/
def pokeWord (m : ℕ → UInt8) (a : ℕ) (w : UInt16) : ℕ → UInt8 :=
  Function.update (Function.update m a w.toUInt8) (a + 1) (w >>> 8).toUInt8

/-- `memset_word`. -/
def memsetWord (m : ℕ → UInt8) (a : ℕ) (w : UInt16) : ℕ → ℕ → UInt8
  | 0 => m
  | count + 1 => memsetWord (pokeWord m a w) (a + 2) w count

/-- `memcpy`. -/
def memcpy (m : ℕ → UInt8) (dest src : ℕ) : ℕ → ℕ → UInt8
  | 0 => m
  | count + 1 => memcpy (Function.update m dest (m src)) (dest + 1) (src + 1) count

/-- A copy that goes downwards, of the bytes before `src` to those before `dest`. -/
def copyDown (m : ℕ → UInt8) (dest src : ℕ) : ℕ → ℕ → UInt8
  | 0 => m
  | count + 1 => copyDown (Function.update m (dest - 1) (m (src - 1))) (dest - 1) (src - 1) count

/-! ### The source -/

def gotoxy (s : Console) (newX newY : ℕ) : Console :=
  if newX > videoNumColumns ∨ newY ≥ videoNumLines then s
  else { s with x := newX, y := newY, pos := u32 (s.origin + newY * videoSizeRow + 2 * newX) }

/-- The double words that the two scrolling functions move when they do not move
`origin`. -/
def movedWords (s : Console) : ℕ := u32 (s.bottom - s.top - 1) * videoNumColumns / 2

def scrup (s : Console) : Console :=
  if s.top = 0 ∧ s.bottom = videoNumLines then
    let s1 := { s with
      origin := u32 (s.origin + videoSizeRow)
      pos := u32 (s.pos + videoSizeRow)
      scrEnd := u32 (s.scrEnd + videoSizeRow) }
    let s2 :=
      if s1.scrEnd > videoMemEnd then
        { s1 with
          mem := memcpy s1.mem videoMemStart s1.origin ((videoNumLines - 1) * videoSizeRow)
          scrEnd := u32 (s1.scrEnd - (s1.origin - videoMemStart))
          pos := u32 (s1.pos - (s1.origin - videoMemStart))
          origin := videoMemStart }
      else s1
    { s2 with
      mem := memsetWord s2.mem (u32 (s2.scrEnd - videoSizeRow)) videoEraseChar videoNumColumns }
  else
    let dest := s.origin + videoSizeRow * s.top
    { s with
      mem := memsetWord (memcpy s.mem dest (dest + videoSizeRow) (4 * movedWords s))
        (dest + 4 * movedWords s) videoEraseChar videoNumColumns }

/-- `scrdown`, which goes downwards in both of its loops. -/
def scrdown (s : Console) : Console :=
  let dest := s.origin + videoSizeRow * s.bottom
  { s with
    mem := memsetWord (copyDown s.mem dest (dest - videoSizeRow) (4 * movedWords s))
      (dest - 4 * movedWords s - 2 * videoNumColumns) videoEraseChar videoNumColumns }

def lf (s : Console) : Console :=
  if s.y + 1 < s.bottom then { s with y := s.y + 1, pos := u32 (s.pos + videoSizeRow) }
  else scrup s

def cr (s : Console) : Console := { s with pos := u32 (s.pos - 2 * s.x), x := 0 }

/-- `del`, and what is done for a backspace. -/
def del (s : Console) : Console :=
  if s.x ≠ 0 then
    let pos := u32 (s.pos - 2)
    { s with pos, x := s.x - 1, mem := pokeWord s.mem pos videoEraseChar }
  else s

/-- The cursor goes on, and into the next row if it has left this one. -/
def tab (s : Console) : Console :=
  let c := 8 - s.x % 8
  let s1 := { s with x := u32 (s.x + c), pos := u32 (s.pos + 2 * c) }
  if s1.x > videoNumColumns then
    lf { s1 with x := u32 (s1.x - videoNumColumns), pos := u32 (s1.pos - videoSizeRow) }
  else s1

/-- A byte is shown, with the attribute 2. -/
def showByte (s : Console) (c : UInt8) : Console :=
  let s1 :=
    if s.x ≥ videoNumColumns then
      lf { s with x := u32 (s.x - videoNumColumns), pos := u32 (s.pos - videoSizeRow) }
    else s
  { s1 with
    mem := Function.update (Function.update s1.mem s1.pos c) (s1.pos + 1) 2
    pos := u32 (s1.pos + 2)
    x := u32 (s1.x + 1) }

/-- The body of the loop of `con_write`. -/
def conByte (s : Console) (c : UInt8) : Console :=
  if c = 10 ∨ c = 11 ∨ c = 12 then lf (cr s)
  else if c = 13 then lf (cr s)
  else if c = 127 then del s
  else if c = 8 then del s
  else if c = 9 then tab s
  else if c = 7 then s
  else if c = HOME then gotoxy { s with x := 0 } 0 s.y
  else if c = END then gotoxy { s with x := videoNumColumns - 1 } (videoNumColumns - 1) s.y
  else if c = UP then
    let s1 := if s.y = 0 then { scrdown s with y := 0 } else { s with y := s.y - 1 }
    gotoxy s1 s1.x s1.y
  else if c = DN then
    let s1 :=
      if s.y = videoNumLines then { scrup s with y := videoNumLines }
      else { s with y := u32 (s.y + 1) }
    gotoxy s1 s1.x s1.y
  else if c = LF then
    let s1 :=
      if s.x = 0 then { s with x := videoNumColumns, y := u32 (s.y - 1) }
      else { s with x := s.x - 1 }
    gotoxy s1 s1.x s1.y
  else if c = RT then
    let s1 :=
      if s.x = videoNumColumns then { s with x := 0, y := u32 (s.y + 1) }
      else { s with x := u32 (s.x + 1) }
    gotoxy s1 s1.x s1.y
  else if c = PGUP ∨ c = PGDN ∨ c = INS ∨ c = DEL then s
  else showByte s c

/-- `con_write`. -/
def conWrite (s : Console) (buf : List UInt8) : Console := buf.foldl conByte s

/-- `cls`. -/
def cls (s : Console) : Console :=
  gotoxy (conWrite s (List.replicate (videoSizeAll / 2) 0x20)) 0 0

/-- `con_init`, over a memory that held `m`. -/
def conInit (m : ℕ → UInt8) : Console :=
  let s :=
    { mem := m
      origin := videoMemStart
      scrEnd := u32 (videoMemStart + videoNumLines * videoSizeRow)
      pos := 0
      x := 0
      y := 0
      top := 0
      bottom := videoNumLines }
  gotoxy (cls (gotoxy s 0 0)) 0 0

/-! ### What memory holds afterwards -/

theorem u32_natCast {n : ℕ} (h : n < 2 ^ 32) : u32 n = n := by
  rw [u32]
  omega

theorem pokeWord_apply (m : ℕ → UInt8) (a : ℕ) (w : UInt16) (b : ℕ) :
    pokeWord m a w b =
      if b = a then w.toUInt8 else if b = a + 1 then (w >>> 8).toUInt8 else m b := by
  rw [pokeWord, Function.update_apply, Function.update_apply]
  by_cases h : b = a
  · rw [if_pos h, if_pos h, if_neg (by omega)]
  · rw [if_neg h, if_neg h]

theorem memsetWord_apply (m : ℕ → UInt8) (a : ℕ) (w : UInt16) (count b : ℕ) :
    memsetWord m a w count b =
      if a ≤ b ∧ b < a + 2 * count then
        if (b - a) % 2 = 0 then w.toUInt8 else (w >>> 8).toUInt8
      else m b := by
  induction count generalizing m a with
  | zero => rw [memsetWord, if_neg (by omega)]
  | succ count ih =>
    rw [memsetWord, ih, pokeWord_apply]
    by_cases hin : a + 2 ≤ b ∧ b < a + 2 + 2 * count
    · have hin' : a ≤ b ∧ b < a + 2 * (count + 1) := by omega
      rw [if_pos hin, if_pos hin', show (b - (a + 2)) % 2 = (b - a) % 2 by omega]
    · rw [if_neg hin]
      by_cases hb : b = a
      · rw [if_pos hb, if_pos (by omega), if_pos (by omega)]
      · rw [if_neg hb]
        by_cases hb' : b = a + 1
        · rw [if_pos hb', if_pos (by omega), if_neg (by omega)]
        · rw [if_neg hb', if_neg (by omega)]

/-- A copy to lower addresses, which may overlap. -/
theorem memcpy_apply (m : ℕ → UInt8) {dest src : ℕ} (h : dest ≤ src) (count b : ℕ) :
    memcpy m dest src count b =
      if dest ≤ b ∧ b < dest + count then m (src + (b - dest)) else m b := by
  induction count generalizing m dest src with
  | zero => rw [memcpy, if_neg (by omega)]
  | succ count ih =>
    rw [memcpy, ih _ (by omega)]
    by_cases hin : dest + 1 ≤ b ∧ b < dest + 1 + count
    · rw [if_pos hin, if_pos (by omega), Function.update_of_ne (by omega),
        show src + 1 + (b - (dest + 1)) = src + (b - dest) by omega]
    · rw [if_neg hin, Function.update_apply]
      by_cases hb : b = dest
      · rw [if_pos hb, if_pos (by omega), hb, Nat.sub_self, Nat.add_zero]
      · rw [if_neg hb, if_neg (by omega)]

theorem copyDown_of_not_mem (m : ℕ → UInt8) {dest src count b : ℕ} (hle : count ≤ dest)
    (h : ¬(dest ≤ b + count ∧ b < dest)) : copyDown m dest src count b = m b := by
  induction count generalizing m dest src with
  | zero => rw [copyDown]
  | succ count ih => rw [copyDown, ih _ (by omega) (by omega), Function.update_of_ne (by omega)]

end Thunix.Drivers
