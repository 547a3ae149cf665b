import Thunix.Drivers.Console

/-!
# A naive terminal

What the console is for: a grid of cells and a cursor, which may stand behind the last
column until the next character comes. `Thunix.Drivers.Terminal.byte` is what a byte does
to it. When the cursor leaves the last row all rows are moved up and the last is cleared
(`Thunix.Drivers.Terminal.scroll`).

`Thunix.Drivers.view` is the terminal that a console shows, by the bytes from `origin`
on. In a console whose variables fit together (`Thunix.Drivers.Aligned`) each byte that
is not a cursor key does to the terminal what it should, so the way the console scrolls
cannot be seen (`Thunix.Drivers.view_conWrite`). Nothing outside the video memory is written
if the screen does not begin before it; else it is (`Thunix.Drivers.not_view_conWrite`).
-/

namespace Thunix.Drivers

/-! ### The terminal -/

/-- A character and its attribute. -/
abbrev Cell := UInt8 × UInt8

structure Terminal where
  grid : Fin 25 → Fin 80 → Cell
  x : ℕ
  y : ℕ

namespace Terminal

def blank : Cell := (0x20, 0x07)

/-- The cell under the cursor. -/
def put (t : Terminal) (cell : Cell) : Terminal :=
  { t with grid := fun r c => if r = t.y ∧ c = t.x then cell else t.grid r c }

/-- All rows move up. -/
def scroll (t : Terminal) : Terminal :=
  { t with grid := fun r c => if h : r.val + 1 < 25 then t.grid ⟨r + 1, h⟩ c else blank }

def lineFeed (t : Terminal) : Terminal :=
  if t.y + 1 < 25 then { t with y := t.y + 1 } else t.scroll

def newLine (t : Terminal) : Terminal := lineFeed { t with x := 0 }

/-- The cell before the cursor is cleared. -/
def erase (t : Terminal) : Terminal :=
  if t.x = 0 then t else put { t with x := t.x - 1 } blank

/-- The cursor goes to the next multiple of 8. -/
def tab (t : Terminal) : Terminal :=
  let x := t.x + (8 - t.x % 8)
  if x > 80 then lineFeed { t with x := x - 80 } else { t with x }

/-- A cursor behind the last column goes to the next row first. -/
def char (t : Terminal) (c : UInt8) : Terminal :=
  let t1 := if t.x ≥ 80 then newLine t else t
  { t1.put (c, 2) with x := t1.x + 1 }

/-- What a byte does. -/
def byte (t : Terminal) (c : UInt8) : Terminal :=
  if c = 10 ∨ c = 11 ∨ c = 12 ∨ c = 13 then newLine t
  else if c = 127 ∨ c = 8 then erase t
  else if c = 9 then tab t
  else if c = HOME then { t with x := 0 }
  else if c = END then { t with x := 79 }
  else if c = 7 ∨ c = PGUP ∨ c = PGDN ∨ c = INS ∨ c = DEL then t
  else char t c

/-- What a string of bytes does. -/
def write (t : Terminal) (buf : List UInt8) : Terminal := buf.foldl byte t

end Terminal

/-- The terminal that a console shows. -/
def view (s : Console) : Terminal where
  grid r c := (s.mem (s.origin + 160 * r + 2 * c), s.mem (s.origin + 160 * r + 2 * c + 1))
  x := s.x
  y := s.y

/-! ### A console whose variables fit together -/

/-- The variables fit together, wherever the screen lies. -/
structure Aligned (s : Console) : Prop where
  top : s.top = 0
  bottom : s.bottom = videoNumLines
  pos : s.pos = s.origin + s.y * videoSizeRow + 2 * s.x
  x_le : s.x ≤ videoNumColumns
  y_lt : s.y < videoNumLines
  scrEnd : s.scrEnd = s.origin + videoSizeAll
  scrEnd_le : s.scrEnd ≤ videoMemEnd

/-- No byte outside the video memory is different. -/
def SameOutside (s s' : Console) : Prop :=
  ∀ a, ¬(videoMemStart ≤ a ∧ a < videoMemEnd) → s'.mem a = s.mem a

/-- The console goes from `s` to `s'`, and shows the terminal that `f` makes. -/
structure Does (s s' : Console) (f : Terminal → Terminal) : Prop where
  aligned : Aligned s'
  view : view s' = f (view s)
  inside : videoMemStart ≤ s.origin → videoMemStart ≤ s'.origin ∧ SameOutside s s'

variable {s s' s'' : Console} {f g : Terminal → Terminal}

theorem SameOutside.trans (h : SameOutside s s') (h' : SameOutside s' s'') : SameOutside s s'' :=
  fun a ha => (h' a ha).trans (h a ha)

theorem Does.trans (h : Does s s' f) (h' : Does s' s'' g) : Does s s'' fun t => g (f t) where
  aligned := h'.aligned
  view := h'.view.trans (congrArg g h.view)
  inside hge := by
    obtain ⟨hge', hsame⟩ := h.inside hge
    obtain ⟨hge'', hsame'⟩ := h'.inside hge'
    exact ⟨hge'', hsame.trans hsame'⟩

/-- The terminal that is meant may be described in another way. -/
theorem Does.congr (h : Does s s' f) (hfg : f (Drivers.view s) = g (Drivers.view s)) :
    Does s s' g := ⟨h.aligned, h.view.trans hfg, h.inside⟩

theorem Does.refl (h : Aligned s) : Does s s id := ⟨h, rfl, fun hge => ⟨hge, fun _ _ => rfl⟩⟩

/-- What the constants are. -/
theorem geometry : videoNumColumns = 80 ∧ videoSizeRow = 160 ∧ videoNumLines = 25 ∧
    videoSizeAll = 4000 ∧ videoMemStart = 0xb8000 ∧ videoMemEnd = 0xba000 := by decide

/-- **The cursor is moved.** -/
theorem does_move {x y p : ℕ} (h : Aligned s) (hx : x ≤ 80) (hy : y < 25)
    (hpos : p = s.origin + y * 160 + 2 * x) :
    Does s { s with x, y, pos := p } fun t => { t with x, y } where
  aligned := ⟨h.top, h.bottom, hpos, hx, hy, h.scrEnd, h.scrEnd_le⟩
  view := rfl
  inside hge := ⟨hge, fun _ _ => rfl⟩

/-- A console that shows the rows of `s` from the second on, and then a blank one. -/
theorem view_scrolled (hx : s'.x = s.x) (hy : s'.y = s.y)
    (hrows : ∀ k < 3840, s'.mem (s'.origin + k) = s.mem (s.origin + 160 + k))
    (hlast : ∀ k < 160, s'.mem (s'.origin + 3840 + k) = if k % 2 = 0 then 0x20 else 0x07) :
    view s' = (view s).scroll := by
  have hgrid : ∀ (r : Fin 25) (c : Fin 80), (view s').grid r c = (view s).scroll.grid r c := by
    intro r c
    by_cases hr : r.val + 1 < 25
    · have h0 := hrows (160 * r + 2 * c) (by omega)
      have h1 := hrows (160 * r + 2 * c + 1) (by omega)
      simp only [view, Terminal.scroll, dif_pos hr]
      rw [Nat.add_assoc, h0, Nat.add_assoc _ (160 * (r : ℕ) + 2 * c) 1, h1]
      simp only [Nat.add_assoc, Nat.mul_add, Nat.mul_one, Nat.add_left_comm 160]
    · have hr24 : (r : ℕ) = 24 := by omega
      have h0 := hlast (2 * c) (by omega)
      have h1 := hlast (2 * c + 1) (by omega)
      rw [if_pos (by omega)] at h0
      rw [if_neg (by omega)] at h1
      simp only [view, Terminal.scroll, hr24]
      rw [h0, Nat.add_assoc _ (2 * (c : ℕ)) 1, h1]
      rfl
  calc view s' = { grid := (view s').grid, x := s'.x, y := s'.y } := rfl
    _ = (view s).scroll := by
      rw [funext fun r => funext (hgrid r), hx, hy]
      rfl

/-- The addresses of an aligned console are small. -/
theorem Aligned.bounds (h : Aligned s) : s.top = 0 ∧ s.bottom = 25 ∧
    s.pos = s.origin + s.y * 160 + 2 * s.x ∧ s.x ≤ 80 ∧ s.y < 25 ∧ s.scrEnd = s.origin + 4000 ∧
    s.origin + 4000 ≤ 0xba000 := by
  have hend := h.scrEnd
  have hle := h.scrEnd_le
  rw [hend] at hle
  exact ⟨h.top, h.bottom, h.pos, h.x_le, h.y_lt, hend, hle⟩

theorem u32_eq {i : ℤ} {n : ℕ} (h : i = n) (hn : n < 2 ^ 32) : u32 i = n := by
  rw [h, u32_natCast hn]

/-- Where the screen can move on by a row it does. -/
theorem scrup_near (h : Aligned s) (hroom : s.origin + 4160 ≤ 0xba000) :
    scrup s = { s with
      origin := s.origin + 160
      pos := s.pos + 160
      scrEnd := s.scrEnd + 160
      mem := memsetWord s.mem s.scrEnd videoEraseChar 80 } := by
  obtain ⟨-, -, hpos, hx, hy, hend, hle⟩ := h.bounds
  obtain ⟨hcols, hrow, -, -, -, hmemEnd⟩ := geometry
  have horigin : u32 (s.origin + (160 : ℕ)) = s.origin + 160 := u32_eq (by omega) (by omega)
  have hpos' : u32 (s.pos + (160 : ℕ)) = s.pos + 160 := u32_eq (by omega) (by omega)
  have hend' : u32 (s.scrEnd + (160 : ℕ)) = s.scrEnd + 160 := u32_eq (by omega) (by omega)
  have herase : u32 ((s.scrEnd + 160 : ℕ) - (160 : ℕ)) = s.scrEnd := u32_eq (by omega) (by omega)
  have hfits : ¬ s.scrEnd + 160 > 0xba000 := by omega
  rw [scrup, if_pos ⟨h.top, h.bottom⟩]
  simp only [hrow, hmemEnd, horigin, hpos', hend', if_neg hfits, herase, hcols]

/-- Where it cannot, it goes to the start of the video memory. -/
theorem scrup_far (h : Aligned s) (hroom : 0xba000 < s.origin + 4160) :
    scrup s = { s with
      origin := 0xb8000
      pos := 0xb8000 + s.y * 160 + 2 * s.x
      scrEnd := 0xb8000 + 4000
      mem := memsetWord (memcpy s.mem 0xb8000 (s.origin + 160) 3840)
        (0xb8000 + 3840) videoEraseChar 80 } := by
  obtain ⟨-, -, hpos, hx, hy, hend, hle⟩ := h.bounds
  obtain ⟨hcols, hrow, -, -, hstart, hmemEnd⟩ := geometry
  have horigin : u32 (s.origin + (160 : ℕ)) = s.origin + 160 := u32_eq (by omega) (by omega)
  have hpos' : u32 (s.pos + (160 : ℕ)) = s.pos + 160 := u32_eq (by omega) (by omega)
  have hend' : u32 (s.scrEnd + (160 : ℕ)) = s.scrEnd + 160 := u32_eq (by omega) (by omega)
  have hfull : s.scrEnd + 160 > 0xba000 := by omega
  have hendBack : u32 ((s.scrEnd + 160 : ℕ) - ((s.origin + 160 : ℕ) - (0xb8000 : ℕ))) =
      0xb8000 + 4000 := u32_eq (by omega) (by omega)
  have hposBack : u32 ((s.pos + 160 : ℕ) - ((s.origin + 160 : ℕ) - (0xb8000 : ℕ))) =
      0xb8000 + s.y * 160 + 2 * s.x := u32_eq (by omega) (by omega)
  have herase : u32 ((0xb8000 + 4000 : ℕ) - (160 : ℕ)) = 0xb8000 + 3840 := by decide
  have hcount : (videoNumLines - 1) * 160 = 3840 := rfl
  rw [scrup, if_pos ⟨h.top, h.bottom⟩]
  simp only [hcount, hrow, hstart, hmemEnd, horigin, hpos', hend', if_pos hfull, hendBack,
    hposBack, herase, hcols]

theorem erase_low : videoEraseChar.toUInt8 = 0x20 := by decide

theorem erase_high : (videoEraseChar >>> 8).toUInt8 = 0x07 := by decide

theorem outside_iff {a : ℕ} :
    ¬(videoMemStart ≤ a ∧ a < videoMemEnd) ↔ a < 0xb8000 ∨ 0xba000 ≤ a := by
  obtain ⟨-, -, -, -, hstart, hmemEnd⟩ := geometry
  rw [hstart, hmemEnd]
  omega

/-- **Scrolling moves all rows up**, whether or not the screen is copied. -/
theorem does_scrup (h : Aligned s) : Does s (scrup s) Terminal.scroll := by
  obtain ⟨-, -, hpos, hx, hy, hend, hle⟩ := h.bounds
  obtain ⟨hcols, hrow, hlines, hall, hstart, hmemEnd⟩ := geometry
  rcases Nat.lt_or_ge 0xba000 (s.origin + 4160) with hfar | hnear
  · rw [scrup_far h hfar]
    refine ⟨⟨h.top, h.bottom, rfl, h.x_le, h.y_lt, rfl, ?_⟩, ?_, fun hge => ⟨?_, fun a ha => ?_⟩⟩
    · rw [hmemEnd]
      exact (by decide : 0xb8000 + 4000 ≤ 0xba000)
    · refine view_scrolled rfl rfl (fun k hk => ?_) fun k hk => ?_ <;> simp only [memsetWord_apply]
      · rw [if_neg (by omega), memcpy_apply _ (by omega), if_pos (by omega),
          Nat.add_sub_cancel_left]
      · rw [if_pos (by omega), Nat.add_sub_cancel_left, erase_low, erase_high]
    · exact Nat.le_of_eq hstart
    · rw [outside_iff] at ha
      simp only [memsetWord_apply]
      rw [if_neg (by omega), memcpy_apply _ (by omega), if_neg (by omega)]
  · rw [scrup_near h hnear]
    refine ⟨⟨h.top, h.bottom, ?_, h.x_le, h.y_lt, ?_, ?_⟩, ?_, fun hge => ⟨?_, fun a ha => ?_⟩⟩
    · change s.pos + 160 = s.origin + 160 + s.y * videoSizeRow + 2 * s.x
      rw [hrow]
      omega
    · change s.scrEnd + 160 = s.origin + 160 + videoSizeAll
      rw [hall]
      omega
    · change s.scrEnd + 160 ≤ videoMemEnd
      rw [hmemEnd]
      omega
    · refine view_scrolled rfl rfl (fun k hk => ?_) fun k hk => ?_ <;> simp only [memsetWord_apply]
      · rw [if_neg (by omega)]
      · rw [if_pos (by omega), erase_low, erase_high,
          show s.origin + 160 + 3840 + k - s.scrEnd = k by omega]
    · change videoMemStart ≤ s.origin + 160
      omega
    · rw [outside_iff] at ha
      rw [hstart] at hge
      simp only [memsetWord_apply]
      rw [if_neg (by omega)]

/-! ### The bytes -/

theorem does_lf (h : Aligned s) : Does s (lf s) Terminal.lineFeed := by
  obtain ⟨-, hbottom, hpos, hx, hy, -, hle⟩ := h.bounds
  by_cases hlast : s.y + 1 < 25
  · have hpos' : u32 (s.pos + videoSizeRow) = s.origin + (s.y + 1) * 160 + 2 * s.x := by
      rw [geometry.2.1]
      exact u32_eq (by omega) (by omega)
    have hview : (view s).lineFeed = { view s with y := s.y + 1 } := if_pos hlast
    have hmove := does_move (x := s.x) (y := s.y + 1) h hx hlast rfl
    rw [lf, if_pos (by omega), hpos']
    exact hmove.congr hview.symm
  · have hview : (view s).lineFeed = (view s).scroll := if_neg hlast
    have hscroll := does_scrup h
    rw [lf, if_neg (by omega)]
    exact hscroll.congr hview.symm

theorem does_newLine (h : Aligned s) : Does s (lf (cr s)) Terminal.newLine := by
  obtain ⟨-, -, hpos, hx, hy, -, hle⟩ := h.bounds
  have hpos' : u32 (s.pos - 2 * s.x) = s.origin + s.y * 160 + 2 * 0 :=
    u32_eq (by omega) (by omega)
  have hcr : Does s (cr s) fun t => { t with x := 0, y := s.y } := by
    rw [cr, hpos']
    exact does_move h (Nat.zero_le _) hy rfl
  exact (hcr.trans (does_lf hcr.aligned)).congr rfl

/-- **A cell is written**, where the cursor of the terminal stands. -/
theorem does_put {m : ℕ → UInt8} (lo hi : UInt8) (h : Aligned s) (hx : s.x < 80)
    (hm : ∀ a, m a = if a = s.pos then lo else if a = s.pos + 1 then hi else s.mem a) :
    Does s { s with mem := m } fun t => t.put (lo, hi) := by
  obtain ⟨-, -, hpos, -, hy, -, hle⟩ := h.bounds
  refine ⟨⟨h.top, h.bottom, h.pos, h.x_le, h.y_lt, h.scrEnd, h.scrEnd_le⟩, ?_,
    fun hge => ⟨hge, fun a ha => ?_⟩⟩
  · have hgrid : ∀ (r : Fin 25) (c : Fin 80),
        (view { s with mem := m }).grid r c = ((view s).put (lo, hi)).grid r c := by
      intro r c
      by_cases hcell : (r : ℕ) = s.y ∧ (c : ℕ) = s.x
      · have hput : ((view s).put (lo, hi)).grid r c = (lo, hi) := if_pos hcell
        rw [hput]
        simp only [view, hm]
        rw [if_pos (by omega), if_neg (by omega), if_pos (by omega)]
      · have hput : ((view s).put (lo, hi)).grid r c = (view s).grid r c := if_neg hcell
        rw [hput]
        simp only [view, hm]
        rw [if_neg (by omega), if_neg (by omega), if_neg (by omega), if_neg (by omega)]
    exact congrArg (fun g => ({ grid := g, x := s.x, y := s.y } : Terminal))
      (funext fun r => funext (hgrid r))
  · rw [outside_iff] at ha
    rw [geometry.2.2.2.2.1] at hge
    refine (hm a).trans ?_
    rw [if_neg (by omega), if_neg (by omega)]

theorem does_del (h : Aligned s) : Does s (del s) Terminal.erase := by
  obtain ⟨-, -, hpos, hx, hy, -, hle⟩ := h.bounds
  by_cases h0 : s.x = 0
  · have hview : (view s).erase = view s := if_pos h0
    rw [del, if_neg (not_not.mpr h0)]
    exact (Does.refl h).congr hview.symm
  · have hpos' : u32 (s.pos - 2) = s.origin + s.y * 160 + 2 * (s.x - 1) :=
      u32_eq (by omega) (by omega)
    have hmove := does_move (x := s.x - 1) (y := s.y) h (by omega) hy rfl
    have hput := does_put 0x20 0x07 hmove.aligned (by change s.x - 1 < 80; omega)
      (m := pokeWord s.mem (s.origin + s.y * 160 + 2 * (s.x - 1)) videoEraseChar) fun a => by
        rw [pokeWord_apply, erase_low, erase_high]
    have hview : (view s).erase = Terminal.put { view s with x := s.x - 1 } Terminal.blank :=
      if_neg h0
    rw [del, if_pos h0]
    simp only [hpos']
    exact (hmove.trans hput).congr hview.symm

theorem does_tab (h : Aligned s) : Does s (tab s) Terminal.tab := by
  obtain ⟨-, -, hpos, hx, hy, -, hle⟩ := h.bounds
  obtain ⟨hcols, hrow, -⟩ := geometry
  have hx' : u32 (s.x + (8 - s.x % 8 : ℕ)) = s.x + (8 - s.x % 8) := u32_eq (by omega) (by omega)
  have hpos' : u32 (s.pos + 2 * (8 - s.x % 8 : ℕ)) = s.pos + 2 * (8 - s.x % 8) :=
    u32_eq (by omega) (by omega)
  by_cases hnext : s.x + (8 - s.x % 8) > 80
  · have hxBack : u32 ((s.x + (8 - s.x % 8) : ℕ) - (80 : ℕ)) = s.x + (8 - s.x % 8) - 80 :=
      u32_eq (by omega) (by omega)
    have hposBack : u32 ((s.pos + 2 * (8 - s.x % 8) : ℕ) - (160 : ℕ)) =
        s.origin + s.y * 160 + 2 * (s.x + (8 - s.x % 8) - 80) := u32_eq (by omega) (by omega)
    have hmove := does_move (x := s.x + (8 - s.x % 8) - 80) (y := s.y) h (by omega) hy rfl
    have hlf := does_lf hmove.aligned
    have hview : (view s).tab =
        Terminal.lineFeed { view s with x := s.x + (8 - s.x % 8) - 80 } := if_pos hnext
    rw [tab]
    simp only [hx', hpos', hcols, hrow, if_pos hnext, hxBack, hposBack]
    exact (hmove.trans hlf).congr hview.symm
  · have hmove := does_move (x := s.x + (8 - s.x % 8)) (y := s.y)
      (p := s.pos + 2 * (8 - s.x % 8)) h (by omega) hy (by omega)
    have hview : (view s).tab = { view s with x := s.x + (8 - s.x % 8) } := if_neg hnext
    rw [tab]
    simp only [hx', hpos', hcols, if_neg hnext]
    exact hmove.congr hview.symm

theorem Terminal.lineFeed_x (t : Terminal) : t.lineFeed.x = t.x := by
  rw [Terminal.lineFeed]
  split <;> rfl

theorem Terminal.char_of_ge {t : Terminal} (h : 80 ≤ t.x) (c : UInt8) :
    t.char c = { t.newLine.put (c, 2) with x := t.newLine.x + 1 } := by
  rw [Terminal.char, if_pos h]

theorem Terminal.char_of_lt {t : Terminal} (h : t.x < 80) (c : UInt8) :
    t.char c = { t.put (c, 2) with x := t.x + 1 } := by
  rw [Terminal.char, if_neg (Nat.not_le.mpr h)]

/-- A character in a column of the screen. -/
theorem does_char (h : Aligned s) (hx : s.x < 80) (c : UInt8) :
    Does s { s with
      mem := Function.update (Function.update s.mem s.pos c) (s.pos + 1) 2
      pos := u32 (s.pos + 2)
      x := u32 (s.x + 1) } fun t => { t.put (c, 2) with x := t.x + 1 } := by
  obtain ⟨-, -, hpos, -, hy, -, hle⟩ := h.bounds
  have hx' : u32 (s.x + 1) = s.x + 1 := u32_eq (by omega) (by omega)
  have hpos' : u32 (s.pos + 2) = s.origin + s.y * 160 + 2 * (s.x + 1) :=
    u32_eq (by omega) (by omega)
  have hput := does_put c 2 h hx
    (m := Function.update (Function.update s.mem s.pos c) (s.pos + 1) 2) fun a => by
      rw [Function.update_apply, Function.update_apply]
      by_cases ha : a = s.pos
      · rw [if_neg (by omega), if_pos ha, if_pos ha]
      · rw [if_neg ha, if_neg ha]
  have hmove := does_move (x := s.x + 1) (y := s.y) hput.aligned hx hy rfl
  rw [hx', hpos']
  exact (hput.trans hmove).congr rfl

theorem does_showByte (h : Aligned s) (c : UInt8) :
    Does s (showByte s c) fun t => t.char c := by
  obtain ⟨-, -, hpos, hx, hy, -, hle⟩ := h.bounds
  obtain ⟨hcols, hrow, -⟩ := geometry
  by_cases hnext : s.x ≥ 80
  · have hxBack : u32 (s.x - (80 : ℕ)) = 0 := u32_eq (by omega) (by omega)
    have hposBack : u32 (s.pos - (160 : ℕ)) = s.origin + s.y * 160 + 2 * 0 :=
      u32_eq (by omega) (by omega)
    have hmove := does_move (x := 0) (y := s.y) h (Nat.zero_le _) hy rfl
    have hlf := does_lf hmove.aligned
    have hx0 := congrArg Terminal.x hlf.view
    rw [Terminal.lineFeed_x] at hx0
    have hchar := does_char hlf.aligned
      (Nat.lt_of_le_of_lt (Nat.le_of_eq hx0) (Nat.zero_lt_succ 79)) c
    have hview := Terminal.char_of_ge (t := view s) hnext c
    rw [showByte]
    simp only [hcols, hrow, if_pos hnext, hxBack, hposBack]
    exact ((hmove.trans hlf).trans hchar).congr hview.symm
  · have hchar := does_char h (Nat.not_le.mp hnext) c
    have hview := Terminal.char_of_lt (t := view s) (Nat.not_le.mp hnext) c
    rw [showByte]
    simp only [hcols, if_neg hnext]
    exact hchar.congr hview.symm

/-- The cursor is put where `gotoxy` is told to put it. -/
theorem does_gotoxy {x y a b : ℕ} (h : Aligned s) (hx : x ≤ 80) (hy : y < 25) :
    Does s (gotoxy { s with x := a, y := b } x y) fun t => { t with x, y } := by
  obtain ⟨-, -, -, -, -, -, hle⟩ := h.bounds
  obtain ⟨hcols, hrow, hlines, -⟩ := geometry
  have hpos' : u32 (s.origin + y * (160 : ℕ) + 2 * x) = s.origin + y * 160 + 2 * x :=
    u32_eq (by omega) (by omega)
  have hmove := does_move (x := x) (y := y) h hx hy rfl
  have hin : ¬(x > videoNumColumns ∨ y ≥ videoNumLines) := by omega
  rw [gotoxy, if_neg hin]
  simp only [hrow, hpos']
  exact hmove

/-- The bytes that `con_write` treats specially. -/
def special : List UInt8 :=
  [10, 11, 12, 13, 127, 8, 9, 7, HOME, END, UP, DN, LF, RT, PGUP, PGDN, INS, DEL]

theorem conByte_of_not_mem {c : UInt8} (hc : c ∉ special) : conByte s c = showByte s c := by
  simp only [special, List.mem_cons, List.not_mem_nil, or_false, not_or] at hc
  obtain ⟨h10, h11, h12, h13, h127, h8, h9, h7, hhome, hend, hup, hdn, hlf, hrt, hpgup, hpgdn,
    hins, hdel⟩ := hc
  simp only [conByte, h10, h11, h12, h13, h127, h8, h9, h7, hhome, hend, hup, hdn, hlf, hrt, hpgup,
    hpgdn, hins, hdel, or_self, if_false]

theorem Terminal.byte_of_not_mem {t : Terminal} {c : UInt8} (hc : c ∉ special) :
    t.byte c = t.char c := by
  simp only [special, List.mem_cons, List.not_mem_nil, or_false, not_or] at hc
  obtain ⟨h10, h11, h12, h13, h127, h8, h9, h7, hhome, hend, -, -, -, -, hpgup, hpgdn, hins,
    hdel⟩ := hc
  simp only [Terminal.byte, h10, h11, h12, h13, h127, h8, h9, h7, hhome, hend, hpgup, hpgdn, hins,
    hdel, or_self, if_false]

/-- **What a byte does**, unless it is one of the four cursor keys. -/
theorem does_conByte (h : Aligned s) {c : UInt8} (hc : c ∉ [UP, DN, LF, RT]) :
    Does s (conByte s c) fun t => t.byte c := by
  have hcols := geometry.1
  by_cases hs : c ∈ special
  · simp only [special, List.mem_cons, List.not_mem_nil, or_false, not_or] at hs hc
    rcases hs with rfl | rfl | rfl | rfl | rfl | rfl | rfl | rfl | rfl | rfl | rfl | rfl | rfl |
      rfl | rfl | rfl | rfl | rfl
    · exact does_newLine h
    · exact does_newLine h
    · exact does_newLine h
    · exact does_newLine h
    · exact does_del h
    · exact does_del h
    · exact does_tab h
    · exact Does.refl h
    · have hgo := does_gotoxy (a := 0) (b := s.y) h (Nat.zero_le 80) h.y_lt
      exact hgo.congr rfl
    · have hgo := does_gotoxy (x := 79) (a := 79) (b := s.y) h (by decide) h.y_lt
      exact hgo.congr rfl
    · exact absurd rfl hc.1
    · exact absurd rfl hc.2.1
    · exact absurd rfl hc.2.2.1
    · exact absurd rfl hc.2.2.2
    · exact Does.refl h
    · exact Does.refl h
    · exact Does.refl h
    · exact Does.refl h
  · have hshow := does_showByte h c
    rw [conByte_of_not_mem hs]
    exact hshow.congr (Terminal.byte_of_not_mem hs).symm

/-- What a string of bytes does. -/
theorem does_conWrite (h : Aligned s) {buf : List UInt8}
    (hbuf : ∀ c ∈ buf, c ∉ [UP, DN, LF, RT]) :
    Does s (conWrite s buf) fun t => t.write buf := by
  induction buf generalizing s with
  | nil => exact Does.refl h
  | cons c buf ih =>
    have hc := does_conByte h (hbuf c List.mem_cons_self)
    exact hc.trans (ih hc.aligned fun d hd => hbuf d (List.mem_cons_of_mem _ hd))

/-- **Scrolling cannot be seen.** A string without cursor keys does to the terminal what it
does to a naive one, and changes nothing outside the video memory if the screen begins
there. -/
theorem view_conWrite (h : Aligned s) {buf : List UInt8}
    (hbuf : ∀ c ∈ buf, c ∉ [UP, DN, LF, RT]) :
    Aligned (conWrite s buf) ∧ view (conWrite s buf) = (view s).write buf ∧
      (videoMemStart ≤ s.origin → SameOutside s (conWrite s buf)) := by
  have hdoes := does_conWrite h hbuf
  exact ⟨hdoes.aligned, hdoes.view, fun hge => (hdoes.inside hge).2⟩

/-- A screen at the end of the video memory, with the cursor behind the last cell of its last
row, after one more character. -/
def fullScreen : Console where
  mem := fun _ => 0x41
  origin := 0xba000 - 4000
  scrEnd := 0xba000
  pos := 0xba000
  x := 80
  y := 24
  top := 0
  bottom := 25

theorem aligned_fullScreen : Aligned fullScreen where
  top := by decide
  bottom := by decide
  pos := by decide
  x_le := by decide
  y_lt := by decide
  scrEnd := by decide
  scrEnd_le := by decide

theorem view_conWrite_fullScreen : Aligned (conWrite fullScreen [0x42, 10]) ∧
    view (conWrite fullScreen [0x42, 10]) = (view fullScreen).write [0x42, 10] ∧
      (videoMemStart ≤ fullScreen.origin →
        SameOutside fullScreen (conWrite fullScreen [0x42, 10])) :=
  view_conWrite aligned_fullScreen (by decide +kernel)

/-- A screen that begins where memory does. -/
def lowScreen : Console where
  mem := fun _ => 0
  origin := 0
  scrEnd := 4000
  pos := 0
  x := 0
  y := 0
  top := 0
  bottom := 25

theorem aligned_lowScreen : Aligned lowScreen where
  top := by decide
  bottom := by decide
  pos := by decide
  x_le := by decide
  y_lt := by decide
  scrEnd := by decide
  scrEnd_le := by decide

/-- **A screen outside the video memory** is written outside. -/
theorem not_view_conWrite : ¬∀ (s : Console) (buf : List UInt8), Aligned s →
    (∀ c ∈ buf, c ∉ [UP, DN, LF, RT]) → Aligned (conWrite s buf) ∧
      view (conWrite s buf) = (view s).write buf ∧ SameOutside s (conWrite s buf) := by
  intro hall
  obtain ⟨-, -, hout⟩ := hall lowScreen [0x41] aligned_lowScreen (by decide +kernel)
  have h0 := hout 0 (by decide)
  exact absurd h0 (by decide)

end Thunix.Drivers
