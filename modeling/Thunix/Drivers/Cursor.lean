import Thunix.Drivers.Terminal
import Thunix.Lib.Run

/-!
# The cursor

Where the cursor is after any bytes have been written, the cursor keys included. Each of
these changes the coordinates and then calls `gotoxy`, which does nothing if they
are not on the screen, and leaves them as they are. So the coordinates leave the screen when
the cursor is moved down from the last row, left from the first cell and right
from behind the last one (`Thunix.Drivers.not_cursorOk`). `Thunix.Drivers.Inner` excludes these
three, and `Thunix.Drivers.cursorOk_of_reach` says that the cursor is right until one of
them comes, and wrong when it does.
-/

namespace Thunix.Drivers

variable {s s' : Console} {c : UInt8}

/-- **The cursor is on the screen**, or just behind its row, and `pos` is its place in
memory. -/
structure CursorOk (s : Console) : Prop where
  x_le : s.x ≤ videoNumColumns
  y_lt : s.y < videoNumLines
  pos : s.pos = s.origin + s.y * videoSizeRow + 2 * s.x

/-- The condition on a byte: no cursor key moves the cursor off the screen. -/
def Inner (s : Console) (c : UInt8) : Prop :=
  ¬(c = DN ∧ s.y + 1 = videoNumLines) ∧ ¬(c = LF ∧ s.x = 0 ∧ s.y = 0) ∧
    ¬(c = RT ∧ s.x = videoNumColumns ∧ s.y + 1 = videoNumLines)

instance : Decidable (Inner s c) := inferInstanceAs (Decidable (_ ∧ _))

/-- One byte, as a step. -/
def conStep (s : Console) (c : UInt8) : Option Console := some (conByte s c)

/-! ### The cursor keys -/

/-- The console is aligned again, and nothing outside the video memory has changed. -/
def Stays (s s' : Console) : Prop :=
  Aligned s' ∧ (videoMemStart ≤ s.origin → videoMemStart ≤ s'.origin ∧ SameOutside s s')

theorem Does.stays {f : Terminal → Terminal} (h : Does s s' f) : Stays s s' :=
  ⟨h.aligned, h.inside⟩

/-- **Scrolling down** moves rows inside the screen. -/
theorem stays_scrdown (h : Aligned s) : Stays s (scrdown s) := by
  obtain ⟨htop, hbottom, -, -, -, hend, hle⟩ := h.bounds
  obtain ⟨hcols, hrow, -, -, hstart, hmemEnd⟩ := geometry
  refine ⟨⟨h.top, h.bottom, h.pos, h.x_le, h.y_lt, h.scrEnd, h.scrEnd_le⟩,
    fun hge => ⟨hge, fun a ha => ?_⟩⟩
  have hmoved : 4 * movedWords s = 3840 := by
    rw [movedWords, htop, hbottom]
    decide
  rw [outside_iff] at ha
  rw [hstart] at hge
  simp only [scrdown, hmoved, hrow, hbottom, hcols, memsetWord_apply]
  rw [if_neg (by omega), copyDown_of_not_mem _ (by omega) (by omega)]

theorem Stays.trans {s'' : Console} (h : Stays s s') (h' : Stays s' s'') : Stays s s'' := by
  refine ⟨h'.1, fun hge => ?_⟩
  obtain ⟨hge', hsame⟩ := h.2 hge
  obtain ⟨hge'', hsame'⟩ := h'.2 hge'
  exact ⟨hge'', hsame.trans hsame'⟩

/-- The coordinates are changed, and `gotoxy` is called with them. -/
theorem stays_goto {x y : ℕ} (h : Aligned s) (hx : x ≤ 80) (hy : y < 25) :
    Stays s ((fun s1 : Console => gotoxy s1 s1.x s1.y) { s with x, y }) :=
  (does_gotoxy h hx hy).stays

theorem gotoxy_off {x y : ℕ} (hy : 25 ≤ y) : gotoxy s x y = s := if_pos (.inr hy)

theorem conByte_up (s : Console) : conByte s UP = (fun s1 : Console => gotoxy s1 s1.x s1.y)
    (if s.y = 0 then { scrdown s with y := 0 } else { s with y := s.y - 1 }) := rfl

theorem conByte_down (s : Console) : conByte s DN = (fun s1 : Console => gotoxy s1 s1.x s1.y)
    (if s.y = videoNumLines then { scrup s with y := videoNumLines }
      else { s with y := u32 (s.y + 1) }) := rfl

theorem conByte_left (s : Console) : conByte s LF = (fun s1 : Console => gotoxy s1 s1.x s1.y)
    (if s.x = 0 then { s with x := videoNumColumns, y := u32 (s.y - 1) }
      else { s with x := s.x - 1 }) := rfl

theorem conByte_right (s : Console) : conByte s RT = (fun s1 : Console => gotoxy s1 s1.x s1.y)
    (if s.x = videoNumColumns then { s with x := 0, y := u32 (s.y + 1) }
      else { s with x := u32 (s.x + 1) }) := rfl

theorem stays_up (h : Aligned s) : Stays s (conByte s UP) := by
  obtain ⟨-, -, -, hx, hy, -, -⟩ := h.bounds
  rw [conByte_up]
  by_cases h0 : s.y = 0
  · rw [if_pos h0]
    have hdown := stays_scrdown h
    exact hdown.trans (stays_goto (x := s.x) (y := 0) hdown.1 hx (by decide))
  · rw [if_neg h0]
    exact stays_goto (x := s.x) (y := s.y - 1) h hx (by omega)

theorem Aligned.y_ne (h : Aligned s) : ¬ s.y = videoNumLines := Nat.ne_of_lt h.y_lt

/-- Down goes right unless the cursor is in the last row. -/
theorem stays_down (h : Aligned s) (hlast : s.y + 1 ≠ 25) : Stays s (conByte s DN) := by
  obtain ⟨-, -, -, hx, hy, -, -⟩ := h.bounds
  have hy' : u32 (s.y + 1) = s.y + 1 := u32_eq (by omega) (by omega)
  rw [conByte_down, if_neg h.y_ne, hy']
  exact stays_goto (x := s.x) (y := s.y + 1) h hx (by omega)

theorem down_y (h : Aligned s) (hlast : s.y + 1 = 25) : (conByte s DN).y = 25 := by
  have hy' : u32 (s.y + 1) = 25 := u32_eq (by omega) (by omega)
  rw [conByte_down, if_neg h.y_ne, hy']
  exact congrArg Console.y (gotoxy_off (Nat.le_refl 25))

/-- Left goes right unless the cursor is in the first cell. -/
theorem stays_left (h : Aligned s) (hfirst : ¬(s.x = 0 ∧ s.y = 0)) : Stays s (conByte s LF) := by
  obtain ⟨-, -, -, hx, hy, -, -⟩ := h.bounds
  rw [conByte_left]
  by_cases h0 : s.x = 0
  · have hy' : u32 (s.y - 1) = s.y - 1 := u32_eq (by omega) (by omega)
    rw [if_pos h0, hy']
    exact stays_goto (x := videoNumColumns) (y := s.y - 1) h (Nat.le_refl 80) (by omega)
  · rw [if_neg h0]
    exact stays_goto (x := s.x - 1) (y := s.y) h (by omega) hy

theorem left_y (hx0 : s.x = 0) (hy0 : s.y = 0) : (conByte s LF).y = 2 ^ 32 - 1 := by
  have hy' : u32 (s.y - 1) = 2 ^ 32 - 1 := by
    rw [hy0]
    decide
  rw [conByte_left, if_pos hx0, hy']
  exact congrArg Console.y (gotoxy_off (by decide : 25 ≤ 2 ^ 32 - 1))

/-- Right goes right unless the cursor is behind the last row. -/
theorem stays_right (h : Aligned s) (hlast : ¬(s.x = 80 ∧ s.y + 1 = 25)) :
    Stays s (conByte s RT) := by
  obtain ⟨-, -, -, hx, hy, -, -⟩ := h.bounds
  rw [conByte_right, geometry.1]
  by_cases h80 : s.x = 80
  · have hy' : u32 (s.y + 1) = s.y + 1 := u32_eq (by omega) (by omega)
    rw [if_pos h80, hy']
    exact stays_goto (x := 0) (y := s.y + 1) h (Nat.zero_le _) (by omega)
  · have hx' : u32 (s.x + 1) = s.x + 1 := u32_eq (by omega) (by omega)
    rw [if_neg h80, hx']
    exact stays_goto (x := s.x + 1) (y := s.y) h (by omega) hy

theorem right_y (h80 : s.x = 80) (hlast : s.y + 1 = 25) : (conByte s RT).y = 25 := by
  have hy' : u32 (s.y + 1) = 25 := u32_eq (by omega) (by omega)
  rw [conByte_right, geometry.1, if_pos h80, hy']
  exact congrArg Console.y (gotoxy_off (Nat.le_refl 25))

/-! ### Runs -/

theorem Aligned.cursorOk (h : Aligned s) : CursorOk s := ⟨h.x_le, h.y_lt, h.pos⟩

/-- **A byte that moves the cursor inside the screen** keeps everything in place. -/
theorem stays_conByte (h : Aligned s) (hc : Inner s c) : Stays s (conByte s c) := by
  obtain ⟨hdn, hlf, hrt⟩ := hc
  by_cases hkey : c ∈ [UP, DN, LF, RT]
  · simp only [List.mem_cons, List.not_mem_nil, or_false] at hkey
    rcases hkey with rfl | rfl | rfl | rfl
    · exact stays_up h
    · exact stays_down h fun hlast => hdn ⟨rfl, hlast⟩
    · exact stays_left h fun hfirst => hlf ⟨rfl, hfirst⟩
    · exact stays_right h fun hlast => hrt ⟨rfl, hlast⟩
  · exact (does_conByte h hkey).stays

/-- **The next byte leaves the cursor right** exactly if it does not move it off the screen. -/
theorem cursorOk_conByte_iff (h : Aligned s) : CursorOk (conByte s c) ↔ Inner s c := by
  refine ⟨fun hok => ⟨?_, ?_, ?_⟩, fun hc => (stays_conByte h hc).1.cursorOk⟩
  all_goals have hy := hok.y_lt
  · rintro ⟨rfl, hlast⟩
    rw [down_y h hlast] at hy
    exact absurd hy (by decide)
  · rintro ⟨rfl, hx0, hy0⟩
    rw [left_y hx0 hy0] at hy
    exact absurd hy (by decide)
  · rintro ⟨rfl, hx80, hlast⟩
    rw [right_y hx80 hlast] at hy
    exact absurd hy (by decide)

/-- The invariant, over a memory that held `m` in the beginning. -/
structure ConInv (m : ℕ → UInt8) (s : Console) : Prop where
  aligned : Aligned s
  start_le : videoMemStart ≤ s.origin
  outside : ∀ a, ¬(videoMemStart ≤ a ∧ a < videoMemEnd) → s.mem a = m a

theorem ConInv.stays {m : ℕ → UInt8} (h : ConInv m s) (hs : Stays s s') : ConInv m s' := by
  obtain ⟨hge, hsame⟩ := hs.2 h.start_le
  exact ⟨hs.1, hge, fun a ha => (hsame a ha).trans (h.outside a ha)⟩

theorem ConInv.home {m : ℕ → UInt8} (h : ConInv m s) : ConInv m (gotoxy s 0 0) :=
  h.stays (does_gotoxy (a := s.x) (b := s.y) h.aligned (Nat.zero_le 80) (Nat.zero_lt_succ 24)).stays

/-- The console when `con_init` clears the screen. -/
def conBlank (m : ℕ → UInt8) : Console where
  mem := m
  origin := videoMemStart
  scrEnd := videoMemStart + videoSizeAll
  pos := videoMemStart
  x := 0
  y := 0
  top := 0
  bottom := videoNumLines

theorem conInit_eq (m : ℕ → UInt8) : conInit m =
    gotoxy (gotoxy (conWrite (conBlank m) (List.replicate (videoSizeAll / 2) 0x20)) 0 0) 0 0 := by
  have hend : u32 (videoMemStart + videoNumLines * videoSizeRow) =
      videoMemStart + videoSizeAll := by
    decide
  have hpos : u32 (videoMemStart + (0 : ℕ) * videoSizeRow + 2 * (0 : ℕ)) = videoMemStart := by
    decide
  rw [conInit, cls]
  simp only [hend]
  rw [gotoxy.eq_def { mem := m, .. }, if_neg (by decide), hpos]
  rfl

theorem conInv_conBlank (m : ℕ → UInt8) : ConInv m (conBlank m) where
  aligned := ⟨rfl, rfl, rfl, Nat.zero_le _, (by decide : 0 < videoNumLines), rfl,
    (by decide : videoMemStart + videoSizeAll ≤ videoMemEnd)⟩
  start_le := Nat.le_refl _
  outside _ _ := rfl

theorem conInv_conInit (m : ℕ → UInt8) : ConInv m (conInit m) := by
  have hspaces : ∀ c ∈ List.replicate (videoSizeAll / 2) (0x20 : UInt8), c ∉ [UP, DN, LF, RT] := by
    intro c hc
    rw [List.eq_of_mem_replicate hc]
    decide
  have h0 := conInv_conBlank m
  rw [conInit_eq]
  exact (h0.stays (does_conWrite h0.aligned hspaces).stays).home.home

theorem conInit_cursor (m : ℕ → UInt8) : (conInit m).x = 0 ∧ (conInit m).y = 0 := ⟨rfl, rfl⟩

end Thunix.Drivers
