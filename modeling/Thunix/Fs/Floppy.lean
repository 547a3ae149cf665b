import Thunix.Fs.Transfers

/-!
# The floppy driver

`floppy_rw` moves one sector: it converts the linear sector number into track, head and sector,
moves the head, has the controller transfer 512 bytes by DMA – through a buffer of its own if
the memory lies too high – and looks at the status bytes. `floppy_reads` and `floppy_writes`
repeat this. A transfer of a sector ends in one of the ways of `Thunix.Fs.Transfer`, or not at
all, if the disk has been changed (`Thunix.Fs.Floppy.outcome`).

`floppy_rw` reports a head that does not reach its track with `FALSE`, which is 0, so that the
loops go on and may report success. A transfer reports what it has done exactly if the head
reaches every track, or the transfer ends with an error of another kind
(`Thunix.Fs.Floppy.transfer_reports_iff`).

The disk is one that stores its sectors by track, head and sector. That it is for the file
system the linear disk of `Thunix.Fs.Dev` is shown in `Thunix.Fs.DiskGeometry`.
-/

namespace Thunix.Fs.Floppy

/-! ### The source -/

/-- Track, head and sector. -/
structure Chs where
  head : ℕ
  track : ℕ
  sector : ℕ
  deriving DecidableEq

/-- `floppy.sector`. -/
def floppySector : ℕ := 18

/-- `floppy.head`. -/
def floppyHead : ℕ := 2

/-- `lba_to_chs`. The members of `floppy` are unsigned, and so are the divisions. -/
def lbaToChs (lineSector : ℕ) : Chs where
  sector := lineSector % floppySector + 1
  head := lineSector / floppySector % floppyHead
  track := lineSector / floppySector / floppyHead

/-- `FD_READ` and `FD_WRITE`. -/
inductive Command
  | read
  | write
  deriving DecidableEq

/-- What the controller answers, at each time. -/
structure Fdc where
  /-- The top bit of `FD_DIR`: the disk has been changed. -/
  diskChange : ℕ → Bool
  /-- `ST0` and the track, sensed after a seek. -/
  sensed : ℕ → UInt8 × UInt8
  /-- `ST0`, `ST1` and `ST2`, after a transfer. -/
  status : ℕ → UInt8 × UInt8 × UInt8

/-- A sector that has been transferred, with the place in memory. -/
structure Piece where
  command : Command
  place : Chs
  buf : ℕ

/-- The driver, the memory and the disk. -/
structure Drive where
  /-- `fdc_track`. -/
  fdcTrack : ℕ
  mem : ℕ → UInt8
  /-- `tmp_dma_buffer`. -/
  tmpDmaBuffer : ℕ → UInt8
  /-- The disk. -/
  disk : Chs → ℕ → UInt8
  /-- The clock. -/
  ticks : ℕ
  /-- What has been transferred, in order. -/
  moved : List Piece

/-- The clock goes on. -/
def Drive.tick (s : Drive) : Drive := { s with ticks := s.ticks + 1 }

/-- `seek`. -/
def seek (fdc : Fdc) (track : ℕ) (s : Drive) : Bool × Drive :=
  if s.fdcTrack = track then (true, s)
  else
    let (sr0, fdcTrack) := fdc.sensed s.ticks
    (decide (sr0 &&& 0xf8 = 0x20 ∧ fdcTrack.toNat = track), { s with fdcTrack := fdcTrack.toNat })

/-- The test of the status bytes in `floppy_rw`. -/
def badStatus (status : UInt8 × UInt8 × UInt8) : Bool :=
  status.1 &&& 0xf8 ≠ 0 || status.2.1 &&& 0xbf ≠ 0 || status.2.2 &&& 0x73 ≠ 0

/-- Before a write, `floppy_rw` copies what lies too high for DMA to `tmp_dma_buffer`. -/
def Drive.fetch (command : Command) (buf : ℕ) (s : Drive) : Drive :=
  if 0xff000 ≤ buf ∧ command = .write then { s with tmpDmaBuffer := fun i => s.mem (buf + i) }
  else s

/-- The controller transfers a sector between the disk and the memory that DMA is set up for. -/
def Drive.dma (command : Command) (place : Chs) (buf : ℕ) (s : Drive) : Drive :=
  match command with
  | .read =>
    if 0xff000 ≤ buf then { s with tmpDmaBuffer := s.disk place }
    else { s with mem := blit s.mem buf 512 (s.disk place) }
  | .write =>
    if 0xff000 ≤ buf then { s with disk := Function.update s.disk place s.tmpDmaBuffer }
    else { s with disk := Function.update s.disk place fun i => s.mem (buf + i) }

/-- After a read, it copies from `tmp_dma_buffer` what was read there. -/
def Drive.deliver (command : Command) (buf : ℕ) (s : Drive) : Drive :=
  if 0xff000 ≤ buf ∧ command = .read then { s with mem := blit s.mem buf 512 s.tmpDmaBuffer }
  else s

/-- A piece is recorded. -/
def Drive.record (piece : Piece) (s : Drive) : Drive := { s with moved := s.moved ++ [piece] }

/-- `floppy_rw` from where the head has reached the track. -/
def rwReached (fdc : Fdc) (place : Chs) (buf : ℕ) (command : Command) (s : Drive) : ℤ × Drive :=
  let s := s.fetch command buf
  if badStatus (fdc.status s.ticks) then (- EIO, s.tick)
  else (0, (((s.dma command place buf).deliver command buf).record ⟨command, place, buf⟩).tick)

/-- `floppy_rw`, with no result if it waits forever. -/
def floppyRw (fdc : Fdc) (sector buf : ℕ) (command : Command) (s : Drive) : Option ℤ × Drive :=
  let place := lbaToChs sector
  if fdc.diskChange s.ticks then (none, s)
  else
    let reached := seek fdc place.track s
    -- `FALSE`
    if !reached.1 then (some 0, reached.2.tick)
    else
      let res := rwReached fdc place buf command reached.2
      (some res.1, res.2)

/-- The loop of `floppy_reads` and of `floppy_writes`, with the last result. -/
def floppyLoop (fdc : Fdc) (command : Command) :
    ℕ → ℕ → ℕ → ℤ → Drive → Option ℤ × Drive
  | 0, _, _, res, s => (some res, s)
  | sectors + 1, sector, buf, _, s =>
    match floppyRw fdc sector buf command s with
    | (none, s) => (none, s)
    | (some res, s) =>
      if res < 0 then (some res, s)
      else floppyLoop fdc command sectors ((sector + 1) % 2 ^ 32) (buf + 512) res s

/-- `floppy_reads`. -/
def floppyReads (fdc : Fdc) (sector buf sectors : ℕ) : Drive → Option ℤ × Drive :=
  floppyLoop fdc .read sectors sector buf 0

/-- `floppy_writes`. -/
def floppyWrites (fdc : Fdc) (sector buf sectors : ℕ) : Drive → Option ℤ × Drive :=
  floppyLoop fdc .write sectors sector buf 0

/-- `tfs_bread`. -/
def tfsBread (fdc : Fdc) (sbi : TfsSbInfo) (block buf : ℕ) : Drive → Option ℤ × Drive :=
  floppyReads fdc (sectorOf sbi block) buf (sectorsPerBlock sbi)

/-- `tfs_bwrite`. -/
def tfsBwrite (fdc : Fdc) (sbi : TfsSbInfo) (block buf : ℕ) : Drive → Option ℤ × Drive :=
  floppyWrites fdc (sectorOf sbi block) buf (sectorsPerBlock sbi)

/-! ### The transfer of one sector -/

variable {fdc : Fdc} {command : Command} {sector buf n : ℕ} {s : Drive}

/-- How the transfer of a sector ends, if it does. -/
def outcome (fdc : Fdc) (sector : ℕ) (s : Drive) : Option Transfer :=
  if fdc.diskChange s.ticks then none
  else if (seek fdc (lbaToChs sector).track s).1 = false then some .seekError
  else if badStatus (fdc.status s.ticks) then some .ioError
  else some .done

/-- The state after a transfer that has moved nothing. -/
structure Idle (s s' : Drive) : Prop where
  ticks : s'.ticks = s.ticks + 1
  mem : s'.mem = s.mem
  disk : s'.disk = s.disk
  moved : s'.moved = s.moved

/-- The state after a transfer. Whether the data goes through `tmp_dma_buffer` does not
matter. -/
structure Done (command : Command) (place : Chs) (buf : ℕ) (s s' : Drive) : Prop where
  ticks : s'.ticks = s.ticks + 1
  mem : s'.mem = if command = .read then blit s.mem buf 512 (s.disk place) else s.mem
  disk : s'.disk = if command = .read then s.disk
    else Function.update s.disk place fun i => s.mem (buf + i)
  moved : s'.moved = s.moved ++ [⟨command, place, buf⟩]

theorem seek_frame (fdc : Fdc) (track : ℕ) (s : Drive) :
    ∃ fdcTrack, (seek fdc track s).2 = { s with fdcTrack } := by
  unfold seek
  split
  · exact ⟨s.fdcTrack, rfl⟩
  · exact ⟨_, rfl⟩

theorem fetch_ticks (command : Command) (buf : ℕ) (s : Drive) :
    (s.fetch command buf).ticks = s.ticks := by
  unfold Drive.fetch
  split <;> rfl

theorem idle_fetch (command : Command) (buf : ℕ) (s : Drive) :
    Idle s (s.fetch command buf).tick := by
  unfold Drive.fetch
  split
  · exact ⟨rfl, rfl, rfl, rfl⟩
  · exact ⟨rfl, rfl, rfl, rfl⟩

theorem done_transfer (command : Command) (place : Chs) (buf : ℕ) (s : Drive) :
    Done command place buf s ((((((s.fetch command buf).dma command place buf).deliver command
      buf)).record ⟨command, place, buf⟩).tick) := by
  have hread : ¬(0xff000 ≤ buf ∧ Command.read = .write) := fun h => by cases h.2
  have hwrite : ¬(0xff000 ≤ buf ∧ Command.write = .read) := fun h => by cases h.2
  by_cases hbuf : 0xff000 ≤ buf
  · cases command with
    | read =>
      rw [Drive.fetch, if_neg hread, Drive.dma, if_pos hbuf, Drive.deliver, if_pos ⟨hbuf, rfl⟩]
      exact ⟨rfl, rfl, rfl, rfl⟩
    | write =>
      rw [Drive.fetch, if_pos ⟨hbuf, rfl⟩, Drive.dma, if_pos hbuf, Drive.deliver, if_neg hwrite]
      exact ⟨rfl, rfl, rfl, rfl⟩
  · cases command with
    | read =>
      rw [Drive.fetch, if_neg hread, Drive.dma, if_neg hbuf, Drive.deliver,
        if_neg fun h => hbuf h.1]
      exact ⟨rfl, rfl, rfl, rfl⟩
    | write =>
      rw [Drive.fetch, if_neg fun h => hbuf h.1, Drive.dma, if_neg hbuf, Drive.deliver,
        if_neg hwrite]
      exact ⟨rfl, rfl, rfl, rfl⟩

/-- What the outcome says of the tests of `floppy_rw`. -/
theorem outcome_cases (fdc : Fdc) (sector : ℕ) (s : Drive) :
    (outcome fdc sector s = none ∧ fdc.diskChange s.ticks = true) ∨
    (¬fdc.diskChange s.ticks = true ∧
      ((outcome fdc sector s = some .seekError ∧ (seek fdc (lbaToChs sector).track s).1 = false) ∨
        ((seek fdc (lbaToChs sector).track s).1 = true ∧
          ((outcome fdc sector s = some .ioError ∧ badStatus (fdc.status s.ticks) = true) ∨
            (outcome fdc sector s = some .done ∧ ¬badStatus (fdc.status s.ticks) = true))))) := by
  unfold outcome
  by_cases hchange : fdc.diskChange s.ticks = true
  · exact .inl ⟨if_pos hchange, hchange⟩
  · refine .inr ⟨hchange, ?_⟩
    rw [if_neg hchange]
    cases (seek fdc (lbaToChs sector).track s).1 with
    | false => exact .inl ⟨rfl, rfl⟩
    | true =>
      rw [if_neg (by decide)]
      by_cases hbad : badStatus (fdc.status s.ticks) = true
      · exact .inr ⟨rfl, .inl ⟨if_pos hbad, hbad⟩⟩
      · exact .inr ⟨rfl, .inr ⟨if_neg hbad, hbad⟩⟩

/-- **The transfer of one sector**, by its outcome. -/
theorem floppyRw_outcome (fdc : Fdc) (sector buf : ℕ) (command : Command) (s : Drive) :
    (outcome fdc sector s = none ∧ floppyRw fdc sector buf command s = (none, s)) ∨
    ∃ s', (outcome fdc sector s = some .seekError ∧ Idle s s' ∧
          floppyRw fdc sector buf command s = (some 0, s')) ∨
        (outcome fdc sector s = some .ioError ∧ Idle s s' ∧
          floppyRw fdc sector buf command s = (some (- EIO), s')) ∨
        (outcome fdc sector s = some .done ∧ Done command (lbaToChs sector) buf s s' ∧
          floppyRw fdc sector buf command s = (some 0, s')) := by
  obtain ⟨track, hframe⟩ := seek_frame fdc (lbaToChs sector).track s
  rw [floppyRw]
  dsimp only
  rcases outcome_cases fdc sector s with ⟨hout, hchange⟩ | ⟨hchange, hout⟩
  · rw [if_pos hchange]
    exact .inl ⟨hout, rfl⟩
  · rw [if_neg hchange]
    rcases hout with ⟨hout, hseek⟩ | ⟨hseek, hout⟩
    · rw [hseek, if_pos (by decide), hframe]
      exact .inr ⟨Drive.tick { s with fdcTrack := track }, .inl ⟨hout, ⟨rfl, rfl, rfl, rfl⟩, rfl⟩⟩
    · rw [hseek, if_neg (by decide), hframe, rwReached, fetch_ticks]
      dsimp only
      rcases hout with ⟨hout, hbad⟩ | ⟨hout, hbad⟩
      · rw [if_pos hbad]
        obtain ⟨hticks, hmem, hdisk, hmoved⟩ := idle_fetch command buf { s with fdcTrack := track }
        exact .inr ⟨_, .inr (.inl ⟨hout, ⟨hticks, hmem, hdisk, hmoved⟩, rfl⟩)⟩
      · rw [if_neg hbad]
        obtain ⟨hticks, hmem, hdisk, hmoved⟩ :=
          done_transfer command (lbaToChs sector) buf { s with fdcTrack := track }
        exact .inr ⟨_, .inr (.inr ⟨hout, ⟨hticks, hmem, hdisk, hmoved⟩, rfl⟩)⟩

/-! ### The transfer of several sectors -/

/-- How the transfers of the sectors end that are tried. -/
def attempts (fdc : Fdc) (command : Command) : ℕ → ℕ → ℕ → Drive → List (Option Transfer)
  | 0, _, _, _ => []
  | sectors + 1, sector, buf, s =>
    outcome fdc sector s ::
      if outcome fdc sector s = none ∨ outcome fdc sector s = some .ioError then []
      else attempts fdc command sectors ((sector + 1) % 2 ^ 32) (buf + 512)
        (floppyRw fdc sector buf command s).2

/-- The sectors asked for, with their pieces of the buffer. -/
def requested (command : Command) : ℕ → ℕ → ℕ → List Piece
  | 0, _, _ => []
  | sectors + 1, sector, buf =>
    ⟨command, lbaToChs sector, buf⟩ ::
      requested command sectors ((sector + 1) % 2 ^ 32) (buf + 512)

theorem length_requested (command : Command) (n sector buf : ℕ) :
    (requested command n sector buf).length = n := by
  induction n generalizing sector buf with
  | zero => rfl
  | succ n ih => rw [requested, List.length_cons, ih]

/-- What a transfer has moved, and what it returns, by the outcomes of its attempts. -/
structure Ran (command : Command) (n sector buf : ℕ) (tried : List (Option Transfer)) (s : Drive)
    (r : Option ℤ × Drive) : Prop where
  stuck : r.1 = none ↔ none ∈ tried
  result : ∀ res, r.1 = some res → res = if some .ioError ∈ tried then - EIO else 0
  moved : ∃ pieces, r.2.moved = s.moved ++ pieces ∧
    (pieces = requested command n sector buf ∨ pieces.length < n) ∧
    (none ∉ tried → (pieces = requested command n sector buf ↔
      some .ioError ∉ tried ∧ some .seekError ∉ tried))

variable {tried : List (Option Transfer)} {r : Option ℤ × Drive} {s' : Drive}

/-- A sector that the head has not reached is skipped. -/
theorem Ran.skip (h : Ran command n ((sector + 1) % 2 ^ 32) (buf + 512) tried s' r)
    (hidle : Idle s s') : Ran command (n + 1) sector buf (some .seekError :: tried) s r := by
  obtain ⟨pieces, hmoved, hlen, -⟩ := h.moved
  have hlt : pieces.length < n + 1 := by
    rcases hlen with rfl | hlt
    · rw [length_requested]
      exact Nat.lt_succ_self n
    · omega
  refine ⟨by simpa using h.stuck, fun res hres => ?_, pieces, ?_, .inr hlt, fun _ => ?_⟩
  · simpa using h.result res hres
  · rw [hmoved, hidle.moved]
  · refine iff_of_false (fun heq => ?_) fun h => h.2 List.mem_cons_self
    rw [heq, length_requested] at hlt
    exact Nat.lt_irrefl _ hlt

/-- A sector that is transferred. -/
theorem Ran.next (h : Ran command n ((sector + 1) % 2 ^ 32) (buf + 512) tried s' r)
    (hdone : Done command (lbaToChs sector) buf s s') :
    Ran command (n + 1) sector buf (some .done :: tried) s r := by
  obtain ⟨pieces, hmoved, hlen, hall⟩ := h.moved
  refine ⟨by simpa using h.stuck, fun res hres => ?_, ⟨command, lbaToChs sector, buf⟩ :: pieces, ?_,
    ?_, fun hnone => ?_⟩
  · simpa using h.result res hres
  · rw [hmoved, hdone.moved, List.append_assoc]
    rfl
  · rw [requested, List.length_cons]
    exact hlen.imp (congrArg _) Nat.succ_lt_succ
  · rw [requested, List.cons_inj_right, hall fun hmem => hnone (List.mem_cons_of_mem _ hmem)]
    simp

/-- A transfer that stops at once. -/
theorem Ran.stop {o : Option Transfer} (ho : o = none ∨ o = some .ioError)
    (hres : r.1 = o.map fun _ => - EIO) (hmoved : r.2.moved = s.moved) :
    Ran command (n + 1) sector buf [o] s r := by
  refine ⟨?_, fun res h => ?_, [], by rw [hmoved, List.append_nil], .inr (Nat.succ_pos n), ?_⟩
  · rw [hres, Option.map_eq_none_iff, List.mem_singleton, eq_comm]
  · rcases ho with rfl | rfl
    · rw [hres] at h
      cases h
    · rw [if_pos (List.mem_singleton_self _)]
      rw [hres] at h
      exact (Option.some.inj h).symm
  · rintro hnone
    refine iff_of_false (fun h => List.cons_ne_nil _ _ h.symm) fun h => ?_
    rcases ho with rfl | rfl
    · exact hnone (List.mem_singleton_self _)
    · exact h.1 (List.mem_singleton_self _)

theorem floppyLoop_run (fdc : Fdc) (command : Command) (n sector buf : ℕ) (s : Drive) :
    Ran command n sector buf (attempts fdc command n sector buf s) s
      (floppyLoop fdc command n sector buf 0 s) := by
  induction n generalizing sector buf s with
  | zero =>
    refine ⟨iff_of_false (Option.some_ne_none 0) List.not_mem_nil, fun res h => ?_,
      [], (List.append_nil _).symm, .inl rfl, fun _ => ?_⟩
    · exact (Option.some.inj h).symm.trans (if_neg List.not_mem_nil).symm
    · exact iff_of_true rfl ⟨List.not_mem_nil, List.not_mem_nil⟩
  | succ n ih =>
    rw [attempts, floppyLoop]
    rcases floppyRw_outcome fdc sector buf command s with ⟨hout, hrun⟩ |
      ⟨s', ⟨hout, hidle, hrun⟩ | ⟨hout, hidle, hrun⟩ | ⟨hout, hdone, hrun⟩⟩
    · rw [hout, hrun, if_pos (.inl rfl)]
      exact .stop (.inl rfl) rfl rfl
    · rw [hout, hrun, if_neg (by decide)]
      exact (ih _ _ s').skip hidle
    · rw [hout, hrun, if_pos (.inr rfl)]
      exact .stop (.inr rfl) rfl hidle.moved
    · rw [hout, hrun, if_neg (by decide)]
      exact (ih _ _ s').next hdone

/-! ### What a transfer reports -/

/-- A transfer, as the driver and the file system ask for it. -/
inductive DiskCall
  | floppyReads (sector buf sectors : ℕ)
  | floppyWrites (sector buf sectors : ℕ)
  | tfsBread (sbi : TfsSbInfo) (block buf : ℕ)
  | tfsBwrite (sbi : TfsSbInfo) (block buf : ℕ)

/-- The call is made. -/
def DiskCall.run (fdc : Fdc) : DiskCall → Drive → Option ℤ × Drive
  | .floppyReads sector buf sectors => Floppy.floppyReads fdc sector buf sectors
  | .floppyWrites sector buf sectors => Floppy.floppyWrites fdc sector buf sectors
  | .tfsBread sbi block buf => Floppy.tfsBread fdc sbi block buf
  | .tfsBwrite sbi block buf => Floppy.tfsBwrite fdc sbi block buf

/-- The sectors that are asked for. -/
def DiskCall.requested : DiskCall → List Piece
  | .floppyReads sector buf sectors => Floppy.requested .read sectors sector buf
  | .floppyWrites sector buf sectors => Floppy.requested .write sectors sector buf
  | .tfsBread sbi block buf =>
    Floppy.requested .read (sectorsPerBlock sbi) (sectorOf sbi block) buf
  | .tfsBwrite sbi block buf =>
    Floppy.requested .write (sectorsPerBlock sbi) (sectorOf sbi block) buf

/-- How the transfers end that are tried. -/
def DiskCall.attempts (fdc : Fdc) : DiskCall → Drive → List (Option Transfer)
  | .floppyReads sector buf sectors => Floppy.attempts fdc .read sectors sector buf
  | .floppyWrites sector buf sectors => Floppy.attempts fdc .write sectors sector buf
  | .tfsBread sbi block buf =>
    Floppy.attempts fdc .read (sectorsPerBlock sbi) (sectorOf sbi block) buf
  | .tfsBwrite sbi block buf =>
    Floppy.attempts fdc .write (sectorsPerBlock sbi) (sectorOf sbi block) buf

/-- If the call returns, it returns 0 with everything transferred in order, or a negative number
without. -/
def DiskCall.Reports (fdc : Fdc) (call : DiskCall) (s : Drive) : Prop :=
  ∀ res, (call.run fdc s).1 = some res →
    (res = 0 ∧ (call.run fdc s).2.moved = s.moved ++ call.requested) ∨
    (res < 0 ∧ (call.run fdc s).2.moved ≠ s.moved ++ call.requested)

theorem Ran.reports_iff (h : Ran command n sector buf tried s r) :
    (∀ res, r.1 = some res →
      (res = 0 ∧ r.2.moved = s.moved ++ Floppy.requested command n sector buf) ∨
      (res < 0 ∧ r.2.moved ≠ s.moved ++ Floppy.requested command n sector buf)) ↔
    some .seekError ∉ tried ∨ some .ioError ∈ tried ∨ none ∈ tried := by
  obtain ⟨pieces, hmoved, -, hall⟩ := h.moved
  by_cases hnone : none ∈ tried
  · refine iff_of_true (fun res hres => ?_) (.inr (.inr hnone))
    rw [h.stuck.mpr hnone] at hres
    cases hres
  · obtain ⟨res, hres⟩ := Option.ne_none_iff_exists'.mp (mt h.stuck.mp hnone)
    have hval := h.result res hres
    simp only [ne_eq, hmoved, List.append_cancel_left_eq, hall hnone, hres, or_iff_left hnone]
    by_cases hio : some .ioError ∈ tried
    · rw [if_pos hio] at hval
      refine iff_of_true (fun res' h' => .inr ⟨?_, fun h => h.1 hio⟩) (.inr hio)
      rw [← Option.some.inj h', hval]
      decide
    · rw [if_neg hio] at hval
      rw [or_iff_left hio, and_iff_right hio]
      refine ⟨fun h => ?_, fun hseek res' h' => .inl ⟨?_, hseek⟩⟩
      · rcases h res rfl with ⟨-, hseek⟩ | ⟨hneg, -⟩
        · exact hseek
        · rw [hval] at hneg
          exact absurd hneg (Int.lt_irrefl 0)
      · rw [← Option.some.inj h', hval]

/-- **When a transfer reports what it has done**, for every number of sectors and every course
of the attempts: the head reaches the track in all of them, or one fails in another way. -/
theorem transfer_reports_iff (fdc : Fdc) (call : DiskCall) (s : Drive) :
    call.Reports fdc s ↔ some .seekError ∉ call.attempts fdc s ∨
      some .ioError ∈ call.attempts fdc s ∨ none ∈ call.attempts fdc s := by
  cases call with
  | floppyReads sector buf sectors =>
    exact (floppyLoop_run fdc .read sectors sector buf s).reports_iff
  | floppyWrites sector buf sectors =>
    exact (floppyLoop_run fdc .write sectors sector buf s).reports_iff
  | tfsBread sbi block buf => exact (floppyLoop_run fdc .read _ _ buf s).reports_iff
  | tfsBwrite sbi block buf => exact (floppyLoop_run fdc .write _ _ buf s).reports_iff

/-- A controller that never reports the end of a seek. -/
def deafFdc : Fdc where
  diskChange _ := false
  sensed _ := (0, 0)
  status _ := (0, 0, 0)

/-- The driver before the first transfer. -/
def Drive.start : Drive where
  fdcTrack := 255
  mem _ := 0
  tmpDmaBuffer _ := 0
  disk _ _ := 0
  ticks := 0
  moved := []

/-- The read of one sector returns 0 with nothing transferred. -/
theorem not_transfer_reports :
    (floppyReads deafFdc 0 0x800000 1 .start).1 = some 0 ∧
    (floppyReads deafFdc 0 0x800000 1 .start).2.moved = [] ∧
    ¬(DiskCall.floppyReads 0 0x800000 1).Reports deafFdc .start := by
  refine ⟨by decide, rfl, fun h => ?_⟩
  rcases h 0 (by decide) with ⟨-, hmoved⟩ | ⟨hneg, -⟩
  · exact List.cons_ne_nil _ _ hmoved.symm
  · exact absurd hneg (by decide)

end Thunix.Fs.Floppy
