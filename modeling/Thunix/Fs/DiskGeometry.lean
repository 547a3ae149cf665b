import Thunix.Fs.Floppy

/-!
# Where the blocks lie

A block is a run of sectors, and a sector a place on the disk: a track, a head and a sector.
The sector numbers of the blocks are apart as long as the number of the first sector does not
overflow, and `lba_to_chs` keeps them apart, since the number can be computed back from the
place (`Thunix.Fs.Floppy.lineOf_lbaToChs`). So the blocks do not overlap on the disk, and to
write one does not change what is read of another (`Thunix.Fs.Floppy.blocks_apart`).

Seen from the file system the disk is therefore an array of sectors: the driver does on it what
the transfers of `Thunix.Fs.Dev` do (`Thunix.Fs.Floppy.floppyLoop_linear`).
-/

namespace Thunix.Fs.Floppy

variable {fdc : Fdc} {command : Command} {sector buf n : ℕ} {s : Drive} {sbi : TfsSbInfo}
  {b b' i i' : ℕ}

/-! ### Linear sectors -/

/-- The linear sector of a place. -/
def lineOf (place : Chs) : ℕ := (place.track * 2 + place.head) * 18 + place.sector - 1

theorem lineOf_lbaToChs (line : ℕ) : lineOf (lbaToChs line) = line := by
  have h1 := Nat.div_add_mod line 18
  have h2 := Nat.div_add_mod (line / 18) 2
  change (line / 18 / 2 * 2 + line / 18 % 2) * 18 + (line % 18 + 1) - 1 = line
  omega

theorem lbaToChs_injective : Function.Injective lbaToChs :=
  Function.LeftInverse.injective lineOf_lbaToChs

theorem lbaToChs_head (line : ℕ) : (lbaToChs line).head < 2 := Nat.mod_lt _ (by decide)

theorem lbaToChs_sector (line : ℕ) :
    1 ≤ (lbaToChs line).sector ∧ (lbaToChs line).sector ≤ 18 :=
  ⟨Nat.succ_pos _, Nat.mod_lt line (by decide)⟩

theorem lbaToChs_track (line : ℕ) : (lbaToChs line).track < 80 ↔ line < 2880 := by
  change line / 18 / 2 < 80 ↔ line < 2880
  omega

/-! ### The pieces of a block -/

/-- The number of the first sector of the block fits into an `int`. -/
def InRange (sbi : TfsSbInfo) (b : ℕ) : Prop :=
  b <<< (sbi.sBlockShift - 9) + sbi.sOffset + TFS_FS_SECTOR ≤ 2 ^ 31 - 1

instance : Decidable (InRange sbi b) := inferInstanceAs (Decidable (_ ≤ _))

/-- The block has a piece of this number. The number of sectors is an `unsigned int`. -/
structure IsPiece (sbi : TfsSbInfo) (b i : ℕ) : Prop where
  range : InRange sbi b
  lt : i < 1 <<< (sbi.sBlockShift - 9)
  word : i < 2 ^ 32

/-- The sector of a piece. -/
def pieceSector (sbi : TfsSbInfo) (b i : ℕ) : ℕ := (sectorOf sbi b + i) % 2 ^ 32

theorem requested_getElem? (command : Command) (n sector buf i : ℕ) (hsector : sector < 2 ^ 32)
    (hi : i < n) : (requested command n sector buf)[i]? =
      some ⟨command, lbaToChs ((sector + i) % 2 ^ 32), buf + 512 * i⟩ := by
  induction n generalizing sector buf i with
  | zero => exact absurd hi (Nat.not_lt_zero i)
  | succ n ih =>
    cases i with
    | zero => rw [requested, List.getElem?_cons_zero, Nat.add_zero, Nat.mod_eq_of_lt hsector]; rfl
    | succ i =>
      rw [requested, List.getElem?_cons_succ,
        ih _ _ i (Nat.mod_lt _ (by decide)) (Nat.lt_of_succ_lt_succ hi)]
      have hsec : ((sector + 1) % 2 ^ 32 + i) % 2 ^ 32 = (sector + (i + 1)) % 2 ^ 32 := by omega
      have hbuf : buf + 512 + 512 * i = buf + 512 * (i + 1) := by omega
      rw [hsec, hbuf]

theorem InRange.sectorOf (h : InRange sbi b) :
    sectorOf sbi b = b * 2 ^ (sbi.sBlockShift - 9) + sbi.sOffset + TFS_FS_SECTOR := by
  rw [InRange, Nat.shiftLeft_eq] at h
  rw [Fs.sectorOf, Nat.shiftLeft_eq, Nat.mod_eq_of_lt (by omega)]

/-- Of blocks that large there is one. -/
theorem InRange.eq_zero (h : InRange sbi b) (hk : 32 ≤ sbi.sBlockShift - 9) : b = 0 := by
  rw [InRange, Nat.shiftLeft_eq] at h
  have hsize : 2 ^ 32 ≤ 2 ^ (sbi.sBlockShift - 9) := Nat.pow_le_pow_right (by decide) hk
  refine Nat.eq_zero_of_not_pos fun hpos => ?_
  have := Nat.le_mul_of_pos_left (2 ^ (sbi.sBlockShift - 9)) hpos
  omega

/-- **Pieces of blocks have their own sectors.** -/
theorem pieceSector_injective (h : IsPiece sbi b i) (h' : IsPiece sbi b' i')
    (heq : pieceSector sbi b i = pieceSector sbi b' i') : b = b' ∧ i = i' := by
  have hr := h.range
  have hr' := h'.range
  have hi := h.lt
  have hi' := h'.lt
  have hw := h.word
  have hw' := h'.word
  rw [pieceSector, pieceSector, hr.sectorOf, hr'.sectorOf] at heq
  rw [InRange, Nat.shiftLeft_eq] at hr hr'
  rw [Nat.shiftLeft_eq, Nat.one_mul] at hi hi'
  rcases Nat.lt_or_ge (sbi.sBlockShift - 9) 32 with hk | hk
  · -- the sectors of a block do not wrap round
    have hsize : 2 ^ (sbi.sBlockShift - 9) ≤ 2 ^ 31 :=
      Nat.pow_le_pow_right (by decide) (Nat.le_of_lt_succ hk)
    have hsum : b * 2 ^ (sbi.sBlockShift - 9) + i = b' * 2 ^ (sbi.sBlockShift - 9) + i' := by omega
    have hb : b = b' := by
      have hdiv := congrArg (· / 2 ^ (sbi.sBlockShift - 9)) hsum
      have hpos : 0 < 2 ^ (sbi.sBlockShift - 9) := Nat.two_pow_pos _
      rwa [Nat.mul_comm b, Nat.mul_comm b', Nat.mul_add_div hpos, Nat.mul_add_div hpos,
        Nat.div_eq_of_lt hi, Nat.div_eq_of_lt hi'] at hdiv
    subst hb
    exact ⟨rfl, Nat.add_left_cancel hsum⟩
  · obtain rfl := h.range.eq_zero hk
    obtain rfl := h'.range.eq_zero hk
    exact ⟨rfl, by omega⟩

/-! ### Blocks on the disk -/

/-- The disk in the drive. -/
def Drive.withDisk (s : Drive) (disk : Chs → ℕ → UInt8) : Drive := { s with disk }

/-- The transfer changes no sector of the disk but the one asked for. -/
theorem floppyRw_disk {place : Chs} (h : place ≠ lbaToChs sector) :
    (floppyRw fdc sector buf command s).2.disk place = s.disk place := by
  rcases floppyRw_outcome fdc sector buf command s with ⟨-, hrun⟩ |
    ⟨s', ⟨-, hidle, hrun⟩ | ⟨-, hidle, hrun⟩ | ⟨-, hdone, hrun⟩⟩
  · rw [hrun]
  · rw [hrun, hidle.disk]
  · rw [hrun, hidle.disk]
  · rw [hrun, hdone.disk]
    split
    · rfl
    · rw [Function.update_of_ne h]

/-- A read changes no sector of the disk. -/
theorem floppyRw_read_disk : (floppyRw fdc sector buf .read s).2.disk = s.disk := by
  rcases floppyRw_outcome fdc sector buf .read s with ⟨-, hrun⟩ |
    ⟨s', ⟨-, hidle, hrun⟩ | ⟨-, hidle, hrun⟩ | ⟨-, hdone, hrun⟩⟩
  · rw [hrun]
  · rw [hrun, hidle.disk]
  · rw [hrun, hidle.disk]
  · rw [hrun, hdone.disk, if_pos rfl]

/-- The places of a run of sectors. -/
def places (n sector : ℕ) : Set Chs := {place | ∃ i < n, place = lbaToChs ((sector + i) % 2 ^ 32)}

theorem mem_places_succ (hsector : sector < 2 ^ 32) {place : Chs} :
    place ∈ places (n + 1) sector ↔
      place = lbaToChs sector ∨ place ∈ places n ((sector + 1) % 2 ^ 32) := by
  have hnext : ∀ i, ((sector + 1) % 2 ^ 32 + i) % 2 ^ 32 = (sector + (i + 1)) % 2 ^ 32 := by omega
  constructor
  · rintro ⟨_ | i, hi, rfl⟩
    · rw [Nat.add_zero, Nat.mod_eq_of_lt hsector]
      exact .inl rfl
    · exact .inr ⟨i, Nat.lt_of_succ_lt_succ hi, by rw [hnext]⟩
  · rintro (rfl | ⟨i, hi, rfl⟩)
    · exact ⟨0, Nat.succ_pos n, by rw [Nat.add_zero, Nat.mod_eq_of_lt hsector]⟩
    · exact ⟨i + 1, Nat.succ_lt_succ hi, by rw [hnext]⟩

/-- A transfer changes nothing outside of its places. -/
theorem floppyLoop_disk (n sector buf : ℕ) (res : ℤ) (s : Drive) (hsector : sector < 2 ^ 32)
    {place : Chs} (h : place ∉ places n sector) :
    (floppyLoop fdc command n sector buf res s).2.disk place = s.disk place := by
  induction n generalizing sector buf res s with
  | zero => rfl
  | succ n ih =>
    rw [mem_places_succ hsector, not_or] at h
    have hstep := @floppyRw_disk fdc command sector buf s place h.1
    rw [floppyLoop]
    generalize floppyRw fdc sector buf command s = r at hstep
    obtain ⟨_ | res', s'⟩ := r
    · exact hstep
    · dsimp only
      by_cases hneg : res' < 0
      · rw [if_pos hneg]
        exact hstep
      · rw [if_neg hneg, ih _ _ _ _ (Nat.mod_lt _ (by decide)) h.2]
        exact hstep

theorem seek_withDisk (track : ℕ) (disk : Chs → ℕ → UInt8) :
    seek fdc track (s.withDisk disk) =
      ((seek fdc track s).1, (seek fdc track s).2.withDisk disk) := by
  unfold seek
  by_cases hthere : s.fdcTrack = track
  · rw [if_pos hthere]
    exact if_pos hthere
  · rw [if_neg hthere]
    exact if_neg hthere

theorem rwReached_withDisk {place : Chs} {disk : Chs → ℕ → UInt8} (h : disk place = s.disk place) :
    rwReached fdc place buf .read (s.withDisk disk) =
      ((rwReached fdc place buf .read s).1, (rwReached fdc place buf .read s).2.withDisk disk) := by
  have hread : ¬(0xff000 ≤ buf ∧ Command.read = .write) := fun h => by cases h.2
  have hfetch : ∀ s : Drive, s.fetch .read buf = s := fun s => if_neg hread
  have hdma : ((s.withDisk disk).dma .read place buf) = (s.dma .read place buf).withDisk disk := by
    have hplace : (s.withDisk disk).disk place = s.disk place := h
    rw [Drive.dma, Drive.dma, hplace]
    split <;> rfl
  have hdeliver : ∀ s : Drive,
      (s.withDisk disk).deliver .read buf = (s.deliver .read buf).withDisk disk := by
    intro s
    unfold Drive.deliver
    split <;> rfl
  rw [rwReached, rwReached, hfetch, hfetch, hdma, hdeliver]
  by_cases hbad : badStatus (fdc.status s.ticks) = true
  · rw [if_pos hbad]
    exact if_pos hbad
  · rw [if_neg hbad]
    exact if_neg hbad

/-- **A read sees of the disk the sector asked for.** -/
theorem floppyRw_withDisk {disk : Chs → ℕ → UInt8}
    (h : disk (lbaToChs sector) = s.disk (lbaToChs sector)) :
    floppyRw fdc sector buf .read (s.withDisk disk) =
      ((floppyRw fdc sector buf .read s).1, (floppyRw fdc sector buf .read s).2.withDisk disk) := by
  have hdisk : (seek fdc (lbaToChs sector).track s).2.disk = s.disk := by
    obtain ⟨track, hframe⟩ := seek_frame fdc (lbaToChs sector).track s
    rw [hframe]
  rw [floppyRw, floppyRw, seek_withDisk]
  generalize seek fdc (lbaToChs sector).track s = reached at hdisk
  obtain ⟨ok, s₁⟩ := reached
  have hplace : disk (lbaToChs sector) = s₁.disk (lbaToChs sector) := by
    rw [h]
    exact (congrFun hdisk _).symm
  dsimp only
  rw [rwReached_withDisk hplace]
  by_cases hchange : fdc.diskChange s.ticks = true
  · rw [if_pos hchange]
    exact if_pos hchange
  · rw [if_neg hchange]
    refine (if_neg hchange).trans ?_
    cases ok with
    | false => rfl
    | true => rfl

/-- A run of sectors is read alike from two disks that agree on them. -/
theorem floppyLoop_withDisk (n sector buf : ℕ) (res : ℤ) (s : Drive) (hsector : sector < 2 ^ 32)
    {disk : Chs → ℕ → UInt8} (h : ∀ place ∈ places n sector, disk place = s.disk place) :
    floppyLoop fdc .read n sector buf res (s.withDisk disk) =
      ((floppyLoop fdc .read n sector buf res s).1,
        (floppyLoop fdc .read n sector buf res s).2.withDisk disk) := by
  induction n generalizing sector buf res s with
  | zero => rfl
  | succ n ih =>
    have hdisk := @floppyRw_read_disk fdc sector buf s
    rw [floppyLoop, floppyLoop,
      floppyRw_withDisk (h _ ((mem_places_succ hsector).mpr (.inl rfl)))]
    generalize floppyRw fdc sector buf .read s = r at hdisk
    obtain ⟨_ | res', s'⟩ := r
    · rfl
    · dsimp only
      by_cases hneg : res' < 0
      · rw [if_pos hneg, if_pos hneg]
      · rw [if_neg hneg, if_neg hneg]
        refine ih _ _ _ s' (Nat.mod_lt _ (by decide)) fun place hplace => ?_
        exact (h place ((mem_places_succ hsector).mpr (.inr hplace))).trans
          (congrFun hdisk place).symm

/-- The places of two blocks are apart. -/
theorem places_apart (hb : InRange sbi b) (hb' : InRange sbi b') (hne : b ≠ b')
    {place : Chs} (h : place ∈ places (sectorsPerBlock sbi) (sectorOf sbi b)) :
    place ∉ places (sectorsPerBlock sbi) (sectorOf sbi b') := by
  obtain ⟨i, hi, rfl⟩ := h
  rintro ⟨i', hi', heq⟩
  rcases Nat.lt_or_ge (sbi.sBlockShift - 9) 32 with hk | hk
  · have hword : sectorsPerBlock sbi ≤ 2 ^ 32 := by
      rw [sectorsPerBlock, Nat.shiftLeft_eq, Nat.one_mul]
      exact Nat.pow_le_pow_right (by decide) (Nat.le_of_lt hk)
    exact hne (pieceSector_injective ⟨hb, hi, lt_of_lt_of_le hi hword⟩
      ⟨hb', hi', lt_of_lt_of_le hi' hword⟩ (lbaToChs_injective heq)).1
  · exact hne ((hb.eq_zero hk).trans (hb'.eq_zero hk).symm)

/-- The pieces of the blocks lie apart on the disk, and to write a block does not change what is
read of another. -/
structure BlocksApart (sbi : TfsSbInfo) : Prop where
  /-- The pieces have places of their own. -/
  pieces : ∀ b i b' i', IsPiece sbi b i → IsPiece sbi b' i' →
    lbaToChs (pieceSector sbi b i) = lbaToChs (pieceSector sbi b' i') → b = b' ∧ i = i'
  /-- Each of them is one of a floppy disk, if the sector is. -/
  place : ∀ b i, IsPiece sbi b i → (lbaToChs (pieceSector sbi b i)).head < 2 ∧
    1 ≤ (lbaToChs (pieceSector sbi b i)).sector ∧ (lbaToChs (pieceSector sbi b i)).sector ≤ 18 ∧
    lineOf (lbaToChs (pieceSector sbi b i)) = pieceSector sbi b i ∧
    ((lbaToChs (pieceSector sbi b i)).track < 80 ↔ pieceSector sbi b i < 2880)
  /-- These are the places that the transfers of a block go to. -/
  transfers : ∀ b i buf command, IsPiece sbi b i →
    (requested command (sectorsPerBlock sbi) (sectorOf sbi b) buf)[i]? =
      some ⟨command, lbaToChs (pieceSector sbi b i), buf + 512 * i⟩
  /-- After a block has been written, another is read as it would have been before. -/
  reads : ∀ b b', InRange sbi b → InRange sbi b' → b ≠ b' →
    ∀ (fdc fdc' : Fdc) (buf buf' : ℕ) (s t : Drive),
    tfsBread fdc' sbi b' buf' (t.withDisk (tfsBwrite fdc sbi b buf s).2.disk) =
      ((tfsBread fdc' sbi b' buf' (t.withDisk s.disk)).1,
        (tfsBread fdc' sbi b' buf' (t.withDisk s.disk)).2.withDisk
          (tfsBwrite fdc sbi b buf s).2.disk)

/-- **The blocks are apart on the disk**, whatever their size. -/
theorem blocks_apart (sbi : TfsSbInfo) (_ : 9 ≤ sbi.sBlockShift) : BlocksApart sbi where
  pieces b i b' i' h h' heq := pieceSector_injective h h' (lbaToChs_injective heq)
  place b i _ := ⟨lbaToChs_head _, (lbaToChs_sector _).1, (lbaToChs_sector _).2,
    lineOf_lbaToChs _, lbaToChs_track _⟩
  transfers b i buf command h := requested_getElem? command _ _ buf i (sectorOf_lt sbi b) h.lt
  reads b b' hb hb' hne fdc fdc' buf buf' s t := by
    refine floppyLoop_withDisk (sectorsPerBlock sbi) (sectorOf sbi b') buf' 0 (t.withDisk s.disk)
      (sectorOf_lt sbi b') fun place hplace => ?_
    exact floppyLoop_disk _ _ buf 0 s (sectorOf_lt sbi b) (places_apart hb' hb hne.symm hplace)

/-- The blocks of the small volume have places, and they are apart. -/
theorem blocks_apart_small :
    9 ≤ (smallSbi 9).sBlockShift ∧ InRange (smallSbi 9) 6 ∧ InRange (smallSbi 9) 7 ∧
      BlocksApart (smallSbi 9) :=
  ⟨by decide, by decide, by decide, blocks_apart (smallSbi 9) (by decide)⟩

/-! ### The linear disk -/

/-- The drive, seen from the file system: the disk by sectors, and the buffers from `base` on. -/
structure Linear (base : ℕ) (s : Drive) (d : Dev) : Prop where
  disk : ∀ line < 2 ^ 32, d.disk line = s.disk (lbaToChs line)
  mem : ∀ x, d.cacheData x = s.mem (base + x)

/-- The transfers of the sectors end as the environment says. -/
def Foreseen (e : Env) (tick : ℕ) (tried : List (Option Transfer)) : Prop :=
  ∀ k o, tried[k]? = some o → o = some (e.transfer (tick + k))

theorem Foreseen.cons {e : Env} {tick : ℕ} {o : Option Transfer} {tried : List (Option Transfer)}
    (h : Foreseen e tick (o :: tried)) :
    o = some (e.transfer tick) ∧ Foreseen e (tick + 1) tried := by
  refine ⟨h 0 o rfl, fun k o' ho' => ?_⟩
  rw [Nat.add_assoc, Nat.add_comm 1 k]
  exact h (k + 1) o' ho'

variable {e : Env} {base : ℕ} {d : Dev} {s' : Drive}

theorem Linear.idle (h : Linear base s d) (hidle : Idle s s') : Linear base s' d.tick := by
  refine ⟨fun line hline => ?_, fun x => ?_⟩
  · rw [hidle.disk]
    exact h.disk line hline
  · rw [hidle.mem]
    exact h.mem x

theorem Linear.read (h : Linear base s d) (hsector : sector < 2 ^ 32)
    (hdone : Done .read (lbaToChs sector) (base + buf) s s') :
    Linear base s' (d.copyIn buf 512 (d.disk sector)).tick := by
  refine ⟨fun line hline => ?_, fun x => ?_⟩
  · rw [hdone.disk, if_pos rfl]
    exact h.disk line hline
  · rw [hdone.mem, if_pos rfl, Dev.tick_cacheData, Dev.copyIn_cacheData, h.disk sector hsector]
    by_cases hin : buf ≤ x ∧ x < buf + 512
    · rw [blit_of_mem hin, blit_of_mem (by omega), Nat.add_sub_add_left]
    · rw [blit_of_not_mem hin, blit_of_not_mem (by omega)]
      exact h.mem x

theorem Linear.write (h : Linear base s d)
    (hdone : Done .write (lbaToChs sector) (base + buf) s s') :
    Linear base s' { d with disk := Function.update d.disk sector (d.buf buf) }.tick := by
  refine ⟨fun line hline => ?_, fun x => ?_⟩
  · rw [hdone.disk, if_neg (by decide)]
    change Function.update d.disk sector (d.buf buf) line = _
    rcases eq_or_ne line sector with rfl | hne
    · rw [Function.update_self, Function.update_self]
      funext i
      rw [Dev.buf, h.mem, Nat.add_assoc]
    · rw [Function.update_of_ne hne, Function.update_of_ne (lbaToChs_injective.ne hne)]
      exact h.disk line hline
  · rw [hdone.mem, if_neg (by decide)]
    exact h.mem x

/-- **The drive is a linear disk**: the loop returns what that of the linear disk does, and leaves
what that leaves, if it does so for one sector. -/
theorem floppyLoop_linear {moved : ℕ → ℕ → Dev → Dev} {loop : ℕ → ℕ → ℕ → ℤ → DevM ℤ}
    (hloop : SectorLoop e moved loop) {command : Command}
    (hmoved : ∀ {sector buf s s' d}, Linear base s d → sector < 2 ^ 32 →
      Done command (lbaToChs sector) (base + buf) s s' → Linear base s' (moved sector buf d).tick)
    (n : ℕ) (h : Linear base s d) (hsector : sector < 2 ^ 32)
    (he : Foreseen e d.ticks (attempts fdc command n sector (base + buf) s)) :
    (floppyLoop fdc command n sector (base + buf) 0 s).1 = some (loop n sector buf 0 d).1 ∧
      Linear base (floppyLoop fdc command n sector (base + buf) 0 s).2
        (loop n sector buf 0 d).2 := by
  induction n generalizing sector buf s d with
  | zero =>
    rw [hloop.zero]
    exact ⟨rfl, h⟩
  | succ n ih =>
    rw [attempts, Nat.add_assoc base] at he
    obtain ⟨hout, hrest⟩ := he.cons
    rw [floppyLoop, Nat.add_assoc base]
    have hnext : (sector + 1) % 2 ^ 32 < 2 ^ 32 := Nat.mod_lt _ (by decide)
    rcases floppyRw_outcome fdc sector (base + buf) command s with ⟨hnone, -⟩ |
      ⟨s', ⟨hseek, hidle, hrun⟩ | ⟨hio, hidle, hrun⟩ | ⟨hdone, hleft, hrun⟩⟩
    · rw [hnone] at hout
      cases hout
    · rw [hseek] at hout hrest
      rw [if_neg (by decide), hrun] at hrest
      rw [hrun, hloop.seekError (Option.some.inj hout).symm]
      exact ih (h.idle hidle) hnext hrest
    · rw [hio] at hout
      rw [hrun, hloop.ioError (Option.some.inj hout).symm]
      exact ⟨rfl, h.idle hidle⟩
    · rw [hdone] at hout hrest
      rw [if_neg (by decide), hrun, ← hloop.ticks sector buf d] at hrest
      rw [hrun, hloop.done (Option.some.inj hout).symm]
      exact ih (hmoved h hsector hleft) hnext hrest

theorem floppyReads_linear (n : ℕ) (h : Linear base s d) (hsector : sector < 2 ^ 32)
    (he : Foreseen e d.ticks (attempts fdc .read n sector (base + buf) s)) :
    (floppyReads fdc sector (base + buf) n s).1 = some (Fs.floppyReads e sector buf n d).1 ∧
      Linear base (floppyReads fdc sector (base + buf) n s).2
        (Fs.floppyReads e sector buf n d).2 :=
  floppyLoop_linear (sectorLoop_reads e) (fun h hsector hleft => h.read hsector hleft) n h hsector
    he

theorem floppyWrites_linear (n : ℕ) (h : Linear base s d) (hsector : sector < 2 ^ 32)
    (he : Foreseen e d.ticks (attempts fdc .write n sector (base + buf) s)) :
    (floppyWrites fdc sector (base + buf) n s).1 = some (Fs.floppyWrites e sector buf n d).1 ∧
      Linear base (floppyWrites fdc sector (base + buf) n s).2
        (Fs.floppyWrites e sector buf n d).2 :=
  floppyLoop_linear (sectorLoop_writes e) (fun h _ hleft => h.write hleft) n h hsector he

end Thunix.Fs.Floppy
