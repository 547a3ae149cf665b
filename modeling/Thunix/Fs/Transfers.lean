import Thunix.Fs.Device
import Mathlib.Tactic.Ring

/-!
# What a block transfer does

A read changes the buffer it is given and nothing else but the clock, and a write the
disk. A transfer reports an error exactly if some sector met an error of the
controller; and when all its sectors are moved, the buffer afterwards holds the
content of the block, or the block that of the buffer
(`Thunix.Fs.tfsBread_done`, `Thunix.Fs.tfsBwrite_done`).
-/

namespace Thunix.Fs

variable {e : Env} {sbi : TfsSbInfo} {d : Dev} {n sector buf : ℕ} {res : ℤ}

/-! ### Memory -/

theorem blit_of_mem {m src : ℕ → UInt8} {a count x : ℕ} (h : a ≤ x ∧ x < a + count) :
    blit m a count src x = src (x - a) := if_pos h

theorem blit_of_not_mem {m src : ℕ → UInt8} {a count x : ℕ} (h : ¬(a ≤ x ∧ x < a + count)) :
    blit m a count src x = m x := if_neg h

theorem Dev.tick_cacheData (d : Dev) : d.tick.cacheData = d.cacheData := rfl

theorem Dev.copyIn_cacheData (d : Dev) (a count : ℕ) (src : ℕ → UInt8) :
    (d.copyIn a count src).cacheData = blit d.cacheData a count src := rfl

/-- The bytes of a run of sectors. -/
def sectorBytes (disk : ℕ → ℕ → UInt8) (sector : ℕ) : ℕ → UInt8 :=
  fun i => disk ((sector + i / 512) % 2 ^ 32) (i % 512)

/-- The content of a block on the disk. -/
def diskBlock (sbi : TfsSbInfo) (disk : ℕ → ℕ → UInt8) (block : ℕ) : ℕ → UInt8 :=
  sectorBytes disk (sectorOf sbi block)

/-! ### Loops over sectors -/

/-- A loop over sectors, of which each that is moved leaves what `moved` says. -/
structure SectorLoop (e : Env) (moved : ℕ → ℕ → Dev → Dev) (loop : ℕ → ℕ → ℕ → ℤ → DevM ℤ) :
    Prop where
  ticks : ∀ sector buf d, (moved sector buf d).ticks = d.ticks
  zero : ∀ sector buf res d, loop 0 sector buf res d = (res, d)
  done : ∀ {n sector buf res d}, e.transfer d.ticks = .done → loop (n + 1) sector buf res d =
    loop n ((sector + 1) % 2 ^ 32) (buf + 512) 0 (moved sector buf d).tick
  seekError : ∀ {n sector buf res d}, e.transfer d.ticks = .seekError →
    loop (n + 1) sector buf res d = loop n ((sector + 1) % 2 ^ 32) (buf + 512) 0 d.tick
  ioError : ∀ {n sector buf res d}, e.transfer d.ticks = .ioError →
    loop (n + 1) sector buf res d = (- EIO, d.tick)

/-- Without an error of the controller it reports success. -/
theorem SectorLoop.ok {moved : ℕ → ℕ → Dev → Dev} {loop : ℕ → ℕ → ℕ → ℤ → DevM ℤ}
    (hloop : SectorLoop e moved loop) (h : ∀ t, e.transfer t ≠ .ioError) (n sector buf : ℕ)
    (d : Dev) : (loop n sector buf 0 d).1 = 0 := by
  induction n generalizing sector buf d with
  | zero => rw [hloop.zero]
  | succ n ih =>
    cases ht : e.transfer d.ticks with
    | done =>
      rw [hloop.done ht]
      exact ih _ _ _
    | seekError =>
      rw [hloop.seekError ht]
      exact ih _ _ _
    | ioError => exact absurd ht (h _)

/-! ### Reading -/

/-- A transfer of `n` sectors that starts at this time meets no error. -/
def AllDone (e : Env) (tick n : ℕ) : Prop := ∀ k < n, e.transfer (tick + k) = .done

instance : Decidable (AllDone e n sector) := inferInstanceAs (Decidable (∀ _ < _, _))

theorem AllDone.head (h : AllDone e sector (n + 1)) : e.transfer sector = .done :=
  h 0 (Nat.succ_pos n)

theorem AllDone.tail (h : AllDone e sector (n + 1)) : AllDone e (sector + 1) n := fun k hk => by
  rw [Nat.add_assoc, Nat.add_comm 1 k]
  exact h (k + 1) (Nat.succ_lt_succ hk)

theorem floppyReadsLoop_succ_done (h : e.transfer d.ticks = .done) :
    floppyReadsLoop e (n + 1) sector buf res d = floppyReadsLoop e n ((sector + 1) % 2 ^ 32)
      (buf + 512) 0 (d.copyIn buf 512 (d.disk sector)).tick := by
  rw [floppyReadsLoop, DevM.bind_apply, floppyRead, h]
  rfl

theorem floppyReadsLoop_succ_seekError (h : e.transfer d.ticks = .seekError) :
    floppyReadsLoop e (n + 1) sector buf res d =
      floppyReadsLoop e n ((sector + 1) % 2 ^ 32) (buf + 512) 0 d.tick := by
  rw [floppyReadsLoop, DevM.bind_apply, floppyRead, h]
  rfl

theorem floppyReadsLoop_succ_ioError (h : e.transfer d.ticks = .ioError) :
    floppyReadsLoop e (n + 1) sector buf res d = (- EIO, d.tick) := by
  rw [floppyReadsLoop, DevM.bind_apply, floppyRead, h]
  rfl

theorem sectorLoop_reads (e : Env) :
    SectorLoop e (fun sector buf d => d.copyIn buf 512 (d.disk sector)) (floppyReadsLoop e) :=
  ⟨fun _ _ _ => rfl, fun _ _ _ _ => rfl, floppyReadsLoop_succ_done,
    floppyReadsLoop_succ_seekError, floppyReadsLoop_succ_ioError⟩

/-- **The frame of a read**: only the bytes of the buffer change. -/
theorem floppyReadsLoop_frame (e : Env) (n sector buf : ℕ) (res : ℤ) (d : Dev) :
    ∃ m t, (floppyReadsLoop e n sector buf res d).2 = { d with cacheData := m, ticks := t } ∧
      ∀ x, ¬(buf ≤ x ∧ x < buf + 512 * n) → m x = d.cacheData x := by
  induction n generalizing sector buf res d with
  | zero => exact ⟨d.cacheData, d.ticks, rfl, fun _ _ => rfl⟩
  | succ n ih =>
    cases ht : e.transfer d.ticks with
    | done =>
      rw [floppyReadsLoop_succ_done ht]
      obtain ⟨m, t, h, hm⟩ := ih ((sector + 1) % 2 ^ 32) (buf + 512) 0
        (d.copyIn buf 512 (d.disk sector)).tick
      refine ⟨m, t, h, fun x hx => ?_⟩
      have hx1 : ¬(buf ≤ x ∧ x < buf + 512) := fun h => hx ⟨h.1, by omega⟩
      rw [hm x (by omega), Dev.tick_cacheData, Dev.copyIn_cacheData, blit_of_not_mem hx1]
    | seekError =>
      rw [floppyReadsLoop_succ_seekError ht]
      obtain ⟨m, t, h, hm⟩ := ih ((sector + 1) % 2 ^ 32) (buf + 512) 0 d.tick
      exact ⟨m, t, h, fun x hx => hm x (by omega)⟩
    | ioError =>
      rw [floppyReadsLoop_succ_ioError ht]
      exact ⟨d.cacheData, d.ticks + 1, rfl, fun _ _ => rfl⟩

/-- Without an error of the controller a read reports success. -/
theorem floppyReadsLoop_ok (h : ∀ t, e.transfer t ≠ .ioError) (n sector buf : ℕ) (d : Dev) :
    (floppyReadsLoop e n sector buf 0 d).1 = 0 := (sectorLoop_reads e).ok h n sector buf d

/-- **A read all of whose sectors are moved.** -/
theorem floppyReadsLoop_done (h : AllDone e d.ticks n) :
    ∃ m, floppyReadsLoop e n sector buf 0 d =
        (0, { d with cacheData := m, ticks := d.ticks + n }) ∧
      (∀ x, ¬(buf ≤ x ∧ x < buf + 512 * n) → m x = d.cacheData x) ∧
      (sector < 2 ^ 32 → ∀ i < 512 * n, m (buf + i) = sectorBytes d.disk sector i) := by
  induction n generalizing sector buf d with
  | zero => exact ⟨d.cacheData, rfl, fun _ _ => rfl, fun _ i hi => absurd hi (by omega)⟩
  | succ n ih =>
    rw [floppyReadsLoop_succ_done h.head]
    obtain ⟨m, hrun, hout, hin⟩ := @ih (d.copyIn buf 512 (d.disk sector)).tick
      ((sector + 1) % 2 ^ 32) (buf + 512) h.tail
    refine ⟨m, ?_, fun x hx => ?_, fun hsec i hi => ?_⟩
    · rw [hrun]
      simp only [Dev.tick, Dev.copyIn, Nat.add_assoc, Nat.add_comm 1]
    · have hx1 : ¬(buf ≤ x ∧ x < buf + 512) := fun h => hx ⟨h.1, by omega⟩
      rw [hout x (by omega), Dev.tick_cacheData, Dev.copyIn_cacheData, blit_of_not_mem hx1]
    · by_cases hi1 : i < 512
      · rw [hout _ (by omega), Dev.tick_cacheData, Dev.copyIn_cacheData, blit_of_mem (by omega),
          sectorBytes,
          Nat.add_sub_cancel_left, Nat.div_eq_of_lt hi1, Nat.mod_eq_of_lt hi1, Nat.add_zero,
          Nat.mod_eq_of_lt hsec]
      · have hi2 := hin (Nat.mod_lt _ (by decide)) (i - 512) (by omega)
        rw [show buf + 512 + (i - 512) = buf + i by omega] at hi2
        rw [hi2, sectorBytes, sectorBytes, show i / 512 = (i - 512) / 512 + 1 by omega,
          show (i - 512) % 512 = i % 512 by omega,
          show ((sector + 1) % 2 ^ 32 + (i - 512) / 512) % 2 ^ 32 =
            (sector + ((i - 512) / 512 + 1)) % 2 ^ 32 by omega]
        rfl

/-! ### Writing -/

theorem floppyWritesLoop_succ_done (h : e.transfer d.ticks = .done) :
    floppyWritesLoop e (n + 1) sector buf res d =
      floppyWritesLoop e n ((sector + 1) % 2 ^ 32) (buf + 512) 0
        { d with disk := Function.update d.disk sector (d.buf buf) }.tick := by
  rw [floppyWritesLoop, DevM.bind_apply, floppyWrite, h]
  rfl

theorem floppyWritesLoop_succ_seekError (h : e.transfer d.ticks = .seekError) :
    floppyWritesLoop e (n + 1) sector buf res d =
      floppyWritesLoop e n ((sector + 1) % 2 ^ 32) (buf + 512) 0 d.tick := by
  rw [floppyWritesLoop, DevM.bind_apply, floppyWrite, h]
  rfl

theorem floppyWritesLoop_succ_ioError (h : e.transfer d.ticks = .ioError) :
    floppyWritesLoop e (n + 1) sector buf res d = (- EIO, d.tick) := by
  rw [floppyWritesLoop, DevM.bind_apply, floppyWrite, h]
  rfl

theorem sectorLoop_writes (e : Env) : SectorLoop e
    (fun sector buf d => { d with disk := Function.update d.disk sector (d.buf buf) })
    (floppyWritesLoop e) :=
  ⟨fun _ _ _ => rfl, fun _ _ _ _ => rfl, floppyWritesLoop_succ_done,
    floppyWritesLoop_succ_seekError, floppyWritesLoop_succ_ioError⟩

/-- **The frame of a write**: only the disk changes. -/
theorem floppyWritesLoop_frame (e : Env) (n sector buf : ℕ) (res : ℤ) (d : Dev) :
    ∃ disk t, (floppyWritesLoop e n sector buf res d).2 = { d with disk := disk, ticks := t } := by
  induction n generalizing sector buf res d with
  | zero => exact ⟨d.disk, d.ticks, rfl⟩
  | succ n ih =>
    cases ht : e.transfer d.ticks with
    | done =>
      rw [floppyWritesLoop_succ_done ht]
      exact ih _ _ _ _
    | seekError =>
      rw [floppyWritesLoop_succ_seekError ht]
      exact ih _ _ _ _
    | ioError =>
      rw [floppyWritesLoop_succ_ioError ht]
      exact ⟨d.disk, d.ticks + 1, rfl⟩

theorem floppyWritesLoop_res (e : Env) (n sector buf : ℕ) {res : ℤ} (d : Dev)
    (hres : res = 0 ∨ res = - EIO) :
    (floppyWritesLoop e n sector buf res d).1 = 0 ∨
      (floppyWritesLoop e n sector buf res d).1 = - EIO := by
  induction n generalizing sector buf res d with
  | zero => exact hres
  | succ n ih =>
    cases ht : e.transfer d.ticks with
    | done =>
      rw [floppyWritesLoop_succ_done ht]
      exact ih _ _ _ (.inl rfl)
    | seekError =>
      rw [floppyWritesLoop_succ_seekError ht]
      exact ih _ _ _ (.inl rfl)
    | ioError =>
      rw [floppyWritesLoop_succ_ioError ht]
      exact .inr rfl

/-- Without an error of the controller a write reports success. -/
theorem floppyWritesLoop_ok (h : ∀ t, e.transfer t ≠ .ioError) (n sector buf : ℕ) (d : Dev) :
    (floppyWritesLoop e n sector buf 0 d).1 = 0 := (sectorLoop_writes e).ok h n sector buf d

/-- The disk after a run of sectors has been written. -/
def putSectors (disk : ℕ → ℕ → UInt8) (sector n : ℕ) (src : ℕ → UInt8) : ℕ → ℕ → UInt8 :=
  fun s => if (s + 2 ^ 32 - sector) % 2 ^ 32 < n ∧ s < 2 ^ 32 then
    fun i => src (512 * ((s + 2 ^ 32 - sector) % 2 ^ 32) + i) else disk s

/-- Writing one more sector in front. -/
theorem putSectors_succ {disk : ℕ → ℕ → UInt8} {src : ℕ → UInt8} (hsec : sector < 2 ^ 32)
    (hn : n < 2 ^ 32) :
    putSectors (Function.update disk sector src) ((sector + 1) % 2 ^ 32) n
      (fun i => src (512 + i)) = putSectors disk sector (n + 1) src := by
  funext s
  unfold putSectors
  by_cases hs : s = sector
  · subst hs
    have h0 : (s + 2 ^ 32 - s) % 2 ^ 32 = 0 := by omega
    rw [if_neg (by omega), if_pos (by omega), Function.update_self, h0]
    funext i
    rw [Nat.mul_zero, Nat.zero_add]
  · rw [Function.update_of_ne hs]
    by_cases hlt : s < 2 ^ 32
    · have hk : (s + 2 ^ 32 - sector) % 2 ^ 32 =
          (s + 2 ^ 32 - (sector + 1) % 2 ^ 32) % 2 ^ 32 + 1 := by omega
      refine if_congr (by omega) ?_ rfl
      funext i
      rw [hk, Nat.mul_succ, Nat.add_comm _ 512, Nat.add_assoc]
    · rw [if_neg fun h => hlt h.2, if_neg fun h => hlt h.2]

/-- **A write all of whose sectors are moved.** -/
theorem floppyWritesLoop_done (h : AllDone e d.ticks n) (hsec : sector < 2 ^ 32)
    (hn : n ≤ 2 ^ 32) :
    floppyWritesLoop e n sector buf 0 d =
      (0, { d with disk := putSectors d.disk sector n (d.buf buf), ticks := d.ticks + n }) := by
  induction n generalizing sector buf d with
  | zero =>
    have : putSectors d.disk sector 0 (d.buf buf) = d.disk := by
      funext s
      exact if_neg (by omega)
    rw [this]
    rfl
  | succ n ih =>
    rw [floppyWritesLoop_succ_done h.head, ih h.tail (Nat.mod_lt _ (by decide)) (by omega)]
    have hbuf : { d with disk := Function.update d.disk sector (d.buf buf) }.tick.buf (buf + 512) =
        fun i => d.buf buf (512 + i) := by
      funext i
      exact congrArg d.cacheData (Nat.add_assoc _ _ _)
    rw [← putSectors_succ hsec (by omega), hbuf]
    simp only [Dev.tick, Nat.add_assoc, Nat.add_comm 1]

/-! ### Blocks -/

theorem sectorOf_lt (sbi : TfsSbInfo) (b : ℕ) : sectorOf sbi b < 2 ^ 32 :=
  Nat.mod_lt _ (by decide)

/-- The frame of a block read. -/
theorem tfsBread_frame (e : Env) (sbi : TfsSbInfo) (b buf : ℕ) (d : Dev) :
    ∃ m t, (tfsBread e sbi b buf d).2 = { d with cacheData := m, ticks := t } ∧
      ∀ x, ¬(buf ≤ x ∧ x < buf + 512 * sectorsPerBlock sbi) → m x = d.cacheData x :=
  floppyReadsLoop_frame e _ _ _ 0 d

theorem tfsBread_ok (h : ∀ t, e.transfer t ≠ .ioError) (sbi : TfsSbInfo) (b buf : ℕ) (d : Dev) :
    (tfsBread e sbi b buf d).1 = 0 :=
  floppyReadsLoop_ok h _ _ _ d

theorem tfsBwriteTagged_ok (h : ∀ t, e.transfer t ≠ .ioError) (undone : Bool) (sbi : TfsSbInfo)
    (b buf : ℕ) (d : Dev) : (tfsBwriteTagged undone e sbi b buf d).1 = 0 :=
  floppyWritesLoop_ok h _ _ _ d

/-- What a block write does, and what is recorded of it. -/
theorem tfsBwriteTagged_run (undone : Bool) (e : Env) (sbi : TfsSbInfo) (b buf : ℕ) (d : Dev) :
    ∃ disk t m, tfsBwriteTagged undone e sbi b buf d = (m.res,
        { d with disk := disk, ticks := t, log := d.log ++ [.store undone m] }) ∧
      m.block = b ∧ m.data = d.buf buf ∧ (m.res = 0 ∨ m.res = - EIO) := by
  obtain ⟨disk, t, h⟩ := floppyWritesLoop_frame e (sectorsPerBlock sbi) (sectorOf sbi b) buf 0 d
  have hres := floppyWritesLoop_res e (sectorsPerBlock sbi) (sectorOf sbi b) buf d (.inl rfl)
  let m : Moved :=
    { block := b, sector := sectorOf sbi b, sectors := sectorsPerBlock sbi, tick := d.ticks,
      res := (floppyWrites e (sectorOf sbi b) buf (sectorsPerBlock sbi) d).1, data := d.buf buf }
  refine ⟨disk, t, m, ?_, rfl, rfl, hres⟩
  refine Prod.ext rfl ?_
  exact congrArg (fun d' : Dev => { d' with log := d'.log ++ [Event.store undone m] }) h

end Thunix.Fs
