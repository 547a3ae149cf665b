import Thunix.Fs.CacheShape
import Thunix.Lib.Traced

/-!
# Coherence of the block cache

An entry of the cache that is labelled with a block should hold what the disk was last
seen to hold there: the data of the last transfer of that block, which is a read all of
whose sectors were moved, or a write that was reported as successful
(`Thunix.Fs.lastTransfer`). The code does not keep this up: a read that fails on the way
has overwritten part of the buffer of an entry that keeps its label, and a write that
fails leaves the change to the buffer in place. `Thunix.Fs.Harmless` is the condition on
a transfer that rules these out, and the results of the file are Hoare triples
(`Thunix.Traced.Triple`) that say of each primitive that it keeps the cache coherent
when its transfers are harmless.
-/

namespace Thunix.Fs

open Traced

variable {e : Env} {sb : TfsSbInfo} {d d' : Dev} {b i j n x : ℕ} {os : List ℕ}

/-! ### What has been transferred -/

/-- The contents of buffers. -/
abbrev Buf := ℕ → UInt8

/-- The first `n` bytes are the same. -/
def Agree (n : ℕ) (f g : Buf) : Prop := ∀ k < n, f k = g k

instance {n : ℕ} {f g : Buf} : Decidable (Agree n f g) := inferInstanceAs (Decidable (∀ _ < _, _))

/-- There is a content, and it agrees. -/
def Holds (n : ℕ) (f : Buf) (c : Option Buf) : Prop :=
  match c with
  | some c => Agree n f c
  | none => False

instance {n : ℕ} {f : Buf} : ∀ c, Decidable (Holds n f c)
  | some c => inferInstanceAs (Decidable (Agree n f c))
  | none => isFalse id

theorem Holds.congr {f g : Buf} {c : Option Buf} (h : Holds n f c) (hfg : Agree n g f) :
    Holds n g c := by
  cases c with
  | none => exact h
  | some c => exact fun k hk => (hfg k hk).trans (h k hk)

/-- A read of a block is real if all the sectors of the block have been moved. -/
def RealRead (e : Env) (m : Moved) : Prop :=
  m.sector = sectorOf e.sbi m.block ∧ m.sectors = sectorsPerBlock e.sbi ∧ m.res = 0 ∧
    AllDone e m.tick m.sectors

instance {m : Moved} : Decidable (RealRead e m) := inferInstanceAs (Decidable (_ ∧ _))

/-- The data of a read of block `b`. -/
def readData (e : Env) (b : ℕ) : Event → Option Buf
  | .load _ m => if m.block = b ∧ RealRead e m then some m.data else none
  | _ => none

/-- The data of a write of block `b` that was reported as successful. -/
def writeData (b : ℕ) : Event → Option Buf
  | .store _ m => if m.block = b ∧ m.res = 0 then some m.data else none
  | _ => none

/-- The data of a transfer of block `b`. -/
def transferData (e : Env) (b : ℕ) (ev : Event) : Option Buf :=
  (readData e b ev).or (writeData b ev)

/-- The data of the last read of a block. -/
def lastRead (e : Env) (b : ℕ) (log : List Event) : Option Buf :=
  (log.filterMap (readData e b)).getLast?

/-- The data of the last transfer of a block. -/
def lastTransfer (e : Env) (b : ℕ) : List Event → Option Buf :=
  fun log => (log.filterMap (transferData e b)).getLast?

theorem transferData_load (v : ℕ) (m : Moved) : transferData e b (.load v m) =
    if m.block = b ∧ RealRead e m then some m.data else none := by
  simp [transferData, readData, writeData]

theorem transferData_store (undone : Bool) (m : Moved) : transferData e b (.store undone m) =
    if m.block = b ∧ m.res = 0 then some m.data else none := by
  simp [transferData, readData, writeData]

theorem transferData_flip (nr : ℕ) : transferData e b (.flip nr) = none := rfl

theorem lastTransfer_concat (log : List Event) (ev : Event) :
    lastTransfer e b (log ++ [ev]) = (transferData e b ev).or (lastTransfer e b log) := by
  rw [lastTransfer, lastTransfer, List.filterMap_append]
  cases h : transferData e b ev with
  | none => simp [h]
  | some c => simp [h]

/-- The last transfer is the last read, or some write. -/
theorem lastTransfer_eq_some {log : List Event} {c : Buf} (h : lastTransfer e b log = some c) :
    lastRead e b log = some c ∨ ∃ ev ∈ log, writeData b ev = some c := by
  induction log using List.reverseRecOn with
  | nil => cases h
  | append_singleton log ev ih =>
    rw [lastTransfer_concat, transferData] at h
    rw [lastRead, List.filterMap_append]
    cases hr : readData e b ev with
    | some c' =>
      rw [hr] at h
      refine .inl ?_
      simpa [hr] using h
    | none =>
      rw [hr, Option.none_or] at h
      cases hw : writeData b ev with
      | some c' =>
        rw [hw] at h
        refine .inr ⟨ev, by simp, ?_⟩
        rw [hw]
        exact h
      | none =>
        rw [hw, Option.none_or] at h
        rcases ih h with hl | ⟨ev', hev, hw'⟩
        · refine .inl ?_
          simpa [hr, lastRead] using hl
        · exact .inr ⟨ev', List.mem_append_left _ hev, hw'⟩

/-! ### The property and the condition -/

/-- **Coherence**, as it is promised: the buffer of a labelled entry agrees with the data
of the last read of its block, or with that of a successful write of it. -/
def CacheHolds (e : Env) (d : Dev) : Prop :=
  ∀ i < d.cacheEntries, d.label i ≠ emptyBlock →
    Holds e.sbi.sBlockSize (d.buf (d.dataOf i)) (lastRead e (d.label i) d.log) ∨
    ∃ ev ∈ d.log, Holds e.sbi.sBlockSize (d.buf (d.dataOf i)) (writeData (d.label i) ev)

/-- No sector of a failing transfer is moved before the one that fails. -/
def MovesNothing (e : Env) (tick n : ℕ) : Prop :=
  ∃ k < n, e.transfer (tick + k) = .ioError ∧ ∀ l < k, e.transfer (tick + l) = .seekError

instance : Decidable (MovesNothing e i n) :=
  inferInstanceAs (Decidable (∃ k < n, e.transfer (i + k) = .ioError ∧
    ∀ l < k, e.transfer (i + l) = .seekError))

/-- The condition on the entries of the log. A read that succeeds is real, and one that
fails has moved nothing or was into the buffer of an entry that held no block. A write
succeeds, or its caller takes the change back, or there was no change. A bit that is
changed is in the bitmap. -/
def Harmless (e : Env) (log : List Event) : Event → Prop
  | .load victim m =>
    if m.res = 0 then RealRead e m
    else MovesNothing e m.tick m.sectors ∨
      (victim = emptyBlock ∧ m.sectors ≤ sectorsPerBlock e.sbi)
  | .store undone m =>
    m.res = 0 ∨ undone = true ∨ Holds e.sbi.sBlockSize m.data (lastTransfer e m.block log)
  | .flip nr => nr < 8 * e.sbi.sBlockSize

theorem harmless_load {log : List Event} {victim : ℕ} {m : Moved} :
    Harmless e log (.load victim m) ↔ if m.res = 0 then RealRead e m
      else MovesNothing e m.tick m.sectors ∨
        (victim = emptyBlock ∧ m.sectors ≤ sectorsPerBlock e.sbi) := Iff.rfl

instance Harmless.decidable : ∀ log ev, Decidable (Harmless e log ev)
  | _, .load victim m => inferInstanceAs (Decidable (if m.res = 0 then RealRead e m
    else MovesNothing e m.tick m.sectors ∨
      (victim = emptyBlock ∧ m.sectors ≤ sectorsPerBlock e.sbi)))
  | _, .store _ _ => inferInstanceAs (Decidable (_ ∨ _))
  | _, .flip _ => inferInstanceAs (Decidable (_ < _))

/-! ### The invariant -/

/-- The cache is coherent but for the entry `x`. -/
def CoherentBut (e : Env) (x : ℕ) (d : Dev) : Prop :=
  ∃ os, Shaped e os d ∧ ∀ i ∈ os, i ≠ x → d.label i ≠ emptyBlock →
    Holds e.sbi.sBlockSize (d.buf (i * e.sbi.sBlockSize)) (lastTransfer e (d.label i) d.log)

/-- The cache is coherent. -/
def Coherent (e : Env) (d : Dev) : Prop :=
  ∃ os, Shaped e os d ∧ ∀ i ∈ os, d.label i ≠ emptyBlock →
    Holds e.sbi.sBlockSize (d.buf (i * e.sbi.sBlockSize)) (lastTransfer e (d.label i) d.log)

theorem Coherent.but (h : Coherent e d) (x : ℕ) : CoherentBut e x d := by
  obtain ⟨os, hs, hc⟩ := h
  exact ⟨os, hs, fun i hi _ hne => hc i hi hne⟩

/-- **The invariant gives what is promised.** -/
theorem Coherent.cacheHolds (h : Coherent e d) : CacheHolds e d := by
  obtain ⟨os, hs, hc⟩ := h
  intro i hi hne
  have hmem : i ∈ os := hs.ring.mem_iff.mpr hi
  have := hc i hmem hne
  rw [← hs.data_of_mem hmem] at this
  cases hl : lastTransfer e (d.label i) d.log with
  | none =>
    rw [hl] at this
    exact absurd this id
  | some c =>
    rw [hl] at this
    rcases lastTransfer_eq_some hl with hr | ⟨ev, hev, hw⟩
    · exact .inl (by rwa [hr])
    · exact .inr ⟨ev, hev, by rwa [hw]⟩

/-- The buffers of two entries are apart. -/
theorem buffers_apart {bs k : ℕ} (hij : i ≠ j) (hk : k < bs) :
    ¬(i * bs ≤ j * bs + k ∧ j * bs + k < i * bs + bs) := by
  rintro ⟨h1, h2⟩
  rcases Nat.lt_or_gt_of_ne hij with h | h
  · have := Nat.mul_le_mul_right bs h
    rw [Nat.succ_mul] at this
    omega
  · have := Nat.mul_le_mul_right bs h
    rw [Nat.succ_mul] at this
    omega

/-- A cache that has just been set up is coherent. -/
theorem coherent_cacheInit (hm : Mounted e.sbi) (d : Dev) :
    Coherent e (cacheInit e.sbi.sBlockShift d) := by
  have hpos : 0 < numEntries e.sbi.sBlockShift := by have := hm.two_le_entries; omega
  refine ⟨_, shaped_cacheInit hm d, fun i hi hne => absurd ?_ hne⟩
  exact (initInv_cacheInit hpos d).label i (List.mem_range.mp hi)

/-! ### Requests -/

/-- A read that moves nothing leaves memory alone. -/
theorem floppyReadsLoop_movesNothing {sector buf : ℕ} {res : ℤ} (h : MovesNothing e d.ticks n) :
    (floppyReadsLoop e n sector buf res d).2.cacheData = d.cacheData := by
  induction n generalizing sector buf res d with
  | zero => rfl
  | succ n ih =>
    obtain ⟨k, hk, herr, hseek⟩ := h
    cases k with
    | zero =>
      rw [floppyReadsLoop_succ_ioError herr]
      rfl
    | succ k =>
      rw [floppyReadsLoop_succ_seekError (hseek 0 (Nat.succ_pos k))]
      refine ih ⟨k, Nat.lt_of_succ_lt_succ hk, ?_, fun l hl => ?_⟩
      · rw [← herr, Dev.tick, Nat.add_assoc, Nat.add_comm 1]
      · rw [← hseek (l + 1) (Nat.succ_lt_succ hl), Dev.tick, Nat.add_assoc, Nat.add_comm 1]

theorem getCacheBlock_append (e : Env) (sb : TfsSbInfo) (b : ℕ) (d : Dev) :
    ∃ es, (getCacheBlock e sb b d).2.log = d.log ++ es := by
  have hrelink : ∀ last cs (d : Dev), (relink last cs d).log = d.log := fun last cs d => by
    rw [(relinked_relink last cs d).rest]
  unfold getCacheBlock
  dsimp only
  split
  · exact ⟨[], (List.append_nil _).symm⟩
  · split
    · exact ⟨[], (hrelink _ _ d).trans (List.append_nil _).symm⟩
    · obtain ⟨m, t, h, -⟩ := tfsBread_frame e sb b (d.cache (d.cache .head).next).data d
      generalize tfsBread e sb b (d.cache (d.cache .head).next).data d = r at h
      obtain ⟨res, d'⟩ := r
      obtain rfl := h
      dsimp only
      split
      · exact ⟨_, rfl⟩
      · exact ⟨_, hrelink _ _ _⟩

/-- The pointer is to an entry labelled with the block. -/
def EntryOf (e : Env) (cs : CacheRef) (b : ℕ) (d : Dev) : Prop :=
  ∃ i < numEntries e.sbi.sBlockShift, cs = .entry i ∧ d.label i = b

/-- After a harmless read into `cache[i]`, the other entries hold what they held, and if
the read has succeeded, the buffer holds the block. -/
theorem loadInto_coherent (hm : Mounted e.sbi) (hs : Shaped e os d) (hi : i ∈ os)
    (hc : ∀ j ∈ os, d.label j ≠ emptyBlock →
      Holds e.sbi.sBlockSize (d.buf (j * e.sbi.sBlockSize)) (lastTransfer e (d.label j) d.log))
    (habsent : ∀ j ∈ os, d.label j ≠ b)
    (hok : Harmless e d.log (.load (d.label i) (loadMoved e sb b i d))) :
    (∀ j ∈ os, (j ≠ i ∨ (loadMoved e sb b i d).res ≠ 0) → d.label j ≠ emptyBlock →
      Holds e.sbi.sBlockSize ((loadInto e sb b i d).buf (j * e.sbi.sBlockSize))
        (lastTransfer e (d.label j) (loadInto e sb b i d).log)) ∧
    ((loadMoved e sb b i d).res = 0 →
      Holds e.sbi.sBlockSize ((loadInto e sb b i d).buf (i * e.sbi.sBlockSize))
        (lastTransfer e b (loadInto e sb b i d).log)) := by
  obtain ⟨m, t, hload, hframe⟩ := loadInto_frame e sb b i d
  have hlog : (loadInto e sb b i d).log =
      d.log ++ [.load (d.label i) (loadMoved e sb b i d)] := by rw [hload]
  rw [hs.data_of_mem hi] at hframe
  -- the transfer is not one of another entry's block
  have hother : ∀ j ∈ os, lastTransfer e (d.label j) (loadInto e sb b i d).log =
      lastTransfer e (d.label j) d.log := fun j hj => by
    have hne : ¬((loadMoved e sb b i d).block = d.label j ∧ RealRead e (loadMoved e sb b i d)) :=
      fun h => habsent j hj h.1.symm
    rw [hlog, lastTransfer_concat, transferData_load, if_neg hne, Option.none_or]
  -- a transfer of no more than a block stays in the buffer
  have hfar : sectorsPerBlock sb ≤ sectorsPerBlock e.sbi → ∀ j, j ≠ i →
      Agree e.sbi.sBlockSize ((loadInto e sb b i d).buf (j * e.sbi.sBlockSize))
        (d.buf (j * e.sbi.sBlockSize)) := fun hle j hj k hk => by
    rw [hload]
    refine hframe _ fun h => buffers_apart hj.symm hk ⟨h.1, ?_⟩
    have := hm.sectors
    omega
  rw [harmless_load] at hok
  by_cases hres : (loadMoved e sb b i d).res = 0
  · rw [if_pos hres] at hok
    refine ⟨fun j hj hji hne => ?_, fun _ => ?_⟩
    · rw [hother j hj]
      exact (hc j hj hne).congr (hfar hok.2.1.le j (hji.resolve_right fun h => h hres))
    · rw [hlog, lastTransfer_concat, transferData_load, if_pos ⟨rfl, hok⟩, Option.some_or]
      intro k _
      rw [← hs.data_of_mem hi]
      rfl
  · rw [if_neg hres] at hok
    refine ⟨fun j hj _ hne => ?_, fun h => absurd h hres⟩
    rw [hother j hj]
    refine (hc j hj hne).congr ?_
    rcases hok with hnothing | ⟨hempty, hle⟩
    · have hmem : (loadInto e sb b i d).cacheData = d.cacheData :=
        floppyReadsLoop_movesNothing hnothing
      intro k _
      rw [Dev.buf, Dev.buf, hmem]
    · refine hfar hle j fun hji => ?_
      rw [hji] at hne
      exact hne hempty

/-- **A request keeps the cache coherent**, also one that fails. -/
theorem getCacheBlock_coherent (hm : Mounted e.sbi) (sb : TfsSbInfo) (b : ℕ) :
    Triple Dev.log (Harmless e) (Coherent e) (getCacheBlock e sb b) fun r d =>
      Coherent e d ∧ ∀ cs, r = some cs → EntryOf e cs b d := fun d => by
  obtain ⟨es, hes⟩ := getCacheBlock_append e sb b d
  refine ⟨es, hes, fun ⟨os, hs, hc⟩ hok => ?_⟩
  have hreq := hs.request hm sb b
  generalize getCacheBlock e sb b d = r at hes hreq
  obtain ⟨r, d'⟩ := r
  change d'.log = d.log ++ es at hes
  change Request e sb b os d r d' at hreq
  cases hreq with
  | @hit pre post i _ hos hlab hshape hrel =>
    have hlog : d'.log = d.log := by rw [hrel.rest]
    have hlabel : ∀ j, d'.label j = d.label j := fun j => hrel.block _
    have hmem : ∀ {j}, j ∈ pre ++ post ++ [i] → j ∈ os := fun hj => by
      rw [hshape.mem_iff, ← hs.mem_iff] at hj
      exact hj
    refine ⟨⟨_, hshape, fun j hj hne => ?_⟩, fun cs hcs => ⟨i, ?_, ?_, ?_⟩⟩
    · rw [hlabel] at hne
      rw [hlabel, hlog, hrel.rest]
      exact hc j (hmem hj) hne
    · exact hs.mem_iff.mp (hos ▸ by simp)
    · exact (Option.some.inj hcs).symm
    · exact (hlabel i).trans hlab
  | @miss post i _ hos habsent hread hshape hrel =>
    have hi : i ∈ os := hos ▸ List.mem_cons_self
    have hcache := (loadInto_cache e sb b i d).1
    have hlog : d'.log = (loadInto e sb b i d).log := by rw [hrel.rest]; rfl
    obtain ⟨m, t, hload, -⟩ := loadInto_frame e sb b i d
    have hes' : es = [.load (d.label i) (loadMoved e sb b i d)] := by
      rw [hlog, hload] at hes
      exact (List.append_cancel_left hes).symm
    subst hes'
    obtain ⟨hothers, hfilled⟩ := loadInto_coherent hm hs hi hc habsent hok.1
    have hbuf : ∀ a, d'.buf a = (loadInto e sb b i d).buf a := fun a => by rw [hrel.rest]; rfl
    have hlabel : ∀ j, d'.label j = if j = i then b else d.label j := fun j => by
      rw [Dev.label, hrel.block]
      by_cases hji : j = i <;> simp [Dev.setBlock, hji, Dev.label, hcache]
    refine ⟨⟨_, hshape, fun j hj hne => ?_⟩, fun cs hcs => ⟨i, ?_, ?_, ?_⟩⟩
    · rw [hbuf, hlog, hlabel]
      rw [hlabel] at hne
      by_cases hji : j = i
      · rw [if_pos hji, hji]
        exact hfilled hread
      · rw [if_neg hji]
        rw [if_neg hji] at hne
        rw [hshape.mem_iff, ← hs.mem_iff] at hj
        exact hothers j hj (.inl hji) hne
    · exact hs.mem_iff.mp hi
    · exact (Option.some.inj hcs).symm
    · rw [hlabel, if_pos rfl]
  | @fail post i hos habsent hread hshape =>
    have hi : i ∈ os := hos ▸ List.mem_cons_self
    have hcache := (loadInto_cache e sb b i d).1
    obtain ⟨m, t, hload, -⟩ := loadInto_frame e sb b i d
    have hes' : es = [.load (d.label i) (loadMoved e sb b i d)] := by
      rw [hload] at hes
      exact (List.append_cancel_left hes).symm
    subst hes'
    obtain ⟨hothers, -⟩ := loadInto_coherent hm hs hi hc habsent hok.1
    refine ⟨⟨_, hshape, fun j hj hne => ?_⟩, fun cs hcs => by cases hcs⟩
    rw [Dev.label, hcache] at hne ⊢
    exact hothers j hj (.inr hread) hne

/-! ### Changing a buffer and writing it -/

/-- Coherence does not look at the disk or the clock. -/
theorem CoherentBut.congr (h : CoherentBut e x d) (hc : d'.cache = d.cache)
    (hn : d'.cacheEntries = d.cacheEntries)
    (hbuf : ∀ i, i ≠ x → Agree e.sbi.sBlockSize (d'.buf (i * e.sbi.sBlockSize))
      (d.buf (i * e.sbi.sBlockSize)))
    (hlast : ∀ i, i ≠ x → i < numEntries e.sbi.sBlockShift → d.label i ≠ emptyBlock →
      lastTransfer e (d.label i) d'.log = lastTransfer e (d.label i) d.log) :
    CoherentBut e x d' := by
  obtain ⟨os, hs, hco⟩ := h
  refine ⟨os, hs.congr hc hn, fun i hi hix hne => ?_⟩
  have hlab : d'.label i = d.label i := by rw [Dev.label, hc]; rfl
  rw [hlab] at hne ⊢
  rw [hlast i hix (hs.mem_iff.mp hi) hne]
  exact (hco i hi hix hne).congr (hbuf i hix)

/-- The buffer at `a` is that of the entry `cs`, labelled with the block, and has perhaps
been changed. -/
def Changed (e : Env) (cs : CacheRef) (b a : ℕ) (d : Dev) : Prop :=
  ∃ i < numEntries e.sbi.sBlockShift, cs = .entry i ∧ a = i * e.sbi.sBlockSize ∧
    d.label i = b ∧ CoherentBut e i d

variable {cs : CacheRef} {a : ℕ} {P : Dev → Prop}

theorem dataPtr_coherent : Triple Dev.log (Harmless e)
    (fun d => Coherent e d ∧ EntryOf e cs b d) (dataPtr cs)
    fun a d => Coherent e d ∧ EntryOf e cs b d ∧ Changed e cs b a d := by
  refine .silent (fun _ => rfl) fun d ⟨hco, i, hi, hcs, hlab⟩ =>
    ⟨hco, ⟨i, hi, hcs, hlab⟩, i, hi, hcs,
    ?_, hlab, hco.but i⟩
  obtain ⟨os, hs, -⟩ := hco
  rw [hcs]
  exact hs.data i hi

theorem dataPtr_changed : Triple Dev.log (Harmless e) (Changed e cs b a) (dataPtr cs)
    fun a d => Changed e cs b a d := by
  refine .silent (fun _ => rfl) fun d ⟨i, hi, hcs, ha, hlab, hco⟩ => ⟨i, hi, hcs, ?_, hlab, hco⟩
  obtain ⟨os, hs, -⟩ := hco
  rw [hcs]
  exact hs.data i hi

/-- Bytes copied into the buffer. -/
theorem copyIn_changed {at_ count : ℕ} {src : Buf} :
    Triple Dev.log (Harmless e)
      (fun d => Changed e cs b a d ∧ a ≤ at_ ∧ at_ + count ≤ a + e.sbi.sBlockSize)
      (copyIn at_ count src) fun _ d => Changed e cs b a d := by
  refine .silent (fun _ => rfl) fun d ⟨⟨i, hi, hcs, ha, hlab, hco⟩, hlo, hhi⟩ =>
    ⟨i, hi, hcs, ha, hlab, hco.congr rfl rfl (fun j hj k hk => ?_) fun _ _ _ _ => rfl⟩
  refine blit_of_not_mem fun h => buffers_apart hj.symm hk ?_
  omega

/-- The write of a buffer that the caller may change back: a failure leaves the other
entries coherent. -/
theorem tfsBwriteTagged_changed {g : (ℕ → UInt8) → ℕ → UInt8} (undone : Bool) :
    Triple Dev.log (Harmless e)
      (fun d => Changed e cs b a d ∧
        (undone = true → Coherent e { d with cacheData := g d.cacheData }))
      (tfsBwriteTagged undone e e.sbi b a) fun r d =>
        (r = 0 ∨ undone = false → Coherent e d) ∧
        (r ≠ 0 → undone = true → Coherent e { d with cacheData := g d.cacheData }) := fun d => by
  obtain ⟨disk, t, m, hrun, hb, hdata, hres⟩ := tfsBwriteTagged_run undone e e.sbi b a d
  rw [hrun]
  refine ⟨_, rfl, fun ⟨⟨i, hi, hcs, ha, hlab, hco⟩, hundo⟩ ⟨hok, _⟩ => ?_⟩
  refine ⟨fun hr => ?_, fun hr hu => ?_⟩
  · -- the transfer is not one of another entry's block
    obtain ⟨os, hs, hc⟩ := hco
    have hi' := hs.mem_iff.mpr hi
    refine ⟨os, hs.congr rfl rfl, fun j hj hne => ?_⟩
    have hlast : lastTransfer e (d.label j) (d.log ++ [.store undone m]) =
        if j = i ∧ m.res = 0 then some m.data else lastTransfer e (d.label j) d.log := by
      rw [lastTransfer_concat, transferData_store]
      by_cases hji : j = i
      · rw [hji, hb, hlab]
        by_cases hz : m.res = 0 <;> simp [hz]
      · have hbj : ¬(m.block = d.label j ∧ m.res = 0) := fun h =>
          hji (hs.labels j hj i hi' (h.1.symm.trans (hb.trans hlab.symm)) hne)
        rw [if_neg hbj, if_neg fun h => hji h.1, Option.none_or]
    change Holds _ _ (lastTransfer e (d.label j) (d.log ++ [.store undone m]))
    rw [hlast]
    by_cases hji : j = i
    · by_cases hz : m.res = 0
      · rw [if_pos ⟨hji, hz⟩, hdata, hji, ha]
        exact fun _ _ => rfl
      · rw [if_neg fun h => hz h.2]
        rcases hok with h | h | h
        · exact absurd h hz
        · rcases hr with hr | hr
          · exact absurd hr hz
          · rw [hr] at h
            cases h
        · rw [hji, hlab, ← hb]
          rw [hdata, ha] at h
          exact h
    · rw [if_neg fun h => hji h.1]
      exact hc j hj hji hne
  · obtain ⟨os, hs, hc⟩ := hundo hu
    refine ⟨os, hs.congr rfl rfl, fun j hj hne => ?_⟩
    have := hc j hj hne
    change Holds _ _ (lastTransfer e (d.label j) (d.log ++ [.store undone m]))
    rw [lastTransfer_concat, transferData_store, if_neg fun h => hr h.2, Option.none_or]
    exact this

/-- **A write keeps the cache coherent.** -/
theorem tfsBwrite_coherent : Triple Dev.log (Harmless e) (Changed e cs b a)
    (tfsBwrite e e.sbi b a) fun _ d => Coherent e d :=
  (tfsBwriteTagged_changed (g := id) false).conseq (fun _ h => ⟨h, fun h => by cases h⟩)
    fun _ _ h => h.1 (.inr rfl)

end Thunix.Fs
