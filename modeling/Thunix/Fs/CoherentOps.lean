import Thunix.Fs.Coherence
import Thunix.Fs.Kernel

/-!
# Coherence of the operations

Each function that works on the cache keeps it coherent when its transfers are harmless
(`Thunix.Fs.Keeps`). The functions all go the same way – ask for a block, take the
address of its buffer, perhaps change the buffer and write it – and so do the proofs,
by `Thunix.Fs.request_bind`, `Thunix.Fs.dataPtr_coherent`, `Thunix.Fs.copyIn_changed` and
`Thunix.Fs.tfsBwrite_coherent`.
-/

namespace Thunix.Fs

open Traced

variable {e : Env} {sb : TfsSbInfo} {d : Dev} {b a nr : ℕ} {cs : CacheRef} {α β : Type}
  {P : Dev → Prop} {Q : α → Dev → Prop}

/-- The computation keeps the cache coherent. -/
def Keeps (e : Env) (x : DevM α) : Prop :=
  Triple Dev.log (Harmless e) (Coherent e) x fun _ d => Coherent e d

theorem Keeps.pure (v : α) : Keeps e (pure v : DevM α) := Triple.pure fun _ h => h

theorem Keeps.bind {x : DevM α} {f : α → DevM β} (hx : Keeps e x) (hf : ∀ v, Keeps e (f v)) :
    Keeps e (x >>= f) := Triple.bind hx hf

/-- Coherence does not look at the clock. -/
theorem Coherent.tick (h : Coherent e d) : Coherent e d.tick := by
  obtain ⟨os, hs, hc⟩ := h
  exact ⟨os, hs.congr rfl rfl, hc⟩

theorem keeps_wildBytes : Keeps e (wildBytes e) := .silent (fun _ => rfl) fun _ h => h.tick

theorem keeps_mallocOk : Keeps e (mallocOk e) := .silent (fun _ => rfl) fun _ h => h.tick

theorem keeps_uninitialised : Keeps e (uninitialised e) := .silent (fun _ => rfl) fun _ h => h.tick

theorem keeps_dataWords (inode : Inode) : Keeps e (dataWords e inode) :=
  .silent (fun _ => rfl) fun _ h => h.tick

theorem readMem_triple (f : (ℕ → UInt8) → α) :
    Triple Dev.log (Harmless e) P (readMem f) fun v d => P d ∧ v = f d.cacheData :=
  .silent (fun _ => rfl) fun _ h => ⟨h, rfl⟩

/-- **A computation that begins with a request.** -/
theorem request_bind (hm : Mounted e.sbi) {f : Option CacheRef → DevM α}
    (hnone : Triple Dev.log (Harmless e) (Coherent e) (f none) Q)
    (hsome : ∀ cs, Triple Dev.log (Harmless e) (fun d => Coherent e d ∧ EntryOf e cs b d)
      (f (some cs)) Q) :
    Triple Dev.log (Harmless e) (Coherent e) (getCacheBlock e sb b >>= f) Q := by
  refine (getCacheBlock_coherent hm sb b).bind fun r => ?_
  cases r with
  | none => exact hnone.conseq (fun _ h => h.1) fun _ _ h => h
  | some cs => exact (hsome cs).conseq (fun _ h => ⟨h.1, h.2 cs rfl⟩) fun _ _ h => h

/-- The buffer of an entry is read. -/
theorem keeps_read {f : ℕ → (ℕ → UInt8) → α} :
    Triple Dev.log (Harmless e) (fun d => Coherent e d ∧ EntryOf e cs b d)
      (do let data ← dataPtr cs; readMem (f data)) fun _ d => Coherent e d :=
  dataPtr_coherent.bind fun _ => (readMem_triple _).conseq (fun _ h => h) fun _ _ h => h.1.1

/-! ### The bitmaps -/

/-- An entry of the log that is no transfer. -/
theorem lastTransfer_flip (log : List Event) (nr : ℕ) :
    lastTransfer e b (log ++ [.flip nr]) = lastTransfer e b log := by
  rw [lastTransfer_concat, transferData_flip, Option.none_or]

theorem Coherent.flip (h : Coherent e d) (nr : ℕ) :
    Coherent e { d with log := d.log ++ [.flip nr] } := by
  obtain ⟨os, hs, hc⟩ := h
  refine ⟨os, hs.congr rfl rfl, fun i hi hne => ?_⟩
  change Holds _ _ (lastTransfer e (d.label i) (d.log ++ [.flip nr]))
  rw [lastTransfer_flip]
  exact hc i hi hne

/-- A bit of the buffer changes. -/
theorem Changed.flip (h : Changed e cs b a d) (hnr : nr < 8 * e.sbi.sBlockSize)
    {m : ℕ → UInt8} (hm : ∀ x, x ≠ a + nr / 8 → m x = d.cacheData x) :
    Changed e cs b a { d with cacheData := m, log := d.log ++ [.flip nr] } := by
  obtain ⟨i, hi, hcs, ha, hlab, hco⟩ := h
  refine ⟨i, hi, hcs, ha, hlab, hco.congr rfl rfl (fun j hj k hk => hm _ fun h => ?_) fun j _ _ _ =>
    lastTransfer_flip _ _⟩
  refine buffers_apart hj.symm hk ?_
  rw [← ha, h]
  omega

/-- `set_bit`. -/
theorem setBitAt_changed : Triple Dev.log (Harmless e) (Changed e cs b a) (setBitAt a nr)
    fun _ d => Changed e cs b a d :=
  fun _ => ⟨[.flip nr], rfl, fun h hok => h.flip hok.1 fun _ => setBit_of_ne⟩

/-- `set_bit`, of a bit that is clear and may be cleared again. -/
theorem setBitAt_clear : Triple Dev.log (Harmless e)
    (fun d => (Coherent e d ∧ Changed e cs b a d) ∧ bit d.cacheData a nr = false) (setBitAt a nr)
    fun old d => (Changed e cs b a d ∧
      Coherent e { d with cacheData := (clearBit d.cacheData a nr).2 }) ∧ old = 0 := fun d => by
  refine ⟨[.flip nr], rfl, fun ⟨⟨hco, hch⟩, hclear⟩ hok => ⟨⟨?_, ?_⟩, ?_⟩⟩
  · exact hch.flip hok.1 fun _ => setBit_of_ne
  · have hback : (clearBit (setBit d.cacheData a nr).2 a nr).2 = d.cacheData :=
      clearBit_setBit hclear
    rw [show (setBitAt a nr d).2.cacheData = (setBit d.cacheData a nr).2 from rfl, hback]
    exact hco.flip nr
  · exact testBit_eq_zero_iff.mpr hclear

/-- `clear_bit`. -/
theorem clearBitAt_changed : Triple Dev.log (Harmless e)
    (fun d => Coherent e d ∧ Changed e cs b a d) (clearBitAt a nr) fun old d =>
      Changed e cs b a d ∧ (old = 0 → Coherent e d) := fun d => by
  refine ⟨[.flip nr], rfl, fun ⟨hco, hch⟩ ⟨hnr, _⟩ => ⟨hch.flip hnr fun x => clearBit_of_ne,
    fun hold => ?_⟩⟩
  change Coherent e { d with cacheData := (clearBit d.cacheData a nr).2, log := _ }
  rw [clearBit_of_clear (testBit_eq_zero_iff.mp hold)]
  exact hco.flip nr

/-- The common part of `tfs_free_block` and `tfs_free_inode`. -/
theorem keeps_clear : Triple Dev.log (Harmless e)
    (fun d => Coherent e d ∧ EntryOf e cs b d)
    (do
      let bitmap ← dataPtr cs
      if (← clearBitAt bitmap nr) = 0 then pure 0 else tfsBwrite e e.sbi b bitmap : DevM ℤ)
    fun _ d => Coherent e d := by
  refine dataPtr_coherent.bind fun bitmap => ?_
  refine (clearBitAt_changed.conseq (fun _ h => ⟨h.1, h.2.2⟩) fun _ _ h => h).bind fun old => ?_
  refine .ite (fun h => .pure fun _ hd => hd.2 h) fun _ => ?_
  exact tfsBwrite_coherent.conseq (fun _ h => h.1) fun _ _ h => h

theorem keeps_tfsFreeBlock (hm : Mounted e.sbi) (block : ℕ) : Keeps e (tfsFreeBlock e block) :=
  request_bind hm (Keeps.pure _) fun _ => keeps_clear

theorem keeps_tfsFreeInode (hm : Mounted e.sbi) (inr : ℤ) : Keeps e (tfsFreeInode e inr) :=
  request_bind hm (Keeps.pure _) fun _ => keeps_clear

theorem findTarget_triple (taken : Bool) (bitmap target : ℕ) :
    Triple Dev.log (Harmless e) P (findTarget e taken bitmap target) fun r d => P d ∧
      r = if taken then findFirstZero d.cacheData bitmap e.sbi.sBlockSize else target :=
  .ite (fun h => (readMem_triple _).conseq (fun _ h => h) fun _ _ hd =>
    ⟨hd.1, by rw [if_pos h, hd.2]⟩)
    fun h => .pure fun _ hd => ⟨hd, by rw [if_neg h]⟩

theorem keeps_tfsAllocBlock (hm : Mounted e.sbi) (target : ℕ) :
    Keeps e (tfsAllocBlock e target) := by
  refine request_bind hm (Keeps.pure _) fun cs => ?_
  refine dataPtr_coherent.bind fun bitmap => ?_
  refine (readMem_triple _).bind fun taken => ?_
  refine (findTarget_triple taken bitmap target).bind fun block => ?_
  refine .ite (fun _ => ?_) fun _ => .pure fun _ h => h.1.1.1
  refine (setBitAt_changed.conseq (fun _ h => h.1.1.2.2) fun _ _ h => h).bind fun _ => ?_
  refine tfsBwrite_coherent.bind fun res => ?_
  exact .ite (fun _ => Keeps.pure _) fun _ => Keeps.pure _

/-- The search for a clear bit of a bitmap block. -/
theorem findFirstZero_block (hm : Mounted e.sbi) (m : ℕ → UInt8) (a : ℕ) :
    FirstClear m a 0 (8 * e.sbi.sBlockSize) (findFirstZero m a e.sbi.sBlockSize) := by
  have := hm.size_le
  have := hm.dvd_size
  exact findFirstZero_spec m a (by omega) (by omega)

/-- The bit that `tfs_alloc_inode` settles on is clear. -/
theorem bit_of_findTarget (hm : Mounted e.sbi) {m : ℕ → UInt8} {r : ℕ}
    (hr : r = if decide (testBit m a 0 = 1) then findFirstZero m a e.sbi.sBlockSize else 0)
    (h : 0 ≤ toS32 r) : bit m a (toU32 (toS32 r)) = false := by
  by_cases htaken : testBit m a 0 = 1
  · rw [if_pos (decide_eq_true htaken)] at hr
    subst hr
    rcases findFirstZero_block hm m a with ⟨hnone, -⟩ | ⟨-, hlt, hclear, -⟩
    · rw [hnone] at h
      exact absurd h (by decide)
    · have := hm.size_le
      generalize findFirstZero m a e.sbi.sBlockSize = r at h hlt hclear ⊢
      have hS : toS32 r = r := if_pos (by omega)
      have hU : toU32 r = r := by rw [toU32]; omega
      rw [hS, hU]
      exact hclear
  · rw [if_neg (by simpa using htaken)] at hr
    subst hr
    -- the masked byte is 0 or 1
    change bit m a 0 = false
    cases hb : bit m a 0 with
    | false => rfl
    | true =>
      rw [bit] at hb
      rw [testBit, UInt8.toNat_and, toNat_bitMask, Nat.two_pow_and, hb] at htaken
      exact absurd rfl htaken

theorem keeps_tfsAllocInode (hm : Mounted e.sbi) : Keeps e (tfsAllocInode e TFS_ROOT_INODE) := by
  refine .ite (fun _ => Keeps.pure _) fun _ => ?_
  refine request_bind hm (Keeps.pure _) fun cs => ?_
  refine dataPtr_coherent.bind fun bitmap => ?_
  refine (readMem_triple _).bind fun taken => ?_
  refine (findTarget_triple taken bitmap _).bind fun r => ?_
  refine .ite (fun hr => ?_) fun _ => .pure fun _ h => h.1.1.1
  -- the bit is clear, so that the change is taken back when the write fails
  have hclear : ∀ d : Dev, (taken = decide (testBit d.cacheData bitmap (toU32 (1 - 1)) = 1)) →
      (r = if taken then findFirstZero d.cacheData bitmap e.sbi.sBlockSize
        else toU32 (1 - 1)) → bit d.cacheData bitmap (toU32 (toS32 r)) = false :=
    fun d h1 h2 => bit_of_findTarget hm (by rw [h2, h1]; rfl) hr
  refine (setBitAt_clear.conseq (fun d h => ⟨⟨h.1.1.1, h.1.1.2.2⟩, hclear d h.1.2 h.2⟩)
    fun _ _ h => h).bind fun old => ?_
  refine ((tfsBwriteTagged_changed (g := fun m => (clearBit m bitmap _).2) _).frame.conseq
    (fun _ h => ⟨⟨h.1.1, fun _ => h.1.2⟩, h.2⟩)
    fun _ _ h => h).bind fun err => ?_
  refine .ite (fun herr => ?_) fun herr => .pure fun _ h => h.1.1 (.inl (not_not.mp herr))
  refine Triple.bind (Q := fun _ d => Coherent e d) (fun d => ?_) fun _ => Keeps.pure _
  exact ⟨[.flip _], rfl, fun h _ => (h.1.2 herr (decide_eq_true h.2)).flip _⟩

/-! ### The inode table -/

/-- A buffer is changed at some place and written. -/
theorem copy_and_write {at_ count : ℕ} {src : Buf} : Triple Dev.log (Harmless e)
    (fun d => Changed e cs b a d ∧ a ≤ at_ ∧ at_ + count ≤ a + e.sbi.sBlockSize)
    (do copyIn at_ count src; tfsBwrite e e.sbi b a) fun _ d => Coherent e d :=
  copyIn_changed.bind fun _ => tfsBwrite_coherent

theorem keeps_tfsReadInode (hm : Mounted e.sbi) (inr : ℤ) : Keeps e (tfsReadInode e inr) := by
  refine request_bind hm keeps_wildBytes fun cs => ?_
  refine dataPtr_coherent.bind fun data => ?_
  refine .ite (fun _ => keeps_wildBytes.conseq (fun _ h => h.1) fun _ _ h => h) fun _ => ?_
  exact (readMem_triple _).conseq (fun _ h => h) fun _ _ h => h.1.1

theorem storeRecord_coherent (hm : Mounted e.sbi) {inode : Inode} {k : ℕ}
    (hk : k < e.sbi.sInodesPerBlock) :
    Triple Dev.log (Harmless e) (fun d => Coherent e d ∧ EntryOf e cs b d)
      (storeRecord e inode b k cs) fun _ d => Coherent e d := by
  refine dataPtr_coherent.bind fun data => (readMem_triple _).bind fun tinode => ?_
  refine copy_and_write.conseq (fun _ h => ⟨h.1.2.2, Nat.le_add_right _ _, ?_⟩) fun _ _ h => h
  have := Nat.mul_le_mul_right sizeofTfsInode (Nat.succ_le_of_lt hk)
  rw [hm.records, Nat.succ_mul] at this
  omega

theorem Mounted.inodesPerBlock_pos {sbi : TfsSbInfo} (h : Mounted sbi) :
    0 < sbi.sInodesPerBlock := by
  have h1 := h.records
  have h2 := h.size_pos
  refine Nat.pos_of_ne_zero fun h0 => ?_
  rw [h0, Nat.zero_mul] at h1
  omega

theorem keeps_tfsIwrite (hm : Mounted e.sbi) (inode : Inode) : Keeps e (tfsIwrite e inode) :=
  request_bind hm (Keeps.pure _) fun _ =>
    storeRecord_coherent hm (Nat.mod_lt _ hm.inodesPerBlock_pos)

/-! ### Directories -/

/-- The entry found is in a block. -/
theorem findInBlock_mem {name : List UInt8} {m : ℕ → UInt8} {n de x : ℕ}
    (h : findInBlock name m n de = some x) :
    de ≤ x ∧ x + sizeofDirEntry ≤ de + n * sizeofDirEntry := by
  induction n generalizing de with
  | zero => cases h
  | succ n ih =>
    rw [Nat.succ_mul]
    rw [findInBlock] at h
    split at h
    · have := ih h
      omega
    · split at h
      · obtain rfl := Option.some.inj h
        omega
      · have := ih h
        omega

theorem freeInBlock_mem {m : ℕ → UInt8} {n de x : ℕ} (h : freeInBlock m n de = some x) :
    de ≤ x ∧ x + sizeofDirEntry ≤ de + n * sizeofDirEntry := by
  induction n generalizing de with
  | zero => cases h
  | succ n ih =>
    rw [Nat.succ_mul]
    rw [freeInBlock] at h
    split at h
    · obtain rfl := Option.some.inj h
      omega
    · have := ih h
      omega

/-- The address is that of a directory entry in the buffer of a cache entry. -/
def InBuffer (e : Env) (cs : CacheRef) (de : ℕ) : Prop :=
  ∃ i < numEntries e.sbi.sBlockShift, cs = .entry i ∧ i * e.sbi.sBlockSize ≤ de ∧
    de + sizeofDirEntry ≤ i * e.sbi.sBlockSize + e.sbi.sBlockSize

theorem findEntryLoop_triple (hm : Mounted e.sbi) (dname : List UInt8) (blocks : List ℕ) :
    Triple Dev.log (Harmless e) (Coherent e) (findEntryLoop e dname blocks) fun r d =>
      Coherent e d ∧ ∀ cs de, r = .found cs de → InBuffer e cs de := by
  induction blocks with
  | nil => exact .pure fun _ h => ⟨h, fun _ _ h => by cases h⟩
  | cons block rest ih =>
    refine request_bind hm (.pure fun _ h => ⟨h, fun _ _ h => by cases h⟩) fun cs => ?_
    refine dataPtr_coherent.bind fun data => (readMem_triple _).bind fun r => ?_
    cases r with
    | some de =>
      refine .pure fun d h => ⟨h.1.1, fun cs' de' heq => ?_⟩
      obtain ⟨rfl, rfl⟩ := Lookup.found.inj heq
      obtain ⟨i, hi, hcs, ha, -, -⟩ := h.1.2.2
      have hmem := findInBlock_mem h.2.symm
      rw [hm.slots, ha] at hmem
      exact ⟨i, hi, hcs, hmem.1, hmem.2⟩
    | none =>
      refine .ite (fun _ => .pure fun _ h => ⟨h.1.1, fun _ _ h => by cases h⟩) fun _ => ?_
      exact ih.conseq (fun _ h => h.1.1) fun _ _ h => h

theorem tfsFindEntry_triple (hm : Mounted e.sbi) (inode : Inode) (dname : List UInt8) :
    Triple Dev.log (Harmless e) (Coherent e) (tfsFindEntry e inode dname) fun r d =>
      Coherent e d ∧ ∀ cs de, r = .found cs de → InBuffer e cs de :=
  .ite (fun _ => .pure fun _ h => ⟨h, fun _ _ h => by cases h⟩) fun _ =>
    Triple.bind (keeps_dataWords inode) fun _ => findEntryLoop_triple hm dname _

theorem addEntryLoop_triple (hm : Mounted e.sbi) (blocks : List ℕ) (index : ℕ) :
    Triple Dev.log (Harmless e) (Coherent e) (addEntryLoop e blocks index) fun r d =>
      Coherent e d ∧ ∀ b cs de, r = .slot b cs de →
        ∃ a, Changed e cs b a d ∧ a ≤ de ∧ de + sizeofDirEntry ≤ a + e.sbi.sBlockSize := by
  induction blocks generalizing index with
  | nil => exact .pure fun _ h => ⟨h, fun _ _ _ h => by cases h⟩
  | cons block rest ih =>
    refine request_bind hm (.pure fun _ h => ⟨h, fun _ _ _ h => by cases h⟩) fun cs => ?_
    refine dataPtr_coherent.bind fun data => (readMem_triple _).bind fun r => ?_
    cases r with
    | some de =>
      refine .pure fun d h => ⟨h.1.1, fun b' cs' de' heq => ?_⟩
      obtain ⟨rfl, rfl, rfl⟩ := Place.slot.inj heq
      have hmem := freeInBlock_mem h.2.symm
      rw [hm.slots] at hmem
      exact ⟨data, h.1.2.2, hmem⟩
    | none =>
      refine .ite (fun _ => .pure fun _ h => ⟨h.1.1, fun _ _ _ h => by cases h⟩) fun _ => ?_
      exact (ih _).conseq (fun _ h => h.1.1) fun _ _ h => h

theorem findPlace_triple (hm : Mounted e.sbi) (dir : Inode) :
    Triple Dev.log (Harmless e) (Coherent e) (findPlace e dir) fun r d =>
      Coherent e d ∧ ∀ b cs de, r = .slot b cs de →
        ∃ a, Changed e cs b a d ∧ a ≤ de ∧ de + sizeofDirEntry ≤ a + e.sbi.sBlockSize :=
  .ite (fun _ => .pure fun _ h => ⟨h, fun _ _ _ h => by cases h⟩) fun _ =>
    Triple.bind (keeps_dataWords dir) fun _ => addEntryLoop_triple hm _ _

theorem putEntry_coherent {dir : Inode} {name : List UInt8} {inr : ℤ} {de : ℕ} :
    Triple Dev.log (Harmless e)
      (fun d => ∃ a, Changed e cs b a d ∧ a ≤ de ∧ de + sizeofDirEntry ≤ a + e.sbi.sBlockSize)
      (putEntry e dir name inr b cs de) fun _ d => Coherent e d := by
  refine .exists fun a => ?_
  refine copyIn_changed.bind fun _ => dataPtr_changed.bind fun _ =>
    tfsBwrite_coherent.bind fun _ => ?_
  exact .ite (fun _ => Keeps.pure _) fun _ => Keeps.pure _

theorem putFirstEntry_coherent (hm : Mounted e.sbi) {dir : Inode} {name : List UInt8} {inr : ℤ} :
    Triple Dev.log (Harmless e) (fun d => Coherent e d ∧ EntryOf e cs b d)
      (putFirstEntry e dir name inr b cs) fun _ d => Coherent e d := by
  have hsize : sizeofDirEntry ≤ e.sbi.sBlockSize := le_trans (by decide) hm.size_pos
  refine dataPtr_coherent.bind fun data => ?_
  refine (copyIn_changed.conseq (fun _ h => ⟨h.2.2, le_refl _, le_refl _⟩) fun _ _ h => h).bind
    fun _ => ?_
  exact putEntry_coherent.conseq (fun _ h => ⟨data, h, le_refl _, by omega⟩) fun _ _ h => h

theorem keeps_tfsAddEntry (hm : Mounted e.sbi) (dir : Inode) (name : List UInt8) (inr : ℤ)
    (dirty : Bool) : Keeps e (tfsAddEntry e dir name inr dirty) := by
  refine .ite (fun _ => Keeps.pure _) fun _ => ?_
  refine (findPlace_triple hm dir).bind fun place => ?_
  cases place with
  | fail => exact .pure fun _ h => h.1
  | slot b cs de => exact putEntry_coherent.conseq (fun _ h => h.2 b cs de rfl) fun _ _ h => h
  | full index =>
    refine ((keeps_tfsAllocBlock hm _).conseq (fun _ h => h.1) fun _ _ h => h).bind fun block => ?_
    refine .ite (fun _ => Keeps.pure _) fun _ => ?_
    exact request_bind hm (Keeps.pure _) fun cs => putFirstEntry_coherent hm

theorem keeps_tfsReaddir (hm : Mounted e.sbi) (inode : Inode) (offset : ℕ) :
    Keeps e (tfsReaddir e inode offset) := by
  unfold tfsReaddir
  generalize TFS_N_BLOCKS * entriesPerBlock e + 1 = fuel
  induction fuel generalizing offset with
  | zero => exact Keeps.pure _
  | succ fuel ih =>
    refine .ite (fun _ => Keeps.pure _) fun _ => ?_
    refine Keeps.bind (request_bind hm keeps_wildBytes fun cs => keeps_read) fun de => ?_
    refine keeps_mallocOk.bind fun ok => ?_
    refine .ite (fun _ => Keeps.pure _) fun _ => ?_
    exact .ite (fun _ => ih _) fun _ => Keeps.pure _

/-! ### Files -/

theorem keeps_tfsRead (hm : Mounted e.sbi) (inode : Inode) (offset : ℕ) (buf : ℕ → UInt8)
    (blocks : ℤ) : Keeps e (tfsRead e inode offset buf blocks) := by
  refine .ite (fun _ => Keeps.pure _) fun _ => .ite (fun _ => Keeps.pure _) fun _ => ?_
  generalize toU32 blocks = n
  generalize offset >>> e.sbi.sBlockShift = index
  generalize 0 = bytesRead
  induction n generalizing index bytesRead buf with
  | zero => exact Keeps.pure _
  | succ n ih =>
    refine .ite (fun _ => Keeps.pure _) fun _ => ?_
    refine request_bind hm (Keeps.pure _) fun cs => ?_
    refine dataPtr_coherent.bind fun data => (readMem_triple _).bind fun bytes => ?_
    exact (ih _ _ _).conseq (fun _ h => h.1.1) fun _ _ h => h

theorem keeps_blockForWrite (hm : Mounted e.sbi) (inode : Inode) (index : ℕ) :
    Keeps e (blockForWrite e inode index) := by
  refine .ite (fun _ => Keeps.pure _) fun _ => .ite (fun _ => ?_) fun _ => Keeps.pure _
  refine (keeps_tfsAllocBlock hm _).bind fun block => ?_
  exact .ite (fun _ => Keeps.pure _) fun _ => Keeps.pure _

theorem copyAndWrite_coherent {off count : ℕ} {buf : Buf} (h : off + count ≤ e.sbi.sBlockSize) :
    Triple Dev.log (Harmless e) (fun d => Coherent e d ∧ EntryOf e cs b d)
      (copyAndWrite e b cs off count buf) fun _ d => Coherent e d := by
  refine dataPtr_coherent.bind fun data => ?_
  exact copy_and_write.conseq (fun _ h => ⟨h.2.2, Nat.le_add_right _ _, by omega⟩) fun _ _ h => h

theorem keeps_tfsWriteLoop (hm : Mounted e.sbi) {offset : ℕ} {buf : Buf} (blocks index bytes : ℕ)
    (inode : Inode) : Keeps e (tfsWriteLoop e offset buf blocks index bytes inode) := by
  induction blocks generalizing index bytes inode with
  | zero =>
    refine (keeps_tfsIwrite hm inode).bind fun r => ?_
    exact .ite (fun _ => Keeps.pure _) fun _ => Keeps.pure _
  | succ blocks ih =>
    refine (keeps_blockForWrite hm inode index).bind fun ⟨block, inode⟩ => ?_
    cases block with
    | error err => exact Keeps.pure _
    | ok block =>
      refine request_bind hm (Keeps.pure _) fun cs => ?_
      refine (copyAndWrite_coherent (by omega)).bind fun res => ?_
      exact .ite (fun _ => Keeps.pure _) fun _ => ih _ _ _

theorem keeps_tfsWrite (hm : Mounted e.sbi) (inode : Inode) (offset : ℕ) (buf : ℕ → UInt8)
    (blocks : ℤ) : Keeps e (tfsWrite e inode offset buf blocks) := by
  have hoff : offset &&& (e.sbi.sBlockSize - 1) ≤ e.sbi.sBlockSize - 1 := Nat.and_le_right
  have := hm.size_pos
  refine .ite (fun _ => Keeps.pure _) fun _ => ?_
  refine (keeps_blockForWrite hm inode _).bind fun ⟨block, inode⟩ => ?_
  cases block with
  | error err => exact Keeps.pure _
  | ok block =>
    refine request_bind hm (Keeps.pure _) fun cs => ?_
    refine (copyAndWrite_coherent (by omega)).bind fun res => ?_
    exact .ite (fun _ => Keeps.pure _) fun _ => keeps_tfsWriteLoop hm _ _ _ _

end Thunix.Fs
