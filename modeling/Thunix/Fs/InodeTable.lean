import Thunix.Fs.ListDir

/-!
# The inode table

`tfs_iwrite` changes one record of 64 bytes of one block of the inode table
(`Thunix.Fs.storeRecord_edited`), and `tfs_iget_by_inr` makes of the record what was
written (`Thunix.Fs.igetValue_tfsWriteInode`). The two find the record by different
arithmetic, one unsigned and one signed, which agree as long as the numbers of the
inodes do not exceed an `int` (`Thunix.Fs.tfsIwrite_tfsIgetByInr`).
-/

namespace Thunix.Fs

variable {e : Env} {S : Set ℕ} {v : ℕ → Buf} {d : Dev} {inode : Inode} {i b n : ℕ} {os : List ℕ}

/-! ### Records -/

/-- The fields of an inode are words of 32 bits. -/
structure Inode.Words (inode : Inode) : Prop where
  size : inode.iSize < 2 ^ 32
  ino : inode.iIno < 2 ^ 32
  atime : inode.iAtime < 2 ^ 32
  mtime : inode.iMtime < 2 ^ 32
  ctime : inode.iCtime < 2 ^ 32
  dtime : inode.iDtime < 2 ^ 32
  flags : inode.iFlags < 2 ^ 32
  data : ∀ k, inode.iData.getD k 0 < 2 ^ 32

theorem byteOf_toNat (n k : ℕ) : (byteOf n k).toNat = n / 2 ^ (8 * k) % 2 ^ 8 := by
  rw [byteOf, UInt8.toNat_ofNat', Nat.shiftRight_eq_div_pow]

/-- A word that has been stored byte by byte. -/
theorem le32_byteOf {m : ℕ → UInt8} {a n : ℕ} (hn : n < 2 ^ 32)
    (h : ∀ k < 4, m (a + k) = byteOf n k) : le32 m a = n := by
  have h0 := h 0 (by decide)
  rw [Nat.add_zero] at h0
  rw [le32, h0, h 1 (by decide), h 2 (by decide), h 3 (by decide)]
  simp only [byteOf_toNat]
  omega

theorem le16_byteOf {m : ℕ → UInt8} {a n : ℕ} (hn : n < 2 ^ 16)
    (h : ∀ k < 2, m (a + k) = byteOf n k) : le16 m a = n := by
  have h0 := h 0 (by decide)
  rw [Nat.add_zero] at h0
  rw [le16, h0, h 1 (by decide)]
  simp only [byteOf_toNat]
  omega

/-- The words of a record that has been written. -/
theorem le32_tfsWriteInode {old tinode : ℕ → UInt8}
    (h : ∀ x < sizeofTfsInode, tinode x = tfsWriteInode old inode x) {w : ℕ} (h1 : 1 ≤ w)
    (hw : w < 16) (hword : tinodeWord inode w < 2 ^ 32) :
    le32 tinode (4 * w) = tinodeWord inode w := by
  refine le32_byteOf hword fun k hk => ?_
  rw [h _ (by rw [sizeofTfsInode]; omega), tfsWriteInode, if_neg (by omega), if_neg (by omega),
    show (4 * w + k) / 4 = w by omega, show (4 * w + k) % 4 = k by omega]

theorem tinodeWord_data {k : ℕ} (hk : k < TFS_N_BLOCKS) :
    tinodeWord inode (6 + k) = inode.iData.getD k 0 := by
  rw [TFS_N_BLOCKS] at hk
  rw [tinodeWord, Nat.add_sub_cancel_left] <;> omega

/-- **What is read of a record that has been written**: the inode, its mode cut to 16
bits. -/
theorem igetValue_tfsWriteInode (hwords : inode.Words) {old tinode : ℕ → UInt8}
    (h : ∀ x < sizeofTfsInode, tinode x = tfsWriteInode old inode x) :
    igetValue e inode.iIno tinode =
      { inode with iMode := inode.iMode % 2 ^ 16, iBlksize := 1 <<< e.sbi.sBlockShift } := by
  have hmode : (le16 tinode 0 : ℤ) = inode.iMode % 2 ^ 16 := by
    have hlt : (inode.iMode % 2 ^ 16).toNat < 2 ^ 16 := by omega
    have := le16_byteOf (m := tinode) (a := 0) hlt fun k hk => by
      rw [Nat.zero_add, h k (by rw [sizeofTfsInode]; omega), tfsWriteInode, if_pos hk]
    omega
  have hdata : (List.range TFS_N_BLOCKS).map (fun k => le32 tinode (24 + 4 * k)) = inode.iData := by
    refine List.ext_getElem (by simp [inode.iData_length]) fun k hk hk' => ?_
    have hlt : k < TFS_N_BLOCKS := by rwa [inode.iData_length] at hk'
    have hword := le32_tfsWriteInode h (w := 6 + k) (by omega) (by rw [TFS_N_BLOCKS] at hlt; omega)
      (by rw [tinodeWord_data hlt]; exact hwords.data k)
    rw [List.getElem_map, List.getElem_range, show 24 + 4 * k = 4 * (6 + k) by omega, hword,
      tinodeWord_data hlt, List.getD_eq_getElem _ _ hk']
  have hino : toU32 inode.iIno = inode.iIno := by
    have := hwords.ino
    rw [toU32]
    omega
  have hsize := le32_tfsWriteInode h (w := 1) (by decide) (by decide) hwords.size
  have hatime := le32_tfsWriteInode h (w := 2) (by decide) (by decide) hwords.atime
  have hctime := le32_tfsWriteInode h (w := 3) (by decide) (by decide) hwords.ctime
  have hmtime := le32_tfsWriteInode h (w := 4) (by decide) (by decide) hwords.mtime
  have hdtime := le32_tfsWriteInode h (w := 5) (by decide) (by decide) hwords.dtime
  have hflags := le32_tfsWriteInode h (w := 14) (by decide) (by decide) hwords.flags
  unfold igetValue tfsFillInode
  simp only [hmode, hdata, hino]
  exact Inode.mk.injEq .. ▸ ⟨rfl, hsize, rfl, hatime, hmtime, hctime, hdtime, rfl, hflags, rfl⟩

/-! ### The words of `i_data` -/

theorem getD_setData {k : ℕ} {index : ℕ} (hindex : index < TFS_N_BLOCKS) :
    (inode.setData index b).iData.getD k 0 = if k = index then b else inode.iData.getD k 0 := by
  have hlen : index < inode.iData.length := by rw [inode.iData_length]; exact hindex
  change (inode.iData.set index b).getD k 0 = _
  by_cases hk : k = index
  · rw [if_pos hk, hk, List.getD_eq_getElem _ _ (by rw [List.length_set]; exact hlen),
      List.getElem_set_self]
  · rw [if_neg hk, List.getD_eq_getElem?_getD, List.getElem?_set_ne (Ne.symm hk),
      List.getD_eq_getElem?_getD]

theorem getD_of_le {k : ℕ} (hk : TFS_N_BLOCKS ≤ k) : inode.iData.getD k 0 = 0 :=
  List.getD_eq_default _ _ (by rw [inode.iData_length]; exact hk)

/-! ### Writing -/

/-- A block of the table, with a record of it written. -/
def withRecord (f : Buf) (place : ℕ) (inode : Inode) : Buf :=
  blit f place sizeofTfsInode (tfsWriteInode (fun x => f (place + x)) inode)

theorem withRecord_of_lt {f : Buf} {place x : ℕ} (hx : x < sizeofTfsInode) :
    withRecord f place inode (place + x) = tfsWriteInode (fun x => f (place + x)) inode x := by
  rw [withRecord, blit_of_mem (by omega), Nat.add_sub_cancel_left]

theorem withRecord_of_apart {f : Buf} {place x : ℕ}
    (hx : x < place ∨ place + sizeofTfsInode ≤ x) : withRecord f place inode x = f x := by
  rw [withRecord, blit_of_not_mem (by omega)]

theorem tfsWriteInode_congr {old old' : ℕ → UInt8} {x : ℕ} (h : old x = old' x) :
    tfsWriteInode old inode x = tfsWriteInode old' inode x := by
  rw [tfsWriteInode, tfsWriteInode, h]

theorem Edited.congr {f f' : Buf} (h : Edited e S v i b f d)
    (hf : Agree e.sbi.sBlockSize f f') : Edited e S v i b f' d :=
  ⟨h.lt, h.label, h.data, h.unique, h.others, fun k hk => (h.buffer k hk).trans (hf k hk), h.disk⟩

/-- **The end of `tfs_iwrite`**, with the block of the record in an entry. -/
theorem storeRecord_edited (hs : Sized e.sbi) (hq : Quiet e) (hap : Apart e S) (hb : b ∈ S)
    {k : ℕ} (hk : (k + 1) * sizeofTfsInode ≤ e.sbi.sBlockSize) (h : Edited e S v i b (v b) d) :
    ∃ d', storeRecord e inode b k (.entry i) d = (0, d') ∧ d'.cache = d.cache ∧
      d'.cacheEntries = d.cacheEntries ∧
      Contents e S (Function.update v b (withRecord (v b) (k * sizeofTfsInode) inode)) d' := by
  have hfit : k * sizeofTfsInode + sizeofTfsInode ≤ e.sbi.sBlockSize := by
    rwa [← Nat.succ_mul]
  have hdata : d.dataOf i = i * e.sbi.sBlockSize := h.data i h.lt
  have hedit : Edited e S v i b (withRecord (v b) (k * sizeofTfsInode) inode)
      (d.copyIn (i * e.sbi.sBlockSize + k * sizeofTfsInode) sizeofTfsInode (tfsWriteInode (fun x =>
        d.cacheData (i * e.sbi.sBlockSize + k * sizeofTfsInode + x)) inode)) := by
    refine (h.copyIn hfit _).congr fun x hx => ?_
    by_cases hin : k * sizeofTfsInode ≤ x ∧ x < k * sizeofTfsInode + sizeofTfsInode
    · rw [withRecord, blit_of_mem hin, blit_of_mem hin]
      refine tfsWriteInode_congr ?_
      rw [Nat.add_assoc]
      exact h.buffer _ (by omega)
    · rw [withRecord, blit_of_not_mem hin, blit_of_not_mem hin]
  obtain ⟨d', hrun, hcache, hentries, hcont⟩ := hedit.written hs hq hap hb false
  refine ⟨d', ?_, hcache, hentries, hcont⟩
  rw [← hdata] at hrun
  exact hrun

/-- The block of the record of an inode. -/
def recordBlock (sbi : TfsSbInfo) (n : ℕ) : ℕ := sbi.sInodeTable + (n - 1) / sbi.sInodesPerBlock

/-- Where it is in the block. -/
def recordPlace (sbi : TfsSbInfo) (n : ℕ) : ℕ := (n - 1) % sbi.sInodesPerBlock * sizeofTfsInode

/-- The records of a block fill it. -/
structure Records (sbi : TfsSbInfo) : Prop where
  sized : Sized sbi
  perBlock : sbi.sInodesPerBlock = sbi.sBlockSize / sizeofTfsInode

theorem Mounted.toRecords {sbi : TfsSbInfo} (h : Mounted sbi) : Records sbi := ⟨h.sized, h.perBlock⟩

theorem Records.pos {sbi : TfsSbInfo} (h : Records sbi) : 0 < sbi.sInodesPerBlock := by
  have h1 := h.sized.sectors
  have h2 := h.sized.size_pos
  rw [h.perBlock, sizeofTfsInode]
  omega

theorem Records.place_le {sbi : TfsSbInfo} (h : Records sbi) (n : ℕ) :
    ((n - 1) % sbi.sInodesPerBlock + 1) * sizeofTfsInode ≤ sbi.sBlockSize := by
  have h1 := h.sized.sectors
  have h2 := Nat.mod_lt (n - 1) h.pos
  rw [h.perBlock, sizeofTfsInode] at h2 ⊢
  omega

/-- **Two records have no byte in common.** -/
theorem record_apart {sbi : TfsSbInfo} {n n' : ℕ} (hn : 1 ≤ n) (hn' : 1 ≤ n') (hne : n ≠ n')
    (hblock : recordBlock sbi n = recordBlock sbi n') :
    recordPlace sbi n + sizeofTfsInode ≤ recordPlace sbi n' ∨
      recordPlace sbi n' + sizeofTfsInode ≤ recordPlace sbi n := by
  rw [recordBlock, recordBlock, Nat.add_left_cancel_iff] at hblock
  have h1 := Nat.div_add_mod (n - 1) sbi.sInodesPerBlock
  have h2 := Nat.div_add_mod (n' - 1) sbi.sInodesPerBlock
  rw [hblock] at h1
  rw [recordPlace, recordPlace]
  rcases Nat.lt_or_gt_of_ne (show (n - 1) % sbi.sInodesPerBlock ≠ (n' - 1) % sbi.sInodesPerBlock
    by omega) with hlt | hlt
  · have := Nat.mul_le_mul_right sizeofTfsInode (Nat.succ_le_of_lt hlt)
    rw [Nat.succ_mul] at this
    exact .inl this
  · have := Nat.mul_le_mul_right sizeofTfsInode (Nat.succ_le_of_lt hlt)
    rw [Nat.succ_mul] at this
    exact .inr this

/-- The contents of the table after `tfs_iwrite`. -/
def iwritten (e : Env) (v : ℕ → Buf) (inode : Inode) : ℕ → Buf :=
  Function.update v (recordBlock e.sbi inode.iIno)
    (withRecord (v (recordBlock e.sbi inode.iIno)) (recordPlace e.sbi inode.iIno) inode)

/-- **Every other record stays as it is.** -/
theorem iwritten_other {n x : ℕ} (hino : 1 ≤ inode.iIno) (hn : 1 ≤ n) (hne : n ≠ inode.iIno)
    (hx : x < sizeofTfsInode) :
    iwritten e v inode (recordBlock e.sbi n) (recordPlace e.sbi n + x) =
      v (recordBlock e.sbi n) (recordPlace e.sbi n + x) := by
  rw [iwritten]
  by_cases hblock : recordBlock e.sbi n = recordBlock e.sbi inode.iIno
  · rw [hblock, Function.update_self]
    refine withRecord_of_apart ?_
    rcases record_apart hn hino hne hblock with h | h <;> omega
  · rw [Function.update_of_ne hblock]

/-- The numbers of `tfs_iwrite`. -/
theorem toU32_pred {n : ℕ} (h1 : 1 ≤ n) (hn : n < 2 ^ 32) : toU32 ((n : ℤ) - 1) = n - 1 := by
  rw [toU32]
  omega

/-- **`tfs_iwrite`**: the entry used holds the block afterwards and is the most recently
used one. -/
theorem tfsIwrite_contents (hr : Records e.sbi) (hq : Quiet e) (hap : Apart e S)
    (hino : 1 ≤ inode.iIno) (hlt : inode.iIno < 2 ^ 32)
    (hb32 : recordBlock e.sbi inode.iIno < 2 ^ 32)
    (hb : recordBlock e.sbi inode.iIno ∈ S) (hos : Shaped e os d) (h : Contents e S v d) :
    ∃ i d', tfsIwrite e inode d = (0, d') ∧ Contents e S (iwritten e v inode) d' ∧
      i < numEntries e.sbi.sBlockShift ∧ d'.label i = recordBlock e.sbi inode.iIno ∧
      (d'.cache .head).prev = .entry i ∧
      (∀ d'', (getCacheBlock e e.sbi (recordBlock e.sbi inode.iIno) d).2 = d'' →
        d'.cache = d''.cache ∧ d'.cacheEntries = d''.cacheEntries) := by
  obtain ⟨i, d₁, hget, hcont, hi, hlab, hprev⟩ :=
    h.request hr.sized hq hos (recordBlock e.sbi inode.iIno)
  have hedit := hcont.edited hi hlab hb
  obtain ⟨d', hrun, hcache, hentries, hcont'⟩ :
      ∃ d', storeRecord e inode (recordBlock e.sbi inode.iIno)
          ((inode.iIno - 1) % e.sbi.sInodesPerBlock) (.entry i) d₁ = (0, d') ∧
        d'.cache = d₁.cache ∧ d'.cacheEntries = d₁.cacheEntries ∧
        Contents e S (iwritten e v inode) d' :=
    storeRecord_edited hr.sized hq hap hb (hr.place_le inode.iIno) hedit
  refine ⟨i, d', ?_, hcont', hi, ?_, ?_, ?_⟩
  · have hblock : (e.sbi.sInodeTable + (inode.iIno - 1) / e.sbi.sInodesPerBlock) % 2 ^ 32 =
        recordBlock e.sbi inode.iIno := Nat.mod_eq_of_lt hb32
    unfold tfsIwrite
    simp only [toU32_pred hino hlt, hblock, DevM.bind_apply, hget]
    exact hrun
  · rw [Dev.label, hcache]
    exact hlab
  · rw [hcache]
    exact hprev
  · rw [hget]
    rintro d'' rfl
    exact ⟨hcache, hentries⟩

/-- **`tfs_iwrite`**, with the cache in order. -/
theorem tfsIwrite_vol (hm : Mounted e.sbi) (hq : Quiet e) (hap : Apart e S) (hino : 1 ≤ inode.iIno)
    (hlt : inode.iIno < 2 ^ 32) (hb32 : recordBlock e.sbi inode.iIno < 2 ^ 32)
    (hb : recordBlock e.sbi inode.iIno ∈ S) :
    Hoare (Vol e S v) (tfsIwrite e inode) fun r d => r = 0 ∧ Vol e S (iwritten e v inode) d :=
  fun d ⟨⟨os, hos⟩, h⟩ => by
  obtain ⟨i, d', hrun, hcont, -, -, -, hcache⟩ :=
    tfsIwrite_contents hm.toRecords hq hap hino hlt hb32 hb hos h
  obtain ⟨os', hos'⟩ := hos.request_shape hm e.sbi (recordBlock e.sbi inode.iIno)
  obtain ⟨hc, hn⟩ := hcache _ rfl
  rw [hrun]
  exact ⟨rfl, ⟨os', hos'.congr hc hn⟩, hcont⟩

/-! ### Reading it back -/

/-- The most recently used entry is found at once. -/
theorem getCacheBlock_fresh (sb : TfsSbInfo) (hprev : (d.cache .head).prev = .entry i)
    (hlab : d.label i = b) : getCacheBlock e sb b d = (some (.entry i), d) := by
  have hblock : (d.cache (.entry i)).block = b := hlab
  unfold getCacheBlock
  rw [hprev]
  exact if_pos hblock

/-- The signed arithmetic of the reader finds the same block and the same place. -/
theorem tfsReadInode_fresh (hn : 1 ≤ n) (hb32 : recordBlock e.sbi n < 2 ^ 32)
    (hprev : (d.cache .head).prev = .entry i) (hlab : d.label i = recordBlock e.sbi n) :
    tfsReadInode e n d =
      (fun x => d.cacheData (d.dataOf i + recordPlace e.sbi n + x), d) := by
  have hpred : (n : ℤ) - 1 = (n - 1 : ℕ) := by omega
  have hblock : toU32 (e.sbi.sInodeTable + ((n - 1 : ℕ) : ℤ).tdiv e.sbi.sInodesPerBlock) =
      recordBlock e.sbi n := by
    rw [← Int.ofNat_tdiv, toU32, recordBlock] at *
    omega
  unfold tfsReadInode
  simp only [hpred, hblock, DevM.bind_apply, getCacheBlock_fresh e.sbi hprev hlab,
    ← Int.ofNat_tmod]
  rfl

/-- `new_inode` takes memory twice. -/
theorem newInode_cases (mode : ℤ) (k : Kernel) :
    (∃ t, (newInode e mode k).2.dev = { k.dev with ticks := t }) ∧
    (((newInode e mode k).1 = none ∧ ∃ t, e.mallocOk t = false) ∨
      ∃ o, (newInode e mode k).1 = some o ∧ (newInode e mode k).2.alive o = true) := by
  unfold newInode
  cases h1 : e.mallocOk k.dev.ticks with
  | false =>
    simp only [KernelM.bind_apply, onDev, mallocOk, h1, Bool.not_false, reduceIte]
    exact ⟨⟨_, rfl⟩, .inl ⟨rfl, _, h1⟩⟩
  | true =>
    cases h2 : e.mallocOk (k.dev.ticks + 1) with
    | false =>
      simp only [KernelM.bind_apply, onDev, mallocOk, h1, Bool.not_true, Bool.not_false,
        Bool.false_eq_true, reduceIte, Dev.tick, h2]
      exact ⟨⟨_, rfl⟩, .inl ⟨rfl, _, h2⟩⟩
    | true =>
      simp only [KernelM.bind_apply, onDev, mallocOk, h1, Bool.not_true,
        Bool.false_eq_true, reduceIte, Dev.tick, h2]
      exact ⟨⟨_, rfl⟩, .inr ⟨_, rfl, Function.update_self _ _ _⟩⟩

/-- **What `tfs_iget_by_inr` makes of what it reads**, if there is memory for it. -/
theorem tfsIgetByInr_value {inr : ℤ} {tinode : Buf} {d : Dev} {k : Kernel}
    (hread : tfsReadInode e inr k.dev = (tinode, d)) :
    (∃ t, (tfsIgetByInr e inr k).2.dev = { d with ticks := t }) ∧
    (((tfsIgetByInr e inr k).1 = .error (-ENOMEM) ∧ ∃ t, e.mallocOk t = false) ∨
      ∃ o, (tfsIgetByInr e inr k).1 = .ok o ∧
        (tfsIgetByInr e inr k).2.objs o = igetValue e inr tinode) := by
  have hdev : onDev (tfsReadInode e inr) k = (tinode, { k with dev := d }) := by
    rw [onDev, hread]
  unfold tfsIgetByInr
  rw [KernelM.bind_apply, hdev]
  dsimp only
  rw [KernelM.bind_apply]
  obtain ⟨⟨t, ht⟩, ⟨hnone, hmalloc⟩ | ⟨o, hsome, halive⟩⟩ := newInode_cases (e := e) 0
    { k with dev := d }
  · rw [hnone]
    exact ⟨⟨t, ht⟩, .inl ⟨rfl, hmalloc⟩⟩
  · rw [hsome]
    dsimp only
    rw [KernelM.bind_apply, setInode, KernelM.bind_apply, touch, if_pos halive]
    exact ⟨⟨t, ht⟩, .inr ⟨o, rfl, Function.update_self _ _ _⟩⟩

/-! ### The round trip -/

/-- The blocks of the inode table. -/
def tableBlocks (sbi : TfsSbInfo) : Set ℕ :=
  {b | ∃ n, 1 ≤ n ∧ n ≤ sbi.sInodesCount ∧ recordBlock sbi n = b}

/-- The sectors of the inode table have numbers below `2 ^ 31`. -/
def TableFits (sbi : TfsSbInfo) : Prop :=
  (recordBlock sbi sbi.sInodesCount + 1) * sectorsPerBlock sbi + sbi.sOffset + TFS_FS_SECTOR ≤
    2 ^ 31

theorem TableFits.block (h : TableFits e.sbi) (hs : Sized e.sbi) (hb : b ∈ tableBlocks e.sbi) :
    b < 2 ^ 31 ∧ (b + 1) * sectorsPerBlock e.sbi + e.sbi.sOffset + TFS_FS_SECTOR ≤ 2 ^ 31 := by
  obtain ⟨n, -, hn, rfl⟩ := hb
  have hle : recordBlock e.sbi n ≤ recordBlock e.sbi e.sbi.sInodesCount :=
    Nat.add_le_add_left (Nat.div_le_div_right (by omega)) _
  have hmul := Nat.mul_le_mul_right (sectorsPerBlock e.sbi) (Nat.add_le_add_right hle 1)
  have hpos : 1 ≤ sectorsPerBlock e.sbi := by
    have h1 := hs.sectors
    have h2 := hs.size_pos
    omega
  have hself := Nat.mul_le_mul_left (recordBlock e.sbi n + 1) hpos
  rw [TableFits] at h
  exact ⟨by omega, by omega⟩

theorem TableFits.apart (h : TableFits e.sbi) (hs : Sized e.sbi) : Apart e (tableBlocks e.sbi) :=
  apart_of_lt fun _ hb => (h.block hs hb).2.trans (by decide)

/-- **The inode table keeps what is written, and only that changes.** After `tfs_iwrite`,
`tfs_iget_by_inr` makes the same inode, with its mode cut to 16 bits, unless `malloc`
fails; and no other record of the table has changed, on the disk or in the cache. -/
theorem tfsIwrite_tfsIgetByInr (hr : Records e.sbi) (hq : Quiet e) (hfits : TableFits e.sbi)
    (hwords : inode.Words) (hino : 1 ≤ inode.iIno) (hcount : inode.iIno ≤ e.sbi.sInodesCount)
    (hint : inode.iIno < 2 ^ 31) {k : Kernel} (hos : Shaped e os k.dev)
    (h : Contents e (tableBlocks e.sbi) v k.dev) :
    ∃ d v', tfsIwrite e inode k.dev = (0, d) ∧
      (((tfsIgetByInr e (toS32 inode.iIno) { k with dev := d }).1 = .error (-ENOMEM) ∧
          ∃ t, e.mallocOk t = false) ∨
        ∃ o, (tfsIgetByInr e (toS32 inode.iIno) { k with dev := d }).1 = .ok o ∧
          (tfsIgetByInr e (toS32 inode.iIno) { k with dev := d }).2.objs o =
            { inode with iMode := inode.iMode % 2 ^ 16, iBlksize := 1 <<< e.sbi.sBlockShift }) ∧
      Contents e (tableBlocks e.sbi) v'
        (tfsIgetByInr e (toS32 inode.iIno) { k with dev := d }).2.dev ∧
      ∀ n, 1 ≤ n → n ≤ e.sbi.sInodesCount → n ≠ inode.iIno → ∀ x < sizeofTfsInode,
        v' (recordBlock e.sbi n) (recordPlace e.sbi n + x) =
          v (recordBlock e.sbi n) (recordPlace e.sbi n + x) := by
  have hmem : recordBlock e.sbi inode.iIno ∈ tableBlocks e.sbi := ⟨_, hino, hcount, rfl⟩
  have hb31 := (hfits.block hr.sized hmem).1
  have hb32 : recordBlock e.sbi inode.iIno < 2 ^ 32 := hb31.trans (by decide)
  obtain ⟨i, d, hwrite, hcont, hi, hlab, hprev, -⟩ := tfsIwrite_contents hr hq
    (hfits.apart hr.sized) hino hwords.ino hb32 hmem hos h
  have hread : tfsReadInode e inode.iIno { k with dev := d }.dev = _ :=
    tfsReadInode_fresh hino hb32 hprev hlab
  rw [show toS32 inode.iIno = inode.iIno from if_pos hint]
  -- the bytes read are those of the record written
  have hbytes : ∀ x < sizeofTfsInode,
      d.cacheData (d.dataOf i + recordPlace e.sbi inode.iIno + x) =
        tfsWriteInode (fun x => v (recordBlock e.sbi inode.iIno)
          (recordPlace e.sbi inode.iIno + x)) inode x := fun x hx => by
    have hplace := hr.place_le inode.iIno
    have hagree := hcont.cached i hi (hlab ▸ hmem) (recordPlace e.sbi inode.iIno + x)
      (by rw [recordPlace]; rw [Nat.succ_mul] at hplace; omega)
    rw [hlab, iwritten, Function.update_self, withRecord_of_lt hx] at hagree
    rw [hcont.data i hi, Nat.add_assoc]
    exact hagree
  obtain ⟨⟨t, ht⟩, hvalue⟩ := tfsIgetByInr_value hread
  refine ⟨d, iwritten e v inode, hwrite, ?_, ?_, fun n hn _ hne x hx =>
    iwritten_other hino hn hne hx⟩
  · rw [igetValue_tfsWriteInode hwords hbytes] at hvalue
    exact hvalue
  · rw [ht]
    exact ⟨hcont.data, hcont.unique, hcont.cached, hcont.disk⟩

/-- An inode with a mode of more than 16 bits. -/
def wideMode : Inode := { newInodeValue 65537 with
  iIno := 9
  iSize := 7 }

/-- It is written to the small volume and read back. -/
theorem tfsIwrite_tfsIgetByInr_wideMode :
    ∃ d o, tfsIwrite (Env.quiet (smallSbi 9)) wideMode
        (bootKernel (Env.quiet (smallSbi 9)) formatted).dev = (0, d) ∧
      (tfsIgetByInr (Env.quiet (smallSbi 9)) (toS32 wideMode.iIno)
        { bootKernel (Env.quiet (smallSbi 9)) formatted with dev := d }).1 = .ok o ∧
      ((tfsIgetByInr (Env.quiet (smallSbi 9)) (toS32 wideMode.iIno)
        { bootKernel (Env.quiet (smallSbi 9)) formatted with dev := d }).2.objs o).iMode = 1 := by
  have hfits : TableFits (Env.quiet (smallSbi 9)).sbi := by
    unfold TableFits
    decide
  have hr : Records (Env.quiet (smallSbi 9)).sbi := mounted_small.toRecords
  obtain ⟨⟨os, hos⟩, hcont⟩ := vol_cacheInit (S := tableBlocks (smallSbi 9)) mounted_small
    (fun h => absurd (hfits.block hr.sized h).1 (by decide)) formatted
  have hwords : wideMode.Words :=
    ⟨by decide, by decide, by decide, by decide, by decide, by decide, by decide, fun k => by
      by_cases hk : k < 8
      · change (List.replicate 8 0).getD k 0 < 2 ^ 32
        rw [List.getD_replicate _ hk]
        decide
      · rw [List.getD_eq_default _ _ (by rw [wideMode.iData_length, TFS_N_BLOCKS]; omega)]
        decide⟩
  obtain ⟨d, v', hwrite, hread, -⟩ :=
    @tfsIwrite_tfsIgetByInr _ _ wideMode os hr (quiet_quiet _) hfits
    hwords (by decide) (by decide) (by decide) (bootKernel (Env.quiet (smallSbi 9)) formatted) hos
    hcont
  rcases hread with ⟨-, t, ht⟩ | ⟨o, hok, hobj⟩
  · cases ht
  · exact ⟨d, o, hwrite, hok, (congrArg Inode.iMode hobj).trans (by decide)⟩

end Thunix.Fs
