import Thunix.Fs.BitmapVol
import Thunix.Fs.InodeTable

/-!
# The image on a disk

What a volume is for: inodes, the numbers that are in use, and blocks of data
(`Thunix.Fs.Image`). A device has such an image when its blocks have contents that show
it (`Thunix.Fs.ImageOn`), where the bitmaps, the inode table and the data area do not
overlap (`Thunix.Fs.Geometry`). Every basic operation on the blocks changes the image in
one place, and the triples here say which.
-/

namespace Thunix.Fs

variable {e : Env} {v : ℕ → Buf} {d : Dev} {inode : Inode} {b n k : ℕ} {f : Buf}

/-! ### Images -/

/-- What a volume holds. -/
structure Image where
  /-- The inodes of the table, by number. -/
  inode : ℕ → Inode
  /-- The inode numbers in use. -/
  inodeUsed : ℕ → Bool
  /-- The blocks in use. -/
  blockUsed : ℕ → Bool
  /-- The blocks of the data area. -/
  data : ℕ → Buf

variable {I : Image}

/-- An inode is stored. -/
def Image.setInode (I : Image) (n : ℕ) (inode : Inode) : Image :=
  { I with inode := Function.update I.inode n inode }

/-- An inode number is taken or given back. -/
def Image.useInode (I : Image) (n : ℕ) (used : Bool) : Image :=
  { I with inodeUsed := Function.update I.inodeUsed n used }

/-- A block is taken or given back. -/
def Image.useBlock (I : Image) (b : ℕ) (used : Bool) : Image :=
  { I with blockUsed := Function.update I.blockUsed b used }

/-- A block of data is written. -/
def Image.setData (I : Image) (b : ℕ) (f : Buf) : Image :=
  { I with data := Function.update I.data b f }

/-! ### Where it is on the disk -/

/-- The areas of a volume follow each other: a block for each bitmap, the inode table, the
data. -/
structure Geometry (sbi : TfsSbInfo) : Prop where
  mounted : Mounted sbi
  bitmaps : sbi.sInodeBitmap < sbi.sBlockBitmap
  table : sbi.sBlockBitmap < sbi.sInodeTable
  records : recordBlock sbi sbi.sInodesCount < sbi.sDataArea
  area : sbi.sDataArea < sbi.sBlocksCount
  inodes_pos : 1 ≤ sbi.sInodesCount
  inodes : sbi.sInodesCount ≤ 8 * sbi.sBlockSize
  blocks : sbi.sBlocksCount ≤ 8 * sbi.sBlockSize
  sectors : sbi.sBlocksCount * sectorsPerBlock sbi + sbi.sOffset + TFS_FS_SECTOR ≤ 2 ^ 31

/-- The blocks of the volume. -/
def volume (sbi : TfsSbInfo) : Set ℕ := {b | b < sbi.sBlocksCount}

/-- The number of an inode of the table. -/
def InTable (sbi : TfsSbInfo) (n : ℕ) : Prop := 1 ≤ n ∧ n ≤ sbi.sInodesCount

/-- A block of the data area. -/
def InData (sbi : TfsSbInfo) (b : ℕ) : Prop := sbi.sDataArea ≤ b ∧ b < sbi.sBlocksCount

theorem table_le (sbi : TfsSbInfo) (n : ℕ) : sbi.sInodeTable ≤ recordBlock sbi n :=
  Nat.le_add_right _ _

section Geometry

variable {sbi : TfsSbInfo} (g : Geometry sbi)

include g

theorem Geometry.record_lt (hn : InTable sbi n) : recordBlock sbi n < sbi.sDataArea :=
  lt_of_le_of_lt (Nat.add_le_add_left (Nat.div_le_div_right (Nat.sub_le_sub_right hn.2 1)) _)
    g.records

theorem Geometry.record_mem (hn : InTable sbi n) : recordBlock sbi n ∈ volume sbi :=
  (g.record_lt hn).trans g.area

theorem Geometry.lt_area : sbi.sInodeBitmap < sbi.sDataArea ∧ sbi.sBlockBitmap < sbi.sDataArea := by
  have h1 := g.bitmaps
  have h2 := g.table
  have h3 := table_le sbi sbi.sInodesCount
  have h4 := g.records
  omega

theorem Geometry.inodeBitmap_mem : sbi.sInodeBitmap ∈ volume sbi :=
  g.lt_area.1.trans g.area

theorem Geometry.blockBitmap_mem : sbi.sBlockBitmap ∈ volume sbi :=
  g.lt_area.2.trans g.area

theorem Geometry.area_pos : 0 < sbi.sDataArea := Nat.zero_lt_of_lt g.lt_area.1

/-- The numbers of a volume are small. -/
theorem Geometry.small : 8 * sbi.sBlockSize ≤ 2 ^ 17 := by
  have := g.mounted.size_le
  omega

theorem Geometry.lt_two_pow (hb : b ∈ volume sbi) : b < 2 ^ 31 := by
  have h1 := g.blocks
  have h2 := g.small
  have h3 : b < sbi.sBlocksCount := hb
  omega

theorem Geometry.emptyBlock_notMem : emptyBlock ∉ volume sbi := fun h => by
  have := g.lt_two_pow h
  rw [emptyBlock] at this
  omega

end Geometry

theorem Geometry.apart (g : Geometry e.sbi) : Apart e (volume e.sbi) :=
  apart_of_lt fun b hb => by
    have h1 := g.sectors
    have h2 : b < e.sbi.sBlocksCount := hb
    have h3 : (b + 1) * sectorsPerBlock e.sbi ≤ e.sbi.sBlocksCount * sectorsPerBlock e.sbi :=
      Nat.mul_le_mul_right _ h2
    omega

/-- The inode of a record of the table. -/
def recordAt (e : Env) (v : ℕ → Buf) (n : ℕ) : Inode :=
  igetValue e n fun x => v (recordBlock e.sbi n) (recordPlace e.sbi n + x)

/-- What a record can hold of an inode: its mode is cut to 16 bits, and the block size is
that of the volume. -/
def Inode.stored (e : Env) (inode : Inode) : Inode :=
  { inode with iMode := inode.iMode % 2 ^ 16, iBlksize := 1 <<< e.sbi.sBlockShift }

/-- The blocks show the image. -/
structure Shows (e : Env) (v : ℕ → Buf) (I : Image) : Prop where
  inode : ∀ n, InTable e.sbi n → recordAt e v n = I.inode n
  inodeUsed : ∀ k < 8 * e.sbi.sBlockSize, usedIn (v e.sbi.sInodeBitmap) k = I.inodeUsed (k + 1)
  blockUsed : ∀ b < 8 * e.sbi.sBlockSize, usedIn (v e.sbi.sBlockBitmap) b = I.blockUsed b
  data : ∀ b, InData e.sbi b → Agree e.sbi.sBlockSize (v b) (I.data b)

/-- The image of a device. -/
def ImageOn (e : Env) (I : Image) (d : Dev) : Prop :=
  ∃ v, Vol e (volume e.sbi) v d ∧ Shows e v I

/-- The volume is sound, its transfers go well, and the bitmaps are read from where they
are written. -/
structure Steady (e : Env) : Prop where
  geometry : Geometry e.sbi
  quiet : Quiet e
  straight : Straight e

/-! ### What changes -/

theorem setBit_used : usedIn (setBit f 0 n).2 k = if k = n then true else usedIn f k := by
  rw [usedIn_setBit]
  by_cases h : k = n
  · rw [if_pos h, decide_eq_true h, Bool.true_or]
  · rw [if_neg h, decide_eq_false h, Bool.false_or]

theorem clearBit_used : usedIn (clearBit f 0 n).2 k = if k = n then false else usedIn f k := by
  rw [usedIn_clearBit]
  by_cases h : k = n
  · rw [if_pos h, decide_eq_true h, Bool.not_true, Bool.false_and]
  · rw [if_neg h, decide_eq_false h, Bool.not_false, Bool.true_and]

theorem igetValue_congr {tinode tinode' : Buf} (h : Agree sizeofTfsInode tinode tinode') (inr : ℤ) :
    igetValue e inr tinode = igetValue e inr tinode' := by
  have h32 : ∀ a, a + 4 ≤ sizeofTfsInode → le32 tinode a = le32 tinode' a := fun a ha =>
    le32_congr fun x hx => h _ (by omega)
  have h16 : le16 tinode 0 = le16 tinode' 0 := by
    rw [le16, le16, h 0 (by decide), h (0 + 1) (by decide)]
  have hdata : ((List.range TFS_N_BLOCKS).map fun k => le32 tinode (24 + 4 * k)) =
      (List.range TFS_N_BLOCKS).map fun k => le32 tinode' (24 + 4 * k) :=
    List.map_congr_left fun k hk => h32 _ (by
      have := List.mem_range.mp hk
      rw [TFS_N_BLOCKS] at this
      rw [sizeofTfsInode]
      omega)
  unfold igetValue tfsFillInode
  simp only [h16, hdata, h32 4 (by decide), h32 8 (by decide), h32 12 (by decide),
    h32 16 (by decide), h32 20 (by decide), h32 56 (by decide)]

/-- The image that blocks show. -/
def imageOf (e : Env) (v : ℕ → Buf) : Image where
  inode := recordAt e v
  inodeUsed n := usedIn (v e.sbi.sInodeBitmap) (n - 1)
  blockUsed := usedIn (v e.sbi.sBlockBitmap)
  data := v

/-- Blocks that agree with those show it too. -/
theorem shows_imageOf (g : Geometry e.sbi) {w : ℕ → Buf}
    (h : ∀ b ∈ volume e.sbi, Agree e.sbi.sBlockSize (v b) (w b)) : Shows e v (imageOf e w) := by
  refine ⟨fun n hn => igetValue_congr (fun x hx => ?_) n, fun k hk => ?_, fun b hb => ?_,
    fun b hb => h b hb.2⟩
  · have hplace := g.mounted.toRecords.place_le n
    rw [Nat.succ_mul] at hplace
    exact h _ (g.record_mem hn) _ (by rw [recordPlace]; omega)
  · change usedIn _ k = usedIn _ k
    rw [usedIn, usedIn, bit, bit, Nat.zero_add, h _ g.inodeBitmap_mem (k / 8) (by omega)]
  · change usedIn _ b = usedIn _ b
    rw [usedIn, usedIn, bit, bit, Nat.zero_add, h _ g.blockBitmap_mem (b / 8) (by omega)]

/-- Before the first request the image is that of the disk. -/
theorem imageOn_cacheInit (g : Geometry e.sbi) {w : ℕ → Buf}
    (h : ∀ b ∈ volume e.sbi, Agree e.sbi.sBlockSize (diskBlock e.sbi d.disk b) (w b)) :
    ImageOn e (imageOf e w) (cacheInit e.sbi.sBlockShift d) :=
  ⟨_, vol_cacheInit g.mounted g.emptyBlock_notMem d, shows_imageOf g h⟩

/-- A block that holds no record of the table makes no difference to it. -/
theorem recordAt_update (h : b ≠ recordBlock e.sbi n) :
    recordAt e (Function.update v b f) n = recordAt e v n :=
  igetValue_congr (fun x _ => by rw [Function.update_of_ne h.symm]) n

section Changes

variable (g : Geometry e.sbi) (h : Shows e v I)

include g h

/-- A bit of the inode bitmap changes. -/
theorem Shows.useInode (used : Bool) (hf : ∀ j, usedIn f j =
    if j = k then used else usedIn (v e.sbi.sInodeBitmap) j) :
    Shows e (Function.update v e.sbi.sInodeBitmap f) (I.useInode (k + 1) used) := by
  have h1 := g.bitmaps
  have h2 := g.table
  have h3 := g.lt_area.1
  refine ⟨fun n hn => ?_, fun j hj => ?_, fun b hb => ?_, fun b hb => ?_⟩
  · have := table_le e.sbi n
    rw [recordAt_update (by omega)]
    exact h.inode n hn
  · rw [Function.update_self, hf]
    change _ = Function.update I.inodeUsed (k + 1) used (j + 1)
    by_cases hj' : j = k
    · rw [if_pos hj', hj', Function.update_self]
    · rw [if_neg hj', Function.update_of_ne (by omega)]
      exact h.inodeUsed j hj
  · rw [Function.update_of_ne h1.ne']
    exact h.blockUsed b hb
  · rw [Function.update_of_ne (by have := hb.1; omega)]
    exact h.data b hb

/-- A bit of the block bitmap changes. -/
theorem Shows.useBlock (used : Bool) (hf : ∀ j, usedIn f j =
    if j = k then used else usedIn (v e.sbi.sBlockBitmap) j) :
    Shows e (Function.update v e.sbi.sBlockBitmap f) (I.useBlock k used) := by
  have h1 := g.bitmaps
  have h2 := g.table
  have h3 := g.lt_area.2
  refine ⟨fun n hn => ?_, fun j hj => ?_, fun b hb => ?_, fun b hb => ?_⟩
  · have := table_le e.sbi n
    rw [recordAt_update (by omega)]
    exact h.inode n hn
  · rw [Function.update_of_ne h1.ne]
    exact h.inodeUsed j hj
  · rw [Function.update_self, hf]
    change _ = Function.update I.blockUsed k used b
    by_cases hb' : b = k
    · rw [if_pos hb', hb', Function.update_self]
    · rw [if_neg hb', Function.update_of_ne hb']
      exact h.blockUsed b hb
  · rw [Function.update_of_ne (by have := hb.1; omega)]
    exact h.data b hb

/-- A block of data changes. -/
theorem Shows.setData (hb : InData e.sbi b) :
    Shows e (Function.update v b f) (I.setData b f) := by
  have h1 := g.lt_area
  have h2 := hb.1
  refine ⟨fun n hn => ?_, fun j hj => ?_, fun j hj => ?_, fun b' hb' => ?_⟩
  · have := g.record_lt hn
    rw [recordAt_update (by omega)]
    exact h.inode n hn
  · rw [Function.update_of_ne (by omega)]
    exact h.inodeUsed j hj
  · rw [Function.update_of_ne (by omega)]
    exact h.blockUsed j hj
  · change Agree _ (Function.update v b f b') (Function.update I.data b f b')
    by_cases hbb : b' = b
    · rw [hbb, Function.update_self, Function.update_self]
      exact fun _ _ => rfl
    · rw [Function.update_of_ne hbb, Function.update_of_ne hbb]
      exact h.data b' hb'

/-- A record changes, to what a record can hold of the inode. -/
theorem Shows.setInode (hn : InTable e.sbi inode.iIno) (hwords : inode.Words) :
    Shows e (iwritten e v inode) (I.setInode inode.iIno (inode.stored e)) := by
  have h1 := g.lt_area
  have h2 := g.record_lt hn
  have h3 := table_le e.sbi inode.iIno
  have h4 := g.bitmaps
  have h5 := g.table
  refine ⟨fun n hn' => ?_, fun j hj => ?_, fun j hj => ?_, fun b' hb' => ?_⟩
  · change _ = Function.update I.inode inode.iIno _ n
    by_cases hne : n = inode.iIno
    · rw [hne, Function.update_self]
      have hbytes : ∀ x < sizeofTfsInode, iwritten e v inode (recordBlock e.sbi inode.iIno)
          (recordPlace e.sbi inode.iIno + x) = tfsWriteInode
            (fun x => v (recordBlock e.sbi inode.iIno)
            (recordPlace e.sbi inode.iIno + x)) inode x := fun x hx => by
        rw [iwritten, Function.update_self, withRecord_of_lt hx]
      exact igetValue_tfsWriteInode hwords hbytes
    · rw [Function.update_of_ne hne, ← h.inode n hn']
      exact igetValue_congr (fun x hx => iwritten_other hn.1 hn'.1 hne hx) n
  · rw [iwritten, Function.update_of_ne (by omega)]
    exact h.inodeUsed j hj
  · rw [iwritten, Function.update_of_ne (by omega)]
    exact h.blockUsed j hj
  · rw [iwritten, Function.update_of_ne (by have := hb'.1; omega)]
    exact h.data b' hb'

end Changes

/-! ### The basic operations -/

theorem ImageOn.tick (h : ImageOn e I d) : ImageOn e I d.tick := by
  obtain ⟨v, hv, hs⟩ := h
  exact ⟨v, hv.tick, hs⟩

section Operations

variable (hs : Steady e)

include hs

/-- **`tfs_alloc_block`** takes a block that was free. -/
theorem tfsAllocBlock_image : Hoare (ImageOn e I) (tfsAllocBlock e e.sbi.sDataArea) fun r d =>
    (r = -ENOSPC ∧ (∀ b < 8 * e.sbi.sBlockSize, I.blockUsed b = true) ∧ ImageOn e I d) ∨
    ∃ b < 8 * e.sbi.sBlockSize, r = b ∧ I.blockUsed b = false ∧ ImageOn e (I.useBlock b true) d :=
  Hoare.exists fun v d ⟨hv, hshow⟩ => by
    have g := hs.geometry
    have harea : e.sbi.sDataArea < 8 * e.sbi.sBlockSize := lt_of_lt_of_le g.area g.blocks
    have hsize := g.small
    rcases tfsAllocBlock_vol g.mounted hs.quiet hs.straight g.apart g.blockBitmap_mem harea
      d hv with
      ⟨hr, hall, hv'⟩ | ⟨b, hb, hr, hch, hv'⟩
    · exact .inl ⟨hr, fun b hb => (hshow.blockUsed b hb).symm.trans (hall b hb), v, hv', hshow⟩
    · have hfree := (hch.lt_of_ne harea (by rw [minusOne]; omega)).2
      exact .inr ⟨b, hb, hr, (hshow.blockUsed b hb).symm.trans hfree, _, hv',
        hshow.useBlock g true fun _ => setBit_used⟩

/-- **`tfs_free_block`** gives a block back. -/
theorem tfsFreeBlock_image (hb : b < 8 * e.sbi.sBlockSize) :
    Hoare (ImageOn e I) (tfsFreeBlock e b) fun r d => r = 0 ∧ ImageOn e (I.useBlock b false) d :=
  Hoare.exists fun v d ⟨hv, hshow⟩ => by
    have g := hs.geometry
    obtain ⟨hr, hv'⟩ := tfsFreeBlock_vol g.mounted hs.quiet hs.straight g.apart g.blockBitmap_mem hb
      d hv
    exact ⟨hr, _, hv', hshow.useBlock g false fun _ => clearBit_used⟩

/-- **`tfs_alloc_inode`** takes a number that was free. -/
theorem tfsAllocInode_image : Hoare (ImageOn e I) (tfsAllocInode e TFS_ROOT_INODE) fun r d =>
    (r = -ENOSPC ∧ (∀ n, 1 ≤ n → n ≤ 8 * e.sbi.sBlockSize → I.inodeUsed n = true) ∧
      ImageOn e I d) ∨
    ∃ n, 1 ≤ n ∧ n ≤ 8 * e.sbi.sBlockSize ∧ r = n ∧ I.inodeUsed n = false ∧
      ImageOn e (I.useInode n true) d :=
  Hoare.exists fun v d ⟨hv, hshow⟩ => by
    have g := hs.geometry
    have hsize := g.small
    have hpos := g.mounted.size_pos
    rcases tfsAllocInode_vol g.mounted hs.quiet hs.straight g.apart g.inodeBitmap_mem d hv with
      ⟨hr, hall, hv'⟩ | ⟨k, hk, hr, hch, hv'⟩
    · refine .inl ⟨hr, fun n h1 hn => ?_, v, hv', hshow⟩
      obtain ⟨k, rfl⟩ := Nat.exists_eq_add_of_le' h1
      exact (hshow.inodeUsed k (by omega)).symm.trans (hall k (by omega))
    · have hfree := (hch.lt_of_ne (by omega) (by rw [minusOne]; omega)).2
      exact .inr ⟨k + 1, by omega, by omega, hr, (hshow.inodeUsed k hk).symm.trans hfree, _, hv',
        hshow.useInode g true fun _ => setBit_used⟩

/-- **`tfs_free_inode`** gives a number back. -/
theorem tfsFreeInode_image (h1 : 1 ≤ n) (hn : n ≤ 8 * e.sbi.sBlockSize) :
    Hoare (ImageOn e I) (tfsFreeInode e n) fun r d => r = 0 ∧ ImageOn e (I.useInode n false) d :=
  Hoare.exists fun v d ⟨hv, hshow⟩ => by
    have g := hs.geometry
    obtain ⟨k, rfl⟩ := Nat.exists_eq_add_of_le' h1
    obtain ⟨hr, hv'⟩ := tfsFreeInode_vol g.mounted hs.quiet hs.straight g.apart g.inodeBitmap_mem
      (show k < 8 * e.sbi.sBlockSize by omega) d hv
    exact ⟨hr, _, hv', hshow.useInode g false fun _ => clearBit_used⟩

/-- **`tfs_iwrite`** stores what a record can hold of the inode. -/
theorem tfsIwrite_image (hn : InTable e.sbi inode.iIno) (hwords : inode.Words) :
    Hoare (ImageOn e I) (tfsIwrite e inode) fun r d =>
      r = 0 ∧ ImageOn e (I.setInode inode.iIno (inode.stored e)) d :=
  Hoare.exists fun v d ⟨hv, hshow⟩ => by
    have g := hs.geometry
    have hb := g.record_mem hn
    obtain ⟨hr, hv'⟩ := tfsIwrite_vol g.mounted hs.quiet g.apart hn.1 hwords.ino
      ((g.lt_two_pow hb).trans (by decide)) hb d hv
    exact ⟨hr, _, hv', hshow.setInode g hn hwords⟩

/-- The block of a record, as `tfs_read_inode` computes it. -/
theorem toU32_recordBlock (hn : InTable e.sbi n) :
    toU32 (e.sbi.sInodeTable + ((n : ℤ) - 1).tdiv e.sbi.sInodesPerBlock) = recordBlock e.sbi n := by
  have g := hs.geometry
  have h31 := g.lt_two_pow (g.record_mem hn)
  have hpred : (n : ℤ) - 1 = (n - 1 : ℕ) := by
    have := hn.1
    omega
  rw [hpred, ← Int.ofNat_tdiv, ← Nat.cast_add]
  exact toU32_natCast (h31.trans (by decide))

/-- **`tfs_read_inode`** reads the record. -/
theorem tfsReadInode_image (hn : InTable e.sbi n) :
    Hoare (ImageOn e I) (tfsReadInode e n) fun r d => igetValue e n r = I.inode n ∧ ImageOn e I d :=
  Hoare.exists fun v => by
    have g := hs.geometry
    have hb := g.record_mem hn
    have hplace := g.mounted.toRecords.place_le n
    have hpred : (n : ℤ) - 1 = (n - 1 : ℕ) := by
      have := hn.1
      omega
    unfold tfsReadInode
    rw [toU32_recordBlock hs hn, hpred]
    refine Hoare.pre (P := fun d => Vol e (volume e.sbi) v d ∧ Shows e v I) ?_ fun _ h => h
    refine Hoare.assume fun hshow => request_vol g.mounted hs.quiet fun i =>
      dataPtr_holding.bind_eq ?_
    rw [← Int.ofNat_tmod, if_neg (by omega)]
    intro d h
    refine ⟨?_, v, h.1, hshow⟩
    rw [← hshow.inode n hn]
    refine igetValue_congr (fun x hx => ?_) n
    rw [Nat.succ_mul] at hplace
    have hagree := h.agree hb (recordPlace e.sbi n + x) (by rw [recordPlace]; omega)
    rw [← hagree, Dev.buf, ← Nat.add_assoc]
    rfl

end Operations

end Thunix.Fs
