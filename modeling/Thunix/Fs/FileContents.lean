import Thunix.Fs.VolumeRuns
import Thunix.Fs.WriteFile

/-!
# Contents of files

What a file of a consistent volume holds is a list of bytes (`Thunix.Fs.Image.bytes`). For a file
whose blocks reach as far as its size (`Thunix.Fs.IsFile`), the calls on its descriptors are
operations on this list: `sys_read` takes bytes of it from the offset on (`Thunix.Fs.sysRead_on`),
and `sys_write` replaces what is behind the offset by the caller's bytes, as many as the blocks
written have room for (`Thunix.Fs.sysWrite_on`). What has been written stays until the file is
written or removed again (`Thunix.Fs.writeStays_of_reach`).
-/

namespace Thunix.Fs

open SlotMap NameTree

variable {e : Env} {B I I' J : Image} {M : Inode} {k k₀ k' : Kernel} {d : Dev} {n m off x : ℕ}
  {names : NameTable} {f : File} {fd : ℕ} {buf : Buf} {new : Set ℕ}

/-! ### Files -/

/-- The bytes of the file `n`. -/
def Image.bytes (e : Env) (I : Image) (n : ℕ) : List UInt8 :=
  (List.range (I.inode n).iSize).map (fileBytes e I.data (I.inode n))

/-- A file in use, whose blocks reach as far as its size. -/
structure IsFile (e : Env) (I : Image) (n : ℕ) : Prop where
  live : n ∈ InUse e I
  mode : (I.inode n).iMode ≠ TFS_DIR
  whole : (I.inode n).iSize ≤ (I.inode n).blocks * e.sbi.sBlockSize

theorem length_bytes : (I.bytes e n).length = (I.inode n).iSize := by
  rw [Image.bytes, List.length_map, List.length_range]

theorem fileBytes_congr {v v' : ℕ → Buf} {inode : Inode} (hpos : 0 < e.sbi.sBlockSize)
    (h : Agree e.sbi.sBlockSize (v (inode.iData.getD (x / e.sbi.sBlockSize) 0))
      (v' (inode.iData.getD (x / e.sbi.sBlockSize) 0))) :
    fileBytes e v inode x = fileBytes e v' inode x :=
  h _ (Nat.mod_lt _ hpos)

/-- The block of a byte of the file is in its list. -/
theorem mem_blockList_div {inode : Inode} (hx : x < inode.blocks * e.sbi.sBlockSize) :
    inode.iData.getD (x / e.sbi.sBlockSize) 0 ∈ inode.blockList :=
  Inode.mem_blockList.mpr ⟨_, Nat.div_lt_of_lt_mul (by rwa [Nat.mul_comm]), rfl⟩

/-- A file that is what it was holds what it held. -/
theorem FileKept.isFile (h : FileKept e I I' n) (hfile : IsFile e I n) : IsFile e I' n :=
  ⟨h.live, h.inode ▸ hfile.mode, h.inode ▸ hfile.whole⟩

theorem FileKept.bytes (hpos : 0 < e.sbi.sBlockSize) (h : FileKept e I I' n)
    (hfile : IsFile e I n) : I'.bytes e n = I.bytes e n := by
  rw [Image.bytes, Image.bytes, h.inode]
  refine List.map_congr_left fun x hx => ?_
  have hx' := (List.mem_range.mp hx).trans_le hfile.whole
  exact (fileBytes_congr hpos (h.data _ (mem_blockList_div hx'))).symm

theorem Since.trans {lost : Set ℕ} (g : Geometry e.sbi) (h : Since e B lost k)
    (h' : Since e (k.dev.image e) lost k') : Since e B lost k' := by
  obtain ⟨I, names, hI, hcons, hh, hfiles⟩ := h'
  exact ⟨I, names, hI, hcons, hh, (h.onDisk g).trans hfiles⟩

/-- What cannot be seen does not matter. -/
theorem Since.on {lost : Set ℕ} (g : Geometry e.sbi) (h : Since e B lost k)
    (hk : KernelOn e (k.dev.image e) k k') : Since e B lost k' := by
  obtain ⟨-, ⟨names, hcons⟩, hh⟩ := h.sane.onDisk g
  exact since_of_on hk hcons hh (h.onDisk g)

/-- Of images of which the same can be seen, the files are the same. -/
theorem SameImage.fileKept (g : Geometry e.sbi) (h : SameImage e I J) (hst : Stored e I names)
    (hn : n ∈ InUse e I) : FileKept e I J n :=
  ⟨h.live g ▸ hn, h.inode n hn.1, fun _ hb => h.data _ (hst.used_of_mem hn hb).1⟩

theorem Steady.pos (hs : Steady e) : 0 < e.sbi.sBlockSize :=
  lt_of_lt_of_le (by decide) hs.geometry.mounted.size_pos

/-! ### Reading -/

section Reading

variable (hs : Steady e) (hst : Stored e I names) (hfile : IsFile e I n)

include hs hst hfile

/-- The file has no hole. -/
theorem IsFile.wholeFile : WholeFile e (volume e.sbi) (I.inode n) := by
  have hpos := hs.pos
  have hrec := hst.record n hfile.live
  have hblock : ∀ k, k * e.sbi.sBlockSize < (I.inode n).iSize → k < (I.inode n).blocks :=
    fun k hk => lt_of_mul_lt_mul_right (hk.trans_le hfile.whole) (Nat.zero_le _)
  refine ⟨hfile.whole.trans (Nat.mul_le_mul_right _ (Inode.blocks_le _)), ?_, fun k hk => ?_,
    fun k hk => (hrec.area k (hblock k hk)).2⟩
  · rw [← (Inode.stored_eq_iff.mp hrec.stored).2, Nat.one_shiftLeft, hs.geometry.mounted.size]
  · exact Inode.getD_ne (hblock k hk)

/-- The blocks hold the data of the image. -/
theorem IsFile.fileBytes_eq {v : ℕ → Buf} (hshow : Shows e v I)
    (hx : x < (I.inode n).blocks * e.sbi.sBlockSize) :
    fileBytes e v (I.inode n) x = fileBytes e I.data (I.inode n) x := by
  have hrec := hst.record n hfile.live
  obtain ⟨j, hj, hb⟩ := Inode.mem_blockList.mp (mem_blockList_div (e := e) hx)
  exact fileBytes_congr hs.pos (hshow.data _ (hb ▸ hrec.area j hj))

/-- **`tfs_read`** of the blocks that `m` bytes fill. -/
theorem tfsRead_bytes (hm : 0 < m) (hle : off + m ≤ (I.inode n).iSize) (buf : Buf) :
    Hoare (ImageOn e I) (tfsRead e (I.inode n) off buf (blocksOf e.sbi.sBlockSize m)) fun r d =>
      r = (((blocksOf e.sbi.sBlockSize m * e.sbi.sBlockSize : ℕ) : ℤ),
        blit buf 0 (blocksOf e.sbi.sBlockSize m * e.sbi.sBlockSize) fun x =>
          fileBytes e I.data (I.inode n) (off / e.sbi.sBlockSize * e.sbi.sBlockSize + x)) ∧
        ImageOn e I d := by
  rintro d ⟨v, hv, hshow⟩
  have hpos := hs.pos
  have hwhole := hfile.wholeFile hs hst
  obtain ⟨hr, hv'⟩ := tfsRead_vol hs.geometry.mounted hs.quiet hwhole hm hle buf d hv
  refine ⟨hr.trans ?_, v, hv', hshow⟩
  congr 1
  refine blit_congr fun x hx => hfile.fileBytes_eq hs hst hshow ?_
  -- the last block that is read is a block of the file
  have hlast : off / e.sbi.sBlockSize + blocksOf e.sbi.sBlockSize m ≤ (I.inode n).blocks := by
    by_contra hgt
    have hlt := block_lt_of_blocksOf hpos hm hle (Nat.lt_of_not_le hgt)
    exact (lt_of_mul_lt_mul_right (hlt.trans_le hfile.whole) (Nat.zero_le _)).false
  have hmul := Nat.mul_le_mul_right e.sbi.sBlockSize hlast
  rw [Nat.add_mul] at hmul
  omega

end Reading

/-- The bytes that a chunk puts into the buffer. -/
theorem readInto_eq {v : ℕ → Buf} {inode : Inode} {size : ℕ} (hpos : 0 < e.sbi.sBlockSize)
    (hm : m ≤ size) (hfits : ReadFits e.sbi.sBlockSize off m size) (buf : Buf) (hx : x < m) :
    readInto e v inode off m buf x = fileBytes e v inode (off + x) :=
  ((readInto_iff hpos hm).mpr hfits buf).1 x hx

theorem fget_on {inode : Inode} (hopen : OpenAt fd f inode k₀) :
    Hoare (KernelOn e I k₀) (fget e fd) fun r k => r = some (.file f) ∧ KernelOn e I k₀ k :=
  fun k h => by
    have hlt := hopen.fd_lt
    have h1 : ¬((fd : ℤ) < 0 ∨ (fd : ℤ) > MAX_FD) := by omega
    have h2 : ¬((fd : ℤ) = MAX_FD) := by omega
    rw [fget, if_neg h1, if_neg h2, Int.toNat_natCast, h.2.files, hopen.file]
    exact ⟨rfl, h⟩

/-- **`sys_read`** takes bytes of the file. -/
theorem sysRead_on (hs : Steady e) (hst : Stored e I names) (hfile : IsFile e I n)
    (hopen : OpenAt fd f (I.inode n) k₀) {size : ℕ} (hsize : size < 2 ^ 31)
    (hoff : f.offset ≤ (I.inode n).iSize) (hm : m = min size ((I.inode n).iSize - f.offset))
    (buf : Buf) : Hoare (KernelOn e I k₀) (sysRead e fd buf size) fun r k =>
      r = ((m : ℤ), readInto e I.data (I.inode n) f.offset m buf) ∧
        KernelOn e I (k₀.seek fd (f.offset + m)) k := by
  have hpos := hs.pos
  have hmount := hs.geometry.mounted
  have hwhole := hfile.wholeFile hs hst
  have hle := hwhole.size_le
  have hbs := hmount.size_le
  rw [TFS_N_BLOCKS] at hle
  refine (fget_on hopen).bind_eq (Hoare.bind_eq (inodeAt_on.post fun r k h =>
    ⟨h.1.trans hopen.inode, h.2⟩) ?_)
  dsimp only
  rw [bytesNeed_eq hmount hwhole hsize hoff hm, hwhole.blocksFor_eq hmount (by omega : m ≤ _)]
  by_cases h0 : m = 0
  · -- nothing is asked for
    have hread : Hoare (KernelOn e I k₀)
        (onDev (tfsRead e (I.inode n) f.offset buf (blocksOf e.sbi.sBlockSize m))) fun r k =>
          r = ((0 : ℤ), buf) ∧ KernelOn e I k₀ k := fun k h => by
      rw [h0, blocksOf_zero hpos]
      exact ⟨rfl, h⟩
    refine hread.bind_eq (.pure fun k h => ?_)
    rw [h0, readInto_zero hpos, Nat.add_zero, seek_self hopen.file]
    exact ⟨rfl, h⟩
  · have hge := (blocksOf_spec (n := m) hpos).1
    have hlt := (blocksOf_spec (n := m) hpos).2 (Nat.pos_of_ne_zero h0)
    refine (onDev_on_eq (tfsRead_bytes hs hst hfile (Nat.pos_of_ne_zero h0) (by omega)
      buf)).bind_eq ?_
    have hmin : minInt m (blocksOf e.sbi.sBlockSize m * e.sbi.sBlockSize : ℕ) = m := by
      rw [minInt]
      split <;> omega
    have hoffset : toU32 ((f.offset : ℤ) + m) = f.offset + m := by
      rw [toU32]
      omega
    dsimp only
    rw [hmin, if_pos (by omega), hwhole.skip_eq hmount f.offset, hoffset, Int.toNat_natCast]
    refine (setOffset_on _ _).bind fun _ => .pure fun k h => ⟨?_, h⟩
    rfl

/-! ### Writing -/

section Writing

variable (hs : Steady e) (hst : Stored e I names) (hfile : IsFile e I n)

include hs hst hfile

omit hs in
/-- The blocks of the file are blocks of data. -/
theorem IsFile.data_of_ne {j : ℕ} (hj : (I.inode n).iData.getD j 0 ≠ 0) :
    InData e.sbi ((I.inode n).iData.getD j 0) := by
  have hrec := hst.record n hfile.live
  exact hrec.area j (hrec.packed.lt_blocks_iff.mpr hj)

theorem IsFile.fileOn : FileOn e (volume e.sbi) (I.inode n) := by
  have g := hs.geometry
  have hrec := hst.record n hfile.live
  have hin := hfile.live.1
  have hsmall := g.small
  have hinodes := g.inodes
  refine ⟨(hfile.wholeFile hs hst).blksize, fun j hj => (hfile.data_of_ne hst hj).2,
    fun i j hij hi => ?_, ?_, ?_, ?_, ?_, fun j hj => ?_⟩
  · exact hrec.once i (hrec.packed.lt_blocks_iff.mpr hi) j
      (hrec.packed.lt_blocks_iff.mpr (hij ▸ hi)) hij
  · rw [hrec.ino]
    exact hin.1
  · have hle := hin.2
    rw [hrec.ino]
    omega
  · have hlt := g.lt_two_pow (g.record_mem hin)
    rw [hrec.ino]
    omega
  · rw [hrec.ino]
    exact g.record_mem hin
  · have hlt := g.record_lt hin
    have hdata := (hfile.data_of_ne hst hj).1
    rw [hrec.ino]
    omega

theorem IsFile.freeOn {v : ℕ → Buf} (hshow : Shows e v I) :
    FreeOn e (volume e.sbi) v (I.inode n) := by
  have g := hs.geometry
  have hrec := hst.record n hfile.live
  have hin := hfile.live.1
  have hbitmap := g.lt_area.2
  have hrecord := g.record_lt hin
  refine ⟨hs.straight, g.area.trans_le g.blocks, g.blockBitmap_mem, fun j hj => ?_, ?_,
    fun b hb hclear => ?_⟩
  · have hdata := (hfile.data_of_ne hst hj).1
    omega
  · have h1 := g.table
    have h2 := table_le e.sbi n
    rw [hrec.ino]
    omega
  · rw [hshow.blockUsed b hb] at hclear
    have hdata := hst.fits.blocks b hb hclear
    have h1 := hdata.1
    rw [hrec.ino]
    refine ⟨hdata.2, by omega, by omega, by omega, fun j hj => ?_⟩
    -- the blocks of the file are in use
    have hne : (I.inode n).iData.getD j 0 ≠ 0 := by omega
    have hmem : b ∈ (I.inode n).blockList :=
      Inode.mem_blockList.mpr ⟨j, hrec.packed.lt_blocks_iff.mpr hne, hj⟩
    rw [(hst.used_of_mem hfile.live hmem).2] at hclear
    cases hclear

omit hs hst hfile in
/-- The blocks that are free for the file are those that the bitmap marks as free. -/
theorem freeBlocks_eq {v : ℕ → Buf} (hshow : Shows e v I) :
    freeBlocks e (v e.sbi.sBlockBitmap) = freeIn e I :=
  Finset.filter_congr fun b hb => by rw [hshow.blockUsed b (Finset.mem_range.mp hb)]

omit hs hst hfile in
theorem SameImage.freeIn (h : SameImage e I J) : freeIn e J = freeIn e I :=
  Finset.filter_congr fun b hb => by rw [h.blockUsed b (Finset.mem_range.mp hb)]

omit hs hst hfile in
/-- There is room for a write that there are enough blocks for. -/
theorem Enough.room {v : ℕ → Buf} (hshow : Shows e v I) {inode : Inode} {index count : ℕ}
    (h : Enough e I inode index count) : Room e v inode index count := by
  refine ⟨h.words, ?_⟩
  have hsub : missing inode index count ⊆ Finset.Ico inode.blocks (index + count) := fun j hj => by
    obtain ⟨hj, h0⟩ := Finset.mem_filter.mp hj
    refine Finset.mem_Ico.mpr ⟨?_, (Finset.mem_Ico.mp hj).2⟩
    by_contra hlt
    exact Inode.getD_ne (Nat.lt_of_not_le hlt) h0
  have hcard := Finset.card_le_card hsub
  have hblocks := h.blocks
  rw [Nat.card_Ico] at hcard
  rw [freeBlocks_eq hshow]
  omega

omit hs hst hfile in
theorem mem_freeIn {b : ℕ} : b ∈ freeIn e I ↔ b < 8 * e.sbi.sBlockSize ∧ I.blockUsed b = false := by
  rw [freeIn, Finset.mem_filter, Finset.mem_range]

omit hs hst hfile in
theorem Recorded.card_blockList (h : Recorded e n M) : M.blockList.toFinset.card = M.blocks := by
  have himage : M.blockList.toFinset =
      (Finset.range M.blocks).image fun j => M.iData.getD j 0 := by
    ext b
    rw [List.mem_toFinset, Inode.mem_blockList, Finset.mem_image]
    simp only [Finset.mem_range]
  rw [himage, Finset.card_image_of_injOn, Finset.card_range]
  intro i hi j hj hij
  exact h.once i (Finset.mem_range.mp hi) j (Finset.mem_range.mp hj) hij

/-- The blocks that a write takes are those that are free no more. -/
theorem Writing.card (hw : Writing e I n J M new) :
    (freeIn e J).card + M.blocks = (freeIn e I).card + (I.inode n).blocks := by
  have hold : ∀ b ∈ (I.inode n).blockList, I.blockUsed b = true := fun b hb =>
    (hst.used_of_mem hfile.live hb).2
  have hsub : (I.inode n).blockList.toFinset ⊆ M.blockList.toFinset := fun b hb =>
    List.mem_toFinset.mpr ((hw.blocks b).mpr (.inl (List.mem_toFinset.mp hb)))
  have htaken : ∀ b, b ∈ M.blockList.toFinset \ (I.inode n).blockList.toFinset ↔ b ∈ new :=
    fun b => by
      rw [Finset.mem_sdiff, List.mem_toFinset, List.mem_toFinset, hw.blocks]
      refine ⟨fun h => h.1.resolve_left h.2, fun h => ⟨.inr h, fun hb => ?_⟩⟩
      have hused := hold b hb
      rw [(hw.free b h).1] at hused
      cases hused
  have hunion : freeIn e J ∪ M.blockList.toFinset \ (I.inode n).blockList.toFinset =
      freeIn e I := by
    ext b
    rw [Finset.mem_union, htaken, mem_freeIn, mem_freeIn, ← Bool.not_eq_true, ← Bool.not_eq_true,
      hw.used]
    constructor
    · rintro (⟨hlt, hnot⟩ | hnew)
      · exact ⟨hlt, fun h => hnot (.inl h)⟩
      · obtain ⟨hfree, hdata⟩ := hw.free b hnew
        refine ⟨hdata.2.trans_le hs.geometry.blocks, ?_⟩
        rw [hfree]
        exact Bool.false_ne_true
    · rintro ⟨hlt, hnot⟩
      by_cases hnew : b ∈ new
      · exact .inr hnew
      · exact .inl ⟨hlt, fun h => h.elim hnot hnew⟩
  have hdisj : Disjoint (freeIn e J) (M.blockList.toFinset \ (I.inode n).blockList.toFinset) := by
    refine Finset.disjoint_left.mpr fun b hb hb' => ?_
    have hset := (hw.used b).mpr (.inr ((htaken b).mp hb'))
    rw [(mem_freeIn.mp hb).2] at hset
    cases hset
  have hcard := Finset.card_union_of_disjoint hdisj
  have hdiff := Finset.card_sdiff_add_card_eq_card hsub
  rw [hunion] at hcard
  rw [hw.toRecorded.card_blockList, (hst.record n hfile.live).card_blockList] at hdiff
  omega

omit hs hst hfile in
/-- The list of the bytes that a write makes. -/
theorem bytes_write {g g' : ℕ → UInt8} {size m : ℕ} (hoff : off ≤ size)
    (hold : ∀ x < off, g' x = g x) (hnew : ∀ j < m, g' (off + j) = buf j) :
    (List.range (off + m)).map g' =
      ((List.range size).map g).take off ++ (List.range m).map buf := by
  rw [List.range_add, List.map_append, List.map_map, ← List.map_take, List.take_range,
    Nat.min_eq_left hoff]
  congr 1
  · exact List.map_congr_left fun x hx => hold x (List.mem_range.mp hx)
  · exact List.map_congr_left fun j hj => hnew j (List.mem_range.mp hj)

/-- **What the file holds** when `m` bytes have been written. -/
theorem IsFile.bytes_written {v v' : ℕ → Buf} (hshow : Shows e v I)
    (hoff : off ≤ (I.inode n).iSize) (hm : 0 < m)
    (hw : Written e (volume e.sbi) v (I.inode n) off buf m v' (J.inode n))
    (hdisk : ∀ b ∈ volume e.sbi, Agree e.sbi.sBlockSize (J.data b) (v' b)) :
    J.bytes e n = (I.bytes e n).take off ++ (List.range m).map buf := by
  have hwhole := hfile.wholeFile hs hst
  have hsize := hw.size
  rw [if_neg hm.ne'] at hsize
  have hbytes : ∀ x < off + m, fileBytes e J.data (J.inode n) x =
      if off ≤ x ∧ x < off + m then buf (x - off) else fileBytes e v (I.inode n) x := fun x hx => by
    have hknown : (I.inode n).iData.getD (x / e.sbi.sBlockSize) 0 ≠ 0 ∨
        (off ≤ x ∧ x < off + m) := by
      by_cases hlt : off ≤ x
      · exact .inr ⟨hlt, hx⟩
      · exact .inl (hwhole.block_ne _ ((Nat.div_mul_le_self _ _).trans_lt (by omega)))
    rw [← hw.bytes x hknown]
    exact fileBytes_congr hs.pos (hdisk _ (hw.file.mem _ (hw.present hknown)))
  rw [Image.bytes, Image.bytes, hsize]
  refine bytes_write hoff (fun x hx => ?_) fun j hj => ?_
  · rw [hbytes x (by omega), if_neg (by omega)]
    exact hfile.fileBytes_eq hs hst hshow (by have := hfile.whole; omega)
  · rw [hbytes _ (by omega), if_pos (by omega), Nat.add_sub_cancel_left]

omit hst hfile in
/-- The last byte that is written has a block. -/
theorem Written.whole {v v' : ℕ → Buf} {P : Inode} (hpacked : M.Packed) (hm : 0 < m)
    (hw : Written e (volume e.sbi) v P off buf m v' M) :
    M.iSize ≤ M.blocks * e.sbi.sBlockSize := by
  have hsize := hw.size
  rw [if_neg hm.ne'] at hsize
  have hlast := hw.there (off + m - 1) (by omega) (by omega)
  have hlt := Nat.lt_mul_of_div_lt (hpacked.lt_blocks_iff.mpr hlast) hs.pos
  omega

end Writing

/-! ### What a write leaves -/

/-- After a write of `m` bytes of `buf` to the file `n`, through the file `f` of a descriptor, whose
offset is `off` then. -/
structure WroteBytes (e : Env) (n : ℕ) (f : File) (fd m off : ℕ) (buf : Buf) (k k' : Kernel) :
    Prop where
  since : Since e (k.dev.image e) {n} k'
  file : IsFile e (k'.dev.image e) n
  bytes : (k'.dev.image e).bytes e n =
    ((k.dev.image e).bytes e n).take f.offset ++ (List.range m).map buf
  alike : Alike ((k.setObj f.inode ((k'.dev.image e).inode n)).seek fd off) k'
  free : (freeIn e (k'.dev.image e)).card + ((k'.dev.image e).inode n).blocks =
    (freeIn e (k.dev.image e)).card + ((k.dev.image e).inode n).blocks

theorem extent_pos {size : ℕ} (hpos : 0 < e.sbi.sBlockSize) (h0 : 0 < size) :
    0 < extent e off size := by
  have hmod := Nat.mod_lt off hpos
  have hmul := Nat.mul_le_mul_right e.sbi.sBlockSize (blocksOf_pos hpos h0)
  rw [extent]
  omega

section Written

variable (hs : Steady e) (h : Sane e k) (hfile : IsFile e (k.dev.image e) n)
  (hopen : OpenAt fd f ((k.dev.image e).inode n) k)

include hs h hfile hopen

/-- The file that a descriptor is open on. -/
theorem OpenAt.iIno : (k.objs f.inode).iIno = n := by
  obtain ⟨-, ⟨names, hcons⟩, -⟩ := h.onDisk hs.geometry
  rw [hopen.inode, (hcons.record n hfile.live).ino]

theorem OpenAt.writtenBy_eq : writtenBy k fd = {n} := by
  ext x
  have hino := hopen.iIno hs h hfile
  constructor
  · rintro ⟨f', hf', rfl⟩
    obtain rfl := Option.some.inj (hf'.symm.trans hopen.file)
    exact hino
  · rintro rfl
    exact ⟨f, hopen.file, hino⟩

variable (hoff : f.offset ≤ ((k.dev.image e).inode n).iSize) {size : ℕ} (h0 : 0 < size)
  (hroom : Enough e (k.dev.image e) ((k.dev.image e).inode n) (f.offset / e.sbi.sBlockSize)
    (blocksOf e.sbi.sBlockSize size))

omit h hfile hopen in
include hroom in
/-- There is no room for a write that is too long. -/
theorem Enough.size_le : size + e.sbi.sBlockSize < 2 ^ 31 := by
  have hle := hs.geometry.mounted.size_le
  have hwords := hroom.words
  have hmul := Nat.mul_le_mul_right e.sbi.sBlockSize
    (show blocksOf e.sbi.sBlockSize size ≤ TFS_N_BLOCKS from (Nat.le_add_left _ _).trans hwords)
  have hspec := (blocksOf_spec (n := size) hs.pos).1
  rw [TFS_N_BLOCKS] at hmul
  omega

include hoff h0 hroom

/-- A write that there is room for is one of the calls that keep the volume. -/
theorem OpenAt.writeKeeps : WriteKeeps e k f size := by
  have hm := hs.geometry.mounted
  obtain ⟨-, ⟨names, hcons⟩, -⟩ := h.onDisk hs.geometry
  have hino := hopen.iIno hs h hfile
  have hblksize := (hfile.wholeFile hs hcons.toStored).blksize
  have hsize := Enough.size_le hs hroom
  have hpos := blocksOf_pos hs.pos h0
  have hrounds : toU32 ((blocksOf e.sbi.sBlockSize size : ℕ) - 1 : ℤ) + 1 =
      blocksOf e.sbi.sBlockSize size := by
    have hle : blocksOf e.sbi.sBlockSize size ≤ TFS_N_BLOCKS :=
      (Nat.le_add_left _ _).trans hroom.words
    rw [TFS_N_BLOCKS] at hle
    rw [toU32]
    omega
  refine ⟨by rw [hino]; exact hfile.live, by rw [hino]; exact hopen.inode,
    by rw [hopen.inode]; exact hfile.mode, ?_, fun _ => ?_⟩
  · rw [hopen.inode, shiftRight_blockShift hm]
    exact Nat.div_le_of_le_mul (by rw [Nat.mul_comm]; exact hoff.trans hfile.whole)
  · rw [hopen.inode, hblksize, Fs.blocksFor_eq hm hsize.le, hrounds, shiftRight_blockShift hm]
    exact hroom

/-- **`sys_write`** replaces what is behind the offset by the caller's bytes. -/
theorem sysWrite_on (buf : Buf) :
    (sysWrite e fd buf size k).1 = (min size (extent e f.offset size) : ℕ) ∧
      WroteBytes e n f fd (extent e f.offset size)
        (f.offset + min size (extent e f.offset size)) buf k (sysWrite e fd buf size k).2 := by
  have g := hs.geometry
  have hm := g.mounted
  have hkeeps := hopen.writeKeeps hs h hfile hoff h0 hroom
  have hsince : Since e (k.dev.image e) (writtenBy k fd) (sysWrite e fd buf size k).2 :=
    sysWrite_since hs h buf size fun f' hf' => by
      obtain rfl := Option.some.inj (hf'.symm.trans hopen.file)
      exact hkeeps
  rw [hopen.writtenBy_eq hs h hfile] at hsince
  obtain ⟨hI, ⟨names, hcons⟩, hh⟩ := h.onDisk g
  have hst := hcons.toStored
  have hwhole := hfile.wholeFile hs hst
  have hsize := Enough.size_le hs hroom
  have hhole := hkeeps.noHole
  have henough := hkeeps.room
  rw [hopen.inode] at hhole henough
  have hwrote : Hoare (KernelOn e (k.dev.image e) k) (sysWrite e fd buf size) fun _ =>
      WroteFile e (k.dev.image e) n k f.inode fd :=
    (fget_on hopen).bind_eq
      (sysWrite_wrote hs hst hfile.live hopen.file hopen.inode hhole henough buf)
  obtain ⟨J, M, new, off, hw, hk⟩ := hwrote k ⟨hI, .refl k⟩
  obtain ⟨v, hv, hshow⟩ := hI
  have hrun := sysWrite_vol hm hs.quiet g.apart (hfile.fileOn hs hst) hwhole.size_le h0 (by omega)
    hoff (fun _ _ _ _ _ => hfile.freeOn hs hst hshow) buf k ⟨hv, hopen⟩
  rcases hrun with ⟨-, hr, v', inode', hwritten, hvol, hopen'⟩ | ⟨hno, -⟩
  swap
  · exact absurd (hroom.room hshow) hno
  refine ⟨hr, ?_⟩
  generalize (sysWrite e fd buf size k).2 = k' at hsince hk hvol hopen'
  -- the two accounts of the call are of the same inode and the same offset
  obtain rfl : inode' = M := by
    rw [← hopen'.inode, hk.2.objs]
    exact setObj_self _ _ _
  obtain rfl : off = f.offset + min size (extent e f.offset size) := by
    have hfiles := hopen'.file
    rw [hk.2.files, seek_files (k := k.setObj f.inode inode') hopen.file,
      Function.update_self] at hfiles
    exact congrArg File.offset (Option.some.inj hfiles)
  have hsame := hk.1.same g (hk.1.image g)
  have hinode : (k'.dev.image e).inode n = inode' :=
    (hsame.inode n hfile.live.1).trans (Function.update_self _ _ _)
  have hextent : 0 < extent e f.offset size := extent_pos hs.pos h0
  refine ⟨hsince, ⟨?_, ?_, ?_⟩, ?_, hinode.symm ▸ hk.2, ?_⟩
  · rw [hsame.live g, (hst.write hm hfile.live hfile.mode hw).2.1]
    exact hfile.live
  · rw [hinode, hw.mode]
    exact hfile.mode
  · rw [hinode]
    exact hwritten.whole hs hw.packed hextent
  · exact hfile.bytes_written hs hst hshow hoff hextent (hinode.symm ▸ hwritten) hvol.2.disk
  · have hfree : freeIn e (k'.dev.image e) = freeIn e J := hsame.freeIn
    rw [hinode, hfree]
    exact hw.card hs hst hfile

end Written

/-! ### Opening and closing -/

/-- The file `n` has been opened: it has a new object, and a descriptor that was free. -/
structure OpenedFile (e : Env) (I : Image) (k₀ : Kernel) (n i obj : ℕ) (k : Kernel) : Prop
    extends Extends k₀ k where
  image : ImageOn e I k.dev
  lt : i < MAX_FD
  free : k₀.fds i = false
  fds : k.fds = Function.update k₀.fds i true
  files : k.files = Function.update k₀.files i (some { inode := obj, offset := 0 })
  contents : k.objs obj = I.inode n
  fresh : k₀.nextObj ≤ obj ∧ obj < k.nextObj

theorem OpenedFile.openAt {i obj : ℕ} (h : OpenedFile e I k₀ n i obj k) :
    OpenAt i { inode := obj, offset := 0 } (I.inode n) k :=
  ⟨h.lt, by rw [h.files, Function.update_self], h.contents⟩

/-- There is a free descriptor. -/
theorem getUnusedFd_on (hfd : ∃ i < MAX_FD, k₀.fds i = false) :
    Hoare (KernelOn e I k₀) getUnusedFd fun i k => i < MAX_FD ∧ k₀.fds i = false ∧
      KernelOn e I { k₀ with fds := Function.update k₀.fds i true } k := fun k h => by
  rw [getUnusedFd, h.2.fds]
  cases hfind : (List.range MAX_FD).find? fun i => !k₀.fds i with
  | none =>
    rw [List.find?_range_eq_none] at hfind
    obtain ⟨i, hi, hfree⟩ := hfd
    have htaken := hfind i hi
    rw [hfree] at htaken
    cases htaken
  | some i =>
    obtain ⟨hfree, hmem, -⟩ := List.find?_range_eq_some.mp hfind
    exact ⟨List.mem_range.mp hmem, by simpa using hfree, h.1, { h.2 with fds := rfl }⟩

/-- **`sys_open`** of a file that is there. -/
theorem sysOpen_on (hs : Steady e) (hmalloc : ∀ t, e.mallocOk t = true)
    (hcons : Consistent e I names) (hh : DirObjects e I k₀) {path : List UInt8} {flag : ℕ}
    (hpath : Readable path)
    (hwalk : Walk e I flag (components path) (k₀.objs (startObj k₀ path)).iIno (.inode n))
    (hmode : (I.inode n).iMode ≠ TFS_DIR) (hfd : ∃ i < MAX_FD, k₀.fds i = false) :
    Hoare (KernelOn e I k₀) (sysOpen e path flag) fun r k =>
      ∃ i obj : ℕ, r = i ∧ OpenedFile e I k₀ n i obj k := by
  have hnamei : Hoare (KernelOn e I k₀) (namei e path flag) fun r k => ∃ obj k₁, r = .ok obj ∧
      ObjectAt I k₀ k₁ (startObj k₀ path) obj n ∧ KernelOn e I k₁ k :=
    namei_sole hs hmalloc hcons hh hpath hwalk (fun obj k₁ hat _ _ k hk => ⟨obj, k₁, rfl, hat, hk⟩)
      fun _ _ _ _ _ hout => by cases hout
  have hhandles : Hoare (fun k => k.handles = k₀.handles) (namei e path flag) fun _ k =>
      k.handles = k₀.handles := (stable_handles fun h => h = k₀.handles).namei path flag
  refine Hoare.bind ((hnamei.and hhandles).pre fun k h => ⟨h, ?_⟩) fun r => ?_
  · rw [Kernel.handles, Kernel.handles, h.2.root, h.2.pwd, h.2.cwd, h.2.fds, h.2.files, h.2.dirs,
      h.2.nextDir]
  rintro k ⟨⟨obj, k₁, rfl, hat, hk⟩, hsame⟩
  have hfds : k.fds = k₀.fds := congrArg Handles.fds hsame
  have hfiles : k.files = k₀.files := congrArg Handles.files hsame
  have hobj : k.objs obj = I.inode n := (congrFun hk.2.objs obj).trans hat.contents
  -- a file is not the directory at which the walk begins
  have hfresh : k₀.nextObj ≤ obj := by
    refine hat.fresh.resolve_left fun hstart => hmode ?_
    have hdir := hh.start hcons path
    rw [← hat.contents, hstart, hat.objs _ hdir.lt, hdir.contents]
    exact hdir.isDir.mode
  have hext : Extends k₀ k := hat.toExtends.trans
    ⟨fun o _ => congrFun hk.2.objs o, hk.2.nextObj.ge, hk.2.root, hk.2.pwd⟩
  have hrest : Hoare (KernelOn e I k) (do
      if !(← onDev (mallocOk e)) then pure (-ENOMEM)
      else do
        touch obj
        let fd ← getUnusedFd
        if MAX_FD ≤ fd then pure (-EINVAL)
        else fun k => ((fd : ℤ), { k with
          files := Function.update k.files fd (some { inode := obj, offset := 0 }) })
      : KernelM ℤ) fun r k => ∃ i obj : ℕ, r = i ∧ OpenedFile e I k₀ n i obj k := by
    have hmem : Hoare (KernelOn e I k) (onDev (mallocOk e)) fun ok k' =>
        ok = true ∧ KernelOn e I k k' :=
      mallocOk_on.post fun ok k' ⟨⟨t, hok⟩, hk'⟩ => ⟨hok.trans (hmalloc t), hk'⟩
    refine hmem.bind_eq ?_
    rw [if_neg (by decide)]
    refine touch_on.bind fun _ => (getUnusedFd_on (hfds ▸ hfd)).bind fun i => ?_
    rintro k₃ ⟨hi, hfree, hk₃⟩
    rw [if_neg (Nat.not_le.mpr hi)]
    refine ⟨i, obj, rfl, hext.trans ⟨fun o _ => congrFun hk₃.2.objs o, hk₃.2.nextObj.ge,
      hk₃.2.root, hk₃.2.pwd⟩, hk₃.1, hi, hfds ▸ hfree, ?_, ?_, ?_, hfresh, ?_⟩
    · rw [← hfds]
      exact hk₃.2.fds
    · rw [← hfiles]
      exact congrArg (Function.update · i _) hk₃.2.files
    · exact (congrFun hk₃.2.objs obj).trans hobj
    · exact hat.lt.trans_le (hk.2.nextObj.ge.trans hk₃.2.nextObj.ge)
  exact hrest k ⟨hk.1, .refl k⟩

/-- **`sys_close`** of an open file. -/
theorem sysClose_on {inode : Inode} (hopen : OpenAt fd f inode k₀) :
    Hoare (KernelOn e I k₀) (sysClose e fd) fun _ k => KernelOn e I { k₀ with
      fds := Function.update k₀.fds fd false
      files := Function.update k₀.files fd none } k := by
  refine (fget_on hopen).bind_eq (freeInode_on.bind fun _ k h => ⟨h.1, ?_⟩)
  exact { h.2 with
    fds := by rw [Int.toNat_natCast, h.2.fds]
    files := by rw [Int.toNat_natCast, h.2.files] }

/-! ### Runs -/

theorem openAt_of {obj : ℕ} {inode : Inode} (hfd : fd < MAX_FD)
    (hf : k.files fd = some { inode := obj, offset := off }) (hobj : k.objs obj = inode) :
    OpenAt fd { inode := obj, offset := off } inode k := ⟨hfd, hf, hobj⟩

end Thunix.Fs
