import Thunix.Fs.ConsistentDisk

/-!
# Writes to a consistent volume

`tfs_write` takes the blocks that a file does not have one after the other, and writes its record
at the end. What it has done before is known at every turn of the loop (`Thunix.Fs.Writing`): the
blocks taken were free, and no other file is concerned. A write for which there is room
(`Thunix.Fs.Enough`) goes through to the end, and from an offset that leaves no hole it keeps the
volume consistent (`Thunix.Fs.sysWrite_since`).
-/

namespace Thunix.Fs

open SlotMap NameTree

variable {e : Env} {B I J : Image} {lost : Set ℕ} {M : Inode} {k k₀ : Kernel} {d : Dev}
  {b index m n obj : ℕ} {names : NameTable} {new : Set ℕ} {f : File} {fd : ℤ}

/-- A write to the file `n` of the image `I` so far: the image `J`, and the inode `M` in memory. -/
structure Writing (e : Env) (I : Image) (n : ℕ) (J : Image) (M : Inode) (new : Set ℕ) : Prop
    extends Recorded e n M, Takes e I (I.inode n) J M new where
  inode : J.inode = I.inode
  inodeUsed : J.inodeUsed = I.inodeUsed
  data : ∀ b ∉ M.blockList, J.data b = I.data b
  mode : M.iMode = (I.inode n).iMode

/-- The blocks that the bitmap marks as free. -/
def freeIn (e : Env) (I : Image) : Finset ℕ :=
  (Finset.range (8 * e.sbi.sBlockSize)).filter fun b => I.blockUsed b = false

/-- There is room for `count` blocks of a file, from the block `index` on: `i_data` has the words,
and the volume the blocks that the file does not have. -/
structure Enough (e : Env) (I : Image) (M : Inode) (index count : ℕ) : Prop where
  words : index + count ≤ TFS_N_BLOCKS
  blocks : index + count ≤ M.blocks + (freeIn e I).card

/-- The state of a write with `count` blocks to go, when its next block is `index`. -/
def WritingOn (e : Env) (I : Image) (n : ℕ) (M : Inode) (index count : ℕ) (d : Dev) : Prop :=
  ∃ J new, ImageOn e J d ∧ Writing e I n J M new ∧ index ≤ M.blocks ∧ Enough e J M index count

/-- The record has been written. -/
def WrittenOn (e : Env) (I : Image) (n : ℕ) (M : Inode) (d : Dev) : Prop :=
  ∃ J new, ImageOn e (J.setInode n M) d ∧ Writing e I n J M new

theorem Writing.start (hrec : Recorded e n (I.inode n)) : Writing e I n I (I.inode n) ∅ :=
  { hrec with
    blocks := fun _ => (or_iff_left (Set.notMem_empty _)).symm
    used := fun _ => (or_iff_left (Set.notMem_empty _)).symm
    free := fun _ h => h.elim
    inode := rfl
    inodeUsed := rfl
    data := fun _ _ => rfl
    mode := rfl }

/-- A record holds what it held, if mode and block size are the same. -/
theorem stored_congr {M' : Inode} (h : M.stored e = M) (hmode : M'.iMode = M.iMode)
    (hblksize : M'.iBlksize = M.iBlksize) : M'.stored e = M' := by
  rw [Inode.stored_eq_iff, hmode, hblksize]
  exact Inode.stored_eq_iff.mp h

/-- The size does not matter. -/
theorem Writing.grow (h : Writing e I n J M new) (offset m : ℕ) :
    Writing e I n J (growSize M offset m) new where
  packed := h.packed
  area := h.area
  once := h.once
  ino := h.ino
  words := { h.words with size := Nat.mod_lt _ (by decide) }
  stored := stored_congr h.stored rfl rfl
  blocks := h.blocks
  used := h.used
  free := h.free
  inode := h.inode
  inodeUsed := h.inodeUsed
  data := h.data
  mode := h.mode

/-- The contents of a block of the file do not matter. -/
theorem Writing.setData (h : Writing e I n J M new) (hb : b ∈ M.blockList) (f : Buf) :
    Writing e I n (J.setData b f) M new :=
  { h with
    data := fun x hx => by
      have hne : x ≠ b := fun heq => hx (heq ▸ hb)
      exact (Function.update_of_ne hne _ _).trans (h.data x hx) }

/-- **A block is taken.** -/
theorem Writing.take (h : Writing e I n J M new) (hroom : M.blocks < TFS_N_BLOCKS)
    (hold : ∀ b ∈ (I.inode n).blockList, I.blockUsed b = true)
    (hdata : InData e.sbi b) (hb0 : b ≠ 0) (h32 : b < 2 ^ 32) (hfree : J.blockUsed b = false) :
    Writing e I n (J.useBlock b true) (M.setData M.blocks b) (insert b new) := by
  have hclear : I.blockUsed b = false := by
    by_contra hne
    have hset := (h.used b).mpr (.inl (by simpa using hne))
    rw [hfree] at hset
    cases hset
  have hnew : ∀ k < M.blocks, M.iData.getD k 0 ≠ b := fun k hk heq => by
    have hmem := (h.blocks b).mp (Inode.mem_blockList.mpr ⟨k, hk, heq⟩)
    have hset := (h.used b).mpr (hmem.imp_left (hold b))
    rw [hfree] at hset
    cases hset
  have hmem := fun x => Inode.mem_blockList_setData (x := x) h.packed hroom hb0
  have hcount := Inode.blocks_setData h.packed hroom hb0
  have hword : ∀ k, (M.setData M.blocks b).iData.getD k 0 =
      if k = M.blocks then b else M.iData.getD k 0 := fun k => getD_setData hroom
  refine { h with
    packed := h.packed.setData hroom hb0
    area := fun k hk => ?_
    once := fun i hi j hj hij => ?_
    words := h.words.setData h32 hroom
    stored := stored_congr h.stored rfl rfl
    blocks := fun x => ?_
    used := fun x => ?_
    free := fun x hx => ?_
    data := fun x hx => h.data x fun hx' => hx ((hmem x).mpr (.inl hx')) }
  · rw [hcount] at hk
    rw [hword]
    rcases eq_or_ne k M.blocks with rfl | hne
    · rw [if_pos rfl]
      exact hdata
    · rw [if_neg hne]
      exact h.area k (by omega)
  · rw [hcount] at hi hj
    rw [hword, hword] at hij
    rcases eq_or_ne i M.blocks with rfl | hi' <;> rcases eq_or_ne j M.blocks with heq | hj'
    · exact heq.symm
    · rw [if_pos rfl, if_neg hj'] at hij
      exact absurd hij.symm (hnew j (by omega))
    · subst heq
      rw [if_neg hi', if_pos rfl] at hij
      exact absurd hij (hnew i (by omega))
    · rw [if_neg hi', if_neg hj'] at hij
      exact h.once i (by omega) j (by omega) hij
  · rw [hmem, h.blocks, Set.mem_insert_iff, or_assoc, or_comm (a := x = b)]
  · change Function.update J.blockUsed b true x = true ↔ _
    rcases eq_or_ne x b with rfl | hne
    · rw [Function.update_self]
      exact iff_of_true rfl (.inr (.inl rfl))
    · rw [Function.update_of_ne hne, h.used, Set.mem_insert_iff]
      exact or_congr_right (or_iff_right hne).symm
  · rcases hx with rfl | hx
    · exact ⟨hclear, hdata⟩
    · exact h.free x hx

/-- A block that is taken is one less that is free. -/
theorem card_freeIn_useBlock (hb : b < 8 * e.sbi.sBlockSize) (hfree : I.blockUsed b = false) :
    (freeIn e (I.useBlock b true)).card + 1 = (freeIn e I).card := by
  have hmem : b ∈ freeIn e I := Finset.mem_filter.mpr ⟨Finset.mem_range.mpr hb, hfree⟩
  have herase : freeIn e (I.useBlock b true) = (freeIn e I).erase b := by
    ext x
    rw [freeIn, freeIn, Finset.mem_erase, Finset.mem_filter, Finset.mem_filter]
    change _ ∧ Function.update I.blockUsed b true x = false ↔ _
    rcases eq_or_ne x b with rfl | hne
    · rw [Function.update_self]
      exact iff_of_false (fun h => Bool.noConfusion h.2) fun h => h.1 rfl
    · rw [Function.update_of_ne hne, and_iff_right hne]
  rw [herase]
  exact Finset.card_erase_add_one hmem

/-! ### `tfs_write` -/

/-- A block of data that is copied into, and written. -/
theorem copyAndWrite_done (hs : Steady e) {i : ℕ} (hb : InData e.sbi b) {off count : ℕ}
    (hfit : off + count ≤ e.sbi.sBlockSize) (src : Buf) :
    Hoare (HoldingImage e I i b) (copyAndWrite e b (.entry i) off count src) fun r d =>
      r = 0 ∧ ∃ f, ImageOn e (I.setData b f) d := by
  refine dataPtr_image.bind_eq ?_
  refine Hoare.bind ((copyIn_image hfit src).pre fun d h => h.edited hb) fun _ => ?_
  exact (tfsBwrite_image hs hb).post fun _ _ h => ⟨h.1, _, h.2⟩

section Loop

variable (hs : Steady e) (h : Stored e I names) (hn : n ∈ InUse e I)

include hs h hn

/-- The block for a turn of the loop, which the file has or takes. -/
theorem blockForWrite_writing {count : ℕ} :
    Hoare (WritingOn e I n M index (count + 1)) (blockForWrite e M index) fun r d =>
      ∃ b J new, r.1 = .ok b ∧ ImageOn e J d ∧ Writing e I n J r.2 new ∧ b ∈ r.2.blockList ∧
        index < r.2.blocks ∧ Enough e J r.2 (index + 1) count := by
  refine Hoare.exists fun J => Hoare.exists fun new => ?_
  refine Hoare.pre ?_ fun d hd => (⟨hd.1, hd.2⟩ : ImageOn e J d ∧ Writing e I n J M new ∧
    index ≤ M.blocks ∧ Enough e J M index (count + 1))
  refine Hoare.assume fun ⟨hw, hle, hwords, hblocks⟩ => ?_
  unfold blockForWrite
  rcases Nat.lt_or_eq_of_le hle with hlt | rfl
  · have hbmap : tfsBmap M index = M.iData.getD index 0 :=
      if_neg (Nat.not_le.mpr (hlt.trans_le M.blocks_le))
    rw [hbmap, if_pos (Inode.getD_ne hlt)]
    exact .pure fun d hd => ⟨_, J, new, rfl, hd, hw,
      Inode.mem_blockList.mpr ⟨index, hlt, rfl⟩, hlt, by omega,
      (by omega : index + 1 + count ≤ M.blocks + (freeIn e J).card)⟩
  · have hbmap : tfsBmap M M.blocks = 0 := by
      rw [tfsBmap]
      split
      · rfl
      · exact M.getD_blocks
    have hroom : M.blocks < TFS_N_BLOCKS := by omega
    rw [hbmap, if_neg (not_not.mpr rfl), if_pos hroom]
    refine (tfsAllocBlock_image hs).bind fun r => ?_
    rintro d (⟨-, hall, -⟩ | ⟨b, hb, rfl, hfree, hd⟩)
    · -- a block is free
      have hpos : 0 < (freeIn e J).card := by omega
      obtain ⟨x, hx⟩ := Finset.card_pos.mp hpos
      obtain ⟨hx, hxfree⟩ := Finset.mem_filter.mp hx
      rw [hall x (Finset.mem_range.mp hx)] at hxfree
      cases hxfree
    · -- what is free now was free before
      have hdata : InData e.sbi b := by
        refine h.fits.blocks b hb ?_
        by_contra hne
        have hset := (hw.used b).mpr (.inl (by simpa using hne))
        rw [hfree] at hset
        cases hset
      have hb0 : b ≠ 0 := by
        have h1 := hs.geometry.area_pos
        have h2 := hdata.1
        omega
      have h32 : b < 2 ^ 32 :=
        (hs.geometry.lt_two_pow (show b ∈ volume e.sbi from hdata.2)).trans (by decide)
      have hback : toU32 b = b := toU32_natCast h32
      have hw' := hw.take hroom (fun x hx => (h.used_of_mem hn hx).2) hdata hb0 h32 hfree
      have hcount : (M.setData M.blocks b).blocks = M.blocks + 1 :=
        Inode.blocks_setData hw.packed hroom hb0
      have hcard := card_freeIn_useBlock hb hfree
      rw [if_neg (by omega), hback]
      refine ⟨b, _, _, rfl, hd, hw', ?_, ?_, ?_⟩
      · exact (Inode.mem_blockList_setData hw.packed hroom hb0).mpr (.inr rfl)
      · change M.blocks < (M.setData M.blocks b).blocks
        omega
      · refine ⟨by omega, ?_⟩
        change M.blocks + 1 + count ≤ (M.setData M.blocks b).blocks + _
        omega

omit h hn in
/-- **One block of a write.** -/
theorem writeBlock_writing {J : Image} (hw : Writing e I n J M new) (hb : b ∈ M.blockList)
    (hlt : index < M.blocks) {left : ℕ} (hleft : Enough e J M (index + 1) left) {off count : ℕ}
    (hfit : off + count ≤ e.sbi.sBlockSize) (src : Buf)
    {F : Option CacheRef → DevM (ℤ × Inode)} {g : ℤ → DevM (ℤ × Inode)}
    (hF : ∀ cs, F (some cs) = copyAndWrite e b cs off count src >>= g)
    (hg : Hoare (WritingOn e I n M (index + 1) left) (g 0) fun r => WrittenOn e I n r.2) :
    Hoare (ImageOn e J) (getCacheBlock e e.sbi b >>= F) fun r => WrittenOn e I n r.2 := by
  have hdata : InData e.sbi b := by
    obtain ⟨k, hk, rfl⟩ := Inode.mem_blockList.mp hb
    exact hw.area k hk
  refine request_image hs fun i => ?_
  rw [hF]
  refine (copyAndWrite_done hs hdata hfit src).bind fun r => ?_
  rintro d ⟨rfl, buf, hd⟩
  exact hg d ⟨_, new, hd, hw.setData hb buf, hlt, { hleft with }⟩

theorem tfsWriteLoop_writing (offset : ℕ) (buf : Buf) (blocks index m : ℕ) :
    Hoare (WritingOn e I n M index blocks) (tfsWriteLoop e offset buf blocks index m M)
      fun r => WrittenOn e I n r.2 := by
  induction blocks generalizing index m M with
  | zero =>
    rw [tfsWriteLoop]
    refine Hoare.exists fun J => Hoare.exists fun new => ?_
    refine Hoare.pre ?_ fun d hd => (⟨hd.1, hd.2.1⟩ : ImageOn e J d ∧ Writing e I n J M new)
    refine Hoare.assume fun hw => ?_
    refine (tfsIwrite_image hs (hw.ino.symm ▸ hn.1) hw.words).bind_eq ?_
    rw [if_neg (not_not.mpr rfl), hw.stored, hw.ino]
    exact .pure fun d hd => ⟨J, new, hd, hw⟩
  | succ blocks ih =>
    rw [tfsWriteLoop]
    refine (blockForWrite_writing hs h hn).bind fun r => ?_
    obtain ⟨res, M'⟩ := r
    rintro d ⟨b, J, new, hr, hd, hw, hb, hlt, hleft⟩
    obtain rfl : res = .ok b := hr
    refine writeBlock_writing (M := M') hs hw hb hlt hleft (Nat.zero_add _).le
      (fun i => buf (m + i)) (fun cs => rfl) ?_ d hd
    rw [if_neg (not_not.mpr rfl)]
    refine (ih (M := growSize M' offset (m + e.sbi.sBlockSize)) _ _).pre ?_
    rintro d ⟨J, new, hd, hw, hle, hleft⟩
    exact ⟨J, new, hd, hw.grow _ _, hle, { hleft with }⟩

/-- **`tfs_write`**, from an offset that leaves no hole, when there is room. -/
theorem tfsWrite_writing (offset : ℕ) (buf : Buf) (blocks : ℤ)
    (hle : offset >>> e.sbi.sBlockShift ≤ (I.inode n).blocks)
    (hroom : blocks ≠ 0 →
      Enough e I (I.inode n) (offset >>> e.sbi.sBlockShift) (toU32 (blocks - 1) + 1)) :
    Hoare (ImageOn e I) (tfsWrite e (I.inode n) offset buf blocks) fun r =>
      WrittenOn e I n r.2 := by
  have hm := hs.geometry.mounted
  have hmod := Nat.mod_lt offset (show 0 < e.sbi.sBlockSize by have := hm.size_pos; omega)
  have hstart := Writing.start (h.record n hn)
  have hself : I.setInode n (I.inode n) = I := by
    rw [Image.setInode, Function.update_eq_self]
  unfold tfsWrite
  rw [and_blockSize hm]
  refine .ite (fun _ => .pure fun d hd => ⟨I, ∅, hself.symm ▸ hd, hstart⟩) fun hblocks => ?_
  refine Hoare.pre ?_ fun d hd => (⟨I, ∅, hd, hstart, hle, hroom hblocks⟩ :
    WritingOn e I n (I.inode n) (offset >>> e.sbi.sBlockShift) (toU32 (blocks - 1) + 1) d)
  refine (blockForWrite_writing hs h hn).bind fun r => ?_
  obtain ⟨res, M'⟩ := r
  rintro d ⟨b, J, new, hr, hd, hw, hb, hlt, hleft⟩
  obtain rfl : res = .ok b := hr
  have hfit : offset % e.sbi.sBlockSize + (e.sbi.sBlockSize - offset % e.sbi.sBlockSize) ≤
      e.sbi.sBlockSize := by omega
  refine writeBlock_writing (M := M') hs hw hb hlt hleft hfit buf (fun cs => rfl) ?_ d hd
  rw [if_neg (not_not.mpr rfl)]
  refine (tfsWriteLoop_writing hs h hn _ _ _ _ _).pre ?_
  rintro d ⟨J, new, hd, hw, hle, hleft⟩
  exact ⟨J, new, hd, hw.grow _ _, hle, { hleft with }⟩

end Loop

/-! ### The image afterwards -/

/-- **A file that has been written**: the books are kept. -/
theorem Stored.write (hm : Mounted e.sbi) (h : Stored e I names) (hn : n ∈ InUse e I)
    (hfile : (I.inode n).iMode ≠ TFS_DIR) (hw : Writing e I n J M new) :
    Stored e (J.setInode n M) names ∧ InUse e (J.setInode n M) = InUse e I ∧
      ∀ x, x ≠ n → (J.setInode n M).inode x = I.inode x := by
  have hself : (J.setInode n M).inode n = M := Function.update_self _ _ _
  have hother : ∀ x, x ≠ n → (J.setInode n M).inode x = I.inode x := fun x hx => by
    rw [← hw.inode]
    exact Function.update_of_ne hx _ _
  have hlive : InUse e (J.setInode n M) = InUse e I := by
    rw [InUse, InUse, ← hw.inodeUsed]
    rfl
  have hmode : ∀ x, ((J.setInode n M).inode x).iMode = (I.inode x).iMode := fun x => by
    rcases eq_or_ne x n with rfl | hx
    · rw [hself, hw.mode]
    · rw [hother x hx]
  have hdir : ∀ x, IsDir e (J.setInode n M) x ↔ IsDir e I x := fun x =>
    ⟨fun hx => isDir_of_live (hlive ▸ hx.live) (hmode x ▸ hx.mode),
      fun hx => isDir_of_live (hlive.symm ▸ hx.live) ((hmode x).symm ▸ hx.mode)⟩
  refine ⟨⟨⟨fun b hb hfree => ?_, ?_⟩, fun x hx => ?_, ?_, fun x hx => ?_,
    fun x a c hc => (hdir x).mpr (h.only x a c hc)⟩, hlive, hother⟩
  · refine h.fits.blocks b hb ?_
    by_contra hne
    have hset := (hw.used b).mpr (.inl (by simpa using hne))
    rw [show J.blockUsed b = false from hfree] at hset
    cases hset
  · rw [show (J.setInode n M).inodeUsed = I.inodeUsed from hw.inodeUsed]
    exact h.fits.inodes
  · rw [hlive] at hx
    rcases eq_or_ne x n with rfl | hxn
    · rw [hself]
      exact hw.toRecorded
    · rw [hother x hxn]
      exact h.record x hx
  · have hused : UsedData e (J.setInode n M) = UsedData e I ∪ new := Set.ext fun b => by
      change _ ∧ J.blockUsed b = true ↔ (_ ∧ _) ∨ _
      rw [hw.used, and_or_left]
      exact or_congr_right (and_iff_right_of_imp fun hb => (hw.free b hb).2)
    rw [hlive, hused]
    refine h.ledger.take hn ?_ (Set.ext fun b => ?_) fun x _ hxn => ?_
    · refine Set.disjoint_left.mpr fun b hb hb' => ?_
      have hfree := (hw.free b hb).1
      rw [hb'.2] at hfree
      cases hfree
    · rw [listed, hself]
      exact hw.blocks b
    · rw [listed, listed, hother x hxn]
  · rw [hdir] at hx
    have hxn : x ≠ n := by
      rintro rfl
      exact hfile hx.mode
    rw [hother x hxn]
    refine (h.dir x hx).congr (dirTable_agree hm fun b hb => ?_) ?_
    · refine hw.data b fun hb' => ?_
      rcases (hw.blocks b).mp hb' with hbn | hbnew
      · exact h.notMem_of_mem hx.live hn hxn hb hbn
      · have hfree := (hw.free b hbnew).1
        rw [(h.used_of_mem hx.live hb).2] at hfree
        cases hfree
    · rw [(h.record x hx.live).ino]
      exact hother x hxn

/-- The blocks written are not those of another file. -/
theorem Stored.filesKept_write (hm : Mounted e.sbi) (h : Stored e I names) (hn : n ∈ InUse e I)
    (hfile : (I.inode n).iMode ≠ TFS_DIR) (hw : Writing e I n J M new) :
    FilesKept e I (J.setInode n M) {n} := fun x hx _ hxn => by
  obtain ⟨-, hlive, hother⟩ := h.write hm hn hfile hw
  refine ⟨hlive.symm ▸ hx, hother x hxn, fun b hb => ?_⟩
  have hnot : b ∉ M.blockList := fun hb' => by
    rcases (hw.blocks b).mp hb' with hbn | hbnew
    · exact h.notMem_of_mem hx hn hxn hb hbn
    · have hfree := (hw.free b hbnew).1
      rw [(h.used_of_mem hx hb).2] at hfree
      cases hfree
  have hdata : (J.setInode n M).data b = I.data b := hw.data b hnot
  rw [hdata]
  exact fun _ _ => rfl

theorem Consistent.write (hm : Mounted e.sbi) (h : Consistent e I names) (hn : n ∈ InUse e I)
    (hfile : (I.inode n).iMode ≠ TFS_DIR) (hw : Writing e I n J M new) :
    Consistent e (J.setInode n M) names ∧
      ∀ x, IsDir e I x → IsDir e (J.setInode n M) x ∧ (J.setInode n M).inode x = I.inode x := by
  obtain ⟨hstored, hlive, hother⟩ := h.toStored.write hm hn hfile hw
  have hne : ∀ x, (I.inode x).iMode = TFS_DIR → x ≠ n := by
    rintro x hx rfl
    exact hfile hx
  refine ⟨⟨hstored, ?_, ?_, fun x hx => ?_⟩, fun x hx => ?_⟩
  · rw [hlive]
    exact h.tree
  · rw [hother _ (hne _ h.root)]
    exact h.root
  · refine h.dots x (isDir_of_live (hlive ▸ hx.live) ?_)
    have hmode := hx.mode
    rcases eq_or_ne x n with rfl | hxn
    · rw [show (J.setInode x M).inode x = M from Function.update_self _ _ _, hw.mode] at hmode
      exact hmode
    · rwa [hother x hxn] at hmode
  · rw [hother x (hne x hx.mode)]
    refine ⟨isDir_of_live (hlive.symm ▸ hx.live) ?_, rfl⟩
    rw [hother x (hne x hx.mode)]
    exact hx.mode

/-! ### Calls on an open file -/

/-- The object of an open file is the file as it is on the disk, and a write from the offset leaves
no hole and has room. -/
structure WriteKeeps (e : Env) (k : Kernel) (f : File) (size : ℤ) : Prop where
  inUse : (k.objs f.inode).iIno ∈ InUse e (k.dev.image e)
  contents : k.objs f.inode = (k.dev.image e).inode (k.objs f.inode).iIno
  file : (k.objs f.inode).iMode ≠ TFS_DIR
  noHole : f.offset >>> e.sbi.sBlockShift ≤ (k.objs f.inode).blocks
  room : blocksFor e size (k.objs f.inode).iBlksize ≠ 0 →
    Enough e (k.dev.image e) (k.objs f.inode) (f.offset >>> e.sbi.sBlockShift)
      (toU32 (blocksFor e size (k.objs f.inode).iBlksize - 1) + 1)

/-- The file that a call on a descriptor writes. -/
def writtenBy (k : Kernel) (fd : ℤ) : Set ℕ :=
  {n | ∃ f, k.files fd.toNat = some f ∧ (k.objs f.inode).iIno = n}

/-- The object of a file changes, and the directories in memory do not. -/
theorem DirObjects.setFile {I' : Image} (hh : DirObjects e I k)
    (hfile : (k.objs obj).iMode ≠ TFS_DIR)
    (hdirs : ∀ x, IsDir e I x → IsDir e I' x ∧ I'.inode x = I.inode x) (inode : Inode) :
    DirObjects e I' (k.setObj obj inode) := by
  have hset : ∀ {o x}, DirObject e I k o x → DirObject e I' (k.setObj obj inode) o x :=
    fun {o x} hx => by
      have hne : o ≠ obj := by
        rintro rfl
        rw [hx.contents] at hfile
        exact hfile hx.isDir.mode
      obtain ⟨hdir, hinode⟩ := hdirs x hx.isDir
      exact ⟨hx.lt, hdir, by rw [setObj_of_ne hne, hx.contents, hinode]⟩
  obtain ⟨n, hn⟩ := hh.pwd
  exact ⟨hset hh.root, n, hset hn⟩

theorem setOffset_since (fd offset : ℕ) : Preserves (Since e B lost) (setOffset fd offset) :=
  fun _ h => h.congr (fun _ h => h) rfl rfl rfl rfl

theorem inodeAt_since : Preserves (Since e B lost) (inodeAt obj) := touch_since.bind fun _ _ h => h

/-- The file of a descriptor is found without a change. -/
theorem fget_file (h : (fget e fd k).1 = some (.file f)) :
    k.files fd.toNat = some f ∧ (fget e fd k).2 = k := by
  unfold fget at h ⊢
  by_cases hout : fd < 0 ∨ fd > MAX_FD
  · rw [if_pos hout] at h
    cases h
  · rw [if_neg hout] at h ⊢
    by_cases hmax : fd = MAX_FD
    · rw [if_pos hmax, KernelM.bind_apply] at h
      split at h <;> cases h
    · rw [if_neg hmax] at h ⊢
      cases hf : k.files fd.toNat with
      | none =>
        rw [hf] at h
        cases h
      | some f' =>
        rw [hf] at h
        cases h
        exact ⟨rfl, rfl⟩

/-- **A call on an open file**, in the state it begins in. -/
theorem withFile_run {call : File → KernelM ℤ} (h : Since e B lost k)
    (hcall : ∀ f, k.files fd.toNat = some f → Since e B lost (call f k).2) :
    Since e B lost (withFile e fd call k).2 := by
  have hget := fget_since fd k h
  have hfile : ∀ f, (fget e fd k).1 = some (.file f) →
      k.files fd.toNat = some f ∧ (fget e fd k).2 = k := fun f => fget_file
  rw [withFile, KernelM.bind_apply]
  generalize fget e fd k = r at hget hfile
  obtain ⟨r, k'⟩ := r
  rcases r with _ | ⟨f⟩ | _ | _
  · exact hget
  · obtain ⟨hf, rfl⟩ := hfile f rfl
    exact hcall f hf
  · exact hget
  · exact Preserves.bind (fault_since _) (fun _ => uninitialised_since) k' hget

theorem sysLseek_since (off : ℤ) (mode : ℕ) : Preserves (Since e B lost) (sysLseek e fd off mode) :=
  withFile_since fd fun _ => .ite ((setOffset_since _ _).bind fun _ => .pure _ _) <|
    .ite (inodeAt_since.bind fun _ => (setOffset_since _ _).bind fun _ => .pure _ _) <|
      .ite ((setOffset_since _ _).bind fun _ => .pure _ _) (.pure _ _)

/-- The offset of a descriptor is set. -/
def Kernel.seek (k : Kernel) (fd offset : ℕ) : Kernel := (setOffset fd offset k).2

theorem Alike.seek (h : Alike k₀ k) (fd off : ℕ) : Alike (k₀.seek fd off) (k.seek fd off) :=
  { h with files := by rw [Kernel.seek, Kernel.seek, setOffset, setOffset, h.files] }

theorem setOffset_on (fd off : ℕ) : Hoare (KernelOn e I k₀) (setOffset fd off) fun _ =>
    KernelOn e I (k₀.seek fd off) := fun _ h => ⟨h.1, h.2.seek fd off⟩

theorem seek_files {i : ℕ} (hf : k.files i = some f) (off : ℕ) :
    (k.seek i off).files = Function.update k.files i (some { f with offset := off }) := by
  rw [Kernel.seek, setOffset, hf]
  rfl

theorem seek_self {i : ℕ} (hf : k.files i = some f) : k.seek i f.offset = k := by
  have hfiles := seek_files hf f.offset
  rw [Kernel.seek, setOffset] at hfiles ⊢
  dsimp only at hfiles ⊢
  rw [hfiles, ← hf, Function.update_eq_self]

/-- After a write to the file `n`, through an object: the image is that of the file as it has been
written, and besides the object and the offset nothing is changed. -/
def WroteFile (e : Env) (I : Image) (n : ℕ) (k₀ : Kernel) (obj fd : ℕ) (k : Kernel) : Prop :=
  ∃ J M new off, Writing e I n J M new ∧
    KernelOn e (J.setInode n M) ((k₀.setObj obj M).seek fd off) k

/-- **What `sys_write` does** with the file of a descriptor. -/
theorem sysWrite_wrote (hs : Steady e) (hst : Stored e I names) (hn : n ∈ InUse e I)
    (hf : k₀.files fd.toNat = some f) (hobj : k₀.objs f.inode = I.inode n)
    (hhole : f.offset >>> e.sbi.sBlockShift ≤ (I.inode n).blocks) {size : ℤ}
    (hroom : blocksFor e size (I.inode n).iBlksize ≠ 0 →
      Enough e I (I.inode n) (f.offset >>> e.sbi.sBlockShift)
        (toU32 (blocksFor e size (I.inode n).iBlksize - 1) + 1)) (buf : Buf) :
    Hoare (KernelOn e I k₀) (do
      let inode ← inodeAt f.inode
      let (bytesWritten, inode) ←
        onDev (tfsWrite e inode f.offset buf (blocksFor e size inode.iBlksize))
      setInode f.inode inode
      let bytesWritten := minInt size bytesWritten
      if bytesWritten > 0 then setOffset fd.toNat (toU32 (f.offset + bytesWritten))
      pure bytesWritten : KernelM ℤ) fun _ => WroteFile e I n k₀ f.inode fd.toNat := by
  refine Hoare.bind_eq (inodeAt_on.post fun r k h => ⟨h.1.trans hobj, h.2⟩) ?_
  refine (onDev_on (tfsWrite_writing hs hst hn f.offset buf
    (blocksFor e size (I.inode n).iBlksize) hhole hroom)).bind fun ⟨w, M⟩ => ?_
  rintro k ⟨⟨J, new, hJ, hw⟩, halike⟩
  have hset : Hoare (KernelOn e (J.setInode n M) k₀) (setInode f.inode M) fun _ =>
      KernelOn e (J.setInode n M) (k₀.setObj f.inode M) := setInode_on M
  refine (Hoare.bind hset fun _ => ?_ : Hoare _ _ fun _ => WroteFile e I n k₀ f.inode fd.toNat)
    k ⟨hJ, halike⟩
  have hself : (k₀.setObj f.inode M).seek fd.toNat f.offset = k₀.setObj f.inode M := seek_self hf
  refine .ite (fun _ => (setOffset_on _ _).bind fun _ => .pure fun k hk => ?_) fun _ =>
    .pure fun k hk => ⟨J, M, new, f.offset, hw, by rwa [hself]⟩
  exact ⟨J, M, new, _, hw, hk⟩

/-- **`sys_write`** keeps the volume consistent, and changes no file but its own. -/
theorem sysWrite_since (hs : Steady e) (h : Sane e k) (buf : Buf) (size : ℤ)
    (hok : ∀ f, k.files fd.toNat = some f → WriteKeeps e k f size) :
    Since e (k.dev.image e) (writtenBy k fd) (sysWrite e fd buf size k).2 := by
  refine withFile_run (h.since hs.geometry) fun f hf => ?_
  obtain ⟨hlive, hobj, hfile, hhole, hroom⟩ := hok f hf
  obtain ⟨hI, ⟨names, hcons⟩, hh⟩ := h.onDisk hs.geometry
  rw [hobj] at hhole hroom
  obtain ⟨J, M, new, off, hw, hk⟩ :=
    sysWrite_wrote hs hcons.toStored hlive hf hobj hhole hroom buf k ⟨hI, .refl k⟩
  have hmode := hobj ▸ hfile
  obtain ⟨hcons', hdirs⟩ := hcons.write hs.geometry.mounted hlive hmode hw
  refine since_of_on hk hcons' ((hh.setFile hfile hdirs M).congr rfl rfl (fun _ _ => rfl) le_rfl)
    ((hcons.toStored.filesKept_write hs.geometry.mounted hlive hmode hw).mono fun x hx _ => ?_)
  exact ⟨f, hf, hx.symm⟩

end Thunix.Fs
