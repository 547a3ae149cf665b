import Mathlib.Data.Finset.Card
import Mathlib.Order.Interval.Finset.Nat
import Thunix.Fs.BitmapVol
import Thunix.Fs.InodeTable
import Thunix.Fs.ReadFile

/-!
# Writing files

`sys_write` to an open file without holes, over blocks with known contents. `tfs_write`
writes whole blocks but for the first, which it fills from the offset on; where the file
has no block it allocates one. It goes through exactly if the blocks asked for are not
too many for `i_data`, and those that are missing not too many for the volume
(`Thunix.Fs.Room`), and then the bytes written are those of the caller's buffer, as many as
the blocks have room for (`Thunix.Fs.Written`), and `i_size` is the place behind them. That
is what `sys_write` reports exactly if the blocks do not reach farther than the caller's
bytes and the file does not reach farther than the blocks (`Thunix.Fs.sysWrite_writes_iff`).
-/

namespace Thunix.Fs

variable {e : Env} {S : Set ℕ} {v v' : ℕ → Buf} {inode inode' : Inode} {index n m b : ℕ}

/-! ### Files and free blocks -/

/-- The file has its blocks and its record in `S`, each block once. -/
structure FileOn (e : Env) (S : Set ℕ) (inode : Inode) : Prop where
  blksize : inode.iBlksize = e.sbi.sBlockSize
  mem : ∀ k, inode.iData.getD k 0 ≠ 0 → inode.iData.getD k 0 ∈ S
  once : ∀ j k, inode.iData.getD j 0 = inode.iData.getD k 0 → inode.iData.getD j 0 ≠ 0 → j = k
  ino_pos : 1 ≤ inode.iIno
  ino_lt : inode.iIno < 2 ^ 32
  record_lt : recordBlock e.sbi inode.iIno < 2 ^ 32
  record_mem : recordBlock e.sbi inode.iIno ∈ S
  record_ne : ∀ k, inode.iData.getD k 0 ≠ 0 → inode.iData.getD k 0 ≠ recordBlock e.sbi inode.iIno

/-- The blocks whose bits are clear are free for the file: they are none of its blocks, and
not where the bitmap or the record of the file are. -/
structure FreeOn (e : Env) (S : Set ℕ) (v : ℕ → Buf) (inode : Inode) : Prop where
  straight : Straight e
  area : e.sbi.sDataArea < 8 * e.sbi.sBlockSize
  bitmap_mem : e.sbi.sBlockBitmap ∈ S
  bitmap_ne : ∀ k, inode.iData.getD k 0 ≠ 0 → inode.iData.getD k 0 ≠ e.sbi.sBlockBitmap
  record_ne : recordBlock e.sbi inode.iIno ≠ e.sbi.sBlockBitmap
  free : ∀ b < 8 * e.sbi.sBlockSize, usedIn (v e.sbi.sBlockBitmap) b = false →
    b ∈ S ∧ b ≠ 0 ∧ b ≠ recordBlock e.sbi inode.iIno ∧ b ≠ e.sbi.sBlockBitmap ∧
      ∀ k, inode.iData.getD k 0 ≠ b

/-- The free blocks of a volume, by the content of the bitmap. -/
def freeBlocks (e : Env) (f : Buf) : Finset ℕ :=
  (Finset.range (8 * e.sbi.sBlockSize)).filter fun b => usedIn f b = false

/-- The blocks that a file has not got among `n` from `index` on. -/
def missing (inode : Inode) (index n : ℕ) : Finset ℕ :=
  (Finset.Ico index (index + n)).filter fun k => inode.iData.getD k 0 = 0

theorem mem_freeBlocks {f : Buf} :
    b ∈ freeBlocks e f ↔ b < 8 * e.sbi.sBlockSize ∧ usedIn f b = false := by
  rw [freeBlocks, Finset.mem_filter, Finset.mem_range]

/-- A block that is taken is one less. -/
theorem card_freeBlocks_setBit {f : Buf} (hb : b ∈ freeBlocks e f) :
    (freeBlocks e (setBit f 0 b).2).card + 1 = (freeBlocks e f).card := by
  have herase : freeBlocks e (setBit f 0 b).2 = (freeBlocks e f).erase b := by
    ext k
    rw [Finset.mem_erase, mem_freeBlocks, mem_freeBlocks, usedIn_setBit, Bool.or_eq_false_iff,
      decide_eq_false_iff_not]
    tauto
  rw [herase, Finset.card_erase_add_one hb]

theorem missing_zero : missing inode index 0 = ∅ := by
  rw [missing, Nat.add_zero, Finset.Ico_self, Finset.filter_empty]

theorem card_missing_succ : (missing inode index (n + 1)).card =
    (missing inode (index + 1) n).card + if inode.iData.getD index 0 = 0 then 1 else 0 := by
  have hsplit : Finset.Ico index (index + (n + 1)) =
      insert index (Finset.Ico (index + 1) (index + 1 + n)) := by
    ext k
    rw [Finset.mem_insert, Finset.mem_Ico, Finset.mem_Ico]
    omega
  have hnot : index ∉ missing inode (index + 1) n := fun h => by
    have := (Finset.mem_Ico.mp (Finset.mem_filter.mp h).1).1
    omega
  rw [missing, hsplit, Finset.filter_insert]
  by_cases h0 : inode.iData.getD index 0 = 0
  · rw [if_pos h0, if_pos h0]
    exact Finset.card_insert_of_notMem hnot
  · rw [if_neg h0, if_neg h0]
    rfl

theorem missing_congr (h : ∀ k, index ≤ k → k < index + n →
    (inode.iData.getD k 0 = 0 ↔ inode'.iData.getD k 0 = 0)) :
    missing inode index n = missing inode' index n := by
  refine Finset.filter_congr fun k hk => ?_
  obtain ⟨h1, h2⟩ := Finset.mem_Ico.mp hk
  exact h k h1 h2

/-- There is room for `n` blocks from `index` on. -/
def Room (e : Env) (v : ℕ → Buf) (inode : Inode) (index n : ℕ) : Prop :=
  index + n ≤ TFS_N_BLOCKS ∧
    (missing inode index n).card ≤ (freeBlocks e (v e.sbi.sBlockBitmap)).card

/-! ### A block for the write -/

/-- The block at an index, which the file has or is given. -/
inductive Got (e : Env) (v : ℕ → Buf) (inode : Inode) (index : ℕ) : ℕ → (ℕ → Buf) → Inode → Prop
  | old (present : inode.iData.getD index 0 ≠ 0) :
      Got e v inode index (inode.iData.getD index 0) v inode
  | new {b : ℕ} (absent : inode.iData.getD index 0 = 0) (lt : index < TFS_N_BLOCKS)
      (free : b ∈ freeBlocks e (v e.sbi.sBlockBitmap)) :
      Got e v inode index b (Function.update v e.sbi.sBlockBitmap
        (setBit (v e.sbi.sBlockBitmap) 0 b).2) (inode.setData index b)

variable (hm : Mounted e.sbi) (hq : Quiet e) (hap : Apart e S)

include hm hq hap in
/-- **A block for the write** is got exactly if there is room for it. -/
theorem blockForWrite_vol
    (hfree : inode.iData.getD index 0 = 0 → index < TFS_N_BLOCKS → FreeOn e S v inode) :
    Hoare (Vol e S v) (blockForWrite e inode index) fun r d =>
      (Room e v inode index 1 ∧ ∃ b v', r.1 = .ok b ∧ Got e v inode index b v' r.2 ∧ Vol e S v' d) ∨
      (¬Room e v inode index 1 ∧ ∃ err < 0, r.1 = .error err) := by
  have hcard : (missing inode index 1).card = if inode.iData.getD index 0 = 0 then 1 else 0 := by
    rw [card_missing_succ, missing_zero, Finset.card_empty, Nat.zero_add]
  by_cases h0 : inode.iData.getD index 0 = 0
  · have hbmap : tfsBmap inode index = 0 := by
      rw [tfsBmap]
      split
      · rfl
      · exact h0
    rw [if_pos h0] at hcard
    unfold blockForWrite
    rw [hbmap, if_neg (not_not.mpr rfl)]
    refine .ite (fun hlt => ?_) fun hge => .pure fun d _ =>
      .inr ⟨fun h => hge ?_, _, by decide, rfl⟩
    · obtain ⟨hst, harea, hbm, -, -, -⟩ := hfree h0 hlt
      have hpos := hm.size_pos
      refine (tfsAllocBlock_vol hm hq hst hap hbm harea).bind fun r => ?_
      rintro d (⟨rfl, hall, -⟩ | ⟨k, hk, rfl, hch, hd⟩)
      · -- no block is free
        refine .inr ⟨fun h => ?_, -ENOSPC, by decide, rfl⟩
        have hle := h.2
        rw [hcard] at hle
        obtain ⟨b, hb⟩ := Finset.card_pos.mp (Nat.lt_of_lt_of_le Nat.zero_lt_one hle)
        obtain ⟨hlt', hb⟩ := mem_freeBlocks.mp hb
        rw [hall b hlt'] at hb
        cases hb
      · have hne : k ≠ minusOne := by
          have := hm.size_le
          rw [minusOne]
          omega
        have hmem : k ∈ freeBlocks e (v e.sbi.sBlockBitmap) :=
          mem_freeBlocks.mpr (hch.lt_of_ne harea hne)
        have hback : toU32 k = k := toU32_natCast (by have := hm.size_le; omega)
        rw [if_neg (by omega), hback]
        refine .inl ⟨⟨hlt, ?_⟩, k, _, rfl, .new h0 hlt hmem, hd⟩
        rw [hcard]
        exact Finset.card_pos.mpr ⟨k, hmem⟩
    · exact h.1
  · have hlt : index < TFS_N_BLOCKS := by
      by_contra hge
      exact h0 (getD_of_le (Nat.le_of_not_lt hge))
    have hbmap : tfsBmap inode index = inode.iData.getD index 0 := if_neg (Nat.not_le.mpr hlt)
    unfold blockForWrite
    rw [hbmap, if_pos h0]
    refine .pure fun d h => .inl ⟨⟨hlt, ?_⟩, _, _, rfl, .old h0, h⟩
    rw [hcard, if_neg h0]
    exact Nat.zero_le _

theorem Got.getD (h : Got e v inode index b v' inode') : inode'.iData.getD index 0 = b := by
  cases h with
  | old => rfl
  | new _ lt _ => rw [getD_setData lt, if_pos rfl]

theorem Got.keep (h : Got e v inode index b v' inode') {k : ℕ} (hk : inode.iData.getD k 0 ≠ 0) :
    inode'.iData.getD k 0 = inode.iData.getD k 0 := by
  cases h with
  | old => rfl
  | new absent lt _ =>
    have hki : k ≠ index := by
      rintro rfl
      exact hk absent
    rw [getD_setData lt, if_neg hki]

theorem Got.size (h : Got e v inode index b v' inode') :
    inode'.iSize = inode.iSize ∧ inode'.iIno = inode.iIno := by
  cases h <;> exact ⟨rfl, rfl⟩

/-- The blocks of the file after one more has been got. -/
theorem Got.present (h : Got e v inode index b v' inode') {k : ℕ}
    (hk : inode'.iData.getD k 0 ≠ 0) : k = index ∨ inode.iData.getD k 0 ≠ 0 := by
  cases h with
  | old => exact .inr hk
  | new _ lt _ =>
    rw [getD_setData lt] at hk
    by_cases hki : k = index
    · exact .inl hki
    · rw [if_neg hki] at hk
      exact .inr hk

variable (hfile : FileOn e S inode)

include hfile in
/-- **The file with the block.** -/
theorem Got.file (h : Got e v inode index b v' inode')
    (hneed : inode.iData.getD index 0 = 0 → FreeOn e S v inode) :
    FileOn e S inode' ∧ b ≠ 0 ∧ b ∈ S ∧ b ≠ recordBlock e.sbi inode.iIno := by
  cases h with
  | old present => exact ⟨hfile, present, hfile.mem _ present, hfile.record_ne _ present⟩
  | new absent lt free =>
    obtain ⟨hlt, hclear⟩ := mem_freeBlocks.mp free
    obtain ⟨hS, h0, hrec, -, hother⟩ := (hneed absent).free b hlt hclear
    refine ⟨⟨hfile.blksize, fun k hk => ?_, fun j k hjk hj => ?_, hfile.ino_pos, hfile.ino_lt,
      hfile.record_lt, hfile.record_mem, fun k hk => ?_⟩, h0, hS, hrec⟩
    · rw [getD_setData lt] at hk ⊢
      by_cases hki : k = index
      · rwa [if_pos hki]
      · rw [if_neg hki] at hk ⊢
        exact hfile.mem k hk
    · rw [getD_setData lt] at hjk hj
      rw [getD_setData lt] at hjk
      by_cases hji : j = index <;> by_cases hki : k = index
      · rw [hji, hki]
      · rw [if_pos hji, if_neg hki] at hjk
        exact absurd hjk.symm (hother k)
      · rw [if_neg hji, if_pos hki] at hjk
        exact absurd hjk (hother j)
      · rw [if_neg hji, if_neg hki] at hjk
        rw [if_neg hji] at hj
        exact hfile.once j k hjk hj
    · rw [getD_setData lt] at hk ⊢
      by_cases hki : k = index
      · rw [if_pos hki]
        exact hrec
      · rw [if_neg hki] at hk ⊢
        exact hfile.record_ne k hk

/-- The free blocks after one has been got. -/
theorem Got.free (h : Got e v inode index b v' inode') (hfree : FreeOn e S v inode) :
    FreeOn e S v' inode' ∧ b ≠ e.sbi.sBlockBitmap := by
  cases h with
  | old present => exact ⟨hfree, hfree.bitmap_ne _ present⟩
  | new absent lt free =>
    obtain ⟨hlt, hclear⟩ := mem_freeBlocks.mp free
    obtain ⟨-, -, -, hbm, -⟩ := hfree.free b hlt hclear
    refine ⟨⟨hfree.straight, hfree.area, hfree.bitmap_mem, fun k hk => ?_, hfree.record_ne,
      fun b' hb' hclear' => ?_⟩, hbm⟩
    · rw [getD_setData lt] at hk ⊢
      by_cases hki : k = index
      · rwa [if_pos hki]
      · rw [if_neg hki] at hk ⊢
        exact hfree.bitmap_ne k hk
    · rw [Function.update_self, usedIn_setBit, Bool.or_eq_false_iff,
        decide_eq_false_iff_not] at hclear'
      obtain ⟨hS, h0, hrec, hbm', hother⟩ := hfree.free b' hb' hclear'.2
      refine ⟨hS, h0, hrec, hbm', fun k => ?_⟩
      rw [getD_setData lt]
      by_cases hki : k = index
      · rw [if_pos hki]
        exact Ne.symm hclear'.1
      · rw [if_neg hki]
        exact hother k

/-- The blocks the file had keep their contents. -/
theorem Got.contents (h : Got e v inode index b v' inode')
    (hneed : inode.iData.getD index 0 = 0 → FreeOn e S v inode) {k : ℕ}
    (hk : inode.iData.getD k 0 ≠ 0) : v' (inode.iData.getD k 0) = v (inode.iData.getD k 0) := by
  cases h with
  | old => rfl
  | new absent _ _ => exact Function.update_of_ne ((hneed absent).bitmap_ne k hk) _ _

/-! ### The bytes written -/

/-- The file after `m` bytes of `buf` have been written from `offset` on. -/
structure Written (e : Env) (S : Set ℕ) (v₀ : ℕ → Buf) (inode₀ : Inode) (offset : ℕ) (buf : Buf)
    (m : ℕ) (v : ℕ → Buf) (inode : Inode) : Prop where
  file : FileOn e S inode
  free : FreeOn e S v₀ inode₀ → FreeOn e S v inode
  ino : inode.iIno = inode₀.iIno
  size : inode.iSize = if m = 0 then inode₀.iSize else offset + m
  keep : ∀ k, inode₀.iData.getD k 0 ≠ 0 → inode.iData.getD k 0 = inode₀.iData.getD k 0
  there : ∀ x, offset ≤ x → x < offset + m → inode.iData.getD (x / e.sbi.sBlockSize) 0 ≠ 0
  bytes : ∀ x, inode₀.iData.getD (x / e.sbi.sBlockSize) 0 ≠ 0 ∨ (offset ≤ x ∧ x < offset + m) →
    fileBytes e v inode x =
      if offset ≤ x ∧ x < offset + m then buf (x - offset) else fileBytes e v₀ inode₀ x

variable {v₀ : ℕ → Buf} {inode₀ : Inode} {offset : ℕ} {buf : Buf}

theorem Written.start (hfile : FileOn e S inode₀) : Written e S v₀ inode₀ offset buf 0 v₀ inode₀ :=
  ⟨hfile, fun h => h, rfl, rfl, fun _ _ => rfl, fun x h1 h2 => by omega,
    fun x _ => (if_neg (by omega)).symm⟩

theorem growSize_iSize (hsize : inode.iSize < 2 ^ 32) (hlt : offset + m < 2 ^ 32) :
    (growSize inode offset m).iSize = offset + m := by
  have hmax : max0 (toU32 ((offset : ℤ) + m - inode.iSize)) =
      toU32 ((offset : ℤ) + m - inode.iSize) :=
    if_neg (Nat.not_lt_zero _)
  change (inode.iSize + max0 (toU32 ((offset : ℤ) + m - inode.iSize))) % 2 ^ 32 = _
  rw [hmax, toU32]
  omega

section Chunk

variable (hpos : 0 < e.sbi.sBlockSize) (hw : Written e S v₀ inode₀ offset buf m v inode)
  {off count x : ℕ}

include hw in
/-- The blocks of the bytes that are known are there. -/
theorem Written.present (h : inode₀.iData.getD (x / e.sbi.sBlockSize) 0 ≠ 0 ∨
    (offset ≤ x ∧ x < offset + m)) : inode.iData.getD (x / e.sbi.sBlockSize) 0 ≠ 0 := by
  rcases h with h | h
  · rw [hw.keep _ h]
    exact h
  · exact hw.there x h.1 h.2

section Place

variable (hat : offset + m = index * e.sbi.sBlockSize + off)
  (hend : off + count = e.sbi.sBlockSize)

include hpos hat hend

/-- The bytes written are in the block. -/
theorem div_of_chunk (h1 : offset + m ≤ x) (h2 : x < offset + (m + count)) :
    x / e.sbi.sBlockSize = index := by
  refine (Nat.div_eq_iff hpos).mpr ?_
  omega

/-- A byte that is not in the block has been written before. -/
theorem written_before_chunk (hx : x / e.sbi.sBlockSize ≠ index) :
    offset ≤ x ∧ x < offset + (m + count) ↔ offset ≤ x ∧ x < offset + m := by
  refine ⟨fun h => ⟨h.1, ?_⟩, fun h => by omega⟩
  by_contra hge
  exact hx (div_of_chunk hpos hat hend (Nat.le_of_not_lt hge) h.2)

include hw

variable (hneed : inode.iData.getD index 0 = 0 → FreeOn e S v₀ inode₀)
  (hgot : Got e v inode index b v' inode')

include hgot

/-- The bytes of the block. -/
theorem Written.bytes_in (hx : x / e.sbi.sBlockSize = index)
    (hknown : inode₀.iData.getD (x / e.sbi.sBlockSize) 0 ≠ 0 ∨
      (offset ≤ x ∧ x < offset + (m + count))) :
    fileBytes e (Function.update v' b (blit (v' b) off count fun x => buf (m + x)))
        (growSize inode' offset (m + count)) x =
      if offset ≤ x ∧ x < offset + (m + count) then buf (x - offset)
      else fileBytes e v₀ inode₀ x := by
  have hplace : index * e.sbi.sBlockSize + x % e.sbi.sBlockSize = x := by
    rw [← hx, Nat.mul_comm]
    exact Nat.div_add_mod x _
  have hmod := Nat.mod_lt x hpos
  have hself : fileBytes e (Function.update v' b (blit (v' b) off count fun x => buf (m + x)))
      (growSize inode' offset (m + count)) x =
      blit (v' b) off count (fun x => buf (m + x)) (x % e.sbi.sBlockSize) := by
    change Function.update v' b _ (inode'.iData.getD (x / e.sbi.sBlockSize) 0) _ = _
    rw [hx, hgot.getD, Function.update_self]
  by_cases hlow : x % e.sbi.sBlockSize < off
  · -- before the bytes written, in a block the file had
    have hold := hknown.imp_right fun h => (⟨h.1, by omega⟩ : offset ≤ x ∧ x < offset + m)
    have hthere := hw.present hold
    rw [hx] at hthere
    have hbyte : v' b (x % e.sbi.sBlockSize) = fileBytes e v inode x := by
      cases hgot with
      | old => rw [fileBytes, hx]
      | new absent => exact absurd absent hthere
    have hiff : (offset ≤ x ∧ x < offset + (m + count)) ↔ (offset ≤ x ∧ x < offset + m) := by
      omega
    rw [hself, blit_of_not_mem (by omega), hbyte, hw.bytes x hold]
    simp only [hiff]
  · rw [hself, blit_of_mem (by omega), if_pos (by omega)]
    congr 1
    omega

include hneed

/-- The bytes of other blocks. -/
theorem Written.bytes_out (hx : x / e.sbi.sBlockSize ≠ index)
    (hknown : inode₀.iData.getD (x / e.sbi.sBlockSize) 0 ≠ 0 ∨
      (offset ≤ x ∧ x < offset + (m + count))) :
    fileBytes e (Function.update v' b (blit (v' b) off count fun x => buf (m + x)))
        (growSize inode' offset (m + count)) x =
      if offset ≤ x ∧ x < offset + (m + count) then buf (x - offset)
      else fileBytes e v₀ inode₀ x := by
  have hneed' : inode.iData.getD index 0 = 0 → FreeOn e S v inode := fun h => hw.free (hneed h)
  obtain ⟨hfile, -⟩ := hgot.file hw.file hneed'
  have hiff := written_before_chunk hpos hat hend hx
  have hold := hknown.imp_right hiff.mp
  have hthere := hw.present hold
  have hkeep := hgot.keep hthere
  have hne : inode.iData.getD (x / e.sbi.sBlockSize) 0 ≠ b := fun h =>
    hx (hfile.once _ _ (by rw [hkeep, h, hgot.getD]) (by rw [hkeep]; exact hthere))
  have hbyte : fileBytes e (Function.update v' b (blit (v' b) off count fun x => buf (m + x)))
      (growSize inode' offset (m + count)) x = fileBytes e v inode x := by
    change Function.update v' b _ (inode'.iData.getD (x / e.sbi.sBlockSize) 0) _ = _
    rw [hkeep, Function.update_of_ne hne, hgot.contents hneed' hthere]
    rfl
  rw [hbyte, hw.bytes x hold]
  simp only [hiff]

/-- **The end of a block is written**, from the place that has been reached. -/
theorem Written.chunk (hcount : 0 < count) (hsize : inode₀.iSize < 2 ^ 32)
    (hlt : offset + m + count < 2 ^ 32) :
    Written e S v₀ inode₀ offset buf (m + count)
      (Function.update v' b (blit (v' b) off count fun x => buf (m + x)))
      (growSize inode' offset (m + count)) := by
  obtain ⟨hfile, hb0, hbS, -⟩ := hgot.file hw.file fun h => hw.free (hneed h)
  have hsize' : inode'.iSize < 2 ^ 32 := by
    rw [hgot.size.1, hw.size]
    split <;> omega
  refine ⟨⟨hfile.blksize, hfile.mem, hfile.once, hfile.ino_pos, hfile.ino_lt, hfile.record_lt,
    hfile.record_mem, hfile.record_ne⟩, fun hfree => ?_, ?_, ?_, fun k hk => ?_, fun x h1 h2 => ?_,
    fun x hknown => ?_⟩
  · obtain ⟨hfree', hbm⟩ := hgot.free (hw.free hfree)
    refine ⟨hfree'.straight, hfree'.area, hfree'.bitmap_mem, hfree'.bitmap_ne, hfree'.record_ne, ?_⟩
    rw [Function.update_of_ne hbm.symm]
    exact hfree'.free
  · exact hgot.size.2.trans hw.ino
  · rw [growSize_iSize hsize' (by omega), if_neg (by omega)]
  · have hk' : inode.iData.getD k 0 ≠ 0 := by
      rw [hw.keep k hk]
      exact hk
    exact (hgot.keep hk').trans (hw.keep k hk)
  · change inode'.iData.getD (x / e.sbi.sBlockSize) 0 ≠ 0
    by_cases hx : x / e.sbi.sBlockSize = index
    · rw [hx, hgot.getD]
      exact hb0
    · have hthere := hw.present (.inr ((written_before_chunk hpos hat hend hx).mp ⟨h1, h2⟩))
      rw [hgot.keep hthere]
      exact hthere
  · by_cases hx : x / e.sbi.sBlockSize = index
    · exact hw.bytes_in hpos hat hend hgot hx hknown
    · exact hw.bytes_out hpos hat hend hneed hgot hx hknown

end Place

end Chunk

/-! ### Room -/

/-- Room for one block and then for the others. -/
theorem room_succ {v'' : ℕ → Buf} {inode'' : Inode} (hgot : Got e v inode index b v' inode')
    (hneed : ∀ k, index ≤ k → k < index + (n + 1) → k < TFS_N_BLOCKS →
      inode.iData.getD k 0 = 0 → FreeOn e S v inode)
    (hbm : FreeOn e S v inode → v'' e.sbi.sBlockBitmap = v' e.sbi.sBlockBitmap)
    (hdata : ∀ k, inode''.iData.getD k 0 = inode'.iData.getD k 0) :
    Room e v inode index (n + 1) ↔ Room e v'' inode'' (index + 1) n := by
  have hrest : missing inode'' (index + 1) n = missing inode (index + 1) n :=
    missing_congr fun k hk _ => by
      rw [hdata]
      cases hgot with
      | old => rfl
      | new _ lt _ => rw [getD_setData lt, if_neg (by omega)]
  rw [Room, Room, card_missing_succ, hrest, show index + (n + 1) = index + 1 + n by omega]
  refine and_congr_right fun hle => ?_
  cases hgot with
  | old present =>
    rw [if_neg present, Nat.add_zero]
    rcases (missing inode (index + 1) n).eq_empty_or_nonempty with h0 | ⟨k, hk⟩
    · rw [h0, Finset.card_empty]
      exact iff_of_true (Nat.zero_le _) (Nat.zero_le _)
    · obtain ⟨hIco, h0⟩ := Finset.mem_filter.mp hk
      obtain ⟨h1, h2⟩ := Finset.mem_Ico.mp hIco
      rw [hbm (hneed k (by omega) (by omega) (by omega) h0)]
  | new absent lt free =>
    have hcard := card_freeBlocks_setBit free
    rw [if_pos absent, hbm (hneed index (le_refl _) (by omega) lt absent), Function.update_self]
    omega

theorem Room.le (h : Room e v inode index n) : n ≤ TFS_N_BLOCKS :=
  (Nat.le_add_left n index).trans h.1

theorem Room.one (h : Room e v inode index (n + 1)) : Room e v inode index 1 := by
  obtain ⟨h1, h2⟩ := h
  rw [card_missing_succ] at h2
  refine ⟨by omega, ?_⟩
  rw [card_missing_succ, missing_zero, Finset.card_empty]
  omega

/-! ### `tfs_write` -/

include hm hq hap in
/-- Bytes are copied into a block, which is written. -/
theorem copyAndWrite_vol (hb : b ∈ S) {i off count : ℕ} (hfit : off + count ≤ e.sbi.sBlockSize)
    (src : Buf) : Hoare (Holding e S v i b) (copyAndWrite e b (.entry i) off count src) fun r d =>
      r = 0 ∧ Vol e S (Function.update v b (blit (v b) off count src)) d := by
  refine dataPtr_holding.bind_eq ?_
  have hcopy : Hoare (Holding e S v i b) (copyIn (i * e.sbi.sBlockSize + off) count src) fun _ d =>
      EditedVol e S v i b (blit (v b) off count src) d :=
    (copyIn_edited hfit src).pre fun d h => h.edited hb
  exact hcopy.bind fun _ => tfsBwrite_edited hm hq hap hb false

/-- The outcome of a write of `n` more blocks from `index` on. -/
def Outcome (e : Env) (S : Set ℕ) (v₀ : ℕ → Buf) (inode₀ : Inode) (offset : ℕ) (buf : Buf)
    (v : ℕ → Buf) (inode : Inode) (index n m : ℕ) (r : ℤ × Inode) (d : Dev) : Prop :=
  (Room e v inode index n ∧ r.1 = m ∧
    ∃ v', Vol e S v' d ∧ Written e S v₀ inode₀ offset buf m v' r.2) ∨
  (¬Room e v inode index n ∧ r.1 < 0)

theorem Written.stored (hw : Written e S v₀ inode₀ offset buf m v inode) :
    Written e S v₀ inode₀ offset buf m (iwritten e v inode) inode := by
  refine ⟨hw.file, fun hfree => ?_, hw.ino, hw.size, hw.keep, hw.there, fun x hx => ?_⟩
  · have hfree' := hw.free hfree
    refine ⟨hfree'.straight, hfree'.area, hfree'.bitmap_mem, hfree'.bitmap_ne, hfree'.record_ne, ?_⟩
    rw [iwritten, Function.update_of_ne hfree'.record_ne.symm]
    exact hfree'.free
  · have hthere : inode.iData.getD (x / e.sbi.sBlockSize) 0 ≠ 0 := by
      rcases hx with h | h
      · rw [hw.keep _ h]
        exact h
      · exact hw.there x h.1 h.2
    rw [← hw.bytes x hx, fileBytes, iwritten, Function.update_of_ne (hw.file.record_ne _ hthere)]
    rfl

include hm hq hap in
/-- **The loop of `tfs_write`**, from the start of a block on. -/
theorem tfsWriteLoop_vol (hw : Written e S v₀ inode₀ offset buf m v inode)
    (hat : offset + m = index * e.sbi.sBlockSize) (hindex : index ≤ TFS_N_BLOCKS)
    (hsize : inode₀.iSize < 2 ^ 32)
    (hneed : ∀ k, index ≤ k → k < index + n → k < TFS_N_BLOCKS → inode.iData.getD k 0 = 0 →
      FreeOn e S v₀ inode₀) :
    Hoare (Vol e S v) (tfsWriteLoop e offset buf n index m inode)
      (Outcome e S v₀ inode₀ offset buf v inode index n (m + n * e.sbi.sBlockSize)) := by
  have hpos : 0 < e.sbi.sBlockSize := by have := hm.size_pos; omega
  induction n generalizing index m v inode with
  | zero =>
    rw [tfsWriteLoop, Nat.zero_mul, Nat.add_zero]
    refine (tfsIwrite_vol hm hq hap hw.file.ino_pos hw.file.ino_lt hw.file.record_lt
      hw.file.record_mem).bind_eq (.pure fun d hd => .inl ⟨⟨by omega, ?_⟩, rfl, _, hd, hw.stored⟩)
    rw [missing_zero, Finset.card_empty]
    exact Nat.zero_le _
  | succ n ih =>
    rw [tfsWriteLoop]
    have hfree : inode.iData.getD index 0 = 0 → index < TFS_N_BLOCKS → FreeOn e S v inode :=
      fun h0 hlt => hw.free (hneed index (le_refl _) (by omega) hlt h0)
    refine (blockForWrite_vol hm hq hap hfree).bind fun r d h => ?_
    obtain ⟨res, inode'⟩ := r
    rcases h with ⟨hroom, b, v', rfl, hgot, hd⟩ | ⟨hno, err, herr, rfl⟩
    · have hneed₁ : inode.iData.getD index 0 = 0 → FreeOn e S v₀ inode₀ :=
        hneed index (le_refl _) (by omega) hroom.1
      obtain ⟨-, -, hbS, -⟩ := hgot.file hw.file fun h0 => hw.free (hneed₁ h0)
      have hbound := Nat.mul_le_mul_right e.sbi.sBlockSize hroom.1
      have hle := hm.size_le
      rw [TFS_N_BLOCKS, Nat.succ_mul] at hbound
      have hat' : offset + m = index * e.sbi.sBlockSize + 0 := by rw [hat, Nat.add_zero]
      have hw' := hw.chunk hpos hat' (Nat.zero_add _) hneed₁ hgot hpos hsize (by omega)
      refine request_vol hm hq (fun i => (copyAndWrite_vol hm hq hap hbS (by omega) _).bind_eq ?_)
        d hd
      rw [if_neg (not_not.mpr rfl)]
      refine (ih hw' ?_ hroom.1 ?_).post fun r d h => ?_
      · rw [Nat.succ_mul, ← hat, Nat.add_assoc]
      · intro k h1 h2 h3 h0
        refine hneed k (by omega) (by omega) h3 ?_
        by_contra hk
        exact hk ((hgot.keep hk).symm.trans h0)
      · have hbm : FreeOn e S v inode →
            Function.update v' b (blit (v' b) 0 e.sbi.sBlockSize fun x => buf (m + x))
              e.sbi.sBlockBitmap = v' e.sbi.sBlockBitmap :=
          fun hf => Function.update_of_ne (hgot.free hf).2.symm _ _
        have hdata : ∀ k, (growSize inode' offset (m + e.sbi.sBlockSize)).iData.getD k 0 =
          inode'.iData.getD k 0 := fun _ => rfl
        have hiff := room_succ (n := n) hgot
          (fun k h1 h2 h3 h0 => hw.free (hneed k h1 h2 h3 h0)) hbm hdata
        rw [Outcome, ← hiff, Nat.add_assoc, Nat.add_comm e.sbi.sBlockSize, ← Nat.succ_mul] at h
        exact h
    · exact .inr ⟨fun h => hno h.one, herr⟩

include hm hq hap in
/-- **`tfs_write`** of `n + 1` blocks: the first is filled from the offset on. -/
theorem tfsWrite_vol (hfile : FileOn e S inode) (hsize : inode.iSize < 2 ^ 32) {blocks : ℤ}
    (hblocks : blocks ≠ 0) (hn : toU32 (blocks - 1) = n)
    (hneed : ∀ k, offset / e.sbi.sBlockSize ≤ k → k < offset / e.sbi.sBlockSize + (n + 1) →
      k < TFS_N_BLOCKS → inode.iData.getD k 0 = 0 → FreeOn e S v inode) :
    Hoare (Vol e S v) (tfsWrite e inode offset buf blocks)
      (Outcome e S v inode offset buf v inode (offset / e.sbi.sBlockSize) (n + 1)
        (e.sbi.sBlockSize - offset % e.sbi.sBlockSize + n * e.sbi.sBlockSize)) := by
  have hpos : 0 < e.sbi.sBlockSize := by have := hm.size_pos; omega
  have hdiv := Nat.div_add_mod offset e.sbi.sBlockSize
  have hmod := Nat.mod_lt offset hpos
  rw [Nat.mul_comm] at hdiv
  unfold tfsWrite
  rw [if_neg hblocks, shiftRight_blockShift hm, and_blockSize hm, hn]
  generalize offset / e.sbi.sBlockSize = index at hdiv hneed ⊢
  generalize offset % e.sbi.sBlockSize = off at hdiv hmod ⊢
  have hneed₁ : inode.iData.getD index 0 = 0 → index < TFS_N_BLOCKS → FreeOn e S v inode :=
    fun h0 hlt => hneed index (le_refl _) (by omega) hlt h0
  refine (blockForWrite_vol hm hq hap hneed₁).bind fun r d h => ?_
  obtain ⟨res, inode'⟩ := r
  rcases h with ⟨hroom, b, v', rfl, hgot, hd⟩ | ⟨hno, err, herr, rfl⟩
  · have hneed₂ : inode.iData.getD index 0 = 0 → FreeOn e S v inode := fun h0 => hneed₁ h0 hroom.1
    obtain ⟨-, -, hbS, -⟩ := hgot.file hfile hneed₂
    have hbound := Nat.mul_le_mul_right e.sbi.sBlockSize hroom.1
    have hle := hm.size_le
    rw [TFS_N_BLOCKS, Nat.succ_mul] at hbound
    have hstart : Written e S v inode offset buf 0 v inode := .start hfile
    have hat : offset + 0 = index * e.sbi.sBlockSize + off := by rw [Nat.add_zero, hdiv]
    have hw' := hstart.chunk hpos hat (Nat.add_sub_cancel' hmod.le) hneed₂ hgot (by omega) hsize
      (by omega)
    have hbuf : (fun x => buf (0 + x)) = buf := funext fun x => by rw [Nat.zero_add]
    rw [hbuf, Nat.zero_add] at hw'
    refine request_vol hm hq (fun i => (copyAndWrite_vol hm hq hap hbS (by omega) _).bind_eq ?_)
      d hd
    rw [if_neg (not_not.mpr rfl)]
    refine (tfsWriteLoop_vol hm hq hap hw' ?_ hroom.1 hsize ?_).post fun r d h => ?_
    · rw [Nat.succ_mul]
      omega
    · intro k h1 h2 h3 h0
      refine hneed k (by omega) (by omega) h3 ?_
      by_contra hk
      exact hk ((hgot.keep hk).symm.trans h0)
    · have hbm : FreeOn e S v inode →
          Function.update v' b (blit (v' b) off (e.sbi.sBlockSize - off) buf)
            e.sbi.sBlockBitmap = v' e.sbi.sBlockBitmap :=
        fun hf => Function.update_of_ne (hgot.free hf).2.symm _ _
      have hdata : ∀ k, (growSize inode' offset (e.sbi.sBlockSize - off)).iData.getD k 0 =
        inode'.iData.getD k 0 := fun _ => rfl
      have hiff := room_succ (n := n) hgot hneed hbm hdata
      rw [Outcome, ← hiff] at h
      exact h
  · exact .inr ⟨fun h => hno h.one, herr⟩

/-! ### `sys_write` -/

variable {fd size : ℕ} {f : File}

/-- How many bytes the blocks asked for by `sys_write` have room for from the offset on. -/
def extent (e : Env) (offset size : ℕ) : ℕ :=
  blocksOf e.sbi.sBlockSize size * e.sbi.sBlockSize - offset % e.sbi.sBlockSize

theorem setInode_open (inode' : Inode) : Hoare (OpenVol e S v fd f inode) (setInode f.inode inode')
    fun _ k => OpenVol e S v fd f inode' k := fun k h => by
  rw [setInode, KernelM.bind_apply, touch]
  by_cases ha : k.alive f.inode
  · rw [if_pos ha]
    exact ⟨h.1, h.2.fd_lt, h.2.file, Function.update_self _ _ _⟩
  · rw [if_neg ha]
    exact ⟨h.1, h.2.fd_lt, h.2.file, Function.update_self _ _ _⟩

/-- A computation on the blocks, with any outcome, leaves the descriptor alone. -/
theorem onDev_openAt {α : Type} {x : DevM α} {Q : α → Dev → Prop} (h : Hoare (Vol e S v) x Q) :
    Hoare (OpenVol e S v fd f inode) (onDev x) fun r k => Q r k.dev ∧ OpenAt fd f inode k :=
  fun k hk => ⟨h k.dev hk.1, hk.2.fd_lt, hk.2.file, hk.2.inode⟩

/-- How many rounds `tfs_write` makes for a call of `sys_write`: those of the blocks asked for,
or, when their number has not fit in an `int`, more than there is room for. -/
theorem rounds_eq (hm : Mounted e.sbi) (h0 : 0 < size) (hsize : size < 2 ^ 31) :
    blocksFor e size e.sbi.sBlockSize ≠ 0 ∧
      (toU32 (blocksFor e size e.sbi.sBlockSize - 1) + 1 = blocksOf e.sbi.sBlockSize size ∨
        (TFS_N_BLOCKS < toU32 (blocksFor e size e.sbi.sBlockSize - 1) + 1 ∧
          TFS_N_BLOCKS < blocksOf e.sbi.sBlockSize size ∧
            TFS_N_BLOCKS * e.sbi.sBlockSize ≤ size)) := by
  have hpos : 0 < e.sbi.sBlockSize := by have := hm.size_pos; omega
  have hle := hm.size_le
  by_cases hfit : size + e.sbi.sBlockSize ≤ 2 ^ 31
  · have hb := blocksOf_pos hpos h0
    have hlt : blocksOf e.sbi.sBlockSize size < 2 ^ 32 := by
      have h1 := (blocksOf_spec (n := size) hpos).2 h0
      have h2 := Nat.le_mul_of_pos_right (blocksOf e.sbi.sBlockSize size) hpos
      omega
    rw [blocksFor_eq hm hfit]
    refine ⟨by omega, .inl ?_⟩
    rw [toU32]
    omega
  · -- the sum is read as a negative number
    have hsum : toS32 (toU32 ((size : ℤ) + e.sbi.sBlockSize - 1)) =
        (size : ℤ) + e.sbi.sBlockSize - 1 - 2 ^ 32 := by
      rw [toU32, toS32, if_neg (by omega)]
      omega
    have hneg := Int.ediv_neg_of_neg_of_pos (a := (size : ℤ) + e.sbi.sBlockSize - 1 - 2 ^ 32)
      (b := ((2 ^ e.sbi.sBlockShift : ℕ) : ℤ)) (by omega) (by rw [← hm.size]; omega)
    have habs := Int.natAbs_ediv_le_natAbs ((size : ℤ) + e.sbi.sBlockSize - 1 - 2 ^ 32)
      ((2 ^ e.sbi.sBlockShift : ℕ) : ℤ)
    rw [blocksFor, hsum, Int.shiftRight_eq_div_pow]
    generalize ((size : ℤ) + e.sbi.sBlockSize - 1 - 2 ^ 32) / ((2 ^ e.sbi.sBlockShift : ℕ) : ℤ) = q
      at hneg habs ⊢
    refine ⟨hneg.ne, .inr ⟨?_, ?_, ?_⟩⟩
    · rw [toU32, TFS_N_BLOCKS]
      omega
    · refine Nat.lt_of_not_le fun hb => ?_
      have h1 := (blocksOf_spec (n := size) hpos).1
      have h2 := Nat.mul_le_mul_right e.sbi.sBlockSize hb
      rw [TFS_N_BLOCKS] at h2
      omega
    · rw [TFS_N_BLOCKS]
      omega

/-- **What `sys_write` does**, whatever the offset and the size. -/
theorem sysWrite_vol (hm : Mounted e.sbi) (hq : Quiet e) (hap : Apart e S)
    (hfile : FileOn e S inode)
    (hisize : inode.iSize ≤ TFS_N_BLOCKS * e.sbi.sBlockSize) (h0 : 0 < size) (hsize : size < 2 ^ 31)
    (hoff : f.offset ≤ inode.iSize)
    (hnew : ∀ k < TFS_N_BLOCKS, f.offset / e.sbi.sBlockSize ≤ k →
      k * e.sbi.sBlockSize < f.offset + size → inode.iData.getD k 0 = 0 → FreeOn e S v inode)
    (buf : Buf) :
    Hoare (OpenVol e S v fd f inode) (sysWrite e fd buf size) fun r k =>
      (Room e v inode (f.offset / e.sbi.sBlockSize) (blocksOf e.sbi.sBlockSize size) ∧
        r = (min size (extent e f.offset size) : ℕ) ∧
        ∃ v' inode', Written e S v inode f.offset buf (extent e f.offset size) v' inode' ∧
          OpenVol e S v' fd
            { f with offset := f.offset + min size (extent e f.offset size) } inode' k) ∨
      (¬Room e v inode (f.offset / e.sbi.sBlockSize) (blocksOf e.sbi.sBlockSize size) ∧ r < 0) := by
  have hpos : 0 < e.sbi.sBlockSize := by have := hm.size_pos; omega
  have hle := hm.size_le
  rw [TFS_N_BLOCKS] at hisize
  obtain ⟨hne, hrounds⟩ := rounds_eq hm h0 hsize
  refine fget_open.bind_eq (inodeAt_open.bind_eq ?_)
  dsimp only
  rw [hfile.blksize]
  have hneed : ∀ k, f.offset / e.sbi.sBlockSize ≤ k →
      k < f.offset / e.sbi.sBlockSize + (toU32 (blocksFor e size e.sbi.sBlockSize - 1) + 1) →
      k < TFS_N_BLOCKS → inode.iData.getD k 0 = 0 → FreeOn e S v inode := fun k h1 h2 h3 => by
    refine hnew k h3 h1 ?_
    rcases hrounds with hr | ⟨-, -, hbig⟩
    · rw [hr] at h2
      exact block_lt_of_blocksOf hpos h0 (le_refl _) h2
    · have := Nat.mul_lt_mul_of_pos_right h3 hpos
      omega
  have hroom : Room e v inode (f.offset / e.sbi.sBlockSize)
        (toU32 (blocksFor e size e.sbi.sBlockSize - 1) + 1) ↔
      Room e v inode (f.offset / e.sbi.sBlockSize) (blocksOf e.sbi.sBlockSize size) := by
    rcases hrounds with hr | ⟨h1, h2, -⟩
    · rw [hr]
    · exact iff_of_false (fun h => absurd h.le (Nat.not_le.mpr h1)) fun h =>
        absurd h.le (Nat.not_le.mpr h2)
  have hextent : Room e v inode (f.offset / e.sbi.sBlockSize) (blocksOf e.sbi.sBlockSize size) →
      e.sbi.sBlockSize - f.offset % e.sbi.sBlockSize +
        toU32 (blocksFor e size e.sbi.sBlockSize - 1) * e.sbi.sBlockSize =
          extent e f.offset size := by
    intro h
    have hmod := Nat.mod_lt f.offset hpos
    rcases hrounds with hr | ⟨-, h2, -⟩
    · rw [extent, ← hr, Nat.succ_mul]
      omega
    · exact absurd h.le (Nat.not_le.mpr h2)
  refine (onDev_openAt (tfsWrite_vol hm hq hap hfile (by omega) hne rfl hneed)).bind
    fun r k hk => ?_
  obtain ⟨w, inode'⟩ := r
  obtain ⟨hout, hat⟩ := hk
  rw [Outcome, hroom] at hout
  dsimp only at hout ⊢
  rcases hout with ⟨hyes, rfl, v', hvol, hwritten⟩ | ⟨hno, hw⟩
  · rw [hextent hyes] at hwritten ⊢
    have hextent0 : 0 < extent e f.offset size := by
      have h1 := Nat.mod_lt f.offset hpos
      have h2 := Nat.mul_le_mul_right e.sbi.sBlockSize (blocksOf_pos hpos h0)
      rw [extent]
      omega
    have hmin : minInt size (extent e f.offset size : ℕ) =
        (min size (extent e f.offset size) : ℕ) := by
      rw [minInt]
      split <;> omega
    have hoffset : toU32 ((f.offset : ℤ) + (min size (extent e f.offset size) : ℕ)) =
        f.offset + min size (extent e f.offset size) := by
      rw [toU32]
      omega
    rw [hmin, if_pos (by omega), hoffset, Int.toNat_natCast]
    have hend : Hoare (OpenVol e S v' fd f inode) (do
        setInode f.inode inode'
        setOffset fd (f.offset + min size (extent e f.offset size))
        pure ((min size (extent e f.offset size) : ℕ) : ℤ)) fun r k =>
          r = (min size (extent e f.offset size) : ℕ) ∧
          OpenVol e S v' fd
            { f with offset := f.offset + min size (extent e f.offset size) } inode' k :=
      (setInode_open inode').bind fun _ => (setOffset_open _).bind fun _ => .pure fun k h =>
        ⟨rfl, h⟩
    obtain ⟨hr, hk⟩ := hend k ⟨hvol, hat⟩
    exact .inl ⟨hyes, hr, v', inode', hwritten, hk⟩
  · refine .inr ⟨hno, ?_⟩
    have hmin : minInt size w = w := by
      rw [minInt]
      split <;> omega
    rw [hmin, if_neg (by omega)]
    exact hw

/-! ### When a write is right -/

/-- A byte of the file after the call, as the disk has it. -/
def byteAfter (e : Env) (fd size : ℕ) (f : File) (k : Kernel) (buf : Buf) (x : ℕ) : UInt8 :=
  fileBytes e (diskBlock e.sbi (sysWrite e fd buf size k).2.dev.disk)
    ((sysWrite e fd buf size k).2.objs f.inode) x

/-- What is promised of `sys_write` when it reports bytes written, whatever they are: they are
not more than the caller has given, the file has them and is otherwise what it was, what
lies behind the caller's bytes makes no difference, and `i_size` has grown to the end of
the bytes if it was less. -/
def WritesFile (e : Env) (v : ℕ → Buf) (fd size : ℕ) (f : File) (inode : Inode) (k : Kernel) :
    Prop :=
  ∀ (buf : Buf) (r : ℕ), (sysWrite e fd buf size k).1 = r → 0 < r →
    r ≤ size ∧
    (∀ j < r, byteAfter e fd size f k buf (f.offset + j) = buf j) ∧
    (∀ x < inode.iSize, (x < f.offset ∨ f.offset + r ≤ x) →
      byteAfter e fd size f k buf x = fileBytes e v inode x) ∧
    (∀ buf' : Buf, (∀ j < size, buf' j = buf j) →
      ∀ x < ((sysWrite e fd buf size k).2.objs f.inode).iSize,
        byteAfter e fd size f k buf' x = byteAfter e fd size f k buf x) ∧
    ((sysWrite e fd buf size k).2.objs f.inode).iSize = max inode.iSize (f.offset + r)

/-- The write fails, or the blocks written reach as far as the file, and not farther than
the caller's bytes. -/
def WriteFits (e : Env) (v : ℕ → Buf) (inode : Inode) (offset size : ℕ) : Prop :=
  ¬Room e v inode (offset / e.sbi.sBlockSize) (blocksOf e.sbi.sBlockSize size) ∨
    (extent e offset size ≤ size ∧ inode.iSize ≤ offset + extent e offset size)

theorem Written.byteAfter_eq (hpos : 0 < e.sbi.sBlockSize) (hwhole : WholeFile e S inode)
    (hw : Written e S v inode f.offset buf m v' inode') {k : Kernel} {offset' : ℕ}
    (hopen : OpenVol e S v' fd { f with offset := offset' } inode' (sysWrite e fd buf size k).2)
    {x : ℕ}
    (hx : x < inode.iSize ∨ (f.offset ≤ x ∧ x < f.offset + m)) :
    byteAfter e fd size f k buf x =
      if f.offset ≤ x ∧ x < f.offset + m then buf (x - f.offset) else fileBytes e v inode x := by
  have hpresent : inode.iData.getD (x / e.sbi.sBlockSize) 0 ≠ 0 ∨
      (f.offset ≤ x ∧ x < f.offset + m) := hx.imp_left fun h => hwhole.block_ne _
    (lt_of_le_of_lt (Nat.div_mul_le_self _ _) h)
  have hthere : inode'.iData.getD (x / e.sbi.sBlockSize) 0 ≠ 0 := by
    rcases hpresent with h | h
    · rw [hw.keep _ h]
      exact h
    · exact hw.there x h.1 h.2
  rw [byteAfter, hopen.2.inode, ← hw.bytes x hpresent]
  exact hopen.1.2.disk _ (hw.file.mem _ hthere) _ (Nat.mod_lt _ hpos)

section Fits

variable (hwhole : WholeFile e S inode) {k : Kernel} (h : OpenVol e S v fd f inode k)
  (h0 : 0 < size) (hsize : size < 2 ^ 31) (hoff : f.offset ≤ inode.iSize)
  (hnew : ∀ k < TFS_N_BLOCKS, f.offset / e.sbi.sBlockSize ≤ k →
    k * e.sbi.sBlockSize < f.offset + size → inode.iData.getD k 0 = 0 → FreeOn e S v inode)

include hm hq hap hfile hwhole h h0 hsize hoff hnew

/-- A write that fits is right. -/
theorem writesFile_of_fits (hfits : WriteFits e v inode f.offset size) :
    WritesFile e v fd size f inode k := by
  have hpos : 0 < e.sbi.sBlockSize := by have := hm.size_pos; omega
  have hrun := fun buf => sysWrite_vol hm hq hap hfile hwhole.size_le h0 hsize hoff hnew buf k h
  intro buf r hr hr0
  rcases hrun buf with ⟨hroom, hres, v', inode', hw, hopen⟩ | ⟨-, hneg⟩
  · obtain ⟨hle, hreach⟩ := hfits.resolve_left fun hno => hno hroom
    rw [Nat.min_eq_right hle] at hres hopen
    obtain rfl : r = extent e f.offset size := by omega
    have hbyte := fun {x} => hw.byteAfter_eq hpos hwhole hopen (x := x)
    have hisize : ((sysWrite e fd buf size k).2.objs f.inode).iSize =
        f.offset + extent e f.offset size := by
      rw [hopen.2.inode, hw.size, if_neg (by omega)]
    refine ⟨hle, fun j hj => ?_, fun x hx hout => ?_, fun buf' hbuf x hx => ?_, ?_⟩
    · rw [hbyte (.inr (by omega)), if_pos (by omega), Nat.add_sub_cancel_left]
    · rw [hbyte (.inl hx), if_neg (by omega)]
    · -- the other bytes behind the caller's
      rcases hrun buf' with ⟨-, -, v'', inode'', hw', hopen'⟩ | ⟨hno, -⟩
      · rw [hisize] at hx
        have hx' : x < inode.iSize ∨ (f.offset ≤ x ∧ x < f.offset + extent e f.offset size) := by
          omega
        rw [hbyte hx', hw'.byteAfter_eq hpos hwhole hopen' hx']
        by_cases hin : f.offset ≤ x ∧ x < f.offset + extent e f.offset size
        · rw [if_pos hin, if_pos hin]
          exact hbuf _ (by omega)
        · rw [if_neg hin, if_neg hin]
      · exact absurd hroom hno
    · rw [hisize, Nat.max_eq_right hreach]
  · omega

/-- A write that is right fits. -/
theorem WritesFile.fits (hwrites : WritesFile e v fd size f inode k) :
    WriteFits e v inode f.offset size := by
  have hpos : 0 < e.sbi.sBlockSize := by have := hm.size_pos; omega
  by_contra hfits
  rw [WriteFits, not_or, not_not] at hfits
  obtain ⟨hroom, hfits⟩ := hfits
  have hextent0 : 0 < extent e f.offset size := by
    have h1 := Nat.mod_lt f.offset hpos
    have h2 := Nat.mul_le_mul_right e.sbi.sBlockSize (blocksOf_pos hpos h0)
    rw [extent]
    omega
  -- a byte that the file has not got at the end of what the caller gives
  obtain ⟨y, hy⟩ := exists_ne_byte (fileBytes e v inode (f.offset + size))
  rcases sysWrite_vol hm hq hap hfile hwhole.size_le h0 hsize hoff hnew (fun _ => y) k h with
    ⟨-, hres, v', inode', hw, hopen⟩ | ⟨hno, -⟩
  · obtain ⟨-, -, hframe, -, hgrown⟩ := hwrites (fun _ => y) _ hres (by omega)
    rw [hopen.2.inode, hw.size, if_neg hextent0.ne'] at hgrown
    by_cases hle : extent e f.offset size ≤ size
    · rw [Nat.min_eq_right hle] at hgrown
      exact hfits ⟨hle, by omega⟩
    · -- the blocks end with the file
      rw [Nat.min_eq_left (by omega)] at hgrown hframe
      have hin : f.offset + size < inode.iSize := by omega
      have hbyte := hframe _ hin (.inr (le_refl _))
      rw [hw.byteAfter_eq hpos hwhole hopen (.inl hin), if_pos (by omega)] at hbyte
      exact hy hbyte
  · exact hno hroom

/-- **`sys_write` does what it reports exactly if it fails, or the blocks it writes end with
the caller's bytes or before, and with the file or behind it.** -/
theorem sysWrite_writes_iff :
    WritesFile e v fd size f inode k ↔ WriteFits e v inode f.offset size :=
  ⟨WritesFile.fits hm hq hap hfile hwhole h h0 hsize hoff hnew,
    writesFile_of_fits hm hq hap hfile hwhole h h0 hsize hoff hnew⟩

end Fits

/-! ### The file of two blocks -/

theorem apart_small : Apart (Env.quiet (smallSbi 9)) {4, 6, 7} :=
  apart_of_lt fun b hb => by
    have hlt : b ≤ 7 := by
      rcases hb with rfl | rfl | rfl <;> decide
    have hone : sectorsPerBlock (Env.quiet (smallSbi 9)).sbi = 1 := by decide
    have hoff : (Env.quiet (smallSbi 9)).sbi.sOffset = 0 := rfl
    rw [hone, hoff, TFS_FS_SECTOR]
    omega

theorem getD_twoBlocks {k : ℕ} (h : twoBlocks.iData.getD k 0 ≠ 0) :
    (k = 0 ∧ twoBlocks.iData.getD k 0 = 6) ∨ (k = 1 ∧ twoBlocks.iData.getD k 0 = 7) := by
  rcases k with _ | _ | k
  · exact .inl ⟨rfl, rfl⟩
  · exact .inr ⟨rfl, rfl⟩
  · refine absurd ?_ h
    by_cases hk : k < 6
    · have : ∀ k < 6, twoBlocks.iData.getD (k + 1 + 1) 0 = 0 := by decide
      exact this k hk
    · exact getD_of_le (by rw [TFS_N_BLOCKS]; omega)

theorem fileOn_twoBlocks : FileOn (Env.quiet (smallSbi 9)) {4, 6, 7} twoBlocks := by
  refine ⟨rfl, fun k hk => ?_, fun j k hjk hj => ?_, by decide, by decide, by decide, .inl rfl,
    fun k hk => ?_⟩
  · rcases getD_twoBlocks hk with ⟨-, h⟩ | ⟨-, h⟩ <;> rw [h] <;> simp
  · rcases getD_twoBlocks hj with ⟨rfl, h⟩ | ⟨rfl, h⟩ <;>
      rcases getD_twoBlocks (hjk ▸ hj) with ⟨rfl, h'⟩ | ⟨rfl, h'⟩
    · rfl
    · rw [h, h'] at hjk
      cases hjk
    · rw [h, h'] at hjk
      cases hjk
    · rfl
  · rcases getD_twoBlocks hk with ⟨-, h⟩ | ⟨-, h⟩ <;> rw [h] <;> decide

theorem wholeFile_twoBlocks_record : WholeFile (Env.quiet (smallSbi 9)) {4, 6, 7} twoBlocks :=
  ⟨wholeFile_twoBlocks.size_le, wholeFile_twoBlocks.blksize, wholeFile_twoBlocks.block_ne,
    fun k hk => .inr (wholeFile_twoBlocks.block_mem k hk)⟩

theorem openVol_twoBlocks_record (offset : ℕ) : OpenVol (Env.quiet (smallSbi 9)) {4, 6, 7}
    (diskBlock (smallSbi 9) formatted.disk) 0 { inode := 0, offset } twoBlocks
    (openTwoBlocks offset) :=
  ⟨vol_cacheInit mounted_small (by decide) formatted, by decide, rfl, rfl⟩

/-- The file has the blocks of a write of up to 1024 bytes. -/
theorem new_twoBlocks {size : ℕ} (hsize : size ≤ 1024) (v : ℕ → Buf) (k : ℕ)
    (_ : k < TFS_N_BLOCKS) (_ : 0 / (Env.quiet (smallSbi 9)).sbi.sBlockSize ≤ k)
    (hk : k * (Env.quiet (smallSbi 9)).sbi.sBlockSize < 0 + size)
    (h0 : twoBlocks.iData.getD k 0 = 0) :
    FreeOn (Env.quiet (smallSbi 9)) {4, 6, 7} v twoBlocks := by
  have hbs : (Env.quiet (smallSbi 9)).sbi.sBlockSize = 512 := rfl
  rw [hbs] at hk
  obtain rfl | rfl : k = 0 ∨ k = 1 := by omega
  · cases h0
  · cases h0

/-- **A rewrite of the beginning of a file.** Of the file of 1024 bytes, the first 100 are
written: the whole first block is, and the file is cut to it. -/
theorem not_writesFile : ¬WritesFile (Env.quiet (smallSbi 9))
    (diskBlock (smallSbi 9) formatted.disk) 0 100 { inode := 0, offset := 0 } twoBlocks
    (openTwoBlocks 0) := by
  intro h
  rcases WritesFile.fits mounted_small (quiet_quiet _) apart_small fileOn_twoBlocks
    wholeFile_twoBlocks_record (openVol_twoBlocks_record 0) (by decide) (by decide) (by decide)
    (new_twoBlocks (by decide) _) h with hno | ⟨hle, -⟩
  · refine hno ⟨by decide, ?_⟩
    have hnone : (missing twoBlocks 0 1).card = 0 := by decide
    exact hnone.le.trans (Nat.zero_le _)
  · exact absurd hle (by decide)

/-- The whole file is written. -/
theorem sysWrite_writes_iff_twoBlocks :
    WritesFile (Env.quiet (smallSbi 9)) (diskBlock (smallSbi 9) formatted.disk) 0 1024
      { inode := 0, offset := 0 } twoBlocks (openTwoBlocks 0) ↔
      WriteFits (Env.quiet (smallSbi 9)) (diskBlock (smallSbi 9) formatted.disk) twoBlocks 0 1024 :=
  sysWrite_writes_iff mounted_small (quiet_quiet _) apart_small fileOn_twoBlocks
    wholeFile_twoBlocks_record (openVol_twoBlocks_record 0) (by decide) (by decide) (by decide)
    (new_twoBlocks (le_refl _) _)

end Thunix.Fs
