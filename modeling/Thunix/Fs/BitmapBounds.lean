import Thunix.Fs.BitmapCalls

/-!
# Where the allocators look

The scan for a clear bit goes to the end of the bitmap block, not to the number of blocks
or inodes that the super block gives, and nothing sets the bits past these. So the
numbers handed out are inside the volume under a condition on the bitmap
(`Thunix.Fs.alloc_inside_iff`): when all the numbers of the volume are in use, all the
bits of the block have to be set.
-/

namespace Thunix.Fs

open Pool

variable {e : Env} {d d' : Dev} {cs : CacheRef} {t : ℕ} {used : ℕ → Bool} {r : ℤ}
  {sbi : TfsSbInfo}

/-- The number of a block of the data area. -/
def DataBlock (sbi : TfsSbInfo) (r : ℤ) : Prop := sbi.sDataArea ≤ r ∧ r < sbi.sBlocksCount

instance {sbi : TfsSbInfo} {r : ℤ} : Decidable (DataBlock sbi r) :=
  inferInstanceAs (Decidable (_ ∧ _))

/-- The block of the inode table that `tfs_iwrite` writes for an inode number. -/
def tableBlock (sbi : TfsSbInfo) (inr : ℕ) : ℕ :=
  (sbi.sInodeTable + toU32 ((inr : ℤ) - 1) / sbi.sInodesPerBlock) % 2 ^ 32

/-- The number of an inode of the volume, and its block is one of the inode table. -/
def TableInode (sbi : TfsSbInfo) (r : ℤ) : Prop :=
  ∃ inr : ℕ, r = inr ∧ 1 ≤ inr ∧ inr ≤ sbi.sInodesCount ∧
    sbi.sInodeTable ≤ tableBlock sbi inr ∧ tableBlock sbi inr < sbi.sDataArea

/-! ### The conditions -/

/-- The target is free and in the data area – or one of two numbers that are returned as
`-ENOSPC` – or it is not free, and some free number is a block of the volume, or no bit is
clear. -/
def BlockServed (sbi : TfsSbInfo) (t : ℕ) (used : ℕ → Bool) : Prop :=
  (used t = false ∧ ((t < 2 ^ 31 ∧ sbi.sDataArea ≤ t ∧ t < sbi.sBlocksCount) ∨
    t = minusOne ∨ t = toU32 (-ENOSPC))) ∨
  (used t = true ∧ ((∃ k < 8 * sbi.sBlockSize, used k = false ∧ k < sbi.sBlocksCount) ∨
    ∀ k < 8 * sbi.sBlockSize, used k = true))

/-- Some inode of the volume whose record is before the data area is free, or no bit is
clear. -/
def InodeServed (sbi : TfsSbInfo) (used : ℕ → Bool) : Prop :=
  (∃ k < 8 * sbi.sBlockSize, used k = false ∧ k < sbi.sInodesCount ∧
    sbi.sInodeTable + k / sbi.sInodesPerBlock < sbi.sDataArea) ∨
  ∀ k < 8 * sbi.sBlockSize, used k = true

/-! ### Numbers of blocks -/

theorem toS32_eq_neg_iff {n : ℕ} (hn : n < 2 ^ 32) : toS32 n = -ENOSPC ↔ n = toU32 (-ENOSPC) := by
  have h : toU32 (-ENOSPC) = 2 ^ 32 - 28 := by decide
  rw [h, toS32, ENOSPC]
  split <;> omega

theorem not_dataBlock_of_neg (hr : r < 0) : ¬DataBlock sbi r := fun h => by
  have := h.1
  omega

/-- A number that is returned as it is, or as a negative one. -/
theorem toS32_inside_iff {n : ℕ} (hn : n < 2 ^ 32) (hne : n ≠ minusOne) :
    (toS32 n = -ENOSPC ∨ DataBlock sbi (toS32 n)) ↔
      ((n < 2 ^ 31 ∧ sbi.sDataArea ≤ n ∧ n < sbi.sBlocksCount) ∨ n = minusOne ∨
        n = toU32 (-ENOSPC)) := by
  rw [toS32_eq_neg_iff hn]
  by_cases hlt : n < 2 ^ 31
  · have hno : n ≠ toU32 (-ENOSPC) := by
      rintro rfl
      exact absurd hlt (by decide)
    rw [toS32_of_lt hlt, DataBlock, Nat.cast_le, Nat.cast_lt, or_iff_right hno,
      or_iff_left fun h => h.elim hne hno]
    exact ⟨fun h => ⟨hlt, h⟩, fun h => h.2⟩
  · have hneg : toS32 n < 0 := by
      rw [toS32, if_neg hlt]
      omega
    rw [or_iff_left (not_dataBlock_of_neg hneg), or_iff_right fun h => hlt h.1, or_iff_right hne]

/-- The blocks that `tfs_alloc_block` returns, from the number it settles on. -/
theorem Chosen.block_inside_iff (hs : Sized sbi) {k : ℕ} (ht : t < 2 ^ 32)
    (hbelow : ∀ j < sbi.sDataArea, j < 8 * sbi.sBlockSize → used j = true)
    (h : Chosen (8 * sbi.sBlockSize) t used k)
    (hr : (k = minusOne ∧ r = -ENOSPC) ∨ (k ≠ minusOne ∧ r = toS32 k)) :
    (r = -ENOSPC ∨ DataBlock sbi r) ↔ BlockServed sbi t used := by
  have hsize := hs.size_le
  rcases h with ⟨rfl, hfree⟩ | ⟨htaken, hlt, hfree, hmin⟩ | ⟨htaken, rfl, hall⟩
  · simp only [BlockServed, hfree, true_and, Bool.false_eq_true, false_and, or_false]
    rcases hr with ⟨rfl, rfl⟩ | ⟨hne, rfl⟩
    · simp
    · exact toS32_inside_iff ht hne
  · obtain ⟨hne, rfl⟩ := hr.resolve_left fun h => by
      have := h.1
      rw [minusOne] at this
      omega
    -- the bits before the data area are set, so that the least clear one is not among them
    have hdata : sbi.sDataArea ≤ k := by
      by_contra hk
      rw [hbelow k (by omega) hlt] at hfree
      cases hfree
    have hstep : Step (8 * sbi.sBlockSize) used (.take t) (.number k) _ :=
      .least htaken hlt hfree hmin
    have hiff := hstep.admits_iff (p := fun k => k < sbi.sBlocksCount)
      fun i j _ hij _ hj => lt_of_le_of_lt hij hj
    rw [toS32_of_lt (by omega), BlockServed]
    simp only [htaken, Bool.true_eq_false, false_and, false_or, true_and, reduceCtorEq,
      Answer.number.injEq, exists_eq_left'] at hiff ⊢
    rw [← hiff, DataBlock, ENOSPC]
    omega
  · obtain ⟨-, rfl⟩ := hr.resolve_right fun h => h.1 rfl
    exact iff_of_true (.inl rfl) (.inr ⟨htaken, .inr hall⟩)

/-! ### Numbers of inodes -/

theorem tableBlock_inside_iff {k : ℕ} (hk : k < 2 ^ 31) (hword : sbi.sDataArea < 2 ^ 32) :
    (sbi.sInodeTable ≤ tableBlock sbi (k + 1) ∧ tableBlock sbi (k + 1) < sbi.sDataArea) ↔
      sbi.sInodeTable + k / sbi.sInodesPerBlock < sbi.sDataArea := by
  have hnr : toU32 (((k + 1 : ℕ) : ℤ) - 1) = k := by
    rw [Nat.cast_succ, add_sub_cancel_right, toU32_natCast (by omega)]
  have hdiv : k / sbi.sInodesPerBlock ≤ k := Nat.div_le_self _ _
  rw [tableBlock, hnr]
  generalize k / sbi.sInodesPerBlock = q at hdiv
  omega

theorem Step.inode_inside_iff (hs : Sized sbi) (hword : sbi.sDataArea < 2 ^ 32) {a : Answer}
    {used' : ℕ → Bool} (h : Step (8 * sbi.sBlockSize) used (.take 0) a used')
    (hr : r = resultOf .inode a) : (r = -ENOSPC ∨ TableInode sbi r) ↔ InodeServed sbi used := by
  have hsize := hs.size_le
  have hpos := hs.size_pos
  have hiff := h.admits_iff (p := fun k => k < sbi.sInodesCount ∧
    sbi.sInodeTable + k / sbi.sInodesPerBlock < sbi.sDataArea) fun i j _ hij _ hj =>
      ⟨lt_of_le_of_lt hij hj.1, lt_of_le_of_lt
        (Nat.add_le_add_left (Nat.div_le_div_right hij) _) hj.2⟩
  have hserved : InodeServed sbi used ↔ (a = .full ∨ ∃ k, a = .number k ∧
      k < sbi.sInodesCount ∧ sbi.sInodeTable + k / sbi.sInodesPerBlock < sbi.sDataArea) := by
    rw [hiff, InodeServed]
    cases h0 : used 0 with
    | false =>
      -- the target is the least number of all
      simp only [true_and, Bool.false_eq_true, false_and, or_false]
      refine ⟨?_, fun h => .inl ⟨0, by omega, h0, h⟩⟩
      rintro (⟨k, _, _, hk1, hk2⟩ | hall)
      · exact ⟨by omega, lt_of_le_of_lt
          (Nat.add_le_add_left (Nat.div_le_div_right (Nat.zero_le k)) _) hk2⟩
      · rw [hall 0 (by omega)] at h0
        cases h0
    | true => simp
  have hnumber : ∀ k, k < 8 * sbi.sBlockSize → r = k + 1 → (TableInode sbi r ↔
      k < sbi.sInodesCount ∧ sbi.sInodeTable + k / sbi.sInodesPerBlock < sbi.sDataArea) := by
    intro k hk hrk
    rw [← tableBlock_inside_iff (by omega) hword]
    refine ⟨fun ⟨inr, h1, _, h3, h4⟩ => ?_, fun ⟨h1, h2⟩ =>
      ⟨k + 1, by omega, by omega, by omega, h2⟩⟩
    obtain rfl : inr = k + 1 := by omega
    exact ⟨by omega, h4⟩
  have hlt : ∀ k, a = .number k → k < 8 * sbi.sBlockSize := by
    rintro k rfl
    cases h with
    | target => omega
    | least _ lt _ _ => exact lt
  rw [hserved]
  cases a with
  | number k =>
    have hrk : r = k + 1 := hr
    have hno : r ≠ -ENOSPC := by
      rw [hrk, ENOSPC]
      omega
    simp only [hno, false_or, reduceCtorEq, Answer.number.injEq, exists_eq_left']
    exact hnumber k (hlt k rfl) hrk
  | full => exact iff_of_true (.inl hr) (.inl rfl)
  | given => cases h

/-! ### The areas of the super block -/

/-- A request that has been granted, as a triple. -/
theorem hoare_of_request {sb : TfsSbInfo} {b : ℕ} {d₁ : Dev}
    (h : getCacheBlock e sb b d = (some cs, d₁)) :
    Hoare (fun s => s = d) (getCacheBlock e sb b) fun r s => r = some cs ∧
      BitmapIs d₁.cache d₁.cacheEntries cs (bit d₁.cacheData (d₁.cache cs).data) s := by
  rintro s rfl
  rw [h]
  exact ⟨rfl, rfl, rfl, rfl⟩

/-- The bitmap of a volume of 32 blocks that are all in use. -/
def allInUse : ℕ → UInt8 := fun x => if x < 4 then 0xff else 0

end Thunix.Fs
