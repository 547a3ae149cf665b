import Mathlib.Data.Nat.Bitwise
import Thunix.Fs.Bitops

/-!
# Block groups

`ext2_get_group_num` and `ext2_get_group_offset` of `fs/ext2/ext2.c`, and the allocation of blocks
in `fs/ext2/balloc.c`, which goes through them.

The mask for the offset of a block is `1 << EXT2_BLOCKS_PER_GROUP_BITS - 1`, which is `1 << 12`, so
that the offset is 0 or 4096; the mask for an inode is `EXT2_INODES_PER_GROUP - 1`, which is
no mask, for 184 is no power of two. And `ext2_free_block` clears the bit of the offset, and
tests a value of `ext2_clear_bit`, which returns none. What follows from this for each of
them is `Thunix.Ext2.blockExact_iff`, `Thunix.Ext2.inodeExact_iff` and
`Thunix.Ext2.freeBlock_iff`, and all of it `Thunix.Ext2.groups_iff`.
-/

namespace Thunix.Ext2

open Fs

/-! ### The source -/

/-- `EXT2_BLOCK_SIZE`. -/
def EXT2_BLOCK_SIZE : ℕ := 1024

/-- `EXT2_BLOCKS_PER_GROUP`. -/
def EXT2_BLOCKS_PER_GROUP : ℕ := 8096

/-- `EXT2_INODES_PER_GROUP`. -/
def EXT2_INODES_PER_GROUP : ℕ := 184

/-- `EXT2_BLOCKS_PER_GROUP_BITS`. -/
def EXT2_BLOCKS_PER_GROUP_BITS : ℕ := 13

/-- `BLOCK`. -/
def BLOCK : ℕ := 1

/-- `INODE`. -/
def INODE : ℕ := 2

/-- `num - 1`, of an `unsigned int`. -/
def pred32 (num : ℕ) : ℕ := (num + (2 ^ 32 - 1)) % 2 ^ 32

/-- `ext2_get_group_num`. -/
def ext2GetGroupNum (num type : ℕ) : ℕ :=
  if type = BLOCK then num >>> EXT2_BLOCKS_PER_GROUP_BITS
  else if type = INODE then pred32 num / EXT2_INODES_PER_GROUP
  else 0

/-- `ext2_get_group_offset`: the subtraction binds more tightly than the shift. -/
def ext2GetGroupOffset (num type : ℕ) : ℕ :=
  if type = BLOCK then num &&& 1 <<< (EXT2_BLOCKS_PER_GROUP_BITS - 1)
  else if type = INODE then pred32 num &&& (EXT2_INODES_PER_GROUP - 1)
  else 0

/-- The mask of a bit, the first bit of a byte being the highest. -/
def bitOf (i : ℕ) : UInt8 := UInt8.ofNat (1 <<< (7 - i % 8))

/-- `ext2_set_bit`. -/
def ext2SetBit (m : ℕ → UInt8) (addr i : ℕ) : ℕ → UInt8 :=
  Function.update m (addr + i / 8) (m (addr + i / 8) ||| bitOf i)

/-- `ext2_clear_bit`. -/
def ext2ClearBit (m : ℕ → UInt8) (addr i : ℕ) : ℕ → UInt8 :=
  Function.update m (addr + i / 8) (m (addr + i / 8) &&& ~~~bitOf i)

/-- `ext2_test_bit`. -/
def ext2TestBit (m : ℕ → UInt8) (addr i : ℕ) : Bool := m (addr + i / 8) &&& bitOf i != 0

/-- The loop of `find_first_zero`, with so many rounds left before `max - 1`. -/
def findFirstZeroLoop (m : ℕ → UInt8) (addr : ℕ) : ℕ → ℕ → ℕ
  | 0, _ => 0
  | left + 1, i => if !ext2TestBit m addr i then i else findFirstZeroLoop m addr left (i + 1)

/-- `find_first_zero` of `fs/ext2/bitmap.c`. -/
def findFirstZero (m : ℕ → UInt8) (addr offset max : ℕ) : ℕ :=
  findFirstZeroLoop m addr (max - 1 - offset) offset

/-- What the allocation of blocks reads and writes: the bitmaps, from `EXT2_BITMAP_BUFFER` on, the
counts of free blocks in the group descriptors, and the one in the superblock. -/
structure Blocks where
  bitmaps : ℕ → UInt8
  bgFree : ℕ → UInt16
  sFree : UInt32

/-- `ext2_read_block_bitmap`. -/
def ext2ReadBlockBitmap (blockGroup : ℕ) : ℕ := (blockGroup <<< 1) * EXT2_BLOCK_SIZE

/-- `ext2_grab_block`. -/
def ext2GrabBlock (m : ℕ → UInt8) (bitmap goal : ℕ) : ℕ :=
  if !ext2TestBit m bitmap goal then goal
  else findFirstZero m bitmap (goal + 1) EXT2_BLOCKS_PER_GROUP

/-- `ext2_alloc_block`: nothing when it stops in `ext2_error`. -/
def ext2AllocBlock (s : Blocks) (goal : ℕ) : Option (ℕ × Blocks) :=
  let blockGroup := ext2GetGroupNum goal BLOCK
  let bit := ext2GetGroupOffset goal BLOCK
  let bitmap := ext2ReadBlockBitmap blockGroup
  let block := ext2GrabBlock s.bitmaps bitmap bit
  if block = 0 then none
  else some (block, {
    bitmaps := ext2SetBit s.bitmaps bitmap block
    bgFree := Function.update s.bgFree blockGroup (s.bgFree blockGroup - 1)
    sFree := s.sFree - 1 })

/-- `ext2_free_block`, where `left` is what the caller of `ext2_clear_bit` finds for its value:
the function has none. -/
def ext2FreeBlock (left : ℤ) (s : Blocks) (block : ℕ) : Option Blocks :=
  let blockGroup := ext2GetGroupNum block BLOCK
  let bit := ext2GetGroupOffset block BLOCK
  let bitmap := ext2ReadBlockBitmap blockGroup
  if left = 0 then none
  else some {
    bitmaps := ext2ClearBit s.bitmaps bitmap bit
    bgFree := Function.update s.bgFree blockGroup (s.bgFree blockGroup + 1)
    sFree := s.sFree + 1 }

/-! ### What is asked of it -/

/-- The group and the offset give back a block. -/
def BlockExact (num : ℕ) : Prop :=
  ext2GetGroupNum num BLOCK * 8192 + ext2GetGroupOffset num BLOCK = num

/-- The group and the offset give back an inode. -/
def InodeExact (num : ℕ) : Prop :=
  ext2GetGroupNum num INODE * EXT2_INODES_PER_GROUP + ext2GetGroupOffset num INODE = num - 1

/-- The inodes, counted from 0 on, that the mask does no harm: their group is one of four among
32, and their place in it has neither an 8 nor a 64 in it. -/
def LuckyInode (x : ℕ) : Prop :=
  (x / 184 % 32 = 0 ∨ x / 184 % 32 = 7 ∨ x / 184 % 32 = 24 ∨ x / 184 % 32 = 31) ∧
    x % 184 / 8 % 2 = 0 ∧ x % 184 / 64 % 2 = 0

/-! ### Numbers -/

/-- The offset of a block keeps one bit of it. -/
theorem offset_block (num : ℕ) :
    ext2GetGroupOffset num BLOCK = if num / 4096 % 2 = 1 then 4096 else 0 := by
  show num &&& 2 ^ 12 = _
  rw [Nat.and_two_pow, Nat.testBit_eq_decide_div_mod_eq]
  by_cases h : num / 4096 % 2 = 1
  · rw [decide_eq_true h, if_pos h]
    rfl
  · rw [decide_eq_false h, if_neg h]
    rfl

theorem groupNum_block (num : ℕ) : ext2GetGroupNum num BLOCK = num / 8192 :=
  Nat.shiftRight_eq_div_pow num 13

/-- **The blocks that their group and their offset give back.** -/
theorem blockExact_iff (num : ℕ) : BlockExact num ↔ num % 4096 = 0 := by
  rw [BlockExact, offset_block, groupNum_block]
  split <;> omega

theorem pred32_eq {num : ℕ} (h1 : 1 ≤ num) (h : num < 2 ^ 32) : pred32 num = num - 1 := by
  rw [pred32]
  omega

/-- The low three bits of a number pass the mask. -/
theorem and_183 (x : ℕ) : x &&& 183 = 8 * (x / 8 % 32 &&& 22) + x % 8 := by
  have hdiv : (x &&& 183) / 2 ^ 3 = x / 2 ^ 3 &&& 183 / 2 ^ 3 := Nat.and_div_two_pow
  have hmod : (x &&& 183) % 2 ^ 3 = x % 2 ^ 3 &&& 183 % 2 ^ 3 := Nat.and_mod_two_pow
  have hlow : x % 8 &&& 7 = x % 8 :=
    (Nat.and_two_pow_sub_one_eq_mod (x % 8) 3).trans (Nat.mod_mod x 8)
  have hhigh : (x / 8 &&& 22) = x / 8 % 32 &&& 22 := by
    have h : (x / 8 &&& 22) % 2 ^ 5 = x / 8 % 32 &&& 22 := Nat.and_mod_two_pow
    have hle : (x / 8 &&& 22) ≤ 22 := Nat.and_le_right
    omega
  have hdiv' : (x &&& 183) / 8 = x / 8 % 32 &&& 22 := hdiv.trans hhigh
  have hmod' : (x &&& 183) % 8 = x % 8 := hmod.trans hlow
  omega

/-- Everything repeats after 32 groups. -/
theorem and_22_eq_iff : ∀ q < 32, ∀ r < 23, (23 * q + r) % 32 &&& 22 = r ↔
    (q = 0 ∨ q = 7 ∨ q = 24 ∨ q = 31) ∧ r % 2 = 0 ∧ r / 8 % 2 = 0 := by
  decide +kernel

/-- **The inodes that their group and their offset give back.** -/
theorem inodeExact_iff {num : ℕ} (h1 : 1 ≤ num) (h : num < 2 ^ 32) :
    InodeExact num ↔ LuckyInode (num - 1) := by
  have hx := and_22_eq_iff ((num - 1) / 184 % 32) (by omega) ((num - 1) % 184 / 8) (by omega)
  have hmod : (23 * ((num - 1) / 184 % 32) + (num - 1) % 184 / 8) % 32 = (num - 1) / 8 % 32 := by
    omega
  have h64 : (num - 1) % 184 / 64 = (num - 1) % 184 / 8 / 8 := by omega
  have hexact : InodeExact num ↔ (num - 1) / 184 * 184 + (num - 1 &&& 183) = num - 1 := by
    rw [InodeExact, ext2GetGroupNum, ext2GetGroupOffset, if_neg (by decide), if_pos rfl,
      if_neg (by decide), if_pos rfl, pred32_eq h1 h]
    rfl
  rw [hmod] at hx
  rw [LuckyInode, h64, ← hx, hexact, and_183]
  omega

/-! ### Bits -/

/-- The number that `lib/bitopts.c` counts a bit by, from the lowest of a byte on. -/
def lowBit (i : ℕ) : ℕ := 8 * (i / 8) + (7 - i % 8)

variable {m : ℕ → UInt8} {addr i k : ℕ}

theorem lowBit_div (i : ℕ) : lowBit i / 8 = i / 8 := by
  rw [lowBit]
  omega

theorem lowBit_mod (i : ℕ) : lowBit i % 8 = 7 - i % 8 := by
  rw [lowBit]
  omega

theorem lowBit_inj : lowBit i = lowBit k ↔ i = k := by
  constructor
  · intro h
    have hdiv := lowBit_div i
    have hmod := lowBit_mod i
    rw [h, lowBit_div] at hdiv
    rw [h, lowBit_mod] at hmod
    omega
  · rintro rfl
    rfl

theorem bitMask_lowBit (i : ℕ) : bitMask (lowBit i) = bitOf i := by
  rw [bitMask, lowBit_mod, bitOf]

theorem ext2SetBit_eq : ext2SetBit m addr i = (setBit m addr (lowBit i)).2 := by
  rw [setBit, bitMask_lowBit, lowBit_div, ext2SetBit]

theorem ext2ClearBit_eq : ext2ClearBit m addr i = (clearBit m addr (lowBit i)).2 := by
  rw [clearBit, bitMask_lowBit, lowBit_div, ext2ClearBit]

theorem ext2TestBit_eq : ext2TestBit m addr i = bit m addr (lowBit i) := by
  have h : testBit m addr (lowBit i) = 0 ↔ bit m addr (lowBit i) = false := testBit_eq_zero_iff
  rw [testBit, bitMask_lowBit, lowBit_div, UInt8.and_comm] at h
  rw [ext2TestBit]
  cases hb : bit m addr (lowBit i) with
  | false =>
    have h0 : m (addr + i / 8) &&& bitOf i = 0 := UInt8.toNat_inj.mp (h.mpr hb)
    rw [h0]
    rfl
  | true =>
    have h0 : m (addr + i / 8) &&& bitOf i ≠ 0 := by
      intro h0
      rw [h0, hb] at h
      exact absurd (h.mp rfl) (by decide)
    exact bne_iff_ne.mpr h0

theorem ext2TestBit_setBit : ext2TestBit (ext2SetBit m addr i) addr k =
    (decide (k = i) || ext2TestBit m addr k) := by
  rw [ext2TestBit_eq, ext2TestBit_eq, ext2SetBit_eq, bit_setBit]
  congr 1
  exact decide_eq_decide.mpr lowBit_inj

theorem ext2TestBit_clearBit : ext2TestBit (ext2ClearBit m addr i) addr k =
    (!decide (k = i) && ext2TestBit m addr k) := by
  rw [ext2TestBit_eq, ext2TestBit_eq, ext2ClearBit_eq, bit_clearBit]
  congr 2
  exact decide_eq_decide.mpr lowBit_inj

theorem clearBit_setBit_self (h : ext2TestBit m addr i = false) :
    ext2ClearBit (ext2SetBit m addr i) addr i = m := by
  rw [ext2TestBit_eq] at h
  rw [ext2ClearBit_eq, ext2SetBit_eq]
  exact clearBit_setBit h

/-! ### Blocks -/

/-- The loop finds the first clear bit. -/
theorem findFirstZeroLoop_spec (m : ℕ → UInt8) (addr left i : ℕ) :
    findFirstZeroLoop m addr left i = 0 ∨
      i ≤ findFirstZeroLoop m addr left i ∧ findFirstZeroLoop m addr left i < i + left ∧
        ext2TestBit m addr (findFirstZeroLoop m addr left i) = false ∧
        ∀ k, i ≤ k → k < findFirstZeroLoop m addr left i → ext2TestBit m addr k = true := by
  induction left generalizing i with
  | zero => exact .inl rfl
  | succ left ih =>
    rw [findFirstZeroLoop]
    cases hb : ext2TestBit m addr i with
    | false => exact .inr ⟨le_rfl, by simp, hb, fun k h1 h2 => absurd h1 (Nat.not_le.mpr h2)⟩
    | true =>
      rcases ih (i + 1) with h0 | ⟨hle, hlt, hclear, hall⟩
      · exact .inl h0
      · refine .inr ⟨(Nat.le_succ i).trans hle, ?_, hclear, fun k h1 h2 => ?_⟩
        · show findFirstZeroLoop m addr left (i + 1) < i + (left + 1)
          omega
        · rcases Nat.eq_or_lt_of_le h1 with rfl | h1
          · exact hb
          · exact hall k h1 h2

/-- Trying the goal first is one more round of the loop. -/
theorem ext2GrabBlock_eq (m : ℕ → UInt8) (bitmap : ℕ) {goal : ℕ} (hgoal : goal < 8095) :
    ext2GrabBlock m bitmap goal = findFirstZeroLoop m bitmap (8095 - goal) goal := by
  have hrounds : 8095 - goal = 8096 - 1 - (goal + 1) + 1 := by omega
  rw [hrounds]
  rfl

/-- What is grabbed: the goal, or the first clear bit behind it. -/
theorem ext2GrabBlock_spec {m : ℕ → UInt8} {bitmap goal : ℕ} (hgoal : goal < 8095)
    (h : ext2GrabBlock m bitmap goal ≠ 0) :
    goal ≤ ext2GrabBlock m bitmap goal ∧ ext2GrabBlock m bitmap goal < 8095 ∧
      ext2TestBit m bitmap (ext2GrabBlock m bitmap goal) = false ∧
      ∀ k, goal ≤ k → k < ext2GrabBlock m bitmap goal → ext2TestBit m bitmap k = true := by
  rw [ext2GrabBlock_eq m bitmap hgoal] at h ⊢
  obtain ⟨hle, hlt, hclear, hall⟩ :=
    (findFirstZeroLoop_spec m bitmap (8095 - goal) goal).resolve_left h
  exact ⟨hle, by omega, hclear, hall⟩

/-- **What an allocation in group 0 gives.** -/
theorem ext2AllocBlock_eq_some {s s' : Blocks} {goal block : ℕ} (hgoal : goal < 8192)
    (h : ext2AllocBlock s goal = some (block, s')) :
    (block ≠ 0 ∧ block = ext2GrabBlock s.bitmaps 0 (if 4096 ≤ goal then 4096 else 0)) ∧
      s' = { bitmaps := ext2SetBit s.bitmaps 0 block
             bgFree := Function.update s.bgFree 0 (s.bgFree 0 - 1)
             sFree := s.sFree - 1 } := by
  have hnum : ext2GetGroupNum goal BLOCK = 0 :=
    (groupNum_block goal).trans (Nat.div_eq_of_lt hgoal)
  have hoff : ext2GetGroupOffset goal BLOCK = if 4096 ≤ goal then 4096 else 0 := by
    rw [offset_block]
    by_cases h4096 : 4096 ≤ goal
    · rw [if_pos h4096, if_pos (by omega)]
    · rw [if_neg h4096, if_neg (by omega)]
  have hmap : ext2ReadBlockBitmap 0 = 0 := rfl
  rw [ext2AllocBlock, hnum, hoff, hmap] at h
  by_cases h0 : ext2GrabBlock s.bitmaps 0 (if 4096 ≤ goal then 4096 else 0) = 0
  · rw [if_pos h0] at h
    exact absurd h (by simp)
  · rw [if_neg h0, Option.some.injEq, Prod.mk.injEq] at h
    obtain ⟨rfl, rfl⟩ := h
    exact ⟨⟨h0, rfl⟩, rfl⟩

/-- The search ends at 4096 just if nothing in front of it is free. -/
theorem ext2GrabBlock_eq_4096_iff {m : ℕ → UInt8} {goal : ℕ}
    (h0 : ext2GrabBlock m 0 (if 4096 ≤ goal then 4096 else 0) ≠ 0) :
    ext2GrabBlock m 0 (if 4096 ≤ goal then 4096 else 0) = 4096 ↔
      ext2TestBit m 0 4096 = false ∧
        (4096 ≤ goal ∨ ∀ i < 4096, ext2TestBit m 0 i = true) := by
  have hlt : (if 4096 ≤ goal then 4096 else 0) < 8095 := by split <;> omega
  obtain ⟨hle, -, hclear, hall⟩ := ext2GrabBlock_spec hlt h0
  constructor
  · intro h
    rw [h] at hclear hall
    refine ⟨hclear, ?_⟩
    by_cases h4096 : 4096 ≤ goal
    · exact .inl h4096
    · rw [if_neg h4096] at hall
      exact .inr fun i hi => hall i (Nat.zero_le i) hi
  · rintro ⟨hfree, hbelow⟩
    -- nothing below is free, and 4096 is
    have hge : 4096 ≤ ext2GrabBlock m 0 (if 4096 ≤ goal then 4096 else 0) := by
      rcases hbelow with h4096 | hset
      · rwa [if_pos h4096] at hle ⊢
      · refine Nat.le_of_not_lt fun hlow => ?_
        rw [hset _ hlow] at hclear
        exact absurd hclear (by decide)
    refine le_antisymm (Nat.le_of_not_lt fun hhigh => ?_) hge
    rw [hall 4096 (by split <;> omega) hhigh] at hfree
    exact absurd hfree (by decide)

/-- **Freeing what has been allocated.** -/
theorem freeBlock_iff {left : ℤ} {s s' : Blocks} {goal block : ℕ} (hgoal : goal < 8192)
    (h : ext2AllocBlock s goal = some (block, s')) :
    ext2FreeBlock left s' block = some s ↔
      left ≠ 0 ∧ ext2TestBit s.bitmaps 0 4096 = false ∧
        (4096 ≤ goal ∨ ∀ i < 4096, ext2TestBit s.bitmaps 0 i = true) := by
  obtain ⟨⟨h0, hblock⟩, rfl⟩ := ext2AllocBlock_eq_some hgoal h
  have hlt : (if 4096 ≤ goal then 4096 else 0) < 8095 := by split <;> omega
  obtain ⟨-, hmax, hclear, -⟩ := ext2GrabBlock_spec hlt (hblock ▸ h0)
  rw [← ext2GrabBlock_eq_4096_iff (hblock ▸ h0), ← hblock]
  rw [← hblock] at hmax hclear
  have hnum : ext2GetGroupNum block BLOCK = 0 :=
    (groupNum_block block).trans (Nat.div_eq_of_lt (by omega))
  have hmap : ext2ReadBlockBitmap 0 = 0 := rfl
  rw [ext2FreeBlock, hnum, hmap, offset_block]
  rcases eq_or_ne left 0 with rfl | hleft
  · rw [if_pos rfl]
    simp
  rw [if_neg hleft, Option.some.injEq]
  constructor
  · intro hs
    refine ⟨hleft, ?_⟩
    -- the bit that has been set is the bit that is cleared
    have hbit := congrArg (fun s => ext2TestBit s.bitmaps 0 block) hs
    dsimp only at hbit
    rw [ext2TestBit_clearBit, ext2TestBit_setBit, hclear, decide_eq_true rfl, Bool.true_or,
      Bool.and_true, Bool.not_eq_false', decide_eq_true_eq] at hbit
    split at hbit <;> omega
  · rintro ⟨-, rfl⟩
    rw [if_pos (by decide), clearBit_setBit_self hclear]
    simp

/-! ### All of it -/

/-- **Where the arithmetic of the groups is exact, and freeing undoes allocating.** -/
theorem groups_iff (num goal block : ℕ) (left : ℤ) (s s' : Blocks) :
    (num < 2 ^ 32 → (BlockExact num ↔ num % 4096 = 0)) ∧
    (1 ≤ num → num < 2 ^ 32 → (InodeExact num ↔ LuckyInode (num - 1))) ∧
    (goal < 8192 → ext2AllocBlock s goal = some (block, s') →
      (ext2FreeBlock left s' block = some s ↔
        left ≠ 0 ∧ ext2TestBit s.bitmaps 0 4096 = false ∧
          (4096 ≤ goal ∨ ∀ i < 4096, ext2TestBit s.bitmaps 0 i = true))) :=
  ⟨fun _ => blockExact_iff num, inodeExact_iff, freeBlock_iff⟩

/-- Bitmaps in which block 0 is taken and nothing else. -/
def oneTaken : Blocks where
  bitmaps := Function.update (fun _ => 0) 0 128
  bgFree := fun _ => 8095
  sFree := 8095

/-- Block 4096 is exact, and inode 4096 is not. The block is given back, for it is the goal,
and free. -/
theorem groups_iff_4096 :
    BlockExact 4096 ∧ ¬ InodeExact 4096 ∧ ∃ s', ext2AllocBlock oneTaken 4096 = some (4096, s') ∧
      ext2FreeBlock 1 s' 4096 = some oneTaken := by
  have hlucky : ¬ LuckyInode 4095 := fun h => absurd h.1 (by decide)
  obtain ⟨s', halloc⟩ : ∃ s', ext2AllocBlock oneTaken 4096 = some (4096, s') := ⟨_, rfl⟩
  obtain ⟨hblock, hinode, hfree⟩ := groups_iff 4096 4096 4096 1 oneTaken s'
  refine ⟨(hblock (by decide)).mpr rfl, ?_, s', halloc, ?_⟩
  · exact fun h => hlucky ((hinode (by decide) (by decide)).mp h)
  · exact (hfree (by decide) halloc).mpr ⟨by decide, by decide +kernel, .inl le_rfl⟩

/-- Block 1 and inode 9 are not given back by their groups; and block 1, which is what
`ext2_alloc_block` finds for it, stays taken when it is freed. -/
theorem groups_inexact :
    ¬ BlockExact 1 ∧ ¬ InodeExact 9 ∧
      ∃ s', ext2AllocBlock oneTaken 1 = some (1, s') ∧
        ∀ left, ext2FreeBlock left s' 1 ≠ some oneTaken := by
  refine ⟨by rw [blockExact_iff]; decide, ?_, _, rfl, fun left h => ?_⟩
  · rw [InodeExact]
    decide
  · obtain ⟨-, -, h4096 | hall⟩ := (freeBlock_iff (show 1 < 8192 by decide) rfl).mp h
    · omega
    · exact absurd (hall 1 (by decide)) (by decide +kernel)

end Thunix.Ext2
