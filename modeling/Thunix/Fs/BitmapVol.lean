import Thunix.Fs.BitmapCalls
import Thunix.Fs.Volume

/-!
# The bitmaps of a volume with known contents

The calls of `fs/tfs/balloc.c` and `fs/tfs/ialloc.c` on blocks with known contents, when a
bitmap is read from where it is written (`Thunix.Fs.Straight`): each changes one bit of the
bitmap block, and nothing else. A bit of a block is that of its content
(`Thunix.Fs.usedIn`).
-/

namespace Thunix.Fs

open Pool

variable {e : Env} {S : Set ℕ} {v : ℕ → Buf} {d d' : Dev} {b i t k nr : ℕ} {f : Buf}

/-! ### Where a bitmap is read from -/

/-- The record that the bitmaps are read through has the block size and the offset of the
mounted one. -/
def Straight (e : Env) : Prop :=
  e.straySbi.sBlockShift = e.sbi.sBlockShift ∧ e.straySbi.sOffset = e.sbi.sOffset

theorem straight_quiet (sbi : TfsSbInfo) : Straight (Env.quiet sbi) := ⟨rfl, rfl⟩

/-- Then a request through it is a request. -/
theorem Straight.getCacheBlock_eq (h : Straight e) (b : ℕ) :
    getCacheBlock e e.straySbi b = getCacheBlock e e.sbi b := by
  have hsector : sectorOf e.straySbi b = sectorOf e.sbi b := by rw [sectorOf, sectorOf, h.1, h.2]
  have hcount : sectorsPerBlock e.straySbi = sectorsPerBlock e.sbi := by
    rw [sectorsPerBlock, sectorsPerBlock, h.1]
  funext d
  unfold getCacheBlock tfsBread
  rw [hsector, hcount]

/-! ### A bit in a buffer -/

/-- The numbers in use, by the content of a bitmap block. -/
def usedIn (f : Buf) : ℕ → Bool := bit f 0

theorem usedIn_setBit : usedIn (setBit f 0 b).2 k = (decide (k = b) || usedIn f k) := bit_setBit

theorem usedIn_clearBit : usedIn (clearBit f 0 b).2 k = (!decide (k = b) && usedIn f k) :=
    bit_clearBit

theorem bit_of_agree {m : ℕ → UInt8} {a n : ℕ} (h : Agree n (fun x => m (a + x)) f)
    (hk : k < 8 * n) : bit m a k = usedIn f k := by
  rw [usedIn, bit, bit, Nat.zero_add]
  exact congrArg (fun x : UInt8 => x.toNat.testBit (k % 8)) (h (k / 8) (by omega))

theorem Chosen.congr {n r : ℕ} {used used' : ℕ → Bool} (h : Chosen n t used r) (ht : t < n)
    (hu : ∀ k < n, used k = used' k) : Chosen n t used' r := by
  rcases h with ⟨rfl, hfree⟩ | ⟨htaken, hlt, hfree, hbelow⟩ | ⟨htaken, hr, hall⟩
  · exact .inl ⟨rfl, (hu _ ht).symm.trans hfree⟩
  · exact .inr (.inl ⟨(hu _ ht).symm.trans htaken, hlt, (hu _ hlt).symm.trans hfree,
      fun j hj => (hu j (hj.trans hlt)).symm.trans (hbelow j hj)⟩)
  · exact .inr (.inr ⟨(hu _ ht).symm.trans htaken, hr,
      fun j hj => (hu j hj).symm.trans (hall j hj)⟩)

/-- A number handed out is one of the bitmap. -/
theorem Chosen.lt_of_ne {n r : ℕ} {used : ℕ → Bool} (h : Chosen n t used r) (ht : t < n)
    (hr : r ≠ minusOne) : r < n ∧ used r = false := by
  rcases h with ⟨rfl, hfree⟩ | ⟨-, hlt, hfree, -⟩ | ⟨-, h, -⟩
  · exact ⟨ht, hfree⟩
  · exact ⟨hlt, hfree⟩
  · exact absurd h hr

/-- No number is handed out if all are in use. -/
theorem Chosen.full {n : ℕ} {used : ℕ → Bool} (h : Chosen n t used minusOne) (ht : t < n)
    (hn : n ≤ minusOne) : ∀ k < n, used k = true := by
  rcases h with ⟨rfl, -⟩ | ⟨-, hlt, -⟩ | ⟨-, -, hall⟩
  · omega
  · omega
  · exact hall

/-- The memory of a buffer is changed, and nothing else but the log. -/
theorem Edited.edit (h : Edited e S v i b f d) {m : ℕ → UInt8} {f' : Buf}
    (hout : ∀ j, j ≠ i → Agree e.sbi.sBlockSize (fun x => m (j * e.sbi.sBlockSize + x))
      (d.buf (j * e.sbi.sBlockSize)))
    (hin : Agree e.sbi.sBlockSize (fun x => m (i * e.sbi.sBlockSize + x)) f') (log : List Event) :
    Edited e S v i b f' { d with cacheData := m, log := log } :=
  ⟨h.lt, h.label, h.data, h.unique,
    fun j hj hji hS x hx => (hout j hji x hx).trans (h.others j hj hji hS x hx), hin, h.disk⟩

/-- The change was none. -/
theorem Edited.unchanged (h : Edited e S v i b (v b) d) : Contents e S v d := by
  refine ⟨h.data, h.unique, fun j hj hS => ?_, h.disk⟩
  by_cases hji : j = i
  · rw [hji, h.label]
    exact h.buffer
  · exact h.others j hj hji hS

theorem setBitAt_edited (hnr : nr < 8 * e.sbi.sBlockSize) :
    Hoare (EditedVol e S v i b f) (setBitAt (i * e.sbi.sBlockSize) nr) fun _ d =>
      EditedVol e S v i b (setBit f 0 nr).2 d := fun d ⟨⟨os, hos⟩, h⟩ => by
  refine ⟨⟨os, hos.congr rfl rfl⟩, h.edit (fun j hj x hx => ?_) (fun x hx => ?_) _⟩
  · exact setBit_of_ne fun heq => buffers_apart hj.symm hx (by omega)
  · by_cases hx' : x = nr / 8
    · subst hx'
      simp only [setBit, Function.update_self, Nat.zero_add]
      exact congrArg (· ||| bitMask nr) (h.buffer _ hx)
    · have hself :
          (setBit d.cacheData (i * e.sbi.sBlockSize) nr).2 (i * e.sbi.sBlockSize + x) = _ :=
        setBit_of_ne (by omega)
      have hf : (setBit f 0 nr).2 x = f x := setBit_of_ne (by omega)
      exact hself.trans ((h.buffer x hx).trans hf.symm)

theorem clearBitAt_edited (hnr : nr < 8 * e.sbi.sBlockSize) :
    Hoare (EditedVol e S v i b f) (clearBitAt (i * e.sbi.sBlockSize) nr) fun r d =>
      EditedVol e S v i b (clearBit f 0 nr).2 d ∧ r = testBit f 0 nr := fun d ⟨⟨os, hos⟩, h⟩ => by
  refine ⟨⟨⟨os, hos.congr rfl rfl⟩, h.edit (fun j hj x hx => ?_) (fun x hx => ?_) _⟩, ?_⟩
  · exact clearBit_of_ne fun heq => buffers_apart hj.symm hx (by omega)
  · by_cases hx' : x = nr / 8
    · subst hx'
      simp only [clearBit, Function.update_self, Nat.zero_add]
      exact congrArg (· &&& ~~~bitMask nr) (h.buffer _ hx)
    · have hself :
          (clearBit d.cacheData (i * e.sbi.sBlockSize) nr).2 (i * e.sbi.sBlockSize + x) = _ :=
        clearBit_of_ne (by omega)
      have hf : (clearBit f 0 nr).2 x = f x := clearBit_of_ne (by omega)
      exact hself.trans ((h.buffer x hx).trans hf.symm)
  · have := h.buffer (nr / 8) (by omega)
    change (bitMask nr &&& d.buf (i * e.sbi.sBlockSize) (nr / 8)).toNat = _
    rw [this, testBit, Nat.zero_add]

/-! ### The calls -/

/-- `test_bit` of the target of an allocator, and what it is compared with. -/
theorem taken_holding (hb : b ∈ S) (ht : t < 8 * e.sbi.sBlockSize) {p : ℕ → Prop}
    [DecidablePred p] (hp : ∀ m a, p (testBit m a t) ↔ bit m a t = true) :
    Hoare (Holding e S v i b) (readMem fun m => decide (p (testBit m (i * e.sbi.sBlockSize) t)))
      fun r d => r = usedIn (v b) t ∧ Holding e S v i b d := fun d h => by
  refine ⟨?_, h⟩
  have hbit : bit d.cacheData (i * e.sbi.sBlockSize) t = usedIn (v b) t :=
    bit_of_agree (h.agree hb) ht
  change decide (p (testBit d.cacheData (i * e.sbi.sBlockSize) t)) = _
  rw [← hbit, Bool.eq_iff_iff, decide_eq_true_eq]
  exact hp _ _

theorem testBit_ne_zero_iff {m : ℕ → UInt8} {a : ℕ} : testBit m a t ≠ 0 ↔ bit m a t = true := by
  rw [Ne, testBit_eq_zero_iff, Bool.not_eq_false]

theorem findTarget_holding (hs : Sized e.sbi) (hb : b ∈ S) (ht : t < 8 * e.sbi.sBlockSize) :
    Hoare (Holding e S v i b) (findTarget e (usedIn (v b) t) (i * e.sbi.sBlockSize) t) fun r d =>
      Holding e S v i b d ∧ Chosen (8 * e.sbi.sBlockSize) t (usedIn (v b)) r := fun d h => by
  have hbits : ∀ k < 8 * e.sbi.sBlockSize,
      bit d.cacheData (i * e.sbi.sBlockSize) k = usedIn (v b) k :=
    fun k hk => bit_of_agree (h.agree hb) hk
  have hdata : (d.cache (.entry i)).data = i * e.sbi.sBlockSize := h.1.2.data i h.2.1
  have his : BitmapIs d.cache d.cacheEntries (.entry i)
      (bit d.cacheData (i * e.sbi.sBlockSize)) d :=
    ⟨rfl, rfl, by rw [hdata]⟩
  have hfind := findTarget_bitmap (t := t) hs d his
  rw [hdata, hbits t ht] at hfind
  obtain ⟨-, hch⟩ := hfind
  refine ⟨?_, hch.congr ht hbits⟩
  unfold findTarget
  cases usedIn (v b) t <;> exact h

section Calls

variable (hm : Mounted e.sbi) (hq : Quiet e) (hst : Straight e) (hap : Apart e S)

include hm hq hst

/-- A call that begins with a request for a bitmap. -/
theorem bitmap_vol {α : Type} {F : Option CacheRef → DevM α} {Q : α → Dev → Prop}
    (h : ∀ i, Hoare (Holding e S v i b) (F (some (.entry i))) Q) :
    Hoare (Vol e S v) (getCacheBlock e e.straySbi b >>= F) Q := by
  rw [hst.getCacheBlock_eq]
  exact request_vol hm hq h

include hap

/-- **`tfs_alloc_block`** sets the bit of the number that it returns. -/
theorem tfsAllocBlock_vol (hb : e.sbi.sBlockBitmap ∈ S) (ht : t < 8 * e.sbi.sBlockSize) :
    Hoare (Vol e S v) (tfsAllocBlock e t) fun r d =>
      (r = -ENOSPC ∧ (∀ k < 8 * e.sbi.sBlockSize, usedIn (v e.sbi.sBlockBitmap) k = true) ∧
        Vol e S v d) ∨ ∃ k < 8 * e.sbi.sBlockSize, r = k ∧
        Chosen (8 * e.sbi.sBlockSize) t (usedIn (v e.sbi.sBlockBitmap)) k ∧
        Vol e S (Function.update v e.sbi.sBlockBitmap (setBit (v e.sbi.sBlockBitmap) 0 k).2) d := by
  have hsize := hm.size_le
  refine bitmap_vol hm hq hst fun i => dataPtr_holding.bind_eq ?_
  refine (taken_holding hb ht (p := fun x => x ≠ 0) fun _ _ => testBit_ne_zero_iff).bind_eq ?_
  refine (findTarget_holding hm.sized hb ht).bind fun k => Hoare.assume fun hch => ?_
  have hmax : 8 * e.sbi.sBlockSize ≤ minusOne := by
    rw [minusOne]
    omega
  refine .ite (fun hk => ?_) fun hk => .pure fun d h => .inl ⟨rfl, ?_, h.1⟩
  swap
  · rw [not_not.mp hk] at hch
    exact hch.full ht hmax
  have hlt := (hch.lt_of_ne ht hk).1
  have hset : Hoare (Holding e S v i e.sbi.sBlockBitmap) (setBitAt (i * e.sbi.sBlockSize) k)
      fun _ d => EditedVol e S v i e.sbi.sBlockBitmap (setBit (v e.sbi.sBlockBitmap) 0 k).2 d :=
    (setBitAt_edited hlt).pre fun d h => h.edited hb
  refine hset.bind fun _ => (tfsBwrite_edited hm hq hap hb false).bind_eq ?_
  refine .pure fun d h => .inr ⟨k, hlt, ?_, hch, h⟩
  exact toS32_of_lt (by omega)

omit hst in
/-- A bit is cleared, and the block written unless it was clear. -/
theorem clearBit_vol (hb : b ∈ S) (hk : k < 8 * e.sbi.sBlockSize) :
    Hoare (Holding e S v i b) (do
      if (← clearBitAt (i * e.sbi.sBlockSize) k) = 0 then pure 0
      else tfsBwrite e e.sbi b (i * e.sbi.sBlockSize)) fun r d =>
        r = 0 ∧ Vol e S (Function.update v b (clearBit (v b) 0 k).2) d := by
  have hclear : Hoare (Holding e S v i b) (clearBitAt (i * e.sbi.sBlockSize) k) fun r d =>
      EditedVol e S v i b (clearBit (v b) 0 k).2 d ∧ r = testBit (v b) 0 k :=
    (clearBitAt_edited hk).pre fun d h => h.edited hb
  refine hclear.bind fun old => Hoare.assume fun hold => .ite (fun h0 => ?_) fun _ => ?_
  · -- the bit was clear
    rw [hold, testBit_eq_zero_iff] at h0
    rw [clearBit_of_clear h0, Function.update_eq_self]
    exact .pure fun d h => ⟨rfl, h.1, h.2.unchanged⟩
  · exact tfsBwrite_edited hm hq hap hb false

/-- **`tfs_free_block`** clears the bit. -/
theorem tfsFreeBlock_vol (hb : e.sbi.sBlockBitmap ∈ S) (hk : k < 8 * e.sbi.sBlockSize) :
    Hoare (Vol e S v) (tfsFreeBlock e k) fun r d => r = 0 ∧
      Vol e S (Function.update v e.sbi.sBlockBitmap (clearBit (v e.sbi.sBlockBitmap) 0 k).2) d :=
  bitmap_vol hm hq hst fun _ => dataPtr_holding.bind_eq (clearBit_vol hm hq hap hb hk)

/-- **`tfs_free_inode`** clears the bit of the inode, which are counted from 1. -/
theorem tfsFreeInode_vol (hb : e.sbi.sInodeBitmap ∈ S) (hk : k < 8 * e.sbi.sBlockSize) :
    Hoare (Vol e S v) (tfsFreeInode e (k + 1)) fun r d => r = 0 ∧
      Vol e S (Function.update v e.sbi.sInodeBitmap (clearBit (v e.sbi.sInodeBitmap) 0 k).2) d := by
  have hsize := hm.size_le
  have hnr : toU32 ((k : ℤ) + 1 - 1) = k := by
    rw [add_sub_cancel_right, toU32_natCast (by omega)]
  refine bitmap_vol hm hq hst fun _ => dataPtr_holding.bind_eq ?_
  rw [hnr]
  exact clearBit_vol hm hq hap hb hk

/-- **`tfs_alloc_inode`** sets the bit of the inode that it returns. -/
theorem tfsAllocInode_vol (hb : e.sbi.sInodeBitmap ∈ S) :
    Hoare (Vol e S v) (tfsAllocInode e TFS_ROOT_INODE) fun r d =>
      (r = -ENOSPC ∧ (∀ k < 8 * e.sbi.sBlockSize, usedIn (v e.sbi.sInodeBitmap) k = true) ∧
        Vol e S v d) ∨ ∃ k < 8 * e.sbi.sBlockSize, r = k + 1 ∧
        Chosen (8 * e.sbi.sBlockSize) 0 (usedIn (v e.sbi.sInodeBitmap)) k ∧
        Vol e S (Function.update v e.sbi.sInodeBitmap (setBit (v e.sbi.sInodeBitmap) 0 k).2) d := by
  have hsize := hm.size_le
  have hpos := hm.size_pos
  have h0 : 0 < 8 * e.sbi.sBlockSize := by omega
  refine bitmap_vol hm hq hst fun i => dataPtr_holding.bind_eq ?_
  refine (taken_holding hb h0 (p := fun x => x = 1) fun _ _ =>
    testBit_eq_one_iff.trans (and_iff_left rfl)).bind_eq ?_
  refine (findTarget_holding hm.sized hb h0).bind fun k => Hoare.assume fun hch => ?_
  by_cases hk : k = minusOne
  · subst hk
    have hmax : 8 * e.sbi.sBlockSize ≤ minusOne := by
      rw [minusOne]
      omega
    exact .pure fun d h => .inl ⟨rfl, hch.full h0 hmax, h.1⟩
  · have hlt := (hch.lt_of_ne h0 hk).1
    have hback : toU32 (toS32 k) = k := by rw [toS32_of_lt (by omega), toU32_natCast (by omega)]
    have hset : Hoare (Holding e S v i e.sbi.sInodeBitmap) (setBitAt (i * e.sbi.sBlockSize) k)
        fun _ d => EditedVol e S v i e.sbi.sInodeBitmap (setBit (v e.sbi.sInodeBitmap) 0 k).2 d :=
      (setBitAt_edited hlt).pre fun d h => h.edited hb
    refine .ite (fun _ => ?_) fun hneg => absurd (by rw [toS32_of_lt (by omega)]; omega) hneg
    rw [hback]
    refine hset.bind fun old => (tfsBwrite_edited hm hq hap hb _).bind_eq ?_
    refine .pure fun d h => .inr ⟨k, hlt, ?_, hch, h⟩
    rw [toS32_of_lt (by omega)]

end Calls

end Thunix.Fs
