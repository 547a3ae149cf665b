import Thunix.Fs.Alloc
import Thunix.Fs.CacheShape
import Thunix.Lib.Hoare
import Thunix.Lib.Pool

/-!
# The allocators as pools

A bitmap block is a pool of numbers (`Thunix.Pool`), a set bit being a number in use, and
the calls of `fs/tfs/balloc.c` and `fs/tfs/ialloc.c` are its calls, numbers of inodes
being counted from 1 (`Thunix.Fs.resultOf`). One call that has got hold of its bitmap is a
step of the pool (`Thunix.Fs.tfsAllocBlock_spec`, `Thunix.Fs.tfsAllocInode_spec`,
`Thunix.Fs.tfsFreeBlock_spec`, `Thunix.Fs.tfsFreeInode_spec`). As long as the bitmap is
in the cache every call gets hold of it, so that any sequence of calls is a history of
the pool.
-/

namespace Thunix.Fs

open Pool

variable {e : Env} {d d' : Dev} {b i k t nr : ℕ} {cs : CacheRef}

/-! ### A bitmap in its buffer -/

/-- The search for a clear bit of a bitmap block. -/
theorem Sized.findFirstZero {sbi : TfsSbInfo} (h : Sized sbi) (m : ℕ → UInt8) (a : ℕ) :
    FirstClear m a 0 (8 * sbi.sBlockSize) (findFirstZero m a sbi.sBlockSize) := by
  have := h.size_le
  exact findFirstZero_spec m a (by omega) h.four_dvd

/-- The state of the cache but for the contents of the buffers, and the bits of the array in
the buffer of an entry. -/
def BitmapIs (cache : CacheRef → CacheStruct) (entries : ℕ) (cs : CacheRef) (used : ℕ → Bool)
    (d : Dev) : Prop :=
  d.cache = cache ∧ d.cacheEntries = entries ∧ bit d.cacheData (cache cs).data = used

variable {sbi : TfsSbInfo} {cache : CacheRef → CacheStruct} {entries : ℕ} {used : ℕ → Bool}
  {P : Dev → Prop}

theorem dataPtr_bitmap : Hoare (BitmapIs cache entries cs used) (dataPtr cs) fun a d =>
    a = (cache cs).data ∧ BitmapIs cache entries cs used d := fun d h =>
  ⟨by rw [← h.1]; rfl, h⟩

theorem setBitAt_bitmap : Hoare (BitmapIs cache entries cs used) (setBitAt (cache cs).data nr)
    fun _ d => BitmapIs cache entries cs (Function.update used nr true) d :=
    fun d ⟨h1, h2, h3⟩ => by
  refine ⟨h1, h2, funext fun k => ?_⟩
  change bit (setBit d.cacheData _ nr).2 _ k = _
  rw [bit_setBit, h3]
  by_cases hk : k = nr
  · rw [hk, Function.update_self, decide_eq_true rfl, Bool.true_or]
  · rw [Function.update_of_ne hk, decide_eq_false hk, Bool.false_or]

theorem clearBitAt_bitmap : Hoare (BitmapIs cache entries cs used) (clearBitAt (cache cs).data nr)
    fun _ d => BitmapIs cache entries cs (Function.update used nr false) d :=
  fun d ⟨h1, h2, h3⟩ => by
  refine ⟨h1, h2, funext fun k => ?_⟩
  change bit (clearBit d.cacheData _ nr).2 _ k = _
  rw [bit_clearBit, h3]
  by_cases hk : k = nr
  · rw [hk, Function.update_self, decide_eq_true rfl]
    rfl
  · rw [Function.update_of_ne hk, decide_eq_false hk]
    rfl

theorem tfsBwrite_bitmap (hw : ∀ t, e.transfer t ≠ .ioError) {undone : Bool} {a : ℕ} :
    Hoare (BitmapIs cache entries cs used) (tfsBwriteTagged undone e sbi b a) fun r d =>
      r = 0 ∧ BitmapIs cache entries cs used d := fun d h => by
  refine ⟨tfsBwriteTagged_ok hw undone sbi b a d, ?_⟩
  obtain ⟨disk, tick, m, hrun, -⟩ := tfsBwriteTagged_run undone e sbi b a d
  rw [hrun]
  exact h

/-- `test_bit` of the target. -/
theorem taken_bitmap : Hoare (BitmapIs cache entries cs used)
    (readMem fun m => decide (testBit m (cache cs).data nr ≠ 0)) fun v d =>
      v = used nr ∧ BitmapIs cache entries cs used d := fun d h => by
  refine ⟨?_, h⟩
  change decide (testBit d.cacheData _ nr ≠ 0) = _
  rw [← h.2.2]
  cases hb : bit d.cacheData (cache cs).data nr with
  | false => exact decide_eq_false (not_not.mpr (testBit_eq_zero_iff.mpr hb))
  | true =>
    refine decide_eq_true fun h0 => ?_
    rw [testBit_eq_zero_iff.mp h0] at hb
    cases hb

/-- The masked byte is 1 only for the first bit of a byte. -/
theorem testBit_eq_one_iff {m : ℕ → UInt8} {a : ℕ} :
    testBit m a nr = 1 ↔ bit m a nr = true ∧ nr % 8 = 0 := by
  rw [testBit, bit, UInt8.toNat_and, toNat_bitMask, Nat.two_pow_and]
  cases (m (a + nr / 8)).toNat.testBit (nr % 8) <;> simp

/-- `test_bit` of the target, compared with 1. -/
theorem taken_one_bitmap : Hoare (BitmapIs cache entries cs used)
    (readMem fun m => decide (testBit m (cache cs).data nr = 1)) fun v d =>
      v = (used nr && decide (nr % 8 = 0)) ∧ BitmapIs cache entries cs used d := fun d h => by
  refine ⟨?_, h⟩
  change decide (testBit d.cacheData _ nr = 1) = _
  rw [← h.2.2, Bool.eq_iff_iff, decide_eq_true_eq, testBit_eq_one_iff, Bool.and_eq_true,
    decide_eq_true_eq]

/-- The bit of the root inode is the first of a byte. -/
theorem taken_root_bitmap : Hoare (BitmapIs cache entries cs used)
    (readMem fun m => decide (testBit m (cache cs).data 0 = 1)) fun v d =>
      v = used 0 ∧ BitmapIs cache entries cs used d :=
  taken_one_bitmap.post fun _ _ ⟨hv, h⟩ => ⟨hv.trans (Bool.and_true _), h⟩

/-- What an allocator settles on. -/
def Chosen (n t : ℕ) (used : ℕ → Bool) (r : ℕ) : Prop :=
  (r = t ∧ used t = false) ∨
  (used t = true ∧ r < n ∧ used r = false ∧ ∀ j < r, used j = true) ∨
  (used t = true ∧ r = minusOne ∧ ∀ j < n, used j = true)

theorem findTarget_bitmap (hs : Sized e.sbi) : Hoare (BitmapIs cache entries cs used)
    (findTarget e (used t) (cache cs).data t) fun r d =>
      BitmapIs cache entries cs used d ∧ Chosen (8 * e.sbi.sBlockSize) t used r := fun d h => by
  cases ht : used t with
  | false => exact ⟨h, .inl ⟨rfl, ht⟩⟩
  | true =>
    refine ⟨h, .inr ?_⟩
    have hfirst := hs.findFirstZero d.cacheData (cache cs).data
    rw [FirstClear, h.2.2] at hfirst
    rcases hfirst with ⟨hr, hall⟩ | ⟨-, hlt, hfree, hbelow⟩
    · exact .inr ⟨ht, hr, fun j hj => hall j (Nat.zero_le j) hj⟩
    · exact .inl ⟨ht, hlt, hfree, fun j hj => hbelow j (Nat.zero_le j) hj⟩

/-! ### One call -/

/-- The two pools. -/
inductive Kind
  | block
  | inode
  deriving DecidableEq, Repr

/-- What a call returns for an answer. -/
def resultOf : Kind → Answer → ℤ
  | .block, .number k => k
  | .inode, .number k => k + 1
  | _, .full => -ENOSPC
  | _, .given => 0

/-- A call has been answered, and the state is as `R` says for the numbers used then. -/
def Answered (kind : Kind) (n : ℕ) (used : ℕ → Bool) (c : Call) (R : (ℕ → Bool) → Dev → Prop)
    (r : ℤ) (d : Dev) : Prop :=
  ∃ a used', r = resultOf kind a ∧ Step n used c a used' ∧ R used' d

/-- A number chosen that is not `-1` is handed out. -/
theorem Chosen.step {n r : ℕ} (h : Chosen n t used r) (hr : r ≠ minusOne) :
    Step n used (.take t) (.number r) (Function.update used r true) := by
  rcases h with ⟨rfl, hfree⟩ | ⟨ht, hlt, hfree, hbelow⟩ | ⟨_, h, _⟩
  · exact .target hfree
  · exact .least ht hlt hfree hbelow
  · exact absurd h hr

theorem Chosen.step_full {n : ℕ} (h : Chosen n t used minusOne) (hn : n ≤ minusOne)
    (ht : t < minusOne) : Step n used (.take t) .full used := by
  rcases h with ⟨h, _⟩ | ⟨_, hlt, _⟩ | ⟨htaken, _, hall⟩
  · exact absurd h ht.ne'
  · exact absurd hlt (by omega)
  · exact .full htaken hall

theorem Chosen.lt {n r : ℕ} (h : Chosen n t used r) (hr : r ≠ minusOne) (hn : n ≤ 2 ^ 31)
    (ht : t < 2 ^ 31) : r < 2 ^ 31 := by
  rcases h with ⟨rfl, _⟩ | ⟨_, hlt, _⟩ | ⟨_, h, _⟩
  · exact ht
  · omega
  · exact absurd h hr

theorem toS32_of_lt {n : ℕ} (h : n < 2 ^ 31) : toS32 n = n := if_pos h

theorem toU32_natCast {n : ℕ} (h : n < 2 ^ 32) : toU32 n = n := by
  rw [toU32]
  omega

variable (hw : ∀ t, e.transfer t ≠ .ioError)

include hw

/-- What `tfs_alloc_block` returns for the number it settles on, whatever the target. -/
theorem tfsAllocBlock_chosen (hs : Sized e.sbi)
    (hreq : Hoare P (tfsReadBlockBitmap e) fun r d =>
      r = some cs ∧ BitmapIs cache entries cs used d) :
    Hoare P (tfsAllocBlock e t) fun r d => ∃ k, Chosen (8 * e.sbi.sBlockSize) t used k ∧
      ((k = minusOne ∧ r = -ENOSPC ∧ BitmapIs cache entries cs used d) ∨
       (k ≠ minusOne ∧ r = toS32 k ∧
        BitmapIs cache entries cs (Function.update used k true) d)) := by
  refine hreq.bind_eq (dataPtr_bitmap.bind_eq (taken_bitmap.bind_eq ?_))
  refine (findTarget_bitmap hs).bind fun k => Hoare.assume fun hch => ?_
  refine .ite (fun hk => ?_) fun hk => ?_
  · refine setBitAt_bitmap.bind fun _ => (tfsBwrite_bitmap hw).bind_eq ?_
    exact .pure fun d h => ⟨k, hch, .inr ⟨hk, rfl, h⟩⟩
  · exact .pure fun d h => ⟨k, hch, .inl ⟨not_not.mp hk, rfl, h⟩⟩

/-- **`tfs_alloc_block` takes a number.** -/
theorem tfsAllocBlock_spec (hs : Sized e.sbi) (ht : t < 2 ^ 31)
    (hreq : Hoare P (tfsReadBlockBitmap e) fun r d =>
      r = some cs ∧ BitmapIs cache entries cs used d) :
    Hoare P (tfsAllocBlock e t) (Answered .block (8 * e.sbi.sBlockSize) used (.take t)
      (BitmapIs cache entries cs)) := by
  have hsize := hs.size_le
  refine (tfsAllocBlock_chosen hw hs hreq).post fun r d ⟨k, hch, hk⟩ => ?_
  rcases hk with ⟨rfl, hr, h⟩ | ⟨hk, hr, h⟩
  · refine ⟨.full, used, hr, hch.step_full ?_ ?_, h⟩
    · rw [minusOne]
      omega
    · rw [minusOne]
      omega
  · refine ⟨.number k, _, ?_, hch.step hk, h⟩
    exact hr.trans (toS32_of_lt (hch.lt hk (by omega) ht))

/-- **`tfs_free_block` gives one back.** -/
theorem tfsFreeBlock_spec (hreq : Hoare P (tfsReadBlockBitmap e) fun r d =>
      r = some cs ∧ BitmapIs cache entries cs used d) :
    Hoare P (tfsFreeBlock e k) (Answered .block (8 * e.sbi.sBlockSize) used (.give k)
      (BitmapIs cache entries cs)) := by
  refine hreq.bind_eq (dataPtr_bitmap.bind_eq (clearBitAt_bitmap.bind fun old => ?_))
  refine .ite (fun _ => .pure fun d h => ⟨.given, _, rfl, .give k, h⟩) fun _ => ?_
  exact (tfsBwrite_bitmap hw).post fun r d h => ⟨.given, _, h.1, .give k, h.2⟩

/-- **`tfs_alloc_inode` takes a number**, which it returns plus 1. -/
theorem tfsAllocInode_spec (hs : Sized e.sbi) (hreq : Hoare P (tfsReadInodeBitmap e) fun r d =>
      r = some cs ∧ BitmapIs cache entries cs used d) :
    Hoare P (tfsAllocInode e TFS_ROOT_INODE) (Answered .inode (8 * e.sbi.sBlockSize) used
      (.take 0) (BitmapIs cache entries cs)) := by
  have hsize := hs.size_le
  refine hreq.bind_eq (dataPtr_bitmap.bind_eq (taken_root_bitmap.bind_eq ?_))
  refine (findTarget_bitmap hs).bind fun r => Hoare.assume fun hch => ?_
  by_cases hr : r = minusOne
  · subst hr
    refine .pure fun d h => ⟨.full, used, rfl, hch.step_full ?_ (by decide), h⟩
    rw [minusOne]
    omega
  · have hlt := hch.lt hr (by omega) (by decide)
    have hback : toU32 (toS32 r) = r := by rw [toS32_of_lt hlt, toU32_natCast (by omega)]
    refine .ite (fun _ => ?_) fun hneg => absurd (by rw [toS32_of_lt hlt]; omega) hneg
    rw [hback]
    refine setBitAt_bitmap.bind fun old => (tfsBwrite_bitmap hw).bind_eq ?_
    refine .pure fun d h => ⟨.number r, _, ?_, hch.step hr, h⟩
    rw [toS32_of_lt hlt]
    rfl

/-- **`tfs_free_inode` gives one back.** -/
theorem tfsFreeInode_spec (hk : k < 2 ^ 31) (hreq : Hoare P (tfsReadInodeBitmap e) fun r d =>
      r = some cs ∧ BitmapIs cache entries cs used d) :
    Hoare P (tfsFreeInode e (k + 1)) (Answered .inode (8 * e.sbi.sBlockSize) used (.give k)
      (BitmapIs cache entries cs)) := by
  have hnr : toU32 ((k : ℤ) + 1 - 1) = k := by
    rw [add_sub_cancel_right, toU32_natCast (by omega)]
  refine hreq.bind_eq (dataPtr_bitmap.bind_eq ?_)
  rw [hnr]
  refine clearBitAt_bitmap.bind fun old => ?_
  refine .ite (fun _ => .pure fun d h => ⟨.given, _, rfl, .give k, h⟩) fun _ => ?_
  exact (tfsBwrite_bitmap hw).post fun r d h => ⟨.given, _, h.1, .give k, h.2⟩

omit hw

/-! ### The bitmap is in the cache -/

/-- The block is in the cache, in one entry. -/
structure HeldAt (e : Env) (b i : ℕ) (d : Dev) : Prop where
  shape : ∃ os, Shaped e os d
  lt : i < numEntries e.sbi.sBlockShift
  label : d.label i = b
  only : ∀ j < numEntries e.sbi.sBlockShift, d.label j = b → j = i

theorem HeldAt.congr (h : HeldAt e b i d) (hc : d'.cache = d.cache)
    (hn : d'.cacheEntries = d.cacheEntries) : HeldAt e b i d' := by
  obtain ⟨os, hos⟩ := h.shape
  have hlab : ∀ j, d'.label j = d.label j := fun j => by rw [Dev.label, hc]; rfl
  refine ⟨⟨os, hos.congr hc hn⟩, h.lt, (hlab i).trans h.label, fun j hj hb => ?_⟩
  exact h.only j hj ((hlab j).symm.trans hb)

/-- An entry that is labelled with a block no entry holds. -/
theorem Shaped.held {os : List ℕ} (h : Shaped e os d) (hb : ∀ j ∈ os, d.label j ≠ b)
    (hi : i < numEntries e.sbi.sBlockShift) : HeldAt e b i (d.setBlock (.entry i) b) := by
  have hlab : ∀ j, (d.setBlock (.entry i) b).label j = if j = i then b else d.label j := fun j => by
    by_cases hj : j = i <;> simp [Dev.label, Dev.setBlock, hj]
  refine ⟨⟨os, h.setBlock hb i⟩, hi, by rw [hlab, if_pos rfl], fun j hj hjb => ?_⟩
  by_contra hne
  rw [hlab, if_neg hne] at hjb
  exact hb j (h.mem_iff.mpr hj) hjb

/-- **A request for a block that is in the cache.** -/
theorem HeldAt.request (h : HeldAt e b i d) (sb : TfsSbInfo) :
    ∃ d', getCacheBlock e sb b d = (some (.entry i), d') ∧ HeldAt e b i d' ∧ d.Relinked d' := by
  obtain ⟨os, hos⟩ := h.shape
  obtain ⟨pre, j, post, rfl, hj, hpost⟩ := exists_last_of_mem
    (p := fun j => d.label j = b) ⟨i, hos.mem_iff.mpr h.lt, h.label⟩
  obtain rfl : j = i := h.only j (hos.mem_iff.mp (by simp)) hj
  obtain ⟨d', hget, hring, hrel⟩ := getCacheBlock_hit e sb hos.ring hj hpost
  have hlab : ∀ k, d'.label k = d.label k := fun k => hrel.block _
  refine ⟨d', hget, ⟨⟨_, hos.relinked hrel hring⟩, h.lt, (hlab j).trans hj, fun k hk hb => ?_⟩,
    hrel⟩
  exact h.only k hk ((hlab k).symm.trans hb)

/-- The bitmap is in the cache, and these of its numbers are used. -/
def Pooled (e : Env) (b i : ℕ) (used : ℕ → Bool) (d : Dev) : Prop :=
  HeldAt e b i d ∧ bit d.cacheData (i * e.sbi.sBlockSize) = used

/-- A call whose bitmap is in the cache gets hold of it. -/
theorem Pooled.request (h : Pooled e b i used d) (sb : TfsSbInfo) :
    ∃ d' : Dev, Hoare (fun s => s = d) (getCacheBlock e sb b) (fun r s =>
        r = some (.entry i) ∧ BitmapIs d'.cache d'.cacheEntries (.entry i) used s) ∧
      ∀ used' s, BitmapIs d'.cache d'.cacheEntries (.entry i) used' s → Pooled e b i used' s := by
  obtain ⟨d', hget, hheld, hrel⟩ := h.1.request sb
  obtain ⟨os, hos⟩ := hheld.shape
  have hdata : (d'.cache (.entry i)).data = i * e.sbi.sBlockSize := hos.data i h.1.lt
  refine ⟨d', fun s hs => ?_, fun used' s ⟨hc, hn, hbits⟩ => ⟨hheld.congr hc hn, ?_⟩⟩
  · subst hs
    rw [hget]
    refine ⟨rfl, rfl, rfl, ?_⟩
    rw [hdata, ← h.2, hrel.rest]
  · rwa [hdata] at hbits

/-- The block of a bitmap. -/
def bitmapBlock (e : Env) : Kind → ℕ
  | .block => e.sbi.sBlockBitmap
  | .inode => e.sbi.sInodeBitmap

/-- The call of the program. -/
def callOn (e : Env) : Kind → Call → DevM ℤ
  | .block, .take target => tfsAllocBlock e target
  | .block, .give block => tfsFreeBlock e block
  | .inode, .take target => tfsAllocInode e (target + 1)
  | .inode, .give k => tfsFreeInode e (k + 1)

/-- The numbers the callers pass: any of the bitmap, but a new inode is always asked for
with the number of the root. -/
def Allowed (e : Env) : Kind → Call → Prop
  | .block, .take target => target < 8 * e.sbi.sBlockSize
  | .inode, .take target => (target : ℤ) + 1 = TFS_ROOT_INODE
  | _, .give k => k < 8 * e.sbi.sBlockSize

/-- **A call is a step of the pool.** -/
theorem callOn_pooled (hs : Sized e.sbi) (hw : ∀ t, e.transfer t ≠ .ioError) {kind : Kind}
    {c : Call} (hc : Allowed e kind c) :
    Hoare (Pooled e (bitmapBlock e kind) i used) (callOn e kind c)
      (Answered kind (8 * e.sbi.sBlockSize) used c (Pooled e (bitmapBlock e kind) i)) := by
  intro d hd
  have hsize := hs.size_le
  obtain ⟨d', hreq, hback⟩ := hd.request e.straySbi
  have hweak : ∀ {r s}, Answered kind (8 * e.sbi.sBlockSize) used c
      (BitmapIs d'.cache d'.cacheEntries (.entry i)) r s →
      Answered kind (8 * e.sbi.sBlockSize) used c (Pooled e (bitmapBlock e kind) i) r s :=
    fun ⟨a, used', hr, hstep, hb⟩ => ⟨a, used', hr, hstep, hback used' _ hb⟩
  cases kind with
  | block =>
    cases c with
    | take t =>
      have ht : t < 8 * e.sbi.sBlockSize := hc
      exact hweak (tfsAllocBlock_spec hw hs (by omega) hreq d rfl)
    | give k => exact hweak (tfsFreeBlock_spec hw hreq d rfl)
  | inode =>
    cases c with
    | take t =>
      have ht : (t : ℤ) + 1 = 1 := hc
      obtain rfl : t = 0 := by omega
      exact hweak (tfsAllocInode_spec hw hs hreq d rfl)
    | give k =>
      have hk : k < 8 * e.sbi.sBlockSize := hc
      exact hweak (tfsFreeInode_spec hw (by omega) hreq d rfl)

/-! ### Histories -/

/-- Calls one after another, with their results. -/
def runCalls (e : Env) (kind : Kind) : List Call → DevM (List ℤ)
  | [] => pure []
  | c :: calls => do
    let r ← callOn e kind c
    let rs ← runCalls e kind calls
    pure (r :: rs)

/-- Any sequence of calls is a history of the pool. -/
theorem runCalls_pooled (hs : Sized e.sbi) (hw : ∀ t, e.transfer t ≠ .ioError) {kind : Kind}
    {calls : List Call} (hcalls : ∀ c ∈ calls, Allowed e kind c) (used : ℕ → Bool) :
    Hoare (Pooled e (bitmapBlock e kind) i used) (runCalls e kind calls) fun rs d =>
      ∃ answers used', rs = answers.map (resultOf kind) ∧ answers.length = calls.length ∧
        History (8 * e.sbi.sBlockSize) used (calls.zip answers) used' ∧
        Pooled e (bitmapBlock e kind) i used' d := by
  induction calls generalizing used with
  | nil => exact .pure fun d h => ⟨[], used, rfl, rfl, .nil used, h⟩
  | cons c calls ih =>
    intro d hd
    obtain ⟨a, used', hr, hstep, hd'⟩ := callOn_pooled hs hw (hcalls c List.mem_cons_self) d hd
    obtain ⟨answers, used'', hrs, hlen, hh, hd''⟩ :=
      ih (fun c hc => hcalls c (List.mem_cons_of_mem _ hc)) used' _ hd'
    refine ⟨a :: answers, used'', ?_, congrArg Nat.succ hlen, .cons hstep hh, hd''⟩
    rw [List.map_cons, ← hr, ← hrs]
    rfl

theorem Allowed.lt (hs : Sized e.sbi) {kind : Kind} (h : Allowed e kind (.take t)) :
    t < 8 * e.sbi.sBlockSize := by
  cases kind with
  | block => exact h
  | inode =>
    have ht : (t : ℤ) + 1 = 1 := h
    have := hs.size_pos
    omega

/-- **The allocators never hand out a number in use.** Whatever the bitmap holds, and
whatever is allocated and freed, the results are those of a pool: an allocation fails
exactly if all the bits are set, and between two allocations of a number it is freed. -/
theorem runCalls_history (hs : Sized e.sbi) (hw : ∀ t, e.transfer t ≠ .ioError) (kind : Kind)
    (calls : List Call) (hcalls : ∀ c ∈ calls, Allowed e kind c)
    (hheld : HeldAt e (bitmapBlock e kind) i d) :
    ∃ answers used', (runCalls e kind calls d).1 = answers.map (resultOf kind) ∧
      answers.length = calls.length ∧
      History (8 * e.sbi.sBlockSize) (bit d.cacheData (i * e.sbi.sBlockSize))
        (calls.zip answers) used' ∧
      bit (runCalls e kind calls d).2.cacheData (i * e.sbi.sBlockSize) = used' ∧
      (∀ pre t a post, calls.zip answers = pre ++ (.take t, a) :: post →
        ∃ u u', History (8 * e.sbi.sBlockSize) (bit d.cacheData (i * e.sbi.sBlockSize)) pre u ∧
          Step (8 * e.sbi.sBlockSize) u (.take t) a u' ∧
          (a = .full ↔ ∀ k < 8 * e.sbi.sBlockSize, u k = true)) ∧
      ∀ pre t k mid t' post, calls.zip answers =
        pre ++ (.take t, .number k) :: (mid ++ (.take t', .number k) :: post) →
          (.give k, .given) ∈ mid := by
  obtain ⟨answers, used', hrs, hlen, hh, hd'⟩ := runCalls_pooled hs hw hcalls _ d ⟨hheld, rfl⟩
  refine ⟨answers, used', hrs, hlen, hh, hd'.2, fun pre t a post heq => ?_,
    fun pre t k mid t' post heq => ?_⟩
  · rw [heq] at hh
    obtain ⟨u, u', hpre, hstep⟩ := hh.step_at
    have hmem : (Call.take t, a) ∈ calls.zip answers := heq ▸ by simp
    have hlt := (hcalls _ (List.of_mem_zip hmem).1).lt hs
    exact ⟨u, u', hpre, hstep, hstep.full_iff hlt⟩
  · rw [heq] at hh
    exact hh.given_between

/-! ### A small volume -/

/-- An entry labelled with a block, over this memory. -/
def holding (d : Dev) (i b : ℕ) (content : ℕ → UInt8) : Dev :=
  { d.setBlock (.entry i) b with cacheData := content }

/-- The small volume, with the block of the block bitmap in the first entry of the cache. -/
def bitmapDev (content : ℕ → UInt8) : Dev := holding (cacheInit 9 Dev.blank) 0 3 content

theorem Shaped.holding {os : List ℕ} (h : Shaped e os d) (hb : ∀ j ∈ os, d.label j ≠ b)
    (hi : i < numEntries e.sbi.sBlockShift) (content : ℕ → UInt8) :
    HeldAt e b i (holding d i b content) := (h.held hb hi).congr rfl rfl

theorem heldAt_bitmapDev (content : ℕ → UInt8) :
    HeldAt (Env.quiet (smallSbi 9)) 3 0 (bitmapDev content) := by
  have hm : Mounted (Env.quiet (smallSbi 9)).sbi := ⟨rfl, rfl, by decide, by decide⟩
  have hlabel := (initInv_cacheInit (by decide : 0 < numEntries 9) Dev.blank).label
  refine (shaped_cacheInit hm Dev.blank).holding (fun j hj => ?_) (by decide) content
  exact fun h => absurd ((hlabel j (List.mem_range.mp hj)).symm.trans h) (by decide)

theorem quiet_transfer (sbi : TfsSbInfo) (t : ℕ) : (Env.quiet sbi).transfer t ≠ .ioError := nofun

/-- Three allocations of the first data block, which is given back before the last. -/
theorem runCalls_history_small : ∃ answers : List Answer,
    (runCalls (Env.quiet (smallSbi 9)) .block [.take 6, .take 6, .give 6, .take 6]
      (bitmapDev fun _ => 0)).1 = answers.map (resultOf .block) := by
  obtain ⟨answers, _, hres, _⟩ := runCalls_history (e := Env.quiet (smallSbi 9))
    (i := 0) ⟨rfl, by decide, by decide⟩ (quiet_transfer _) .block
    [.take 6, .take 6, .give 6, .take 6]
    (by simp [Allowed, Env.quiet, smallSbi]) (heldAt_bitmapDev fun _ => 0)
  exact ⟨answers, hres⟩

end Thunix.Fs
