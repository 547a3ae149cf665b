import Thunix.Fs.BitmapCalls
import Thunix.Fs.Transfers

/-!
# Bitmap calls whose write fails

The calls of `fs/tfs/balloc.c` and `fs/tfs/ialloc.c` change a bit in the cached bitmap and
then write the block. What one of them returns depends on the bitmap, its argument and
whether the write reports an error (`Thunix.Fs.WriteOk`), and here the four of them are
followed through both outcomes of the write.

Only `tfs_alloc_inode` takes its change back when the write fails, and even this one
clears a bit that was set before if it has handed out a number in use. So a failed call
leaves the bitmap as it was under a condition (`Thunix.Fs.bitmap_kept_iff`). For the
same reason the two allocators do not always choose alike
(`Thunix.Fs.allocators_alike_iff`): `tfs_alloc_inode` compares the masked byte with 1, so
that it sees a target in use only at the first bit of a byte.
-/

namespace Thunix.Fs

open Pool

variable {e : Env} {d d' : Dev} {k t nr tick n : ℕ} {cs : CacheRef}

/-! ### The outcome of a write -/

/-- The sectors of a block that is written at this time meet no error of the controller. -/
def WriteOk (e : Env) (tick : ℕ) : Prop :=
  ∀ k < sectorsPerBlock e.sbi, e.transfer (tick + k) ≠ .ioError

instance : Decidable (WriteOk e tick) := inferInstanceAs (Decidable (∀ _ < _, _))

/-- A write reports success exactly if none of its sectors meets an error. -/
theorem floppyWritesLoop_eq_zero_iff (e : Env) (n sector buf : ℕ) (d : Dev) :
    (floppyWritesLoop e n sector buf 0 d).1 = 0 ↔
      ∀ k < n, e.transfer (d.ticks + k) ≠ .ioError := by
  induction n generalizing sector buf d with
  | zero => exact iff_of_true rfl fun k hk => absurd hk (Nat.not_lt_zero k)
  | succ n ih =>
    -- the first sector, and the others a tick later
    have hsplit : (∀ k < n + 1, e.transfer (d.ticks + k) ≠ .ioError) ↔
        e.transfer d.ticks ≠ .ioError ∧ ∀ k < n, e.transfer (d.ticks + 1 + k) ≠ .ioError := by
      refine ⟨fun h => ⟨h 0 (Nat.succ_pos n), fun k hk => ?_⟩, fun ⟨h0, h⟩ k hk => ?_⟩
      · rw [Nat.add_assoc, Nat.add_comm 1 k]
        exact h (k + 1) (Nat.succ_lt_succ hk)
      · cases k with
        | zero => exact h0
        | succ k =>
          have := h k (Nat.lt_of_succ_lt_succ hk)
          rwa [Nat.add_assoc, Nat.add_comm 1 k] at this
    rw [hsplit]
    cases ht : e.transfer d.ticks with
    | done =>
      rw [floppyWritesLoop_succ_done ht, ih]
      exact ⟨fun h => ⟨nofun, h⟩, fun h => h.2⟩
    | seekError =>
      rw [floppyWritesLoop_succ_seekError ht, ih]
      exact ⟨fun h => ⟨nofun, h⟩, fun h => h.2⟩
    | ioError =>
      rw [floppyWritesLoop_succ_ioError ht]
      exact iff_of_false (show - EIO ≠ 0 by decide) fun h => h.1 rfl

/-- What a write of a block returns. -/
theorem tfsBwriteTagged_outcome (undone : Bool) (e : Env) (b buf : ℕ) (d : Dev) :
    ((tfsBwriteTagged undone e e.sbi b buf d).1 = 0 ∧ WriteOk e d.ticks) ∨
      ((tfsBwriteTagged undone e e.sbi b buf d).1 = - EIO ∧ ¬WriteOk e d.ticks) := by
  have hiff := floppyWritesLoop_eq_zero_iff e (sectorsPerBlock e.sbi) (sectorOf e.sbi b) buf d
  rcases floppyWritesLoop_res e (sectorsPerBlock e.sbi) (sectorOf e.sbi b) buf d (.inl rfl) with
    h | h
  · exact .inl ⟨h, hiff.mp h⟩
  · refine .inr ⟨h, fun hok => ?_⟩
    rw [hiff.mpr hok] at h
    exact absurd h (by decide)

variable {cache : CacheRef → CacheStruct} {entries : ℕ} {used : ℕ → Bool} {P : Dev → Prop}

/-- A bitmap in its buffer, at this time. -/
def BitmapAt (cache : CacheRef → CacheStruct) (entries : ℕ) (cs : CacheRef) (used : ℕ → Bool)
    (tick : ℕ) (d : Dev) : Prop :=
  BitmapIs cache entries cs used d ∧ d.ticks = tick

/-- A program on the bitmap that takes no time. -/
theorem hoare_timed {α : Type} {x : DevM α} {R : α → Prop} {used' : ℕ → Bool}
    (h : Hoare (BitmapIs cache entries cs used) x fun a d =>
      R a ∧ BitmapIs cache entries cs used' d)
    (ht : ∀ d, (x d).2.ticks = d.ticks) :
    Hoare (BitmapAt cache entries cs used tick) x fun a d =>
      R a ∧ BitmapAt cache entries cs used' tick d := fun d hd =>
  ⟨(h d hd.1).1, (h d hd.1).2, (ht d).trans hd.2⟩

theorem setBitAt_timed : Hoare (BitmapAt cache entries cs used tick)
    (setBitAt (cache cs).data nr) fun _ d =>
      BitmapAt cache entries cs (Function.update used nr true) tick d := fun d hd =>
  ⟨setBitAt_bitmap d hd.1, hd.2⟩

/-- `clear_bit` returns zero exactly if the bit was clear. -/
theorem clearBitAt_timed : Hoare (BitmapAt cache entries cs used tick)
    (clearBitAt (cache cs).data nr) fun old d => (old = 0 ↔ used nr = false) ∧
      BitmapAt cache entries cs (Function.update used nr false) tick d := fun d hd => by
  refine ⟨?_, clearBitAt_bitmap d hd.1, hd.2⟩
  rw [← hd.1.2.2]
  exact testBit_eq_zero_iff

theorem tfsBwrite_timed {undone : Bool} {b a : ℕ} : Hoare (BitmapAt cache entries cs used tick)
    (tfsBwriteTagged undone e e.sbi b a) fun r d =>
      ((r = 0 ∧ WriteOk e tick) ∨ (r = - EIO ∧ ¬WriteOk e tick)) ∧
        BitmapIs cache entries cs used d := fun d hd => by
  have hres := tfsBwriteTagged_outcome undone e b a d
  rw [hd.2] at hres
  refine ⟨hres, ?_⟩
  obtain ⟨disk, t, m, hrun, -⟩ := tfsBwriteTagged_run undone e e.sbi b a d
  rw [hrun]
  exact hd.1

/-- The bits of the array in the buffer of an entry. -/
def Dev.bitmapOf (d : Dev) (cs : CacheRef) : ℕ → Bool := bit d.cacheData (d.cache cs).data

/-- A request that has been granted, with the time. -/
theorem hoare_of_granted {sb : TfsSbInfo} {b : ℕ} {d₁ : Dev}
    (h : getCacheBlock e sb b d = (some cs, d₁)) :
    Hoare (fun s => s = d) (getCacheBlock e sb b) fun r s => r = some cs ∧
      BitmapAt d₁.cache d₁.cacheEntries cs (d₁.bitmapOf cs) d₁.ticks s := by
  rintro s rfl
  rw [h]
  exact ⟨rfl, ⟨rfl, rfl, rfl⟩, rfl⟩

theorem BitmapIs.bitmapOf (h : BitmapIs cache entries cs used d) : d.bitmapOf cs = used := by
  rw [Dev.bitmapOf, h.1]
  exact h.2.2

/-! ### The four calls -/

/-- What giving back the number `k` comes to. -/
def Freed (e : Env) (tick : ℕ) (cache : CacheRef → CacheStruct) (entries : ℕ) (cs : CacheRef)
    (used : ℕ → Bool) (k : ℕ) (r : ℤ) (d : Dev) : Prop :=
  ((r = 0 ∧ (used k = false ∨ WriteOk e tick)) ∨
    (r = - EIO ∧ used k = true ∧ ¬WriteOk e tick)) ∧
  BitmapIs cache entries cs (Function.update used k false) d

/-- The common part of the two functions that free a number. -/
theorem clear_outcome {b : ℕ} : Hoare (BitmapAt cache entries cs used tick)
    (do if (← clearBitAt (cache cs).data k) = 0 then pure 0
        else tfsBwrite e e.sbi b (cache cs).data)
    (Freed e tick cache entries cs used k) := by
  refine clearBitAt_timed.bind fun old => .given fun hold => ?_
  refine .ite (fun h => .pure fun d hd => ⟨.inl ⟨rfl, .inl (hold.mp h)⟩, hd.1⟩) fun h => ?_
  have hset : used k = true := Bool.eq_true_of_not_eq_false fun hc => h (hold.mpr hc)
  refine tfsBwrite_timed.post fun r d ⟨hr, hd⟩ => ⟨?_, hd⟩
  rcases hr with ⟨hr, hok⟩ | ⟨hr, hfail⟩
  · exact .inl ⟨hr, .inr hok⟩
  · exact .inr ⟨hr, hset, hfail⟩

theorem dataPtr_timed : Hoare (BitmapAt cache entries cs used tick) (dataPtr cs) fun a d =>
    a = (cache cs).data ∧ BitmapAt cache entries cs used tick d :=
  hoare_timed dataPtr_bitmap fun _ => rfl

theorem tfsFreeBlock_outcome (hreq : Hoare P (tfsReadBlockBitmap e) fun r d =>
      r = some cs ∧ BitmapAt cache entries cs used tick d) :
    Hoare P (tfsFreeBlock e k) (Freed e tick cache entries cs used k) :=
  hreq.bind_eq (dataPtr_timed.bind_eq clear_outcome)

theorem tfsFreeInode_outcome {inr : ℤ} (hreq : Hoare P (tfsReadInodeBitmap e) fun r d =>
      r = some cs ∧ BitmapAt cache entries cs used tick d) :
    Hoare P (tfsFreeInode e inr) (Freed e tick cache entries cs used (toU32 (inr - 1))) :=
  hreq.bind_eq (dataPtr_timed.bind_eq clear_outcome)

/-- What `tfs_alloc_block` comes to. -/
def BlockTaken (e : Env) (tick : ℕ) (cache : CacheRef → CacheStruct) (entries : ℕ)
    (cs : CacheRef) (used : ℕ → Bool) (t : ℕ) (r : ℤ) (d : Dev) : Prop :=
  ∃ k, Chosen (8 * e.sbi.sBlockSize) t used k ∧
    ((k = minusOne ∧ r = -ENOSPC ∧ BitmapIs cache entries cs used d) ∨
      (k ≠ minusOne ∧ BitmapIs cache entries cs (Function.update used k true) d ∧
        ((WriteOk e tick ∧ r = toS32 k) ∨ (¬WriteOk e tick ∧ r = - EIO))))

theorem findTarget_timed (hs : Sized e.sbi) : Hoare (BitmapAt cache entries cs used tick)
    (findTarget e (used t) (cache cs).data t) fun k d =>
      Chosen (8 * e.sbi.sBlockSize) t used k ∧ BitmapAt cache entries cs used tick d :=
  hoare_timed ((findTarget_bitmap hs).post fun _ _ h => ⟨h.2, h.1⟩) fun d => by
    cases used t <;> rfl

theorem tfsAllocBlock_outcome (hs : Sized e.sbi) (hreq : Hoare P (tfsReadBlockBitmap e) fun r d =>
      r = some cs ∧ BitmapAt cache entries cs used tick d) :
    Hoare P (tfsAllocBlock e t) (BlockTaken e tick cache entries cs used t) := by
  refine hreq.bind_eq (dataPtr_timed.bind_eq ((hoare_timed taken_bitmap fun _ => rfl).bind_eq ?_))
  refine (findTarget_timed hs).bind fun k => .given fun hch => ?_
  refine .ite (fun hk => ?_) fun hk => ?_
  · refine setBitAt_timed.bind fun _ => tfsBwrite_timed.bind fun r => .given fun hr => ?_
    rcases hr with ⟨rfl, hok⟩ | ⟨rfl, hfail⟩
    · exact .pure fun d hd => ⟨k, hch, .inr ⟨hk, hd, .inl ⟨hok, rfl⟩⟩⟩
    · exact .pure fun d hd => ⟨k, hch, .inr ⟨hk, hd, .inr ⟨hfail, rfl⟩⟩⟩
  · exact .pure fun d hd => ⟨k, hch, .inl ⟨not_not.mp hk, rfl, hd.1⟩⟩

/-- The test of `tfs_alloc_inode` is right about the target: it is free, or its bit is the
first of a byte. -/
def SeenRight (used : ℕ → Bool) (t : ℕ) : Prop := used t = false ∨ t % 8 = 0

/-- What `tfs_alloc_inode` comes to. -/
def InodeTaken (e : Env) (tick : ℕ) (cache : CacheRef → CacheStruct) (entries : ℕ)
    (cs : CacheRef) (used : ℕ → Bool) (t : ℕ) (r : ℤ) (d : Dev) : Prop :=
  ∃ k, (SeenRight used t → Chosen (8 * e.sbi.sBlockSize) t used k) ∧ (¬SeenRight used t → k = t) ∧
    ((k = minusOne ∧ r = -ENOSPC ∧ BitmapIs cache entries cs used d) ∨
      (k < 2 ^ 31 ∧ WriteOk e tick ∧ r = k + 1 ∧
        BitmapIs cache entries cs (Function.update used k true) d) ∨
      (k < 2 ^ 31 ∧ ¬WriteOk e tick ∧ r = - EIO ∧
        BitmapIs cache entries cs (Function.update (Function.update used k true) k false) d))

theorem tfsAllocInode_outcome (hs : Sized e.sbi) (ht : t < 2 ^ 31)
    (hreq : Hoare P (tfsReadInodeBitmap e) fun r d =>
      r = some cs ∧ BitmapAt cache entries cs used tick d) :
    Hoare P (tfsAllocInode e (t + 1)) (InodeTaken e tick cache entries cs used t) := by
  have hsize := hs.size_le
  have hnr : toU32 ((t : ℤ) + 1 - 1) = t := by
    rw [add_sub_cancel_right, toU32_natCast (by omega)]
  rw [tfsAllocInode, if_neg (by omega)]
  refine hreq.bind_eq (dataPtr_timed.bind_eq ?_)
  rw [hnr]
  refine (hoare_timed taken_one_bitmap fun _ => rfl).bind_eq ?_
  have hfind : Hoare (BitmapAt cache entries cs used tick)
      (findTarget e (used t && decide (t % 8 = 0)) (cache cs).data t) fun k d =>
        ((SeenRight used t → Chosen (8 * e.sbi.sBlockSize) t used k) ∧
          (¬SeenRight used t → k = t)) ∧ BitmapAt cache entries cs used tick d := by
    by_cases hseen : SeenRight used t
    · have heq : (used t && decide (t % 8 = 0)) = used t := by
        rcases hseen with h | h
        · rw [h, Bool.false_and]
        · rw [decide_eq_true h, Bool.and_true]
      rw [heq]
      exact (findTarget_timed hs).post fun k d h => ⟨⟨fun _ => h.1, fun hn => absurd hseen hn⟩, h.2⟩
    · have hfirst : ¬t % 8 = 0 := fun h => hseen (.inr h)
      rw [decide_eq_false hfirst, Bool.and_false]
      exact fun d hd => ⟨⟨fun h => absurd h hseen, fun _ => rfl⟩, hd⟩
  refine hfind.bind fun k => .given fun ⟨hch, hsame⟩ => ?_
  by_cases hk : k = minusOne
  · subst hk
    exact .pure fun d hd => ⟨minusOne, hch, hsame, .inl ⟨rfl, rfl, hd.1⟩⟩
  · have hlt : k < 2 ^ 31 := by
      by_cases hseen : SeenRight used t
      · exact (hch hseen).lt hk (by omega) ht
      · rw [hsame hseen]
        exact ht
    have hback : toU32 (toS32 k) = k := by rw [toS32_of_lt hlt, toU32_natCast (by omega)]
    refine .ite (fun _ => ?_) fun hneg => absurd (by rw [toS32_of_lt hlt]; omega) hneg
    rw [hback]
    refine setBitAt_timed.bind fun old => tfsBwrite_timed.bind fun r => .given fun hr => ?_
    rcases hr with ⟨rfl, hok⟩ | ⟨rfl, hfail⟩
    · refine .pure fun d hd => ⟨k, hch, hsame, .inr (.inl ⟨hlt, hok, ?_, hd⟩)⟩
      rw [toS32_of_lt hlt]
    · refine clearBitAt_bitmap.bind fun _ => ?_
      exact .pure fun d hd => ⟨k, hch, hsame, .inr (.inr ⟨hlt, hfail, rfl, hd⟩)⟩

/-! ### What a failed call leaves -/

/-- A call that has got hold of its bitmap leaves the bits alone if it fails. -/
def KeptOnError (e : Env) (d₁ : Dev) (cs : CacheRef) (res : ℤ × Dev) : Prop :=
  res.1 < 0 → ∀ k < 8 * e.sbi.sBlockSize, res.2.bitmapOf cs k = d₁.bitmapOf cs k

variable {r : ℤ}

/-- The bits of a bitmap differ from what they were at most in one number. -/
theorem update_kept_iff {v : Bool} : (∀ j < n, Function.update used k v j = used j) ↔
    used k = v ∨ n ≤ k := by
  refine ⟨fun h => ?_, fun h j hj => ?_⟩
  · rcases Nat.lt_or_ge k n with hk | hk
    · have := h k hk
      rw [Function.update_self] at this
      exact .inl this.symm
    · exact .inr hk
  · rcases eq_or_ne j k with rfl | hne
    · rw [Function.update_self, h.resolve_right (by omega)]
    · rw [Function.update_of_ne hne]

theorem Freed.kept_iff (h : Freed e tick cache entries cs used k r d) :
    (r < 0 → ∀ j < n, d.bitmapOf cs j = used j) ↔ used k = false ∨ n ≤ k ∨ WriteOk e tick := by
  obtain ⟨⟨rfl, hgood⟩ | ⟨rfl, hset, hfail⟩, hbits⟩ := h
  · refine iff_of_true (fun h => absurd h (by decide)) ?_
    rcases hgood with h | h
    · exact .inl h
    · exact .inr (.inr h)
  · rw [hbits.bitmapOf, or_iff_left hfail]
    exact (forall_prop_of_true (by decide)).trans update_kept_iff

/-- A number that is settled on is free. -/
theorem Chosen.free (h : Chosen n t used k) (hk : k ≠ minusOne) : used k = false := by
  rcases h with ⟨rfl, hfree⟩ | ⟨-, -, hfree, -⟩ | ⟨-, h, -⟩
  · exact hfree
  · exact hfree
  · exact absurd h hk

theorem BlockTaken.kept_iff (hs : Sized e.sbi) (ht : t < 2 ^ 32)
    (h : BlockTaken e tick cache entries cs used t r d) :
    (r < 0 → ∀ j < 8 * e.sbi.sBlockSize, d.bitmapOf cs j = used j) ↔
      WriteOk e tick ∨ (used t = false ∧ 8 * e.sbi.sBlockSize ≤ t) ∨
        (used t = true ∧ ∀ j < 8 * e.sbi.sBlockSize, used j = true) := by
  have hsize := hs.size_le
  obtain ⟨k, hch, ⟨hk, -, hbits⟩ | ⟨hk, hbits, hres⟩⟩ := h
  · -- no number is found, or the target is the one that stands for that
    refine iff_of_true (fun _ j _ => by rw [hbits.bitmapOf]) (.inr ?_)
    rcases hch with ⟨rfl, hfree⟩ | ⟨-, hlt, -⟩ | ⟨htaken, -, hall⟩
    · refine .inl ⟨hfree, ?_⟩
      rw [hk, minusOne]
      omega
    · rw [hk, minusOne] at hlt
      omega
    · exact .inr ⟨htaken, hall⟩
  · have hfree := hch.free hk
    have hright : ((used t = false ∧ 8 * e.sbi.sBlockSize ≤ t) ∨
        (used t = true ∧ ∀ j < 8 * e.sbi.sBlockSize, used j = true)) ↔
          8 * e.sbi.sBlockSize ≤ k := by
      rcases hch with ⟨rfl, hfree⟩ | ⟨htaken, hlt, hfree, -⟩ | ⟨-, h, -⟩
      · simp [hfree]
      · refine iff_of_false ?_ (by omega)
        rintro (⟨h, -⟩ | ⟨-, hall⟩)
        · rw [htaken] at h
          cases h
        · rw [hall k hlt] at hfree
          cases hfree
      · exact absurd h hk
    rw [hright, hbits.bitmapOf, update_kept_iff, hfree, or_iff_right Bool.false_ne_true]
    rcases hres with ⟨hok, rfl⟩ | ⟨hfail, rfl⟩
    · refine iff_of_true (fun hneg => ?_) (.inl hok)
      -- a number that is returned as a negative one is past the end of the bitmap
      by_contra hk
      rw [toS32_of_lt (by omega)] at hneg
      omega
    · rw [or_iff_right hfail]
      exact forall_prop_of_true (by decide)

theorem InodeTaken.kept_iff (ht : t < 2 ^ 31)
    (h : InodeTaken e tick cache entries cs used t r d) :
    (r < 0 → ∀ j < n, d.bitmapOf cs j = used j) ↔
      WriteOk e tick ∨ SeenRight used t ∨ n ≤ t := by
  obtain ⟨k, hch, hsame, ⟨rfl, -, hbits⟩ | ⟨hk, hok, rfl, hbits⟩ | ⟨hk, hfail, rfl, hbits⟩⟩ := h
  · refine iff_of_true (fun _ j _ => by rw [hbits.bitmapOf]) (.inr (.inl ?_))
    by_contra hseen
    rw [← hsame hseen, minusOne] at ht
    omega
  · exact iff_of_true (fun h => absurd h (by omega)) (.inl hok)
  · -- the number is given back: nothing has changed if it was free
    have hne : k ≠ minusOne := by
      rw [minusOne]
      omega
    have hkept : (- EIO < 0 → ∀ j < n, d.bitmapOf cs j = used j) ↔ used k = false ∨ n ≤ k := by
      rw [hbits.bitmapOf, Function.update_idem]
      exact (forall_prop_of_true (by decide)).trans update_kept_iff
    rw [hkept, or_iff_right hfail]
    by_cases hseen : SeenRight used t
    · exact iff_of_true (.inl ((hch hseen).free hne)) (.inl hseen)
    · rw [hsame hseen, or_iff_right hseen, or_iff_right fun h => hseen (.inl h)]

/-- **When a failed call leaves the bitmap as it was**, for the four calls, every bitmap and
every outcome of the write. Freeing a number in use and allocating one that was free do so
only if the write succeeds; `tfs_alloc_inode` takes a number back whose write has failed,
so that here a number that was in use before is the exception. -/
theorem bitmap_kept_iff (hs : Sized e.sbi) :
    (∀ d d₁ cs k, tfsReadBlockBitmap e d = (some cs, d₁) →
      (KeptOnError e d₁ cs (tfsFreeBlock e k d) ↔
        d₁.bitmapOf cs k = false ∨ 8 * e.sbi.sBlockSize ≤ k ∨ WriteOk e d₁.ticks)) ∧
    (∀ d d₁ cs inr, tfsReadInodeBitmap e d = (some cs, d₁) →
      (KeptOnError e d₁ cs (tfsFreeInode e inr d) ↔
        d₁.bitmapOf cs (toU32 (inr - 1)) = false ∨ 8 * e.sbi.sBlockSize ≤ toU32 (inr - 1) ∨
          WriteOk e d₁.ticks)) ∧
    (∀ d d₁ cs t, t < 2 ^ 32 → tfsReadBlockBitmap e d = (some cs, d₁) →
      (KeptOnError e d₁ cs (tfsAllocBlock e t d) ↔ WriteOk e d₁.ticks ∨
        (d₁.bitmapOf cs t = false ∧ 8 * e.sbi.sBlockSize ≤ t) ∨
        (d₁.bitmapOf cs t = true ∧ ∀ j < 8 * e.sbi.sBlockSize, d₁.bitmapOf cs j = true))) ∧
    (∀ d d₁ cs inr, 1 ≤ inr → inr < 2 ^ 31 → tfsReadInodeBitmap e d = (some cs, d₁) →
      (KeptOnError e d₁ cs (tfsAllocInode e inr d) ↔ WriteOk e d₁.ticks ∨
        SeenRight (d₁.bitmapOf cs) (toU32 (inr - 1)) ∨
        8 * e.sbi.sBlockSize ≤ toU32 (inr - 1))) ∧
    ∀ d inr, inr < 1 → tfsAllocInode e inr d = (-EINVAL, d) := by
  refine ⟨fun d d₁ cs k hreq => ?_, fun d d₁ cs inr hreq => ?_, fun d d₁ cs t ht hreq => ?_,
    fun d d₁ cs inr hlo hhi hreq => ?_, fun d inr hlt => ?_⟩
  · exact (tfsFreeBlock_outcome (hoare_of_granted hreq) d rfl).kept_iff
  · exact (tfsFreeInode_outcome (hoare_of_granted hreq) d rfl).kept_iff
  · exact (tfsAllocBlock_outcome hs (hoare_of_granted hreq) d rfl).kept_iff hs ht
  · obtain ⟨t, rfl⟩ : ∃ t : ℕ, inr = t + 1 := ⟨(inr - 1).toNat, by omega⟩
    have ht : t < 2 ^ 31 := by omega
    have hnr : toU32 ((t : ℤ) + 1 - 1) = t := by
      rw [add_sub_cancel_right, toU32_natCast (by omega)]
    rw [hnr]
    exact (tfsAllocInode_outcome hs ht (hoare_of_granted hreq) d rfl).kept_iff ht
  · rw [tfsAllocInode, if_pos hlt]
    rfl

/-! ### The two allocators side by side -/

/-- Two bitmaps with the same bits have the same number chosen. -/
theorem Chosen.unique {used' : ℕ → Bool} {k' : ℕ} (htarget : used t = used' t)
    (hsame : ∀ j < n, used j = used' j) (h : Chosen n t used k) (h' : Chosen n t used' k') :
    k = k' := by
  rcases h with ⟨rfl, hfree⟩ | ⟨htaken, hlt, hfree, hbelow⟩ | ⟨htaken, rfl, hall⟩
  · rcases h' with ⟨rfl, -⟩ | ⟨htaken', -⟩ | ⟨htaken', -⟩
    · rfl
    all_goals
      rw [hfree, htaken'] at htarget
      cases htarget
  · rcases h' with ⟨-, hfree'⟩ | ⟨-, hlt', hfree', hbelow'⟩ | ⟨-, -, hall'⟩
    · rw [htaken, hfree'] at htarget
      cases htarget
    · rcases Nat.lt_trichotomy k k' with hk | hk | hk
      · have := hbelow' k hk
        rw [← hsame k hlt, hfree] at this
        cases this
      · exact hk
      · have := hbelow k' hk
        rw [hsame k' hlt', hfree'] at this
        cases this
    · have := hall' k hlt
      rw [← hsame k hlt, hfree] at this
      cases this
  · rcases h' with ⟨-, hfree'⟩ | ⟨-, hlt', hfree', -⟩ | ⟨-, rfl, -⟩
    · rw [htaken, hfree'] at htarget
      cases htarget
    · have := hall k' hlt'
      rw [hsame k' hlt', hfree'] at this
      cases this
    · rfl

/-- An inode has been asked for and a block, and the answers are the same: none, or the
numbers of one bit that was clear; and so are the bitmaps afterwards. -/
def AnsweredAlike (n : ℕ) (used : ℕ → Bool) (inode block : ℤ) (usedInodes usedBlocks : ℕ → Bool) :
    Prop :=
  ((inode = -ENOSPC ∧ block = -ENOSPC) ∨
    ∃ k < n, inode = k + 1 ∧ block = k ∧ used k = false) ∧
  ∀ j < n, usedInodes j = usedBlocks j

/-- **When the two allocators choose alike**, for every bitmap and every target in it: the
target is free, or its bit is the first of a byte. -/
theorem allocators_alike_iff (hs : Sized e.sbi) {d₁ d₁' : Dev} {cs' : CacheRef}
    (hinode : tfsReadInodeBitmap e d = (some cs, d₁))
    (hblock : tfsReadBlockBitmap e d' = (some cs', d₁'))
    (hsame : ∀ j < 8 * e.sbi.sBlockSize, d₁.bitmapOf cs j = d₁'.bitmapOf cs' j)
    (hw : WriteOk e d₁.ticks) (hw' : WriteOk e d₁'.ticks) (ht : t < 8 * e.sbi.sBlockSize) :
    AnsweredAlike (8 * e.sbi.sBlockSize) (d₁.bitmapOf cs) (tfsAllocInode e (t + 1) d).1
        (tfsAllocBlock e t d').1 ((tfsAllocInode e (t + 1) d).2.bitmapOf cs)
        ((tfsAllocBlock e t d').2.bitmapOf cs') ↔
      SeenRight (d₁.bitmapOf cs) t := by
  have hsize := hs.size_le
  obtain ⟨k, hch, hother, hinr⟩ :=
    tfsAllocInode_outcome hs (t := t) (by omega) (hoare_of_granted hinode) d rfl
  obtain ⟨k', hch', hres⟩ :=
    tfsAllocBlock_outcome hs (t := t) (hoare_of_granted hblock) d' rfl
  by_cases hseen : SeenRight (d₁.bitmapOf cs) t
  · refine iff_of_true ?_ hseen
    obtain rfl := (hch hseen).unique (hsame t ht) hsame hch'
    rcases hinr with ⟨hk, hr, hbits⟩ | ⟨hk, -, hr, hbits⟩ | ⟨-, hfail, -⟩
    · obtain ⟨-, hr', hbits'⟩ := hres.resolve_right fun h => h.1 hk
      refine ⟨.inl ⟨hr, hr'⟩, fun j hj => ?_⟩
      rw [hbits.bitmapOf, hbits'.bitmapOf, hsame j hj]
    · have hne : k ≠ minusOne := by
        rw [minusOne]
        omega
      obtain ⟨-, hbits', hout⟩ := hres.resolve_left fun h => hne h.1
      have hr' := (hout.resolve_right fun h => h.1 hw').2
      have hlt : k < 8 * e.sbi.sBlockSize := by
        rcases hch hseen with ⟨rfl, -⟩ | ⟨-, hlt, -⟩ | ⟨-, h, -⟩
        · exact ht
        · exact hlt
        · exact absurd h hne
      rw [toS32_of_lt hk] at hr'
      refine ⟨.inr ⟨k, hlt, hr, hr', (hch hseen).free hne⟩, fun j hj => ?_⟩
      rw [hbits.bitmapOf, hbits'.bitmapOf]
      rcases eq_or_ne j k with rfl | hjk
      · rw [Function.update_self, Function.update_self]
      · rw [Function.update_of_ne hjk, Function.update_of_ne hjk, hsame j hj]
    · exact absurd hw hfail
  · -- the target is taken, and the inode of its number handed out again
    obtain rfl := hother hseen
    refine iff_of_false (fun hboth => ?_) hseen
    have halike := hboth.1
    have hr : (tfsAllocInode e (k + 1) d).1 = k + 1 := by
      rcases hinr with ⟨hk, -⟩ | ⟨-, -, hr, -⟩ | ⟨-, hfail, -⟩
      · rw [hk, minusOne] at ht
        omega
      · exact hr
      · exact absurd hw hfail
    rw [hr] at halike
    rcases halike with ⟨h, -⟩ | ⟨r, -, h, -, hfree⟩
    · rw [ENOSPC] at h
      omega
    · obtain rfl : k = r := by omega
      exact hseen (.inl hfree)

/-! ### A small volume -/

/-- The small volume, with this block in the first entry of the cache. -/
theorem heldAt_small {b : ℕ} (hsbi : e.sbi = smallSbi 9) (hb : b ≠ emptyBlock)
    (content : ℕ → UInt8) : HeldAt e b 0 (holding (cacheInit 9 Dev.blank) 0 b content) := by
  have hm : Mounted e.sbi := by
    rw [hsbi]
    exact ⟨rfl, rfl, by decide, by decide⟩
  have hlabel := (initInv_cacheInit (by decide : 0 < numEntries 9) Dev.blank).label
  have hshape := shaped_cacheInit hm Dev.blank
  rw [hsbi] at hshape
  refine hshape.holding (fun j hj h => hb ?_) (by rw [hsbi]; decide) content
  exact h.symm.trans (hlabel j (List.mem_range.mp hj))

/-- A request for the block gives its content. -/
theorem request_small {b : ℕ} (hsbi : e.sbi = smallSbi 9) (hb : b ≠ emptyBlock)
    (content : ℕ → UInt8) (sb : TfsSbInfo) :
    ∃ d₁, getCacheBlock e sb b (holding (cacheInit 9 Dev.blank) 0 b content) =
        (some (.entry 0), d₁) ∧ d₁.bitmapOf (.entry 0) = bit content 0 := by
  obtain ⟨d₁, hget, hheld, hrel⟩ := (heldAt_small hsbi hb content).request sb
  obtain ⟨os, hos⟩ := hheld.shape
  refine ⟨d₁, hget, ?_⟩
  have hdata : (d₁.cache (.entry 0)).data = 0 := (hos.data 0 hheld.lt).trans (Nat.zero_mul _)
  rw [Dev.bitmapOf, hdata, hrel.rest]
  rfl

/-- A small volume whose disk cannot be written. -/
def writeProtected : Env :=
  { Env.quiet (smallSbi 9) with transfer := fun _ => .ioError }

/-- Block 6 is to be freed, and the write fails: its bit is clear all the same. -/
theorem not_bitmap_kept : ∃ d₁,
    tfsReadBlockBitmap writeProtected (bitmapDev fun _ => 0xff) = (some (.entry 0), d₁) ∧
    (tfsFreeBlock writeProtected 6 (bitmapDev fun _ => 0xff)).1 = - EIO ∧
    d₁.bitmapOf (.entry 0) 6 = true ∧
    (tfsFreeBlock writeProtected 6 (bitmapDev fun _ => 0xff)).2.bitmapOf (.entry 0) 6 = false := by
  obtain ⟨d₁, hget, hbits⟩ :=
    request_small (e := writeProtected) (b := 3) rfl (by decide) (fun _ => 0xff) (smallSbi 9)
  have hset : d₁.bitmapOf (.entry 0) 6 = true := by
    rw [hbits]
    decide
  obtain ⟨hres, hafter⟩ :=
    tfsFreeBlock_outcome (k := 6) (hoare_of_granted hget) (bitmapDev fun _ => 0xff) rfl
  refine ⟨d₁, hget, ?_, hset, by rw [hafter.bitmapOf, Function.update_self]⟩
  rcases hres with ⟨-, h | h⟩ | ⟨h, -⟩
  · rw [hset] at h
    cases h
  · exact absurd rfl (h 0 (by decide))
  · exact h

/-- Block 6 is free already, so that nothing is written. -/
theorem bitmap_kept_iff_small : ∃ d₁ : Dev,
    KeptOnError writeProtected d₁ (.entry 0)
      (tfsFreeBlock writeProtected 6 (bitmapDev fun _ => 0)) := by
  obtain ⟨d₁, hget, hbits⟩ :=
    request_small (e := writeProtected) (b := 3) rfl (by decide) (fun _ => 0) (smallSbi 9)
  refine ⟨d₁, ((bitmap_kept_iff ⟨rfl, by decide, by decide⟩).1 _ d₁ _ 6 hget).mpr (.inl ?_)⟩
  rw [hbits]
  decide

/-- **The second inode is in use**, and is allocated again, where of the blocks the first
one is. -/
theorem not_allocators_alike : ∃ d₁ d₁' : Dev,
    tfsReadInodeBitmap (Env.quiet (smallSbi 9))
      (holding (cacheInit 9 Dev.blank) 0 2 fun _ => 2) = (some (.entry 0), d₁) ∧
    tfsReadBlockBitmap (Env.quiet (smallSbi 9)) (bitmapDev fun _ => 2) = (some (.entry 0), d₁') ∧
    d₁.bitmapOf (.entry 0) = d₁'.bitmapOf (.entry 0) ∧ d₁.bitmapOf (.entry 0) 1 = true ∧
    (tfsAllocInode (Env.quiet (smallSbi 9)) 2
      (holding (cacheInit 9 Dev.blank) 0 2 fun _ => 2)).1 = 2 ∧
    (tfsAllocBlock (Env.quiet (smallSbi 9)) 1 (bitmapDev fun _ => 2)).1 = 0 := by
  obtain ⟨d₁, hget, hbits⟩ := request_small (e := Env.quiet (smallSbi 9)) (b := 2) rfl (by decide)
    (fun _ => 2) (smallSbi 9)
  obtain ⟨d₁', hget', hbits'⟩ := request_small (e := Env.quiet (smallSbi 9)) (b := 3) rfl
    (by decide) (fun _ => 2) (smallSbi 9)
  refine ⟨d₁, d₁', hget, hget', hbits.trans hbits'.symm, ?_, by decide +kernel,
    by decide +kernel⟩
  rw [hbits]
  decide

/-- The first inode and the first block are free. -/
theorem allocators_alike_small : ∃ used usedInodes usedBlocks,
    AnsweredAlike (8 * (smallSbi 9).sBlockSize) used
      (tfsAllocInode (Env.quiet (smallSbi 9)) ((0 : ℕ) + 1)
        (holding (cacheInit 9 Dev.blank) 0 2 fun _ => 2)).1
      (tfsAllocBlock (Env.quiet (smallSbi 9)) 0 (bitmapDev fun _ => 2)).1
      usedInodes usedBlocks := by
  obtain ⟨d₁, hget, hbits⟩ := request_small (e := Env.quiet (smallSbi 9)) (b := 2) rfl (by decide)
    (fun _ => 2) (smallSbi 9)
  obtain ⟨d₁', hget', hbits'⟩ := request_small (e := Env.quiet (smallSbi 9)) (b := 3) rfl
    (by decide) (fun _ => 2) (smallSbi 9)
  refine ⟨_, _, _, (allocators_alike_iff (e := Env.quiet (smallSbi 9)) (t := 0)
    ⟨rfl, by decide, by decide⟩ hget hget' (fun j _ => ?_) (fun k _ => quiet_transfer _ _)
    (fun k _ => quiet_transfer _ _) (by decide)).mpr (.inr rfl)⟩
  rw [hbits, hbits']

end Thunix.Fs
