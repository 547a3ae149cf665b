import Thunix.Fs.FullDirs
import Thunix.Fs.Untouched

/-!
# Insertions that fail

`tfs_add_entry` changes things in an order of its own: a new block is allocated before it is
known whether there is room for it in `i_data`, it is linked into `i_data` before it has been
read, and the entry is counted in `i_size` before it has been written. No exit takes any of
this back. The number of the new block is unsigned, so that the test for an error of the
allocator is never met, and the error itself is linked in.

So a failed insertion leaves the inode, the disk and the bitmap alone under a condition on the
place where the name is to go (`Thunix.Fs.Place.Safe`): at a free entry, that its block can be
written; at a new block, that the bitmap is not full and what the allocator returns can be
read and written as a block; at no place at all, that nothing is allocated
(`Thunix.Fs.insert_kept_iff`).
-/

namespace Thunix.Fs

variable {e : Env} {dir : Inode} {name : List UInt8} {d : Dev} {inr : ℤ} {dirty : Bool}

/-! ### The property and its condition -/

/-- No number is free in the bitmap of the blocks, the target included. -/
def NoneLeft (e : Env) (d : Dev) : Prop :=
  ∃ cs d₁, tfsReadBlockBitmap e d = (some cs, d₁) ∧ d₁.bitmapOf cs e.sbi.sDataArea = true ∧
    ∀ j < 8 * e.sbi.sBlockSize, d₁.bitmapOf cs j = true

/-- A failed insertion changes nothing, and one that needs a new block where none is free is
refused. -/
def InsertKept (e : Env) (dir : Inode) (name : List UInt8) (inr : ℤ) (dirty : Bool) (d : Dev) :
    Prop :=
  ((tfsAddEntry e dir name inr dirty d).1.1 ≠ 0 → Unchanged dir
    (tfsAddEntry e dir name inr dirty d).1.2.1 d (tfsAddEntry e dir name inr dirty d).2) ∧
  ∀ index ≤ TFS_N_BLOCKS, name.length ≤ TFS_NAME_LEN → (findPlace e dir d).1 = .full index →
    NoneLeft e (findPlace e dir d).2 → (tfsAddEntry e dir name inr dirty d).1.1 = -ENOSPC

/-- The number that `tfs_alloc_block` returns is that of a block, or an error: it can be
requested, and then written. -/
def Landed (e : Env) (d : Dev) : Prop :=
  Writable e (toU32 (tfsAllocBlock e e.sbi.sDataArea d).1) (tfsAllocBlock e e.sbi.sDataArea d).2

/-- The insertion goes through, or fails before anything has changed. -/
def Place.Safe (e : Env) (d : Dev) : Place → Prop
  | .fail => True
  | .slot _ _ _ => WriteOk e d.ticks
  | .full index =>
    if index ≤ TFS_N_BLOCKS then ¬NoneLeft e d ∧ Landed e d
    else Unread e d ∨ Settles e e.sbi.sDataArea minusOne d

/-! ### The steps -/

/-- The walk ends behind a word that is zero. -/
theorem addEntryLoop_full {n : ℕ} (ws : List ℕ) (index : ℕ) (d : Dev)
    (h : (addEntryLoop e ws index d).1 = .full n) : ∃ k, n = index + k ∧ ws.getD k 0 = 0 := by
  induction ws generalizing index d with
  | nil => exact ⟨0, (Place.full.inj h).symm, rfl⟩
  | cons block rest ih =>
    rw [addEntryLoop, DevM.bind_apply] at h
    generalize getCacheBlock e e.sbi block d = q at h
    obtain ⟨_ | cs, d₁⟩ := q
    · cases h
    · dsimp only at h
      rw [DevM.bind_apply, DevM.bind_apply] at h
      generalize readMem (fun m => freeInBlock m (entriesPerBlock e) (dataPtr cs d₁).1)
        (dataPtr cs d₁).2 = q at h
      obtain ⟨_ | de, d₂⟩ := q
      · dsimp only at h
        by_cases hzero : rest.headD 0 = 0
        · rw [if_pos hzero] at h
          refine ⟨1, (Place.full.inj h).symm, ?_⟩
          cases rest with
          | nil => rfl
          | cons word _ => exact hzero
        · rw [if_neg hzero] at h
          obtain ⟨k, hn, hk⟩ := ih (index + 1) d₂ h
          exact ⟨k + 1, by omega, hk⟩
      · cases h

/-- A new block is to be linked in where `i_data` is zero. -/
theorem findPlace_full {n : ℕ} (h : (findPlace e dir d).1 = .full n) (hn : n ≤ TFS_N_BLOCKS) :
    n - 1 < TFS_N_BLOCKS ∧ dir.iData.getD (n - 1) 0 = 0 := by
  have hpred : n - 1 < TFS_N_BLOCKS := lt_of_le_of_lt (Nat.sub_le_sub_right hn 1) (by decide)
  refine ⟨hpred, ?_⟩
  unfold findPlace at h
  by_cases hzero : dir.iData.getD 0 0 = 0
  · rw [if_pos hzero] at h
    obtain rfl := Place.full.inj h
    exact hzero
  · rw [if_neg hzero, DevM.bind_apply] at h
    obtain ⟨k, rfl, hk⟩ := addEntryLoop_full _ 1 _ h
    rw [Nat.add_sub_cancel_left] at hpred ⊢
    have hlt : k < dir.iData.length := by rwa [dir.iData_length]
    have hword : (dir.iData ++ e.beyond d.ticks).getD k 0 = 0 := hk
    rwa [List.getD_append _ _ _ _ hlt] at hword

/-- What putting an entry comes to: the size has grown, and the result says whether the entry
has reached the disk. -/
def IsPut (e : Env) (dir : Inode) (tick : ℕ) (res : (ℤ × Inode × Bool) × Dev) : Prop :=
  res.1.2.1.iSize = (dir.iSize + sizeofDirEntry) % 2 ^ 32 ∧
    ((res.1.1 = 0 ∧ WriteOk e tick) ∨ (res.1.1 = - EIO ∧ ¬WriteOk e tick))

theorem IsPut.zero_iff {tick : ℕ} {res : (ℤ × Inode × Bool) × Dev} (h : IsPut e dir tick res) :
    res.1.1 = 0 ↔ WriteOk e tick := by
  rcases h.2 with ⟨hr, hok⟩ | ⟨hr, hfail⟩
  · exact iff_of_true hr hok
  · exact iff_of_false (by rw [hr]; decide) hfail

theorem putEntry_outcome (e : Env) (dir : Inode) (name : List UInt8) (inr : ℤ) (block : ℕ)
    (cs : CacheRef) (de : ℕ) (d : Dev) :
    IsPut e dir d.ticks (putEntry e dir name inr block cs de d) := by
  have hzero : (tfsBwrite e e.sbi block (dataPtr cs (copyIn de sizeofDirEntry (newEntry inr name)
      d).2).1 (dataPtr cs (copyIn de sizeofDirEntry (newEntry inr name) d).2).2).1 = 0 ↔
        WriteOk e d.ticks := tfsBwrite_eq_zero_iff false e block _ _
  rw [putEntry, DevM.bind_apply, DevM.bind_apply, DevM.bind_apply]
  by_cases hok : WriteOk e d.ticks
  · rw [if_neg (not_not.mpr (hzero.mpr hok))]
    exact ⟨rfl, .inl ⟨rfl, hok⟩⟩
  · rw [if_pos (mt hzero.mp hok)]
    exact ⟨rfl, .inr ⟨rfl, hok⟩⟩

theorem putFirstEntry_outcome (e : Env) (dir : Inode) (name : List UInt8) (inr : ℤ) (block : ℕ)
    (cs : CacheRef) (d : Dev) :
    IsPut e dir d.ticks (putFirstEntry e dir name inr block cs d) :=
  putEntry_outcome e dir name inr block cs _
    (d.copyIn (d.cache cs).data e.sbi.sBlockSize fun _ => 0)

/-- Once an entry is put, nothing but success leaves the size alone. -/
theorem IsPut.kept_iff {dir' : Inode} {tick : ℕ} {res : (ℤ × Inode × Bool) × Dev}
    (h : IsPut e dir' tick res) (dir : Inode) (d₀ : Dev) (hsize : dir'.iSize = dir.iSize) :
    (res.1.1 ≠ 0 → Unchanged dir res.1.2.1 d₀ res.2) ↔ WriteOk e tick := by
  rw [← h.zero_iff]
  refine ⟨fun hkept => by_contra fun hr => ?_, fun h hr => absurd h hr⟩
  have hsame := (hkept hr).iSize
  rw [h.1, hsize, sizeofDirEntry] at hsame
  omega

/-! ### The new block -/

/-- **A number that has been linked in cannot be overlooked**: if it is that of a block, a bit
has been set, and if it is an error, it is not zero. -/
theorem not_unchanged_of_linked (hs : Sized e.sbi) {t k : ℕ} {dir' : Inode} {d₀ d' : Dev}
    (hk : k < TFS_N_BLOCKS) (hword : dir.iData.getD k 0 = 0) (hd : Untouched d₀ d)
    (hdata : dir'.iData = (dir.setData k (toU32 (tfsAllocBlock e t d).1)).iData)
    (hflips : d'.flips = (tfsAllocBlock e t d).2.flips) : ¬Unchanged dir dir' d₀ d' := by
  intro h
  have hlinked : toU32 (tfsAllocBlock e t d).1 = 0 := by
    rw [← hword, ← h.iData, hdata, getD_setData hk, if_pos rfl]
  rcases tfsAllocBlock_touch hs t d with ⟨-, hr, -⟩ | ⟨-, -, hr, -⟩ | ⟨-, -, htaken⟩
  · rw [hr] at hlinked
    exact absurd hlinked (by decide)
  · rw [hr] at hlinked
    exact absurd hlinked (by decide)
  · exact htaken.flips_ne (hflips.symm.trans (h.dev.flips.trans hd.flips.symm))

section NewBlock

variable (hs : Sized e.sbi) {d₀ : Dev} (hd : Untouched d₀ d)

include hs hd

/-- The directory has room for a block. -/
theorem addEntryFrom_room {index : ℕ} (hindex : index ≤ TFS_N_BLOCKS)
    (hpred : index - 1 < TFS_N_BLOCKS) (hword : dir.iData.getD (index - 1) 0 = 0) :
    (((addEntryFrom e dir name inr dirty (.full index) d).1.1 ≠ 0 → Unchanged dir
      (addEntryFrom e dir name inr dirty (.full index) d).1.2.1 d₀
      (addEntryFrom e dir name inr dirty (.full index) d).2) ∧
      (NoneLeft e d → (addEntryFrom e dir name inr dirty (.full index) d).1.1 = -ENOSPC)) ↔
    ¬NoneLeft e d ∧ Landed e d := by
  have hlinked := fun dir' d' => @not_unchanged_of_linked e dir d hs e.sbi.sDataArea (index - 1)
    dir' d₀ d' hpred hword hd
  rw [addEntryFrom, DevM.bind_apply, Landed, Writable]
  dsimp only
  rw [if_neg (Nat.not_lt.mpr hindex), DevM.bind_apply]
  generalize tfsAllocBlock e e.sbi.sDataArea d = new at hlinked
  have hget := getCacheBlock_untouched e e.sbi (toU32 new.1) new.2
  generalize getCacheBlock e e.sbi (toU32 new.1) new.2 = got at hget
  obtain ⟨_ | cs, d₂⟩ := got
  · refine iff_of_false (fun h => ?_) fun h => h.2.1 rfl
    exact hlinked _ _ rfl hget.flips (h.1 (show - EIO ≠ 0 by decide))
  · have hput := putFirstEntry_outcome e (dir.setData (index - 1) (toU32 new.1)) name inr
      (toU32 new.1) cs d₂
    have hkept := hput.kept_iff dir d₀ rfl
    have hsome := Option.some_ne_none cs
    dsimp only
    rw [hkept, and_iff_right hsome, and_comm]
    refine and_congr_left fun hok => ?_
    rw [hput.zero_iff.mpr hok]
    exact ⟨fun h hn => absurd (h hn) (by decide), fun h hn => absurd hn h⟩

/-- The directory has no room for a block. -/
theorem addEntryFrom_noRoom {index : ℕ} (hindex : ¬index ≤ TFS_N_BLOCKS) :
    ((addEntryFrom e dir name inr dirty (.full index) d).1.1 ≠ 0 → Unchanged dir
      (addEntryFrom e dir name inr dirty (.full index) d).1.2.1 d₀
      (addEntryFrom e dir name inr dirty (.full index) d).2) ↔
    Unread e d ∨ Settles e e.sbi.sDataArea minusOne d := by
  rw [addEntryFrom, DevM.bind_apply]
  dsimp only
  rw [if_pos (Nat.not_le.mp hindex)]
  refine (forall_prop_of_true (show -EFBIG ≠ 0 by decide)).trans ?_
  rcases tfsAllocBlock_touch hs e.sbi.sDataArea d with ⟨hread, -, hu⟩ | ⟨-, hfull, -, hu⟩ |
    ⟨hread, hfull, htaken⟩
  · exact iff_of_true ⟨rfl, rfl, hd.trans hu⟩ (.inl hread)
  · exact iff_of_true ⟨rfl, rfl, hd.trans hu⟩ (.inr hfull)
  · refine iff_of_false (fun h => ?_) (not_or.mpr ⟨hread, hfull⟩)
    exact htaken.flips_ne (h.dev.flips.trans hd.flips.symm)

end NewBlock

/-- **When a failed insertion changes nothing**, for every directory, name, bitmap and course of
the transfers: the name is too long, or the place that is found for it is safe. -/
theorem insert_kept_iff (hs : Sized e.sbi) (dir : Inode) (name : List UInt8) (inr : ℤ)
    (dirty : Bool) (d : Dev) :
    InsertKept e dir name inr dirty d ↔
      TFS_NAME_LEN < name.length ∨ (findPlace e dir d).1.Safe e (findPlace e dir d).2 := by
  rw [InsertKept, tfsAddEntry_eq]
  by_cases hlong : name.length > TFS_NAME_LEN
  · rw [if_pos hlong]
    exact iff_of_true ⟨fun _ => ⟨rfl, rfl, .refl d⟩, fun _ _ h => absurd hlong (by omega)⟩
      (.inl hlong)
  · rw [if_neg hlong, or_iff_right hlong, DevM.bind_apply]
    have hfull := fun n => @findPlace_full e dir d n
    have hbefore := @findPlace_untouched e dir d
    generalize findPlace e dir d = place at hfull hbefore
    obtain ⟨place, d₁⟩ := place
    cases place with
    | fail =>
      refine iff_of_true ⟨fun _ => ⟨rfl, rfl, hbefore⟩, fun _ _ _ h => by cases h⟩ trivial
    | slot block cs de =>
      refine (and_iff_left fun _ _ _ h => by cases h).trans ?_
      exact (putEntry_outcome e dir name inr block cs de d₁).kept_iff dir d rfl
    | full index =>
      by_cases hindex : index ≤ TFS_N_BLOCKS
      · obtain ⟨hpred, hword⟩ := hfull index rfl hindex
        refine Iff.trans (and_congr_right' ?_)
          ((addEntryFrom_room hs hbefore hindex hpred hword).trans
          (iff_of_eq (if_pos hindex).symm))
        exact ⟨fun h => h index hindex (by omega) rfl, fun h _ _ _ heq => h⟩
      · refine (and_iff_left fun i hi _ h => ?_).trans
          ((addEntryFrom_noRoom hs hbefore hindex).trans
          (iff_of_eq (if_neg hindex).symm))
        exact absurd (Place.full.inj h ▸ hi) hindex

/-! ### An empty directory -/

/-- The first entry of a directory, with a disk that cannot be written: a bit is set, and the
error of the allocator becomes the first block of the directory. And with a bitmap that is
full, where the insertion succeeds in a block of that kind. -/
theorem not_insert_kept :
    (tfsAddEntry writeProtected (newInodeValue TFS_DIR) [97] 2 false (bitmapDev fun _ => 0)).1.1 =
      - EIO ∧
    (tfsAddEntry writeProtected (newInodeValue TFS_DIR) [97] 2 false
      (bitmapDev fun _ => 0)).1.2.1.iData.getD 0 0 = 0xfffffffb ∧
    (tfsAddEntry writeProtected (newInodeValue TFS_DIR) [97] 2 false
      (bitmapDev fun _ => 0)).2.flips = [6] ∧
    ¬InsertKept writeProtected (newInodeValue TFS_DIR) [97] 2 false (bitmapDev fun _ => 0) ∧
    NoneLeft (Env.quiet (smallSbi 9)) (bitmapDev fun _ => 0xff) ∧
    (tfsAddEntry (Env.quiet (smallSbi 9)) (newInodeValue TFS_DIR) [97] 2 false
      (bitmapDev fun _ => 0xff)).1.1 = 0 := by
  have hr : (tfsAddEntry writeProtected (newInodeValue TFS_DIR) [97] 2 false
      (bitmapDev fun _ => 0)).1.1 = - EIO := by decide +kernel
  have hflips : (tfsAddEntry writeProtected (newInodeValue TFS_DIR) [97] 2 false
      (bitmapDev fun _ => 0)).2.flips = [6] := by decide +kernel
  refine ⟨hr, by decide +kernel, hflips, fun h => ?_, ?_, by decide +kernel⟩
  · have hsame := (h.1 (by rw [hr]; decide)).dev.flips
    rw [hflips] at hsame
    cases hsame
  · obtain ⟨d₁, hget, hbits⟩ := request_small (e := Env.quiet (smallSbi 9)) (b := 3) rfl (by decide)
      (fun _ => 0xff) (smallSbi 9)
    have hones : ∀ r < 8, Nat.testBit 255 r = true := by decide
    have hall : ∀ j, d₁.bitmapOf (.entry 0) j = true := fun j => by
      rw [hbits]
      exact hones (j % 8) (Nat.mod_lt _ (by decide))
    exact ⟨.entry 0, d₁, hget, hall _, fun j _ => hall j⟩

/-- The entry is made in the first block of the volume. -/
theorem insert_kept_small :
    InsertKept (Env.quiet (smallSbi 9)) (newInodeValue TFS_DIR) [97] 2 false
      (bitmapDev fun _ => 0) := by
  refine (insert_kept_iff ⟨rfl, by decide, by decide⟩ _ _ _ _ _).mpr (.inr ?_)
  refine ⟨?_, by decide +kernel, by decide +kernel⟩
  rintro ⟨cs, d₁, hreq, htaken, -⟩
  obtain ⟨d₁', hget, hbits⟩ := request_small (e := Env.quiet (smallSbi 9)) (b := 3) rfl (by decide)
      (fun _ => 0) (smallSbi 9)
  obtain ⟨hcs, rfl⟩ := Prod.mk.inj (hget.symm.trans hreq)
  obtain rfl := Option.some.inj hcs
  rw [hbits] at htaken
  exact absurd htaken (by decide)

end Thunix.Fs
