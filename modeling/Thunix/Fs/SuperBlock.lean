import Thunix.Fs.Stable
import Thunix.Fs.CacheShape

/-!
# Mounting any super block

`tfs_mount` looks at the magic number of the super block and at nothing else: the other
fields go as they are into shifts, differences and a division, and into the size of the
entries of the cache. What `fs_init` sets up from an arbitrary sector has the properties the
rest of the file system takes for granted (`Thunix.Fs.SafeGeometry`) exactly if the fields are
in a certain range (`Thunix.Fs.fsInit_geometry_iff`).

The geometry is that of the state after the root has been looked up. A request for a block
links the entries anew and labels them, but their buffers stay where they are
(`Thunix.Fs.SameLayout`).
-/

namespace Thunix.Fs

variable {e : Env} {d d₀ : Dev} {shift : ℕ} {α : Type}

/-! ### The sector -/

/-- The `struct tfs_super_block` in a sector. -/
def superAt (sector : ℕ → UInt8) : TfsSuperBlock where
  sInodesCount := le32 sector 0
  sBlocksCount := le32 sector 4
  sFreeBlocksCount := le32 sector 8
  sFreeInodesCount := le32 sector 12
  sMagic := le32 sector 16
  sBlockShift := le32 sector 20
  sInodeBitmap := le32 sector 24
  sBlockBitmap := le32 sector 28
  sInodeTable := le32 sector 32
  sDataArea := le32 sector 36
  sOffset := le32 sector 40

/-- `fs_init`, from the sector that `tfs_mount` reads: the record it mounts and the state it
leaves, or nothing for `NULL`. The flag says whether `malloc` finds memory for the record;
the result of the other `malloc`, for the `struct fs`, is not looked at. -/
def fsInitSector (e : Env) (memory : Bool) (sector : ℕ → UInt8) (d : Dev) :
    Option (TfsSbInfo × Kernel) :=
  match tfsMount (superAt sector) with
  | none => none
  | some sbi =>
    if memory then
      let e := { e with sbi }
      some (sbi, (tfsIgetByInr e TFS_ROOT_INODE (bootKernel e d)).2)
    else none

/-! ### Where the buffers are -/

/-- The entries are as many, and their buffers where they were. -/
def SameLayout (d₀ d : Dev) : Prop :=
  d.cacheEntries = d₀.cacheEntries ∧ ∀ cs, (d.cache cs).data = (d₀.cache cs).data

theorem SameLayout.trans {d₁ : Dev} (h : SameLayout d₀ d₁) (h' : SameLayout d₁ d) :
    SameLayout d₀ d :=
  ⟨h'.1.trans h.1, fun cs => (h'.2 cs).trans (h.2 cs)⟩

theorem SameLayout.update (h : SameLayout d₀ d) {cs : CacheRef} {c : CacheStruct}
    (hc : c.data = (d.cache cs).data) :
    SameLayout d₀ { d with cache := Function.update d.cache cs c } := by
  refine h.trans ⟨rfl, fun cs' => ?_⟩
  dsimp only
  rcases eq_or_ne cs' cs with rfl | hne
  · rw [Function.update_self, hc]
  · rw [Function.update_of_ne hne]

theorem SameLayout.setNext (h : SameLayout d₀ d) (cs n : CacheRef) :
    SameLayout d₀ (d.setNext cs n) := h.update rfl

theorem SameLayout.setPrev (h : SameLayout d₀ d) (cs p : CacheRef) :
    SameLayout d₀ (d.setPrev cs p) := h.update rfl

theorem SameLayout.setBlock (h : SameLayout d₀ d) (cs : CacheRef) (b : ℕ) :
    SameLayout d₀ (d.setBlock cs b) := h.update rfl

theorem SameLayout.relink (h : SameLayout d₀ d) (last cs : CacheRef) :
    SameLayout d₀ (relink last cs d) :=
  (((((h.setNext _ _).setPrev _ _).setNext _ _).setPrev _ _).setPrev _ _).setNext _ _

/-- **A request for a block leaves the buffers where they are**, whatever the state. -/
theorem getCacheBlock_layout (sb : TfsSbInfo) (b : ℕ) :
    Preserves (SameLayout d₀) (getCacheBlock e sb b) := by
  intro d h
  unfold getCacheBlock
  dsimp only
  obtain ⟨m, t, hrun, -⟩ := tfsBread_frame e sb b (d.cache (d.cache .head).next).data d
  generalize tfsBread e sb b (d.cache (d.cache .head).next).data d = r at hrun ⊢
  obtain ⟨res, d'⟩ := r
  have hread : SameLayout d₀ d' := by
    rw [show d' = _ from hrun]
    exact h
  dsimp only
  split
  · exact h
  · cases findBlock d b d.cacheEntries (d.cache .head).prev with
    | some cs => exact h.relink _ _
    | none =>
      dsimp only
      split
      · exact hread
      · refine SameLayout.relink (SameLayout.setBlock ?_ _ _) _ _
        exact hread

variable {P : Dev → Prop}

/-- A computation on the cache and the disk, in the state of the kernel. -/
theorem preserves_onDev {x : DevM α} (hx : Preserves P x) :
    Preserves (fun k : Kernel => P k.dev) (onDev x) := fun k h => hx k.dev h

theorem preserves_touch (obj : ℕ) : Preserves (fun k : Kernel => P k.dev) (touch obj) := by
  intro k h
  unfold touch
  split <;> exact h

/-- The look-up of the root leaves the buffers where they are. -/
theorem tfsIgetByInr_layout (inr : ℤ) :
    Preserves (fun k => SameLayout d₀ k.dev) (tfsIgetByInr e inr) := by
  have hwild : Preserves (SameLayout d₀) (wildBytes e) := fun d h => h
  have hmalloc : Preserves (fun k => SameLayout d₀ k.dev) (onDev (mallocOk e)) :=
    preserves_onDev fun d h => h
  have hread : Preserves (SameLayout d₀) (tfsReadInode e inr) := by
    refine (getCacheBlock_layout _ _).bind fun r => ?_
    cases r with
    | none => exact hwild
    | some cs => exact Preserves.bind (fun d h => h) fun data => .ite hwild fun d h => h
  have hnew : Preserves (fun k => SameLayout d₀ k.dev) (newInode e 0) := by
    refine hmalloc.bind fun _ => .ite (.pure _ _) (hmalloc.bind fun _ => ?_)
    exact .ite (.pure _ _) fun k h => h
  refine (preserves_onDev hread).bind fun tinode => hnew.bind fun r => ?_
  cases r with
  | none => exact .pure _ _
  | some obj =>
    refine Preserves.bind (Preserves.bind (preserves_touch obj) fun _ k h => h) fun _ => ?_
    exact .pure _ _

/-! ### The geometry -/

/-- What the file system takes for granted of the record mounted and of the cache: no shift
of the set-up is by a whole word or more, the buffers of the entries are inside `cache_data`
and apart, a block has an inode and a sector, and the counts of blocks are those of the
areas. -/
structure SafeGeometry (sbi : TfsSbInfo) (d : Dev) : Prop where
  shift_lt : sbi.sBlockShift < 32
  entries_pos : 1 ≤ d.cacheEntries
  entries_le : d.cacheEntries ≤ MAX_CACHE_ENTRIES
  inside : ∀ i < d.cacheEntries, d.dataOf i + sbi.sBlockSize ≤ CACHE_SIZE
  apart : ∀ i < d.cacheEntries, ∀ j < i, d.dataOf j + sbi.sBlockSize ≤ d.dataOf i
  perBlock : 1 ≤ sbi.sInodesPerBlock
  sector : 9 ≤ sbi.sBlockShift
  inodeBitmap : (sbi.sInodeBitmapCount : ℤ) = sbi.sBlockBitmap - sbi.sInodeBitmap
  blockBitmap : (sbi.sBlockBitmapCount : ℤ) = sbi.sInodeTable - sbi.sBlockBitmap
  inodeTable : (sbi.sInodeTableCount : ℤ) = sbi.sDataArea - sbi.sInodeTable

/-- The range of the fields: blocks from one sector to the whole of `cache_data`, and the
areas in their order. -/
def InRange (super : TfsSuperBlock) : Prop :=
  9 ≤ super.sBlockShift ∧ super.sBlockShift ≤ 15 ∧ super.sInodeBitmap ≤ super.sBlockBitmap ∧
    super.sBlockBitmap ≤ super.sInodeTable ∧ super.sInodeTable ≤ super.sDataArea

instance (super : TfsSuperBlock) : Decidable (InRange super) := inferInstanceAs (Decidable (_ ∧ _))

/-- A difference of words is right exactly if it is not below zero. -/
theorem toU32_sub_eq_iff {a b : ℕ} (ha : a < 2 ^ 32) :
    (toU32 ((a : ℤ) - b) : ℤ) = a - b ↔ b ≤ a := by
  rw [toU32]
  omega

theorem cacheInitLoop_entries (bs n i : ℕ) (prev : CacheRef) (a : ℕ) (d : Dev) :
    (cacheInitLoop bs n i prev a d).cacheEntries = d.cacheEntries := by
  induction n generalizing i prev a d with
  | zero => rfl
  | succ n ih => exact ih _ _ _ _

/-- The number of entries, for any shift. -/
theorem cacheInit_entries (shift : ℕ) (d : Dev) :
    (cacheInit shift d).cacheEntries = numEntries shift := by
  unfold cacheInit numEntries
  dsimp only
  rw [cacheInitLoop_entries]
  change (if _ > _ then _ else _) = _
  split <;> omega

/-- An entry is a share of `cache_data`. -/
theorem numEntries_pos_iff : 1 ≤ numEntries shift ↔ shift ≤ 15 := by
  rw [numEntries, Nat.shiftRight_eq_div_pow, CACHE_SIZE, MAX_CACHE_ENTRIES]
  refine ⟨fun h => ?_, fun h => ?_⟩
  · by_contra hlt
    have hpow : 2 ^ 16 ≤ 2 ^ shift := Nat.pow_le_pow_right (by decide) (by omega)
    rw [Nat.div_eq_of_lt (lt_of_lt_of_le (by decide) hpow)] at h
    omega
  · have hpow : 2 ^ shift ≤ 2 ^ 15 := Nat.pow_le_pow_right (by decide) h
    have : 1 ≤ 32 <<< 10 / 2 ^ shift :=
      (Nat.one_le_div_iff (Nat.two_pow_pos _)).mpr (hpow.trans (by decide))
    omega

/-- The entries fit into `cache_data`. -/
theorem numEntries_mul_le (shift : ℕ) : numEntries shift * 2 ^ shift ≤ CACHE_SIZE := by
  rw [numEntries, Nat.shiftRight_eq_div_pow]
  exact (Nat.mul_le_mul_right _ (Nat.min_le_left _ _)).trans (Nat.div_mul_le_self _ _)

/-- **The geometry of a record**, in a state whose buffers are where `cache_init` has put
them. -/
theorem geometry_iff {super : TfsSuperBlock} {sbi : TfsSbInfo} (hmount : tfsMount super = some sbi)
    (hbb : super.sBlockBitmap < 2 ^ 32) (hit : super.sInodeTable < 2 ^ 32)
    (hda : super.sDataArea < 2 ^ 32) (h : SameLayout (cacheInit sbi.sBlockShift d₀) d) :
    SafeGeometry sbi d ↔ InRange super := by
  have hentries : d.cacheEntries = numEntries sbi.sBlockShift := h.1.trans (cacheInit_entries _ _)
  unfold tfsMount at hmount
  split at hmount
  · cases hmount
  · obtain rfl := Option.some.inj hmount
    refine ⟨fun g => ⟨g.sector, ?_, ?_, ?_, ?_⟩, fun ⟨hlo, hhi, h1, h2, h3⟩ => ?_⟩
    · exact numEntries_pos_iff.mp (hentries ▸ g.entries_pos)
    · exact (toU32_sub_eq_iff hbb).mp g.inodeBitmap
    · exact (toU32_sub_eq_iff hit).mp g.blockBitmap
    · exact (toU32_sub_eq_iff hda).mp g.inodeTable
    · have hpos : 0 < numEntries super.sBlockShift := numEntries_pos_iff.mpr hhi
      have hlt : 2 ^ super.sBlockShift < 2 ^ 32 := Nat.pow_lt_pow_right (by decide) (by omega)
      have hsize : (1 <<< super.sBlockShift) % 2 ^ 32 = 2 ^ super.sBlockShift := by
        rw [Nat.shiftLeft_eq, Nat.one_mul, Nat.mod_eq_of_lt hlt]
      have hdata : ∀ i < d.cacheEntries, d.dataOf i = i * 2 ^ super.sBlockShift := fun i hi => by
        rw [hentries] at hi
        refine (h.2 _).trans (((initInv_cacheInit hpos d₀).data i hi).trans ?_)
        rw [Nat.shiftLeft_eq, Nat.one_mul]
      have hsector : 2 ^ 9 ≤ 2 ^ super.sBlockShift := Nat.pow_le_pow_right (by decide) hlo
      refine ⟨lt_of_le_of_lt hhi (by decide), hentries ▸ hpos, ?_, fun i hi => ?_,
        fun i hi j hj => ?_, ?_, hlo, (toU32_sub_eq_iff hbb).mpr h1, (toU32_sub_eq_iff hit).mpr h2,
        (toU32_sub_eq_iff hda).mpr h3⟩
      · rw [hentries]
        exact Nat.min_le_right _ _
      · dsimp only
        rw [hsize, hdata i hi, ← Nat.succ_mul]
        rw [hentries] at hi
        exact (Nat.mul_le_mul_right _ hi).trans (numEntries_mul_le _)
      · dsimp only
        rw [hsize, hdata i hi, hdata j (hj.trans hi), ← Nat.succ_mul]
        exact Nat.mul_le_mul_right _ hj
      · dsimp only
        rw [hsize, sizeofTfsInode]
        exact (Nat.one_le_div_iff (by decide)).mpr (by omega)

/-- **When mounting is safe**, for every sector with the right magic number: there is no
memory, or the fields are in range. -/
theorem fsInit_geometry_iff (e : Env) (memory : Bool) (sector : ℕ → UInt8) (d : Dev)
    (hmagic : (superAt sector).sMagic = TFS_MAGIC) :
    (fsInitSector e memory sector d = none ∨
      ∃ sbi k, fsInitSector e memory sector d = some (sbi, k) ∧ SafeGeometry sbi k.dev) ↔
    (memory = false ∨ InRange (superAt sector)) := by
  obtain ⟨sbi, hmount⟩ : ∃ sbi, tfsMount (superAt sector) = some sbi := by
    rw [tfsMount, if_neg (not_not.mpr hmagic)]
    exact ⟨_, rfl⟩
  have hlayout : SameLayout (cacheInit sbi.sBlockShift d)
      (tfsIgetByInr { e with sbi } TFS_ROOT_INODE (bootKernel { e with sbi } d)).2.dev :=
    tfsIgetByInr_layout _ _ ⟨rfl, fun _ => rfl⟩
  have hiff := geometry_iff hmount (le32_lt _ _) (le32_lt _ _) (le32_lt _ _) hlayout
  unfold fsInitSector
  rw [hmount]
  cases memory with
  | false => exact iff_of_true (.inl rfl) (.inl rfl)
  | true =>
    rw [or_iff_right Bool.true_eq_false.mp, ← hiff]
    refine ⟨?_, fun h => .inr ⟨sbi, _, rfl, h⟩⟩
    rintro (h | ⟨sbi', k, h, hg⟩)
    · cases h
    · obtain ⟨rfl, rfl⟩ := Prod.mk.inj (Option.some.inj h)
      exact hg

/-! ### Two sectors -/

/-- A sector that is all zero but for its magic number: its blocks would be of one byte. -/
def bareSector : ℕ → UInt8 := fun x =>
  if x = 16 then 0x54 else if x = 17 then 0x46 else if x = 18 then 0x53 else if x = 19 then 0x4c
  else 0

/-- The sector of the small volume, as far as its areas go. -/
def smallSector : ℕ → UInt8 := fun x =>
  if x = 20 then 9 else if x = 24 then 2 else if x = 28 then 3 else if x = 32 then 4
  else if x = 36 then 6 else bareSector x

/-- The small volume is mounted safely. -/
theorem fsInit_geometry_small :
    fsInitSector (Env.quiet (smallSbi 9)) true smallSector Dev.blank = none ∨
      ∃ sbi k, fsInitSector (Env.quiet (smallSbi 9)) true smallSector Dev.blank = some (sbi, k) ∧
        SafeGeometry sbi k.dev :=
  (fsInit_geometry_iff _ true smallSector Dev.blank (by decide)).mpr (.inr (by decide))

/-- **The bare sector is mounted** as well. A block has no inode then. -/
theorem not_fsInit_geometry : (superAt bareSector).sMagic = TFS_MAGIC ∧
    ∃ sbi k, fsInitSector (Env.quiet (smallSbi 9)) true bareSector Dev.blank = some (sbi, k) ∧
      sbi.sInodesPerBlock = 0 ∧ ¬SafeGeometry sbi k.dev := by
  have hmagic : (superAt bareSector).sMagic = TFS_MAGIC := by decide
  refine ⟨hmagic, ?_⟩
  unfold fsInitSector
  rw [tfsMount, if_neg (not_not.mpr hmagic)]
  have hzero : ((1 <<< (superAt bareSector).sBlockShift) % 2 ^ 32) / sizeofTfsInode = 0 := by
    decide
  exact ⟨_, _, rfl, hzero, fun g => absurd (g.perBlock.trans_eq hzero) (by decide)⟩

end Thunix.Fs
