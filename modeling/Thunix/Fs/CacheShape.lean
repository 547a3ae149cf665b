import Thunix.Fs.CacheLru
import Thunix.Fs.Dir

/-!
# The shape of the cache of a mounted file system

What a run never changes: the list of the cache is a ring through its entries, each
entry has its own block of `cache_data` for a buffer, and no block is held twice
(`Thunix.Fs.Shaped`). The outcomes of a request are stated over it, without the
reference list (`Thunix.Fs.Shaped.request`).

`Thunix.Fs.Mounted` collects what `tfs_mount` makes of a super block whose blocks are
of a size that the cache can take two of.
-/

namespace Thunix.Fs

variable {e : Env} {sb : TfsSbInfo} {d d' : Dev} {b i j : ℕ} {os pre post : List ℕ}

/-! ### Sizes -/

/-- The record of a mounted file system with blocks from 512 bytes to 16 kB. -/
structure Mounted (sbi : TfsSbInfo) : Prop where
  size : sbi.sBlockSize = 2 ^ sbi.sBlockShift
  perBlock : sbi.sInodesPerBlock = sbi.sBlockSize / sizeofTfsInode
  lo : 9 ≤ sbi.sBlockShift
  hi : sbi.sBlockShift ≤ 14

/-- **What `tfs_mount` makes is mounted.** -/
theorem mounted_of_tfsMount {super : TfsSuperBlock} {sbi : TfsSbInfo}
    (h : tfsMount super = some sbi) (lo : 9 ≤ super.sBlockShift) (hi : super.sBlockShift ≤ 14) :
    Mounted sbi := by
  unfold tfsMount at h
  split at h
  · cases h
  · obtain rfl := Option.some.inj h
    have hlt : 2 ^ super.sBlockShift < 2 ^ 32 := Nat.pow_lt_pow_right (by decide) (by omega)
    refine ⟨?_, rfl, lo, hi⟩
    simp only [Nat.shiftLeft_eq, Nat.one_mul, Nat.mod_eq_of_lt hlt]

variable {sbi : TfsSbInfo}

theorem Mounted.exists_size (h : Mounted sbi) :
    ∃ k, sbi.sBlockSize = 512 * 2 ^ k ∧ sectorsPerBlock sbi = 2 ^ k ∧ k ≤ 5 := by
  refine ⟨sbi.sBlockShift - 9, ?_, ?_, by have := h.hi; omega⟩
  · rw [h.size, show 512 = 2 ^ 9 by rfl, ← Nat.pow_add, Nat.add_sub_cancel' h.lo]
  · rw [sectorsPerBlock, Nat.shiftLeft_eq, Nat.one_mul]

/-- A block is as many sectors as are transferred for it. -/
theorem Mounted.sectors (h : Mounted sbi) : 512 * sectorsPerBlock sbi = sbi.sBlockSize := by
  obtain ⟨k, h1, h2, -⟩ := h.exists_size
  rw [h1, h2]

theorem Mounted.size_pos (h : Mounted sbi) : 512 ≤ sbi.sBlockSize := by
  obtain ⟨k, h1, -, -⟩ := h.exists_size
  rw [h1]
  exact Nat.le_mul_of_pos_right _ (Nat.two_pow_pos k)

theorem Mounted.size_le (h : Mounted sbi) : sbi.sBlockSize ≤ 2 ^ 14 := by
  rw [h.size]
  exact Nat.pow_le_pow_right (by decide) h.hi

theorem Mounted.dvd_size (h : Mounted sbi) : 512 ∣ sbi.sBlockSize := by
  obtain ⟨k, h1, -, -⟩ := h.exists_size
  exact ⟨_, h1⟩

/-- The records of a block of the inode table fill it. -/
theorem Mounted.records (h : Mounted sbi) :
    sbi.sInodesPerBlock * sizeofTfsInode = sbi.sBlockSize := by
  have := h.dvd_size
  rw [h.perBlock, sizeofTfsInode]
  omega

/-- The entries of a directory block fill it. -/
theorem Mounted.slots (h : Mounted e.sbi) :
    entriesPerBlock e * sizeofDirEntry = e.sbi.sBlockSize := by
  have := h.dvd_size
  rw [entriesPerBlock, sizeofDirEntry]
  omega

theorem Mounted.two_le_entries (h : Mounted sbi) : 2 ≤ numEntries sbi.sBlockShift := by
  have h1 : 2 ≤ CACHE_SIZE >>> sbi.sBlockShift := by
    rw [Nat.shiftRight_eq_div_pow, Nat.le_div_iff_mul_le (Nat.two_pow_pos _), ← h.size]
    have := h.size_le
    have hsize : CACHE_SIZE = 2 ^ 15 := by decide
    omega
  exact le_min h1 (by decide)

/-- The blocks of the file system have from 512 bytes to the size of the cache. -/
structure Sized (sbi : TfsSbInfo) : Prop where
  size : sbi.sBlockSize = 2 ^ sbi.sBlockShift
  lo : 9 ≤ sbi.sBlockShift
  hi : sbi.sBlockShift ≤ 15

theorem Mounted.sized {sbi : TfsSbInfo} (h : Mounted sbi) : Sized sbi :=
  ⟨h.size, h.lo, h.hi.trans (by decide)⟩

theorem Sized.size_le (h : Sized sbi) : sbi.sBlockSize ≤ 2 ^ 15 := by
  rw [h.size]
  exact Nat.pow_le_pow_right (by decide) h.hi

theorem Sized.size_pos (h : Sized sbi) : 0 < sbi.sBlockSize := by
  rw [h.size]
  exact Nat.two_pow_pos _

/-- A block is as many sectors as are transferred for it. -/
theorem Sized.sectors (h : Sized sbi) : 512 * sectorsPerBlock sbi = sbi.sBlockSize := by
  rw [sectorsPerBlock, Nat.shiftLeft_eq, Nat.one_mul, h.size, show 512 = 2 ^ 9 by rfl,
    ← Nat.pow_add, Nat.add_sub_cancel' h.lo]

theorem Sized.four_dvd (h : Sized sbi) : 4 ∣ sbi.sBlockSize := by
  rw [← h.sectors]
  omega

theorem Sized.entries_pos (h : Sized sbi) : 0 < numEntries sbi.sBlockShift := by
  have h1 : 1 ≤ CACHE_SIZE >>> sbi.sBlockShift := by
    rw [Nat.shiftRight_eq_div_pow, Nat.le_div_iff_mul_le (Nat.two_pow_pos _), ← h.size]
    have := h.size_le
    have hsize : CACHE_SIZE = 2 ^ 15 := by decide
    omega
  exact le_min h1 (by decide)

/-! ### Shape -/

/-- The cache of the mounted file system has its shape, with the entries in the order
`os`. -/
structure Shaped (e : Env) (os : List ℕ) (d : Dev) : Prop where
  ring : RingOk d os
  entries : d.cacheEntries = numEntries e.sbi.sBlockShift
  data : ∀ i < numEntries e.sbi.sBlockShift, d.dataOf i = i * e.sbi.sBlockSize
  labels : ∀ i ∈ os, ∀ j ∈ os, d.label i = d.label j → d.label i ≠ emptyBlock → i = j

theorem Shaped.mem_iff (h : Shaped e os d) : i ∈ os ↔ i < numEntries e.sbi.sBlockShift := by
  rw [h.ring.mem_iff, h.entries]

theorem Shaped.data_of_mem (h : Shaped e os d) (hi : i ∈ os) :
    d.dataOf i = i * e.sbi.sBlockSize := h.data i (h.mem_iff.mp hi)

/-- The shape depends on the list, the labels and the buffers only. -/
theorem Shaped.congr (h : Shaped e os d) (hc : d'.cache = d.cache)
    (hn : d'.cacheEntries = d.cacheEntries) : Shaped e os d' := by
  refine ⟨h.ring.congr ?_ hn, hn.trans h.entries, ?_, ?_⟩
  · rw [Dev.links, Dev.links, hc]
  · intro i hi
    rw [Dev.dataOf, hc]
    exact h.data i hi
  · intro i hi j hj hij
    rw [Dev.label, Dev.label, hc] at hij
    rw [Dev.label, hc]
    exact h.labels i hi j hj hij

/-- Moving entries about keeps the shape. -/
theorem Shaped.relinked {os' : List ℕ} (h : Shaped e os d) (hr : d.Relinked d')
    (hring : RingOk d' os') : Shaped e os' d' := by
  have hn : d'.cacheEntries = d.cacheEntries := by rw [hr.rest]
  have hmem : ∀ {i}, i ∈ os' → i ∈ os := fun hi => by
    rw [hring.mem_iff, hn, ← h.ring.mem_iff] at hi
    exact hi
  refine ⟨hring, hn.trans h.entries, fun i hi => (hr.data _).trans (h.data i hi), ?_⟩
  intro i hi j hj hij hne
  rw [Dev.label, Dev.label, hr.block, hr.block] at hij
  rw [Dev.label, hr.block] at hne
  exact h.labels i (hmem hi) j (hmem hj) hij hne

/-- Labelling an entry with a block that no entry holds keeps the shape. -/
theorem Shaped.setBlock (h : Shaped e os d) (hb : ∀ j ∈ os, d.label j ≠ b) (i : ℕ) :
    Shaped e os (d.setBlock (.entry i) b) := by
  have hlab : ∀ j, (d.setBlock (.entry i) b).label j = if j = i then b else d.label j := fun j => by
    by_cases hj : j = i <;> simp [Dev.label, Dev.setBlock, hj]
  refine ⟨h.ring.congr (links_setBlock _ _ _) rfl, h.entries, fun j hj => ?_, ?_⟩
  · rw [← h.data j hj]
    by_cases hji : j = i <;> simp [Dev.dataOf, Dev.setBlock, hji]
  · intro j hj k hk hjk hne
    rw [hlab, hlab] at hjk
    rw [hlab] at hne
    by_cases hji : j = i <;> by_cases hki : k = i
    · rw [hji, hki]
    · rw [if_pos hji, if_neg hki] at hjk
      exact absurd hjk.symm (hb k hk)
    · rw [if_neg hji, if_pos hki] at hjk
      exact absurd hjk (hb j hj)
    · rw [if_neg hji, if_neg hki] at hjk
      rw [if_neg hji] at hne
      exact h.labels j hj k hk hjk hne

/-- The outcomes of a request. -/
inductive Request (e : Env) (sb : TfsSbInfo) (b : ℕ) (os : List ℕ) (d : Dev) :
    Option CacheRef → Dev → Prop
  /-- An entry holds the block: it is moved to the end. -/
  | hit {pre post : List ℕ} {i : ℕ} {d' : Dev} (hos : os = pre ++ i :: post)
      (label : d.label i = b) (shape : Shaped e (pre ++ post ++ [i]) d') (rel : d.Relinked d') :
      Request e sb b os d (some (.entry i)) d'
  /-- None does: the first entry is filled, labelled and moved to the end. -/
  | miss {post : List ℕ} {i : ℕ} {d' : Dev} (hos : os = i :: post)
      (absent : ∀ j ∈ os, d.label j ≠ b) (read : (tfsBread e sb b (d.dataOf i) d).1 = 0)
      (shape : Shaped e (post ++ [i]) d')
      (rel : ((loadInto e sb b i d).setBlock (.entry i) b).Relinked d') :
      Request e sb b os d (some (.entry i)) d'
  /-- The read fails: only the buffer has changed. -/
  | fail {post : List ℕ} {i : ℕ} (hos : os = i :: post) (absent : ∀ j ∈ os, d.label j ≠ b)
      (read : (tfsBread e sb b (d.dataOf i) d).1 ≠ 0) (shape : Shaped e os (loadInto e sb b i d)) :
      Request e sb b os d none (loadInto e sb b i d)

theorem loadInto_cache (e : Env) (sb : TfsSbInfo) (b i : ℕ) (d : Dev) :
    (loadInto e sb b i d).cache = d.cache ∧
      (loadInto e sb b i d).cacheEntries = d.cacheEntries := by
  obtain ⟨m, t, h, -⟩ := loadInto_frame e sb b i d
  rw [h]
  exact ⟨rfl, rfl⟩

/-- **Every request has one of the three outcomes.** -/
theorem Shaped.request (h : Shaped e os d) (hm : Mounted e.sbi) (sb : TfsSbInfo) (b : ℕ) :
    Request e sb b os d (getCacheBlock e sb b d).1 (getCacheBlock e sb b d).2 := by
  have htwo : 2 ≤ d.cacheEntries := h.entries.symm ▸ hm.two_le_entries
  rcases h.ring.request e sb b htwo with ⟨pre, i, post, d', rfl, hi, -, hget, hring, hrel⟩ |
    ⟨i, post, rfl, habsent, hout⟩
  · rw [hget]
    exact .hit rfl hi (h.relinked hrel hring) hrel
  · obtain ⟨hc, hn⟩ := loadInto_cache e sb b i d
    have hload : Shaped e (i :: post) (loadInto e sb b i d) := h.congr hc hn
    rcases hout with ⟨hread, d', hget, hring, hrel⟩ | ⟨hread, hget, -⟩
    · rw [hget]
      refine .miss rfl habsent hread ((hload.setBlock ?_ i).relinked hrel hring) hrel
      intro j hj
      rw [Dev.label, hc]
      exact habsent j hj
    · rw [hget]
      exact .fail rfl habsent hread hload

/-- A request keeps the shape. -/
theorem Shaped.request_shape (h : Shaped e os d) (hm : Mounted e.sbi) (sb : TfsSbInfo) (b : ℕ) :
    ∃ os', Shaped e os' (getCacheBlock e sb b d).2 := by
  have hreq := h.request hm sb b
  generalize getCacheBlock e sb b d = r at hreq ⊢
  obtain ⟨r, d'⟩ := r
  change Request e sb b os d r d' at hreq
  cases hreq with
  | hit _ _ shape _ => exact ⟨_, shape⟩
  | miss _ _ _ shape _ => exact ⟨_, shape⟩
  | fail _ _ _ shape => exact ⟨_, shape⟩

/-- **`cache_init` gives the cache its shape.** -/
theorem shaped_cacheInit (hm : Mounted e.sbi) (d : Dev) :
    Shaped e (List.range (numEntries e.sbi.sBlockShift)) (cacheInit e.sbi.sBlockShift d) := by
  have hpos : 0 < numEntries e.sbi.sBlockShift := by have := hm.two_le_entries; omega
  have h := initInv_cacheInit hpos d
  refine ⟨h.ringOk hpos, h.entries, fun i hi => ?_, fun i hi j _ _ hne => ?_⟩
  · rw [h.data i hi, Nat.shiftLeft_eq, Nat.one_mul, hm.size]
  · exact absurd (h.label i (List.mem_range.mp hi)) hne

end Thunix.Fs
