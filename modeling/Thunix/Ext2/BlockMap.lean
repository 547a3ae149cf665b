import Thunix.Lib.BlockTree
import Thunix.Lib.Logged

/-!
# The block map

`_bmap` of `fs/ext2/inode.c`, which gives the block of a file at an index and, for
`create_block`, makes it: twelve blocks are named in the inode, 256 in a block that it names, and
256 times 256 in blocks named in another. `bread` gives a pointer into the RAM disk, so that what
is stored in a block stays there, and an index of 256 or more leads into the next block.

For a block behind both the entry is read at `block & 255` and stored at `block & 511`.
The two are the same where bit 8 of the number is clear, and where it is set what is created is lost
and the next block is written to: `Thunix.Ext2.mapsRight_iff`. The rest of the map is a tree of
blocks as in `Thunix.BlockTree`.
-/

namespace Thunix.Ext2

open BlockTree Logged

/-! ### The source -/

/-- `EXT2_N_BLOCKS`. -/
abbrev EXT2_N_BLOCKS : ℕ := 15

/-- `CURRENT_TIME`. -/
def CURRENT_TIME : ℕ := 0

/-- The inode, the RAM disk in words, 256 to a block, and the blocks that are in use. -/
structure Files where
  iBlock : Fin EXT2_N_BLOCKS → ℕ
  iCtime : ℕ
  iDirt : Bool
  ram : ℕ → ℕ
  used : List ℕ

/-- An allocator gives out fresh blocks that hold zeros, and leaves the ones in use alone. -/
structure Allocator where
  /-- The block, and the words after it has been taken. -/
  alloc : Files → ℕ → ℕ × (ℕ → ℕ)
  ne_zero : ∀ s goal, (alloc s goal).1 ≠ 0
  fresh : ∀ s goal, (alloc s goal).1 ∉ s.used
  zeroed : ∀ s goal, ∀ i < 256, (alloc s goal).2 (256 * (alloc s goal).1 + i) = 0
  kept : ∀ s goal, ∀ b ∈ s.used, ∀ i < 256,
    (alloc s goal).2 (256 * b + i) = s.ram (256 * b + i)

/-- Programs on them. What is logged is the index of each entry of a block that is read or
written. -/
abbrev MapM (α : Type) := Prog Files ℕ α

/-- `inode->inode.i_block[k]`. -/
def iBlockAt (k : Fin EXT2_N_BLOCKS) : MapM ℕ := quiet fun s => (s.iBlock k, s)

/-- `inode->inode.i_block[k] = block`. -/
def setIBlock (k : Fin EXT2_N_BLOCKS) (block : ℕ) : MapM Unit :=
  quiet fun s => ((), { s with iBlock := Function.update s.iBlock k block })

/-- `inode->i_ctime=CURRENT_TIME; inode->i_dirt=1;`. -/
def changed : MapM Unit := quiet fun s => ((), { s with iCtime := CURRENT_TIME, iDirt := true })

/-- `((unsigned int *) block_buffer)[i]`, where the buffer is that of a block. -/
def entryAt (block i : ℕ) : MapM ℕ := visit i fun s => (s.ram (256 * block + i), s)

/-- `((unsigned int *) block_buffer)[i]=v`. -/
def setEntry (block i v : ℕ) : MapM Unit :=
  visit i fun s => ((), { s with ram := Function.update s.ram (256 * block + i) v })

variable (A : Allocator)

/-- `ext2_alloc_block`. -/
def allocBlock (goal : ℕ) : MapM ℕ := quiet fun s =>
  ((A.alloc s goal).1,
    { s with ram := (A.alloc s goal).2, used := (A.alloc s goal).1 :: s.used })

/-- A block is made for `i_block[k]`, if there is none. -/
def makeBlock (create : Bool) (k : Fin EXT2_N_BLOCKS) (goal : MapM ℕ) : MapM Unit := do
  let old ← iBlockAt k
  if create ∧ old = 0 then do
    let goal ← goal
    let block ← allocBlock A goal
    setIBlock k block
    if block ≠ 0 then changed else pure ()
  else pure ()

/-- The entry `load` of a block, and if there is none a new one, which is stored as the
entry `store`. -/
def makeEntry (create : Bool) (block load store : ℕ) (goal : MapM ℕ) : MapM ℕ := do
  let i ← entryAt block load
  if create ∧ i = 0 then do
    let goal ← goal
    let i ← allocBlock A goal
    if i ≠ 0 then setEntry block store i else pure ()
    pure i
  else pure i

/-- What follows in `_bmap` when `block` has been reduced for the double indirect blocks. -/
def doubleIndirect (create : Bool) (block : ℕ) : MapM ℕ := do
  makeBlock A create 13 (iBlockAt 13)
  let table ← iBlockAt 13
  if table = 0 then pure 0
  else do
    let i ← makeEntry A create table (block >>> 8) (block >>> 8) (iBlockAt 13)
    if i = 0 then pure 0
    else makeEntry A create i (block &&& 255) (block &&& 511) (iBlockAt 13)

/-- What follows in `_bmap` when `block` has been reduced for the indirect blocks. -/
def indirect (create : Bool) (block : ℕ) : MapM ℕ := do
  makeBlock A create 12 (iBlockAt 12)
  let table ← iBlockAt 12
  if table = 0 then pure 0 else makeEntry A create table block block (iBlockAt 12)

/-- `_bmap`: nothing when it stops in `panic`. -/
def _bmap (block : ℤ) (create : Bool) : MapM (Option ℕ) :=
  if block < 0 then pure none
  else if 12 + 256 + 256 * 256 ≤ block then pure none
  else if block < 12 then do
    let k := Fin.ofNat EXT2_N_BLOCKS block.toNat
    makeBlock A create k (pure 34)
    let b ← iBlockAt k
    pure (some b)
  else if block - 12 < 256 then do
    let b ← indirect A create (block - 12).toNat
    pure (some b)
  else do
    let b ← doubleIndirect A create (block - 12 - 256).toNat
    pure (some b)

/-- `bmap`. -/
def bmap (block : ℤ) : MapM (Option ℕ) := _bmap A block false

/-- `create_block`. -/
def createBlock (block : ℤ) : MapM (Option ℕ) := _bmap A block true

/-- A sequence of calls of `create_block`, with their results. -/
def creates : List ℕ → MapM (List (Option ℕ))
  | [] => pure []
  | b :: bs => do
    let r ← createBlock A b
    let rs ← creates bs
    pure (r :: rs)

/-! ### What is asked of it -/

/-- What a call returns, and the state it leaves. -/
def result {α : Type} (x : MapM α) (s : Files) : α := (x (s, [])).1

/-- The state that a call leaves. -/
def final {α : Type} (x : MapM α) (s : Files) : Files := (x (s, [])).2.1

/-- After the calls `bs` the map gives for each what its call returned, different blocks for
different indices, and the same again; and no index of an entry has been 256 or more. -/
structure MapsRight (s : Files) (bs : List ℕ) : Prop where
  returned : result (creates A bs) s =
    bs.map fun b : ℕ => result (bmap A b) (final (creates A bs) s)
  some : ∀ b ∈ bs, ∃ r ≠ 0, result (bmap A b) (final (creates A bs) s) = some r
  distinct : ∀ b ∈ bs, ∀ b' ∈ bs, b ≠ b' →
    result (bmap A b) (final (creates A bs) s) ≠ result (bmap A b') (final (creates A bs) s)
  again : ∀ b ∈ bs, result (createBlock A b) (final (creates A bs) s) =
    result (bmap A b) (final (creates A bs) s)
  indices : ∀ i ∈ touched (creates A bs) s, i < 256
  lookups : ∀ b ∈ bs, (∀ i ∈ touched (bmap A b) (final (creates A bs) s), i < 256) ∧
    ∀ i ∈ touched (createBlock A b) (final (creates A bs) s), i < 256

/-- Bit 8 of the number of a double indirect block is clear. -/
def Even8 (b : ℕ) : Prop := 268 ≤ b → (b - 268) / 256 % 2 = 0

/-! ### The tree -/

/-- The cells of the map. -/
abbrev MapCell := Cell (Fin EXT2_N_BLOCKS) 256

/-- The inode and the RAM disk, as roots and words. -/
def Files.store (s : Files) : Store (Fin EXT2_N_BLOCKS) := ⟨s.iBlock, s.ram⟩

/-- From `s` to `s'` the cells of `cs` have been filled, if they were not. -/
structure Grown (s s' : Files) (cs : Set MapCell) : Prop where
  tidy : Tidy 256 s'.store s'.used
  grows : Grows s.store s'.store cs

theorem Grown.trans {s s' s'' : Files} {cs cs' : Set MapCell} (h : Grown s s' cs)
    (h' : Grown s' s'' cs') : Grown s s'' (cs ∪ cs') :=
  ⟨h'.tidy, h.grows.trans h'.grows⟩

variable {A} {s : Files} {goal : ℕ}

/-- The state after an allocation. -/
def taken (A : Allocator) (s : Files) (goal : ℕ) : Files :=
  { s with ram := (A.alloc s goal).2, used := (A.alloc s goal).1 :: s.used }

/-- What an allocation does to the words is not seen. -/
theorem val_taken (A : Allocator) (goal : ℕ) (hs : Tidy 256 s.store s.used) (c : MapCell) :
    (taken A s goal).store.val c = s.store.val c := by
  have hwords : ∀ b ∈ s.used, ∀ i : Fin 256,
      (taken A s goal).store.words (256 * b + i) = s.store.words (256 * b + i) :=
    fun b hb i => A.kept s goal b hb i i.2
  exact hs.val_congr (show (taken A s goal).store.roots = s.store.roots from rfl) hwords c

/-- **A block that is allocated and put into an empty cell.** -/
theorem grown_put (A : Allocator) (goal : ℕ) (s' : Files) (c₀ : MapCell)
    (hs : Tidy 256 s.store s.used) (h0 : s.store.val c₀ = 0) (hopen : s.store.Open c₀)
    (hstore : s'.store = (taken A s goal).store.put c₀ (A.alloc s goal).1)
    (hused : s'.used = (taken A s goal).used) :
    Grown s s' {c₀} ∧ s'.store.val c₀ = (A.alloc s goal).1 := by
  have hval : ∀ c : MapCell, (taken A s goal).store.val c = s.store.val c := val_taken A goal hs
  have hs' : Tidy 256 (taken A s goal).store s.used := hs.congr hval
  have hopen' : (taken A s goal).store.Open c₀ := by
    cases c₀ with
    | root k => trivial
    | entry p i => exact fun hp => hopen ((hval p).symm.trans hp)
  have hzero : ∀ i : Fin 256, (taken A s goal).store.words (256 * (A.alloc s goal).1 + i) = 0 :=
    fun i => A.zeroed s goal i i.2
  have hput := hs'.val_put (A.ne_zero s goal) (A.fresh s goal) hzero ((hval c₀).trans h0) hopen'
  rw [← hstore] at hput
  refine ⟨⟨?_, .of_eq h0 (A.ne_zero s goal) fun c => ?_⟩, (hput c₀).trans (if_pos rfl)⟩
  · rw [hstore, hused]
    exact hs'.put (A.ne_zero s goal) (A.fresh s goal) hzero ((hval c₀).trans h0) hopen'
  · rw [hput, hval]

/-- `create_block` uses only entries of the block that it has asked for. -/
abbrev Inside (i : ℕ) : Prop := i < 256

/-- **A block in the inode is there, or made.** -/
theorem makeBlock_grown (hs : Tidy 256 s.store s.used) (k : Fin EXT2_N_BLOCKS) {x : MapM ℕ}
    {g : ℕ} (hx : Runs Inside x s g s) :
    ∃ s', Runs Inside (makeBlock A true k x) s () s' ∧ Grown s s' {.root k} := by
  by_cases h0 : s.iBlock k = 0
  · refine ⟨_, ?_, (grown_put A g
      { taken A s g with
        iBlock := Function.update s.iBlock k (A.alloc s g).1
        iCtime := CURRENT_TIME
        iDirt := true } (.root k) hs h0 trivial rfl rfl).1⟩
    refine (Runs.quiet _).bind ?_
    dsimp only
    rw [if_pos ⟨rfl, h0⟩]
    refine hx.bind ((Runs.quiet _).bind ((Runs.quiet _).bind ?_))
    dsimp only
    rw [if_pos (A.ne_zero s g)]
    exact .quiet _
  · refine ⟨s, ?_, hs, .of_filled fun c hc => ?_⟩
    · refine (Runs.quiet _).bind ?_
      dsimp only
      rw [if_neg fun h => h0 h.2]
      exact .pure ()
    · rw [Set.mem_singleton_iff.mp hc]
      exact h0

/-- **An entry is there, or made**, if it is stored where it is looked for. -/
theorem makeEntry_grown (hs : Tidy 256 s.store s.used) {p : MapCell} {i : Fin 256}
    (hp : s.store.val p ≠ 0) {x : MapM ℕ} {g : ℕ} (hx : Runs Inside x s g s) :
    ∃ s', Runs Inside (makeEntry A true (s.store.val p) i i x) s (s'.store.val (.entry p i)) s' ∧
      Grown s s' {.entry p i} := by
  have hi : Inside i := i.2
  have hval : s.store.val (.entry p i) = s.ram (256 * s.store.val p + i) := val_entry hp
  by_cases h0 : s.ram (256 * s.store.val p + i) = 0
  · obtain ⟨hputs, hnew⟩ := grown_put A g
      { taken A s g with
        ram := Function.update (A.alloc s g).2 (256 * s.store.val p + i) (A.alloc s g).1 }
      (.entry p i) hs (hval.trans h0) hp (by rw [Store.put, val_taken A g hs]; rfl) rfl
    refine ⟨_, ?_, hputs⟩
    rw [hnew]
    refine (Runs.visit _ hi).bind ?_
    dsimp only
    rw [if_pos ⟨rfl, h0⟩]
    refine hx.bind ((Runs.quiet _).bind ?_)
    dsimp only
    rw [if_pos (A.ne_zero s g)]
    exact (Runs.visit _ hi).bind (.pure _)
  · refine ⟨s, ?_, hs, .of_filled fun c hc => ?_⟩
    · rw [hval]
      refine (Runs.visit _ hi).bind ?_
      dsimp only
      rw [if_neg fun h => h0 h.2]
      exact .pure _
    · rw [Set.mem_singleton_iff.mp hc, hval]
      exact h0

/-! ### The places of the map -/

/-- The cell for the block of a file at an index. -/
def cellOf (b : ℕ) : MapCell :=
  if b < 12 then .root (Fin.ofNat EXT2_N_BLOCKS b)
  else if b < 268 then .entry (.root 12) (Fin.ofNat 256 (b - 12))
  else .entry (.entry (.root 13) (Fin.ofNat 256 ((b - 268) / 256))) (Fin.ofNat 256 (b - 268))

variable {b : ℕ} {create : Bool}

theorem bmap_direct (A : Allocator) (h : b < 12) :
    _bmap A b create = (do
      makeBlock A create (Fin.ofNat EXT2_N_BLOCKS b) (pure 34)
      let b ← iBlockAt (Fin.ofNat EXT2_N_BLOCKS b)
      pure (some b)) := by
  rw [_bmap, if_neg (by omega), if_neg (by omega), if_pos (by omega)]
  rfl

theorem bmap_indirect (A : Allocator) (h : 12 ≤ b) (h' : b < 268) :
    _bmap A b create = (do
      let b ← indirect A create (b - 12)
      pure (some b)) := by
  rw [_bmap, if_neg (by omega), if_neg (by omega), if_neg (by omega), if_pos (by omega),
    show ((b : ℤ) - 12).toNat = b - 12 by omega]

theorem bmap_doubleIndirect (A : Allocator) (h : 268 ≤ b) (h' : b < 65804) :
    _bmap A b create = (do
      let b ← doubleIndirect A create (b - 268)
      pure (some b)) := by
  rw [_bmap, if_neg (by omega), if_neg (by omega), if_neg (by omega), if_neg (by omega),
    show ((b : ℤ) - 12 - 256).toNat = b - 268 by omega]

theorem ofNat_inj {n i j : ℕ} (hi : i < n + 1) (hj : j < n + 1)
    (h : Fin.ofNat (n + 1) i = Fin.ofNat (n + 1) j) : i = j := by
  have hval := congrArg Fin.val h
  rwa [Fin.val_ofNat, Fin.val_ofNat, Nat.mod_eq_of_lt hi, Nat.mod_eq_of_lt hj] at hval

/-- Different indices have different cells. -/
theorem cellOf_inj {b' : ℕ} (hb : b < 65804) (hb' : b' < 65804) (h : cellOf b = cellOf b') :
    b = b' := by
  rw [cellOf, cellOf] at h
  by_cases h12 : b < 12 <;> by_cases h12' : b' < 12
  · rw [if_pos h12, if_pos h12'] at h
    exact ofNat_inj (show b < 15 by omega) (show b' < 15 by omega) (Cell.root.inj h)
  · rw [if_pos h12, if_neg h12'] at h
    split at h <;> exact absurd h (root_ne_entry _ _ _)
  · rw [if_neg h12, if_pos h12'] at h
    split at h <;> exact absurd h.symm (root_ne_entry _ _ _)
  rw [if_neg h12, if_neg h12'] at h
  by_cases h268 : b < 268 <;> by_cases h268' : b' < 268
  · rw [if_pos h268, if_pos h268'] at h
    have hi := ofNat_inj (by omega) (by omega) (Cell.entry.inj h).2
    omega
  · rw [if_pos h268, if_neg h268'] at h
    exact absurd (Cell.entry.inj h).1 (root_ne_entry _ _ _)
  · rw [if_neg h268, if_pos h268'] at h
    exact absurd (Cell.entry.inj h).1.symm (root_ne_entry _ _ _)
  · rw [if_neg h268, if_neg h268'] at h
    obtain ⟨htable, hlow⟩ := Cell.entry.inj h
    have hhigh := ofNat_inj (by omega) (by omega) (Cell.entry.inj htable).2
    have hlow' := congrArg Fin.val hlow
    rw [Fin.val_ofNat, Fin.val_ofNat] at hlow'
    omega

/-! ### Looking up -/

theorem makeBlock_lookup (k : Fin EXT2_N_BLOCKS) (x : MapM ℕ) :
    Runs Inside (makeBlock A false k x) s () s := by
  refine (Runs.quiet _).bind ?_
  dsimp only
  rw [if_neg fun h => absurd h.1 Bool.false_ne_true]
  exact .pure ()

theorem makeEntry_lookup {block load : ℕ} (store : ℕ) (x : MapM ℕ) (hload : Inside load) :
    Runs Inside (makeEntry A false block load store x) s (s.ram (256 * block + load)) s := by
  refine (Runs.visit _ hload).bind ?_
  dsimp only
  rw [if_neg fun h => absurd h.1 Bool.false_ne_true]
  exact .pure _

theorem entry_ofNat (s : Files) {c : MapCell} {i : ℕ} (hc : s.store.val c ≠ 0) (hi : i < 256) :
    s.store.val (.entry c (Fin.ofNat 256 i)) = s.ram (256 * s.store.val c + i) := by
  rw [val_entry hc, Fin.val_ofNat, Nat.mod_eq_of_lt hi]
  rfl

/-- **`bmap` gives what is in the cell**, and changes nothing. -/
theorem bmap_runs (A : Allocator) (s : Files) (hb : b < 65804) :
    Runs Inside (bmap A b) s (some (s.store.val (cellOf b))) s := by
  rw [bmap, cellOf]
  by_cases h12 : b < 12
  · rw [bmap_direct A h12, if_pos h12]
    exact (makeBlock_lookup _ _).bind ((Runs.quiet _).bind (.pure _))
  by_cases h268 : b < 268
  · rw [bmap_indirect A (by omega) h268, if_neg h12, if_pos h268]
    refine Runs.bind ?_ (.pure _)
    refine (makeBlock_lookup _ _).bind ((Runs.quiet _).bind ?_)
    have hroot : s.store.val (.root 12 : MapCell) = s.iBlock 12 := rfl
    dsimp only
    by_cases h0 : s.iBlock 12 = 0
    · rw [if_pos h0, val_entry_of_zero (hroot.trans h0)]
      exact .pure _
    · rw [if_neg h0, entry_ofNat s (by rwa [hroot]) (by omega)]
      exact makeEntry_lookup _ _ (by omega)
  · rw [bmap_doubleIndirect A (by omega) hb, if_neg h12, if_neg h268]
    refine Runs.bind ?_ (.pure _)
    refine (makeBlock_lookup _ _).bind ((Runs.quiet _).bind ?_)
    have hroot : s.store.val (.root 13 : MapCell) = s.iBlock 13 := rfl
    dsimp only
    by_cases h0 : s.iBlock 13 = 0
    · rw [if_pos h0, val_entry_of_zero (val_entry_of_zero (hroot.trans h0))]
      exact .pure _
    · have htable := entry_ofNat s (c := .root 13) (i := (b - 268) / 256) (by rwa [hroot])
        (by omega)
      have hhigh : Inside ((b - 268) >>> 8) := by
        rw [Nat.shiftRight_eq_div_pow]
        omega
      rw [if_neg h0]
      refine (makeEntry_lookup _ _ hhigh).bind ?_
      rw [Nat.shiftRight_eq_div_pow, ← hroot]
      rw [show 2 ^ 8 = 256 from rfl, ← htable]
      by_cases h1 : s.store.val (.entry (.root 13 : MapCell) (Fin.ofNat 256 ((b - 268) / 256))) = 0
      · rw [if_pos h1, val_entry_of_zero h1]
        exact .pure _
      · have hlow : (b - 268) &&& 255 = (b - 268) % 256 :=
          Nat.and_two_pow_sub_one_eq_mod (b - 268) 8
        rw [if_neg h1, val_entry h1, hlow]
        exact makeEntry_lookup _ _ (Nat.mod_lt _ (by decide))

/-! ### Creating -/

/-- The goals that are read from the inode. -/
theorem iBlockAt_runs (k : Fin EXT2_N_BLOCKS) (s : Files) :
    Runs Inside (iBlockAt k) s (s.iBlock k) s := .quiet _

/-- An entry of the block that a cell holds, made at an index. -/
theorem makeEntry_ofNat (hs : Tidy 256 s.store s.used) {p : MapCell} {load i : ℕ}
    (hload : load = i % 256) (hp : s.store.val p ≠ 0) (k : Fin EXT2_N_BLOCKS) :
    ∃ s', Runs Inside (makeEntry A true (s.store.val p) load load (iBlockAt k)) s
        (s'.store.val (.entry p (Fin.ofNat 256 i))) s' ∧
      Grown s s' {.entry p (Fin.ofNat 256 i)} := by
  have h := makeEntry_grown (A := A) hs (i := Fin.ofNat 256 i) hp (iBlockAt_runs k s)
  rwa [Fin.val_ofNat, ← hload] at h

/-! ### The log only grows -/

theorem adds_allocBlock (A : Allocator) (goal : ℕ) : Adds (allocBlock A goal) := fun _ =>
  ⟨_, _, .quiet _⟩

theorem adds_iBlockAt (k : Fin EXT2_N_BLOCKS) : Adds (iBlockAt k) := fun _ => ⟨_, _, .quiet _⟩

theorem adds_makeBlock (A : Allocator) (create : Bool) (k : Fin EXT2_N_BLOCKS) {x : MapM ℕ}
    (hx : Adds x) : Adds (makeBlock A create k x) := by
  refine (adds_iBlockAt k).bind fun old => .ite (hx.bind fun goal => ?_) (.pure ())
  refine (adds_allocBlock A goal).bind fun block => .bind (fun _ => ⟨_, _, .quiet _⟩) fun _ => ?_
  exact .ite (fun _ => ⟨_, _, .quiet _⟩) (.pure ())

theorem adds_makeEntry (A : Allocator) (create : Bool) (block load store : ℕ) {x : MapM ℕ}
    (hx : Adds x) : Adds (makeEntry A create block load store x) := by
  refine (Adds.visit _ _).bind fun i => .ite (hx.bind fun goal => ?_) (.pure i)
  refine (adds_allocBlock A goal).bind fun i => .ite ?_ ?_
  · exact (Adds.visit _ _).bind fun _ => .pure i
  · exact (Adds.pure ()).bind fun _ => .pure i

theorem adds_doubleIndirect (A : Allocator) (create : Bool) (c : ℕ) :
    Adds (doubleIndirect A create c) := by
  refine (adds_makeBlock A create 13 (adds_iBlockAt 13)).bind fun _ =>
    (adds_iBlockAt 13).bind fun table => .ite (.pure 0) ?_
  refine (adds_makeEntry A create table _ _ (adds_iBlockAt 13)).bind fun i => .ite (.pure 0) ?_
  exact adds_makeEntry A create i _ _ (adds_iBlockAt 13)

theorem adds_createBlock (A : Allocator) (block : ℤ) : Adds (createBlock A block) := by
  refine .ite (.pure _) (.ite (.pure _) (.ite ?_ (.ite ?_ ?_)))
  · exact (adds_makeBlock A true _ (.pure 34)).bind fun _ =>
      (adds_iBlockAt _).bind fun b => .pure _
  · refine Adds.bind ?_ fun b => .pure _
    refine (adds_makeBlock A true 12 (adds_iBlockAt 12)).bind fun _ =>
      (adds_iBlockAt 12).bind fun table => .ite (.pure 0) ?_
    exact adds_makeEntry A true table _ _ (adds_iBlockAt 12)
  · exact (adds_doubleIndirect A true _).bind fun b => .pure _

theorem adds_creates (A : Allocator) (bs : List ℕ) : Adds (creates A bs) := by
  induction bs with
  | nil => exact .pure _
  | cons b bs ih => exact (adds_createBlock A b).bind fun r => ih.bind fun rs => .pure _

/-! ### Double indirect blocks -/

/-- The cell of the table for a double indirect block. -/
def tableOf (c : ℕ) : MapCell := .entry (.root 13) (Fin.ofNat 256 (c / 256))

/-- The table of a double indirect block is there, or made; and then its entry is. -/
theorem table_grown (A : Allocator) (hs : Tidy 256 s.store s.used) {c : ℕ} (hc : c < 65536) :
    ∃ s', Grown s s' (tableOf c).path ∧
      (∀ a s'', Runs Inside (makeEntry A true (s'.store.val (tableOf c)) (c &&& 255) (c &&& 511)
          (iBlockAt 13)) s' a s'' → Runs Inside (doubleIndirect A true c) s a s'') ∧
      ∀ e ∈ touched (makeEntry A true (s'.store.val (tableOf c)) (c &&& 255) (c &&& 511)
        (iBlockAt 13)) s', e ∈ touched (doubleIndirect A true c) s := by
  obtain ⟨s₁, hrun₁, hgrown₁⟩ := makeBlock_grown (A := A) hs 13 (iBlockAt_runs 13 s)
  have hroot : s₁.store.val (.root 13) ≠ 0 := hgrown₁.grows.filled _ (Set.mem_singleton _)
  have hhigh : c >>> 8 = c / 256 % 256 := by
    rw [Nat.shiftRight_eq_div_pow]
    omega
  obtain ⟨s₂, hrun₂, hgrown₂⟩ := makeEntry_ofNat (A := A) hgrown₁.tidy hhigh hroot 13
  have htable : s₂.store.val (tableOf c) ≠ 0 := hgrown₂.grows.filled _ (Set.mem_singleton _)
  refine ⟨s₂, hgrown₁.trans hgrown₂, fun a s'' hrun₃ => ?_, fun e he => ?_⟩
  · refine hrun₁.bind ((Runs.quiet _).bind ?_)
    dsimp only
    rw [if_neg (show s₁.iBlock 13 ≠ 0 from hroot)]
    refine hrun₂.bind ?_
    change Runs Inside (if s₂.store.val (tableOf c) = 0 then _ else _) s₂ a s''
    rw [if_neg htable]
    exact hrun₃
  · have hadds₂ : ∀ i, Adds (if i = 0 then pure 0
        else makeEntry A true i (c &&& 255) (c &&& 511) (iBlockAt 13)) :=
      fun i => .ite (.pure 0) (adds_makeEntry A true i _ _ (adds_iBlockAt 13))
    refine hrun₁.mem_touched_bind ((adds_iBlockAt 13).bind fun table => .ite (.pure 0)
      ((adds_makeEntry A true table _ _ (adds_iBlockAt 13)).bind hadds₂)) ?_
    rw [iBlockAt, touched_quiet_bind]
    dsimp only
    rw [if_neg (show s₁.iBlock 13 ≠ 0 from hroot)]
    refine hrun₂.mem_touched_bind (hadds₂ _) ?_
    change e ∈ touched (if s₂.store.val (tableOf c) = 0 then _ else _) s₂
    rw [if_neg htable]
    exact he

/-- **One call of `create_block`.** -/
theorem createBlock_grown (A : Allocator) (hs : Tidy 256 s.store s.used) (hb : b < 65804)
    (heven : Even8 b) :
    ∃ s', Runs Inside (createBlock A b) s (some (s'.store.val (cellOf b))) s' ∧
      Grown s s' (cellOf b).path := by
  rw [createBlock, cellOf]
  by_cases h12 : b < 12
  · rw [bmap_direct A h12, if_pos h12]
    obtain ⟨s', hrun, hgrown⟩ := makeBlock_grown (A := A) hs (Fin.ofNat EXT2_N_BLOCKS b)
      (Runs.pure 34)
    exact ⟨s', hrun.bind ((Runs.quiet _).bind (.pure _)), hgrown⟩
  by_cases h268 : b < 268
  · rw [bmap_indirect A (by omega) h268, if_neg h12, if_pos h268]
    obtain ⟨s₁, hrun₁, hgrown₁⟩ := makeBlock_grown (A := A) hs 12 (iBlockAt_runs 12 s)
    have hroot : s₁.store.val (.root 12) ≠ 0 := hgrown₁.grows.filled _ (Set.mem_singleton _)
    have hmod : b - 12 = (b - 12) % 256 := by omega
    obtain ⟨s₂, hrun₂, hgrown₂⟩ := makeEntry_ofNat (A := A) hgrown₁.tidy hmod hroot 12
    refine ⟨s₂, Runs.bind ?_ (.pure _), hgrown₁.trans hgrown₂⟩
    refine hrun₁.bind ((Runs.quiet _).bind ?_)
    dsimp only
    rw [if_neg (show s₁.iBlock 12 ≠ 0 from hroot)]
    exact hrun₂
  · rw [bmap_doubleIndirect A (by omega) hb, if_neg h12, if_neg h268]
    obtain ⟨s₁, hgrown₁, hrest, -⟩ := table_grown A hs (show b - 268 < 65536 by omega)
    have hload : (b - 268) &&& 255 = (b - 268) % 256 :=
      Nat.and_two_pow_sub_one_eq_mod (b - 268) 8
    have hstore : (b - 268) &&& 511 = (b - 268) &&& 255 := by
      have h511 : (b - 268) &&& 511 = (b - 268) % 512 :=
        Nat.and_two_pow_sub_one_eq_mod (b - 268) 9
      have h := heven (by omega)
      omega
    obtain ⟨s₂, hrun₂, hgrown₂⟩ := makeEntry_ofNat (A := A) hgrown₁.tidy hload
      (hgrown₁.grows.filled _ (Cell.mem_path _)) 13
    refine ⟨s₂, Runs.bind (hrest _ _ ?_) (.pure _), hgrown₁.trans hgrown₂⟩
    rw [hstore]
    exact hrun₂

/-! ### A run -/

/-- The cells on the way to the blocks of a sequence of calls. -/
def paths (bs : List ℕ) : Set MapCell := {c | ∃ b ∈ bs, c ∈ (cellOf b).path}

/-- **A sequence of calls of `create_block`.** -/
theorem creates_grown (A : Allocator) {bs : List ℕ} (hs : Tidy 256 s.store s.used)
    (hb : ∀ b ∈ bs, b < 65804) (heven : ∀ b ∈ bs, Even8 b) :
    ∃ s', Runs Inside (creates A bs) s (bs.map fun b => some (s'.store.val (cellOf b))) s' ∧
      Grown s s' (paths bs) := by
  induction bs generalizing s with
  | nil =>
    refine ⟨s, .pure _, hs, .of_filled ?_⟩
    rintro c ⟨b, hmem, -⟩
    exact absurd hmem List.not_mem_nil
  | cons b bs ih =>
    obtain ⟨s₁, hrun₁, hgrown₁⟩ :=
      createBlock_grown A hs (hb b List.mem_cons_self) (heven b List.mem_cons_self)
    obtain ⟨s₂, hrun₂, hgrown₂⟩ := ih hgrown₁.tidy
      (fun b hmem => hb b (List.mem_cons_of_mem _ hmem))
      (fun b hmem => heven b (List.mem_cons_of_mem _ hmem))
    have hpaths : paths (b :: bs) = (cellOf b).path ∪ paths bs := by
      ext c
      constructor
      · rintro ⟨b', hmem, hc⟩
        rcases List.mem_cons.mp hmem with rfl | hmem
        · exact .inl hc
        · exact .inr ⟨b', hmem, hc⟩
      · rintro (hc | ⟨b', hmem, hc⟩)
        · exact ⟨b, List.mem_cons_self, hc⟩
        · exact ⟨b', List.mem_cons_of_mem _ hmem, hc⟩
    have hkept : s₂.store.val (cellOf b) = s₁.store.val (cellOf b) :=
      hgrown₂.grows.kept _ (hgrown₁.grows.filled _ (Cell.mem_path _))
    refine ⟨s₂, ?_, hpaths ▸ hgrown₁.trans hgrown₂⟩
    rw [List.map_cons, hkept]
    exact hrun₁.bind (hrun₂.bind (.pure _))

theorem Runs.result_eq {α : Type} {W : ℕ → Prop} {x : MapM α} {s s' : Files} {a : α}
    (h : Runs W x s a s') : result x s = a ∧ final x s = s' := by
  have hx := h.apply []
  exact ⟨congrArg Prod.fst hx, congrArg (fun r => r.2.1) hx⟩

/-- **Where bit 8 is clear the map is right.** -/
theorem mapsRight_of_even {bs : List ℕ} (hs : ∀ k, s.iBlock k = 0) (hb : ∀ b ∈ bs, b < 65804)
    (heven : ∀ b ∈ bs, Even8 b) : MapsRight A s bs := by
  have htidy : Tidy 256 s.store s.used := .of_roots hs s.used
  obtain ⟨s', hrun, hgrown⟩ := creates_grown A htidy hb heven
  obtain ⟨hres, hfin⟩ := Runs.result_eq hrun
  have hbmap : ∀ b ∈ bs, result (bmap A b) s' = some (s'.store.val (cellOf b)) :=
    fun b hmem => (Runs.result_eq (bmap_runs A s' (hb b hmem))).1
  have hfilled : ∀ b ∈ bs, s'.store.val (cellOf b) ≠ 0 :=
    fun b hmem => hgrown.grows.filled _ ⟨b, hmem, Cell.mem_path _⟩
  have hagain : ∀ b ∈ bs, ∃ s'', Runs Inside (createBlock A b) s'
      (some (s'.store.val (cellOf b))) s'' := by
    intro b hmem
    obtain ⟨s'', hrun'', hgrown''⟩ :=
      createBlock_grown A hgrown.tidy (hb b hmem) (heven b hmem)
    rw [hgrown''.grows.kept _ (hfilled b hmem)] at hrun''
    exact ⟨s'', hrun''⟩
  constructor
  · rw [hres, hfin]
    exact List.map_congr_left fun b hmem => (hbmap b hmem).symm
  · intro b hmem
    rw [hfin, hbmap b hmem]
    exact ⟨_, hfilled b hmem, rfl⟩
  · intro b hmem b' hmem' hne heq
    rw [hfin, hbmap b hmem, hbmap b' hmem'] at heq
    have hcell := hgrown.tidy.distinct _ _ (hfilled b hmem) (Option.some.inj heq)
    exact hne (cellOf_inj (hb b hmem) (hb b' hmem') hcell)
  · intro b hmem
    obtain ⟨s'', hrun''⟩ := hagain b hmem
    rw [hfin, hbmap b hmem, (Runs.result_eq hrun'').1]
  · exact hrun.touched
  · intro b hmem
    obtain ⟨s'', hrun''⟩ := hagain b hmem
    rw [hfin]
    exact ⟨(bmap_runs A s' (hb b hmem)).touched, hrun''.touched⟩

/-! ### Where bit 8 is set -/

/-- A new entry is stored where the program says. -/
theorem mem_touched_makeEntry (A : Allocator) {block load : ℕ} (store : ℕ)
    (k : Fin EXT2_N_BLOCKS) (h0 : s.ram (256 * block + load) = 0) :
    store ∈ touched (makeEntry A true block load store (iBlockAt k)) s := by
  have hload : Runs (fun _ => True) (entryAt block load) s (s.ram (256 * block + load)) s :=
    .visit _ trivial
  have hadds : Adds (setEntry block store (A.alloc s (s.iBlock k)).1 >>= fun _ =>
      pure (A.alloc s (s.iBlock k)).1) := (Adds.visit _ _).bind fun _ => .pure _
  refine hload.mem_touched_bind (.ite ?_ (.pure _)) ?_
  · refine (adds_iBlockAt k).bind fun goal => (adds_allocBlock A goal).bind fun i => ?_
    exact .ite ((Adds.visit _ _).bind fun _ => .pure i) ((Adds.pure ()).bind fun _ => .pure i)
  · rw [if_pos ⟨rfl, h0⟩, iBlockAt, touched_quiet_bind, allocBlock, touched_quiet_bind]
    dsimp only
    rw [if_pos (A.ne_zero s _)]
    exact (Adds.visit _ _).mem_touched_bind (fun _ => .pure _) List.mem_cons_self

/-- The tables with an odd number are not there. -/
def OddEmpty (s : Files) : Prop :=
  ∀ j : Fin 256, j.val % 2 = 1 → s.store.val (.entry (.root 13) j) = 0

/-- A call for a block whose bit 8 is clear leads through no such table. -/
theorem even_of_mem_path {j : Fin 256} (heven : Even8 b)
    (h : .entry (.root 13) j ∈ (cellOf b).path) : j.val % 2 = 0 := by
  rw [cellOf] at h
  split at h
  · exact absurd (Set.mem_singleton_iff.mp h).symm (root_ne_entry _ _ _)
  split at h
  · rcases h with h | h
    · exact absurd (Set.mem_singleton_iff.mp h).symm (root_ne_entry _ _ _)
    · have hroot := Cell.root.inj (Cell.entry.inj (Set.mem_singleton_iff.mp h)).1
      exact absurd hroot (by decide)
  · rcases h with (h | h) | h
    · exact absurd (Set.mem_singleton_iff.mp h).symm (root_ne_entry _ _ _)
    · rw [(Cell.entry.inj (Set.mem_singleton_iff.mp h)).2, Fin.val_ofNat]
      have hc := heven (by omega)
      omega
    · exact absurd (Cell.entry.inj (Set.mem_singleton_iff.mp h)).1 (root_ne_entry _ _ _)

/-- **A call for a block whose bit 8 is set** stores behind the end of a table. -/
theorem createBlock_odd (A : Allocator) (hs : Tidy 256 s.store s.used) (hodd : OddEmpty s)
    (hb : b < 65804) (hb8 : ¬ Even8 b) : ∃ i ∈ touched (createBlock A b) s, 256 ≤ i := by
  have h268 : 268 ≤ b := Nat.le_of_not_lt fun hlt => hb8 fun hle => absurd hle (by omega)
  have hbit : (b - 268) / 256 % 2 = 1 := by
    by_contra h
    exact hb8 fun _ => by omega
  have hempty : s.store.val (tableOf (b - 268)) = 0 := by
    refine hodd _ ?_
    rw [Fin.val_ofNat]
    omega
  obtain ⟨s', hgrown, -, htouched⟩ := table_grown A hs (show b - 268 < 65536 by omega)
  have htable : s'.store.val (tableOf (b - 268)) ≠ 0 := hgrown.grows.filled _ (Cell.mem_path _)
  -- the table is new, and its entries are not on the way to it
  have hnew : s'.store.val (.entry (tableOf (b - 268)) (Fin.ofNat 256 (b - 268))) = 0 := by
    rw [hgrown.grows.others _ ?_]
    · exact val_entry_of_zero hempty
    · rintro (h | h)
      · exact absurd (Set.mem_singleton_iff.mp h).symm (root_ne_entry _ _ _)
      · exact absurd (Cell.entry.inj (Set.mem_singleton_iff.mp h)).1.symm (root_ne_entry _ _ _)
  rw [val_entry htable, Fin.val_ofNat] at hnew
  have hload : (b - 268) &&& 255 = (b - 268) % 256 :=
    Nat.and_two_pow_sub_one_eq_mod (b - 268) 8
  have hstore : (b - 268) &&& 511 = (b - 268) % 512 :=
    Nat.and_two_pow_sub_one_eq_mod (b - 268) 9
  have hmem := mem_touched_makeEntry A ((b - 268) &&& 511) 13 (hload ▸ hnew)
  refine ⟨(b - 268) &&& 511, ?_, by omega⟩
  rw [createBlock, bmap_doubleIndirect A h268 hb]
  exact (adds_doubleIndirect A true _).mem_touched_bind (fun b => .pure _) (htouched _ hmem)

/-- **Where bit 8 is set once, an index is out of range.** -/
theorem creates_odd (A : Allocator) {bs : List ℕ} (hs : Tidy 256 s.store s.used)
    (hodd : OddEmpty s) (hb : ∀ b ∈ bs, b < 65804) (hb8 : ∃ b ∈ bs, ¬ Even8 b) :
    ∃ i ∈ touched (creates A bs) s, 256 ≤ i := by
  induction bs generalizing s with
  | nil =>
    obtain ⟨b, hmem, -⟩ := hb8
    exact absurd hmem List.not_mem_nil
  | cons b bs ih =>
    have hb0 := hb b List.mem_cons_self
    have hadds : ∀ r, Adds (creates A bs >>= fun rs => pure (r :: rs)) :=
      fun r => (adds_creates A bs).bind fun rs => .pure _
    by_cases h8 : Even8 b
    · -- the call is right, and leaves things as they have to be
      obtain ⟨s₁, hrun, hgrown⟩ := createBlock_grown A hs hb0 h8
      have hodd₁ : OddEmpty s₁ := by
        intro j hj
        rw [hgrown.grows.others _ fun hmem => ?_, hodd j hj]
        have heven := even_of_mem_path h8 hmem
        omega
      have hrest : ∃ b ∈ bs, ¬ Even8 b := by
        obtain ⟨b', hmem, hb'⟩ := hb8
        rcases List.mem_cons.mp hmem with rfl | hmem
        · exact absurd h8 hb'
        · exact ⟨b', hmem, hb'⟩
      obtain ⟨i, hi, hlarge⟩ := ih hgrown.tidy hodd₁
        (fun b hmem => hb b (List.mem_cons_of_mem _ hmem)) hrest
      refine ⟨i, hrun.mem_touched_bind (hadds _) ?_, hlarge⟩
      exact (adds_creates A bs).mem_touched_bind (fun rs => .pure _) hi
    · obtain ⟨i, hi, hlarge⟩ := createBlock_odd A hs hodd hb0 h8
      exact ⟨i, (adds_createBlock A b).mem_touched_bind hadds hi, hlarge⟩

/-! ### All of it -/

/-- **The map is right exactly if no double indirect block has been made whose bit 8 is set.** -/
theorem mapsRight_iff (A : Allocator) {bs : List ℕ} (hs : ∀ k, s.iBlock k = 0)
    (hb : ∀ b ∈ bs, b < 12 + 256 + 256 * 256) : MapsRight A s bs ↔ ∀ b ∈ bs, Even8 b := by
  refine ⟨fun h b hmem => ?_, mapsRight_of_even hs hb⟩
  by_contra h8
  have hempty : OddEmpty s := fun j _ => val_of_roots hs _
  obtain ⟨i, hi, hlarge⟩ := creates_odd A (.of_roots hs s.used) hempty hb ⟨b, hmem, h8⟩
  exact absurd (h.indices i hi) (Nat.not_lt.mpr hlarge)

/-- The allocator that takes the number behind all that are in use. -/
def nextBlock : Allocator where
  alloc s _ := (s.used.max?.getD 0 + 1,
    fun x => if x / 256 = s.used.max?.getD 0 + 1 then 0 else s.ram x)
  ne_zero s _ := Nat.succ_ne_zero _
  fresh s _ h := absurd (List.le_max?_getD_of_mem h) (Nat.not_le.mpr (Nat.lt_succ_self _))
  zeroed s _ i hi := if_pos (by omega)
  kept s _ b hb i hi := by
    have hle : b ≤ s.used.max?.getD 0 := List.le_max?_getD_of_mem hb
    exact if_neg (by omega)

/-- An inode with nothing mapped, on an empty disk. -/
def noBlocks : Files := ⟨fun _ => 0, 0, false, fun _ => 0, []⟩

/-- Blocks 0, 12 and 268, and 0 again. -/
theorem mapsRight_268 : MapsRight nextBlock noBlocks [0, 12, 268, 0] := by
  refine (mapsRight_iff nextBlock (fun _ => rfl) (by decide)).mpr ?_
  simp [Even8]

/-- **Block 524 is lost.** -/
theorem not_mapsRight_524 : ¬ MapsRight nextBlock noBlocks [524] := by
  intro h
  have hs : ∀ k, noBlocks.store.roots k = 0 := fun _ => rfl
  have hb : ∀ b ∈ [524], b < 65804 := by decide
  obtain ⟨i, hi, hlarge⟩ := creates_odd nextBlock (.of_roots hs []) (fun j _ => val_of_roots hs _)
    hb ⟨524, List.mem_cons_self, by simp [Even8]⟩
  exact absurd (h.indices i hi) (Nat.not_lt.mpr hlarge)

end Thunix.Ext2
