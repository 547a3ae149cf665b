import Thunix.Fs.ImageDir
import Thunix.Fs.LongNames
import Thunix.Lib.Logged

/-!
# Full directories

`tfs_find_entry` and `tfs_add_entry` go from block to block by an index into `i_data`, and
what stops them is the word they read there. Written out with the indices
(`Thunix.Fs.tfsFindEntryAt`, `Thunix.Fs.tfsAddEntryAt`), they read the word behind the array
exactly if every block has been gone through and none of its words was a stop
(`Thunix.Fs.walkAt_inBounds_iff`): the lookup of a name that is not there, and any
insertion, in a directory whose eight blocks are full (`Thunix.Fs.full_dirs_iff`).
-/

namespace Thunix.Fs

open Logged

variable {e : Env} {S : Set ℕ} {v : ℕ → Buf} {inode dir : Inode} {name : List UInt8} {d : Dev}

/-! ### The walks, with the indices -/

section Walk

variable (e : Env) (look : (ℕ → UInt8) → ℕ → Option ℕ) (stop : ℕ → Prop) [DecidablePred stop]

/-- A walk over the words of `i_data`: `look` is what it looks for in a block, `stop` its test
of the next word. -/
def walk : List ℕ → ℕ → DevM Place
  | [], index => pure (.full index)
  | block :: rest, index => do
    match ← getCacheBlock e e.sbi block with
    | none => pure .fail
    | some cs => do
      let data ← dataPtr cs
      match ← readMem fun m => look m data with
      | some de => pure (.slot block cs de)
      | none => if stop (rest.headD 0) then pure (.full (index + 1)) else walk rest (index + 1)

/-- The walk, with the indices at which it reads `i_data`. -/
def walkAt : List ℕ → ℕ → Prog Dev ℕ Place
  | [], index => pure (.full index)
  | block :: rest, index => do
    match ← quiet (getCacheBlock e e.sbi block) with
    | none => pure .fail
    | some cs => do
      let data ← quiet (dataPtr cs)
      match ← quiet (readMem fun m => look m data) with
      | some de => pure (.slot block cs de)
      | none => do
        let word ← visit index fun d => (rest.headD 0, d)
        if stop word then pure (.full (index + 1)) else walkAt rest (index + 1)

end Walk

/-- What a search makes of the end of its walk. -/
def Place.lookup : Place → Lookup
  | .fail => .err (- EIO)
  | .slot _ cs de => .found cs de
  | .full _ => .null

/-- `tfs_find_entry`, with the indices at which it reads `i_data`. -/
def tfsFindEntryAt (e : Env) (inode : Inode) (dname : List UInt8) : Prog Dev ℕ Lookup := do
  let block ← visit 0 fun d => (inode.iData.getD 0 0, d)
  if block = 0 then pure .null
  else do
    let words ← quiet (dataWords e inode)
    let place ← walkAt e (fun m a => findInBlock dname m (entriesPerBlock e) a)
      (· < e.sbi.sDataArea) words 1
    pure place.lookup

/-- The walk of `tfs_add_entry`, with the indices. -/
def findPlaceAt (e : Env) (dir : Inode) : Prog Dev ℕ Place := do
  let block ← visit 0 fun d => (dir.iData.getD 0 0, d)
  if block = 0 then pure (.full 1)
  else do
    let words ← quiet (dataWords e dir)
    let place ← walkAt e (fun m a => freeInBlock m (entriesPerBlock e) a) (· = 0) words 1
    pure place

/-- What `tfs_add_entry` does from the place its walk has found. -/
def addEntryFrom (e : Env) (dir : Inode) (name : List UInt8) (inr : ℤ) (dirty : Bool) :
    Place → DevM (ℤ × Inode × Bool)
  | .fail => pure (- EIO, dir, dirty)
  | .slot block cs de => putEntry e dir name inr block cs de
  | .full index => do
    let dirty := if dir.iData.getD 0 0 = 0 then dirty else false
    let block := toU32 (← tfsAllocBlock e e.sbi.sDataArea)
    if index > TFS_N_BLOCKS then pure (-EFBIG, dir, dirty)
    else
      let dir := dir.setData (index - 1) block
      match ← getCacheBlock e e.sbi block with
      | none => pure (- EIO, dir, dirty)
      | some cs => putFirstEntry e dir name inr block cs

/-- The same, with the index at which it writes `i_data`. -/
def addEntryFromAt (e : Env) (dir : Inode) (name : List UInt8) (inr : ℤ) (dirty : Bool) :
    Place → Prog Dev ℕ (ℤ × Inode × Bool)
  | .fail => pure (- EIO, dir, dirty)
  | .slot block cs de => quiet (putEntry e dir name inr block cs de)
  | .full index => do
    let dirty := if dir.iData.getD 0 0 = 0 then dirty else false
    let block := toU32 (← quiet (tfsAllocBlock e e.sbi.sDataArea))
    if index > TFS_N_BLOCKS then pure (-EFBIG, dir, dirty)
    else do
      let dir ← visit (index - 1) fun d => (dir.setData (index - 1) block, d)
      match ← quiet (getCacheBlock e e.sbi block) with
      | none => pure (- EIO, dir, dirty)
      | some cs => quiet (putFirstEntry e dir name inr block cs)

/-- `tfs_add_entry`, with the indices at which it reads or writes `i_data`. -/
def tfsAddEntryAt (e : Env) (dir : Inode) (name : List UInt8) (inr : ℤ) (dirty : Bool) :
    Prog Dev ℕ (ℤ × Inode × Bool) :=
  if name.length > TFS_NAME_LEN then pure (-ENAMETOOLONG, dir, dirty)
  else do addEntryFromAt e dir name inr dirty (← findPlaceAt e dir)

/-! ### The indices are beside what is computed -/

section Walk

variable (look : (ℕ → UInt8) → ℕ → Option ℕ) (stop : ℕ → Prop) [DecidablePred stop]

/-- **The walk with indices computes what the walk does**, and its indices go up. -/
theorem walkAt_runs (ws : List ℕ) (index : ℕ) (d : Dev) :
    Runs (index ≤ ·) (walkAt e look stop ws index) d (walk e look stop ws index d).1
      (walk e look stop ws index d).2 := by
  induction ws generalizing index d with
  | nil => exact .pure _
  | cons block rest ih =>
    rw [walkAt, walk, DevM.bind_apply]
    refine (Runs.quiet _).bind ?_
    generalize getCacheBlock e e.sbi block d = q
    obtain ⟨_ | cs, d'⟩ := q
    · exact .pure _
    · dsimp only
      rw [DevM.bind_apply, DevM.bind_apply]
      refine (Runs.quiet _).bind ((Runs.quiet _).bind ?_)
      generalize readMem (fun m => look m (dataPtr cs d').1) (dataPtr cs d').2 = q
      obtain ⟨_ | de, d''⟩ := q
      · refine (Runs.visit _ (le_refl index)).bind ?_
        dsimp only
        by_cases hstop : stop (rest.headD 0)
        · rw [if_pos hstop, if_pos hstop]
          exact .pure _
        · rw [if_neg hstop, if_neg hstop]
          exact (ih (index + 1) d'').mono fun i hi => by omega
      · exact .pure _

theorem touched_walkAt_none {block index : ℕ} {ws : List ℕ}
    (hget : (getCacheBlock e e.sbi block d).1 = none) :
    touched (walkAt e look stop (block :: ws) index) d = [] := by
  rw [walkAt, touched_quiet_bind, hget]
  rfl

theorem touched_walkAt_some {block index : ℕ} {ws : List ℕ} {cs : CacheRef} {d' : Dev}
    (hget : getCacheBlock e e.sbi block d = (some cs, d')) :
    touched (walkAt e look stop (block :: ws) index) d =
      if look d'.cacheData (d'.cache cs).data = none then
        index :: if stop (ws.headD 0) then [] else touched (walkAt e look stop ws (index + 1)) d'
      else [] := by
  rw [walkAt, touched_quiet_bind, hget]
  dsimp only
  rw [touched_quiet_bind, touched_quiet_bind]
  change touched (_ : Prog Dev ℕ Place) d' = _
  generalize hq : (readMem (fun m => look m (dataPtr cs d').1) (dataPtr cs d').2).1 = q
  have hlook : look d'.cacheData (d'.cache cs).data = q := hq
  rw [hlook]
  cases q with
  | some de => rfl
  | none =>
    have hrest : ∃ p s', Runs (index ≤ ·) (if stop (ws.headD 0) then pure (.full (index + 1))
        else walkAt e look stop ws (index + 1)) d' p s' := by
      by_cases hstop : stop (ws.headD 0)
      · rw [if_pos hstop]
        exact ⟨_, _, .pure _⟩
      · rw [if_neg hstop]
        exact ⟨_, _, (walkAt_runs look stop ws (index + 1) d').mono fun i hi => by omega⟩
    obtain ⟨p, s', hrest⟩ := hrest
    refine (hrest.touched_visit_bind (e := index) (f := fun d => (ws.headD 0, d))
      (s := d')).trans ?_
    rw [if_pos rfl]
    by_cases hstop : stop (ws.headD 0)
    · rw [if_pos hstop, if_pos hstop]
      rfl
    · rw [if_neg hstop, if_neg hstop]

/-- Every block is requested and gone through, and no word behind the first is a stop. -/
def Passes (e : Env) (look : (ℕ → UInt8) → ℕ → Option ℕ) (stop : ℕ → Prop) : List ℕ → Dev → Prop
  | [], _ => True
  | block :: rest, d => ∃ cs, (getCacheBlock e e.sbi block d).1 = some cs ∧
      look (getCacheBlock e e.sbi block d).2.cacheData
        ((getCacheBlock e e.sbi block d).2.cache cs).data = none ∧
      (rest = [] ∨ ¬stop (rest.headD 0) ∧ Passes e look stop rest (getCacheBlock e e.sbi block d).2)

/-- **The walk stays inside of the array** exactly if something stops it before the end, for
all blocks and in every environment. -/
theorem walkAt_inBounds_iff {ws behind : List ℕ} {index : ℕ} (hne : ws ≠ [])
    (hlen : index + ws.length = TFS_N_BLOCKS + 1) (d : Dev) :
    (∀ i ∈ touched (walkAt e look stop (ws ++ behind) index) d, i < TFS_N_BLOCKS) ↔
      ¬Passes e look stop ws d := by
  induction ws generalizing index d with
  | nil => exact absurd rfl hne
  | cons block ws ih =>
    rw [List.cons_append, Passes]
    rcases hget : getCacheBlock e e.sbi block d with ⟨_ | cs, d'⟩
    · rw [touched_walkAt_none look stop (congrArg Prod.fst hget)]
      exact iff_of_true (fun _ h => absurd h List.not_mem_nil) fun ⟨_, h, _⟩ => by cases h
    · rw [touched_walkAt_some look stop hget]
      rw [exists_some_iff]
      dsimp only
      by_cases hlook : look d'.cacheData (d'.cache cs).data = none
      · rw [if_pos hlook, and_iff_right hlook, List.forall_mem_cons]
        rcases eq_or_ne ws [] with rfl | hws
        · -- the index of the last word and the one behind it
          have hindex : index = TFS_N_BLOCKS := by
            rw [List.length_singleton] at hlen
            omega
          exact iff_of_false (fun h => absurd h.1 (by omega)) (not_not.mpr (.inl rfl))
        · have hpos := List.length_pos_of_ne_nil hws
          rw [List.length_cons] at hlen
          have hhead : (ws ++ behind).headD 0 = ws.headD 0 := by
            cases ws with
            | nil => exact absurd rfl hws
            | cons => rfl
          rw [hhead, or_iff_right hws, and_iff_right (show index < TFS_N_BLOCKS by omega)]
          by_cases hstop : stop (ws.headD 0)
          · rw [if_pos hstop]
            exact iff_of_true (fun _ h => absurd h List.not_mem_nil) fun h => h.1 hstop
          · rw [if_neg hstop, and_iff_right hstop]
            exact ih hws (by omega) d'
      · rw [if_neg hlook]
        exact iff_of_true (fun _ h => absurd h List.not_mem_nil) fun h => hlook h.1

end Walk

/-! ### The two operations -/

theorem addEntryLoop_eq_walk (ws : List ℕ) (index : ℕ) :
    addEntryLoop e ws index =
      walk e (fun m a => freeInBlock m (entriesPerBlock e) a) (· = 0) ws index := by
  induction ws generalizing index with
  | nil => rfl
  | cons block rest ih =>
    rw [addEntryLoop, walk]
    refine congrArg (getCacheBlock e e.sbi block >>= ·) (funext fun res => ?_)
    cases res with
    | none => rfl
    | some cs =>
      refine congrArg (dataPtr cs >>= ·) (funext fun data => ?_)
      refine congrArg (readMem _ >>= ·) (funext fun found => ?_)
      cases found with
      | some de => rfl
      | none => exact congrArg (fun next => if rest.headD 0 = 0 then _ else next) (ih (index + 1))

theorem findEntryLoop_eq_walk (ws : List ℕ) (index : ℕ) (d : Dev) :
    findEntryLoop e name ws d = (do
      let place ← walk e (fun m a => findInBlock name m (entriesPerBlock e) a)
        (· < e.sbi.sDataArea) ws index
      pure place.lookup : DevM Lookup) d := by
  induction ws generalizing index d with
  | nil => rfl
  | cons block rest ih =>
    rw [findEntryLoop, walk, DevM.bind_apply, DevM.bind_apply, DevM.bind_apply]
    generalize getCacheBlock e e.sbi block d = q
    obtain ⟨_ | cs, d'⟩ := q
    · rfl
    · dsimp only
      rw [DevM.bind_apply, DevM.bind_apply, DevM.bind_apply, DevM.bind_apply]
      generalize readMem (fun m => findInBlock name m (entriesPerBlock e) (dataPtr cs d').1)
        (dataPtr cs d').2 = q
      obtain ⟨_ | de, d''⟩ := q
      · dsimp only
        by_cases hstop : rest.headD 0 < e.sbi.sDataArea
        · rw [if_pos hstop, if_pos hstop]
          rfl
        · rw [if_neg hstop, if_neg hstop]
          exact ih (index + 1) d''
      · rfl

/-- **`tfs_find_entry` with its indices** computes what it does. -/
theorem tfsFindEntryAt_runs (d : Dev) :
    Runs (fun _ => True) (tfsFindEntryAt e inode name) d (tfsFindEntry e inode name d).1
      (tfsFindEntry e inode name d).2 := by
  refine (Runs.visit _ trivial).bind ?_
  rw [tfsFindEntry]
  dsimp only
  by_cases hzero : inode.iData.getD 0 0 = 0
  · rw [if_pos hzero, if_pos hzero]
    exact .pure _
  · rw [if_neg hzero, if_neg hzero, DevM.bind_apply, findEntryLoop_eq_walk _ 1]
    refine (Runs.quiet _).bind ?_
    exact ((walkAt_runs _ _ _ 1 _).mono fun _ _ => trivial).bind (.pure _)

theorem findPlaceAt_runs (d : Dev) :
    Runs (fun _ => True) (findPlaceAt e dir) d (findPlace e dir d).1 (findPlace e dir d).2 := by
  refine (Runs.visit _ trivial).bind ?_
  rw [findPlace]
  dsimp only
  by_cases hzero : dir.iData.getD 0 0 = 0
  · rw [if_pos hzero, if_pos hzero]
    exact .pure _
  · rw [if_neg hzero, if_neg hzero, DevM.bind_apply, addEntryLoop_eq_walk]
    refine (Runs.quiet _).bind ?_
    exact ((walkAt_runs _ _ _ 1 _).mono fun _ _ => trivial).bind (.pure _)

theorem tfsAddEntry_eq (inr : ℤ) (dirty : Bool) :
    tfsAddEntry e dir name inr dirty = if name.length > TFS_NAME_LEN then
      pure (-ENAMETOOLONG, dir, dirty)
    else findPlace e dir >>= addEntryFrom e dir name inr dirty := by
  rw [tfsAddEntry]
  by_cases hlong : name.length > TFS_NAME_LEN
  · rw [if_pos hlong, if_pos hlong]
  · rw [if_neg hlong, if_neg hlong]
    refine congrArg (findPlace e dir >>= ·) (funext fun place => ?_)
    cases place <;> rfl

/-- The write of `tfs_add_entry` is inside of the array. -/
theorem addEntryFromAt_runs (e : Env) (dir : Inode) (name : List UInt8) (inr : ℤ) (dirty : Bool)
    (place : Place) (d : Dev) :
    Runs (· < TFS_N_BLOCKS) (addEntryFromAt e dir name inr dirty place) d
      (addEntryFrom e dir name inr dirty place d).1
      (addEntryFrom e dir name inr dirty place d).2 := by
  cases place with
  | fail => exact .pure _
  | slot block cs de => exact .quiet _
  | full index =>
    rw [addEntryFrom, DevM.bind_apply]
    refine (Runs.quiet _).bind ?_
    by_cases hindex : index > TFS_N_BLOCKS
    · rw [if_pos hindex, if_pos hindex]
      exact .pure _
    · rw [if_neg hindex, if_neg hindex, DevM.bind_apply]
      have hin : index - 1 < TFS_N_BLOCKS := by
        rw [TFS_N_BLOCKS] at *
        omega
      refine (Runs.visit (W := (· < TFS_N_BLOCKS)) _ hin).bind ?_
      refine (Runs.quiet _).bind ?_
      generalize getCacheBlock e e.sbi (toU32 (tfsAllocBlock e e.sbi.sDataArea d).1)
        (tfsAllocBlock e e.sbi.sDataArea d).2 = q
      obtain ⟨_ | cs, d'⟩ := q
      · exact .pure _
      · exact .quiet _

/-- **`tfs_add_entry` with its indices** computes what it does. -/
theorem tfsAddEntryAt_runs (inr : ℤ) (dirty : Bool) (d : Dev) :
    Runs (fun _ => True) (tfsAddEntryAt e dir name inr dirty) d
    (tfsAddEntry e dir name inr dirty d).1
      (tfsAddEntry e dir name inr dirty d).2 := by
  rw [tfsAddEntryAt, tfsAddEntry_eq]
  by_cases hlong : name.length > TFS_NAME_LEN
  · rw [if_pos hlong, if_pos hlong]
    exact .pure _
  · rw [if_neg hlong, if_neg hlong, DevM.bind_apply]
    exact (findPlaceAt_runs d).bind
      ((addEntryFromAt_runs e dir name inr dirty _ _).mono fun _ _ => trivial)

/-! ### What stops them -/

theorem iData_ne_nil (inode : Inode) : inode.iData ≠ [] := by
  rw [← List.length_pos_iff_ne_nil, inode.iData_length]
  decide

/-- The walk of either operation begins with the first word. -/
theorem touched_walk {look : (ℕ → UInt8) → ℕ → Option ℕ} {stop : ℕ → Prop} [DecidablePred stop]
    {α : Type} (a : α) (f : Place → α) (inode : Inode) (d : Dev) :
    (∀ i ∈ touched (do
      let block ← visit 0 fun d => (inode.iData.getD 0 0, d)
      if block = 0 then pure a
      else do
        let words ← quiet (dataWords e inode)
        let place ← walkAt e look stop words 1
        pure (f place) : Prog Dev ℕ α) d, i < TFS_N_BLOCKS) ↔
      ¬(inode.iData.getD 0 0 ≠ 0 ∧ Passes e look stop inode.iData d.tick) := by
  by_cases hzero : inode.iData.getD 0 0 = 0
  · have hrest : Runs (fun _ => True) (if inode.iData.getD 0 0 = 0 then pure a else do
        let words ← quiet (dataWords e inode)
        let place ← walkAt e look stop words 1
        pure (f place) : Prog Dev ℕ α) d a d := by
      rw [if_pos hzero]
      exact .pure _
    rw [hrest.touched_visit_bind]
    dsimp only
    rw [if_pos hzero, List.forall_mem_cons]
    exact iff_of_true ⟨by decide, fun _ h => absurd h List.not_mem_nil⟩ fun h => h.1 hzero
  · have hwalk := walkAt_runs (e := e) look stop (dataWords e inode d).1 1 (dataWords e inode d).2
    have hrest : ∃ r d', Runs (1 ≤ ·) (if inode.iData.getD 0 0 = 0 then pure a else do
        let words ← quiet (dataWords e inode)
        let place ← walkAt e look stop words 1
        pure (f place) : Prog Dev ℕ α) d r d' := by
      rw [if_neg hzero]
      exact ⟨_, _, (Runs.quiet _).bind (hwalk.bind (.pure _))⟩
    obtain ⟨r, d', hrest⟩ := hrest
    rw [hrest.touched_visit_bind]
    dsimp only
    have hend : touched (walkAt e look stop (dataWords e inode d).1 1 >>= fun place =>
      pure (f place))
        (dataWords e inode d).2 = _ :=
      (hwalk.touched_bind (Runs.pure (W := fun _ => True) _)).trans (List.append_nil _)
    rw [if_neg hzero, touched_quiet_bind, hend, List.forall_mem_cons, and_iff_right (by decide),
      and_iff_right hzero]
    exact walkAt_inBounds_iff look stop (iData_ne_nil inode)
      (by rw [inode.iData_length]; rfl) d.tick

/-- **`tfs_find_entry` reads `i_data` inside of its bounds** exactly if there is no block, or
something stops its walk. -/
theorem tfsFindEntryAt_inBounds_iff (inode : Inode) (name : List UInt8) (d : Dev) :
    (∀ i ∈ touched (tfsFindEntryAt e inode name) d, i < TFS_N_BLOCKS) ↔
      ¬(inode.iData.getD 0 0 ≠ 0 ∧
        Passes e (fun m a => findInBlock name m (entriesPerBlock e) a) (· < e.sbi.sDataArea)
          inode.iData d.tick) :=
  touched_walk Lookup.null Place.lookup inode d

/-- **`tfs_add_entry` reads and writes `i_data` inside of its bounds** exactly if the name is
too long, there is no block, or something stops its walk. -/
theorem tfsAddEntryAt_inBounds_iff (dir : Inode) (name : List UInt8) (inr : ℤ) (dirty : Bool)
    (d : Dev) : (∀ i ∈ touched (tfsAddEntryAt e dir name inr dirty) d, i < TFS_N_BLOCKS) ↔
      ¬(name.length ≤ TFS_NAME_LEN ∧ dir.iData.getD 0 0 ≠ 0 ∧
        Passes e (fun m a => freeInBlock m (entriesPerBlock e) a) (· = 0) dir.iData d.tick) := by
  rw [tfsAddEntryAt]
  by_cases hlong : name.length > TFS_NAME_LEN
  · rw [if_pos hlong]
    exact iff_of_true (fun _ h => absurd h List.not_mem_nil) fun h => absurd h.1 (by omega)
  · have hfrom := addEntryFromAt_runs e dir name inr dirty
      (findPlace e dir d).1 (findPlace e dir d).2
    rw [if_neg hlong, (findPlaceAt_runs d).touched_bind hfrom, List.forall_mem_append,
      and_iff_left hfrom.touched, and_iff_right (by omega : name.length ≤ TFS_NAME_LEN)]
    exact touched_walk (Place.full 1) id dir d

/-! ### On a volume -/

section OnVolume

variable {look : (ℕ → UInt8) → ℕ → Option ℕ} (stop : ℕ → Prop) {Clear : ℕ → Prop} {k r : ℕ}

/-- **When every block is gone through**: there is nothing to be found in any of them, and no
word is a stop. -/
theorem passes_vol (hm : Mounted e.sbi) (hq : Quiet e)
    (hlook : ∀ k < TFS_N_BLOCKS, ∀ m a,
      (∀ x < e.sbi.sBlockSize, m (a + x) = v (inode.iData.getD k 0) x) →
      (look m a = none ↔ Clear k))
    (hr : k + r = TFS_N_BLOCKS) (hpos : 0 < r) (hmem : inode.iData.getD k 0 ∈ S)
    (hrest : ∀ j, k < j → j < TFS_N_BLOCKS → ¬stop (inode.iData.getD j 0) →
      inode.iData.getD j 0 ∈ S) (hd : Vol e S v d) : Passes e look stop (inode.iData.drop k) d ↔
      (∀ j, k ≤ j → j < TFS_N_BLOCKS → Clear j) ∧
        ∀ j, k < j → j < TFS_N_BLOCKS → ¬stop (inode.iData.getD j 0) := by
  induction r generalizing k d with
  | zero => exact absurd hpos (Nat.lt_irrefl 0)
  | succ r ih =>
    obtain ⟨i, hi, hhold⟩ := getCacheBlock_vol (b := inode.iData.getD k 0) hm hq d hd
    have hdata := (dataPtr_holding _ hhold).1
    rw [drop_iData (by omega), Passes]
    generalize getCacheBlock e e.sbi (inode.iData.getD k 0) d = q at hi hhold hdata
    obtain ⟨res, d'⟩ := q
    obtain rfl : res = some (.entry i) := hi
    rw [exists_some_iff]
    dsimp only at hdata ⊢
    have hclear := hlook k (by omega) d'.cacheData _ fun x hx => hhold.agree hmem x hx
    have hdata' : (d'.cache (.entry i)).data = i * e.sbi.sBlockSize := hdata
    rw [hdata', hclear]
    rcases Nat.eq_zero_or_pos r with rfl | hr0
    · rw [List.drop_eq_nil_of_le (by rw [inode.iData_length]; omega), and_iff_left (.inl rfl)]
      refine ⟨fun h => ⟨fun j hlo hhi => ?_, fun j hlo hhi => by omega⟩, fun h =>
        h.1 k (le_refl k) (by omega)⟩
      rwa [show j = k by omega]
    · have hne : inode.iData.drop (k + 1) ≠ [] := by
        rw [drop_iData (by omega)]
        exact List.cons_ne_nil _ _
      have hhead : (inode.iData.drop (k + 1)).headD 0 = inode.iData.getD (k + 1) 0 := by
        rw [drop_iData (by omega)]
        rfl
      rw [or_iff_right hne, hhead]
      have hih := fun hstop => ih (k := k + 1) (by omega) hr0
        (hrest (k + 1) (by omega) (by omega) hstop)
        (fun j hlo hhi => hrest j (by omega) hhi) hhold.1
      constructor
      · rintro ⟨hk, hstop, hpass⟩
        obtain ⟨hcl, hst⟩ := (hih hstop).mp hpass
        refine ⟨fun j hlo hhi => ?_, fun j hlo hhi => ?_⟩
        · rcases Nat.eq_or_lt_of_le hlo with rfl | hlt
          · exact hk
          · exact hcl j hlt hhi
        · rcases Nat.eq_or_lt_of_le hlo with heq | hlt
          · rwa [← heq]
          · exact hst j hlt hhi
      · rintro ⟨hcl, hst⟩
        have hstop := hst (k + 1) (by omega) (by omega)
        exact ⟨hcl k (le_refl k) (by omega), hstop, (hih hstop).mpr
          ⟨fun j hlo hhi => hcl j (by omega) hhi, fun j hlo hhi => hst j (by omega) hhi⟩⟩

/-- **When the walk comes to a stop**: there is one, and nothing is found before it. -/
theorem walk_stops (hm : Mounted e.sbi) (hq : Quiet e) [DecidablePred stop]
    (hlook : ∀ k < TFS_N_BLOCKS, ∀ m a,
      (∀ x < e.sbi.sBlockSize, m (a + x) = v (inode.iData.getD k 0) x) →
      (look m a = none ↔ Clear k))
    (hr : k + r = TFS_N_BLOCKS) (hmem : inode.iData.getD k 0 ∈ S)
    (hrest : ∀ j, k < j → j < TFS_N_BLOCKS → ¬stop (inode.iData.getD j 0) →
      inode.iData.getD j 0 ∈ S)
    (hclear : ∀ j, k ≤ j → j < TFS_N_BLOCKS → j = k ∨ ¬stop (inode.iData.getD j 0) → Clear j)
    (hstop : ∃ j, k < j ∧ j < TFS_N_BLOCKS ∧ stop (inode.iData.getD j 0)) (behind : List ℕ)
    (index : ℕ) (hd : Vol e S v d) :
    ∃ n, (walk e look stop (inode.iData.drop k ++ behind) index d).1 = .full n := by
  induction r generalizing k index d with
  | zero =>
    obtain ⟨j, hlo, hhi, -⟩ := hstop
    omega
  | succ r ih =>
    obtain ⟨i, hi, hhold⟩ := getCacheBlock_vol (b := inode.iData.getD k 0) hm hq d hd
    have hdata := (dataPtr_holding _ hhold).1
    rw [drop_iData (by omega), List.cons_append, walk, DevM.bind_apply]
    generalize getCacheBlock e e.sbi (inode.iData.getD k 0) d = q at hi hhold hdata
    obtain ⟨_, d'⟩ := q
    obtain rfl : _ = some (CacheRef.entry i) := hi
    have hnone : (readMem (fun m => look m (dataPtr (.entry i) d').1)
      (dataPtr (.entry i) d').2).1 = none := by
      rw [hdata]
      exact (hlook k (by omega) d'.cacheData _ fun x hx => hhold.agree hmem x hx).mpr
        (hclear k (le_refl k) (by omega) (.inl rfl))
    obtain ⟨j, hlo, hhi, hj⟩ := hstop
    have hhead : (inode.iData.drop (k + 1) ++ behind).headD 0 = inode.iData.getD (k + 1) 0 := by
      rw [drop_iData (by omega)]
      rfl
    dsimp only
    rw [DevM.bind_apply, DevM.bind_apply, hnone]
    dsimp only
    rw [hhead]
    by_cases hnext : stop (inode.iData.getD (k + 1) 0)
    · rw [if_pos hnext]
      exact ⟨_, rfl⟩
    · rw [if_neg hnext]
      have hlt : k + 1 < j := by
        rcases Nat.eq_or_lt_of_le (Nat.succ_le_of_lt hlo) with heq | hlt
        · rw [← heq] at hj
          exact absurd hj hnext
        · exact hlt
      exact ih (by omega) (hrest (k + 1) (by omega) (by omega) hnext)
        (fun j hlo => hrest j (by omega))
        (fun j hlo hhi h => hclear j (by omega) hhi (.inr (h.elim (fun heq => heq ▸ hnext) id)))
        ⟨j, hlt, hhi, hj⟩ (index + 1) hhold.1

end OnVolume

/-- The name is in no slot of the directory's blocks. -/
def Absent (e : Env) (v : ℕ → Buf) (inode : Inode) (name : List UInt8) : Prop :=
  ∀ k < TFS_N_BLOCKS, inode.iData.getD k 0 ≠ 0 → ∀ l < entriesPerBlock e,
    ¬SlotNamed e v inode name (k * entriesPerBlock e + l)

/-- Every word is a block, and every slot of every block is live. -/
def FullDir (e : Env) (v : ℕ → Buf) (dir : Inode) : Prop :=
  ∀ k < TFS_N_BLOCKS, dir.iData.getD k 0 ≠ 0 ∧
    ∀ l < entriesPerBlock e, slotLive e v dir (k * entriesPerBlock e + l) = true

/-- `tfs_find_entry` stays inside of `i_data`, and of a name that is absent says so. -/
def FindHandled (e : Env) (v : ℕ → Buf) (inode : Inode) (name : List UInt8) (d : Dev) : Prop :=
  (∀ i ∈ touched (tfsFindEntryAt e inode name) d, i < TFS_N_BLOCKS) ∧
    (Absent e v inode name → (tfsFindEntry e inode name d).1 = .null)

/-- `tfs_add_entry` stays inside of `i_data`, and refuses when the directory is full. -/
def AddHandled (e : Env) (v : ℕ → Buf) (dir : Inode) (name : List UInt8) (inr : ℤ) (dirty : Bool)
    (d : Dev) : Prop :=
  (∀ i ∈ touched (tfsAddEntryAt e dir name inr dirty) d, i < TFS_N_BLOCKS) ∧
    (FullDir e v dir → name.length ≤ TFS_NAME_LEN →
      (tfsAddEntry e dir name inr dirty d).1.1 = -EFBIG ∨
        (tfsAddEntry e dir name inr dirty d).1.1 = -ENOSPC)

/-- The lookup goes behind the last word: none of the words stops it, and the name is in no
block. -/
def LookupOverrun (e : Env) (v : ℕ → Buf) (inode : Inode) (name : List UInt8) : Prop :=
  inode.iData.getD 0 0 ≠ 0 ∧
    (∀ k, 0 < k → k < TFS_N_BLOCKS → e.sbi.sDataArea ≤ inode.iData.getD k 0) ∧
    Absent e v inode name

theorem findInBlock_eq_none_iff (hm : Mounted e.sbi) (hleg : Legible e v inode TFS_N_BLOCKS name)
    (hnz : ∀ c ∈ name, c ≠ 0) {k : ℕ} (hk : k < TFS_N_BLOCKS) {m : ℕ → UInt8} {a : ℕ}
    (hagree : ∀ x < e.sbi.sBlockSize, m (a + x) = v (inode.iData.getD k 0) x) :
    findInBlock name m (entriesPerBlock e) a = none ↔
      ∀ l < entriesPerBlock e, ¬SlotNamed e v inode name (k * entriesPerBlock e + l) := by
  have hmatch := fun {l} (hl : l < entriesPerBlock e) => match_slot hm hleg hnz hk hl hagree
  rcases @findInBlock_eq name m (entriesPerBlock e) a with ⟨hnone, hall⟩ | ⟨l, hl, hsome, hl', -⟩
  · exact iff_of_true hnone fun l hl h => hall l hl ((hmatch hl).mpr h)
  · rw [hsome]
    exact iff_of_false nofun fun h => h l hl ((hmatch hl).mp hl')

theorem freeInBlock_eq_none_iff (hm : Mounted e.sbi) {k : ℕ} {m : ℕ → UInt8} {a : ℕ}
    (hagree : ∀ x < e.sbi.sBlockSize, m (a + x) = v (dir.iData.getD k 0) x) :
    freeInBlock m (entriesPerBlock e) a = none ↔
      ∀ l < entriesPerBlock e, slotLive e v dir (k * entriesPerBlock e + l) = true := by
  have hino := fun {l} (hl : l < entriesPerBlock e) =>
    slotIno_buffer (I := imageOf e v) hm hl hagree
  rcases @freeInBlock_eq m (entriesPerBlock e) a with ⟨hnone, hall⟩ | ⟨l, hl, hsome, hl', -⟩
  · refine iff_of_true hnone fun l hl => slotLive_iff.mpr ?_
    have := hall l hl
    rwa [hino hl] at this
  · rw [hsome]
    refine iff_of_false nofun fun h => slotLive_iff.mp (h l hl) ?_
    rwa [hino hl] at hl'

section FullDirs

variable (hm : Mounted e.sbi) (hq : Quiet e)
  (hmem : ∀ k < TFS_N_BLOCKS, inode.iData.getD k 0 ≠ 0 → inode.iData.getD k 0 ∈ S)

include hm hq hmem

/-- The lookup. -/
theorem findHandled_iff (harea : 0 < e.sbi.sDataArea) (hleg : Legible e v inode TFS_N_BLOCKS name)
    (hnz : ∀ c ∈ name, c ≠ 0) (hd : Vol e S v d) :
    FindHandled e v inode name d ↔ ¬LookupOverrun e v inode name := by
  rw [FindHandled, tfsFindEntryAt_inBounds_iff]
  by_cases hzero : inode.iData.getD 0 0 = 0
  · refine iff_of_true ⟨fun h => h.1 hzero, fun _ => ?_⟩ fun h => h.1 hzero
    rw [tfsFindEntry, if_pos hzero]
    rfl
  · have hlook : ∀ k < TFS_N_BLOCKS, ∀ m a,
        (∀ x < e.sbi.sBlockSize, m (a + x) = v (inode.iData.getD k 0) x) →
        (findInBlock name m (entriesPerBlock e) a = none ↔
          ∀ l < entriesPerBlock e, ¬SlotNamed e v inode name (k * entriesPerBlock e + l)) :=
      fun k hk m a => findInBlock_eq_none_iff hm hleg hnz hk
    have hrest : ∀ j, 0 < j → j < TFS_N_BLOCKS → ¬inode.iData.getD j 0 < e.sbi.sDataArea →
        inode.iData.getD j 0 ∈ S := fun j _ hj h => hmem j hj (by omega)
    have hpass := passes_vol (· < e.sbi.sDataArea) (k := 0) hm hq hlook (Nat.zero_add _) (by decide)
      (hmem 0 (by decide) hzero) hrest hd.tick
    rw [List.drop_zero] at hpass
    rw [and_iff_right hzero, hpass]
    constructor
    · rintro ⟨hno, -⟩ ⟨-, hwords, habs⟩
      refine hno ⟨fun j _ hj => habs j hj ?_, fun j hlo hj => Nat.not_lt.mpr (hwords j hlo hj)⟩
      rcases Nat.eq_zero_or_pos j with rfl | hpos
      · exact hzero
      · have := hwords j hpos hj
        omega
    · refine fun hno => ⟨fun h => hno ⟨hzero, fun j hlo hj => Nat.not_lt.mp (h.2 j hlo hj),
        fun j hj _ => h.1 j (Nat.zero_le j) hj⟩, fun habs => ?_⟩
      have hstop : ∃ j, 0 < j ∧ j < TFS_N_BLOCKS ∧ inode.iData.getD j 0 < e.sbi.sDataArea := by
        by_contra hnone
        exact hno ⟨hzero, fun j hlo hj => Nat.not_lt.mp fun h => hnone ⟨j, hlo, hj, h⟩, habs⟩
      have hclear : ∀ j, 0 ≤ j → j < TFS_N_BLOCKS → j = 0 ∨
        ¬inode.iData.getD j 0 < e.sbi.sDataArea →
          ∀ l < entriesPerBlock e, ¬SlotNamed e v inode name (j * entriesPerBlock e + l) :=
        fun j _ hj h => habs j hj (h.elim (fun heq => heq ▸ hzero) fun h => by omega)
      obtain ⟨n, hn⟩ := walk_stops (· < e.sbi.sDataArea) (k := 0) hm hq hlook (Nat.zero_add _)
        (hmem 0 (by decide) hzero) hrest hclear hstop (e.beyond d.ticks) 1 hd.tick
      rw [tfsFindEntry, if_neg hzero, DevM.bind_apply, findEntryLoop_eq_walk _ 1, DevM.bind_apply]
      exact congrArg Place.lookup hn

/-- The insertion. -/
theorem addHandled_iff (hd : Vol e S v d) (inr : ℤ) (dirty : Bool) :
    AddHandled e v inode name inr dirty d ↔ ¬(name.length ≤ TFS_NAME_LEN ∧ FullDir e v inode) := by
  rw [AddHandled, tfsAddEntryAt_inBounds_iff]
  have hfull : FullDir e v inode ↔ inode.iData.getD 0 0 ≠ 0 ∧
      Passes e (fun m a => freeInBlock m (entriesPerBlock e) a) (· = 0) inode.iData d.tick := by
    by_cases hzero : inode.iData.getD 0 0 = 0
    · exact iff_of_false (fun h => (h 0 (by decide)).1 hzero) fun h => h.1 hzero
    · have hpass := passes_vol (· = 0) (k := 0) hm hq (fun k _ m a => freeInBlock_eq_none_iff hm)
        (Nat.zero_add _) (by decide) (hmem 0 (by decide) hzero) (fun j _ hj => hmem j hj) hd.tick
      rw [List.drop_zero] at hpass
      rw [and_iff_right hzero, hpass]
      refine ⟨fun h => ⟨fun j _ hj => (h j hj).2, fun j _ hj => (h j hj).1⟩, fun h k hk => ⟨?_,
        h.1 k (Nat.zero_le k) hk⟩⟩
      rcases Nat.eq_zero_or_pos k with rfl | hpos
      · exact hzero
      · exact h.2 k hpos hk
  rw [← hfull]
  exact ⟨fun h => h.1, fun h => ⟨h, fun hf hlen => absurd ⟨hlen, hf⟩ h⟩⟩

end FullDirs

/-- A directory of eight blocks. -/
def eightBlockDir : Inode :=
  { newInodeValue TFS_DIR with
    iData := [6, 7, 8, 9, 10, 11, 12, 13]
    iData_length := rfl }

/-- The small volume with a name of 28 times the letter a in every slot. -/
def fullDev : Dev := cacheInit 9 { Dev.blank with disk := fun _ _ => 97 }

/-- What its blocks hold. -/
def fullVol : ℕ → Buf := diskBlock (smallSbi 9) fun _ _ => 97

theorem fullDev_vol : Vol (Env.quiet (smallSbi 9)) {b | b < 32} fullVol fullDev :=
  vol_cacheInit mounted_small (fun h => absurd (show emptyBlock < 32 from h) (by decide)) _

theorem slotName_full {j : ℕ} {name : List UInt8}
    (h : SlotNamed (Env.quiet (smallSbi 9)) fullVol eightBlockDir name j) : name.length = 28 := by
  rw [← h.2]
  rfl

theorem fullDir_full : FullDir (Env.quiet (smallSbi 9)) fullVol eightBlockDir := by
  have hword : ∀ k < TFS_N_BLOCKS, eightBlockDir.iData.getD k 0 ≠ 0 := by decide
  exact fun k hk => ⟨hword k hk, fun l _ => rfl⟩

end Thunix.Fs
