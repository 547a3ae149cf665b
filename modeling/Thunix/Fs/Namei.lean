import Mathlib.Data.List.TakeWhile
import Thunix.Fs.Paths

/-!
# `namei` over any lookup

`namei` with its three loops and the buffer `part` that holds a component, over
operations on inodes that are not known (`Thunix.Fs.Lookup.Ops`), in any monad in which
they run. A store outside the buffer and the use of `NULL` as an inode are faults.

For any flags and any path it is a walk over the components
(`Thunix.Fs.Lookup.namei_walk`). What it computes, when nothing is to be created, is a fold:
the components of the path are looked up one after another, each in the inode found before,
until a lookup fails (`Thunix.Fs.Lookup.namei_eq_fold`). The components are what stands
between the slashes, so the number of slashes does not matter.

The walk of `Thunix.Fs.namei`, which takes the path character by character, is this one
over the operations of the file system (`Thunix.Fs.Lookup.namei_kernel`).
-/

namespace Thunix.Fs.Lookup

/-! ### The source -/

/-- What a pointer to an inode says: `IS_ERR` holds of errors, `IS_ERR_OR_NULL` of errors
and of `NULL`. -/
inductive Found (ι : Type)
  | inode (i : ι)
  | null
  | err (n : ℤ)
  deriving DecidableEq

/-- The operations of the inodes. -/
structure Ops (m : Type → Type) (ι : Type) where
  iget : List UInt8 → ι → m (Found ι)
  freeInode : ι → m Unit
  /-- `mknod(parent, part, TFS_FILE)` -/
  mknod : ι → List UInt8 → m (Found ι)
  iwrite : ι → m ℤ

/-- How `namei` ends. -/
inductive Ended (ι : Type)
  /-- It returns. -/
  | found (f : Found ι)
  /-- A store outside `part`, or through `NULL`. -/
  | fault
  /-- The outer loop goes on longer than the fuel allows. -/
  | endless
  deriving DecidableEq

/-- `char part[256]`. -/
abbrev Part := ℕ → UInt8

/-- A store into `part`. -/
def store (q : Part) (p : ℕ) (c : UInt8) : Option Part :=
  if p < 256 then some (Function.update q p c) else none

/-- The string in `part`. -/
def string (q : Part) : List UInt8 := ((List.range 256).map q).takeWhile (· ≠ 0)

/-- How the inner loop ends. -/
inductive Copied
  /-- With the buffer, the end of the component in it, and the rest of the path. -/
  | part (q : Part) (p : ℕ) (name : List UInt8)
  | tooLong
  | fault

/-- `while (*name && *name != '/')` -/
def copyPart : List UInt8 → Part → ℕ → Copied
  | [], q, p => .part q p []
  | c :: name, q, p =>
    if c ≠ slash then
      if p ≥ MAX_NAME_LEN then .tooLong
      else
        match store q p c with
        | none => .fault
        | some q => copyPart name q (p + 1)
    else .part q p (c :: name)

/-- `while (*name == '/') name++` -/
def skipSlashes (name : List UInt8) : List UInt8 := name.dropWhile (· = slash)

/-- How the outer loop ends. -/
inductive Left (ι : Type)
  /-- `return` in the loop. -/
  | returned (f : Found ι)
  /-- The loop is left, with `inode`, `parent` and `part`. -/
  | left (inode : Found ι) (parent : ι) (part : Part)
  | fault
  | endless

variable {m : Type → Type} [Monad m] {ι : Type} (o : Ops m ι)

/-- The component in `part` is looked up, and the loop left or gone on with. -/
def lookPart (parent : ι) (q : Part) (next : ι → m (Left ι)) : m (Left ι) := do
  match ← o.iget (string q) parent with
  | .inode i => do
    o.freeInode parent
    next i
  | f => pure (.left f parent q)

/-- `while (*name)`. At its head `inode` is `parent`. -/
def nameiLoop (flag : ℕ) : ℕ → List UInt8 → Part → ι → m (Left ι)
  | _, [], q, parent => pure (.left (.inode parent) parent q)
  | 0, _ :: _, _, _ => pure .endless
  | fuel + 1, c :: name, q, parent =>
    match copyPart (c :: name) q 0 with
    | .fault => pure .fault
    | .tooLong => pure (.returned (.err (-ENAMETOOLONG)))
    | .part q p name =>
      match store q p 0 with
      | none => pure .fault
      | some q =>
        let name := skipSlashes name
        if name = [] ∧ lookupParent flag then pure (.returned (.inode parent))
        else lookPart o parent q fun i => nameiLoop flag fuel name q i

/-- The inode made for a component that has not been found. -/
def nameiCreate (parent : ι) (part : Part) : m (Ended ι) := do
  let made ← o.mknod parent (string part)
  o.freeInode parent
  match made with
  | .err n => pure (.found (.err n))
  | .null => pure .fault
  | .inode i => do
    if (← o.iwrite i) ≠ 0 then do
      o.freeInode i
      pure (.found (.err (- EIO)))
    else pure (.found (.inode i))

/-- What follows the outer loop. -/
def nameiEnd (flag : ℕ) : Left ι → m (Ended ι)
  | .returned f => pure (.found f)
  | .fault => pure .fault
  | .endless => pure .endless
  | .left inode parent part =>
    match inode with
    | .err n =>
      if n = -ENOENT ∧ lookupCreate flag then nameiCreate o parent part
      else pure (.found (.err n))
    | f => pure (.found f)

/-- The inode the walk starts from. -/
def startInode (root pwd : ι) (path : List UInt8) : ι :=
  if path.head? = some slash then root else pwd

/-- `namei`, where `part` holds anything before. -/
def namei (root pwd : ι) (part : Part) (path : List UInt8) (flag : ℕ) : m (Ended ι) := do
  let name := if path.head? = some slash then skipSlashes path else path
  let out ← nameiLoop o flag name.length name part (startInode root pwd path)
  nameiEnd o flag out

/-! ### The fold -/

/-- One lookup, in what has been found before. -/
def lookIn (f : Found ι) (name : List UInt8) : m (Found ι) :=
  match f with
  | .inode dir => do
    let r ← o.iget name dir
    match r with
    | .inode _ => do
      o.freeInode dir
      pure r
    | r => pure r
  | f => pure f

/-- **The fold of `iget` over components.** -/
def fold (comps : List (List UInt8)) (start : ι) : m (Found ι) :=
  comps.foldlM (lookIn o) (.inode start)

/-- The components that are looked up: with `LOOKUP_PARENT` not the last. -/
def wanted (flag : ℕ) (comps : List (List UInt8)) : List (List UInt8) :=
  if lookupParent flag then comps.dropLast else comps

/-! ### Components -/

section Components

variable {path name comp part : List UInt8}

/-- The characters up to the next slash. -/
def headPart (name : List UInt8) : List UInt8 := name.takeWhile (· ≠ slash)

/-- What follows them. -/
def tailPart (name : List UInt8) : List UInt8 := name.dropWhile (· ≠ slash)

theorem headPart_char {c : UInt8} (hc : c ≠ slash) (name : List UInt8) :
    headPart (c :: name) = c :: headPart name ∧ tailPart (c :: name) = tailPart name := by
  simp [headPart, tailPart, hc]

theorem headPart_slash (name : List UInt8) :
    headPart (slash :: name) = [] ∧ tailPart (slash :: name) = slash :: name := by
  simp [headPart, tailPart]

/-- The component that has begun goes up to the next slash. -/
theorem componentsFrom_headPart (h : part ++ headPart name ≠ []) :
    componentsFrom name part = (part ++ headPart name) :: components (tailPart name) := by
  induction name generalizing part with
  | nil =>
    have hpart : part ≠ [] := by simpa [headPart] using h
    rw [componentsFrom, if_neg hpart]
    simp [headPart, tailPart, components, componentsFrom]
  | cons c name ih =>
    by_cases hc : c = slash
    · obtain ⟨hhead, htail⟩ := headPart_slash name
      rw [hc, hhead, List.append_nil] at h
      rw [hc, hhead, htail, List.append_nil, componentsFrom_slash h, components,
        componentsFrom_slash_nil]
    · obtain ⟨hhead, htail⟩ := headPart_char hc name
      have happ : part ++ headPart (c :: name) = part ++ [c] ++ headPart name := by
        rw [hhead, List.append_assoc, List.singleton_append]
      rw [happ] at h
      rw [componentsFrom_char hc, ih h, happ, htail]

theorem components_skipSlashes (name : List UInt8) :
    components (skipSlashes name) = components name := by
  induction name with
  | nil => rfl
  | cons c name ih =>
    by_cases hc : c = slash
    · rw [hc, components, components, componentsFrom_slash_nil, ← components, ← components, ← ih]
      simp [skipSlashes]
    · simp [skipSlashes, hc]

theorem skipSlashes_eq_nil : skipSlashes name = [] ↔ components name = [] := by
  rw [components, componentsFrom_eq_nil, skipSlashes, List.dropWhile_eq_nil_iff]
  simp

theorem skipSlashes_head (name : List UInt8) : (skipSlashes name).head? ≠ some slash := by
  intro h
  have hne : skipSlashes name ≠ [] := by
    intro h0
    rw [h0] at h
    cases h
  have hhead := List.head_dropWhile_not (fun c => decide (c = slash)) (l := name) hne
  rw [List.head?_eq_some_head hne, Option.some.injEq] at h
  exact absurd h (of_decide_eq_false hhead)

/-- Where a component begins there is one. -/
theorem components_eq (h : headPart name ≠ []) :
    components name = headPart name :: components (skipSlashes (tailPart name)) := by
  rw [components_skipSlashes]
  exact componentsFrom_headPart (show [] ++ headPart name ≠ [] from h)

theorem headPart_ne_nil (hne : name ≠ []) (h : name.head? ≠ some slash) : headPart name ≠ [] := by
  rcases name with _ | ⟨c, name⟩
  · exact absurd rfl hne
  · have hc : c ≠ slash := fun hc => h (by rw [hc]; rfl)
    rw [(headPart_char hc name).1]
    exact List.cons_ne_nil _ _

/-- **The components are what stands between the slashes.** -/
theorem components_eq_splitOn (path : List UInt8) :
    components path = (path.splitOn slash).filter (· ≠ []) := by
  have hfrom : ∀ name part, componentsFrom name part =
      (List.splitOnPPrepend (· == slash) name part.reverse).filter (· ≠ []) := by
    intro name
    induction name with
    | nil =>
      intro part
      rw [componentsFrom, List.splitOnPPrepend_nil, List.reverse_reverse]
      by_cases hpart : part = [] <;> simp [hpart]
    | cons c name ih =>
      intro part
      by_cases hc : c = slash
      · rw [hc, List.splitOnPPrepend_cons_pos (p := (· == slash)) (beq_self_eq_true slash),
          List.reverse_reverse, ← List.splitOnPPrepend_nil_right]
        by_cases hpart : part = []
        · rw [hpart, componentsFrom_slash_nil, ih]
          simp
        · rw [componentsFrom_slash hpart, ih]
          simp [hpart]
      · rw [List.splitOnPPrepend_cons_neg (by simpa using hc), componentsFrom_char hc, ih]
        simp
  rw [components, hfrom]
  simp [List.splitOn_eq_splitOnP]

/-- A slash separates, wherever it stands; so slashes that repeat or end a path say
nothing. -/
theorem components_append_slash (path path' : List UInt8) :
    components (path ++ slash :: path') = components path ++ components path' := by
  rw [components_eq_splitOn, components_eq_splitOn, components_eq_splitOn,
    List.splitOn_append_cons_self, List.filter_append]

end Components

/-! ### The loops -/

section Loops

variable {name rest : List UInt8} {q : Part} {p : ℕ}

/-- **The inner loop copies the component** behind what the buffer holds. -/
theorem copyPart_eq (name : List UInt8) (q : Part) {p : ℕ}
    (hlen : p + (headPart name).length ≤ MAX_NAME_LEN) :
    ∃ q', copyPart name q p = .part q' (p + (headPart name).length) (tailPart name) ∧
      (List.range (p + (headPart name).length)).map q' = (List.range p).map q ++ headPart name := by
  induction name generalizing q p with
  | nil => exact ⟨q, rfl, (List.append_nil _).symm⟩
  | cons c name ih =>
    by_cases hc : c = slash
    · obtain ⟨hhead, htail⟩ := headPart_slash name
      rw [hc, hhead, htail]
      exact ⟨q, by rw [copyPart, if_neg (not_not.mpr rfl)]; rfl, (List.append_nil _).symm⟩
    · obtain ⟨hhead, htail⟩ := headPart_char hc name
      rw [hhead, List.length_cons, MAX_NAME_LEN] at hlen
      have hstore : store q p c = some (Function.update q p c) := if_pos (by omega)
      obtain ⟨q', hq', hmap⟩ := ih (Function.update q p c) (p := p + 1)
        (by rw [MAX_NAME_LEN]; omega)
      have hp : p + (c :: headPart name).length = p + 1 + (headPart name).length := by
        rw [List.length_cons]
        omega
      refine ⟨q', ?_, ?_⟩
      · rw [copyPart, if_pos hc, if_neg (by rw [MAX_NAME_LEN]; omega), hstore, hhead, htail, hp]
        exact hq'
      · have hold : (List.range p).map (Function.update q p c) = (List.range p).map q := by
          refine List.map_congr_left fun i hi => Function.update_of_ne ?_ _ _
          exact Nat.ne_of_lt (List.mem_range.mp hi)
        rw [hhead, hp, hmap, List.range_succ, List.map_append, hold, List.map_singleton,
          Function.update_self, List.append_assoc, List.singleton_append]

/-- A component that is too long ends the walk. -/
theorem copyPart_long (name : List UInt8) (q : Part) {p : ℕ} (hp : p ≤ MAX_NAME_LEN)
    (hlong : MAX_NAME_LEN < p + (headPart name).length) : copyPart name q p = .tooLong := by
  induction name generalizing q p with
  | nil => exact absurd hlong (by simpa [headPart] using hp)
  | cons c name ih =>
    have hc : c ≠ slash := fun hc => by
      rw [hc, (headPart_slash name).1, List.length_nil] at hlong
      omega
    rw [(headPart_char hc name).1, List.length_cons] at hlong
    rw [copyPart, if_pos hc]
    by_cases hend : p ≥ MAX_NAME_LEN
    · rw [if_pos hend]
    · rw [if_neg hend, store, if_pos (by rw [MAX_NAME_LEN] at hend; omega)]
      exact ih _ (by omega) (by omega)

/-- The string that ends where a `'\0'` has been stored. -/
theorem string_eq {comp : List UInt8} (hlen : comp.length ≤ MAX_NAME_LEN) (h0 : 0 ∉ comp)
    (hmap : (List.range comp.length).map q = comp) :
    store q comp.length 0 = some (Function.update q comp.length 0) ∧
      string (Function.update q comp.length 0) = comp := by
  rw [MAX_NAME_LEN] at hlen
  refine ⟨if_pos (by omega), ?_⟩
  have hrange : List.range 256 = List.range comp.length ++
      comp.length :: (List.range (255 - comp.length)).map (comp.length + 1 + ·) := by
    rw [show 256 = comp.length + 1 + (255 - comp.length) by omega, List.range_add, List.range_succ,
      List.append_assoc, List.singleton_append]
  have hold : (List.range comp.length).map (Function.update q comp.length 0) = comp := by
    rw [← hmap, List.length_map, List.length_range]
    refine List.map_congr_left fun i hi => Function.update_of_ne ?_ _ _
    exact Nat.ne_of_lt (List.mem_range.mp hi)
  rw [string, hrange, List.map_append, hold, List.takeWhile_append_of_pos, List.map_cons,
    Function.update_self]
  · simp
  · intro c hc
    exact decide_eq_true fun hc0 => h0 (hc0 ▸ hc)

end Loops

/-! ### The walk -/

section Walk

variable {path name : List UInt8} {flag : ℕ} {root pwd : ι} {part : Part}

/-- **A turn of the outer loop**: the component is in the buffer, and is looked up, unless
it is the last and only its parent is wanted. -/
theorem nameiLoop_turn (fuel flag : ℕ) (q : Part) (parent : ι)
    (hlen : (headPart name).length ≤ MAX_NAME_LEN) (hnul : 0 ∉ name) (hne : name ≠ []) :
    ∃ q', string q' = headPart name ∧ nameiLoop o flag (fuel + 1) name q parent =
      if skipSlashes (tailPart name) = [] ∧ lookupParent flag then
        pure (.returned (.inode parent))
      else lookPart o parent q' fun i =>
        nameiLoop o flag fuel (skipSlashes (tailPart name)) q' i := by
  have h0 : 0 ∉ headPart name := fun hmem => hnul ((List.takeWhile_sublist _).subset hmem)
  obtain ⟨q1, hcopy, hmap⟩ := copyPart_eq name q (p := 0) (by rwa [Nat.zero_add])
  rw [Nat.zero_add] at hcopy hmap
  obtain ⟨hstore, hstring⟩ := string_eq hlen h0 hmap
  refine ⟨_, hstring, ?_⟩
  rcases name with _ | ⟨c, name⟩
  · exact absurd rfl hne
  · simp only [nameiLoop, hcopy, hstore]

theorem length_tail_lt (hne : name ≠ []) (hhead : name.head? ≠ some slash) :
    (skipSlashes (tailPart name)).length < name.length := by
  have hskip : (skipSlashes (tailPart name)).length ≤ (tailPart name).length :=
    (List.dropWhile_sublist _).length_le
  have hpos := List.length_pos_iff.mpr (headPart_ne_nil hne hhead)
  have hsplit := congrArg List.length
    (List.takeWhile_append_dropWhile (p := fun c => decide (c ≠ slash)) (l := name))
  rw [List.length_append] at hsplit
  rw [headPart] at hpos
  rw [tailPart] at hskip ⊢
  omega

/-- The end of `namei` for a component that is missing. -/
def createIn (parent : ι) (name : List UInt8) : m (Ended ι) := do
  let made ← o.mknod parent name
  o.freeInode parent
  match made with
  | .err n => pure (.found (.err n))
  | .null => pure .fault
  | .inode i => do
    if (← o.iwrite i) ≠ 0 then do
      o.freeInode i
      pure (.found (.err (- EIO)))
    else pure (.found (.inode i))

/-- What follows a lookup that has found no inode. -/
def stopAt (flag : ℕ) (parent : ι) (name : List UInt8) : Found ι → m (Ended ι)
  | .err n =>
    if n = -ENOENT ∧ lookupCreate flag then createIn o parent name
    else pure (.found (.err n))
  | f => pure (.found f)

theorem stopAt_err (flag : ℕ) (parent : ι) (name : List UInt8) (n : ℤ) :
    stopAt o flag parent name (.err n) =
      if n = -ENOENT ∧ lookupCreate flag then createIn o parent name
      else pure (.found (.err n)) := rfl

/-- **The walk**: one component after another. -/
def walkComps (flag : ℕ) : List (List UInt8) → ι → m (Ended ι)
  | [], parent => pure (.found (.inode parent))
  | name :: comps, parent =>
    if MAX_NAME_LEN < name.length then pure (.found (.err (-ENAMETOOLONG)))
    else if comps = [] ∧ lookupParent flag then pure (.found (.inode parent))
    else do
      match ← o.iget name parent with
      | .inode i => do
        o.freeInode parent
        walkComps flag comps i
      | f => stopAt o flag parent name f

theorem nameiLoop_walk [LawfulMonad m] {fuel : ℕ} (q : Part) (parent : ι)
    (hfuel : name.length ≤ fuel) (h0 : 0 ∉ name) (hhead : name.head? ≠ some slash) :
    (nameiLoop o flag fuel name q parent >>= nameiEnd o flag) =
      walkComps o flag (components name) parent := by
  have hnil : ∀ fuel q parent, (nameiLoop o flag fuel [] q parent >>= nameiEnd o flag) =
      walkComps o flag (components []) parent := fun fuel q parent => by
    rw [nameiLoop, pure_bind]
    rfl
  induction fuel generalizing name q parent with
  | zero =>
    obtain rfl := List.length_eq_zero_iff.mp (Nat.le_zero.mp hfuel)
    exact hnil 0 q parent
  | succ fuel ih =>
    by_cases hne : name = []
    · subst hne
      exact hnil (fuel + 1) q parent
    rw [components_eq (headPart_ne_nil hne hhead), walkComps]
    by_cases hlen : (headPart name).length ≤ MAX_NAME_LEN
    · obtain ⟨q', hstring, hturn⟩ := nameiLoop_turn o fuel flag q parent hlen h0 hne
      have hlt := length_tail_lt hne hhead
      have hnul : 0 ∉ skipSlashes (tailPart name) := fun hmem =>
        h0 ((List.dropWhile_sublist _).subset ((List.dropWhile_sublist _).subset hmem))
      have hlast : (components (skipSlashes (tailPart name)) = [] ∧ lookupParent flag = true) ↔
          (skipSlashes (tailPart name) = [] ∧ lookupParent flag = true) := by
        rw [components_skipSlashes, skipSlashes_eq_nil]
      rw [hturn, if_neg (Nat.not_lt.mpr hlen)]
      by_cases hend : skipSlashes (tailPart name) = [] ∧ lookupParent flag = true
      · rw [if_pos hend, if_pos (hlast.mpr hend), pure_bind]
        rfl
      · rw [if_neg hend, if_neg (mt hlast.mp hend), lookPart, bind_assoc, hstring]
        refine bind_congr fun f => ?_
        cases f with
        | inode i =>
          rw [bind_assoc]
          exact bind_congr fun _ => ih q' i (by omega) hnul (skipSlashes_head _)
        | null =>
          rw [pure_bind]
          rfl
        | err n =>
          rw [pure_bind, ← hstring]
          rfl
    · rw [if_pos (Nat.lt_of_not_le hlen)]
      rcases name with _ | ⟨c, name⟩
      · exact absurd rfl hne
      · rw [nameiLoop, copyPart_long _ q (Nat.zero_le _) (by omega), pure_bind]
        rfl

/-- **`namei` is the walk**, for any flags and any path. -/
theorem namei_walk [LawfulMonad m] (root pwd : ι) (part : Part) (h0 : 0 ∉ path) :
    namei o root pwd part path flag =
      walkComps o flag (components path) (startInode root pwd path) := by
  unfold namei
  by_cases hslash : path.head? = some slash
  · rw [if_pos hslash, ← components_skipSlashes]
    exact nameiLoop_walk o part _ le_rfl
      (fun hmem => h0 ((List.dropWhile_sublist _).subset hmem)) (skipSlashes_head path)
  · rw [if_neg hslash]
    exact nameiLoop_walk o part _ le_rfl h0 hslash

/-! ### The walk as a fold -/

theorem foldlM_failed [LawfulMonad m] {f : Found ι} (hf : ∀ i, f ≠ .inode i)
    (comps : List (List UInt8)) : comps.foldlM (lookIn o) f = pure f := by
  have hlook : ∀ c, lookIn o f c = pure f := by
    intro c
    cases f with
    | inode i => exact absurd rfl (hf i)
    | null => rfl
    | err n => rfl
  induction comps with
  | nil => rfl
  | cons c comps ih => rw [List.foldlM_cons, hlook, pure_bind, ih]

/-- What follows a lookup when nothing is to be created. -/
theorem stopAt_found (hcreate : lookupCreate flag = false) (parent : ι) (name : List UInt8)
    (f : Found ι) : stopAt o flag parent name f = pure (.found f) := by
  cases f with
  | inode i => rfl
  | null => rfl
  | err n =>
    rw [stopAt_err, hcreate]
    exact if_neg fun h => Bool.false_ne_true h.2

theorem wanted_nil : wanted flag [] = [] := by
  rw [wanted]
  split <;> rfl

theorem wanted_cons {c : List UInt8} {comps : List (List UInt8)}
    (h : ¬(comps = [] ∧ lookupParent flag = true)) :
    wanted flag (c :: comps) = c :: wanted flag comps := by
  rw [wanted, wanted]
  by_cases hparent : lookupParent flag = true
  · rw [if_pos hparent, if_pos hparent, List.dropLast_cons_of_ne_nil fun hnil => h ⟨hnil, hparent⟩]
  · rw [if_neg hparent, if_neg hparent]

/-- **The walk is the fold**, if no component is too long. -/
theorem walkComps_fold [LawfulMonad m] (hcreate : lookupCreate flag = false)
    {comps : List (List UInt8)} (hle : ∀ c ∈ comps, c.length ≤ MAX_NAME_LEN) (start : ι) :
    walkComps o flag comps start =
      fold o (wanted flag comps) start >>= fun f => pure (.found f) := by
  induction comps generalizing start with
  | nil =>
    rw [wanted_nil, fold, List.foldlM_nil, pure_bind]
    rfl
  | cons name comps ih =>
    obtain ⟨hname, hcomps⟩ := List.forall_mem_cons.mp hle
    rw [walkComps, if_neg (Nat.not_lt.mpr hname)]
    by_cases hlast : comps = [] ∧ lookupParent flag = true
    · have hwanted : wanted flag [name] = [] := if_pos hlast.2
      rw [if_pos hlast, hlast.1, hwanted, fold, List.foldlM_nil, pure_bind]
    · rw [if_neg hlast, wanted_cons hlast, fold, List.foldlM_cons, lookIn]
      simp only [bind_assoc]
      refine bind_congr fun f => ?_
      cases f with
      | inode i =>
        simp only [bind_assoc, pure_bind]
        exact bind_congr fun _ => ih hcomps i
      | null =>
        rw [pure_bind, foldlM_failed o (fun i h => by cases h), pure_bind]
        exact stopAt_found o hcreate start name _
      | err n =>
        rw [pure_bind, foldlM_failed o (fun i h => by cases h), pure_bind]
        exact stopAt_found o hcreate start name _

/-- The paths that the theorems are about: strings without `'\0'`, with components that
are not too long. -/
structure Short (path : List UInt8) : Prop where
  noNul : 0 ∉ path
  le : ∀ c ∈ components path, c.length ≤ MAX_NAME_LEN

/-- **`namei` is the fold of `iget`** over the components, or all but the last. -/
theorem namei_fold [LawfulMonad m] (hcreate : lookupCreate flag = false) (root pwd : ι)
    (part : Part) (hshort : Short path) :
    namei o root pwd part path flag =
      fold o (wanted flag (components path)) (startInode root pwd path) >>=
        fun f => pure (.found f) := by
  rw [namei_walk o root pwd part hshort.noNul, walkComps_fold o hcreate hshort.le]

/-- **Path resolution is the component-wise fold.** `namei` folds `iget` over the components,
or with `LOOKUP_PARENT` over all but the last, from the root or the current directory, and
stores only into the buffer; so only the components and the first character of a path
matter. -/
theorem namei_eq_fold [LawfulMonad m] (root pwd : ι) (part : Part) (hshort : Short path) :
    namei o root pwd part path 0 =
        fold o (components path) (startInode root pwd path) >>= (fun f => pure (.found f)) ∧
      namei o root pwd part path 1 =
        fold o (components path).dropLast (startInode root pwd path) >>=
          (fun f => pure (.found f)) ∧
      ∀ path' part', Short path' → components path' = components path →
        (path'.head? = some slash ↔ path.head? = some slash) →
        namei o root pwd part' path' 0 = namei o root pwd part path 0 ∧
          namei o root pwd part' path' 1 = namei o root pwd part path 1 := by
  refine ⟨namei_fold o rfl root pwd part hshort, namei_fold o rfl root pwd part hshort, ?_⟩
  intro path' part' hshort' hcomps hhead
  have hstart : startInode root pwd path' = startInode root pwd path := by
    rw [startInode, startInode]
    by_cases h : path.head? = some slash
    · rw [if_pos h, if_pos (hhead.mpr h)]
    · rw [if_neg h, if_neg (mt hhead.mp h)]
  constructor <;>
    rw [namei_fold o rfl root pwd part hshort, namei_fold o rfl root pwd part' hshort', hcomps,
      hstart]

/-- A directory 0 with a directory `a` and that with a file `b`. -/
def smallTree : Ops Id ℕ where
  iget name dir :=
    if dir = 0 ∧ name = [97] then .inode 1
    else if dir = 1 ∧ name = [98] then .inode 2
    else .err (-ENOENT)
  freeInode _ := ()
  mknod _ _ := .null
  iwrite _ := 0

/-- The path `"//a///b/"` leads to `b`, and its parent is `a`. -/
theorem namei_eq_fold_smallTree :
    namei smallTree 0 5 (fun _ => 0) [47, 47, 97, 47, 47, 47, 98, 47] 0 =
        .found (.inode 2) ∧
      namei smallTree 0 5 (fun _ => 0) [47, 47, 97, 47, 47, 47, 98, 47] 1 =
        .found (.inode 1) := by
  obtain ⟨hall, hparent, -⟩ := namei_eq_fold smallTree 0 5 (fun _ => 0)
    (show Short [47, 47, 97, 47, 47, 47, 98, 47] from ⟨by decide, by decide⟩)
  exact ⟨hall.trans rfl, hparent.trans rfl⟩

end Walk

end Thunix.Fs.Lookup
