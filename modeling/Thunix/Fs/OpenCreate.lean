import Thunix.Fs.ParentDir
import Thunix.Lib.Logged

/-!
# Opening with create

Which components `namei` looks up, where, and what it makes. The calls of the operations are
logged with what `IS_DIR` says of their inode at that moment (`Thunix.Fs.Lookup.logged`), which
changes nothing else (`Thunix.Fs.Lookup.runs_namei_logged`).

For any flags and any path `namei` is a walk over the components
(`Thunix.Fs.Lookup.namei_walk`), which does not ask whether what it has found is a directory,
and takes any component that is missing for the last one. So a component is looked up in
directories only and nothing but the last is made exactly on paths that are
`Thunix.Fs.Lookup.Passable`: no inode in which one is looked up is something else, and with
`LOOKUP_CREATE` none before the last is missing (`Thunix.Fs.Lookup.opensLast_iff`).
-/

namespace Thunix.Fs.Lookup

open Logged

/-! ### Calls -/

/-- A call of an operation, with what `IS_DIR` says of the inode looked in. -/
inductive Call (ι : Type)
  | iget (name : List UInt8) (dir : ι) (isDir : Bool)
  | mknod (dir : ι) (name : List UInt8)
  | iwrite (i : ι)

section Calls

variable {σ ι : Type} (o : Ops (StateM σ) ι) (isDir : σ → ι → Bool)

/-- The operations with their calls logged. -/
def logged : Ops (Prog σ (Call ι)) ι where
  iget name dir t := visit (.iget name dir (isDir t.1 dir)) (o.iget name dir) t
  freeInode dir := quiet (o.freeInode dir)
  mknod dir name := visit (.mknod dir name) (o.mknod dir name)
  iwrite i := visit (.iwrite i) (o.iwrite i)

variable {o isDir} {W : Call ι → Prop} {flag : ℕ} {comps : List (List UInt8)} {dir i : ι}
  {s s' : σ} {name : List UInt8}

theorem runs_iget (hW : W (.iget name dir (isDir s dir))) :
    Runs W ((logged o isDir).iget name dir) s (o.iget name dir s).1 (o.iget name dir s).2 :=
  ⟨[.iget name dir (isDir s dir)], fun _ => rfl, by simpa using hW⟩

theorem runs_createIn (hmknod : W (.mknod dir name)) (hiwrite : ∀ i, W (.iwrite i)) :
    Runs W (createIn (logged o isDir) dir name) s (createIn o dir name s).1
      (createIn o dir name s).2 := by
  have hmade : Runs W ((logged o isDir).mknod dir name) s (o.mknod dir name s).1
      (o.mknod dir name s).2 := .visit _ hmknod
  have hfree : ∀ i s, Runs W ((logged o isDir).freeInode i) s () (o.freeInode i s).2 :=
    fun i s => .quiet _
  have hwrite : ∀ i s, Runs W ((logged o isDir).iwrite i) s (o.iwrite i s).1 (o.iwrite i s).2 :=
    fun i s => .visit _ (hiwrite i)
  unfold createIn
  rw [run_bind, run_bind]
  refine hmade.bind ((hfree dir _).bind ?_)
  cases (o.mknod dir name s).1 with
  | err n => exact .pure _
  | null => exact .pure _
  | inode i =>
    dsimp only
    rw [run_bind]
    refine (hwrite i _).bind ?_
    split
    · exact (hfree i _).bind (.pure _)
    · exact .pure _

theorem runs_stopAt {f : Found ι} (hcreate : f = .err (-ENOENT) → lookupCreate flag = true →
      W (.mknod dir name) ∧ ∀ i, W (.iwrite i)) :
    Runs W (stopAt (logged o isDir) flag dir name f) s (stopAt o flag dir name f s).1
      (stopAt o flag dir name f s).2 := by
  cases f with
  | inode i => exact .pure _
  | null => exact .pure _
  | err n =>
    rw [stopAt_err, stopAt_err]
    by_cases h : n = -ENOENT ∧ lookupCreate flag = true
    · obtain ⟨hmknod, hiwrite⟩ := hcreate (by rw [h.1]) h.2
      rw [if_pos h, if_pos h]
      exact runs_createIn hmknod hiwrite
    · rw [if_neg h, if_neg h]
      exact .pure _

/-- **What a walk calls**: it looks each component up in the inode before, and makes the one that
is missing. The calls that are allowed may depend on where the walk is. -/
theorem runs_walkComps (At : List (List UInt8) → ι → σ → Call ι → Prop)
    (higet : ∀ name comps dir s, (lookupParent flag = true → comps ≠ []) →
      name.length ≤ MAX_NAME_LEN → At (name :: comps) dir s (.iget name dir (isDir s dir)))
    (hmake : ∀ name comps dir s, (lookupParent flag = true → comps ≠ []) →
      name.length ≤ MAX_NAME_LEN → (o.iget name dir s).1 = .err (-ENOENT) →
      lookupCreate flag = true → At (name :: comps) dir s (.mknod dir name) ∧
        ∀ i, At (name :: comps) dir s (.iwrite i))
    (hnext : ∀ name comps dir i s s₁ c, (lookupParent flag = true → comps ≠ []) →
      name.length ≤ MAX_NAME_LEN → o.iget name dir s = (.inode i, s₁) →
      At comps i (o.freeInode dir s₁).2 c → At (name :: comps) dir s c) :
    Runs (At comps dir s) (walkComps (logged o isDir) flag comps dir) s
      (walkComps o flag comps dir s).1 (walkComps o flag comps dir s).2 := by
  induction comps generalizing dir s with
  | nil => exact .pure _
  | cons name comps ih =>
    unfold walkComps
    split
    · exact .pure _
    next hlen =>
    split
    · exact .pure _
    next hlast =>
    have hwanted : lookupParent flag = true → comps ≠ [] := fun hp hnil => hlast ⟨hnil, hp⟩
    have hle := Nat.le_of_not_lt hlen
    rw [run_bind]
    refine (runs_iget (higet name comps dir s hwanted hle)).bind ?_
    have hmake' := hmake name comps dir s hwanted hle
    rcases hget : o.iget name dir s with ⟨f, s₁⟩
    rw [hget] at hmake'
    cases f with
    | inode i =>
      dsimp only
      rw [run_bind]
      refine (Runs.quiet (o.freeInode dir)).bind ?_
      exact (ih).mono fun c => hnext name comps dir i s s₁ c hwanted hle hget
    | null => exact runs_stopAt fun h => by cases h
    | err n => exact runs_stopAt fun h hcreate => hmake' h hcreate

end Calls

/-! ### What is promised -/

section Promise

variable {σ ι : Type} (o : Ops (StateM σ) ι) (isDir : σ → ι → Bool) (root pwd : ι) (part : Part)
  (path : List UInt8) (flag : ℕ) (s : σ)

/-- The calls of `namei`. -/
def nameiCalls : List (Call ι) := touched (namei (logged o isDir) root pwd part path flag) s

/-- What `namei` returns. -/
def nameiResult : Ended ι := (namei o root pwd part path flag s).1

/-- Nothing has been made or written. -/
def MakesNothing (calls : List (Call ι)) : Prop :=
  ∀ c ∈ calls, ∃ name dir b, c = .iget name dir b

/-- The components lead from an inode to another, all of them directories. -/
inductive Through (o : Ops (StateM σ) ι) (isDir : σ → ι → Bool) :
    List (List UInt8) → ι → σ → ι → σ → Prop
  | here {i : ι} {s : σ} (dir : isDir s i = true) : Through o isDir [] i s i s
  | into {name : List UInt8} {comps : List (List UInt8)} {dir i j : ι} {s s₁ s' : σ}
    (isdir : isDir s dir = true) (get : o.iget name dir s = (.inode i, s₁))
    (rest : Through o isDir comps i (o.freeInode dir s₁).2 j s') :
    Through o isDir (name :: comps) dir s j s'

/-- The walk comes to a component: the ones before it lead to `dir`, and none of them is too
long. The component is looked up there, unless it is the last and only its parent is wanted. -/
structure ComesTo (comps : List (List UInt8)) (name : List UInt8) (rest : List (List UInt8))
    (dir : ι) (s' : σ) : Prop where
  eq : components path = comps ++ name :: rest
  short : ∀ c ∈ comps ++ [name], c.length ≤ MAX_NAME_LEN
  leads : Leads o comps (startInode root pwd path) s dir s'
  wanted : lookupParent flag = true → rest ≠ []

/-- **What is promised of `namei`** in a state. -/
structure OpensLast : Prop where
  /-- A component is looked up in directories only. -/
  looks : ∀ name dir b, .iget name dir b ∈ nameiCalls o isDir root pwd part path flag s → b = true
  /-- When one is to be looked up in something else the result is an error, and nothing is
  made. -/
  notDir : ∀ comps name rest dir s', ComesTo o root pwd path flag s comps name rest dir s' →
    isDir s' dir = false → (∃ n, nameiResult o root pwd part path flag s = .found (.err n)) ∧
      MakesNothing (nameiCalls o isDir root pwd part path flag s)
  /-- What is made has the name of the last component, which is missing in a directory that the
  others lead to through directories. -/
  makes : ∀ dir name, .mknod dir name ∈ nameiCalls o isDir root pwd part path flag s →
    ∃ comps s', components path = comps ++ [name] ∧
      Through o isDir comps (startInode root pwd path) s dir s' ∧
      (o.iget name dir s').1 = .err (-ENOENT)
  /-- When another is missing the result says so, and nothing is made. -/
  missing : ∀ comps name rest dir s', ComesTo o root pwd path flag s comps name rest dir s' →
    rest ≠ [] → (o.iget name dir s').1 = .err (-ENOENT) →
      nameiResult o root pwd part path flag s = .found (.err (-ENOENT)) ∧
        MakesNothing (nameiCalls o isDir root pwd part path flag s)

/-- **The condition**: along the walk each component is looked up in a directory, and with
`LOOKUP_CREATE` none is missing but the last. -/
def Passable : List (List UInt8) → ι → σ → Prop
  | [], _, _ => True
  | name :: comps, dir, s =>
    name.length ≤ MAX_NAME_LEN → (lookupParent flag = true → comps ≠ []) →
      isDir s dir = true ∧
      (∀ i s₁, o.iget name dir s = (.inode i, s₁) → Passable comps i (o.freeInode dir s₁).2) ∧
      ((o.iget name dir s).1 = .err (-ENOENT) → lookupCreate flag = true → comps = [])

end Promise

/-! ### The calls on a path -/

section Paths

variable {σ ι : Type} {o : Ops (StateM σ) ι} {isDir : σ → ι → Bool} {root pwd dir i : ι}
  {part : Part} {path name : List UInt8} {comps rest : List (List UInt8)} {flag : ℕ} {s s' : σ}

/-- The log is the only difference. -/
theorem runs_namei_logged (h0 : 0 ∉ path) :
    Runs (fun _ => True) (namei (logged o isDir) root pwd part path flag) s
      (namei o root pwd part path flag s).1 (namei o root pwd part path flag s).2 := by
  rw [namei_walk _ root pwd part h0, namei_walk _ root pwd part h0]
  exact runs_walkComps (fun _ _ _ _ => True) (fun _ _ _ _ _ _ => trivial)
    (fun _ _ _ _ _ _ _ _ => ⟨trivial, fun _ => trivial⟩) fun _ _ _ _ _ _ _ _ _ _ _ => trivial

theorem nameiCalls_eq (h0 : 0 ∉ path) : nameiCalls o isDir root pwd part path flag s =
    touched (walkComps (logged o isDir) flag (components path) (startInode root pwd path)) s := by
  rw [nameiCalls, namei_walk _ root pwd part h0]

theorem nameiResult_eq (h0 : 0 ∉ path) : nameiResult o root pwd part path flag s =
    (walkComps o flag (components path) (startInode root pwd path) s).1 := by
  rw [nameiResult, namei_walk _ root pwd part h0]

/-- Without `LOOKUP_CREATE` there are lookups only. -/
theorem makesNothing (hcreate : lookupCreate flag = false) :
    MakesNothing (touched (walkComps (logged o isDir) flag comps dir) s) := by
  refine (runs_walkComps (fun _ _ _ c => ∃ name dir b, c = .iget name dir b)
    (fun _ _ _ _ _ _ => ⟨_, _, _, rfl⟩) (fun _ _ _ _ _ _ _ h => ?_)
    fun _ _ _ _ _ _ _ _ _ _ h => h).touched
  rw [hcreate] at h
  cases h

theorem runs_walkComps_any (flag : ℕ) (comps : List (List UInt8)) (dir : ι) (s : σ) :
    Runs (fun _ => True) (walkComps (logged o isDir) flag comps dir) s
      (walkComps o flag comps dir s).1 (walkComps o flag comps dir s).2 :=
  runs_walkComps (fun _ _ _ _ => True) (fun _ _ _ _ _ _ => trivial)
    (fun _ _ _ _ _ _ _ _ => ⟨trivial, fun _ => trivial⟩) fun _ _ _ _ _ _ _ _ _ _ _ => trivial

theorem adds_walkComps (comps : List (List UInt8)) (dir : ι) :
    Adds (walkComps (logged o isDir) flag comps dir) :=
  fun s => ⟨_, _, runs_walkComps_any flag comps dir s⟩

theorem adds_stopAt (dir : ι) (name : List UInt8) (f : Found ι) :
    Adds (stopAt (logged o isDir) flag dir name f) :=
  fun _ => ⟨_, _, runs_stopAt fun _ _ => ⟨trivial, fun _ => trivial⟩⟩

section Step

variable {s₁ : σ} (hle : name.length ≤ MAX_NAME_LEN)
  (hwanted : lookupParent flag = true → comps ≠ [])

include hle hwanted

/-- An inode is found: the calls after it are those of the rest of the walk. -/
theorem touched_walk_inode (hget : o.iget name dir s = (.inode i, s₁)) :
    touched (walkComps (logged o isDir) flag (name :: comps) dir) s =
      .iget name dir (isDir s dir) ::
        touched (walkComps (logged o isDir) flag comps i) (o.freeInode dir s₁).2 := by
  have hrest : Runs (fun _ => True) (walkComps (logged o isDir) flag comps i)
      (o.freeInode dir s₁).2 _ _ := runs_walkComps_any flag comps i _
  rw [touched, walkComps, if_neg (Nat.not_lt.mpr hle), if_neg fun h => hwanted h.2 h.1, run_bind]
  have hrun : (logged o isDir).iget name dir (s, []) =
      (.inode i, (s₁, [.iget name dir (isDir s dir)])) := by
    change (_, (_, [] ++ [Call.iget name dir (isDir s dir)])) = _
    rw [hget]
    rfl
  rw [hrun]
  exact congrArg (fun r => r.2.2) (hrest.apply [.iget name dir (isDir s dir)])

/-- A component is looked up. -/
theorem iget_mem_touched : .iget name dir (isDir s dir) ∈
    touched (walkComps (logged o isDir) flag (name :: comps) dir) s := by
  rw [walkComps, if_neg (Nat.not_lt.mpr hle), if_neg fun h => hwanted h.2 h.1]
  refine Adds.mem_touched_bind (fun s => ⟨_, _, runs_iget trivial⟩) (fun f => ?_)
    List.mem_cons_self
  cases f with
  | inode i => exact Adds.bind (fun s => ⟨_, _, .quiet _⟩) fun _ => adds_walkComps comps i
  | null => exact adds_stopAt dir name _
  | err n => exact adds_stopAt dir name _

/-- A component that is missing is made. -/
theorem mknod_mem_touched (hget : (o.iget name dir s).1 = .err (-ENOENT))
    (hcreate : lookupCreate flag = true) :
    .mknod dir name ∈ touched (walkComps (logged o isDir) flag (name :: comps) dir) s := by
  have hmade : .mknod dir name ∈
      touched (stopAt (logged o isDir) flag dir name (.err (-ENOENT))) (o.iget name dir s).2 := by
    rw [stopAt_err, if_pos ⟨rfl, hcreate⟩, createIn]
    refine Adds.mem_touched_bind (Adds.visit _ _) (fun made => ?_) List.mem_cons_self
    refine Adds.bind (fun s => ⟨_, _, .quiet _⟩) fun _ => ?_
    cases made with
    | err n => exact Adds.pure _
    | null => exact Adds.pure _
    | inode i =>
      refine Adds.bind (Adds.visit _ _) fun n => Adds.ite ?_ (Adds.pure _)
      exact Adds.bind (fun s => ⟨_, _, .quiet _⟩) fun _ => Adds.pure _
  have hlook : Runs (fun _ => True) ((logged o isDir).iget name dir) s (.err (-ENOENT))
      (o.iget name dir s).2 := by
    rw [← hget]
    exact runs_iget trivial
  rw [walkComps, if_neg (Nat.not_lt.mpr hle), if_neg fun h => hwanted h.2 h.1]
  exact hlook.mem_touched_bind (adds_stopAt dir name _) hmade

end Step

/-! ### Passable paths -/

/-- The rest of a passable path is passable from where its first components lead. -/
theorem passable_leads {pre : List (List UInt8)} {start : ι}
    (hleads : Leads o pre start s dir s') (hshort : ∀ c ∈ pre, c.length ≤ MAX_NAME_LEN)
    (h : Passable o isDir flag (pre ++ name :: rest) start s) :
    Passable o isDir flag (name :: rest) dir s' := by
  induction hleads with
  | here i s => exact h
  | into get _ ih =>
    obtain ⟨hfirst, hpre⟩ := List.forall_mem_cons.mp hshort
    obtain ⟨-, hnext, -⟩ := h hfirst fun _ => by simp
    exact ih hpre (hnext _ _ get)

/-- Without `LOOKUP_CREATE` a component that is missing is reported. -/
theorem walkComps_missing (hcreate : lookupCreate flag = false) {pre : List (List UInt8)}
    {start : ι} (hleads : Leads o pre start s dir s')
    (hshort : ∀ c ∈ pre ++ [name], c.length ≤ MAX_NAME_LEN)
    (hwanted : lookupParent flag = true → rest ≠ [])
    (hmissing : (o.iget name dir s').1 = .err (-ENOENT)) :
    (walkComps o flag (pre ++ name :: rest) start s).1 = .found (.err (-ENOENT)) := by
  induction hleads with
  | here i s =>
    rw [List.nil_append, walkComps_failed (hshort name List.mem_cons_self) hwanted
      (fun i h => by cases h) (Prod.ext_iff.mpr ⟨hmissing, rfl⟩), stopAt_found o hcreate]
    rfl
  | into get _ ih =>
    obtain ⟨hfirst, hpre⟩ := List.forall_mem_cons.mp hshort
    rw [List.cons_append, walkComps_inode hfirst (fun _ => by simp) get]
    exact ih hpre hmissing

/-- What a passable path allows to be called. -/
def Allowed (o : Ops (StateM σ) ι) (isDir : σ → ι → Bool) (comps : List (List UInt8)) (start : ι)
    (s : σ) (c : Call ι) : Prop :=
  (∀ name dir b, c = .iget name dir b → b = true) ∧
    ∀ dir name, c = .mknod dir name → ∃ pre s', comps = pre ++ [name] ∧
      Through o isDir pre start s dir s' ∧ (o.iget name dir s').1 = .err (-ENOENT)

theorem allowed_of_passable (h : Passable o isDir flag comps dir s) :
    ∀ c ∈ touched (walkComps (logged o isDir) flag comps dir) s, Allowed o isDir comps dir s c := by
  have hruns : Runs (fun c => Passable o isDir flag comps dir s → Allowed o isDir comps dir s c)
      (walkComps (logged o isDir) flag comps dir) s (walkComps o flag comps dir s).1
      (walkComps o flag comps dir s).2 := by
    refine runs_walkComps
      (fun comps dir s c => Passable o isDir flag comps dir s → Allowed o isDir comps dir s c)
      ?_ ?_ ?_
    · intro name comps dir s hwanted hle hpass
      refine ⟨fun _ _ _ h => ?_, fun _ _ h => by cases h⟩
      cases h
      exact (hpass hle hwanted).1
    · intro name comps dir s hwanted hle hmissing hcreate
      refine ⟨fun hpass => ⟨fun _ _ _ h => ?_, fun _ _ h => ?_⟩,
        fun i _ => ⟨fun _ _ _ h => ?_, fun _ _ h => ?_⟩⟩
      · cases h
      · cases h
        obtain ⟨hdir, -, hlast⟩ := hpass hle hwanted
        obtain rfl := hlast hmissing hcreate
        exact ⟨[], s, rfl, .here hdir, hmissing⟩
      · cases h
      · cases h
    · intro name comps dir i s s₁ c hwanted hle hget hnext hpass
      obtain ⟨hdir, hrest, -⟩ := hpass hle hwanted
      obtain ⟨hlooks, hmakes⟩ := hnext (hrest i s₁ hget)
      refine ⟨hlooks, fun d n hc => ?_⟩
      obtain ⟨pre, s', rfl, hthrough, hmissing⟩ := hmakes d n hc
      exact ⟨name :: pre, s', rfl, .into hdir hget hthrough, hmissing⟩
  exact fun c hc => hruns.touched c hc h

/-- A walk that looks in directories only and makes nothing in place of another component is
passable. -/
theorem passable_of_calls
    (hlooks : ∀ name d b,
      .iget name d b ∈ touched (walkComps (logged o isDir) flag comps dir) s → b = true)
    (hmissing : ∀ pre name rest d s', comps = pre ++ name :: rest →
      (∀ c ∈ pre ++ [name], c.length ≤ MAX_NAME_LEN) → Leads o pre dir s d s' →
      rest ≠ [] → (o.iget name d s').1 = .err (-ENOENT) →
        MakesNothing (touched (walkComps (logged o isDir) flag comps dir) s)) :
    Passable o isDir flag comps dir s := by
  induction comps generalizing dir s with
  | nil => trivial
  | cons name comps ih =>
    intro hle hwanted
    refine ⟨hlooks name dir _ (iget_mem_touched hle hwanted), fun i s₁ hget => ?_,
      fun hget hcreate => ?_⟩
    · rw [touched_walk_inode hle hwanted hget] at hlooks hmissing
      refine ih (fun n d b h => hlooks n d b (List.mem_cons_of_mem _ h)) ?_
      intro pre n rest d s' hcomps hshort hleads hne hget'
      have hnone := hmissing (name :: pre) n rest d s' (by rw [hcomps]; rfl)
        (List.forall_mem_cons.mpr ⟨hle, hshort⟩) (.into hget hleads) hne hget'
      exact (List.forall_mem_cons.mp hnone).2
    · by_contra hne
      have hnone := hmissing [] name comps dir s rfl (by simpa using hle) (.here dir s) hne hget
      obtain ⟨_, _, _, h⟩ := hnone _ (mknod_mem_touched hle hwanted hget hcreate)
      cases h

/-- **A component is looked up in directories only and nothing but the last is made** exactly on
passable paths. -/
theorem opensLast_iff (h0 : 0 ∉ path) :
    OpensLast o isDir root pwd part path flag s ↔
      Passable o isDir flag (components path) (startInode root pwd path) s := by
  constructor
  · rintro ⟨hlooks, -, -, hmissing⟩
    rw [nameiCalls_eq h0] at hlooks hmissing
    exact passable_of_calls hlooks fun pre name rest d s' hcomps hshort hleads hne hget =>
      (hmissing pre name rest d s' ⟨hcomps, hshort, hleads, fun _ => hne⟩ hne hget).2
  · intro hpass
    have hallowed := allowed_of_passable hpass
    have hcomes : ∀ {comps name rest dir s'},
        ComesTo o root pwd path flag s comps name rest dir s' →
          isDir s' dir = true ∧ ((o.iget name dir s').1 = .err (-ENOENT) →
            lookupCreate flag = true → rest = []) := by
      intro comps name rest dir s' h
      rw [h.eq] at hpass
      obtain ⟨hpre, hname⟩ := List.forall_mem_append.mp h.short
      obtain ⟨hdir, -, hlast⟩ := passable_leads h.leads hpre hpass (hname name List.mem_cons_self)
        h.wanted
      exact ⟨hdir, hlast⟩
    refine ⟨fun name dir b h => ?_, fun comps name rest dir s' h hnot => ?_,
      fun dir name h => ?_, fun comps name rest dir s' h hne hmissing => ?_⟩
    · rw [nameiCalls_eq h0] at h
      exact (hallowed _ h).1 name dir b rfl
    · exact absurd ((hcomes h).1.symm.trans hnot) Bool.noConfusion
    · rw [nameiCalls_eq h0] at h
      exact (hallowed _ h).2 dir name rfl
    · have hcreate : lookupCreate flag = false := by
        rw [← Bool.not_eq_true]
        exact fun hcreate => hne ((hcomes h).2 hmissing hcreate)
      rw [nameiResult_eq h0, nameiCalls_eq h0]
      refine ⟨?_, makesNothing hcreate⟩
      rw [h.eq]
      exact walkComps_missing hcreate h.leads h.short h.wanted hmissing

end Paths

/-! ### A small tree -/

/-- The tree `Thunix.Fs.Lookup.fileTree`, in which inode 2 can be made. -/
def createTree : Ops (StateM Unit) ℕ := { fileTree.toOps with mknod _ _ := pure (.inode 2) }

/-- The file `"/b"` can be made. -/
theorem opensLast_iff_createTree :
    OpensLast createTree (fun _ i => i == 0) 0 0 (fun _ => 0) [47, 98] 2 () := by
  refine (opensLast_iff (by decide)).mpr fun _ _ => ⟨rfl, fun i s₁ hget => ?_, fun _ _ => rfl⟩
  cases hget

/-- **A directory that is missing** is made as a file: with create, `"b/c"` makes `b`. -/
theorem not_opensLast :
    ¬∀ (σ ι : Type) (o : Ops (StateM σ) ι) (isDir : σ → ι → Bool) (root pwd : ι) (part : Part)
      (path : List UInt8) (flag : ℕ) (s : σ), 0 ∉ path →
        OpensLast o isDir root pwd part path flag s := by
  intro hall
  have h := hall Unit ℕ createTree (fun _ i => i == 0) 0 0 (fun _ => 0) [98, 47, 99] 2 ()
    (by decide)
  have hcomps : components [98, 47, 99] = [[98], [99]] := by decide
  obtain ⟨comps, -, heq, -⟩ := h.makes 0 [98] (by
    rw [nameiCalls_eq (by decide), hcomps]
    exact mknod_mem_touched (by decide) (fun _ => by decide) rfl rfl)
  have hlast := congrArg List.getLast? (hcomps.symm.trans heq)
  rw [List.getLast?_concat] at hlast
  exact absurd hlast (by decide)

/-! ### The file system -/

/-- **`namei`** of the file system. -/
theorem nameiResult_kernel (e : Env) (part : Part) (flag : ℕ) {path : List UInt8} (h0 : 0 ∉ path)
    (k : Kernel) : nameiResult (kernelOps e) k.root k.pwd part path flag k =
      .found (ofExcept (Fs.namei e path flag k).1) := by
  rw [nameiResult, namei_kernel e part flag h0, KernelM.bind_apply]
  rfl

end Thunix.Fs.Lookup
