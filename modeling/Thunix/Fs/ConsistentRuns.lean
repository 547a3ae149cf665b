import Thunix.Fs.ConsistentDisk
import Thunix.Fs.LookupKernel

/-!
# System calls on names of a consistent volume

The calls that take a path leave the volume consistent, and the files as they are but the one that
`sys_unlink` removes (`Thunix.Fs.sysRun_since`), if the volume has room for what they make and they
do not change a directory through a second object of it (`Thunix.Fs.KeepsVolume`). Where a path
leads is said by the walk along its components (`Thunix.Fs.Walk`); the object that the walk of
`namei` ends with is a new one unless it ends where it began (`Thunix.Fs.nameiWalk_sole`).
-/

namespace Thunix.Fs

open SlotMap NameTree Lookup

variable {e : Env} {I : Image} {k k₀ k₁ : Kernel} {d : Dev} {lost : Set ℕ} {c flag m n obj : ℕ}
  {base name path : List UInt8} {names : NameTable} {comps rest : List (List UInt8)} {out : Reached}

/-! ### Walks -/

/-- One component of a walk, and then the others. -/
theorem nameiWalk_components (hcomps : components path = base :: rest)
    (hlen : base.length ≤ MAX_NAME_LEN) (obj : ℕ) : nameiWalk e flag path [] obj =
      if rest = [] ∧ lookupParent flag = true then pure (.parent obj)
      else walkInto e base obj fun o =>
        nameiWalk e flag (skipSlashes (tailPart (skipSlashes path))) [] o := by
  have hhead : headPart (skipSlashes path) ≠ [] := by
    refine headPart_ne_nil (fun hnil => ?_) (skipSlashes_head path)
    rw [skipSlashes_eq_nil.mp hnil] at hcomps
    cases hcomps
  have heq := components_eq hhead
  rw [components_skipSlashes, hcomps] at heq
  obtain ⟨rfl, rfl⟩ := List.cons.inj heq
  rw [nameiWalk_skipSlashes, nameiWalk_headPart e (by simpa using hlen), List.nil_append,
    nameiWalk_tail e hhead]
  have hnil : skipSlashes (tailPart (skipSlashes path)) = [] ↔
      components (skipSlashes (tailPart (skipSlashes path))) = [] := by
    rw [components_skipSlashes]
    exact skipSlashes_eq_nil
  simp only [hnil]

/-- The characters of a component are characters of the path. -/
theorem mem_of_componentsFrom {part : List UInt8} (h : name ∈ componentsFrom path part) {c : UInt8}
    (hc : c ∈ name) : c ∈ part ++ path := by
  induction path generalizing part with
  | nil =>
    rw [componentsFrom] at h
    by_cases hpart : part = []
    · rw [if_pos hpart] at h
      cases h
    · rw [if_neg hpart] at h
      rw [List.append_nil]
      exact List.mem_singleton.mp h ▸ hc
  | cons x path ih =>
    by_cases hx : x = slash
    · subst hx
      by_cases hpart : part = []
      · subst hpart
        rw [componentsFrom_slash_nil] at h
        exact List.mem_cons_of_mem _ (ih h)
      · rw [componentsFrom_slash hpart] at h
        rcases List.mem_cons.mp h with rfl | h
        · exact List.mem_append_left _ hc
        · exact List.mem_append_right _ (List.mem_cons_of_mem _ (ih h))
    · rw [componentsFrom_char hx] at h
      have hmem := ih h
      rwa [List.append_assoc] at hmem

theorem Readable.nonzero_of_mem (h : Readable path) (hname : name ∈ components path) :
    ∀ c ∈ name, c ≠ 0 := fun c hc => h.nonzero c (mem_of_componentsFrom hname hc)

/-- A walk stays in use. -/
theorem Walk.inUse (hcons : Consistent e I names) (h : Walk e I flag comps n out)
    (hn : n ∈ InUse e I) : out.node ∈ InUse e I := by
  induction h with
  | stop => exact hn
  | parent => exact hn
  | missing => exact hn
  | into _ hdir _ hnamed _ ih =>
    obtain ⟨hrel, hused⟩ := hcons.sound.releasable hdir hnamed
    exact ih ⟨hrel.1, hused⟩

/-- A walk that ends at a name that is not there. -/
theorem Walk.missing_spec (h : Walk e I flag comps n (.missing m name)) :
    IsDir e I m ∧ name.length ≤ TFS_NAME_LEN ∧ name ∈ comps := by
  generalize hout : Reached.missing m name = out at h
  induction h with
  | stop => cases hout
  | parent => cases hout
  | missing _ hdir hlen _ =>
    cases hout
    exact ⟨hdir, hlen, List.mem_cons_self⟩
  | into _ _ _ _ _ ih =>
    obtain ⟨hdir, hlen, hmem⟩ := ih hout
    exact ⟨hdir, hlen, List.mem_cons_of_mem _ hmem⟩

/-- No object but the one at which the walk begins, and there it ends, is of this directory. -/
def SoleAt (k : Kernel) (path : List UInt8) (m : ℕ) : Prop :=
  ∀ o, o = k.root ∨ o = k.pwd → (k.objs o).iIno = m →
    o = startObj k path ∧ (components path).length = 1

theorem DirObjects.extends (h : DirObjects e I k₀) (hext : Extends k₀ k) : DirObjects e I k :=
  h.congr hext.root hext.pwd hext.objs hext.nextObj

/-- The objects there were have their numbers still. -/
theorem Sole.of_soleAt (hh : DirObjects e I k₀) (hsole : SoleAt k₀ path m) (hext : Extends k₀ k)
    (hobj : (components path).length = 1 → obj = startObj k₀ path) : Sole k obj m := by
  obtain ⟨n, hn⟩ := hh.pwd
  intro o ho hino
  rw [hext.root, hext.pwd] at ho
  have hlt : o < k₀.nextObj := by
    rcases ho with rfl | rfl
    · exact hh.root.lt
    · exact hn.lt
  rw [hext.objs o hlt] at hino
  obtain ⟨rfl, hone⟩ := hsole o ho hino
  exact (hobj hone).symm

/-- The object at which a walk begins is a directory. -/
theorem DirObjects.start (hh : DirObjects e I k) (hcons : Consistent e I names)
    (path : List UInt8) : DirObject e I k (startObj k path) (k.objs (startObj k path)).iIno := by
  have hpwd : DirObject e I k k.pwd (k.objs k.pwd).iIno := by
    obtain ⟨n, hn⟩ := hh.pwd
    rwa [hn.iIno hcons]
  have hroot : DirObject e I k k.root (k.objs k.root).iIno := by
    rw [hh.root.iIno hcons]
    exact hh.root
  rw [startObj]
  by_cases hslash : path.head? = some slash
  · rw [if_pos hslash]
    exact hroot
  · rw [if_neg hslash]
    exact hpwd

section Walking

variable (hs : Steady e) (hmalloc : ∀ t, e.mallocOk t = true) (hcons : Consistent e I names)
  (hh : DirObjects e I k₀) (hpath : Readable path)

include hs hmalloc hcons hh hpath

/-- Where a walk ends that does not end at an inode: the object is not a second one. -/
def SoleTo (e : Env) (I : Image) (k₀ : Kernel) (path : List UInt8) (out : Reached) (r : Walked)
    (k : Kernel) : Prop :=
  ∃ obj k₁, r = out.walked obj ∧ ObjectAt I k₀ k₁ (startObj k₀ path) obj out.node ∧
    KernelOn e I k₁ k ∧ (SoleAt k₀ path out.node → out ≠ .inode out.node → Sole k₁ obj out.node)

/-- **The walk of `namei`**, from an object that is in memory. -/
theorem nameiWalk_sole
    (hwalk : Walk e I flag (components path) (k₀.objs (startObj k₀ path)).iIno out) :
    Hoare (KernelOn e I k₀) (nameiWalk e flag path [] (startObj k₀ path))
      (SoleTo e I k₀ path out) := by
  have hstart := hh.start hcons path
  generalize hn : (k₀.objs (startObj k₀ path)).iIno = n at hwalk hstart
  have hlong := nameiWalk_on hs hmalloc hcons.sound hwalk rfl hpath.nonzero hpath.short
    hstart.contents hstart.lt
  by_cases hone : (components path).length = 1
  · obtain ⟨base, hbase⟩ := List.length_eq_one_iff.mp hone
    have hshort := hpath.short base (by rw [hbase]; exact List.mem_singleton_self base)
    have hself : ObjectAt I k₀ k₀ (startObj k₀ path) (startObj k₀ path) n :=
      ⟨.refl _, hstart.contents, hstart.lt, .inl rfl⟩
    rw [hbase] at hwalk
    cases hwalk with
    | parent hflag =>
      rw [nameiWalk_components hbase hshort, if_pos ⟨rfl, hflag⟩]
      exact .pure fun k hk => ⟨_, k₀, rfl, hself, hk, fun hsole _ =>
        .of_soleAt hh hsole (.refl _) fun _ => rfl⟩
    | missing hflag hdir hlen hno =>
      rw [nameiWalk_components hbase hshort, if_neg fun h => hflag h.2 rfl]
      unfold walkInto
      have hnz : ∀ c ∈ base, c ≠ 0 := hpath.nonzero_of_mem (by
        rw [hbase]
        exact List.mem_singleton_self _)
      refine (tfsIget_on hs hmalloc hstart.contents (hcons.toStored.openDir hdir) hlen hnz
        fun j c h => (hcons.sound.releasable hdir h).1.1).bind fun r k hk => ?_
      rcases hk with ⟨-, rfl, hk⟩ | ⟨j, c, hnamed, -⟩
      · exact ⟨_, k₀, rfl, hself, hk, fun hsole _ =>
          .of_soleAt hh hsole (.refl _) fun _ => rfl⟩
      · exact absurd hnamed.hasName hno
    | into _ _ _ _ hrest =>
      cases hrest
      refine hlong.post fun r k => ?_
      rintro ⟨obj, k₁, hr, hat, hk⟩
      exact ⟨obj, k₁, hr, hat, hk, fun _ hne => absurd rfl hne⟩
  · refine hlong.post fun r k => ?_
    rintro ⟨obj, k₁, hr, hat, hk⟩
    exact ⟨obj, k₁, hr, hat, hk, fun hsole _ =>
      .of_soleAt hh hsole hat.toExtends fun h => absurd h hone⟩

/-- **`namei`**, where the walk along the components ends. -/
theorem namei_sole
    (hwalk : Walk e I flag (components path) (k₀.objs (startObj k₀ path)).iIno out)
    {Q : Except ℤ ℕ → Kernel → Prop}
    (hfound : ∀ obj k₁, ObjectAt I k₀ k₁ (startObj k₀ path) obj out.node →
      (SoleAt k₀ path out.node → out ≠ .inode out.node → Sole k₁ obj out.node) →
      (∀ name, out ≠ .missing out.node name) → ∀ k, KernelOn e I k₁ k → Q (.ok obj) k)
    (hmissing : ∀ obj k₁ name, ObjectAt I k₀ k₁ (startObj k₀ path) obj out.node →
      (SoleAt k₀ path out.node → Sole k₁ obj out.node) → out = .missing out.node name →
      Hoare (KernelOn e I k₁)
        (if lookupCreate flag then nameiCreate e obj name else pure (.error (-ENOENT))) Q) :
    Hoare (KernelOn e I k₀) (namei e path flag) Q := by
  unfold namei
  refine start_on.bind_eq ?_
  refine (nameiWalk_sole hs hmalloc hcons hh hpath hwalk).bind fun r => ?_
  rintro k ⟨obj, k₁, rfl, hat, hk, hsole⟩
  cases out with
  | inode m => exact hfound obj k₁ hat hsole (fun _ h => by cases h) k hk
  | parent m base => exact hfound obj k₁ hat hsole (fun _ h => by cases h) k hk
  | missing m name =>
    have hif : (if -ENOENT = -ENOENT ∧ lookupCreate flag = true then nameiCreate e obj name
        else pure (.error (-ENOENT)) : KernelM (Except ℤ ℕ)) =
        if lookupCreate flag then nameiCreate e obj name else pure (.error (-ENOENT)) := by
      simp only [true_and]
    have hrest := hmissing obj k₁ name hat (fun h => hsole h fun h => by cases h) rfl k hk
    rw [← hif] at hrest
    exact hrest

/-! ### Calls on the parent of a path -/

omit hpath in
/-- **`namei_parent`**, of a path that leads to a directory, or to one that is not there. -/
theorem nameiParent_sole (hpath : Readable path) (lost : Set ℕ)
    (hwalk : Walk e I 1 (components path) (k₀.objs (startObj k₀ path)).iIno out) :
    Hoare (KernelOn e I k₀) (nameiParent e path) fun r k =>
      (∃ err, r = .error err ∧ Since e I lost k) ∨
      ∃ obj k₁, r = .ok obj ∧ ObjectAt I k₀ k₁ (startObj k₀ path) obj out.node ∧
        (SoleAt k₀ path out.node → out ≠ .inode out.node → Sole k₁ obj out.node) ∧
        (∀ name, out ≠ .missing out.node name) ∧ KernelOn e I k₁ k := by
  have hsince : ∀ {k₁ : Kernel} {o : ℕ}, ObjectAt I k₀ k₁ (startObj k₀ path) o out.node →
      ∀ k, KernelOn e I k₁ k → Since e I lost k := fun hat k hk =>
    since_of_on hk hcons (hh.extends hat.toExtends) .refl
  unfold nameiParent
  refine (namei_sole hs hmalloc hcons hh hpath hwalk (Q := fun r k =>
    (∃ err, r = .error err ∧ Since e I lost k) ∨
    ∃ obj k₁, r = .ok obj ∧ ObjectAt I k₀ k₁ (startObj k₀ path) obj out.node ∧
      (SoleAt k₀ path out.node → out ≠ .inode out.node → Sole k₁ obj out.node) ∧
      (∀ name, out ≠ .missing out.node name) ∧ KernelOn e I k₁ k)
    (fun obj k₁ hat hsole hno k hk => .inr ⟨obj, k₁, rfl, hat, hsole, hno, hk⟩)
    fun obj k₁ name hat _ _ => .pure fun k hk => .inl ⟨_, rfl, hsince hat k hk⟩).bind fun r => ?_
  rintro k (⟨err, rfl, hk⟩ | ⟨obj, k₁, rfl, hat, hsole, hno, hk⟩)
  · -- the test of the result is the wrong way round
    have hrest : Hoare (Since e I lost) (do
        fault .badPointer
        if (← onDev (uninitialised e)) ≠ TFS_DIR then pure (.error (-ENOTDIR))
        else pure (.error err) : KernelM (Except ℤ ℕ)) fun r k =>
          ∃ err, r = .error err ∧ Since e I lost k :=
      Hoare.bind (fault_since _) fun _ => Hoare.bind uninitialised_since fun _ =>
        .ite (fun _ => .pure fun _ h => ⟨_, rfl, h⟩) fun _ => .pure fun _ h => ⟨_, rfl, h⟩
    exact .inl (hrest k hk)
  · exact .inr ⟨obj, k₁, rfl, hat, hsole, hno, hk⟩

/-- What is known where a call on the parent of a path begins. -/
structure CalledAt (e : Env) (I : Image) (k₀ k₁ : Kernel) (obj m : ℕ) : Prop extends
    Extends k₀ k₁ where
  dirs : DirObjects e I k₁
  object : DirObject e I k₁ obj m
  sole : Sole k₁ obj m

/-- **A call on the parent directory of a path** keeps the volume consistent. -/
theorem withParent_since (hend : path.getLast? ≠ some slash)
    (hwalk : Walk e I 1 (components path) (k₀.objs (startObj k₀ path)).iIno (.parent m base))
    (hdir : IsDir e I m) (hsole : SoleAt k₀ path m) {call : ℕ → List UInt8 → KernelM ℤ}
    (hcall : ∀ obj k₁, CalledAt e I k₀ k₁ obj m → (∀ c ∈ base, c ≠ 0) →
      Hoare (KernelOn e I k₁) (call obj base) fun _ => Since e I lost) :
    Hoare (KernelOn e I k₀) (withParent e call path) fun _ => Since e I lost := by
  unfold withParent
  refine (nameiParent_sole hs hmalloc hcons hh hpath lost hwalk).bind fun r => ?_
  rintro k (⟨err, rfl, hk⟩ | ⟨obj, k₁, rfl, hat, hsole', -, hk⟩)
  · exact hk
  · obtain ⟨comps, hcomps⟩ := hwalk.components_eq
    have hbase : Hoare (KernelOn e I k₁) (onDev (baseName e path)) fun r k =>
        r = base ∧ KernelOn e I k₁ k := baseName_on hmalloc hend hcomps
    have hnz : ∀ c ∈ base, c ≠ 0 := hpath.nonzero_of_mem (by
      rw [hcomps]
      exact List.mem_append_right _ (List.mem_singleton_self _))
    have hat' : CalledAt e I k₀ k₁ obj m := ⟨hat.toExtends, hh.extends hat.toExtends,
      ⟨hat.lt, hdir, hat.contents⟩, hsole' hsole fun h => by cases h⟩
    have hrest : Hoare (KernelOn e I k₁) (do
        touch obj
        let dname ← onDev (baseName e path)
        let err ← call obj dname
        freeInode obj
        pure err) fun _ => Since e I lost :=
      touch_on.bind fun _ => hbase.bind_eq ((hcall obj k₁ hat' hnz).bind fun err =>
        Hoare.bind freeInode_since fun _ => .pure fun _ h => h)
    exact hrest k hk

/-- A call on the parent of a path that leads nowhere. -/
theorem withParent_missing
    (hwalk : Walk e I 1 (components path) (k₀.objs (startObj k₀ path)).iIno (.missing m name))
    (call : ℕ → List UInt8 → KernelM ℤ) :
    Hoare (KernelOn e I k₀) (withParent e call path) fun _ => Since e I lost := by
  unfold withParent
  refine (nameiParent_sole hs hmalloc hcons hh hpath lost hwalk).bind fun r => ?_
  rintro k (⟨err, rfl, hk⟩ | ⟨-, -, rfl, -, -, hno, -⟩)
  · exact hk
  · exact absurd rfl (hno name)

omit hh hpath hmalloc in
/-- `namei` creates the file that it does not find. -/
theorem nameiCreate_since (hat : CalledAt e I k₀ k₁ obj m) (hlen : name.length ≤ TFS_NAME_LEN)
    (hnz : ∀ c ∈ name, c ≠ 0) (hblock : BlockFor e I (I.inode m)) (hroomy : Roomy e I (I.inode m)) :
    Hoare (KernelOn e I k₁) (nameiCreate e obj name) fun _ => Since e I lost := by
  have hmode : TFS_FILE % 2 ^ 16 ≠ TFS_DIR := by decide
  unfold nameiCreate
  refine (tfsMknod_since hs hcons hat.dirs hat.object hat.sole hlen hnz lost hmode (fun _ => hblock)
    fun _ => hroomy).bind fun r => ?_
  rintro k (⟨err, rfl, hk⟩ | ⟨o, I', k₂, rfl, hk, hmade⟩)
  · have hrest : Hoare (Since e I lost) (do
        freeInode obj
        pure (.error err) : KernelM (Except ℤ ℕ)) fun _ => Since e I lost :=
      Hoare.bind freeInode_since fun _ => .pure fun _ h => h
    exact hrest k hk
  · obtain ⟨names', hcons'⟩ := hmade.consistent
    have hsame : I'.setInode (k₂.objs o).iIno ((k₂.objs o).stored e) = I' := by
      rw [Image.setInode, ← hmade.record, Function.update_eq_self]
    have hrest : Hoare (KernelOn e I' k₂) (do
        freeInode obj
        if (← iwriteObj e o) ≠ 0 then do
          freeInode o
          pure (.error (- EIO))
        else pure (.ok o) : KernelM (Except ℤ ℕ)) fun _ => Since e I lost := by
      refine freeInode_on.bind fun _ => (iwriteObj_on hs rfl hmade.ino hmade.words).bind_eq ?_
      rw [if_neg (not_not.mpr rfl), hsame]
      exact .pure fun k hk =>
        since_of_on hk hcons' hmade.dirs (hmade.files.mono fun _ h => h.elim)
    exact hrest k hk

/-- **`namei`** keeps the volume consistent, also where it creates a file. -/
theorem namei_since
    (hwalk : Walk e I flag (components path) (k₀.objs (startObj k₀ path)).iIno out)
    (hcreate : lookupCreate flag = true → ∀ m name, out = .missing m name →
      SoleAt k₀ path m ∧ BlockFor e I (I.inode m) ∧ Roomy e I (I.inode m)) :
    Hoare (KernelOn e I k₀) (namei e path flag) fun _ => Since e I lost := by
  refine namei_sole hs hmalloc hcons hh hpath hwalk
    (fun obj k₁ hat _ _ k hk => since_of_on hk hcons (hh.extends hat.toExtends) .refl)
    fun obj k₁ name hat hsole hout => ?_
  refine .ite (fun hflag => ?_) fun _ => .pure fun k hk =>
    since_of_on hk hcons (hh.extends hat.toExtends) .refl
  obtain ⟨hsole', hblock, hroomy⟩ := hcreate hflag _ name hout
  rw [hout] at hwalk
  obtain ⟨hdir, hlen, hmem⟩ := hwalk.missing_spec
  have hnz := hpath.nonzero_of_mem hmem
  exact nameiCreate_since hs hcons ⟨hat.toExtends, hh.extends hat.toExtends,
    ⟨hat.lt, hdir, hat.contents⟩, hsole hsole'⟩ hlen hnz hblock hroomy

end Walking

/-! ### System calls -/

/-- Where a path leads from the root or the working directory. -/
def LeadsTo (e : Env) (k : Kernel) (flag : ℕ) (path : List UInt8) (out : Reached) : Prop :=
  Readable path ∧
    Walk e (k.dev.image e) flag (components path) (k.objs (startObj k path)).iIno out

/-- A path leads to a directory in which a call does what `Fits` says, under the name behind it, or
to a directory that is not there. -/
inductive CallFits (e : Env) (k : Kernel) (Fits : ℕ → List UInt8 → Prop) (path : List UInt8) : Prop
  | missing {m : ℕ} {name : List UInt8} (leads : LeadsTo e k 1 path (.missing m name))
  | parent {m : ℕ} {base : List UInt8} (leads : LeadsTo e k 1 path (.parent m base))
    (strict : path.getLast? ≠ some slash) (dir : IsDir e (k.dev.image e) m) (sole : SoleAt k path m)
    (short : base.length ≤ TFS_NAME_LEN) (fits : Fits m base)

/-- The directory `m` of a disk. -/
abbrev Dev.dirAt (e : Env) (d : Dev) (m : ℕ) : Inode := (d.image e).inode m

/-- There is room for an entry in the directory `m`. -/
def RoomAt (e : Env) (k : Kernel) (m : ℕ) : Prop :=
  BlockFor e (k.dev.image e) (k.dev.dirAt e m) ∧ Roomy e (k.dev.image e) (k.dev.dirAt e m)

/-- The directory `m` has the name. -/
def NameAt (e : Env) (k : Kernel) (m : ℕ) (name : List UInt8) : Prop :=
  HasName e (k.dev.image e) (k.dev.dirAt e m) name

/-- **What is asked of a call**: its path leads through directories, there is room for what it
makes, `sys_mknod` makes no directory, and `sys_rmdir` is not to remove the directory itself, the
one above or the working directory. -/
def KeepsVolume (e : Env) (k : Kernel) : SysCall → Prop
  | .open path flags => ∃ out, LeadsTo e k flags path out ∧ (lookupCreate flags = true →
      ∀ m name, out = .missing m name → SoleAt k path m ∧ RoomAt e k m)
  | .close _ | .closedir _ => True
  | .mkdir path => CallFits e k (fun m name => ¬NameAt e k m name →
      BlocksFor e (k.dev.image e) (k.dev.dirAt e m) ∧
        Roomy e (k.dev.image e) (k.dev.dirAt e m)) path
  | .rmdir path => CallFits e k (fun m name => (name ≠ dot ∧ name ≠ dot ++ dot) ∧ ∀ j c,
      NamedAt e (k.dev.image e) (k.dev.dirAt e m) name j c → (k.objs k.pwd).iIno ≠ c) path
  | .unlink path => CallFits e k (fun _ _ => True) path
  | .mknod mode path => CallFits e k (fun m name => mode % 2 ^ 16 ≠ TFS_DIR ∧
      (¬NameAt e k m name → RoomAt e k m)) path
  | .chdir path => ∃ out, LeadsTo e k 0 (skipDots path) out
  | .opendir path => ∃ out, LeadsTo e k 0 path out

/-- The files that a call removes: what `sys_unlink` finds under the name. -/
def removedBy (e : Env) (k : Kernel) : SysCall → Set ℕ
  | .unlink path => {c | ∃ m base j, LeadsTo e k 1 path (.parent m base) ∧
      NamedAt e (k.dev.image e) (k.dev.dirAt e m) base j c}
  | _ => ∅

section Calls

variable (hs : Steady e) (hmalloc : ∀ t, e.mallocOk t = true)

include hs hmalloc

/-- A call on the parent of a path. -/
theorem CallFits.since {Fits : ℕ → List UInt8 → Prop} (h : Sane e k)
    (hfits : CallFits e k Fits path)
    {call : ℕ → List UInt8 → KernelM ℤ}
    (hcall : ∀ names obj k₁ m base, Consistent e (k.dev.image e) names →
      CalledAt e (k.dev.image e) k k₁ obj m → (∀ c ∈ base, c ≠ 0) → base.length ≤ TFS_NAME_LEN →
      LeadsTo e k 1 path (.parent m base) → Fits m base →
      Hoare (KernelOn e (k.dev.image e) k₁) (call obj base) fun _ =>
        Since e (k.dev.image e) lost) :
    Since e (k.dev.image e) lost (withParent e call path k).2 := by
  obtain ⟨hI, ⟨names, hcons⟩, hh⟩ := h.onDisk hs.geometry
  have hon : KernelOn e (k.dev.image e) k k := ⟨hI, .refl k⟩
  cases hfits with
  | missing leads =>
    exact withParent_missing hs hmalloc hcons hh leads.1 leads.2 call k hon
  | parent leads strict dir sole short fits =>
    exact withParent_since hs hmalloc hcons hh leads.1 strict leads.2 dir sole
      (fun obj k₁ hat hnz => hcall names obj k₁ _ _ hcons hat hnz short leads fits) k hon

theorem sysMkdir_since (h : Sane e k) (hok : KeepsVolume e k (.mkdir path)) :
    Since e (k.dev.image e) lost (sysRun e (.mkdir path) k) :=
  CallFits.since hs hmalloc h hok fun _ _ _ _ _ hcons hat hnz hlen _ hfits =>
    tfsMkdir_since hs hcons hat.dirs hat.object hat.sole hlen hnz (fun hno => (hfits hno).1)
      fun hno => (hfits hno).2

theorem sysMknod_since {mode : ℤ} (h : Sane e k) (hok : KeepsVolume e k (.mknod mode path)) :
    Since e (k.dev.image e) lost (sysRun e (.mknod mode path) k) := by
  refine CallFits.since hs hmalloc h hok fun names obj k₁ m base hcons hat hnz hlen _ hfits => ?_
  unfold mknodIn
  refine (tfsMknod_since hs hcons hat.dirs hat.object hat.sole hlen hnz lost hfits.1
    (fun hno => (hfits.2 hno).1) fun hno => (hfits.2 hno).2).bind fun r => ?_
  rintro k (⟨err, rfl, hk⟩ | ⟨o, I', k₂, rfl, hk, hmade⟩)
  · exact hk
  · obtain ⟨names', hcons'⟩ := hmade.consistent
    exact freeInode_since k
      (since_of_on hk hcons' hmade.dirs (hmade.files.mono fun _ h => h.elim))

variable (hentries : 3 ≤ numEntries e.sbi.sBlockShift)

include hentries

theorem sysUnlink_since (h : Sane e k) (hok : KeepsVolume e k (.unlink path)) :
    Since e (k.dev.image e) (removedBy e k (.unlink path)) (sysRun e (.unlink path) k) :=
  CallFits.since hs hmalloc h hok fun _ _ _ m base hcons hat hnz hlen hleads _ =>
    tfsUnlink_since hs hcons hat.dirs hat.object hat.sole hlen hnz hentries
      fun j _ hc => ⟨m, base, j, hleads, hc⟩

theorem sysRmdir_since (h : Sane e k) (hok : KeepsVolume e k (.rmdir path)) :
    Since e (k.dev.image e) lost (sysRun e (.rmdir path) k) := by
  refine CallFits.since hs hmalloc h hok fun names obj k₁ m base hcons hat hnz hlen _ hfits => ?_
  refine tfsRmdir_since hs hcons hat.dirs hat.object hat.sole hlen hnz hentries hfits.1
    fun j c hc => ?_
  obtain ⟨hI, -, hh⟩ := h.onDisk hs.geometry
  obtain ⟨n, hn⟩ := hh.pwd
  rw [hat.pwd, hat.objs _ hn.lt]
  exact hfits.2 j c hc

omit hentries in
theorem namei_keeps (h : Sane e k) {flags : ℕ} (hok : KeepsVolume e k (.open path flags)) :
    Since e (k.dev.image e) lost (namei e path flags k).2 := by
  obtain ⟨hI, ⟨names, hcons⟩, hh⟩ := h.onDisk hs.geometry
  obtain ⟨out, ⟨hpath, hwalk⟩, hcreate⟩ := hok
  exact namei_since hs hmalloc hcons hh hpath hwalk hcreate k ⟨hI, .refl k⟩

omit hentries in
/-- `namei` in the state of the call. -/
theorem namei_sane (lost : Set ℕ) (h : Sane e k) {flags : ℕ}
    (hok : KeepsVolume e k (.open path flags)) :
    Hoare (fun s => s = k) (namei e path flags) fun _ => Since e (k.dev.image e) lost := by
  rintro _ rfl
  exact namei_keeps hs hmalloc h hok

omit hentries in
theorem sysOpen_since (h : Sane e k) {flags : ℕ} (hok : KeepsVolume e k (.open path flags)) :
    Since e (k.dev.image e) lost (sysRun e (.open path flags) k) := by
  have hcall : Hoare (fun s => s = k) (sysOpen e path flags) fun _ =>
      Since e (k.dev.image e) lost := by
    refine (namei_sane hs hmalloc lost h hok).bind fun r => ?_
    cases r with
    | error => exact fun _ h => h
    | ok obj =>
      refine mallocOk_since.bind fun _ => .ite (.pure _ _) <| touch_since.bind fun _ =>
        getUnusedFd_since.bind fun fd => .ite (.pure _ _) fun k h => ?_
      exact h.congr (fun _ h => h) rfl rfl rfl rfl
  exact hcall k rfl

omit hentries in
theorem opendir_since (h : Sane e k) (hok : KeepsVolume e k (.opendir path)) :
    Since e (k.dev.image e) lost (sysRun e (.opendir path) k) := by
  obtain ⟨out, hleads⟩ := hok
  have hcall : Hoare (fun s => s = k) (opendir e path) fun _ => Since e (k.dev.image e) lost := by
    have hok : KeepsVolume e k (.open path 0) := ⟨out, hleads, fun hflag => by cases hflag⟩
    refine (namei_sane hs hmalloc lost h hok).bind fun r => ?_
    cases r with
    | error => exact fun _ h => h
    | ok obj =>
      refine mallocOk_since.bind fun _ => .ite (.pure _ _) <| mallocOk_since.bind fun _ =>
        .ite (.pure _ _) <| touch_since.bind fun _ k h => ?_
      exact h.congr (fun _ h => h) rfl rfl rfl rfl
  exact hcall k rfl

omit hentries in
/-- **`sys_chdir`**: the new working directory is one. -/
theorem sysChdir_since (h : Sane e k) (hok : KeepsVolume e k (.chdir path)) :
    Since e (k.dev.image e) lost (sysRun e (.chdir path) k) := by
  obtain ⟨hI, ⟨names, hcons⟩, hh⟩ := h.onDisk hs.geometry
  obtain ⟨out, hpath, hwalk⟩ := hok
  have hnode := hwalk.inUse hcons (hh.start hcons (skipDots path)).isDir.live
  generalize hI' : k.dev.image e = I at hI hcons hh hwalk hnode
  have hnamei : Hoare (KernelOn e I k) (namei e (skipDots path) 0) fun r k' =>
      (∃ err, r = .error err ∧ Since e I lost k') ∨ ∃ obj k₁, r = .ok obj ∧ KernelOn e I k₁ k' ∧
        DirObjects e I k₁ ∧ obj < k₁.nextObj ∧ k₁.objs obj = I.inode out.node := by
    refine namei_sole hs hmalloc hcons hh hpath hwalk (fun obj k₁ hat _ _ k' hk => ?_)
      fun obj k₁ name hat _ _ => ?_
    · exact .inr ⟨obj, k₁, rfl, hk, hh.extends hat.toExtends, hat.lt, hat.contents⟩
    · exact .pure fun k' hk => .inl ⟨_, rfl, since_of_on hk hcons (hh.extends hat.toExtends) .refl⟩
  have hcall : Hoare (KernelOn e I k) (sysChdir e path) fun _ => Since e I lost := by
    unfold sysChdir
    refine .ite (fun _ => .pure fun k' hk => since_of_on hk hcons hh .refl) fun _ => ?_
    refine hnamei.bind fun r => ?_
    rintro k' (⟨err, rfl, hk⟩ | ⟨obj, k₁, rfl, hk, hh₁, hlt, hobj⟩)
    · exact hk
    · have hrest : Hoare (KernelOn e I k₁) (do
          let inode ← inodeAt obj
          if inode.iMode ≠ TFS_DIR then giveUp obj (-ENOTDIR)
          else changeDir (skipDots path) obj : KernelM ℤ) fun _ => Since e I lost := by
        refine inodeAt_on.bind_eq ?_
        rw [hobj]
        refine .ite (fun _ => (giveUp_on _).post fun _ _ h => since_of_on h.2 hcons hh₁ .refl)
          fun hmode => ?_
        have hdir : IsDir e I out.node := isDir_of_live hnode (not_not.mp hmode)
        unfold changeDir
        refine Hoare.bind (Q := fun _ => KernelOn e I k₁) (fun _ h => h) fun pwd => ?_
        refine freeInode_on.bind fun _ k'' hk => ?_
        have hh' := hh₁.alike hk.2
        refine ⟨I, names, hk.1, hcons, ⟨⟨hh'.root.lt, hh'.root.isDir, hh'.root.contents⟩, out.node,
          ⟨?_, hdir, ?_⟩⟩, .refl⟩
        · exact hk.2.nextObj.symm ▸ hlt
        · exact (congrFun hk.2.objs obj).trans hobj
      exact hrest k' hk
  exact hcall k ⟨hI, .refl k⟩

/-- **A system call** keeps the volume consistent, and changes no file but what it removes. -/
theorem sysRun_since (h : Sane e k) {call : SysCall} (hok : KeepsVolume e k call) :
    Since e (k.dev.image e) (removedBy e k call) (sysRun e call k) := by
  cases call with
  | «open» path flags => exact sysOpen_since hs hmalloc h hok
  | close fd => exact sysClose_since fd k (h.since hs.geometry)
  | mkdir path => exact sysMkdir_since hs hmalloc h hok
  | rmdir path => exact sysRmdir_since hs hmalloc hentries h hok
  | unlink path => exact sysUnlink_since hs hmalloc hentries h hok
  | mknod mode path => exact sysMknod_since hs hmalloc h hok
  | chdir path => exact sysChdir_since hs hmalloc h hok
  | opendir path => exact opendir_since hs hmalloc h hok
  | closedir dir => exact tfsClosedir_since dir k (h.since hs.geometry)

end Calls

end Thunix.Fs
