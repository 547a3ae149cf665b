import Thunix.Fs.Removal
import Thunix.Fs.Syscall

/-!
# Paths in an image

`namei` takes its path one character at a time; the components it meets are those of
`Thunix.Fs.components`. Where a path leads in an image is `Thunix.Fs.Walk`: through
directories, each component being the name of a slot of the one before, to an inode, to the
directory of the last component, or to a name that is missing. The walk of the source ends
there with an object that has the contents of the record (`Thunix.Fs.nameiWalk_on`), and the
name `get_base_name` finds is the last component, unless the path ends in `'/'`
(`Thunix.Fs.getBaseName_eq`).
-/

namespace Thunix.Fs

variable {e : Env} {I : Image} {k₀ k₁ k k' : Kernel} {P : Inode} {dir obj c j m n flag : ℕ}
  {name base part path : List UInt8} {comps : List (List UInt8)}

/-! ### Components -/

/-- The components of the rest of a path, with the characters of the first one so far. -/
def componentsFrom : List UInt8 → List UInt8 → List (List UInt8)
  | [], part => if part = [] then [] else [part]
  | c :: path, part =>
    if c ≠ slash then componentsFrom path (part ++ [c])
    else if part = [] then componentsFrom path []
    else part :: componentsFrom path []

/-- The components of a path. -/
def components (path : List UInt8) : List (List UInt8) := componentsFrom path []

theorem componentsFrom_char {c : UInt8} (hc : c ≠ slash) (path part : List UInt8) :
    componentsFrom (c :: path) part = componentsFrom path (part ++ [c]) := by
  rw [componentsFrom, if_pos hc]

theorem componentsFrom_slash_nil (path : List UInt8) :
    componentsFrom (slash :: path) [] = componentsFrom path [] := by
  rw [componentsFrom, if_neg (not_not.mpr rfl), if_pos rfl]

theorem componentsFrom_slash (hpart : part ≠ []) (path : List UInt8) :
    componentsFrom (slash :: path) part = part :: componentsFrom path [] := by
  rw [componentsFrom, if_neg (not_not.mpr rfl), if_neg hpart]

/-- A component that has begun is the first one, and may get longer. -/
theorem componentsFrom_head (path : List UInt8) (hpart : part ≠ []) :
    ∃ name comps, componentsFrom path part = name :: comps ∧ part.length ≤ name.length := by
  induction path generalizing part with
  | nil => exact ⟨part, [], by rw [componentsFrom, if_neg hpart], le_refl _⟩
  | cons c path ih =>
    by_cases hc : c = slash
    · exact ⟨part, componentsFrom path [], by rw [hc, componentsFrom_slash hpart], le_refl _⟩
    · obtain ⟨name, comps, heq, hlen⟩ := ih (show part ++ [c] ≠ [] by simp)
      rw [List.length_append] at hlen
      exact ⟨name, comps, by rw [componentsFrom_char hc, heq], by omega⟩

theorem componentsFrom_eq_nil : componentsFrom path [] = [] ↔ path.all (· = slash) = true := by
  induction path with
  | nil => exact iff_of_true rfl rfl
  | cons c path ih =>
    by_cases hc : c = slash
    · rw [hc, componentsFrom_slash_nil, ih]
      simp
    · obtain ⟨name, comps, heq, -⟩ := componentsFrom_head path (show [] ++ [c] ≠ [] by simp)
      rw [componentsFrom_char hc, heq]
      simp [hc]

/-! ### The base name -/

theorem behindSlash_cons (c : UInt8) (path : List UInt8) : behindSlash (c :: path) =
    (behindSlash path).or (if c = slash then some path else none) := by
  rw [behindSlash]
  cases behindSlash path <;> rfl

/-- The last component is what stands behind the last `'/'`. -/
theorem componentsFrom_last (hend : path.getLast? ≠ some slash)
    (h : componentsFrom path part = comps ++ [base]) :
    base = (behindSlash path).getD (part ++ path) := by
  induction path generalizing part comps with
  | nil =>
    rw [componentsFrom] at h
    by_cases hpart : part = []
    · rw [if_pos hpart] at h
      exact absurd h.symm (by simp)
    · rw [if_neg hpart] at h
      obtain ⟨-, hbase⟩ := List.append_inj' (show [] ++ [part] = comps ++ [base] from h) rfl
      rw [List.append_nil, ← List.singleton_injective hbase]
      rfl
  | cons c path ih =>
    have hend' : path.getLast? ≠ some slash := fun h => hend (by
      rcases path with _ | ⟨c', path⟩
      · cases h
      · exact h)
    rw [behindSlash_cons]
    by_cases hc : c = slash
    · subst hc
      rw [if_pos rfl]
      by_cases hpart : part = []
      · rw [hpart, componentsFrom_slash_nil] at h
        rw [ih hend' h]
        cases behindSlash path <;> rfl
      · rw [componentsFrom_slash hpart] at h
        rcases comps with _ | ⟨name, comps⟩
        · -- then nothing but `'/'` is left
          have hall := componentsFrom_eq_nil.mp (List.cons.inj h).2
          rcases List.eq_nil_or_concat path with rfl | ⟨path', c, rfl⟩
          · exact absurd rfl hend
          · rw [List.concat_eq_append] at hall hend'
            have hc : c = slash := by
              rw [List.all_append] at hall
              simpa using (Bool.and_eq_true_iff.mp hall).2
            exact absurd (by rw [hc]; simp) hend'
        · rw [ih hend' (List.cons.inj h).2]
          cases behindSlash path <;> rfl
    · rw [componentsFrom_char hc] at h
      rw [if_neg hc, Option.or_none, ih hend' h, List.append_assoc]
      rfl

/-- The components are not empty. -/
theorem componentsFrom_ne_nil (h : name ∈ componentsFrom path part) : name ≠ [] := by
  induction path generalizing part with
  | nil =>
    rw [componentsFrom] at h
    by_cases hpart : part = []
    · rw [if_pos hpart] at h
      cases h
    · rw [if_neg hpart, List.mem_singleton] at h
      rwa [h]
  | cons c path ih =>
    by_cases hc : c = slash
    · subst hc
      by_cases hpart : part = []
      · rw [hpart, componentsFrom_slash_nil] at h
        exact ih h
      · rw [componentsFrom_slash hpart] at h
        rcases List.mem_cons.mp h with rfl | h
        · exact hpart
        · exact ih h
    · rw [componentsFrom_char hc] at h
      exact ih h

/-- **The base name** is the last component, of a path that does not end in `'/'`. -/
theorem getBaseName_eq (hend : path.getLast? ≠ some slash) (h : components path = comps ++ [base]) :
    getBaseName path path = some base := by
  have hbase := componentsFrom_last hend h
  have hne : base ≠ [] := componentsFrom_ne_nil
    (h ▸ List.mem_append_right _ (List.mem_singleton_self _))
  rw [getBaseName]
  cases hb : behindSlash path with
  | none =>
    rw [hb] at hbase
    exact congrArg some hbase.symm
  | some s =>
    rw [hb] at hbase
    subst hbase
    cases base with
    | nil => exact absurd rfl hne
    | cons => rfl

theorem baseName_on (hmalloc : ∀ t, e.mallocOk t = true) (hend : path.getLast? ≠ some slash)
    (h : components path = comps ++ [base]) :
    Hoare (KernelOn e I k₀) (onDev (baseName e path)) fun r k => r = base ∧ KernelOn e I k₀ k := by
  refine onDev_on_eq ?_
  have hok : Hoare (ImageOn e I) (mallocOk e) fun r d => r = true ∧ ImageOn e I d :=
    fun d h => ⟨hmalloc d.ticks, h.tick⟩
  unfold baseName
  refine hok.bind_eq ?_
  refine .pure fun d hd => ⟨?_, hd⟩
  rw [if_pos rfl, getBaseName_eq hend h]
  rfl

/-! ### Where a path leads -/

/-- A directory that is in use. -/
structure IsDir (e : Env) (I : Image) (n : ℕ) : Prop where
  ino : InTable e.sbi n
  used : I.inodeUsed n = true
  mode : (I.inode n).iMode = TFS_DIR

/-- The directories of the image can be searched and entered in, and their entries name inodes
in use, with their blocks in the data area. -/
structure Sound (e : Env) (I : Image) : Prop where
  fits : FreeFits e I
  dirs : ∀ n, IsDir e I n → OpenDir e I (I.inode n)
  entries : ∀ n, IsDir e I n → ∀ j < slots e (I.inode n), slotIno e I.data (I.inode n) j ≠ 0 →
    Releasable e I (slotIno e I.data (I.inode n) j) ∧
      I.inodeUsed (slotIno e I.data (I.inode n) j) = true

theorem NamedAt.live (h : NamedAt e I P name j c) : slotIno e I.data P j ≠ 0 :=
  (slotNamed_iff.mp h.first.2.2.1).1

theorem NamedAt.hasName (h : NamedAt e I P name j c) : HasName e I P name :=
  ⟨j, h.first.2.1, h.first.2.2.1⟩

theorem Sound.releasable (h : Sound e I) (hn : IsDir e I n)
    (hnamed : NamedAt e I (I.inode n) name j c) : Releasable e I c ∧ I.inodeUsed c = true := by
  have := h.entries n hn j hnamed.first.2.1 hnamed.live
  rwa [hnamed.ino] at this

/-- What a walk reaches. -/
inductive Reached
  | inode (n : ℕ)
  | parent (n : ℕ) (base : List UInt8)
  | missing (n : ℕ) (name : List UInt8)

/-- The inode the walk ends at. -/
def Reached.node : Reached → ℕ
  | .inode n => n
  | .parent n _ => n
  | .missing n _ => n

/-- What `namei` makes of it, with the object for the inode. -/
def Reached.walked (obj : ℕ) : Reached → Walked
  | .inode _ => .inode obj
  | .parent _ _ => .parent obj
  | .missing _ name => .missing (-ENOENT) obj name

/-- **A walk** along components, through directories. -/
inductive Walk (e : Env) (I : Image) (flag : ℕ) : List (List UInt8) → ℕ → Reached → Prop
  | stop (n : ℕ) : Walk e I flag [] n (.inode n)
  | parent (hflag : lookupParent flag = true) (base : List UInt8) (n : ℕ) :
    Walk e I flag [base] n (.parent n base)
  | missing {name : List UInt8} {comps : List (List UInt8)} {n : ℕ}
    (hflag : lookupParent flag = true → comps ≠ []) (hdir : IsDir e I n)
    (hlen : name.length ≤ TFS_NAME_LEN) (hno : ¬HasName e I (I.inode n) name) :
    Walk e I flag (name :: comps) n (.missing n name)
  | into {name : List UInt8} {comps : List (List UInt8)} {n j c : ℕ} {out : Reached}
    (hflag : lookupParent flag = true → comps ≠ []) (hdir : IsDir e I n)
    (hlen : name.length ≤ TFS_NAME_LEN) (hnamed : NamedAt e I (I.inode n) name j c)
    (rest : Walk e I flag comps c out) : Walk e I flag (name :: comps) n out

/-- A walk to the directory of a component ends before the last one. -/
theorem Walk.components_eq (h : Walk e I flag comps n (.parent m base)) :
    ∃ cs, comps = cs ++ [base] := by
  generalize hout : Reached.parent m base = out at h
  induction h with
  | stop => cases hout
  | parent hflag base n =>
    cases hout
    exact ⟨[], rfl⟩
  | missing => cases hout
  | @into name comps n j c out hflag hdir hlen hnamed rest ih =>
    obtain ⟨cs, rfl⟩ := ih hout
    exact ⟨name :: cs, rfl⟩

/-- Objects are added to those there are. -/
structure Extends (k₀ k : Kernel) : Prop where
  objs : ∀ o < k₀.nextObj, k.objs o = k₀.objs o
  nextObj : k₀.nextObj ≤ k.nextObj
  root : k.root = k₀.root
  pwd : k.pwd = k₀.pwd

theorem Extends.refl (k : Kernel) : Extends k k := ⟨fun _ _ => rfl, le_refl _, rfl, rfl⟩

theorem Extends.trans (h : Extends k₀ k₁) (h' : Extends k₁ k) : Extends k₀ k :=
  ⟨fun o ho => (h'.objs o (ho.trans_le h.nextObj)).trans (h.objs o ho), h.nextObj.trans h'.nextObj,
    h'.root.trans h.root, h'.pwd.trans h.pwd⟩

theorem extends_addObj (k : Kernel) (inode : Inode) : Extends k (k.addObj inode) :=
  ⟨fun _ ho => addObj_of_lt ho, Nat.le_succ _, rfl, rfl⟩

/-- The object a walk ends with, from a state and an object at the beginning. -/
structure ObjectAt (I : Image) (k₀ k₁ : Kernel) (start obj n : ℕ) : Prop extends Extends k₀ k₁ where
  contents : k₁.objs obj = I.inode n
  lt : obj < k₁.nextObj
  fresh : obj = start ∨ k₀.nextObj ≤ obj

/-! ### `namei` -/

section Walking

variable (hs : Steady e) (hmalloc : ∀ t, e.mallocOk t = true)

include hs hmalloc

/-- **`tfs_iget`.** -/
theorem tfsIget_on (hP : k₀.objs dir = P) (hopen : OpenDir e I P)
    (hlen : name.length ≤ TFS_NAME_LEN)
    (hnz : ∀ c ∈ name, c ≠ 0) (hin : ∀ j c, NamedAt e I P name j c → InTable e.sbi c) :
    Hoare (KernelOn e I k₀) (tfsIget e name dir) fun r k =>
      (¬HasName e I P name ∧ r = .error (-ENOENT) ∧ KernelOn e I k₀ k) ∨
      ∃ j c, NamedAt e I P name j c ∧ r = .ok k₀.nextObj ∧
        KernelOn e I (k₀.addObj (I.inode c)) k := by
  unfold tfsIget
  refine inodeAt_on.bind_eq ?_
  rw [hP]
  refine (onDev_on (tfsFindEntry_image hs hopen.toDirOn hopen.room (.inl hlen) hnz)).bind
    fun res => ?_
  rintro k ⟨hfound, halike⟩
  cases res with
  | null => exact .inl ⟨fun ⟨j, hj, hn⟩ => hfound.2 j hj hn, rfl, hfound.1, halike⟩
  | err => exact hfound.elim
  | found cs de =>
    obtain ⟨i, j, rfl, rfl, hfirst, hhold, -⟩ := hfound
    have hnamed : NamedAt e I P name j (slotIno e I.data P j) := ⟨hfirst, rfl⟩
    have hc := hin j _ hnamed
    have hrest : Hoare (fun k => KernelOn e I k₀ k ∧ HoldingImage e I i (slotBlock e P j) k.dev) (do
          touch dir
          tfsIgetByInr e (← onDev (entryInr (i * e.sbi.sBlockSize + slotPlace e j))))
        fun r k => r = .ok k₀.nextObj ∧
          KernelOn e I (k₀.addObj (I.inode (slotIno e I.data P j))) k := by
      have htouch : Hoare (fun k => KernelOn e I k₀ k ∧ HoldingImage e I i (slotBlock e P j) k.dev)
          (touch dir) fun _ k => KernelOn e I k₀ k ∧ HoldingImage e I i (slotBlock e P j) k.dev :=
        fun k h => by
          refine ⟨touch_on k h.1, ?_⟩
          rw [touch]
          by_cases ha : k.alive dir
          · rw [if_pos ha]
            exact h.2
          · rw [if_neg ha]
            exact h.2
      refine htouch.bind fun _ => ?_
      refine Hoare.bind_eq (v := (slotIno e I.data P j : ℤ)) (S := KernelOn e I k₀) (fun k h => ?_)
        (tfsIgetByInr_ok hs hmalloc hc)
      have hentry := entryInr_image hs hopen.toDirOn hfirst.2.1 h.2
      rw [hc.toS32_eq hs] at hentry
      rw [onDev, hentry]
      exact ⟨rfl, h.1⟩
    obtain ⟨hr, hk⟩ := hrest k ⟨⟨hhold.on, halike⟩, hhold⟩
    exact .inr ⟨j, _, hnamed, hr, hk⟩

/-- What is known where the walk of `namei` ends. -/
def WalkedTo (e : Env) (I : Image) (k₀ : Kernel) (obj : ℕ) (out : Reached) (r : Walked)
    (k : Kernel) : Prop :=
  ∃ obj' k₁, r = out.walked obj' ∧ ObjectAt I k₀ k₁ obj obj' out.node ∧ KernelOn e I k₁ k

/-- One component of the walk. -/
theorem walkInto_on (hsound : Sound e I) (hdir : IsDir e I n) (hP : k₀.objs obj = I.inode n)
    (hobj : obj < k₀.nextObj) (hlen : part.length ≤ TFS_NAME_LEN) (hnz : ∀ c ∈ part, c ≠ 0)
    {next : ℕ → KernelM Walked} {out : Reached}
    (hno : ¬HasName e I (I.inode n) part → out = .missing n part)
    (hnext : ∀ j c, NamedAt e I (I.inode n) part j c →
      Hoare (KernelOn e I (k₀.addObj (I.inode c))) (next k₀.nextObj)
        (WalkedTo e I (k₀.addObj (I.inode c)) k₀.nextObj out)) :
    Hoare (KernelOn e I k₀) (walkInto e part obj next) (WalkedTo e I k₀ obj out) := by
  unfold walkInto
  refine (tfsIget_on hs hmalloc hP (hsound.dirs n hdir) hlen hnz fun j c h =>
    (hsound.releasable hdir h).1.1).bind fun r k hk => ?_
  rcases hk with ⟨hmissing, rfl, hk⟩ | ⟨j, c, hnamed, rfl, hk⟩
  · rw [hno hmissing]
    exact ⟨obj, k₀, rfl, ⟨.refl _, hP, hobj, .inl rfl⟩, hk⟩
  · obtain ⟨obj', k₁, hr, hat, hon⟩ := (freeInode_on.bind fun _ => hnext j c hnamed) k hk
    refine ⟨obj', k₁, hr, ⟨(extends_addObj _ _).trans hat.toExtends, hat.contents, hat.lt,
      .inr ?_⟩, hon⟩
    rcases hat.fresh with rfl | hge
    · exact le_refl _
    · exact (Nat.le_succ _).trans hge

/-- **The walk of `namei`** ends where the walk along the components does. -/
theorem nameiWalk_on (hsound : Sound e I) {out : Reached} (hwalk : Walk e I flag comps n out)
    (hcomps : componentsFrom path part = comps) (hnz : ∀ c ∈ part ++ path, c ≠ 0)
    (hlong : ∀ name ∈ comps, name.length ≤ MAX_NAME_LEN) (hP : k₀.objs obj = I.inode n)
    (hobj : obj < k₀.nextObj) :
    Hoare (KernelOn e I k₀) (nameiWalk e flag path part obj) (WalkedTo e I k₀ obj out) := by
  have hstop : ∀ {k₀ : Kernel} {obj n : ℕ}, k₀.objs obj = I.inode n → obj < k₀.nextObj →
      Hoare (KernelOn e I k₀) (pure (.inode obj)) (WalkedTo e I k₀ obj (.inode n)) := fun hP hobj =>
    .pure fun _ h => ⟨_, _, rfl, ⟨.refl _, hP, hobj, .inl rfl⟩, h⟩
  have hparent : ∀ {base : List UInt8}, Hoare (KernelOn e I k₀) (pure (.parent obj))
      (WalkedTo e I k₀ obj (.parent n base)) :=
    .pure fun _ h => ⟨_, _, rfl, ⟨.refl _, hP, hobj, .inl rfl⟩, h⟩
  induction path generalizing part comps n obj k₀ with
  | nil =>
    rw [nameiWalk]
    rw [componentsFrom] at hcomps
    by_cases hpart : part = []
    · rw [if_pos hpart] at hcomps ⊢
      subst hcomps
      cases hwalk
      exact hstop hP hobj
    · rw [if_neg hpart] at hcomps ⊢
      subst hcomps
      rw [List.append_nil] at hnz
      cases hwalk with
      | parent hflag =>
        rw [if_pos hflag]
        exact hparent
      | missing hflag hdir hlen hno =>
        rw [if_neg fun h => hflag h rfl]
        exact walkInto_on hs hmalloc hsound hdir hP hobj hlen hnz (fun _ => rfl)
          fun j c h => absurd h.hasName hno
      | @into _ _ _ j' c' _ hflag hdir hlen hnamed rest =>
        rw [if_neg fun h => hflag h rfl]
        cases rest
        refine walkInto_on hs hmalloc hsound hdir hP hobj hlen hnz
          (fun hno => absurd hnamed.hasName hno) fun j c h => ?_
        obtain ⟨rfl, rfl⟩ := hnamed.unique h
        exact hstop (addObj_self _ _) (Nat.lt_succ_self _)
  | cons c path ih =>
    rw [nameiWalk]
    by_cases hc : c = slash
    · subst hc
      rw [if_neg (not_not.mpr rfl)]
      have hrest : ∀ c ∈ [] ++ path, c ≠ 0 := fun c hc =>
        hnz c (List.mem_append_right _ (List.mem_cons_of_mem _ hc))
      by_cases hpart : part = []
      · rw [hpart, componentsFrom_slash_nil] at hcomps
        rw [if_pos hpart]
        exact ih hwalk hcomps hrest hlong hP hobj hparent
      · rw [componentsFrom_slash hpart] at hcomps
        rw [if_neg hpart]
        subst hcomps
        have hpnz : ∀ c ∈ part, c ≠ 0 := fun c hc => hnz c (List.mem_append_left _ hc)
        have hmore : (lookupParent flag = true → componentsFrom path [] ≠ []) →
            ¬(lookupParent flag = true ∧ path.all (· = slash) = true) := fun h hall =>
          h hall.1 (componentsFrom_eq_nil.mpr hall.2)
        generalize hcs : componentsFrom path [] = cs at hwalk hlong hmore
        cases hwalk with
        | parent hflag =>
          rw [if_pos ⟨hflag, componentsFrom_eq_nil.mp hcs⟩]
          exact hparent
        | missing hflag hdir hlen hno =>
          rw [if_neg (hmore hflag)]
          exact walkInto_on hs hmalloc hsound hdir hP hobj hlen hpnz (fun _ => rfl)
            fun j c h => absurd h.hasName hno
        | into hflag hdir hlen hnamed rest =>
          rw [if_neg (hmore hflag)]
          refine walkInto_on hs hmalloc hsound hdir hP hobj hlen hpnz
            (fun hno => absurd hnamed.hasName hno) fun j c h => ?_
          obtain ⟨rfl, rfl⟩ := hnamed.unique h
          exact ih rest hcs hrest (fun name hname => hlong name (List.mem_cons_of_mem _ hname))
            (addObj_self _ _) (Nat.lt_succ_self _)
            (.pure fun _ h => ⟨_, _, rfl, ⟨.refl _, addObj_self _ _, Nat.lt_succ_self _, .inl rfl⟩,
              h⟩)
    · rw [componentsFrom_char hc] at hcomps
      obtain ⟨name, cs, heq, hle⟩ := componentsFrom_head path (show part ++ [c] ≠ [] by simp)
      have hshort : name.length ≤ MAX_NAME_LEN := hlong name (by
        rw [← hcomps, heq]
        exact List.mem_cons_self)
      rw [List.length_append, List.length_singleton] at hle
      rw [if_pos hc, if_neg (by omega)]
      exact ih hwalk hcomps (by rwa [List.append_assoc]) hlong hP hobj hparent

/-- The object a walk begins with. -/
def startObj (k : Kernel) (path : List UInt8) : ℕ :=
  if path.head? = some slash then k.root else k.pwd

/-- The walk of the path begins at the inode `n`, which the object shows as it is stored. -/
structure StartsAt (I : Image) (k : Kernel) (path : List UInt8) (n : ℕ) : Prop where
  objs : k.objs (startObj k path) = I.inode n
  lt : startObj k path < k.nextObj

/-- The path of a string, with components that are not too long to be taken apart. -/
structure Readable (path : List UInt8) : Prop where
  nonzero : ∀ c ∈ path, c ≠ 0
  short : ∀ name ∈ components path, name.length ≤ MAX_NAME_LEN

omit hs hmalloc in
theorem start_on : Hoare (KernelOn e I k₀)
    (fun k => (if path.head? = some slash then k.root else k.pwd, k)) fun r k =>
      r = startObj k₀ path ∧ KernelOn e I k₀ k := fun k h =>
  ⟨by rw [startObj, ← h.2.root, ← h.2.pwd], h⟩

/-- **`namei`**, where the walk along the components ends. -/
theorem namei_on (hsound : Sound e I) (hpath : Readable path) (hstart : StartsAt I k₀ path n)
    {out : Reached} (hwalk : Walk e I flag (components path) n out) {Q : Except ℤ ℕ → Kernel → Prop}
    (hfound : ∀ obj k₁, ObjectAt I k₀ k₁ (startObj k₀ path) obj out.node →
      out = .inode out.node ∨ (∃ base, out = .parent out.node base) →
      ∀ k, KernelOn e I k₁ k → Q (.ok obj) k)
    (hmissing : ∀ obj k₁ name, ObjectAt I k₀ k₁ (startObj k₀ path) obj out.node →
      out = .missing out.node name → Hoare (KernelOn e I k₁)
        (if lookupCreate flag then nameiCreate e obj name else pure (.error (-ENOENT))) Q) :
    Hoare (KernelOn e I k₀) (namei e path flag) Q := by
  unfold namei
  refine start_on.bind_eq ?_
  refine (nameiWalk_on hs hmalloc hsound hwalk rfl hpath.nonzero hpath.short hstart.objs
    hstart.lt).bind fun r => ?_
  rintro k ⟨obj, k₁, rfl, hat, hk⟩
  cases out with
  | inode m => exact hfound obj k₁ hat (.inl rfl) k hk
  | parent m base => exact hfound obj k₁ hat (.inr ⟨base, rfl⟩) k hk
  | missing m name =>
    have hif : (if -ENOENT = -ENOENT ∧ lookupCreate flag = true then nameiCreate e obj name
        else pure (.error (-ENOENT)) : KernelM (Except ℤ ℕ)) =
        if lookupCreate flag then nameiCreate e obj name else pure (.error (-ENOENT)) := by
      simp only [true_and]
    have hrest := hmissing obj k₁ name hat rfl k hk
    rw [← hif] at hrest
    exact hrest

/-- **`namei_parent`**, of a path whose directory is there. -/
theorem nameiParent_on (hsound : Sound e I) (hpath : Readable path) (hstart : StartsAt I k₀ path n)
    (hwalk : Walk e I 1 (components path) n (.parent m base)) :
    Hoare (KernelOn e I k₀) (nameiParent e path) fun r k =>
      ∃ obj k₁, r = .ok obj ∧ ObjectAt I k₀ k₁ (startObj k₀ path) obj m ∧ KernelOn e I k₁ k := by
  unfold nameiParent
  refine (namei_on hs hmalloc hsound hpath hstart hwalk (Q := fun r k => ∃ obj k₁, r = .ok obj ∧
    ObjectAt I k₀ k₁ (startObj k₀ path) obj m ∧ KernelOn e I k₁ k)
    (fun obj k₁ hat _ k hk => ⟨obj, k₁, rfl, hat, hk⟩) fun _ _ _ _ h => by cases h).bind fun r => ?_
  rintro k ⟨obj, k₁, rfl, hat, hk⟩
  exact ⟨obj, k₁, rfl, hat, hk⟩

/-- **A call on the parent directory of a path.** -/
theorem withParent_on (hsound : Sound e I) (hpath : Readable path)
    (hend : path.getLast? ≠ some slash)
    (hstart : StartsAt I k₀ path n) (hwalk : Walk e I 1 (components path) n (.parent m base))
    {call : ℕ → List UInt8 → KernelM ℤ} {Q : ℤ → Kernel → Prop}
    (hcall : ∀ obj k₁, ObjectAt I k₀ k₁ (startObj k₀ path) obj m →
      Hoare (KernelOn e I k₁) (call obj base) Q)
    (hfree : ∀ r obj, Hoare (Q r) (freeInode obj) fun _ => Q r) :
    Hoare (KernelOn e I k₀) (withParent e call path) Q := by
  unfold withParent
  refine (nameiParent_on hs hmalloc hsound hpath hstart hwalk).bind fun r => ?_
  rintro k ⟨obj, k₁, rfl, hat, hk⟩
  have hbase : Hoare (KernelOn e I k₁) (onDev (baseName e path)) fun r k =>
      r = base ∧ KernelOn e I k₁ k := by
    obtain ⟨comps, hcomps⟩ := hwalk.components_eq
    exact baseName_on hmalloc hend hcomps
  have hrest : Hoare (KernelOn e I k₁) (do
      touch obj
      let dname ← onDev (baseName e path)
      let err ← call obj dname
      freeInode obj
      pure err) Q :=
    touch_on.bind fun _ => hbase.bind_eq ((hcall obj k₁ hat).bind fun err =>
      (hfree err obj).bind fun _ => .pure fun _ h => h)
  exact hrest k hk

end Walking

end Thunix.Fs
