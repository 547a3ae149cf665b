import Thunix.Fs.DirSize
import Thunix.Fs.NameMap

/-!
# Calls on the names of a directory

A directory is a map from names to inode numbers, and `tfs_mknod`, `tfs_mkdir`, `tfs_unlink`
and `tfs_rmdir` are its operations: a call that succeeds binds its name to the number it has
taken, or unbinds it, and one that fails changes nothing (`Thunix.Fs.NameCall.Binds`). What
`tfs_find_entry` finds after any run of calls is what the map says, except where `tfs_unlink`
has met an inode that is not a file: it removes nothing then, and what it returns has never
been set (`Thunix.Fs.names_kept`).
-/

namespace Thunix.Fs

open SlotMap

variable {e : Env} {I I' : Image} {P P' C : Inode} {k k' : Kernel} {d d' : Dev} {dir c c' n : ℕ}
  {r : ℤ} {name : List UInt8} {m m' m'' : List UInt8 → Option ℕ}

/-! ### The calls -/

/-- The calls that make entries of a directory, and those that remove them. -/
inductive NameCall
  | mknod (name : List UInt8) (mode : ℤ)
  | mkdir (name : List UInt8)
  | unlink (name : List UInt8)
  | rmdir (name : List UInt8)

/-- As a call that changes the size. -/
def NameCall.size : NameCall → SizeCall
  | .mknod name mode => .mknod name mode
  | .mkdir name => .mkdir name
  | .unlink name => .unlink name
  | .rmdir name => .rmdir name

/-- The call of the program, with the result 0 where it succeeds. -/
def nameCall (e : Env) (dir : ℕ) (call : NameCall) : KernelM ℤ := sizeCall e dir call.size

/-- The name it is given. -/
def NameCall.entry (call : NameCall) : List UInt8 := call.size.entry

/-- It makes an entry. -/
def NameCall.Makes (call : NameCall) : Prop := call.size.Makes

/-- The blocks it needs are free. -/
def NameCall.Blocks (e : Env) (I : Image) (P : Inode) : NameCall → Prop
  | .mknod _ _ => BlockFor e I P
  | .mkdir _ => BlocksFor e I P
  | .unlink _ => True
  | .rmdir _ => True

/-! ### The map of a run -/

/-- The bit of an inode number in the bitmap on the disk. -/
def Dev.inodeUsed (e : Env) (d : Dev) (n : ℕ) : Bool :=
  usedIn (diskBlock e.sbi d.disk e.sbi.sInodeBitmap) (n - 1)

theorem ImageOn.inodeUsed (g : Geometry e.sbi) (h : ImageOn e I d) (h1 : 1 ≤ n)
    (hn : n ≤ 8 * e.sbi.sBlockSize) : d.inodeUsed e n = I.inodeUsed n := by
  obtain ⟨v, hv, hshow⟩ := h
  obtain ⟨j, rfl⟩ := Nat.exists_eq_add_of_le' h1
  have hdisk := hv.2.disk _ g.inodeBitmap_mem
  rw [← hshow.inodeUsed j (by omega), Dev.inodeUsed, Nat.add_sub_cancel, usedIn, usedIn, bit, bit,
    Nat.zero_add, hdisk (j / 8) (by omega)]

variable {call : NameCall}

/-- The one number that was free before and is in use afterwards. -/
def Took (e : Env) (d d' : Dev) (c : ℕ) : Prop :=
  (1 ≤ c ∧ c ≤ 8 * e.sbi.sBlockSize) ∧ ∀ n, 1 ≤ n → n ≤ 8 * e.sbi.sBlockSize →
    (d.inodeUsed e n = false ∧ d'.inodeUsed e n = true ↔ n = c)

theorem Took.unique (h : Took e d d' c) (h' : Took e d d' c') : c = c' :=
  (h'.2 c h.1.1 h.1.2).mp ((h.2 c h.1.1 h.1.2).mpr rfl)

/-- **What a call makes of the map**, with the result `r`. -/
inductive NameCall.Binds (e : Env) (d d' : Dev) (r : ℤ) (m : List UInt8 → Option ℕ)
    (call : NameCall) : (List UInt8 → Option ℕ) → Prop
  | made {c : ℕ} (makes : call.Makes) (ok : r = 0) (took : Took e d d' c) :
      Binds e d d' r m call (Function.update m call.entry (some c))
  | removed (removes : ¬call.Makes) (ok : r = 0) :
      Binds e d d' r m call (Function.update m call.entry none)
  | failed (fails : r ≠ 0) : Binds e d d' r m call m

theorem NameCall.Binds.unique (h : call.Binds e d d' r m m') (h' : call.Binds e d d' r m m'') :
    m' = m'' := by
  cases h with
  | made makes ok took =>
    cases h' with
    | made _ _ took' => rw [took.unique took']
    | removed removes => exact absurd makes removes
    | failed fails => exact absurd ok fails
  | removed removes ok =>
    cases h' with
    | made makes => exact absurd makes removes
    | removed => rfl
    | failed fails => exact absurd ok fails
  | failed fails =>
    cases h' with
    | made _ ok => exact absurd ok fails
    | removed _ ok => exact absurd ok fails
    | failed => rfl

/-- A state, with the map that the calls so far have made. -/
abbrev Named := Kernel × (List UInt8 → Option ℕ)

/-- A step of a run. -/
def NameStep (e : Env) (dir : ℕ) (s : Named) (call : NameCall) (s' : Named) : Prop :=
  s'.1 = (nameCall e dir call s.1).2 ∧
    call.Binds e s.1.dev s'.1.dev (nameCall e dir call s.1).1 s.2 s'.2

/-- The step that a call takes. -/
theorem nameStep_of
    (h : call.Binds e k.dev (nameCall e dir call k).2.dev (nameCall e dir call k).1 m m') :
    NameStep e dir (k, m) call ((nameCall e dir call k).2, m') := ⟨rfl, h⟩

/-- What is promised to a call: its name is one for an entry, the blocks it needs are free, and
the directory does not get its last block. -/
structure Supplied (e : Env) (dir : ℕ) (s : Named) (call : NameCall) : Prop where
  name : EntryName call.entry
  blocks : s.2 call.entry = none → ∀ I, ImageOn e I s.1.dev → call.Blocks e I (s.1.objs dir)
  room : ((nameCall e dir call s.1).2.objs dir).blocks < TFS_N_BLOCKS

/-- What the call returns is not a 0 that has never been set: what `tfs_unlink` is to remove is a
file. -/
def ResultSet (e : Env) (s : Named) (call : NameCall) : Prop :=
  ∀ name c, call = .unlink name → s.2 name = some c →
    (s.1.dev.record e c).iMode = TFS_FILE ∨ ∀ t, e.junk t ≠ 0

/-- The directory keeps the map. -/
def NamesOn (e : Env) (dir : ℕ) (s : Named) : Prop :=
  dir < s.1.nextObj ∧ ∃ I, ImageOn e I s.1.dev ∧ DirMap e I (s.1.objs dir) s.2

/-! ### One call -/

/-- What a call is to do, with the result `r`: the map follows it, a name that is there is not made
again, and one that is not there is not removed. -/
structure Follows (e : Env) (dir : ℕ) (k : Kernel) (m : List UInt8 → Option ℕ) (call : NameCall)
    (r : ℤ) (k' : Kernel) : Prop where
  binds : ∃ m', call.Binds e k.dev k'.dev r m m' ∧ NamesOn e dir (k', m')
  existing : call.Makes → m call.entry ≠ none → r = -EEXIST
  missing : ¬call.Makes → m call.entry = none → r = -ENOENT

/-- A call that fails: the name is there already, or not, or there is another reason. -/
theorem Follows.of_failed (hfail : r ≠ 0) (hon : NamesOn e dir (k', m))
    (hmade : call.Makes → r = -EEXIST ∨ m call.entry = none)
    (hremoved : ¬call.Makes → r = -ENOENT ∨ m call.entry ≠ none) :
    Follows e dir k m call r k' := by
  refine ⟨⟨m, .failed hfail, hon⟩, fun hmakes hsome => ?_, fun hnot hnone => ?_⟩
  · exact (hmade hmakes).resolve_right hsome
  · exact (hremoved hnot).resolve_right (not_not.mpr hnone)

/-- A call that binds its name. -/
theorem Follows.of_made (hmakes : call.Makes) (ht : Took e k.dev k'.dev c)
    (hon : NamesOn e dir (k', Function.update m call.entry (some c)))
    (hnone : m call.entry = none) : Follows e dir k m call 0 k' :=
  ⟨⟨_, .made hmakes rfl ht, hon⟩, fun _ hsome => absurd hnone hsome, absurd hmakes⟩

/-- A call that unbinds it. -/
theorem Follows.of_removed (hnot : ¬call.Makes)
    (hon : NamesOn e dir (k', Function.update m call.entry none))
    (hsome : m call.entry ≠ none) : Follows e dir k m call 0 k' :=
  ⟨⟨_, .removed hnot rfl, hon⟩, fun hmakes => absurd hmakes hnot, fun _ hnone => absurd hnone hsome⟩

/-- From what is known of the image and the objects. -/
theorem namesOn_of_on {k₀ : Kernel} (hk : KernelOn e I' k₀ k') (hP : k₀.objs dir = P')
    (hdir : dir < k₀.nextObj) (h : DirMap e I' P' m) : NamesOn e dir (k', m) := by
  have hobj : k'.objs dir = P' := (congrFun hk.2.objs dir).trans hP
  exact ⟨hk.2.nextObj.symm ▸ hdir, I', hk.1, hobj.symm ▸ h⟩

/-- A number that was free has been taken. -/
theorem took_of_update (g : Geometry e.sbi) (hI : ImageOn e I d) (hI' : ImageOn e I' d')
    (hc : FreshInode e I c) (hused : I'.inodeUsed = Function.update I.inodeUsed c true) :
    Took e d d' c := by
  refine ⟨⟨hc.1.1, hc.1.2.trans g.inodes⟩, fun n h1 hn => ?_⟩
  rw [hI.inodeUsed g h1 hn, hI'.inodeUsed g h1 hn, hused]
  rcases eq_or_ne n c with rfl | hne
  · rw [Function.update_self]
    exact iff_of_true ⟨hc.2, rfl⟩ rfl
  · rw [Function.update_of_ne hne]
    refine iff_of_false (fun h => ?_) hne
    rw [h.1] at h
    cases h.2

/-- **What `tfs_mkdir` has done** binds the name: the entries of the new directory are in a block of
its own. -/
theorem DirMap.mkdir (hs : Steady e) (h : DirMap e I P m) (hname : EntryName name)
    (hnone : ¬HasName e I P name) (hc : FreshInode e I c) (hmade : DirMade e I P c name I' P' C)
    (hroom : P'.blocks < TFS_N_BLOCKS) :
    DirMap e I' P' (Function.update m name (some c)) ∧
      I'.inodeUsed = Function.update I.inodeUsed c true := by
  obtain ⟨I₁, I₂, C₁, h1, h2, h3⟩ := hmade
  have hopen : OpenDir e (I.make c (freshInode TFS_DIR c P)) P := { h.isOpen with }
  have hself : Function.update m name (some c) name = some c := Function.update_self _ _ _
  obtain ⟨hmap, hchild⟩ := h.enter hs hname hnone hc rfl h1 hroom
  have hgrows1 := (h1.grows hs hopen h.fits.blocks).1
  -- the entry `.`
  have hopenC : OpenDir e I₁ (freshInode TFS_DIR c P) := freshInode_open hc.1 hs h.isOpen.stored
  have hfit1 := h1.freeInData h.fits.blocks
  obtain ⟨hgrows2, hinode2⟩ := h2.grows hs hopenC hfit1
  have hblocks : C₁.blocks ≤ 1 := (h2.blocks_used hs hopenC hfit1).2
  have hopen1 := h2.open hs hopenC hfit1 (lt_of_le_of_lt hblocks (by decide))
  have hfit2 := h2.freeInData hfit1
  have hmap1 := hmap.grow hs hself hchild hgrows2 hinode2 hopen1 hfit2
  -- the entry `..`
  have hino1 : C₁.iIno = c := h2.iIno
  obtain ⟨hgrows3, hinode3⟩ := h3.grows hs hopen1 hfit2
  have hblocks' := (h3.blocks_used hs hopen1 hfit2).2
  have hopen2 := h3.open hs hopen1 hfit2 (lt_of_le_of_lt hblocks' (by rw [TFS_N_BLOCKS]; omega))
  have hchild1 : I₂.inode c = C₁ := by
    rw [hinode2]
    exact Function.update_self _ _ _
  rw [hino1] at hinode3
  refine ⟨hmap1.grow hs hself hchild1 hgrows3 hinode3 hopen2 (h3.freeInData hfit2), ?_⟩
  rw [hgrows3.inodeUsed, hgrows2.inodeUsed, hgrows1.inodeUsed]
  rfl

section Calls

variable (hs : Steady e) (hdir : dir < k.nextObj) (hI : ImageOn e I k.dev)
  (h : DirMap e I (k.objs dir) m) (hname : EntryName name)

include hs hdir hI h hname

/-- **`tfs_mknod`** binds the name to the number it has taken. -/
theorem mknod_follows {mode : ℤ} (hblock : m name = none → BlockFor e I (k.objs dir)) :
    Hoare (KernelOn e I k) (nameCall e dir (.mknod name mode)) fun r k' =>
      (k'.objs dir).blocks < TFS_N_BLOCKS → Follows e dir k m (.mknod name mode) r k' := by
  have hnone := h.eq_none_iff hname
  have hmakes : (NameCall.mknod name mode).Makes := trivial
  refine (tfsMknod_on hs rfl hdir h.isOpen h.fits (.inl hname.length) hname.nonzero
    fun hno _ => hblock (hnone.mpr hno)).bind fun r k' hk => ?_
  rcases hk with ⟨-, rfl, hk⟩ | ⟨hno, ⟨rfl, -, hk⟩ | ⟨rfl, -, i, hk⟩ | ⟨c, hc, ⟨hlong, -⟩ |
    ⟨-, rfl, I', P', hent, hk⟩⟩⟩ <;> intro hroom
  · exact .of_failed (show (-EEXIST : ℤ) ≠ 0 by decide) (namesOn_of_on hk rfl hdir h)
      (fun _ => .inl rfl) (absurd hmakes)
  · exact .of_failed (show (-ENOMEM : ℤ) ≠ 0 by decide) (namesOn_of_on hk rfl hdir h)
      (fun _ => .inr (hnone.mpr hno)) (absurd hmakes)
  · -- the object that has been made stays
    exact .of_failed (show (-ENOSPC : ℤ) ≠ 0 by decide)
      (namesOn_of_on hk (addObj_of_lt hdir) (Nat.lt_succ_of_lt hdir) h)
      (fun _ => .inr (hnone.mpr hno)) (absurd hmakes)
  · exact absurd hname.length (Nat.not_le.mpr hlong)
  · have hobj : k'.objs dir = P' := (congrFun hk.2.objs dir).trans (setObj_self _ _ _)
    obtain ⟨hmap, -⟩ := h.enter hs hname hno hc rfl hent (hobj ▸ hroom)
    have hopen : OpenDir e (I.make c ((freshInode mode c (k.objs dir)).stored e)) (k.objs dir) :=
      { h.isOpen with }
    have hgrows := (hent.grows hs hopen h.fits.blocks).1
    exact .of_made hmakes (took_of_update hs.geometry hI hk.1 hc hgrows.inodeUsed)
      (namesOn_of_on hk (setObj_self _ _ _) (Nat.lt_succ_of_lt hdir) hmap) (hnone.mpr hno)

/-- **`tfs_mkdir`** binds the name to the number it has taken. -/
theorem mkdir_follows (hblocks : m name = none → BlocksFor e I (k.objs dir)) :
    Hoare (KernelOn e I k) (nameCall e dir (.mkdir name)) fun r k' =>
      (k'.objs dir).blocks < TFS_N_BLOCKS → Follows e dir k m (.mkdir name) r k' := by
  have hnone := h.eq_none_iff hname
  have hmakes : (NameCall.mkdir name).Makes := trivial
  refine (tfsMkdir_on hs rfl hdir h.isOpen h.fits hname.length hname.nonzero
    fun hno => hblocks (hnone.mpr hno)).post ?_
  rintro r k' (⟨-, rfl, hk⟩ | ⟨hno, rfl, -, hk⟩ | ⟨hno, -, rfl, i, hk⟩ |
    ⟨hno, rfl, c, I', P', C, hc, hmade, hk⟩) <;> intro hroom
  · exact .of_failed (show (-EEXIST : ℤ) ≠ 0 by decide) (namesOn_of_on hk rfl hdir h)
      (fun _ => .inl rfl) (absurd hmakes)
  · exact .of_failed (show (-ENOMEM : ℤ) ≠ 0 by decide) (namesOn_of_on hk rfl hdir h)
      (fun _ => .inr (hnone.mpr hno)) (absurd hmakes)
  · exact .of_failed (show (-ENOSPC : ℤ) ≠ 0 by decide)
      (namesOn_of_on hk (addObj_of_lt hdir) (Nat.lt_succ_of_lt hdir) h)
      (fun _ => .inr (hnone.mpr hno)) (absurd hmakes)
  · have hobj : k'.objs dir = P' := (congrFun hk.2.objs dir).trans (setObj_self _ _ _)
    obtain ⟨hmap, hused⟩ := h.mkdir hs hname hno hc hmade (hobj ▸ hroom)
    exact .of_made hmakes (took_of_update hs.geometry hI hk.1 hc hused)
      (namesOn_of_on hk (setObj_self _ _ _) (Nat.lt_succ_of_lt hdir) hmap) (hnone.mpr hno)

/-- An entry has been removed. -/
theorem DirMap.removedOn {j : ℕ} (hcall : call.entry = name) (hnot : ¬call.Makes)
    (hnamed : NamedAt e I (k.objs dir) name j c)
    (hk : RemovedOn e I k dir (k.objs dir) j c k') : Follows e dir k m call 0 k' := by
  subst hcall
  have hrel := h.releasable hname hnamed
  have hmap := h.remove hs.geometry.mounted hname hnamed (hI.iIno hs.geometry hrel.1)
  refine .of_removed hnot
    (namesOn_of_on hk (setObj_self _ _ _) (Nat.lt_succ_of_lt hdir) hmap) ?_
  rw [h.named hname hnamed]
  exact Option.some_ne_none c

variable (hentries : 3 ≤ numEntries e.sbi.sBlockShift)

include hentries

/-- **`tfs_unlink`** unbinds the name of a file. -/
theorem unlink_follows (hset : ResultSet e (k, m) (.unlink name)) :
    Hoare (KernelOn e I k) (nameCall e dir (.unlink name)) fun r k' =>
      Follows e dir k m (.unlink name) r k' := by
  have hnone := h.eq_none_iff hname
  have hnot : ¬(NameCall.unlink name).Makes := id
  refine (tfsUnlink_on hs hentries rfl hdir h.isOpen (.inl hname.length) hname.nonzero
    fun j c hc => h.releasable hname hc).post ?_
  rintro r k' (⟨hno, rfl, hk⟩ | ⟨hhas, rfl, -, hk⟩ | ⟨j, c, hnamed, ⟨-, rfl, hk⟩ |
    ⟨hmode, ⟨t, rfl⟩, hk⟩⟩)
  · exact .of_failed (by decide) (namesOn_of_on hk rfl hdir h) (fun hmakes => absurd hmakes hnot)
      fun _ => .inl rfl
  · exact .of_failed (by decide) (namesOn_of_on hk rfl hdir h) (fun hmakes => absurd hmakes hnot)
      fun _ => .inr fun hmissing => hnone.mp hmissing hhas
  · exact h.removedOn hs hdir hI hname rfl hnot hnamed hk
  · -- what is returned has never been set, and nothing has been removed
    have hbound := h.named hname hnamed
    have hfail : e.junk t ≠ 0 := by
      rcases hset name c rfl hbound with hfile | hjunk
      · rw [hI.record hs.geometry (h.child name c hbound).ino] at hfile
        exact absurd hfile hmode
      · exact hjunk t
    exact .of_failed hfail (namesOn_of_on hk (addObj_of_lt hdir) (Nat.lt_succ_of_lt hdir) h)
      (fun hmakes => absurd hmakes hnot)
      fun _ => .inr (ne_of_eq_of_ne hbound (Option.some_ne_none c))

/-- **`tfs_rmdir`** unbinds the name of an empty directory. -/
theorem rmdir_follows :
    Hoare (KernelOn e I k) (nameCall e dir (.rmdir name)) fun r k' =>
      Follows e dir k m (.rmdir name) r k' := by
  have hnone := h.eq_none_iff hname
  have hnot : ¬(NameCall.rmdir name).Makes := id
  refine (tfsRmdir_on hs hentries rfl hdir h.isOpen (.inl hname.length) hname.nonzero
    fun j c hc => h.releasable hname hc).post ?_
  rintro r k' (⟨hno, rfl, hk⟩ | ⟨hhas, rfl, -, hk⟩ | ⟨j, c, hnamed, ⟨-, rfl, hk⟩ | ⟨-, hfail, hk⟩⟩)
  · exact .of_failed (by decide) (namesOn_of_on hk rfl hdir h) (fun hmakes => absurd hmakes hnot)
      fun _ => .inl rfl
  · exact .of_failed (by decide) (namesOn_of_on hk rfl hdir h) (fun hmakes => absurd hmakes hnot)
      fun _ => .inr fun hmissing => hnone.mp hmissing hhas
  · exact h.removedOn hs hdir hI hname rfl hnot hnamed hk
  · exact .of_failed hfail (namesOn_of_on hk (addObj_of_lt hdir) (Nat.lt_succ_of_lt hdir) h)
      (fun hmakes => absurd hmakes hnot)
      fun _ => .inr (ne_of_eq_of_ne (h.named hname hnamed) (Option.some_ne_none c))

end Calls

/-! ### Runs -/

/-- The image of a device says what the blocks of the data area hold. -/
theorem ImageOn.agree (hI : ImageOn e I d) (hI' : ImageOn e I' d) {b : ℕ} (hb : InData e.sbi b) :
    Agree e.sbi.sBlockSize (I.data b) (I'.data b) := by
  obtain ⟨v, hv, hshow⟩ := hI
  obtain ⟨v', hv', hshow'⟩ := hI'
  intro x hx
  rw [← hshow.data b hb x hx, ← hshow'.data b hb x hx, ← hv.2.disk b hb.2 x hx,
    hv'.2.disk b hb.2 x hx]

/-- **The directory is the map**: what `tfs_find_entry` finds is what the map says, and no two
entries have the same name. -/
structure IsMap (e : Env) (dir : ℕ) (s : Named) : Prop where
  finds : ∀ name c, s.2 name = some c → ∃ cs de,
    (tfsFindEntry e (s.1.objs dir) name s.1.dev).1 = .found cs de ∧
      (entryInr de (tfsFindEntry e (s.1.objs dir) name s.1.dev).2).1 = c
  misses : ∀ name, EntryName name → s.2 name = none →
    (tfsFindEntry e (s.1.objs dir) name s.1.dev).1 = .null
  once : ∀ I, ImageOn e I s.1.dev → Once (dirTable e I (s.1.objs dir))

/-- What is promised of the next call: it has a number to bind its name to, a name that is there
is not made again, and one that is not there is not removed. -/
structure CallSound (e : Env) (dir : ℕ) (s : Named) (call : NameCall) : Prop where
  continues : ∃ s', NameStep e dir s call s'
  existing : call.Makes → s.2 call.entry ≠ none → (nameCall e dir call s.1).1 = -EEXIST
  missing : ¬call.Makes → s.2 call.entry = none → (nameCall e dir call s.1).1 = -ENOENT

section Runs

variable (hs : Steady e) {s s₀ : Named}

include hs

theorem NamesOn.isMap (h : NamesOn e dir s) : IsMap e dir s := by
  obtain ⟨-, I, hI, h⟩ := h
  have hm := hs.geometry.mounted
  have hfind : ∀ name, EntryName name → FoundIn e I (s.1.objs dir) name
      (tfsFindEntry e (s.1.objs dir) name s.1.dev).1
      (tfsFindEntry e (s.1.objs dir) name s.1.dev).2 := fun name hname =>
    tfsFindEntry_image hs h.isOpen.toDirOn h.isOpen.room (.inl hname.length) hname.nonzero _ hI
  refine ⟨fun name c hc => ?_, fun name hname hnone => ?_, fun I' hI' => ?_⟩
  · have hname := h.names name c hc
    have hfound := hfind name hname
    generalize tfsFindEntry e (s.1.objs dir) name s.1.dev = res at hfound
    obtain ⟨res, d⟩ := res
    cases res with
    | null =>
      have hno : ¬HasName e I (s.1.objs dir) name := by
        rintro ⟨j, hj, hn⟩
        exact hfound.2 j hj hn
      exact absurd (hc.symm.trans ((h.eq_none_iff hname).mpr hno)) (Option.some_ne_none c)
    | err => exact hfound.elim
    | found cs de =>
      obtain ⟨i, j, rfl, rfl, hfirst, hhold, -⟩ := hfound
      refine ⟨_, _, rfl, ?_⟩
      have hbound := h.named hname ⟨hfirst, rfl⟩
      rw [entryInr_image hs h.isOpen.toDirOn hfirst.2.1 hhold,
        Option.some.inj (hbound.symm.trans hc)]
      exact (h.child name c hc).ino.toS32_eq hs
  · have hfound := hfind name hname
    have hno := (h.eq_none_iff hname).mp hnone
    generalize tfsFindEntry e (s.1.objs dir) name s.1.dev = res at hfound ⊢
    obtain ⟨res, d⟩ := res
    cases res with
    | null => rfl
    | err => exact hfound.elim
    | found cs de =>
      obtain ⟨i, j, -, -, hfirst, -⟩ := hfound
      exact absurd ⟨j, hfirst.2.1, hfirst.2.2.1⟩ hno
  · have htable : dirTable e I' (s.1.objs dir) = dirTable e I (s.1.objs dir) :=
      funext fun j => dirTable_congr Iff.rfl fun hj => slotBytes_agree hm
        (hI'.agree hI (h.isOpen.area _ (div_lt_blocks hm hj)))
    rw [htable]
    exact h.keeps.once

variable (hentries : 3 ≤ numEntries e.sbi.sBlockShift)

include hentries

/-- **One call.** -/
theorem NamesOn.follows (h : NamesOn e dir s) (hsup : Supplied e dir s call)
    (hset : ResultSet e s call) : Follows e dir s.1 s.2 call (nameCall e dir call s.1).1
      (nameCall e dir call s.1).2 := by
  obtain ⟨hdir, I, hI, h⟩ := h
  obtain ⟨hname, hblocks, hroom⟩ := hsup
  have hon : KernelOn e I s.1 s.1 := ⟨hI, .refl s.1⟩
  cases call with
  | mknod name mode =>
    exact mknod_follows hs hdir hI h hname (fun hnone => hblocks hnone I hI) s.1 hon hroom
  | mkdir name =>
    exact mkdir_follows hs hdir hI h hname (fun hnone => hblocks hnone I hI) s.1 hon hroom
  | unlink name => exact unlink_follows hs hdir hI h hname hentries hset s.1 hon
  | rmdir name => exact rmdir_follows hs hdir hI h hname hentries s.1 hon

/-- The map goes on. -/
theorem NamesOn.next (h : NamesOn e dir (k, m)) (hsup : Supplied e dir (k, m) call)
    (hset : ResultSet e (k, m) call) :
    ∃ m', NameStep e dir (k, m) call ((nameCall e dir call k).2, m') := by
  obtain ⟨⟨m', hbinds, -⟩, -, -⟩ := h.follows hs hentries hsup hset
  exact ⟨m', nameStep_of hbinds⟩

theorem NamesOn.step (h : NamesOn e dir s) (hsup : Supplied e dir s call)
    (hset : ResultSet e s call) {s' : Named} (hstep : NameStep e dir s call s') :
    NamesOn e dir s' := by
  obtain ⟨k', m'⟩ := s'
  obtain ⟨rfl, hbinds⟩ := hstep
  obtain ⟨⟨m, hm, hon⟩, -, -⟩ := h.follows hs hentries hsup hset
  obtain rfl : m' = m := NameCall.Binds.unique hbinds hm
  exact hon

/-- **A directory is a map, in every run** of calls in which `tfs_unlink` meets files only. -/
theorem names_kept (h : NamesOn e dir s₀)
    (hrun : Reach (NameStep e dir) (fun s call => Supplied e dir s call ∧ ResultSet e s call)
      s₀ s) : IsMap e dir s ∧ ∀ call, Supplied e dir s call → ResultSet e s call →
        CallSound e dir s call := by
  have hon : NamesOn e dir s := hrun.invariant h fun s call s' hs' hok hstep =>
    hs'.step hs hentries hok.1 hok.2 hstep
  refine ⟨hon.isMap hs, fun call hsup hset => ?_⟩
  obtain ⟨-, hexisting, hmissing⟩ := hon.follows hs hentries hsup hset
  obtain ⟨m', hstep⟩ := hon.next hs hentries hsup hset
  exact ⟨⟨_, hstep⟩, hexisting, hmissing⟩

end Runs

/-! ### A directory that is unlinked -/

/-- The root of the small volume binds the name of its file. -/
def filedMap : List UInt8 → Option ℕ := Function.update (fun _ => none) [97] (some 2)

theorem filedMap_eq_some_iff : filedMap name = some c ↔ name = [97] ∧ c = 2 := by
  rw [filedMap, update_eq_some_iff]
  exact or_iff_left fun h => absurd h.2.symm (Option.some_ne_none c)

/-- The entries of the root. -/
def filedEntries : List (List UInt8 × ℕ) := [(dot, 1), (dot ++ dot, 1), ([97], 2)]

theorem dirTable_filed (j : ℕ) :
    dirTable (Env.quiet (smallSbi 9)) filedImage (filedKernel.objs 0) j = filedEntries[j]? := by
  have hall : ∀ j < 16, dirTable (Env.quiet (smallSbi 9)) filedImage (filedKernel.objs 0) j =
      filedEntries[j]? := by
    decide +kernel
  rcases Nat.lt_or_ge j 16 with hlt | hge
  · exact hall j hlt
  · rw [dirTable, if_neg fun h => absurd h.1 (Nat.not_lt.mpr hge), eq_comm, List.getElem?_eq_none]
    exact le_trans (by decide) hge

theorem once_filed :
    Once (dirTable (Env.quiet (smallSbi 9)) filedImage (filedKernel.objs 0)) := by
  intro i j a b c hi hj
  rw [dirTable_filed] at hi hj
  have hnodup : (filedEntries.map Prod.fst).Nodup := by decide
  have hi' : (filedEntries.map Prod.fst)[i]? = some a := by
    rw [List.getElem?_map, hi, Option.map_some]
  have hj' : (filedEntries.map Prod.fst)[j]? = some a := by
    rw [List.getElem?_map, hj, Option.map_some]
  exact (List.getElem?_inj (List.getElem?_eq_some_iff.mp hi').1 hnodup).mp (hi'.trans hj'.symm)

theorem entryName_letter {c : UInt8} (h0 : c ≠ 0) (hdot : c ≠ 46) : EntryName [c] :=
  ⟨List.cons_ne_nil _ _, show 1 ≤ TFS_NAME_LEN by decide, by simpa using h0,
    by simpa [dot] using hdot, by simp [dot]⟩

theorem namesOn_filed : NamesOn (Env.quiet (smallSbi 9)) 0 (filedKernel, filedMap) := by
  refine ⟨by decide, filedImage, imageOn_filed, openDir_filed, dirReady_filed.fits, by decide,
    ⟨once_filed, fun a ha b => ?_⟩, fun a n ha => ?_, fun a n ha => ?_,
    fun a a' n n' ha ha' hne => ?_⟩
  · rw [filedMap_eq_some_iff]
    constructor
    · rintro ⟨rfl, rfl⟩
      exact ⟨2, namedAt_filed.table⟩
    · rintro ⟨j, hj⟩
      rw [dirTable_filed] at hj
      have hmem : (a, b) = (dot, 1) ∨ (a, b) = (dot ++ dot, 1) ∨ (a, b) = ([97], 2) := by
        simpa [filedEntries] using List.mem_of_getElem? hj
      rcases hmem with hx | hx | hx
      · exact absurd (congrArg Prod.fst hx) ha.notDots.1
      · exact absurd (congrArg Prod.fst hx) ha.notDots.2
      · exact Prod.mk.inj hx
  · obtain ⟨rfl, -⟩ := filedMap_eq_some_iff.mp ha
    exact entryName_letter (by decide) (by decide)
  · obtain ⟨-, rfl⟩ := filedMap_eq_some_iff.mp ha
    refine ⟨show 1 ≤ 2 ∧ 2 ≤ 16 by decide, by decide, by decide, fun b hb => ?_⟩
    obtain ⟨k, hk, rfl⟩ := Inode.mem_blockList.mp hb
    rw [(filedImage_words (.inr rfl) (Inode.getD_ne hk)).2]
    exact ⟨show 6 ≤ 7 ∧ 7 < 32 by decide, by decide, by decide⟩
  · obtain ⟨rfl, -⟩ := filedMap_eq_some_iff.mp ha
    obtain ⟨rfl, -⟩ := filedMap_eq_some_iff.mp ha'
    exact absurd rfl hne

/-- The file is removed: then the directory is the empty map. -/
theorem names_kept_filed :
    IsMap (Env.quiet (smallSbi 9)) 0
      ((nameCall (Env.quiet (smallSbi 9)) 0 (.unlink [97]) filedKernel).2,
        Function.update filedMap [97] none) := by
  have hsup : Supplied (Env.quiet (smallSbi 9)) 0 (filedKernel, filedMap) (.unlink [97]) :=
    ⟨entryName_letter (by decide) (by decide), fun _ _ _ => trivial, by decide +kernel⟩
  have hset : ResultSet (Env.quiet (smallSbi 9)) (filedKernel, filedMap) (.unlink [97]) := by
    intro name c _ hc
    obtain ⟨-, rfl⟩ := filedMap_eq_some_iff.mp hc
    exact .inl (by decide +kernel)
  have hstep : NameStep (Env.quiet (smallSbi 9)) 0 (filedKernel, filedMap) (.unlink [97])
      ((nameCall (Env.quiet (smallSbi 9)) 0 (.unlink [97]) filedKernel).2,
        Function.update filedMap [97] none) :=
    nameStep_of (.removed id (by decide +kernel))
  exact (names_kept steady_small (by decide) namesOn_filed (.step .start ⟨hsup, hset⟩ hstep)).1

/-- On the volume there are two free blocks. -/
theorem freeCount_filed {I : Image} (hI : ImageOn (Env.quiet (smallSbi 9)) I filedKernel.dev) :
    1 < freeCount (Env.quiet (smallSbi 9)) I := by
  have hfree : ∀ b, b = 8 ∨ b = 9 → I.blockUsed b = false := by
    intro b hb
    rw [← hI.blockUsed geometry_small (show b < 4096 by omega)]
    rcases hb with rfl | rfl <;> decide +kernel
  refine Finset.one_lt_card.mpr ⟨8, ?_, 9, ?_, by decide⟩
  · exact Finset.mem_filter.mpr ⟨Finset.mem_range.mpr (by decide), hfree 8 (.inl rfl)⟩
  · exact Finset.mem_filter.mpr ⟨Finset.mem_range.mpr (by decide), hfree 9 (.inr rfl)⟩

/-- A call of `tfs_unlink` that returns 0 and leaves the entry. -/
theorem not_isMap {s₀ : Named} (hrun : Reach (NameStep e dir) (Supplied e dir) s₀ (k, m))
    (hname : EntryName name)
    (hroom : ((nameCall e dir (.unlink name) k).2.objs dir).blocks < TFS_N_BLOCKS)
    (hzero : (nameCall e dir (.unlink name) k).1 = 0)
    (hfound : (tfsFindEntry e ((nameCall e dir (.unlink name) k).2.objs dir) name
      (nameCall e dir (.unlink name) k).2.dev).1 ≠ .null) :
    ¬∀ s, Reach (NameStep e dir) (Supplied e dir) s₀ s → IsMap e dir s := by
  intro h
  have hsup : Supplied e dir (k, m) (.unlink name) := ⟨hname, fun _ _ _ => trivial, hroom⟩
  have hstep : NameStep e dir (k, m) (.unlink name)
      ((nameCall e dir (.unlink name) k).2, Function.update m name none) :=
    nameStep_of (.removed id hzero)
  exact hfound ((h _ (hrun.step hsup hstep)).misses name hname (Function.update_self _ _ _))

/-- **A directory is unlinked**: the call returns 0, and `tfs_find_entry` still finds it. -/
theorem not_names_kept :
    ¬∀ (e : Env) (dir : ℕ) (s₀ s : Named), Steady e → 3 ≤ numEntries e.sbi.sBlockShift →
      NamesOn e dir s₀ → Reach (NameStep e dir) (Supplied e dir) s₀ s → IsMap e dir s := by
  intro h
  have hname : EntryName [100] := entryName_letter (by decide) (by decide)
  have hsup : Supplied (Env.quiet (smallSbi 9)) 0 (filedKernel, filedMap) (.mkdir [100]) :=
    ⟨hname, fun _ I hI => ⟨Nat.zero_lt_of_lt (freeCount_filed hI), fun _ => freeCount_filed hI⟩,
      by decide +kernel⟩
  have hset : ResultSet (Env.quiet (smallSbi 9)) (filedKernel, filedMap) (.mkdir [100]) :=
    fun name c hcall => by cases hcall
  obtain ⟨m, hstep⟩ := namesOn_filed.next steady_small (by decide) hsup hset
  refine not_isMap (Reach.start.step hsup hstep) hname (by decide +kernel) (by decide +kernel)
    (by decide +kernel) fun s hs => ?_
  exact h _ 0 _ s steady_small (by decide) namesOn_filed hs

end Thunix.Fs
