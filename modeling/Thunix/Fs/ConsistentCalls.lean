import Thunix.Fs.Consistent

/-!
# Calls on a consistent volume

What `tfs_mknod`, `tfs_mkdir`, `tfs_unlink` and `tfs_rmdir` do when they succeed keeps a volume
consistent (`Thunix.Fs.Consistent.mknod`, `Thunix.Fs.Consistent.mkdir`,
`Thunix.Fs.Consistent.remove`): a new inode is hung on the tree, or one from which no name leads
down is taken off. That is so for an empty directory, since its size counts its entries, and two of
them are `.` and `..` (`Thunix.Fs.Consistent.leaf_of_empty`).
-/

namespace Thunix.Fs

open SlotMap NameTree

variable {e : Env} {I I₁ I' : Image} {P' C C' : Inode} {c j n p q : ℕ} {name a : List UInt8}
  {names : NameTable} {mode : ℤ}

/-! ### Names down the tree -/

/-- The entries of a directory that lead back. -/
def Dotted (names : NameTable) (n : ℕ) : Prop :=
  names n dot = some n ∧ ∃ p, names n (dot ++ dot) = some p ∧ IsParent names p n

theorem dot_ne : dot ≠ dot ++ dot := by decide

theorem Dotted.ne_dots (h : Dotted names p) (hnone : names p a = none) :
    a ≠ dot ∧ a ≠ dot ++ dot := by
  obtain ⟨h1, q, h2, -⟩ := h
  constructor <;> rintro rfl
  · rw [h1] at hnone
    cases hnone
  · rw [h2] at hnone
    cases hnone

theorem downward_link (h : a ≠ dot ∧ a ≠ dot ++ dot) (o : Option ℕ) :
    downward (link names p a o) = link (downward names) p a o := by
  funext n x
  rw [downward, link, link]
  rcases eq_or_ne n p with rfl | hn
  · rw [Function.update_self, Function.update_self]
    rcases eq_or_ne x a with rfl | hx
    · rw [if_neg (not_or.mpr h), Function.update_self, Function.update_self]
    · rw [Function.update_of_ne hx, Function.update_of_ne hx, downward]
  · rw [Function.update_of_ne hn, Function.update_of_ne hn, downward]

/-- The entries that lead back are not in the tree. -/
theorem downward_link_dots (h : a = dot ∨ a = dot ++ dot) (o : Option ℕ) :
    downward (link names p a o) = downward names := by
  funext n x
  rw [downward, downward]
  by_cases hx : x = dot ∨ x = dot ++ dot
  · rw [if_pos hx, if_pos hx]
  · rw [if_neg hx, if_neg hx, link]
    rcases eq_or_ne n p with rfl | hn
    · have hxa : x ≠ a := fun heq => hx (heq ▸ h)
      rw [Function.update_self, Function.update_of_ne hxa]
    · rw [Function.update_of_ne hn]

/-- A name that is bound elsewhere makes no difference. -/
theorem Dotted.link (h : Dotted names n) (ha : a ≠ dot ∧ a ≠ dot ++ dot)
    (hnone : names p a = none) : Dotted (link names p a (some c)) n := by
  obtain ⟨h1, q, h2, h3⟩ := h
  have hkeep : ∀ {n x m}, names n x = some m → NameTree.link names p a (some c) n x = some m :=
    fun {n x m} hx => by
      refine link_some_iff.mpr (.inr ⟨?_, hx⟩)
      rintro ⟨rfl, rfl⟩
      rw [hnone] at hx
      cases hx
  refine ⟨hkeep h1, q, hkeep h2, h3.imp_right fun ⟨x, hx⟩ => ⟨x, ?_⟩⟩
  obtain ⟨hne, hx⟩ := downward_eq_some_iff.mp hx
  exact downward_eq_some_iff.mpr ⟨hne, hkeep hx⟩

/-- The names after an entry has been removed, with what it names. -/
def unlinked (names : NameTable) (p : ℕ) (a : List UInt8) (c : ℕ) : NameTable :=
  Function.update (link names p a none) c fun _ => none

theorem unlinked_eq_some_iff {x : List UInt8} {m : ℕ} : unlinked names p a c n x = some m ↔
    n ≠ c ∧ ¬(n = p ∧ x = a) ∧ names n x = some m := by
  rw [unlinked]
  rcases eq_or_ne n c with rfl | hn
  · rw [Function.update_self]
    exact iff_of_false (fun h => by cases h) fun h => h.1 rfl
  · rw [Function.update_of_ne hn, link_none_iff]
    exact (and_iff_right hn).symm

theorem downward_unlinked (hleaf : ∀ x, downward names c x = none) :
    downward (unlinked names p a c) = link (downward names) p a none := by
  funext n x
  refine Option.ext fun m => ?_
  rw [downward_eq_some_iff, unlinked_eq_some_iff, link_none_iff, downward_eq_some_iff]
  constructor
  · rintro ⟨hx, -, hne, hm⟩
    exact ⟨hne, hx, hm⟩
  · rintro ⟨hne, hx, hm⟩
    refine ⟨hx, ?_, hne, hm⟩
    rintro rfl
    have hsome := downward_eq_some_iff.mpr ⟨hx, hm⟩
    rw [hleaf] at hsome
    cases hsome

theorem Dotted.unlinked (h : Dotted names n) (hnc : n ≠ c) (ha : a ≠ dot ∧ a ≠ dot ++ dot)
    (hc : names p a = some c) (hleaf : ∀ x, downward names c x = none) :
    Dotted (unlinked names p a c) n := by
  obtain ⟨h1, q, h2, h3⟩ := h
  refine ⟨unlinked_eq_some_iff.mpr ⟨hnc, fun h => ha.1 h.2.symm, h1⟩, q,
    unlinked_eq_some_iff.mpr ⟨hnc, fun h => ha.2 h.2.symm, h2⟩, h3.imp_right fun ⟨x, hx⟩ => ⟨x, ?_⟩⟩
  rw [downward_unlinked hleaf, link_none_iff]
  refine ⟨?_, hx⟩
  rintro ⟨rfl, rfl⟩
  have hnq := (downward_eq_some_iff.mp hx).2
  rw [hc] at hnq
  exact hnc (Option.some.inj hnq).symm

/-! ### A consistent volume -/

section Volume

variable (h : Consistent e I names)

include h

theorem Consistent.dotted (hn : IsDir e I n) : Dotted names n := h.dots n hn

theorem Consistent.isDir_root : IsDir e I rootIno := isDir_of_live h.tree.rooted h.root

theorem Consistent.sound : Sound e I := by
  refine ⟨h.fits, fun n hn => h.toStored.openDir hn, fun n hn j hj hne => ?_⟩
  have hlists : Lists (dirTable e I (I.inode n)) (slotName e I.data (I.inode n) j)
      (slotIno e I.data (I.inode n) j) :=
    ⟨j, dirTable_eq_some_iff.mpr ⟨hj, slotNamed_iff.mpr ⟨hne, rfl⟩, rfl⟩⟩
  have hname := (h.toStored.name_iff hn).mpr hlists
  -- an entry names its directory, the one above, or an inode of the tree
  have hlive : slotIno e I.data (I.inode n) j ∈ InUse e I := by
    obtain ⟨hdot, p, hdots, hparent⟩ := h.dotted hn
    by_cases h1 : slotName e I.data (I.inode n) j = dot
    · rw [h1, hdot] at hname
      exact Option.some.inj hname ▸ hn.live
    · by_cases h2 : slotName e I.data (I.inode n) j = dot ++ dot
      · rw [h2, hdots] at hname
        obtain rfl := Option.some.inj hname
        rcases hparent with ⟨hroot, -⟩ | ⟨a, ha⟩
        · exact hroot ▸ h.tree.rooted
        · exact (h.tree.ends _ a n ha).1
      · exact (h.tree.ends n _ _ (downward_eq_some_iff.mpr ⟨⟨h1, h2⟩, hname⟩)).2.1
  exact ⟨⟨hlive.1, (h.record _ hlive).area⟩, hlive.2⟩

/-- What a name down the tree leads to is in use, and not the directory itself. -/
theorem Consistent.below (ha : a ≠ dot ∧ a ≠ dot ++ dot) (hc : names p a = some c) :
    c ∈ InUse e I ∧ c ≠ p ∧ c ≠ rootIno := by
  have hdown := downward_eq_some_iff.mpr ⟨ha, hc⟩
  obtain ⟨-, hlive, hroot⟩ := h.tree.ends p a c hdown
  exact ⟨hlive, h.tree.ne_of_link hdown, hroot⟩

/-- **An empty directory** has no names that lead down. -/
theorem Consistent.leaf_of_empty (hc : IsDir e I c) (hempty : (I.inode c).IsEmptyDir) :
    ∀ x, downward names c x = none := by
  have hkeeps := h.dir c hc
  obtain ⟨hdot, p, hdots, -⟩ := h.dotted hc
  have hhas : HasDots e I (I.inode c) :=
    ⟨⟨c, (h.toStored.name_iff hc).mp hdot⟩, p, (h.toStored.name_iff hc).mp hdots⟩
  obtain ⟨i, j, ⟨m, hi⟩, ⟨m', hj⟩, hall⟩ := (onlyDots_iff hkeeps.counted hempty).mpr hhas
  refine fun x => Option.eq_none_iff_forall_ne_some.mpr fun m hx => ?_
  obtain ⟨⟨h1, h2⟩, hm⟩ := downward_eq_some_iff.mp hx
  obtain ⟨l, hl⟩ := (h.toStored.name_iff hc).mp hm
  rcases hall l (by rw [hl]; exact Option.some_ne_none _) with rfl | rfl
  · rw [hi] at hl
    cases hl
    exact h1 rfl
  · rw [hj] at hl
    cases hl
    exact h2 rfl

/-- Nor has a file. -/
theorem Consistent.leaf_of_file (hmode : (I.inode c).iMode = TFS_FILE) :
    ∀ x, downward names c x = none := fun x =>
  Option.eq_none_iff_forall_ne_some.mpr fun m hx => by
    have hdir := (h.only c x m (downward_eq_some_iff.mp hx).2).mode
    rw [hmode] at hdir
    cases hdir

end Volume

/-- The other directories are what they were, and the files, except those that are gone. -/
structure KeepsRest (e : Env) (I : Image) (p : ℕ) (I' : Image) (gone : Set ℕ) : Prop where
  isDir : ∀ n, IsDir e I n → n ∉ gone → IsDir e I' n
  other : ∀ n, IsDir e I n → n ≠ p → I'.inode n = I.inode n
  files : FilesKept e I I' gone

/-! ### Making -/

section Making

variable (hs : Steady e)

include hs

theorem freshInode_recorded (hc : InTable e.sbi c) :
    Recorded e c ((freshInode mode c P').stored e) := by
  have h1 := hs.geometry.small
  have h2 := hs.geometry.inodes
  have h3 := hc.2
  have hwords : (freshInode mode c P').Words := freshInode_words (by omega)
  have hpacked : (freshInode mode c P').Packed := freshInode_packed
  refine ⟨⟨hpacked, fun k hk => absurd hk (Nat.not_lt_zero k),
    fun k hk => absurd hk (Nat.not_lt_zero k)⟩, rfl, { hwords with }, ?_⟩
  exact Inode.stored_eq_iff.mpr ⟨Int.emod_emod_of_dvd _ (dvd_refl _), rfl⟩

/-- **An inode is made and entered**: it is hung on the tree. -/
theorem Stored.makeEntry (h : Stored e I names) (htree : Tree (InUse e I) rootIno (downward names))
    (hp : IsDir e I p) (hlen : name.length ≤ TFS_NAME_LEN) (hnz : ∀ c ∈ name, c ≠ 0)
    (hname : name ≠ dot ∧ name ≠ dot ++ dot) (hnone : names p name = none) (hc : FreshInode e I c)
    (hrec : Recorded e c C) (hblocks : C.blocks = 0) (hsize : C.iSize = 0)
    (hent : Entered e (I.make c C) (I.inode p) c name I' P') (hroom : P'.blocks < TFS_N_BLOCKS) :
    Stored e I' (link names p name (some c)) ∧ InUse e I' = insert c (InUse e I) ∧
      Tree (InUse e I') rootIno (downward (link names p name (some c))) ∧
      (∀ n, n ≠ p → I'.inode n = (I.make c C).inode n) ∧
      I'.inode p = P' ∧ (I'.inode p).iMode = TFS_DIR ∧ FilesKept e I I' ∅ := by
  have hnot := notMem_live hc
  have hpc : p ≠ c := fun heq => hnot (heq ▸ hp.live)
  have hmade := h.make hc hrec hblocks hsize
  have hinode : (I.make c C).inode p = I.inode p := make_inode_of_ne hpc
  have hp' : IsDir e (I.make c C) p := by
    refine isDir_of_live ?_ (hinode.symm ▸ hp.mode)
    rw [live_make hc.1]
    exact .inr hp.live
  rw [← hinode] at hent
  obtain ⟨hin, hself⟩ := hmade.entered hs hp' hent
  have hlive : InUse e I' = insert c (InUse e I) := hin.live.trans (live_make hc.1)
  refine ⟨hmade.enter hs hp' hlen hnz hc.1 hnone hent hroom, hlive, ?_, hin.other, hself,
    hin.mode.trans hp'.mode, (filesKept_make hc).trans (hmade.filesKept_enter hs hp' hent)⟩
  rw [hlive, downward_link hname]
  refine htree.attach hp.live hnot ?_
  rw [downward_of_ne hname, hnone]

/-- **`tfs_mknod`**, of anything but a directory. -/
theorem Consistent.mknod (h : Consistent e I names) (hp : IsDir e I p)
    (hlen : name.length ≤ TFS_NAME_LEN) (hnz : ∀ c ∈ name, c ≠ 0) (hnone : names p name = none)
    (hc : FreshInode e I c) (hmode : mode % 2 ^ 16 ≠ TFS_DIR)
    (hent : Entered e (I.make c ((freshInode mode c (I.inode p)).stored e)) (I.inode p) c name I'
      P')
    (hroom : P'.blocks < TFS_N_BLOCKS) :
    Consistent e I' (link names p name (some c)) ∧ KeepsRest e I p I' ∅ ∧ I'.inode p = P' ∧
      I'.inode c = (freshInode mode c (I.inode p)).stored e := by
  have hname := (h.dotted hp).ne_dots hnone
  have hnot := notMem_live hc
  obtain ⟨hstored, hlive, htree, hother, hself, hpmode, hfiles⟩ := h.toStored.makeEntry hs h.tree
    hp hlen hnz hname hnone hc (freshInode_recorded hs hc.1) rfl rfl hent hroom
  have hmode' : ∀ n, n ≠ c → (I'.inode n).iMode = (I.inode n).iMode := fun n hn => by
    rcases eq_or_ne n p with rfl | hnp
    · rw [hpmode, hp.mode]
    · rw [hother n hnp, make_inode_of_ne hn]
  have hcp : c ≠ p := fun heq => hnot (heq ▸ hp.live)
  refine ⟨⟨hstored, htree, ?_, fun n hn => ?_⟩, ⟨fun n hn _ => ?_, fun n hn hnp => ?_, hfiles⟩,
    hself, (hother c hcp).trans make_inode_self⟩
  · have hroot : rootIno ≠ c := fun heq => hnot (heq ▸ h.tree.rooted)
    rw [hmode' _ hroot]
    exact h.root
  · have hnc : n ≠ c := by
      rintro rfl
      have hdir := hn.mode
      rw [hother n hcp, make_inode_self] at hdir
      exact hmode hdir
    have hold := hn.live
    rw [hlive] at hold
    have hdir : IsDir e I n := isDir_of_live (hold.resolve_left hnc) (hmode' n hnc ▸ hn.mode)
    exact (h.dotted hdir).link hname hnone
  · have hnc : n ≠ c := fun heq => hnot (heq ▸ hn.live)
    refine isDir_of_live ?_ (hmode' n hnc ▸ hn.mode)
    rw [hlive]
    exact .inr hn.live
  · have hnc : n ≠ c := fun heq => hnot (heq ▸ hn.live)
    rw [hother n hnp, make_inode_of_ne hnc]

/-- An entry that leads back is entered. -/
theorem Stored.enterDots (h : Stored e I names)
    (htree : Tree (InUse e I) rootIno (downward names)) (hp : IsDir e I p)
    (hname : name = dot ∨ name = dot ++ dot) (hc : InTable e.sbi c) (hnone : names p name = none)
    (hent : Entered e I (I.inode p) c name I' P') (hroom : P'.blocks < TFS_N_BLOCKS) :
    Stored e I' (link names p name (some c)) ∧
      Tree (InUse e I') rootIno (downward (link names p name (some c))) ∧ EnteredIn e I p I' ∧
      I'.inode p = P' ∧ FilesKept e I I' ∅ := by
  obtain ⟨hin, hself⟩ := h.entered hs hp hent
  have hlen : name.length ≤ TFS_NAME_LEN := by
    rcases hname with rfl | rfl
    · exact dots_length.1
    · exact dots_length.2
  have hnz : ∀ c ∈ name, c ≠ 0 := by
    rcases hname with rfl | rfl
    · exact dots_nonzero.1
    · exact dots_nonzero.2
  refine ⟨h.enter hs hp hlen hnz hc hnone hent hroom, ?_, hin, hself,
    h.filesKept_enter hs hp hent⟩
  rw [hin.live, downward_link_dots hname]
  exact htree

/-- **`tfs_mkdir`.** -/
theorem Consistent.mkdir (h : Consistent e I names) (hp : IsDir e I p)
    (hlen : name.length ≤ TFS_NAME_LEN) (hnz : ∀ c ∈ name, c ≠ 0) (hnone : names p name = none)
    (hc : FreshInode e I c) (hmade : DirMade e I (I.inode p) c name I' P' C')
    (hroom : P'.blocks < TFS_N_BLOCKS) :
    ∃ names', Consistent e I' names' ∧ KeepsRest e I p I' ∅ ∧ I'.inode p = P' := by
  obtain ⟨I₁, I₂, C₁, h1, h2, h3⟩ := hmade
  have hname := (h.dotted hp).ne_dots hnone
  have hnot := notMem_live hc
  have hpc : p ≠ c := fun heq => hnot (heq ▸ hp.live)
  have hrec : Recorded e c ((freshInode TFS_DIR c (I.inode p)).stored e) :=
    freshInode_recorded hs hc.1
  have hstored : (freshInode TFS_DIR c (I.inode p)).stored e = freshInode TFS_DIR c (I.inode p) :=
    Inode.stored_eq_iff.mpr ⟨rfl, (Inode.stored_eq_iff.mp (h.record p hp.live).stored).2⟩
  rw [hstored] at hrec
  -- the new directory, without entries
  obtain ⟨hstored1, hlive1, htree1, hother1, hself1, hpmode1, hfiles1⟩ := h.toStored.makeEntry hs
    h.tree hp hlen hnz hname hnone hc hrec rfl rfl h1 hroom
  have hC : I₁.inode c = freshInode TFS_DIR c (I.inode p) := by
    rw [hother1 c hpc.symm, make_inode_self]
  have hdir1 : IsDir e I₁ c := by
    refine isDir_of_live ?_ (by rw [hC]; rfl)
    rw [hlive1]
    exact .inl rfl
  have hnone1 : ∀ x, link names p name (some c) c x = none := fun x => by
    rw [link_of_ne hpc.symm]
    exact h.toStored.none_of_notMem hnot
  -- the entry `.`
  rw [← hC] at h2
  have hone : C₁.blocks ≤ 1 := by
    have hle := (h2.blocks_used hs (hstored1.openDir hdir1) hstored1.fits.blocks).2
    rwa [hC, freshInode_blocks] at hle
  obtain ⟨hstored2, htree2, hin2, hself2, hfiles2⟩ := hstored1.enterDots hs htree1 hdir1 (.inl rfl)
    hc.1 (hnone1 dot) h2 (lt_of_le_of_lt hone (by decide))
  have hdir2 : IsDir e I₂ c := hin2.isDir_iff.mpr hdir1
  have hnone2 : link (link names p name (some c)) c dot (some c) c (dot ++ dot) = none := by
    rw [link_self, Function.update_of_ne dot_ne.symm]
    exact hnone1 _
  -- the entry `..`
  rw [← hself2, (h.record p hp.live).ino] at h3
  have htwo : C'.blocks < TFS_N_BLOCKS := by
    have hle := (h3.blocks_used hs (hstored2.openDir hdir2) hstored2.fits.blocks).2
    rw [hself2] at hle
    rw [TFS_N_BLOCKS]
    omega
  obtain ⟨hstored3, htree3, hin3, hself3, hfiles3⟩ := hstored2.enterDots hs htree2 hdir2 (.inr rfl)
    hp.ino hnone2 h3 htwo
  have hinode : ∀ n, n ≠ c → I'.inode n = I₁.inode n := fun n hn => by
    rw [hin3.other n hn, hin2.other n hn]
  have hbelow : downward (link names p name (some c)) p name = some c := by
    rw [downward_of_ne hname, link_self, Function.update_self]
  have hmode : ∀ n, n ≠ c → (I₁.inode n).iMode = (I.inode n).iMode := fun n hnc => by
    rcases eq_or_ne n p with rfl | hnp
    · rw [hpmode1, hp.mode]
    · rw [hother1 n hnp, make_inode_of_ne hnc]
  refine ⟨_, ⟨hstored3, htree3, ?_, fun n hn => ?_⟩, ⟨fun n hn _ => ?_, fun n hn hnp => ?_,
    hfiles1.trans (hfiles2.trans hfiles3)⟩, (hinode p hpc).trans hself1⟩
  · have hroot : rootIno ≠ c := fun heq => hnot (heq ▸ h.tree.rooted)
    rw [hinode _ hroot, hmode _ hroot]
    exact h.root
  · rw [hin3.isDir_iff, hin2.isDir_iff] at hn
    -- no name but those two is bound in the second half
    have hdown : downward (link (link (link names p name (some c)) c dot (some c)) c (dot ++ dot)
        (some p)) = downward (link names p name (some c)) := by
      rw [downward_link_dots (.inr rfl), downward_link_dots (.inl rfl)]
    rcases eq_or_ne n c with rfl | hnc
    · refine ⟨?_, p, ?_, .inr ⟨name, ?_⟩⟩
      · rw [link_self, Function.update_of_ne dot_ne, link_self, Function.update_self]
      · rw [link_self, Function.update_self]
      · rw [hdown]
        exact hbelow
    · have hold := hn.live
      rw [hlive1] at hold
      have hdir : IsDir e I n := isDir_of_live (hold.resolve_left hnc) (hmode n hnc ▸ hn.mode)
      obtain ⟨hd1, q, hd2, hd3⟩ := (h.dotted hdir).link (c := c) hname hnone
      refine ⟨?_, q, ?_, ?_⟩
      · rw [link_of_ne hnc, link_of_ne hnc]
        exact hd1
      · rw [link_of_ne hnc, link_of_ne hnc]
        exact hd2
      · rw [IsParent, hdown]
        exact hd3
  · have hnc : n ≠ c := fun heq => hnot (heq ▸ hn.live)
    rw [hin3.isDir_iff, hin2.isDir_iff]
    refine isDir_of_live ?_ (hmode n hnc ▸ hn.mode)
    rw [hlive1]
    exact .inr hn.live
  · have hnc : n ≠ c := fun heq => hnot (heq ▸ hn.live)
    rw [hinode n hnc, hother1 n hnp, make_inode_of_ne hnc]

end Making

/-! ### Removing -/

/-- **`tfs_unlink` and `tfs_rmdir`**, of what no name leads down from. -/
theorem Consistent.remove (hm : Mounted e.sbi) (h : Consistent e I names) (hp : IsDir e I p)
    (hj : NamedAt e I (I.inode p) name j c) (hname : name ≠ dot ∧ name ≠ dot ++ dot)
    (hleaf : ∀ x, downward names c x = none) :
    Consistent e (I.drop e p j c) (unlinked names p name c) ∧
      KeepsRest e I p (I.drop e p j c) {c} := by
  have hbound := h.toStored.name_of_namedAt hp hj
  obtain ⟨hc, hne, hroot⟩ := h.below hname hbound
  have hdown := downward_eq_some_iff.mpr ⟨hname, hbound⟩
  refine ⟨⟨h.toStored.remove hp hc hne hm hj, ?_, ?_, fun n hn => ?_⟩,
    fun n hn hnc => (h.toStored.isDir_drop_iff hp hc).mpr ⟨hn, hnc⟩,
    fun n _ hnp => h.toStored.drop_of_ne hp hnp, h.toStored.filesKept_drop hp hc hm hj.first.2.1⟩
  · rw [h.toStored.live_drop hc, downward_unlinked hleaf]
    exact h.tree.detach hdown hleaf
  · exact ((h.toStored.isDir_drop_iff hp hc).mpr ⟨h.isDir_root, hroot.symm⟩).mode
  · obtain ⟨hn, hnc⟩ := (h.toStored.isDir_drop_iff hp hc).mp hn
    exact (h.dotted hn).unlinked hnc hname hbound hleaf

end Thunix.Fs
