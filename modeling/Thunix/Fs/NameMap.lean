import Thunix.Fs.DirTable

/-!
# A directory as a map

A directory is a finite map from names to inode numbers (`Thunix.Fs.DirMap`): its table keeps
the map, and what its entries name are inodes in use, with blocks of their own. Making an
entry binds its name, removing one unbinds it (`Thunix.Fs.DirMap.enter`,
`Thunix.Fs.DirMap.remove`), and a directory among the entries may grow without a difference to
the map (`Thunix.Fs.DirMap.grow`).
-/

namespace Thunix.Fs

open SlotMap

variable {e : Env} {I I' : Image} {P P' C C' : Inode} {b c j n : ℕ} {name : List UInt8}
  {m : List UInt8 → Option ℕ}

/-! ### The map -/

/-- A name for an entry: not empty, not too long, and not one of the two that every directory
has. -/
structure EntryName (name : List UInt8) : Prop where
  pos : name ≠ []
  length : name.length ≤ TFS_NAME_LEN
  nonzero : ∀ c ∈ name, c ≠ 0
  notDots : name ≠ dot ∧ name ≠ dot ++ dot

/-- An inode that an entry of the directory names: it is in use, and its blocks are not those
of the directory. -/
structure Child (e : Env) (I : Image) (P : Inode) (n : ℕ) : Prop where
  ino : InTable e.sbi n
  used : I.inodeUsed n = true
  ne : n ≠ P.iIno
  blocks : ∀ b ∈ (I.inode n).blockList, InData e.sbi b ∧ I.blockUsed b = true ∧ b ∉ P.blockList

/-- **The directory is the map.** -/
structure DirMap (e : Env) (I : Image) (P : Inode) (m : List UInt8 → Option ℕ) : Prop where
  isOpen : OpenDir e I P
  fits : FreeFits e I
  used : I.inodeUsed P.iIno = true
  keeps : SlotMap.Keeps (dirTable e I P) {name | EntryName name} m
  names : ∀ name n, m name = some n → EntryName name
  child : ∀ name n, m name = some n → Child e I P n
  apart : ∀ name name' n n', m name = some n → m name' = some n' → name ≠ name' →
    n ≠ n' ∧ ∀ b ∈ (I.inode n).blockList, b ∉ (I.inode n').blockList

theorem DirMap.eq_none_iff (h : DirMap e I P m) (hname : EntryName name) :
    m name = none ↔ ¬HasName e I P name := by
  rw [h.keeps.eq_none_iff hname, hasName_iff, not_exists]

theorem DirMap.named (h : DirMap e I P m) (hname : EntryName name) (hj : NamedAt e I P name j c) :
    m name = some c := (h.keeps.binds name hname c).mpr ⟨j, hj.table⟩

theorem DirMap.releasable (h : DirMap e I P m) (hname : EntryName name)
    (hj : NamedAt e I P name j c) : Releasable e I c := by
  have hchild := h.child name c (h.named hname hj)
  exact ⟨hchild.ino, fun k hk => (hchild.blocks _ (Inode.mem_blockList.mpr ⟨k, hk, rfl⟩)).1⟩

/-- What an entry names stays, where it is not changed. -/
theorem Child.congr (h : Child e I P n) (hinode : I'.inode n = I.inode n)
    (hused : I'.inodeUsed n = true) (hino : P'.iIno = P.iIno)
    (hblocks : ∀ b ∈ (I.inode n).blockList, I'.blockUsed b = true ∧ b ∉ P'.blockList) :
    Child e I' P' n := by
  refine ⟨h.ino, hused, hino ▸ h.ne, fun b hb => ?_⟩
  rw [hinode] at hb
  exact ⟨(h.blocks b hb).1, hblocks b hb⟩

/-! ### Making an entry -/

section Making

variable (hs : Steady e)

include hs

/-- **An entry for a new inode**, which has no blocks, binds its name. -/
theorem DirMap.enter (h : DirMap e I P m) (hname : EntryName name) (hnone : ¬HasName e I P name)
    (hc : FreshInode e I c) (hC : C.blockList = []) (hent : Entered e (I.make c C) P c name I' P')
    (hroom : P'.blocks < TFS_N_BLOCKS) :
    DirMap e I' P' (Function.update m name (some c)) ∧ I'.inode c = C := by
  have hopen : OpenDir e (I.make c C) P := { h.isOpen with }
  obtain ⟨hgrows, hinode⟩ := hent.grows hs hopen h.fits.blocks
  have hino : P'.iIno = P.iIno := hent.iIno
  have hne : c ≠ P.iIno := fun heq => by
    have hfree := hc.2
    rw [heq, h.used] at hfree
    cases hfree
  have hinodeUsed : I'.inodeUsed = Function.update I.inodeUsed c true := hgrows.inodeUsed
  have hnew : I'.inode c = C := by
    rw [hinode, Function.update_of_ne hne]
    exact Function.update_self _ _ _
  have hold : ∀ {n}, Child e I P n → n ≠ c ∧ I'.inode n = I.inode n := fun {n} hn => by
    have hnc : n ≠ c := fun heq => by
      have hfree := hc.2
      rw [← heq, hn.used] at hfree
      cases hfree
    rw [hinode, Function.update_of_ne hn.ne]
    exact ⟨hnc, Function.update_of_ne hnc _ _⟩
  have hchild : ∀ {n}, Child e I P n → Child e I' P' n := fun {n} hn => by
    refine hn.congr (hold hn).2 ?_ hino fun b hb => ?_
    · rw [hinodeUsed]
      exact Pool.update_true hn.used c
    · obtain ⟨-, hused, hnot⟩ := hn.blocks b hb
      refine ⟨hgrows.used b hused, fun hb' => ?_⟩
      rcases hgrows.blocks b hb' with hP | hfree
      · exact hnot hP
      · exact absurd (hused.symm.trans hfree) (by decide)
  obtain ⟨j, hfree, htable⟩ :=
    hent.table hs hopen h.fits.blocks hname.length hname.nonzero hc.1
  refine ⟨⟨hent.open hs hopen h.fits.blocks hroom, ⟨hent.freeInData h.fits.blocks,
    fun n h1 hn hfree => ?_⟩, ?_, ?_, fun a n ha => ?_, fun a n ha => ?_,
    fun a a' n n' ha ha' hne' => ?_⟩, hnew⟩
  · rw [hinodeUsed] at hfree
    rcases eq_or_ne n c with rfl | hnc
    · exact hc.1
    · rw [Function.update_of_ne hnc] at hfree
      exact h.fits.inodes n h1 hn hfree
  · rw [hino, hinodeUsed]
    exact Pool.update_true h.used c
  · rw [htable]
    exact h.keeps.fill hfree (not_exists.mp (mt hasName_iff.mpr hnone))
  · rcases update_eq_some_iff.mp ha with ⟨rfl, -⟩ | ⟨-, ha⟩
    · exact hname
    · exact h.names a n ha
  · rcases update_eq_some_iff.mp ha with ⟨rfl, rfl⟩ | ⟨-, ha⟩
    · refine ⟨hc.1, ?_, hino ▸ hne, fun b hb => ?_⟩
      · rw [hinodeUsed, Function.update_self]
      · rw [hnew, hC] at hb
        cases hb
    · exact hchild (h.child a n ha)
  · rcases update_eq_some_iff.mp ha with ⟨rfl, rfl⟩ | ⟨-, hma⟩ <;>
      rcases update_eq_some_iff.mp ha' with ⟨rfl, rfl⟩ | ⟨-, hma'⟩
    · exact absurd rfl hne'
    · rw [hnew, hC]
      exact ⟨(hold (h.child a' n' hma')).1.symm, fun b hb => absurd hb List.not_mem_nil⟩
    · rw [hnew, hC]
      exact ⟨(hold (h.child a n hma)).1, fun b _ => List.not_mem_nil⟩
    · rw [(hold (h.child a n hma)).2, (hold (h.child a' n' hma')).2]
      exact h.apart a a' n n' hma hma' hne'

/-- **A directory of the map grows**: the map is the same. -/
theorem DirMap.grow (h : DirMap e I P m) (hname : m name = some c) (hC : I.inode c = C)
    (hgrows : Grows e I C I' C') (hinode : I'.inode = Function.update I.inode c C')
    (hopen : OpenDir e I' C') (hfit : FreeInData e I') : DirMap e I' P m := by
  have hchild := h.child name c hname
  have hPused : ∀ b ∈ P.blockList, I.blockUsed b = true := fun b hb => by
    obtain ⟨k, hk, rfl⟩ := Inode.mem_blockList.mp hb
    exact h.isOpen.used k hk
  have hself : I'.inode c = C' := by rw [hinode, Function.update_self]
  have hother : ∀ {n}, n ≠ c → I'.inode n = I.inode n := fun hn => by
    rw [hinode, Function.update_of_ne hn]
  -- a block that the directory has got was free
  have hblocks : ∀ b ∈ C'.blockList, b ∈ (I.inode c).blockList ∨ I.blockUsed b = false := by
    rw [hC]
    exact hgrows.blocks
  have hnot : ∀ {l : List ℕ}, (∀ b ∈ (I.inode c).blockList, b ∉ l) →
      (∀ b ∈ l, I.blockUsed b = true) → ∀ b ∈ C'.blockList, b ∉ l := fun hl hused b hb hbl => by
    rcases hblocks b hb with hbC | hfree
    · exact hl b hbC hbl
    · exact absurd ((hused b hbl).symm.trans hfree) (by decide)
  have hCP : ∀ b ∈ (I.inode c).blockList, b ∉ P.blockList := fun b hb => (hchild.blocks b hb).2.2
  refine ⟨⟨h.isOpen.toDirOn, h.isOpen.room, fun k hk => hgrows.used _ (h.isOpen.used k hk),
    h.isOpen.words, h.isOpen.ino, h.isOpen.stored⟩, ⟨hfit, ?_⟩, ?_, ?_, h.names, fun a n ha => ?_,
    fun a a' n n' ha ha' hne => ?_⟩
  · rw [hgrows.inodeUsed]
    exact h.fits.inodes
  · rw [hgrows.inodeUsed]
    exact h.used
  · rw [hgrows.table_other hs.geometry.mounted hPused fun b hb hb' => hCP b (hC ▸ hb') hb]
    exact h.keeps
  · have hn := h.child a n ha
    rcases eq_or_ne n c with rfl | hnc
    · refine ⟨hn.ino, by rw [hgrows.inodeUsed]; exact hn.used, hn.ne, fun b hb => ?_⟩
      rw [hself] at hb
      obtain ⟨k, hk, hbk⟩ := Inode.mem_blockList.mp hb
      exact ⟨hbk ▸ hopen.area k hk, hbk ▸ hopen.used k hk, hnot hCP hPused b hb⟩
    · refine hn.congr (hother hnc) (by rw [hgrows.inodeUsed]; exact hn.used) rfl fun b hb => ?_
      obtain ⟨-, hused, hbP⟩ := hn.blocks b hb
      exact ⟨hgrows.used b hused, hbP⟩
  · obtain ⟨hnn, hdisj⟩ := h.apart a a' n n' ha ha' hne
    refine ⟨hnn, ?_⟩
    rcases eq_or_ne n c with rfl | hnc
    · rw [hself, hother hnn.symm]
      exact hnot hdisj fun b hb => ((h.child a' n' ha').blocks b hb).2.1
    · rw [hother hnc]
      rcases eq_or_ne n' c with rfl | hnc'
      · rw [hself]
        intro b hb hb'
        exact hnot (fun b hb hb' => hdisj b hb' hb) (fun b hb => ((h.child a n ha).blocks b hb).2.1)
          b hb' hb
      · rw [hother hnc']
        exact hdisj

end Making

/-! ### Removing an entry -/

/-- **An entry that is removed** unbinds its name. -/
theorem DirMap.remove (hm : Mounted e.sbi) (h : DirMap e I P m) (hname : EntryName name)
    (hj : NamedAt e I P name j c) (hino : (I.inode c).iIno = c) :
    DirMap e ((I.remove e P j).release (I.inode c)) P.shrunk (Function.update m name none) := by
  have hmc := h.named hname hj
  have hchild := h.child name c hmc
  have hinode : ∀ {n}, n ≠ P.iIno → ((I.remove e P j).release (I.inode c)).inode n = I.inode n :=
    fun hn => Function.update_of_ne hn _ _
  have hinodeUsed : ((I.remove e P j).release (I.inode c)).inodeUsed =
      Function.update I.inodeUsed c false := congrArg (Function.update I.inodeUsed · false) hino
  have hblockUsed : ∀ b, ((I.remove e P j).release (I.inode c)).blockUsed b =
      if b ∈ (I.inode c).blockList then false else I.blockUsed b := fun _ => rfl
  generalize hI' : (I.remove e P j).release (I.inode c) = I' at hinode hinodeUsed hblockUsed
  refine ⟨⟨⟨h.isOpen.packed, h.isOpen.area, h.isOpen.once⟩, h.isOpen.room, fun k hk => ?_,
    h.isOpen.words.shrunk, h.isOpen.ino, shrunk_stored h.isOpen.stored⟩,
    ⟨fun b hb hfree => ?_, fun n h1 hn hfree => ?_⟩, ?_, ?_, fun a n ha => ?_, fun a n ha => ?_,
    fun a a' n n' ha ha' hne => ?_⟩
  · have hnot : P.iData.getD k 0 ∉ (I.inode c).blockList := fun hmem =>
      (hchild.blocks _ hmem).2.2 (Inode.mem_blockList.mpr ⟨k, hk, rfl⟩)
    change I'.blockUsed (P.iData.getD k 0) = true
    rw [hblockUsed, if_neg hnot]
    exact h.isOpen.used k hk
  · rw [hblockUsed] at hfree
    by_cases hmem : b ∈ (I.inode c).blockList
    · exact (hchild.blocks b hmem).1
    · rw [if_neg hmem] at hfree
      exact h.fits.blocks b hb hfree
  · rw [hinodeUsed] at hfree
    rcases eq_or_ne n c with rfl | hnc
    · exact hchild.ino
    · rw [Function.update_of_ne hnc] at hfree
      exact h.fits.inodes n h1 hn hfree
  · rw [hinodeUsed]
    exact (Function.update_of_ne hchild.ne.symm _ _).trans h.used
  · rw [← hI', dirTable_remove hm h.isOpen.toDirOn hj.first.2.1]
    exact h.keeps.free hj.table
  · exact h.names a n (update_none_eq_some_iff.mp ha).2
  · obtain ⟨hne, ha⟩ := update_none_eq_some_iff.mp ha
    obtain ⟨hnc, hdisj⟩ := h.apart a name n c ha hmc hne
    have hn := h.child a n ha
    refine hn.congr (hinode hn.ne) ?_ rfl fun b hb => ?_
    · rw [hinodeUsed, Function.update_of_ne hnc]
      exact hn.used
    · obtain ⟨-, hused, hbP⟩ := hn.blocks b hb
      rw [hblockUsed, if_neg (hdisj b hb)]
      exact ⟨hused, hbP⟩
  · obtain ⟨-, ha⟩ := update_none_eq_some_iff.mp ha
    obtain ⟨-, ha'⟩ := update_none_eq_some_iff.mp ha'
    rw [hinode (h.child a n ha).ne, hinode (h.child a' n' ha').ne]
    exact h.apart a a' n n' ha ha' hne

end Thunix.Fs
