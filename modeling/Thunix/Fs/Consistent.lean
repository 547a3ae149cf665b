import Thunix.Fs.DirSize
import Thunix.Fs.Paths
import Thunix.Lib.Ledger
import Thunix.Lib.NameTree

/-!
# Consistent volumes

A volume is consistent (`Thunix.Fs.Consistent`) when its books are kept: each block of data in use
is in the list of one inode in use, the records are those of their numbers, the tables of the
directories are maps that their sizes count (`Thunix.Fs.Stored`), and the entries other than `.` and
`..`, which lead back, make a tree of all the inodes in use.

What `tfs_mknod`, `tfs_mkdir`, `tfs_unlink` and `tfs_rmdir` do to the image is of three kinds: an
inode comes to be (`Thunix.Fs.Stored.make`), an entry is entered (`Thunix.Fs.Stored.enter`), and an
entry is removed with what it names (`Thunix.Fs.Stored.remove`).
-/

namespace Thunix.Fs

open SlotMap NameTree

variable {e : Env} {I I₁ I' : Image} {P P₁ P' C : Inode} {b c j n p : ℕ} {name a : List UInt8}

/-! ### What is in use -/

/-- The inode numbers in use. -/
def InUse (e : Env) (I : Image) : Set ℕ := {n | InTable e.sbi n ∧ I.inodeUsed n = true}

/-- The blocks of data in use. -/
def UsedData (e : Env) (I : Image) : Set ℕ := {b | InData e.sbi b ∧ I.blockUsed b = true}

/-- The blocks in the list of an inode. -/
def listed (I : Image) (n : ℕ) : Set ℕ := {b | b ∈ (I.inode n).blockList}

/-- The names in the directories, and what they are bound to. -/
abbrev NameTable := ℕ → List UInt8 → Option ℕ

variable {names : NameTable}

/-- A name that leads down the tree. -/
def downward (names : NameTable) : NameTable := fun n a =>
  if a = dot ∨ a = dot ++ dot then none else names n a

/-- The record of a number: no hole in its list, and nothing that a record cannot hold. -/
structure Recorded (e : Env) (n : ℕ) (inode : Inode) : Prop extends DirOn e inode where
  ino : inode.iIno = n
  words : inode.Words
  stored : inode.stored e = inode

/-- The table of a directory is the map of its names, and its size counts them. -/
structure DirKeeps (e : Env) (I : Image) (P : Inode) (m : List UInt8 → Option ℕ) : Prop where
  keeps : SlotMap.Keeps (dirTable e I P) Set.univ m
  counted : Counted e I P
  room : P.blocks < TFS_N_BLOCKS

/-- **The books of a volume** are kept. -/
structure Stored (e : Env) (I : Image) (names : NameTable) : Prop where
  fits : FreeFits e I
  record : ∀ n ∈ InUse e I, Recorded e n (I.inode n)
  ledger : Ledger.Exact (InUse e I) (listed I) (UsedData e I)
  dir : ∀ n, IsDir e I n → DirKeeps e I (I.inode n) (names n)
  only : ∀ n a c, names n a = some c → IsDir e I n

/-- The number of the root. -/
def rootIno : ℕ := TFS_ROOT_INODE.toNat

/-- The directory of an entry `..`. -/
def IsParent (names : NameTable) (p n : ℕ) : Prop :=
  (p = rootIno ∧ n = rootIno) ∨ ∃ a, downward names p a = some n

/-- **A volume is consistent.** -/
structure Consistent (e : Env) (I : Image) (names : NameTable) : Prop
    extends Stored e I names where
  tree : Tree (InUse e I) rootIno (downward names)
  root : (I.inode rootIno).iMode = TFS_DIR
  dots : ∀ n, IsDir e I n → names n dot = some n ∧
    ∃ p, names n (dot ++ dot) = some p ∧ IsParent names p n

theorem IsDir.live (h : IsDir e I n) : n ∈ InUse e I := ⟨h.ino, h.used⟩

theorem isDir_of_live (h : n ∈ InUse e I) (hmode : (I.inode n).iMode = TFS_DIR) : IsDir e I n :=
  ⟨h.1, h.2, hmode⟩

theorem downward_of_ne (h : a ≠ dot ∧ a ≠ dot ++ dot) : downward names n a = names n a :=
  if_neg (not_or.mpr h)

theorem downward_eq_some_iff : downward names n a = some c ↔
    (a ≠ dot ∧ a ≠ dot ++ dot) ∧ names n a = some c := by
  rw [downward]
  by_cases h : a = dot ∨ a = dot ++ dot
  · rw [if_pos h]
    exact iff_of_false (fun h => by cases h) fun h' => not_or.mpr h'.1 h
  · rw [if_neg h]
    exact (and_iff_right (not_or.mp h)).symm

/-! ### A directory of the volume -/

section Directory

variable (h : Stored e I names)

include h

/-- The blocks of an inode in use are blocks of data in use. -/
theorem Stored.used_of_mem (hn : n ∈ InUse e I) (hb : b ∈ (I.inode n).blockList) :
    InData e.sbi b ∧ I.blockUsed b = true :=
  h.ledger.used_of_mem hn hb

/-- No other inode has them. -/
theorem Stored.notMem_of_mem (hn : n ∈ InUse e I) (hp : p ∈ InUse e I) (hne : n ≠ p)
    (hb : b ∈ (I.inode n).blockList) : b ∉ (I.inode p).blockList := fun hb' =>
  hne (h.ledger.eq_of_mem hn hp hb hb')

theorem Stored.openDir (hp : IsDir e I p) : OpenDir e I (I.inode p) := by
  have hrec := h.record p hp.live
  refine ⟨hrec.toDirOn, (h.dir p hp).room, fun k hk => ?_, hrec.words, hrec.ino.symm ▸ hp.ino,
    hrec.stored⟩
  exact (h.used_of_mem hp.live (Inode.mem_blockList.mpr ⟨k, hk, rfl⟩)).2

/-- What the table of a directory says of a name. -/
theorem Stored.name_iff (hp : IsDir e I p) :
    names p a = some c ↔ Lists (dirTable e I (I.inode p)) a c :=
  (h.dir p hp).keeps.binds a trivial c

theorem Stored.name_of_namedAt (hp : IsDir e I p) (hj : NamedAt e I (I.inode p) name j c) :
    names p name = some c :=
  (h.name_iff hp).mpr ⟨j, hj.table⟩

theorem Stored.hasName_iff (hp : IsDir e I p) :
    HasName e I (I.inode p) name ↔ names p name ≠ none := by
  rw [Fs.hasName_iff, Option.ne_none_iff_exists']
  exact exists_congr fun c => (h.name_iff hp).symm

/-- A number that is free has no names. -/
theorem Stored.none_of_notMem (hn : n ∉ InUse e I) : names n a = none :=
  Option.eq_none_iff_forall_ne_some.mpr fun c hc => hn (h.only n a c hc).live

end Directory

/-- What is in the table of a directory, and what is counted, is in its blocks. -/
theorem DirKeeps.congr {m : List UInt8 → Option ℕ} (h : DirKeeps e I P m)
    (htable : dirTable e I' P = dirTable e I P) (hinode : I'.inode P.iIno = I.inode P.iIno) :
    DirKeeps e I' P m :=
  ⟨htable.symm ▸ h.keeps, h.counted.congr htable hinode, h.room⟩

/-! ### Files that stay -/

/-- The file `n` is what it was: its record, and the bytes of its blocks. -/
structure FileKept (e : Env) (I I' : Image) (n : ℕ) : Prop where
  live : n ∈ InUse e I'
  inode : I'.inode n = I.inode n
  data : ∀ b ∈ (I.inode n).blockList, Agree e.sbi.sBlockSize (I.data b) (I'.data b)

/-- **The files** that are not in `lost` are what they were. -/
def FilesKept (e : Env) (I I' : Image) (lost : Set ℕ) : Prop :=
  ∀ n ∈ InUse e I, (I.inode n).iMode ≠ TFS_DIR → n ∉ lost → FileKept e I I' n

variable {lost : Set ℕ}

theorem FilesKept.refl : FilesKept e I I lost := fun _ hn _ _ => ⟨hn, rfl, fun _ _ _ _ => rfl⟩

theorem FileKept.trans (h : FileKept e I I₁ n) (h' : FileKept e I₁ I' n) : FileKept e I I' n := by
  refine ⟨h'.live, h'.inode.trans h.inode, fun b hb x hx => (h.data b hb x hx).trans ?_⟩
  exact h'.data b (h.inode.symm ▸ hb) x hx

theorem FilesKept.trans (h : FilesKept e I I₁ lost) (h' : FilesKept e I₁ I' lost) :
    FilesKept e I I' lost := fun n hn hmode hlost => by
  have hkept := h n hn hmode hlost
  exact hkept.trans (h' n hkept.live (hkept.inode ▸ hmode) hlost)

/-- Directories are not files. -/
theorem FilesKept.mono {lost' : Set ℕ} (h : FilesKept e I I' lost)
    (hlost : ∀ n ∈ lost, (I.inode n).iMode ≠ TFS_DIR → n ∈ lost') : FilesKept e I I' lost' :=
  fun n hn hmode hnot => h n hn hmode fun hmem => hnot (hlost n hmem hmode)

/-! ### An inode comes to be -/

theorem live_make (hc : InTable e.sbi c) : InUse e (I.make c C) = insert c (InUse e I) := by
  ext n
  change InTable e.sbi n ∧ Function.update I.inodeUsed c true n = true ↔ n = c ∨ _
  rcases eq_or_ne n c with rfl | hne
  · rw [Function.update_self]
    exact iff_of_true ⟨hc, rfl⟩ (.inl rfl)
  · rw [Function.update_of_ne hne]
    exact (or_iff_right hne).symm

theorem notMem_live (hc : FreshInode e I c) : c ∉ InUse e I := fun h => by
  have hused := h.2
  rw [hc.2] at hused
  cases hused

theorem make_inode_of_ne (h : n ≠ c) : (I.make c C).inode n = I.inode n :=
  Function.update_of_ne h _ _

theorem make_inode_self : (I.make c C).inode c = C := Function.update_self _ _ _

theorem freeFits_make (hc : FreshInode e I c) (h : FreeFits e I) : FreeFits e (I.make c C) := by
  refine ⟨h.blocks, fun n h1 hn hfree => ?_⟩
  change Function.update I.inodeUsed c true n = false at hfree
  rcases eq_or_ne n c with rfl | hne
  · exact hc.1
  · rw [Function.update_of_ne hne] at hfree
    exact h.inodes n h1 hn hfree

theorem filesKept_make (hc : FreshInode e I c) : FilesKept e I (I.make c C) lost :=
  fun n hn _ _ => by
    have hne : n ≠ c := fun heq => notMem_live hc (heq ▸ hn)
    refine ⟨?_, make_inode_of_ne hne, fun _ _ _ _ => rfl⟩
    rw [live_make hc.1]
    exact .inr hn

theorem blockList_eq_nil (h : C.blocks = 0) : C.blockList = [] := List.length_eq_zero_iff.mp h

/-- **An inode comes to be**, without blocks and without names. -/
theorem Stored.make (h : Stored e I names) (hc : FreshInode e I c) (hrec : Recorded e c C)
    (hblocks : C.blocks = 0) (hsize : C.iSize = 0) : Stored e (I.make c C) names := by
  have hnot := notMem_live hc
  have hold : ∀ n ∈ InUse e I, (I.make c C).inode n = I.inode n := fun n hn =>
    make_inode_of_ne fun heq => hnot (heq ▸ hn)
  have hdir : ∀ n, IsDir e I n → IsDir e (I.make c C) n := fun n hn => by
    have hlive : n ∈ InUse e (I.make c C) := by
      rw [live_make hc.1]
      exact .inr hn.live
    exact isDir_of_live hlive (by rw [hold n hn.live]; exact hn.mode)
  refine ⟨freeFits_make hc h.fits, fun n hn => ?_, ?_, fun n hn => ?_,
    fun n a x hx => hdir n (h.only n a x hx)⟩
  · rw [live_make hc.1] at hn
    rcases hn with rfl | hn
    · rw [make_inode_self]
      exact hrec
    · rw [hold n hn]
      exact h.record n hn
  · rw [live_make hc.1]
    refine h.ledger.birth hnot (Set.eq_empty_of_forall_notMem fun b hb => ?_) fun n hn => ?_
    · rw [listed, make_inode_self, blockList_eq_nil hblocks] at hb
      cases hb
    · rw [listed, listed, hold n hn]
  · have hlive := hn.live
    rw [live_make hc.1] at hlive
    rcases hlive with rfl | hlive
    · rw [make_inode_self]
      have htable : ∀ j, dirTable e (I.make n C) C j = none := fun j => by
        rw [dirTable_eq_none_iff, slots, hblocks, Nat.zero_mul]
        exact fun hj => absurd hj (Nat.not_lt_zero j)
      refine ⟨⟨fun i j a b c hi _ => ?_, fun a _ x => ?_⟩, .newborn hblocks hsize ?_, ?_⟩
      · rw [htable] at hi
        cases hi
      · rw [h.none_of_notMem hnot]
        refine iff_of_false (fun h => by cases h) ?_
        rintro ⟨j, hj⟩
        rw [htable] at hj
        cases hj
      · rw [hrec.ino, make_inode_self]
      · rw [hblocks]
        decide
    · have hmode := hn.mode
      rw [hold n hlive] at hmode ⊢
      have hkeeps := h.dir n (isDir_of_live hlive hmode)
      refine hkeeps.congr rfl ?_
      rw [(h.record n hlive).ino]
      exact hold n hlive

/-! ### An entry is entered -/

/-- The blocks that a directory takes, which were free. -/
structure Takes (e : Env) (I : Image) (P : Inode) (I' : Image) (P' : Inode) (new : Set ℕ) :
    Prop where
  blocks : ∀ b, b ∈ P'.blockList ↔ b ∈ P.blockList ∨ b ∈ new
  used : ∀ b, I'.blockUsed b = true ↔ I.blockUsed b = true ∨ b ∈ new
  free : ∀ b ∈ new, I.blockUsed b = false ∧ InData e.sbi b

section Entering

variable (hs : Steady e)

include hs

theorem RoomFor.takes (hopen : OpenDir e I P) (hfit : FreeInData e I)
    (hroom : RoomFor e I P I₁ P₁ j) : ∃ new, Takes e I P I₁ P₁ new := by
  cases hroom with
  | slot first =>
    exact ⟨∅, fun _ => (or_iff_left (Set.notMem_empty _)).symm,
      fun _ => (or_iff_left (Set.notMem_empty _)).symm, fun _ h => h.elim⟩
  | @block b none lt free =>
    refine ⟨{b}, fun x => ?_, fun x => ?_, fun x hx => ?_⟩
    · exact Inode.mem_blockList_setData hopen.packed hopen.room (hfit.ne_zero hs lt free)
    · change Function.update I.blockUsed b true x = true ↔ _ ∨ x = b
      rcases eq_or_ne x b with rfl | hne
      · rw [Function.update_self]
        exact iff_of_true rfl (.inr rfl)
      · rw [Function.update_of_ne hne]
        exact (or_iff_left hne).symm
    · obtain rfl : x = b := hx
      exact ⟨free, hfit x lt free⟩

theorem Entered.takes (hopen : OpenDir e I P) (hfit : FreeInData e I)
    (hent : Entered e I P c name I' P') : ∃ new, Takes e I P I' P' new := by
  obtain ⟨I₁, P₁, j, hroom, rfl, rfl⟩ := hent
  obtain ⟨new, htakes⟩ := hroom.takes hs hopen hfit
  exact ⟨new, htakes.blocks, htakes.used, htakes.free⟩

omit hs in
theorem Entered.iMode (h : Entered e I P c name I' P') : P'.iMode = P.iMode := by
  obtain ⟨I₁, P₁, j, hroom, rfl, -⟩ := h
  cases hroom <;> rfl

omit hs in
/-- Only the record of the directory changes, and no number is taken. -/
theorem Entered.live (hgrows : Grows e I P I' P') : InUse e I' = InUse e I := by
  rw [InUse, InUse, hgrows.inodeUsed]

/-- What an entry leaves as it is. -/
structure EnteredIn (e : Env) (I : Image) (p : ℕ) (I' : Image) : Prop where
  live : InUse e I' = InUse e I
  other : ∀ n, n ≠ p → I'.inode n = I.inode n
  mode : (I'.inode p).iMode = (I.inode p).iMode

theorem Stored.entered (h : Stored e I names) (hp : IsDir e I p)
    (hent : Entered e I (I.inode p) c name I' P') : EnteredIn e I p I' ∧ I'.inode p = P' := by
  obtain ⟨hgrows, hinode⟩ := hent.grows hs (h.openDir hp) h.fits.blocks
  rw [(h.record p hp.live).ino] at hinode
  have hself : I'.inode p = P' := by rw [hinode, Function.update_self]
  refine ⟨⟨Entered.live hgrows, fun n hn => ?_, ?_⟩, hself⟩
  · rw [hinode, Function.update_of_ne hn]
  · rw [hself, hent.iMode]

omit hs in
theorem EnteredIn.isDir_iff (h : EnteredIn e I p I') : IsDir e I' n ↔ IsDir e I n := by
  have hmode : (I'.inode n).iMode = (I.inode n).iMode := by
    rcases eq_or_ne n p with rfl | hne
    · exact h.mode
    · rw [h.other n hne]
  refine ⟨fun hn => ?_, fun hn => ?_⟩
  · exact isDir_of_live (h.live ▸ hn.live) (hmode ▸ hn.mode)
  · exact isDir_of_live (h.live.symm ▸ hn.live) (hmode.symm ▸ hn.mode)

/-- **An entry is entered** in a directory, under a name that it does not have. -/
theorem Stored.enter (h : Stored e I names) (hp : IsDir e I p) (hlen : name.length ≤ TFS_NAME_LEN)
    (hnz : ∀ c ∈ name, c ≠ 0) (hc : InTable e.sbi c) (hnone : names p name = none)
    (hent : Entered e I (I.inode p) c name I' P') (hroom : P'.blocks < TFS_N_BLOCKS) :
    Stored e I' (link names p name (some c)) := by
  have hm := hs.geometry.mounted
  have hopen := h.openDir hp
  have hfit := h.fits.blocks
  have hino := (h.record p hp.live).ino
  obtain ⟨hin, hself⟩ := h.entered hs hp hent
  obtain ⟨hgrows, -⟩ := hent.grows hs hopen hfit
  obtain ⟨new, htakes⟩ := hent.takes hs hopen hfit
  have hopen' := hent.open hs hopen hfit hroom
  have hino' : P'.iIno = p := hent.iIno.trans hino
  refine ⟨⟨hent.freeInData hfit, ?_⟩, fun n hn => ?_, ?_, fun n hn => ?_, fun n a x hx => ?_⟩
  · rw [hgrows.inodeUsed]
    exact h.fits.inodes
  · rw [hin.live] at hn
    rcases eq_or_ne n p with rfl | hne
    · rw [hself]
      exact ⟨hopen'.toDirOn, hino', hopen'.words, hopen'.stored⟩
    · rw [hin.other n hne]
      exact h.record n hn
  · have hused : UsedData e I' = UsedData e I ∪ new := Set.ext fun b => by
      change _ ∧ _ ↔ (_ ∧ _) ∨ _
      rw [htakes.used, and_or_left]
      exact or_congr_right (and_iff_right_of_imp fun hb => (htakes.free b hb).2)
    rw [hin.live, hused]
    refine h.ledger.take hp.live ?_ (Set.ext fun b => ?_) fun n hn hne => ?_
    · refine Set.disjoint_left.mpr fun b hb hb' => ?_
      have hfree := (htakes.free b hb).1
      rw [hb'.2] at hfree
      cases hfree
    · rw [listed, hself]
      exact htakes.blocks b
    · rw [listed, listed, hin.other n hne]
  · rw [hin.isDir_iff] at hn
    rcases eq_or_ne n p with rfl | hne
    · obtain ⟨j, hfree, htable⟩ := hent.table hs hopen hfit hlen hnz hc
      have hkeeps := h.dir n hn
      have hnew : ∀ x, ¬Lists (dirTable e I (I.inode n)) name x :=
        (hkeeps.keeps.eq_none_iff (Set.mem_univ _)).mp hnone
      rw [hself, link_self]
      refine ⟨?_, (hkeeps.counted.enter hs hopen hfit hlen hnz hc hent).1, hroom⟩
      rw [htable]
      exact hkeeps.keeps.fill hfree hnew
    · rw [hin.other n hne, link_of_ne hne]
      have htable := hgrows.table_other (Q := I.inode n) hm
        (fun b hb => (h.used_of_mem hn.live hb).2)
        fun b hb => h.notMem_of_mem hn.live hp.live hne hb
      refine (h.dir n hn).congr htable ?_
      rw [(h.record n hn.live).ino]
      exact hin.other n hne
  · rw [hin.isDir_iff]
    rcases link_some_iff.mp hx with ⟨rfl, -, -⟩ | ⟨-, hx⟩
    · exact hp
    · exact h.only n a x hx

/-- The entry is not in a block of a file. -/
theorem Stored.filesKept_enter (h : Stored e I names) (hp : IsDir e I p)
    (hent : Entered e I (I.inode p) c name I' P') : FilesKept e I I' lost :=
  fun n hn hmode _ => by
    obtain ⟨hin, -⟩ := h.entered hs hp hent
    obtain ⟨hgrows, -⟩ := hent.grows hs (h.openDir hp) h.fits.blocks
    have hne : n ≠ p := by
      rintro rfl
      exact hmode hp.mode
    refine ⟨hin.live.symm ▸ hn, hin.other n hne, fun b hb => ?_⟩
    have hnot : b ∉ P'.blockList := fun hb' => by
      rcases hgrows.blocks b hb' with hbp | hfree
      · exact h.notMem_of_mem hn hp.live hne hb hbp
      · rw [(h.used_of_mem hn hb).2] at hfree
        cases hfree
    rw [hgrows.data b hnot]
    exact fun _ _ => rfl

end Entering

/-! ### An entry is removed -/

/-- The image without the entry of a slot, and without the inode it names. -/
def Image.drop (e : Env) (I : Image) (p j c : ℕ) : Image :=
  (I.remove e (I.inode p) j).release (I.inode c)

section Removing

variable (h : Stored e I names) (hp : IsDir e I p) (hc : c ∈ InUse e I) (hne : c ≠ p)

include h hp

theorem Stored.drop_self : (I.drop e p j c).inode p = (I.inode p).shrunk := by
  have hino := (h.record p hp.live).ino
  change Function.update I.inode (I.inode p).iIno (I.inode p).shrunk p = _
  rw [hino, Function.update_self]

theorem Stored.drop_of_ne (hn : n ≠ p) : (I.drop e p j c).inode n = I.inode n := by
  have hino := (h.record p hp.live).ino
  change Function.update I.inode (I.inode p).iIno (I.inode p).shrunk n = _
  rw [hino, Function.update_of_ne hn]

include hc

omit hp in
theorem Stored.drop_inodeUsed : (I.drop e p j c).inodeUsed = Function.update I.inodeUsed c false :=
  congrArg (Function.update I.inodeUsed · false) (h.record c hc).ino

omit hp in
theorem Stored.live_drop : InUse e (I.drop e p j c) = InUse e I \ {c} := by
  ext n
  change _ ∧ (I.drop e p j c).inodeUsed n = true ↔ (_ ∧ _) ∧ n ≠ c
  rw [h.drop_inodeUsed hc]
  rcases eq_or_ne n c with rfl | hnc
  · rw [Function.update_self]
    exact iff_of_false (fun h => by cases h.2) fun h => h.2 rfl
  · rw [Function.update_of_ne hnc]
    exact (and_iff_left hnc).symm

theorem Stored.isDir_drop_iff : IsDir e (I.drop e p j c) n ↔ IsDir e I n ∧ n ≠ c := by
  have hmode : ((I.drop e p j c).inode n).iMode = (I.inode n).iMode := by
    rcases eq_or_ne n p with rfl | hnp
    · rw [h.drop_self hp]
      rfl
    · rw [h.drop_of_ne hp hnp]
  have hlive : n ∈ InUse e (I.drop e p j c) ↔ n ∈ InUse e I ∧ n ≠ c := by
    rw [h.live_drop hc]
    rfl
  refine ⟨fun hn => ?_, fun hn => ?_⟩
  · obtain ⟨hn', hnc⟩ := hlive.mp hn.live
    exact ⟨isDir_of_live hn' (hmode ▸ hn.mode), hnc⟩
  · exact isDir_of_live (hlive.mpr ⟨hn.1.live, hn.2⟩) (hmode.symm ▸ hn.1.mode)

include hne

/-- **An entry is removed**, and what it names has no names any more. -/
theorem Stored.remove (hm : Mounted e.sbi) (hj : NamedAt e I (I.inode p) name j c) :
    Stored e (I.drop e p j c)
      (Function.update (link names p name none) c fun _ => none) := by
  have hopen := h.openDir hp
  have hino := (h.record p hp.live).ino
  have hblockUsed : ∀ b, (I.drop e p j c).blockUsed b =
      if b ∈ (I.inode c).blockList then false else I.blockUsed b := fun _ => rfl
  have hlist : ∀ n, listed (I.drop e p j c) n = listed I n := fun n => by
    rw [listed, listed]
    rcases eq_or_ne n p with rfl | hnp
    · rw [h.drop_self hp]
      rfl
    · rw [h.drop_of_ne hp hnp]
  have hnames : ∀ n a x, Function.update (link names p name none) c (fun _ => none) n a = some x →
      n ≠ c ∧ names n a = some x := fun n a x hx => by
    rcases eq_or_ne n c with rfl | hnc
    · rw [Function.update_self] at hx
      cases hx
    · rw [Function.update_of_ne hnc] at hx
      exact ⟨hnc, (link_none_iff.mp hx).2⟩
  refine ⟨⟨fun b hb hfree => ?_, fun n h1 hn hfree => ?_⟩, fun n hn => ?_, ?_, fun n hn => ?_,
    fun n a x hx => ?_⟩
  · rw [hblockUsed] at hfree
    by_cases hmem : b ∈ (I.inode c).blockList
    · exact (h.used_of_mem hc hmem).1
    · rw [if_neg hmem] at hfree
      exact h.fits.blocks b hb hfree
  · rw [h.drop_inodeUsed hc] at hfree
    rcases eq_or_ne n c with rfl | hnc
    · exact hc.1
    · rw [Function.update_of_ne hnc] at hfree
      exact h.fits.inodes n h1 hn hfree
  · rw [h.live_drop hc] at hn
    have hrec := h.record n hn.1
    rcases eq_or_ne n p with rfl | hnp
    · rw [h.drop_self hp]
      exact ⟨⟨hrec.packed, hrec.area, hrec.once⟩, hrec.ino, hrec.words.shrunk,
        shrunk_stored hrec.stored⟩
    · rw [h.drop_of_ne hp hnp]
      exact hrec
  · have hused : UsedData e (I.drop e p j c) = UsedData e I \ listed I c := Set.ext fun b => by
      change _ ∧ (I.drop e p j c).blockUsed b = true ↔ (_ ∧ _) ∧ b ∉ (I.inode c).blockList
      rw [hblockUsed]
      by_cases hmem : b ∈ (I.inode c).blockList
      · rw [if_pos hmem]
        exact iff_of_false (fun h => by cases h.2) fun h => h.2 hmem
      · rw [if_neg hmem]
        exact (and_iff_left hmem).symm
    rw [h.live_drop hc, hused]
    exact (h.ledger.release hc).congr fun n _ => hlist n
  · obtain ⟨hn, hnc⟩ := (h.isDir_drop_iff hp hc).mp hn
    rw [Function.update_of_ne hnc]
    have hkeeps := h.dir n hn
    rcases eq_or_ne n p with rfl | hnp
    · rw [h.drop_self hp, link_self]
      refine ⟨?_, hkeeps.counted.remove hm hopen.toDirOn hj _, hkeeps.room⟩
      rw [Image.drop, dirTable_remove hm hopen.toDirOn hj.first.2.1]
      exact hkeeps.keeps.free hj.table
    · rw [h.drop_of_ne hp hnp, link_of_ne hnp]
      refine hkeeps.congr (dirTable_agree hm fun b hb => ?_) ?_
      · have hnot : b ≠ slotBlock e (I.inode p) j := fun heq =>
          h.notMem_of_mem hn.live hp.live hnp hb (heq ▸ slotBlock_mem hm hj.first.2.1)
        exact Function.update_of_ne hnot _ _
      · rw [(h.record n hn.live).ino]
        exact h.drop_of_ne hp hnp
  · obtain ⟨hnc, hx⟩ := hnames n a x hx
    exact (h.isDir_drop_iff hp hc).mpr ⟨h.only n a x hx, hnc⟩

omit hne in
/-- The files but the one removed stay. -/
theorem Stored.filesKept_drop (hm : Mounted e.sbi) (hj : j < slots e (I.inode p)) :
    FilesKept e I (I.drop e p j c) {c} := fun n hn hmode hnc => by
  have hnp : n ≠ p := by
    rintro rfl
    exact hmode hp.mode
  refine ⟨?_, h.drop_of_ne hp hnp, fun b hb => ?_⟩
  · rw [h.live_drop hc]
    exact ⟨hn, hnc⟩
  · have hnot : b ≠ slotBlock e (I.inode p) j := fun heq =>
      h.notMem_of_mem hn hp.live hnp hb (heq ▸ slotBlock_mem hm hj)
    have hdata : (I.drop e p j c).data b = I.data b := Function.update_of_ne hnot _ _
    rw [hdata]
    exact fun _ _ => rfl

end Removing

end Thunix.Fs
