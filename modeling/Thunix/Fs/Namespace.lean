import Thunix.Fs.KernelImage

/-!
# Making entries in an image

What `tfs_mknod` and `tfs_mkdir` do to an image, when no transfer fails. An entry that is
entered (`Thunix.Fs.Entered`) goes to a free slot or to a new block, and the record of its
directory is written. Each function has one triple, with all the ways it can end.
-/

namespace Thunix.Fs

variable {e : Env} {I I₁ : Image} {k₀ k : Kernel} {P P₁ C : Inode} {dir obj b c j n : ℕ} {mode : ℤ}
  {name : List UInt8}

/-! ### Records -/

theorem Inode.Words.grown (h : P.Words) : P.grown.Words :=
  { h with size := Nat.mod_lt _ (by decide) }

theorem Inode.Words.setData (h : P.Words) (hb : b < 2 ^ 32) {k : ℕ} (hk : k < TFS_N_BLOCKS) :
    (P.setData k b).Words :=
  { h with
    data := fun j => by
      rw [getD_setData hk]
      by_cases hj : j = k
      · rw [if_pos hj]
        exact hb
      · rw [if_neg hj]
        exact h.data j }

theorem freshInode_words (hn : n < 2 ^ 32) : (freshInode mode n P).Words := by
  have h0 : 0 < 2 ^ 32 := by decide
  refine ⟨h0, hn, h0, h0, h0, h0, h0, fun k => ?_⟩
  change (List.replicate TFS_N_BLOCKS 0).getD k 0 < 2 ^ 32
  rw [List.getD_eq_getElem?_getD, List.getElem?_replicate]
  split <;> decide

theorem freshInode_blocks : (freshInode mode n P).blocks = 0 := rfl

theorem freshInode_packed : (freshInode mode n P).Packed := fun j k _ _ => by
  change (List.replicate TFS_N_BLOCKS 0).getD k 0 = 0
  rw [List.getD_eq_getElem?_getD, List.getElem?_replicate]
  split <;> rfl

/-! ### Directories with an object -/

/-- The contents of an object for a directory that an entry can be entered in: less than all
its blocks are used up, its blocks are taken, and a record can hold it. -/
structure OpenDir (e : Env) (I : Image) (P : Inode) : Prop extends DirOn e P where
  room : P.blocks < TFS_N_BLOCKS
  used : ∀ k < P.blocks, I.blockUsed (P.iData.getD k 0) = true
  words : P.Words
  ino : InTable e.sbi P.iIno
  stored : P.stored e = P

/-- What is free is of the data area, and of the table. -/
structure FreeFits (e : Env) (I : Image) : Prop where
  blocks : FreeInData e I
  inodes : ∀ n, 1 ≤ n → n ≤ 8 * e.sbi.sBlockSize → I.inodeUsed n = false → InTable e.sbi n

/-- What has been made room for. -/
structure HasRoom (e : Env) (I₁ : Image) (P P₁ : Inode) (j : ℕ) : Prop extends DirOn e P₁ where
  lt : j < slots e P₁
  free : slotIno e I₁.data P₁ j = 0
  words : P₁.Words
  used : ∀ k < P₁.blocks, I₁.blockUsed (P₁.iData.getD k 0) = true
  blocks_le : P₁.blocks ≤ P.blocks + 1
  rest : P₁.iIno = P.iIno ∧ P₁.iMode = P.iMode ∧ P₁.iSize = P.iSize ∧ P₁.iBlksize = P.iBlksize

theorem Inode.stored_eq_iff : P.stored e = P ↔
    P.iMode % 2 ^ 16 = P.iMode ∧ 1 <<< e.sbi.sBlockShift = P.iBlksize := by
  constructor
  · intro h
    exact ⟨congrArg Inode.iMode h, congrArg Inode.iBlksize h⟩
  · rintro ⟨h1, h2⟩
    rw [Inode.stored, h1, h2]

theorem RoomFor.hasRoom (hm : Mounted e.sbi) (h : OpenDir e I P) (hfit : FreeInData e I)
    (hblocks : 8 * e.sbi.sBlockSize ≤ 2 ^ 32) (hpos : 0 < e.sbi.sDataArea)
    (hroom : RoomFor e I P I₁ P₁ j) : HasRoom e I₁ P P₁ j := by
  cases hroom with
  | slot first =>
    exact ⟨h.toDirOn, first.2.1, first.2.2.1, h.words, h.used, Nat.le_succ _, rfl, rfl, rfl, rfl⟩
  | @block b none lt free =>
    have hdata := hfit b lt free
    have hb0 : b ≠ 0 := by
      have := hdata.1
      omega
    have hnew : ∀ k < P.blocks, P.iData.getD k 0 ≠ b := fun k hk heq => by
      have := h.used k hk
      rw [heq, free] at this
      cases this
    have hcount := Inode.blocks_setData h.packed h.room hb0
    have hE := hm.entriesPerBlock_pos
    have hslots : slots e (P.setData P.blocks b) = slots e P + entriesPerBlock e := by
      rw [slots, hcount, Nat.succ_mul]
      rfl
    have hword : ∀ k < P.blocks + 1, (P.setData P.blocks b).iData.getD k 0 =
        if k = P.blocks then b else P.iData.getD k 0 := fun k _ => getD_setData h.room
    refine ⟨⟨h.packed.setData h.room hb0, fun k hk => ?_, fun j hj k hk hjk => ?_⟩, by omega, ?_,
      h.words.setData (by omega) h.room, fun k hk => ?_, hcount.le, rfl, rfl, rfl, rfl⟩
    · rw [hcount] at hk
      rw [hword k hk]
      by_cases hkb : k = P.blocks
      · rw [if_pos hkb]
        exact hdata
      · rw [if_neg hkb]
        exact h.area k (by omega)
    · rw [hcount] at hj hk
      rw [hword j hj, hword k hk] at hjk
      by_cases hjb : j = P.blocks <;> by_cases hkb : k = P.blocks
      · rw [hjb, hkb]
      · rw [if_pos hjb, if_neg hkb] at hjk
        exact absurd hjk.symm (hnew k (by omega))
      · rw [if_neg hjb, if_pos hkb] at hjk
        exact absurd hjk (hnew j (by omega))
      · rw [if_neg hjb, if_neg hkb] at hjk
        exact h.once j (by omega) k (by omega) hjk
    · exact slotIno_setData (I := I.useBlock b true) hm h.room hnew (le_refl _) (by omega)
    · rw [hcount] at hk
      rw [hword k hk]
      change Function.update I.blockUsed b true _ = true
      by_cases hkb : k = P.blocks
      · rw [if_pos hkb, Function.update_self]
      · rw [if_neg hkb, Function.update_of_ne (hnew k (by omega))]
        exact h.used k (by omega)

/-! ### Entering -/

/-- A number is taken, and its record written. -/
def Image.make (I : Image) (c : ℕ) (inode : Inode) : Image := (I.useInode c true).setInode c inode

/-- An entry is entered in the directory `P`: its slot is filled, and the record of the
directory written. -/
def Entered (e : Env) (I : Image) (P : Inode) (c : ℕ) (name : List UInt8) (I' : Image)
    (P' : Inode) : Prop :=
  ∃ I₁ P₁ j, RoomFor e I P I₁ P₁ j ∧ P' = P₁.grown ∧
    I' = (I₁.putSlot e P₁ j sizeofDirEntry (newEntry c name)).setInode P.iIno P₁.grown

theorem grown_stored (h : P₁.stored e = P₁) : P₁.grown.stored e = P₁.grown := by
  obtain ⟨h1, h2⟩ := Inode.stored_eq_iff.mp h
  exact Inode.stored_eq_iff.mpr ⟨h1, h2⟩

theorem HasRoom.stored (h : HasRoom e I₁ P P₁ j) (hP : P.stored e = P) : P₁.stored e = P₁ := by
  obtain ⟨-, h2, -, h4⟩ := h.rest
  rw [Inode.stored_eq_iff, h2, h4]
  exact Inode.stored_eq_iff.mp hP

/-- A number that is free. -/
def FreshInode (e : Env) (I : Image) (c : ℕ) : Prop := InTable e.sbi c ∧ I.inodeUsed c = false

/-- All numbers are taken. -/
def AllInodes (e : Env) (I : Image) : Prop :=
  ∀ n, 1 ≤ n → n ≤ 8 * e.sbi.sBlockSize → I.inodeUsed n = true

/-- There is a free block, if the directory needs one for the next entry. -/
def BlockFor (e : Env) (I : Image) (P : Inode) : Prop :=
  NoneFree e I P 0 → ∃ b < 8 * e.sbi.sBlockSize, I.blockUsed b = false

/-- Too long a name is refused. -/
theorem addEntryObj_long (hlen : TFS_NAME_LEN < name.length) :
    Hoare (KernelOn e I k₀) (addEntryObj e dir name c) fun r k =>
      r = (-ENAMETOOLONG, false) ∧ KernelOn e I k₀ k := by
  unfold addEntryObj
  refine inodeAt_on.bind_eq ?_
  have hadd : Hoare (ImageOn e I) (tfsAddEntry e (k₀.objs dir) name (toS32 c) false) fun r d =>
      r = (-ENAMETOOLONG, k₀.objs dir, false) ∧ ImageOn e I d := by
    rw [tfsAddEntry, if_pos hlen]
    exact .pure fun d h => ⟨rfl, h⟩
  refine (onDev_on_eq hadd).bind_eq ?_
  refine (setInode_on _).bind fun _ => .pure fun k h => ⟨rfl, ?_⟩
  have hself : k₀.setObj dir (k₀.objs dir) = k₀ := by rw [Kernel.setObj, Function.update_eq_self]
  rwa [hself] at h

section Entering

variable (hs : Steady e)

include hs

theorem RoomFor.hasRoom' (h : OpenDir e I P) (hfit : FreeInData e I)
    (hroom : RoomFor e I P I₁ P₁ j) : HasRoom e I₁ P P₁ j :=
  hroom.hasRoom hs.geometry.mounted h hfit
    (hs.geometry.small.trans (by decide)) hs.geometry.area_pos

/-- The number of an inode of the table is small. -/
theorem InTable.toS32_eq (hc : InTable e.sbi c) : toS32 c = c := by
  have h1 := hs.geometry.small
  have h2 := hs.geometry.inodes
  have h3 := hc.2
  exact toS32_of_lt (by omega)

/-- **`tfs_add_entry`**, to the directory of an object. -/
theorem addEntryObj_on (hP : k₀.objs dir = P) (h : OpenDir e I P) (hfit : FreeInData e I)
    (hlen : name.length ≤ TFS_NAME_LEN) (hc : InTable e.sbi c) (hblock : BlockFor e I P) :
    Hoare (KernelOn e I k₀) (addEntryObj e dir name c) fun r k =>
      ∃ I₁ P₁ j, RoomFor e I P I₁ P₁ j ∧ r = (0, true) ∧
        KernelOn e (I₁.putSlot e P₁ j sizeofDirEntry (newEntry c name))
          (k₀.setObj dir P₁.grown) k := by
  unfold addEntryObj
  refine inodeAt_on.bind_eq ?_
  rw [hP, hc.toS32_eq hs]
  refine (onDev_on (tfsAddEntry_image hs h.toDirOn h.room hfit hlen c false hblock)).bind
    fun r => ?_
  rintro k ⟨⟨I₁, P₁, j, hroom, rfl, hon⟩, halike⟩
  have hset : Hoare (KernelOn e (I₁.putSlot e P₁ j sizeofDirEntry (newEntry c name)) k₀) (do
      setInode dir P₁.grown
      pure (0, true) : KernelM (ℤ × Bool)) fun r k => r = (0, true) ∧
        KernelOn e (I₁.putSlot e P₁ j sizeofDirEntry (newEntry c name))
          (k₀.setObj dir P₁.grown) k :=
    (setInode_on _).bind fun _ => .pure fun k h => ⟨rfl, h⟩
  obtain ⟨hr, hk⟩ := hset k ⟨hon, halike⟩
  exact ⟨I₁, P₁, j, hroom, hr, hk⟩

/-- **The end of `tfs_mknod`**: the new inode is written and entered. -/
theorem enterInode_on (hP : k₀.objs dir = P) (hC : k₀.objs obj = C) (h : OpenDir e I P)
    (hfit : FreeInData e I) (hc : InTable e.sbi C.iIno) (hwords : C.Words)
    (hlen : name.length ≤ TFS_NAME_LEN) (hblock : BlockFor e I P) :
    Hoare (KernelOn e I k₀) (enterInode e dir name obj) fun r k =>
      r = 0 ∧ ∃ I' P', Entered e (I.setInode C.iIno (C.stored e)) P C.iIno name I' P' ∧
        KernelOn e I' (k₀.setObj dir P') k := by
  unfold enterInode
  refine (iwriteObj_on hs hC hc hwords).bind_eq ?_
  rw [if_neg (not_not.mpr rfl)]
  refine inodeAt_on.bind_eq ?_
  rw [hC]
  have hopen : OpenDir e (I.setInode C.iIno (C.stored e)) P := { h with }
  refine (addEntryObj_on hs hP hopen hfit hlen hc hblock).bind fun r => ?_
  rintro k ⟨I₁, P₁, j, hroom, rfl, hk⟩
  have hhas := hroom.hasRoom' hs hopen hfit
  have hwrite : Hoare (KernelOn e (I₁.putSlot e P₁ j sizeofDirEntry (newEntry C.iIno name))
      (k₀.setObj dir P₁.grown)) (do
        if (← iwriteObj e dir) ≠ 0 then pure (- EIO) else pure 0 : KernelM ℤ) fun r k => r = 0 ∧
          KernelOn e ((I₁.putSlot e P₁ j sizeofDirEntry (newEntry C.iIno name)).setInode P.iIno
            P₁.grown) (k₀.setObj dir P₁.grown) k := by
    have hino : P₁.grown.iIno = P.iIno := hhas.rest.1
    refine (iwriteObj_on hs (setObj_self _ _ _) (hino ▸ h.ino) hhas.words.grown).bind_eq ?_
    rw [if_neg (not_not.mpr rfl), hino, grown_stored (hhas.stored h.stored)]
    exact .pure fun k h => ⟨rfl, h⟩
  dsimp only
  rw [if_neg (not_not.mpr rfl), if_pos rfl]
  obtain ⟨hr, hk'⟩ := hwrite k hk
  exact ⟨hr, _, _, ⟨I₁, P₁, j, hroom, rfl, rfl⟩, hk'⟩

/-- A name that is too long, after the inode has been written. -/
theorem enterInode_long (hC : k₀.objs obj = C) (hc : InTable e.sbi C.iIno) (hwords : C.Words)
    (hlen : TFS_NAME_LEN < name.length) :
    Hoare (KernelOn e I k₀) (enterInode e dir name obj) fun r k =>
      r = -ENAMETOOLONG ∧ KernelOn e (I.setInode C.iIno (C.stored e)) k₀ k := by
  unfold enterInode
  refine (iwriteObj_on hs hC hc hwords).bind_eq ?_
  rw [if_neg (not_not.mpr rfl)]
  refine inodeAt_on.bind_eq ((addEntryObj_long hlen).bind_eq ?_)
  dsimp only
  rw [if_pos (by decide)]
  exact .pure fun k h => ⟨rfl, h⟩

end Entering

/-! ### `tfs_mknod` -/

section Making

variable (hs : Steady e)

include hs

/-- What `tfs_mknod` can end with when it makes an inode. -/
def MadeOrNot (e : Env) (I : Image) (k₀ : Kernel) (dir : ℕ) (P : Inode) (name : List UInt8)
    (mode : ℤ) (r : Except ℤ ℕ) (k : Kernel) : Prop :=
  (r = .error (-ENOSPC) ∧ AllInodes e I ∧ ∃ i, KernelOn e I (k₀.addObj i) k) ∨
  ∃ c, FreshInode e I c ∧
    ((TFS_NAME_LEN < name.length ∧ r = .error (-ENAMETOOLONG) ∧
        KernelOn e (I.make c ((freshInode mode c P).stored e))
          (k₀.addObj (freshInode mode c P)) k) ∨
      (name.length ≤ TFS_NAME_LEN ∧ r = .ok k₀.nextObj ∧ ∃ I' P',
        Entered e (I.make c ((freshInode mode c P).stored e)) P c name I' P' ∧
        KernelOn e I' ((k₀.addObj (freshInode mode c P)).setObj dir P') k))

/-- **`tfs_mknod`**, when the name has not been found. -/
theorem makeEntry_on (hP : k₀.objs dir = P) (hdir : dir < k₀.nextObj) (h : OpenDir e I P)
    (hfit : FreeFits e I) (hblock : name.length ≤ TFS_NAME_LEN → BlockFor e I P) :
    Hoare (KernelOn e I k₀) (makeEntry e dir name mode) fun r k =>
      (r = .error (-ENOMEM) ∧ NoMemory e ∧ KernelOn e I k₀ k) ∨
        MadeOrNot e I k₀ dir P name mode r k := by
  unfold makeEntry
  refine (tfsNewInode_on hs hdir mode).bind fun r k hk => ?_
  rcases hk with ⟨rfl, hno, hk⟩ | ⟨rfl, hall, hk⟩ | ⟨c, h1, hc8, hfree, rfl, hk⟩
  · exact .inl ⟨rfl, hno, hk⟩
  · exact .inr (.inl ⟨rfl, hall, _, hk⟩)
  · rw [hP] at hk
    have hc : InTable e.sbi c := hfit.inodes c h1 hc8 hfree
    have hsmall := hs.geometry.small
    have hwords : (freshInode mode c P).Words := freshInode_words (by omega)
    have hobj : (k₀.addObj (freshInode mode c P)).objs k₀.nextObj = freshInode mode c P :=
      addObj_self _ _
    have hP' : (k₀.addObj (freshInode mode c P)).objs dir = P := (addObj_of_lt hdir).trans hP
    have hopen : OpenDir e (I.useInode c true) P := { h with }
    have hend : Hoare (KernelOn e (I.useInode c true) (k₀.addObj (freshInode mode c P))) (do
        let err ← enterInode e dir name k₀.nextObj
        if err ≠ 0 then do
          freeInode k₀.nextObj
          pure (.error err)
        else pure (.ok k₀.nextObj) : KernelM (Except ℤ ℕ)) fun r k =>
          (TFS_NAME_LEN < name.length ∧ r = .error (-ENAMETOOLONG) ∧
            KernelOn e (I.make c ((freshInode mode c P).stored e))
              (k₀.addObj (freshInode mode c P)) k) ∨
          (name.length ≤ TFS_NAME_LEN ∧ r = .ok k₀.nextObj ∧ ∃ I' P',
            Entered e (I.make c ((freshInode mode c P).stored e)) P c name I' P' ∧
            KernelOn e I' ((k₀.addObj (freshInode mode c P)).setObj dir P') k) := by
      rcases Nat.lt_or_ge TFS_NAME_LEN name.length with hlong | hlen
      · refine (enterInode_long hs hobj hc hwords hlong).bind_eq ?_
        rw [if_pos (by decide)]
        exact freeInode_on.bind fun _ => .pure fun k h => .inl ⟨hlong, rfl, h⟩
      · refine (enterInode_on hs hP' hobj hopen hfit.blocks hc hwords hlen (hblock hlen)).bind_eq ?_
        rw [if_neg (not_not.mpr rfl)]
        exact .pure fun k h => .inr ⟨hlen, rfl, h⟩
    exact .inr (.inr ⟨c, ⟨hc, hfree⟩, hend k hk⟩)

/-- A slot of the directory has this name. -/
def HasName (e : Env) (I : Image) (P : Inode) (name : List UInt8) : Prop :=
  ∃ j < slots e P, SlotNamed e I.data P name j

/-- **`tfs_mknod`.** -/
theorem tfsMknod_on (hP : k₀.objs dir = P) (hdir : dir < k₀.nextObj) (h : OpenDir e I P)
    (hfit : FreeFits e I) (hleg : Legible e I.data P P.blocks name) (hnz : ∀ c ∈ name, c ≠ 0)
    (hblock : ¬HasName e I P name → name.length ≤ TFS_NAME_LEN → BlockFor e I P) :
    Hoare (KernelOn e I k₀) (tfsMknod e dir name mode) fun r k =>
      (HasName e I P name ∧ r = .error (-EEXIST) ∧ KernelOn e I k₀ k) ∨
      (¬HasName e I P name ∧ ((r = .error (-ENOMEM) ∧ NoMemory e ∧ KernelOn e I k₀ k) ∨
        MadeOrNot e I k₀ dir P name mode r k)) := by
  unfold tfsMknod
  refine inodeAt_on.bind_eq ?_
  rw [hP]
  refine (onDev_on (tfsFindEntry_image hs h.toDirOn h.room hleg hnz)).bind fun res => ?_
  rintro k ⟨hfound, halike⟩
  cases res with
  | null =>
    obtain ⟨hon, hno⟩ := hfound
    have hmissing : ¬HasName e I P name := fun ⟨j, hj, hn⟩ => hno j hj hn
    exact .inr ⟨hmissing, makeEntry_on hs hP hdir h hfit (hblock hmissing) k ⟨hon, halike⟩⟩
  | err => exact hfound.elim
  | found cs de =>
    obtain ⟨i, j, -, -, ⟨-, hj, hnamed, -⟩, hhold, -⟩ := hfound
    exact .inl ⟨⟨j, hj, hnamed⟩, rfl, hhold.on, halike⟩

end Making

/-! ### `tfs_mkdir` -/

/-- A record of another number makes no difference to where an entry goes. -/
theorem RoomFor.setInode (h : RoomFor e I P I₁ P₁ j) (n : ℕ) (inode : Inode) :
    RoomFor e (I.setInode n inode) P (I₁.setInode n inode) P₁ j := by
  cases h with
  | slot first => exact .slot first
  | block none lt free => exact .block none lt free

theorem putSlot_setInode (I : Image) (n : ℕ) (inode : Inode) (P : Inode) (j count : ℕ) (f : Buf) :
    (I.setInode n inode).putSlot e P j count f = (I.putSlot e P j count f).setInode n inode := rfl

theorem setInode_setInode (I : Image) (n : ℕ) (inode inode' : Inode) :
    (I.setInode n inode).setInode n inode' = I.setInode n inode' := by
  rw [Image.setInode, Image.setInode, Image.setInode, Function.update_idem]

/-- The directory after the entry. -/
theorem HasRoom.grown_open (h : HasRoom e I₁ P P₁ j) (hP : OpenDir e I P)
    (hin : P₁.grown.blocks < TFS_N_BLOCKS) : OpenDir e I₁ P₁.grown := by
  have hino : InTable e.sbi P₁.grown.iIno := by
    change InTable e.sbi P₁.iIno
    rw [h.rest.1]
    exact hP.ino
  exact ⟨⟨h.packed, h.area, h.once⟩, hin, h.used, h.words.grown, hino,
    grown_stored (h.stored hP.stored)⟩

/-- The blocks that are free. -/
def freeCount (e : Env) (I : Image) : ℕ :=
  ((Finset.range (8 * e.sbi.sBlockSize)).filter fun b => I.blockUsed b = false).card

theorem freeCount_pos : 0 < freeCount e I ↔ ∃ b < 8 * e.sbi.sBlockSize, I.blockUsed b = false := by
  rw [freeCount, Finset.card_pos]
  refine exists_congr fun b => ?_
  rw [Finset.mem_filter, Finset.mem_range]

theorem freeCount_useBlock (hb : b < 8 * e.sbi.sBlockSize) (hfree : I.blockUsed b = false) :
    freeCount e (I.useBlock b true) + 1 = freeCount e I := by
  have herase : ((Finset.range (8 * e.sbi.sBlockSize)).filter fun b' =>
      (I.useBlock b true).blockUsed b' = false) =
      ((Finset.range (8 * e.sbi.sBlockSize)).filter fun b' => I.blockUsed b' = false).erase b := by
    ext b'
    rw [Finset.mem_erase, Finset.mem_filter, Finset.mem_filter]
    change _ ∧ Function.update I.blockUsed b true b' = false ↔ _
    by_cases hbb : b' = b
    · rw [hbb, Function.update_self]
      simp
    · rw [Function.update_of_ne hbb]
      simp [hbb]
  have hmem : b ∈ (Finset.range (8 * e.sbi.sBlockSize)).filter fun b' => I.blockUsed b' = false :=
    Finset.mem_filter.mpr ⟨Finset.mem_range.mpr hb, hfree⟩
  rw [freeCount, freeCount, herase, Finset.card_erase_of_mem hmem]
  exact Nat.sub_add_cancel (Finset.card_pos.mpr ⟨b, hmem⟩)

/-- An entry takes a block at most, and none if there is a free slot. -/
theorem RoomFor.freeCount_eq (h : RoomFor e I P I₁ P₁ j) :
    (¬NoneFree e I P 0 ∧ freeCount e I₁ = freeCount e I) ∨
      (NoneFree e I P 0 ∧ freeCount e I₁ + 1 = freeCount e I) := by
  cases h with
  | slot first => exact .inl ⟨fun h => h j first.1 first.2.1 first.2.2.1, rfl⟩
  | block none lt free => exact .inr ⟨none, freeCount_useBlock lt free⟩

/-- The blocks for a new directory: one, and one more if its parent needs it. -/
def BlocksFor (e : Env) (I : Image) (P : Inode) : Prop :=
  0 < freeCount e I ∧ (NoneFree e I P 0 → 1 < freeCount e I)

theorem BlocksFor.blockFor (h : BlocksFor e I P) : BlockFor e I P := fun _ => freeCount_pos.mp h.1

/-- One is left for the directory itself. -/
theorem BlocksFor.left {c : ℕ} {inode : Inode} {I' : Image} {P' : Inode} (h : BlocksFor e I P)
    (hent : Entered e (I.make c inode) P c name I' P') : 0 < freeCount e I' := by
  obtain ⟨I₁, P₁, j, hroom, -, rfl⟩ := hent
  change 0 < freeCount e I₁
  have hcount : freeCount e (I.make c inode) = freeCount e I := rfl
  rcases hroom.freeCount_eq with ⟨-, heq⟩ | ⟨hnone, heq⟩
  · have := h.1
    omega
  · have := h.2 hnone
    omega

theorem dots_length : dot.length ≤ TFS_NAME_LEN ∧ (dot ++ dot).length ≤ TFS_NAME_LEN := by decide

theorem dots_nonzero : (∀ c ∈ dot, c ≠ 0) ∧ ∀ c ∈ dot ++ dot, c ≠ 0 := by
  have hdot : ∀ c ∈ dot, c ≠ 0 := List.forall_mem_singleton.mpr (by decide)
  exact ⟨hdot, List.forall_mem_append.mpr ⟨hdot, hdot⟩⟩

theorem freshInode_open {I' : Image} (hc : InTable e.sbi c) (hs : Steady e) (hP : P.stored e = P) :
    OpenDir e I' (freshInode TFS_DIR c P) := by
  have h1 := hs.geometry.small
  have h2 := hs.geometry.inodes
  have h3 := hc.2
  refine ⟨⟨freshInode_packed, fun k hk => absurd hk (Nat.not_lt_zero k),
    fun k hk => absurd hk (Nat.not_lt_zero k)⟩, show 0 < TFS_N_BLOCKS by decide,
    fun k hk => absurd hk (Nat.not_lt_zero k), freshInode_words (by omega), hc, ?_⟩
  exact Inode.stored_eq_iff.mpr ⟨rfl, (Inode.stored_eq_iff.mp hP).2⟩

theorem RoomFor.freeInData (h : RoomFor e I P I₁ P₁ j) (hfit : FreeInData e I) :
    FreeInData e I₁ := by
  cases h with
  | slot => exact hfit
  | @block b =>
    intro b' hb' hfree
    refine hfit b' hb' ?_
    change Function.update I.blockUsed b true b' = false at hfree
    by_cases hbb : b' = b
    · rw [hbb, Function.update_self] at hfree
      cases hfree
    · rwa [Function.update_of_ne hbb] at hfree

/-- In the first block of a directory there is room for a second entry. -/
theorem RoomFor.second_free (hm : Mounted e.sbi) (hC : C.blocks = 0) (h : RoomFor e I C I₁ P₁ j)
    (hhas : HasRoom e I₁ C P₁ j) (f : Buf) :
    ¬NoneFree e (I₁.putSlot e P₁ j sizeofDirEntry f) P₁.grown 0 := by
  have hslots : slots e C = 0 := by rw [slots, hC, Nat.zero_mul]
  have hE : 1 < entriesPerBlock e := by
    have h1 := hm.slots
    have h2 := hm.size_pos
    rw [sizeofDirEntry] at h1
    omega
  cases h with
  | slot first => exact absurd first.2.1 (by rw [hslots]; exact Nat.not_lt_zero j)
  | @block b none lt free =>
    have hlt := hhas.lt
    have hroom : C.blocks < TFS_N_BLOCKS := by
      rw [hC]
      decide
    have hblocks : 0 < (C.setData C.blocks b).blocks :=
      Nat.pos_of_ne_zero fun h0 => by
        rw [hslots, slots, h0, Nat.zero_mul] at hlt
        exact Nat.lt_irrefl 0 hlt
    have h1 : 1 < slots e (C.setData C.blocks b) := by
      have := Nat.mul_le_mul_right (entriesPerBlock e) hblocks
      rw [Nat.succ_mul, Nat.zero_mul, Nat.zero_add] at this
      exact lt_of_lt_of_le hE this
    have hnew : ∀ k < C.blocks, C.iData.getD k 0 ≠ b := fun k hk => by
      rw [hC] at hk
      exact absurd hk (Nat.not_lt_zero k)
    have hzero : slotIno e ((I.useBlock b true).setData b fun _ => 0).data (C.setData C.blocks b)
        1 = 0 :=
      slotIno_setData hm hroom hnew (by omega) (by omega)
    exact fun hall => hall 1 (Nat.zero_le 1) h1 <|
      (slotIno_putSlot_of_ne hm hhas.toDirOn hlt h1 (le_refl _) (by omega)).trans hzero

/-- **The entries of a new directory.** -/
theorem enterDots_on (hs : Steady e) (hC : k₀.objs obj = C) (hP : k₀.objs dir = P) (hne : dir ≠ obj)
    (hopen : OpenDir e I C) (hblocks : C.blocks = 0) (hfit : FreeInData e I)
    (hp : InTable e.sbi P.iIno) (hfree : 0 < freeCount e I) :
    Hoare (KernelOn e I k₀) (enterDots e obj dir) fun r k => r = 0 ∧ ∃ I₁ C₁ I₂ C₂,
      Entered e I C C.iIno dot I₁ C₁ ∧ Entered e I₁ C₁ P.iIno (dot ++ dot) I₂ C₂ ∧
      KernelOn e I₂ (k₀.setObj obj C₂) k := by
  have hm := hs.geometry.mounted
  unfold enterDots
  refine inodeAt_on.bind_eq ?_
  rw [hC]
  refine (addEntryObj_on hs hC hopen hfit dots_length.1 hopen.ino fun _ =>
    freeCount_pos.mp hfree).bind fun r => ?_
  refine Hoare.exists fun J => Hoare.exists fun D => Hoare.exists fun j => ?_
  refine Hoare.given fun hroom => Hoare.given ?_
  rintro rfl
  have hhas := hroom.hasRoom' hs hopen hfit
  have hopen' : OpenDir e (J.putSlot e D j sizeofDirEntry (newEntry C.iIno dot)) D.grown :=
    { hhas.grown_open hopen (lt_of_le_of_lt hhas.blocks_le (by rw [hblocks]; decide)) with }
  have hino : D.grown.iIno = C.iIno := hhas.rest.1
  have hPobj : (k₀.setObj obj D.grown).objs dir = P := (setObj_of_ne hne).trans hP
  dsimp only
  rw [if_neg (not_not.mpr rfl)]
  -- the second entry
  refine inodeAt_on.bind_eq ?_
  rw [hPobj]
  refine (addEntryObj_on hs (setObj_self _ _ _) hopen' (hroom.freeInData hfit) dots_length.2 hp
    fun hall => absurd hall (hroom.second_free hm hblocks hhas _)).bind fun r => ?_
  rintro k ⟨J₂, D₂, j₂, hroom₂, rfl, hk⟩
  have hhas₂ := hroom₂.hasRoom' hs hopen' (hroom.freeInData hfit)
  have hino₂ : D₂.grown.iIno = C.iIno := hhas₂.rest.1.trans hino
  rw [setObj_setObj] at hk
  obtain ⟨hr, hk'⟩ := iwriteObj_on hs (setObj_self _ _ _) (hino₂ ▸ hopen.ino) hhas₂.words.grown k hk
  rw [hino₂, grown_stored (hhas₂.stored hopen'.stored)] at hk'
  dsimp only
  rw [if_neg (by decide), if_pos rfl]
  refine ⟨hr, _, _, _, _, ⟨J, D, j, hroom, rfl, rfl⟩,
    ⟨J₂.setInode C.iIno D.grown, D₂, j₂, hroom₂.setInode _ _, rfl, rfl⟩, ?_⟩
  rw [hino, putSlot_setInode, setInode_setInode]
  exact hk'

/-- What `tfs_mkdir` has done when it succeeds. -/
def DirMade (e : Env) (I : Image) (P : Inode) (c : ℕ) (name : List UInt8) (I' : Image)
    (P' C' : Inode) : Prop :=
  ∃ I₁ I₂ C₁, Entered e (I.make c (freshInode TFS_DIR c P)) P c name I₁ P' ∧
    Entered e I₁ (freshInode TFS_DIR c P) c dot I₂ C₁ ∧ Entered e I₂ C₁ P.iIno (dot ++ dot) I' C'

theorem Entered.iIno {I' : Image} {P' : Inode} (h : Entered e I P c name I' P') :
    P'.iIno = P.iIno := by
  obtain ⟨I₁, P₁, j, hroom, rfl, -⟩ := h
  cases hroom <;> rfl

theorem Entered.freeInData {I' : Image} {P' : Inode} (h : Entered e I P c name I' P')
    (hfit : FreeInData e I) : FreeInData e I' := by
  obtain ⟨I₁, P₁, j, hroom, -, rfl⟩ := h
  exact hroom.freeInData hfit

/-- **`tfs_mkdir`**, when there are the blocks for it. -/
theorem tfsMkdir_on (hs : Steady e) (hP : k₀.objs dir = P) (hdir : dir < k₀.nextObj)
    (h : OpenDir e I P) (hfit : FreeFits e I) (hlen : name.length ≤ TFS_NAME_LEN)
    (hnz : ∀ c ∈ name, c ≠ 0) (hblocks : ¬HasName e I P name → BlocksFor e I P) :
    Hoare (KernelOn e I k₀) (tfsMkdir e dir name) fun r k =>
      (HasName e I P name ∧ r = -EEXIST ∧ KernelOn e I k₀ k) ∨
      (¬HasName e I P name ∧ r = -ENOMEM ∧ NoMemory e ∧ KernelOn e I k₀ k) ∨
      (¬HasName e I P name ∧ AllInodes e I ∧ r = -ENOSPC ∧ ∃ i, KernelOn e I (k₀.addObj i) k) ∨
      (¬HasName e I P name ∧ r = 0 ∧ ∃ c I' P' C', FreshInode e I c ∧
        DirMade e I P c name I' P' C' ∧ KernelOn e I' ((k₀.addObj C').setObj dir P') k) := by
  unfold tfsMkdir
  refine (tfsMknod_on hs hP hdir h hfit (.inl hlen) hnz fun hno _ =>
    (hblocks hno).blockFor).bind fun r k hk => ?_
  have herr : ∀ {err : ℤ} {I' : Image} {k₁ : Kernel}, Hoare (KernelOn e I' k₁) (do
      freeInode dir
      pure err) fun r k => r = err ∧ KernelOn e I' k₁ k := fun {err I' k₁} =>
    freeInode_on.bind fun _ => .pure fun k h => ⟨rfl, h⟩
  rcases hk with ⟨hname, rfl, hk⟩ | ⟨hname, ⟨rfl, hno, hk⟩ | ⟨rfl, hall, i, hk⟩ | ⟨c, hc,
    ⟨hlong, -⟩ | ⟨-, rfl, I₁, P', hent, hk⟩⟩⟩
  · obtain ⟨hr, hk'⟩ := herr k hk
    exact .inl ⟨hname, hr, hk'⟩
  · obtain ⟨hr, hk'⟩ := herr k hk
    exact .inr (.inl ⟨hname, hr, hno, hk'⟩)
  · obtain ⟨hr, hk'⟩ := herr k hk
    exact .inr (.inr (.inl ⟨hname, hall, hr, i, hk'⟩))
  · omega
  · have hstored : (freshInode TFS_DIR c P).stored e = freshInode TFS_DIR c P :=
      Inode.stored_eq_iff.mpr ⟨rfl, (Inode.stored_eq_iff.mp h.stored).2⟩
    rw [hstored] at hent
    have hne : dir ≠ k₀.nextObj := hdir.ne
    have hobj : ((k₀.addObj (freshInode TFS_DIR c P)).setObj dir P').objs k₀.nextObj =
        freshInode TFS_DIR c P := (setObj_of_ne hne.symm).trans (addObj_self _ _)
    have hino : P'.iIno = P.iIno := hent.iIno
    have hend : Hoare (KernelOn e I₁ ((k₀.addObj (freshInode TFS_DIR c P)).setObj dir P')) (do
        let err ← enterDots e k₀.nextObj dir
        freeInode k₀.nextObj
        freeInode dir
        pure err) fun r k => r = 0 ∧ ∃ I₂ C₁ I' C',
          Entered e I₁ (freshInode TFS_DIR c P) c dot I₂ C₁ ∧
          Entered e I₂ C₁ P.iIno (dot ++ dot) I' C' ∧
          KernelOn e I' (((k₀.addObj (freshInode TFS_DIR c P)).setObj dir P').setObj k₀.nextObj C')
            k := by
      refine (enterDots_on hs hobj (setObj_self _ _ _) hne (freshInode_open hc.1 hs h.stored)
        freshInode_blocks (hent.freeInData hfit.blocks) (hino ▸ h.ino)
        ((hblocks hname).left hent)).bind
        fun r k hk => ?_
      obtain ⟨rfl, I₂, C₁, I', C', h1, h2, hk⟩ := hk
      rw [hino] at h2
      have hfree : Hoare (KernelOn e I'
          (((k₀.addObj (freshInode TFS_DIR c P)).setObj dir P').setObj k₀.nextObj C')) (do
            freeInode k₀.nextObj
            freeInode dir
            pure (0 : ℤ)) fun r k => r = 0 ∧ KernelOn e I'
          (((k₀.addObj (freshInode TFS_DIR c P)).setObj dir P').setObj k₀.nextObj C') k :=
        freeInode_on.bind fun _ => herr
      obtain ⟨hr, hk'⟩ := hfree k hk
      exact ⟨hr, I₂, C₁, I', C', h1, h2, hk'⟩
    obtain ⟨hr, I₂, C₁, I', C', h1, h2, hk'⟩ := hend k hk
    refine .inr (.inr (.inr ⟨hname, hr, c, I', P', C', hc, ⟨I₁, I₂, C₁, hent, h1, h2⟩, ?_⟩))
    rwa [addObj_setObj_comm hne] at hk'

end Thunix.Fs
