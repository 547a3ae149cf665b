import Thunix.Fs.Removal
import Thunix.Lib.SlotMap

/-!
# The table of a directory

A directory as a table of slots (`Thunix.Fs.dirTable`): each holds a name and an inode number,
or is free. An entry that is entered fills a free slot of the table
(`Thunix.Fs.Entered.table`), and one that is removed frees its slot
(`Thunix.Fs.dirTable_remove`). What these do to the rest of the image is said by the blocks of
the directory: they write to no others, and those that are new were free
(`Thunix.Fs.Entered.data`, `Thunix.Fs.Entered.mem_blockList`).
-/

namespace Thunix.Fs

open SlotMap

variable {e : Env} {I I₁ I' : Image} {P P₁ P' Q : Inode} {b c j n : ℕ} {name : List UInt8} {f : Buf}

/-- The entries of a directory, by their slots. -/
def dirTable (e : Env) (I : Image) (P : Inode) (j : ℕ) : Option (List UInt8 × ℕ) :=
  if j < slots e P ∧ slotIno e I.data P j ≠ 0 then
    some (slotName e I.data P j, slotIno e I.data P j)
  else none

theorem dirTable_eq_some_iff : dirTable e I P j = some (name, c) ↔
    j < slots e P ∧ SlotNamed e I.data P name j ∧ slotIno e I.data P j = c := by
  rw [dirTable, slotNamed_iff]
  by_cases h : j < slots e P ∧ slotIno e I.data P j ≠ 0
  · rw [if_pos h, Option.some_inj, Prod.mk.injEq]
    exact ⟨fun ⟨hname, hc⟩ => ⟨h.1, ⟨h.2, hname⟩, hc⟩, fun ⟨_, hn, hc⟩ => ⟨hn.2, hc⟩⟩
  · rw [if_neg h]
    exact iff_of_false (fun hc => by cases hc) fun ⟨hj, hn, _⟩ => h ⟨hj, hn.1⟩

theorem dirTable_eq_none_iff :
    dirTable e I P j = none ↔ (j < slots e P → slotIno e I.data P j = 0) := by
  rw [dirTable]
  by_cases h : j < slots e P ∧ slotIno e I.data P j ≠ 0
  · rw [if_pos h]
    exact iff_of_false (fun hc => by cases hc) fun hall => h.2 (hall h.1)
  · rw [if_neg h]
    refine iff_of_true rfl fun hj => ?_
    by_contra hne
    exact h ⟨hj, hne⟩

/-- A slot of the table depends on the bytes of the slot. -/
theorem dirTable_congr {j' : ℕ} (hlt : j < slots e P ↔ j' < slots e P')
    (h : j < slots e P →
      Agree sizeofDirEntry (slotBytes e I.data P j) (slotBytes e I'.data P' j')) :
    dirTable e I P j = dirTable e I' P' j' := by
  by_cases hj : j < slots e P
  · rw [dirTable, dirTable, slotIno_congr (h hj), slotName_congr (h hj)]
    simp only [hj, hlt.mp hj]
  · rw [dirTable, dirTable, if_neg fun h => hj h.1, if_neg fun h => hj (hlt.mpr h.1)]

theorem hasName_iff : HasName e I P name ↔ ∃ c, Lists (dirTable e I P) name c := by
  constructor
  · rintro ⟨j, hj, hname⟩
    exact ⟨_, j, dirTable_eq_some_iff.mpr ⟨hj, hname, rfl⟩⟩
  · rintro ⟨c, j, h⟩
    obtain ⟨hj, hname, -⟩ := dirTable_eq_some_iff.mp h
    exact ⟨j, hj, hname⟩

theorem NamedAt.table (h : NamedAt e I P name j c) : dirTable e I P j = some (name, c) :=
  dirTable_eq_some_iff.mpr ⟨h.first.2.1, h.first.2.2.1, h.ino⟩

/-! ### Blocks of data -/

theorem slotBlock_mem (hm : Mounted e.sbi) (hj : j < slots e P) : slotBlock e P j ∈ P.blockList :=
  Inode.mem_blockList.mpr ⟨_, div_lt_blocks hm hj, rfl⟩

/-- The table is in the blocks of the directory. -/
theorem dirTable_agree (hm : Mounted e.sbi) (h : ∀ b ∈ P.blockList, I'.data b = I.data b) :
    dirTable e I' P = dirTable e I P := funext fun j =>
  dirTable_congr Iff.rfl fun hj => slotBytes_agree hm (by
    rw [h _ (slotBlock_mem hm hj)]
    exact fun _ _ => rfl)

/-! ### Filling and freeing -/

section Slots

variable (hm : Mounted e.sbi)

include hm

theorem dirTable_putSlot (hd : DirOn e P) (hj : j < slots e P) (hlen : name.length ≤ TFS_NAME_LEN)
    (hnz : ∀ c ∈ name, c ≠ 0) (hc0 : c ≠ 0) (hc : c < 2 ^ 32) :
    dirTable e (I.putSlot e P j sizeofDirEntry (newEntry c name)) P =
      Function.update (dirTable e I P) j (some (name, c)) := by
  funext k
  rcases eq_or_ne k j with rfl | hne
  · obtain ⟨hino, hname⟩ := slot_newEntry (I := I) hm hd hj (c : ℤ) hlen hnz
    rw [toU32_natCast hc] at hino
    rw [Function.update_self, dirTable_eq_some_iff, slotNamed_iff]
    exact ⟨hj, ⟨by rwa [hino], hname⟩, hino⟩
  · rw [Function.update_of_ne hne]
    refine dirTable_congr Iff.rfl fun hk x hx => ?_
    rw [slotBytes_putSlot hm hd hj hk (le_refl _) hx, if_neg fun h => hne h.1]

theorem dirTable_clearSlot (hd : DirOn e P) (hj : j < slots e P) :
    dirTable e (I.putSlot e P j 4 fun _ => 0) P = Function.update (dirTable e I P) j none := by
  funext k
  rcases eq_or_ne k j with rfl | hne
  · rw [Function.update_self, dirTable_eq_none_iff]
    exact fun _ => slot_cleared hm hd hj
  · rw [Function.update_of_ne hne]
    refine dirTable_congr Iff.rfl fun hk x hx => ?_
    rw [slotBytes_putSlot hm hd hj hk (by decide) hx, if_neg fun h => hne h.1]

/-- **Room for an entry**: the table is the same, and the slot is free. -/
theorem RoomFor.table (h : OpenDir e I P)
    (hpos : ∀ b < 8 * e.sbi.sBlockSize, I.blockUsed b = false →
    b ≠ 0) (hroom : RoomFor e I P I₁ P₁ j) :
    dirTable e I₁ P₁ = dirTable e I P ∧ dirTable e I P j = none := by
  cases hroom with
  | slot first => exact ⟨rfl, dirTable_eq_none_iff.mpr fun _ => first.2.2.1⟩
  | @block b none lt free =>
    refine ⟨funext fun k => ?_, dirTable_eq_none_iff.mpr fun h => absurd h (lt_irrefl _)⟩
    have hnew : ∀ k < P.blocks, P.iData.getD k 0 ≠ b := fun k hk heq => by
      have := h.used k hk
      rw [heq, free] at this
      cases this
    have hslots : slots e (P.setData P.blocks b) = slots e P + entriesPerBlock e := by
      rw [slots, Inode.blocks_setData h.packed h.room (hpos b lt free), Nat.succ_mul]
      rfl
    by_cases hk : k < slots e P
    · refine dirTable_congr (iff_of_true (by omega) hk) fun hk' x hx => ?_
      rw [slotBytes_setData (I := I.useBlock b true) hm h.room hnew (by omega) hx, if_pos hk]
      rfl
    · have hnone : dirTable e I P k = .none := dirTable_eq_none_iff.mpr fun h => absurd h hk
      rw [hnone, dirTable_eq_none_iff, hslots]
      exact fun hk' => slotIno_setData hm h.room hnew (Nat.le_of_not_lt hk) hk'

end Slots

/-! ### What an entry changes -/

theorem Inode.mem_blockList_setData (h : P.Packed) (hroom : P.blocks < TFS_N_BLOCKS) (hb : b ≠ 0)
    {x : ℕ} : x ∈ (P.setData P.blocks b).blockList ↔ x ∈ P.blockList ∨ x = b := by
  rw [Inode.mem_blockList, Inode.mem_blockList, Inode.blocks_setData h hroom hb]
  constructor
  · rintro ⟨k, hk, rfl⟩
    rw [getD_setData hroom]
    rcases eq_or_ne k P.blocks with rfl | hne
    · exact .inr (if_pos rfl)
    · rw [if_neg hne]
      exact .inl ⟨k, by omega, rfl⟩
  · rintro (⟨k, hk, rfl⟩ | rfl)
    · exact ⟨k, by omega, by rw [getD_setData hroom, if_neg hk.ne]⟩
    · exact ⟨P.blocks, by omega, by rw [getD_setData hroom, if_pos rfl]⟩

/-- Where room has been made: the blocks of the directory, and what they were before. -/
structure Grows (e : Env) (I : Image) (P : Inode) (I₁ : Image) (P₁ : Inode) : Prop where
  inodeUsed : I₁.inodeUsed = I.inodeUsed
  used : ∀ b, I.blockUsed b = true → I₁.blockUsed b = true
  blocks : ∀ b ∈ P₁.blockList, b ∈ P.blockList ∨ I.blockUsed b = false
  data : ∀ b ∉ P₁.blockList, I₁.data b = I.data b

section Entered

variable (hs : Steady e)

include hs

/-- A free block is not the empty word of a block list. -/
theorem FreeInData.ne_zero (hfit : FreeInData e I) (hb : b < 8 * e.sbi.sBlockSize)
    (hfree : I.blockUsed b = false) : b ≠ 0 := by
  have h1 := hs.geometry.area_pos
  have h2 := (hfit b hb hfree).1
  omega

theorem RoomFor.grows (hopen : OpenDir e I P) (hfit : FreeInData e I)
    (hroom : RoomFor e I P I₁ P₁ j) : Grows e I P I₁ P₁ ∧ I₁.inode = I.inode := by
  cases hroom with
  | slot first => exact ⟨⟨rfl, fun _ h => h, fun _ h => .inl h, fun _ _ => rfl⟩, rfl⟩
  | @block b none lt free =>
    have hmem := fun x => Inode.mem_blockList_setData (x := x) hopen.packed hopen.room
      (hfit.ne_zero hs lt free)
    refine ⟨⟨rfl, fun x hx => ?_, fun x hx => ?_, fun x hx => ?_⟩, rfl⟩
    · exact Pool.update_true hx b
    · rcases (hmem x).mp hx with h | rfl
      · exact .inl h
      · exact .inr free
    · have hne : x ≠ b := fun h => hx ((hmem x).mpr (.inr h))
      exact Function.update_of_ne hne _ _

/-- **An entry that is entered** writes to the blocks of its directory. -/
theorem Entered.grows (hopen : OpenDir e I P) (hfit : FreeInData e I)
    (h : Entered e I P c name I' P') :
    Grows e I P I' P' ∧ I'.inode = Function.update I.inode P.iIno P' := by
  obtain ⟨I₁, P₁, j, hroom, rfl, rfl⟩ := h
  have hhas := hroom.hasRoom' hs hopen hfit
  obtain ⟨hgrows, hinode⟩ := hroom.grows hs hopen hfit
  refine ⟨⟨hgrows.inodeUsed, hgrows.used, hgrows.blocks, fun b hb => ?_⟩, ?_⟩
  · have hne : b ≠ slotBlock e P₁ j := fun heq =>
      hb (heq ▸ slotBlock_mem hs.geometry.mounted hhas.lt)
    exact (Function.update_of_ne hne _ _).trans (hgrows.data b hb)
  · change Function.update I₁.inode P.iIno P₁.grown = _
    rw [hinode]

/-- The directory can be entered in again, unless its last block has been taken. -/
theorem Entered.open (hopen : OpenDir e I P) (hfit : FreeInData e I)
    (h : Entered e I P c name I' P') (hlt : P'.blocks < TFS_N_BLOCKS) : OpenDir e I' P' := by
  obtain ⟨I₁, P₁, j, hroom, rfl, rfl⟩ := h
  exact { (hroom.hasRoom' hs hopen hfit).grown_open hopen hlt with }

/-- **An entry that is entered** fills a free slot of the table. -/
theorem Entered.table (hopen : OpenDir e I P) (hfit : FreeInData e I)
    (hlen : name.length ≤ TFS_NAME_LEN) (hnz : ∀ c ∈ name, c ≠ 0) (hc : InTable e.sbi c)
    (h : Entered e I P c name I' P') : ∃ j, dirTable e I P j = none ∧
      dirTable e I' P' = Function.update (dirTable e I P) j (some (name, c)) := by
  have hm := hs.geometry.mounted
  have hsmall := hs.geometry.small
  have hinodes := hs.geometry.inodes
  obtain ⟨I₁, P₁, j, hroom, rfl, rfl⟩ := h
  have hhas := hroom.hasRoom' hs hopen hfit
  obtain ⟨htable, hfree⟩ := hroom.table hm hopen fun b hb => hfit.ne_zero hs hb
  refine ⟨j, hfree, ?_⟩
  rw [← htable]
  have := hc.2
  have hput := dirTable_putSlot (I := I₁) hm hhas.toDirOn hhas.lt hlen hnz (Nat.ne_of_gt hc.1)
    (by omega)
  exact hput

end Entered

/-- A directory with other blocks is not concerned. -/
theorem Grows.table_other (h : Grows e I P I' P') (hm : Mounted e.sbi)
    (hused : ∀ b ∈ Q.blockList, I.blockUsed b = true) (hne : ∀ b ∈ Q.blockList, b ∉ P.blockList) :
    dirTable e I' Q = dirTable e I Q :=
  dirTable_agree hm fun b hb => h.data b fun hb' => by
    rcases h.blocks b hb' with hP | hfree
    · exact hne b hb hP
    · rw [hused b hb] at hfree
      cases hfree

/-- **An entry that is removed** frees its slot. -/
theorem dirTable_remove (hm : Mounted e.sbi) (hd : DirOn e P) (hj : j < slots e P) (C : Inode) :
    dirTable e ((I.remove e P j).release C) P.shrunk = Function.update (dirTable e I P) j none := by
  have hclear := dirTable_clearSlot (I := I.setInode P.iIno P.shrunk) hm hd hj
  exact hclear

end Thunix.Fs
