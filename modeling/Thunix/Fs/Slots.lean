import Thunix.Fs.Image

/-!
# The slots of a directory

The blocks of an inode are the words of its block list before the first zero
(`Thunix.Fs.Inode.blocks`), and the slots of a directory the pieces of 32 bytes of these.
To write one slot leaves every other slot as it is (`Thunix.Fs.slotBytes_putSlot`); to put
a block behind the last one leaves the slots before it as they are and adds free ones
(`Thunix.Fs.slotBytes_setData`).
-/

namespace Thunix.Fs

variable {e : Env} {I : Image} {v : ℕ → Buf} {inode dir : Inode} {b j k n : ℕ} {f : Buf}
  {name : List UInt8}

/-! ### Blocks -/

/-- How many blocks the inode has. -/
def Inode.blocks (inode : Inode) : ℕ := (inode.iData.takeWhile (· ≠ 0)).length

/-- There is no block behind a missing one. -/
def Inode.Packed (inode : Inode) : Prop :=
  ∀ j k, j ≤ k → inode.iData.getD j 0 = 0 → inode.iData.getD k 0 = 0

theorem Inode.blocks_le (inode : Inode) : inode.blocks ≤ TFS_N_BLOCKS := by
  rw [← inode.iData_length]
  exact (List.takeWhile_sublist _).length_le

theorem getD_takeWhile {l : List ℕ} :
    (∀ k < (l.takeWhile (· ≠ 0)).length, l.getD k 0 ≠ 0) ∧
      l.getD (l.takeWhile (· ≠ 0)).length 0 = 0 := by
  induction l with
  | nil => exact ⟨fun k hk => absurd hk (Nat.not_lt_zero k), rfl⟩
  | cons b l ih =>
    by_cases hb : b = 0
    · subst hb
      exact ⟨fun k hk => absurd hk (Nat.not_lt_zero k), rfl⟩
    · have htake : (b :: l).takeWhile (· ≠ 0) = b :: l.takeWhile (· ≠ 0) :=
        List.takeWhile_cons_of_pos (decide_eq_true hb)
      rw [htake]
      refine ⟨fun k hk => ?_, ih.2⟩
      rcases k with _ | k
      · exact hb
      · exact ih.1 k (Nat.lt_of_succ_lt_succ hk)

theorem Inode.getD_ne (h : k < inode.blocks) : inode.iData.getD k 0 ≠ 0 := getD_takeWhile.1 k h

theorem Inode.getD_blocks (inode : Inode) : inode.iData.getD inode.blocks 0 = 0 := getD_takeWhile.2

theorem Inode.Packed.getD_eq (h : inode.Packed) (hk : inode.blocks ≤ k) :
    inode.iData.getD k 0 = 0 := h _ _ hk inode.getD_blocks

/-- In a packed list the blocks are the words that are not zero. -/
theorem Inode.Packed.lt_blocks_iff (h : inode.Packed) :
    k < inode.blocks ↔ inode.iData.getD k 0 ≠ 0 :=
  ⟨Inode.getD_ne, fun hne => Nat.lt_of_not_le fun hle => hne (h.getD_eq hle)⟩

/-- How many blocks there are depends on the words only. -/
theorem Inode.blocks_eq {n : ℕ} (hne : ∀ k < n, inode.iData.getD k 0 ≠ 0)
    (h0 : inode.iData.getD n 0 = 0) : inode.blocks = n := by
  rcases Nat.lt_trichotomy inode.blocks n with h | h | h
  · exact absurd inode.getD_blocks (hne _ h)
  · exact h
  · exact absurd h0 (Inode.getD_ne h)

/-- A block behind the last one. -/
theorem Inode.blocks_setData (h : inode.Packed) (hroom : inode.blocks < TFS_N_BLOCKS) (hb : b ≠ 0) :
    (inode.setData inode.blocks b).blocks = inode.blocks + 1 := by
  refine Inode.blocks_eq (fun k hk => ?_) ?_
  · rw [getD_setData hroom]
    by_cases hkb : k = inode.blocks
    · rw [if_pos hkb]
      exact hb
    · rw [if_neg hkb]
      exact Inode.getD_ne (by omega)
  · rw [getD_setData hroom, if_neg (by omega)]
    exact h.getD_eq (by omega)

theorem Inode.Packed.setData (h : inode.Packed) (hroom : inode.blocks < TFS_N_BLOCKS) (hb : b ≠ 0) :
    (inode.setData inode.blocks b).Packed := by
  intro j k hjk hj
  rw [getD_setData hroom] at hj ⊢
  by_cases hjb : j = inode.blocks
  · rw [if_pos hjb] at hj
    exact absurd hj hb
  · rw [if_neg hjb] at hj
    have hlt : inode.blocks < j := by
      by_contra hle
      exact Inode.getD_ne (by omega) hj
    rw [if_neg (by omega)]
    exact h j k hjk hj

/-! ### Directories -/

/-- How many slots a directory has. -/
def slots (e : Env) (dir : Inode) : ℕ := dir.blocks * entriesPerBlock e

/-- A directory whose blocks are blocks of the data area, each once. -/
structure DirOn (e : Env) (dir : Inode) : Prop where
  packed : dir.Packed
  area : ∀ k < dir.blocks, InData e.sbi (dir.iData.getD k 0)
  once : ∀ j < dir.blocks, ∀ k < dir.blocks, dir.iData.getD j 0 = dir.iData.getD k 0 → j = k

theorem DirOn.whole (h : DirOn e dir) : WholeDir e (volume e.sbi) dir dir.blocks :=
  ⟨dir.blocks_le, fun _ => Inode.getD_ne, fun k hk => (h.area k hk).2, fun _ hk _ =>
    h.packed.getD_eq hk⟩

theorem DirOn.inDataArea (g : Geometry e.sbi) (h : DirOn e dir) : InDataArea e dir dir.blocks :=
  ⟨g.area_pos, fun k hk => (h.area k hk).1⟩

/-- The block of a slot. -/
def slotBlock (e : Env) (dir : Inode) (j : ℕ) : ℕ := dir.iData.getD (j / entriesPerBlock e) 0

/-- The place of a slot in its block. -/
def slotPlace (e : Env) (j : ℕ) : ℕ := sizeofDirEntry * (j % entriesPerBlock e)

section Places

variable (hm : Mounted e.sbi)

include hm

theorem div_lt_blocks (hj : j < slots e dir) : j / entriesPerBlock e < dir.blocks :=
  (Nat.div_lt_iff_lt_mul hm.entriesPerBlock_pos).mpr hj

theorem slotPlace_le (j : ℕ) : slotPlace e j + sizeofDirEntry ≤ e.sbi.sBlockSize := by
  have h1 := Nat.mod_lt j hm.entriesPerBlock_pos
  have h2 := Nat.mul_le_mul_right sizeofDirEntry (Nat.succ_le_of_lt h1)
  rw [hm.slots, Nat.succ_mul, Nat.mul_comm] at h2
  exact h2

/-- Two slots with the same block are at places apart. -/
theorem slotPlace_apart (hd : DirOn e dir) (hj : j < slots e dir) (hk : k < slots e dir)
    (hne : k ≠ j) (hblock : slotBlock e dir k = slotBlock e dir j) :
    slotPlace e k + sizeofDirEntry ≤ slotPlace e j ∨
    slotPlace e j + sizeofDirEntry ≤ slotPlace e k := by
  have hdiv := hd.once _ (div_lt_blocks hm hk) _ (div_lt_blocks hm hj) hblock
  have h1 := Nat.div_add_mod j (entriesPerBlock e)
  have h2 := Nat.div_add_mod k (entriesPerBlock e)
  rw [hdiv] at h2
  rw [slotPlace, slotPlace]
  rcases Nat.lt_or_gt_of_ne (show k % entriesPerBlock e ≠ j % entriesPerBlock e by omega) with h | h
  · have := Nat.mul_le_mul_left sizeofDirEntry (Nat.succ_le_of_lt h)
    rw [Nat.mul_succ] at this
    exact .inl this
  · have := Nat.mul_le_mul_left sizeofDirEntry (Nat.succ_le_of_lt h)
    rw [Nat.mul_succ] at this
    exact .inr this

theorem slotBytes_eq' (hn : n < sizeofDirEntry) :
    slotBytes e v dir j n = v (slotBlock e dir j) (slotPlace e j + n) := slotBytes_eq hm hn

/-- A slot depends on its block. -/
theorem slotBytes_agree {v v' : ℕ → Buf} (h : Agree e.sbi.sBlockSize (v (slotBlock e dir j))
    (v' (slotBlock e dir j))) : Agree sizeofDirEntry (slotBytes e v dir j) (slotBytes e v' dir j) :=
  fun x hx => by
    have := slotPlace_le hm j
    rw [slotBytes_eq' hm hx, slotBytes_eq' hm hx]
    exact h _ (by omega)

end Places

/-- The number in a slot. -/
def slotIno (e : Env) (v : ℕ → Buf) (dir : Inode) (j : ℕ) : ℕ := le32 (slotBytes e v dir j) 0

/-- The name in a slot. -/
def slotName (e : Env) (v : ℕ → Buf) (dir : Inode) (j : ℕ) : List UInt8 :=
  nameIn (fun k => slotBytes e v dir j (4 + k)) TFS_NAME_LEN

theorem slotIno_congr {v' : ℕ → Buf} {dir' : Inode} {j' : ℕ}
    (h : Agree sizeofDirEntry (slotBytes e v dir j) (slotBytes e v' dir' j')) :
    slotIno e v dir j = slotIno e v' dir' j' :=
  le32_congr fun x hx => h _ (by rw [sizeofDirEntry]; omega)

theorem slotName_congr {v' : ℕ → Buf} {dir' : Inode} {j' : ℕ}
    (h : Agree sizeofDirEntry (slotBytes e v dir j) (slotBytes e v' dir' j')) :
    slotName e v dir j = slotName e v' dir' j' :=
  nameIn_congr fun x hx => h _ (by rw [TFS_NAME_LEN] at hx; rw [sizeofDirEntry]; omega)

theorem slotLive_iff : slotLive e v dir j = true ↔ slotIno e v dir j ≠ 0 := decide_eq_true_iff

theorem slotNamed_iff :
    SlotNamed e v dir name j ↔ slotIno e v dir j ≠ 0 ∧ slotName e v dir j = name :=
  and_congr_left' slotLive_iff

theorem slotNamed_congr {v' : ℕ → Buf}
    (h : Agree sizeofDirEntry (slotBytes e v dir j) (slotBytes e v' dir j)) :
    SlotNamed e v dir name j ↔ SlotNamed e v' dir name j := by
  rw [slotNamed_iff, slotNamed_iff, slotIno_congr h, slotName_congr h]

/-! ### Changing a slot -/

/-- The first bytes of a slot are written. -/
def Image.putSlot (e : Env) (I : Image) (dir : Inode) (j count : ℕ) (f : Buf) : Image :=
  I.setData (slotBlock e dir j) (blit (I.data (slotBlock e dir j)) (slotPlace e j) count f)

section Changes

variable (hm : Mounted e.sbi) {count x : ℕ}

include hm

/-- **The slot written** has the bytes, and every other slot of the directory stays. -/
theorem slotBytes_putSlot (hd : DirOn e dir) (hj : j < slots e dir) (hk : k < slots e dir)
    (hcount : count ≤ sizeofDirEntry) (hx : x < sizeofDirEntry) :
    slotBytes e (I.putSlot e dir j count f).data dir k x =
      if k = j ∧ x < count then f x else slotBytes e I.data dir k x := by
  rw [slotBytes_eq' hm hx, slotBytes_eq' hm hx]
  change Function.update I.data (slotBlock e dir j) _ (slotBlock e dir k) _ = _
  by_cases hkj : k = j
  · rw [hkj, Function.update_self]
    by_cases hxc : x < count
    · rw [blit_of_mem ⟨Nat.le_add_right _ _, by omega⟩, if_pos ⟨rfl, hxc⟩, Nat.add_sub_cancel_left]
    · rw [blit_of_not_mem (by omega), if_neg fun h => hxc h.2]
  · rw [if_neg fun h => hkj h.1]
    by_cases hblock : slotBlock e dir k = slotBlock e dir j
    · rw [hblock, Function.update_self, blit_of_not_mem]
      rcases slotPlace_apart hm hd hj hk hkj hblock with h | h <;> omega
    · rw [Function.update_of_ne hblock]

/-- The number in another slot stays. -/
theorem slotIno_putSlot_of_ne (hd : DirOn e dir) (hj : j < slots e dir) (hk : k < slots e dir)
    (hcount : count ≤ sizeofDirEntry) (hne : k ≠ j) :
    slotIno e (I.putSlot e dir j count f).data dir k = slotIno e I.data dir k :=
  slotIno_congr fun x hx => by
    rw [slotBytes_putSlot hm hd hj hk hcount hx, if_neg fun h => hne h.1]

/-- **A cleared block behind the last one**: the slots before it stay, and those of the
block are free. -/
theorem slotBytes_setData (hroom : dir.blocks < TFS_N_BLOCKS)
    (hnew : ∀ k < dir.blocks, dir.iData.getD k 0 ≠ b) (hk : k < slots e dir + entriesPerBlock e)
    (hx : x < sizeofDirEntry) :
    slotBytes e (I.setData b fun _ => 0).data (dir.setData dir.blocks b) k x =
      if k < slots e dir then slotBytes e I.data dir k x else 0 := by
  have hE := hm.entriesPerBlock_pos
  have hblock : slotBlock e (dir.setData dir.blocks b) k =
      if k / entriesPerBlock e = dir.blocks then b else slotBlock e dir k := getD_setData hroom
  rw [slotBytes_eq' hm hx, slotBytes_eq' hm hx, hblock]
  change Function.update I.data b (fun _ => 0) _ _ = _
  by_cases hlt : k < slots e dir
  · have hdiv := div_lt_blocks hm hlt
    have hne : slotBlock e dir k ≠ b := hnew _ hdiv
    rw [if_neg hdiv.ne, Function.update_of_ne hne, if_pos hlt]
  · have hge : dir.blocks ≤ k / entriesPerBlock e :=
      (Nat.le_div_iff_mul_le hE).mpr (Nat.le_of_not_lt hlt)
    have hle : k / entriesPerBlock e < dir.blocks + 1 :=
      (Nat.div_lt_iff_lt_mul hE).mpr (by rw [Nat.succ_mul]; exact hk)
    rw [if_pos (by omega), Function.update_self, if_neg hlt]

end Changes

/-! ### Entries -/

/-- What a new entry holds. -/
theorem le32_newEntry {inr : ℤ} {m : ℕ → UInt8}
    (h : ∀ x < sizeofDirEntry, m x = newEntry inr name x) : le32 m 0 = toU32 inr :=
  le32_byteOf (by rw [toU32]; omega) fun k hk => by
    rw [Nat.zero_add, h k (by rw [sizeofDirEntry]; omega), newEntry, if_pos hk]

theorem nameIn_newEntry {inr : ℤ} {m : ℕ → UInt8} (hlen : name.length ≤ TFS_NAME_LEN)
    (hnz : ∀ c ∈ name, c ≠ 0) (h : ∀ x < sizeofDirEntry, m x = newEntry inr name x) :
    nameIn (fun k => m (4 + k)) TFS_NAME_LEN = name := by
  have hbyte : ∀ k < TFS_NAME_LEN, m (4 + k) = name.getD k 0 := fun k hk => by
    rw [h _ (by rw [TFS_NAME_LEN] at hk; rw [sizeofDirEntry]; omega), newEntry, if_neg (by omega),
      Nat.add_sub_cancel_left]
  rw [nameIn_eq_iff hnz hlen]
  refine ⟨fun k hk => ?_, ?_⟩
  · rw [hbyte k (by omega), List.getD_eq_getElem _ _ hk]
  · by_cases hfull : name.length = TFS_NAME_LEN
    · exact .inl hfull
    · right
      rw [hbyte _ (by omega), List.getD_eq_default _ _ (le_refl _)]

/-- A slot of a block that has been cleared is free. -/
theorem slotIno_setData (hm : Mounted e.sbi) (hroom : dir.blocks < TFS_N_BLOCKS)
    (hnew : ∀ k < dir.blocks, dir.iData.getD k 0 ≠ b) (hj : slots e dir ≤ j)
    (hj' : j < slots e dir + entriesPerBlock e) :
    slotIno e (I.setData b fun _ => 0).data (dir.setData dir.blocks b) j = 0 :=
  le32_byteOf (by decide) fun k hk => by
    rw [Nat.zero_add, slotBytes_setData hm hroom hnew hj' (by rw [sizeofDirEntry]; omega),
      if_neg (Nat.not_lt.mpr hj), byteOf, Nat.zero_shiftRight]
    rfl

/-- **An entry that has been made.** -/
theorem slot_newEntry (hm : Mounted e.sbi) (hd : DirOn e dir) (hj : j < slots e dir) (inr : ℤ)
    (hlen : name.length ≤ TFS_NAME_LEN) (hnz : ∀ c ∈ name, c ≠ 0) :
    slotIno e (I.putSlot e dir j sizeofDirEntry (newEntry inr name)).data dir j = toU32 inr ∧
      slotName e (I.putSlot e dir j sizeofDirEntry (newEntry inr name)).data dir j = name := by
  have hbytes : ∀ x < sizeofDirEntry,
      slotBytes e (I.putSlot e dir j sizeofDirEntry (newEntry inr name)).data dir j x =
        newEntry inr name x := fun x hx => by
    rw [slotBytes_putSlot hm hd hj hj (le_refl _) hx, if_pos ⟨rfl, hx⟩]
  exact ⟨le32_newEntry hbytes, nameIn_newEntry hlen hnz hbytes⟩

/-- **An entry that has been cleared** is free. -/
theorem slot_cleared (hm : Mounted e.sbi) (hd : DirOn e dir) (hj : j < slots e dir) :
    slotIno e (I.putSlot e dir j 4 fun _ => 0).data dir j = 0 := by
  have hbytes : ∀ x < 4, slotBytes e (I.putSlot e dir j 4 fun _ => 0).data dir j x = 0 :=
    fun x hx => by
    rw [slotBytes_putSlot hm hd hj hj (by decide) (by rw [sizeofDirEntry]; omega), if_pos ⟨rfl, hx⟩]
  exact le32_byteOf (by decide) fun k hk => by
    rw [Nat.zero_add, hbytes k hk, byteOf, Nat.zero_shiftRight]
    rfl

end Thunix.Fs
