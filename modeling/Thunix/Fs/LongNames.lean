import Thunix.Fs.ListDir

/-!
# Names that are too long

A slot has room for 28 characters, and a name that fills it has no terminator. For a
lookup name of another length `tfs_match_entry` compares the lengths first, and `strlen` of a
name without a terminator goes on into the next slot: into its inode number, its name, and
at the end of the block into whatever lies behind the buffer. A lookup name of 28
characters or less is not misled by this. A longer one is found where a slot and the bytes
behind it happen to spell it (`Thunix.Fs.Spelled`), so that the lookup is exact under a
condition (`Thunix.Fs.tfsFindEntry_exact_iff`).
-/

namespace Thunix.Fs

variable {e : Env} {S : Set ℕ} {v : ℕ → Buf} {inode : Inode} {nb : ℕ} {name : List UInt8}
  {m : ℕ → UInt8} {d : Dev}

/-- The bytes at `d_name` of a live entry are the name and its terminator, wherever the entry
ends. -/
def Spelled (name : List UInt8) (m : ℕ → UInt8) (de : ℕ) : Prop :=
  le32 m de ≠ 0 ∧ (∀ k (hk : k < name.length), m (de + 4 + k) = name[k]) ∧
    m (de + 4 + name.length) = 0

/-- **What a name that is too long matches.** -/
theorem tfsMatchEntry_long (hlong : TFS_NAME_LEN < name.length) (hnz : ∀ c ∈ name, c ≠ 0) {de : ℕ} :
    tfsMatchEntry name m de = true ↔ Spelled name m de := by
  have hne : name ≠ [] := List.ne_nil_of_length_pos (Nat.zero_lt_of_lt hlong)
  rw [tfsMatchEntry, Spelled]
  by_cases h0 : le32 m de = 0
  · rw [if_pos h0]
    exact iff_of_false Bool.false_ne_true fun h => h.1 h0
  · rw [if_neg h0]
    by_cases hstr : ¬strlenEq m (de + 4) name.length ∧ name.length ≠ TFS_NAME_LEN
    · rw [if_pos hstr]
      refine iff_of_false Bool.false_ne_true fun h => hstr.1 ?_
      refine strlenEq_iff.mpr ⟨fun k hk => ?_, h.2.2⟩
      rw [h.2.1 k hk]
      exact hnz _ (List.getElem_mem hk)
    · have hlen := strlenEq_iff.mp (not_not.mp fun h => hstr ⟨h, hlong.ne'⟩)
      rw [if_neg hstr, decide_eq_true_eq, strncmp_eq_zero_iff hne hnz]
      exact ⟨fun h => ⟨h0, h, hlen.2⟩, fun h => h.2.1⟩

/-- As the blocks are requested one after another, some entry of one of them spells the name in
the memory of that moment. -/
def Overrun (e : Env) (name : List UInt8) : List ℕ → Dev → Prop
  | [], _ => False
  | block :: rest, d => ∃ cs, (getCacheBlock e e.sbi block d).1 = some cs ∧
      ((∃ k < entriesPerBlock e, Spelled name (getCacheBlock e e.sbi block d).2.cacheData
          (((getCacheBlock e e.sbi block d).2.cache cs).data + sizeofDirEntry * k)) ∨
        Overrun e name rest (getCacheBlock e e.sbi block d).2)

/-- The walk over one block ends at an entry that spells the name, if there is one. -/
theorem findInBlock_isSome_iff (hlong : TFS_NAME_LEN < name.length) (hnz : ∀ c ∈ name, c ≠ 0)
    {n de : ℕ} : (findInBlock name m n de).isSome = true ↔
      ∃ k < n, Spelled name m (de + sizeofDirEntry * k) := by
  simp only [← tfsMatchEntry_long hlong hnz]
  rcases @findInBlock_eq name m n de with ⟨hnone, hall⟩ | ⟨k, hk, hsome, hk', -⟩
  · rw [hnone]
    exact iff_of_false Bool.false_ne_true fun ⟨k, hk, h⟩ => hall k hk h
  · rw [hsome]
    exact iff_of_true rfl ⟨k, hk, hk'⟩

/-- The entry that a request has given. -/
theorem exists_some_iff {cs : CacheRef} {p : CacheRef → Prop} :
    (∃ cs', some cs = some cs' ∧ p cs') ↔ p cs := by
  constructor
  · rintro ⟨cs', h, hp⟩
    exact Option.some.inj h ▸ hp
  · exact fun hp => ⟨cs, rfl, hp⟩

/-- **The walk over the blocks** finds a name that is too long exactly if one of them overruns
into it. -/
theorem findEntryLoop_overrun (hlong : TFS_NAME_LEN < name.length) (hnz : ∀ c ∈ name, c ≠ 0)
    (hd : WholeDir e S inode nb) (hnb : nb < TFS_N_BLOCKS) (harea : InDataArea e inode nb)
    (behind : List ℕ) {k r : ℕ} (hr : k + r = nb) (hpos : 0 < r) (d : Dev) :
    (∃ cs de, (findEntryLoop e name (inode.iData.drop k ++ behind) d).1 = .found cs de) ↔
      Overrun e name ((inode.iData.drop k).take r) d := by
  induction r generalizing k d with
  | zero => exact absurd hpos (Nat.lt_irrefl 0)
  | succ r ih =>
    rw [drop_iData (by omega), List.cons_append, List.take_succ_cons, findEntryLoop, Overrun,
      DevM.bind_apply]
    generalize getCacheBlock e e.sbi (inode.iData.getD k 0) d = q
    obtain ⟨_ | cs, d'⟩ := q
    · constructor
      · rintro ⟨cs, de, h⟩
        cases h
      · rintro ⟨cs, h, -⟩
        cases h
    · dsimp only
      rw [exists_some_iff, ← findInBlock_isSome_iff hlong hnz, DevM.bind_apply, DevM.bind_apply]
      generalize hq : readMem (fun m => findInBlock name m (entriesPerBlock e) (dataPtr cs d').1)
        (dataPtr cs d').2 = q
      obtain ⟨res, d''⟩ := q
      obtain rfl : d' = d'' := congrArg Prod.snd hq
      have hres : findInBlock name d'.cacheData (entriesPerBlock e) (d'.cache cs).data = res :=
        congrArg Prod.fst hq
      rw [hres]
      cases res with
      | some de => exact iff_of_true ⟨cs, de, rfl⟩ (.inl rfl)
      | none =>
        rw [or_iff_right fun h => by cases h]
        have hhead : (inode.iData.drop (k + 1) ++ behind).headD 0 = inode.iData.getD (k + 1) 0 := by
          rw [drop_iData (by omega)]
          rfl
        dsimp only
        rw [hhead]
        rcases Nat.eq_zero_or_pos r with rfl | hr0
        · -- the word behind the last block
          rw [if_pos (by rw [hd.rest (k + 1) (by omega) (by omega)]; exact harea.1)]
          refine iff_of_false ?_ id
          rintro ⟨cs', de, h⟩
          cases h
        · rw [if_neg (Nat.not_lt.mpr (harea.2 (k + 1) (by omega)))]
          exact ih (by omega) hr0 d'

/-- The lookup is right about the name: it finds a slot exactly if a live one holds the name. -/
def FoundExactly (e : Env) (v : ℕ → Buf) (inode : Inode) (nb : ℕ) (name : List UInt8) (d : Dev) :
    Prop :=
  (∃ cs de, (tfsFindEntry e inode name d).1 = .found cs de) ↔
    ∃ j < nb * entriesPerBlock e, SlotNamed e v inode name j

/-- No slot holds a name that is too long. -/
theorem slotNamed_length {j : ℕ} (h : SlotNamed e v inode name j) : name.length ≤ TFS_NAME_LEN := by
  rw [← h.2]
  exact (List.takeWhile_sublist _).length_le.trans (by simp)

/-- **When names are found exactly**, for every directory and every name: the name is not too
long, or no slot overruns into it. It is enough that no live slot holds the first 28 characters
of the name. -/
theorem tfsFindEntry_exact_iff (hm : Mounted e.sbi) (hq : Quiet e) (hd : WholeDir e S inode nb)
    (hnb : nb < TFS_N_BLOCKS) (harea : InDataArea e inode nb) (hnz : ∀ c ∈ name, c ≠ 0)
    (hvol : Vol e S v d) :
    (FoundExactly e v inode nb name d ↔
      name.length ≤ TFS_NAME_LEN ∨ ¬Overrun e name (inode.iData.take nb) d.tick) ∧
    ((∀ j < nb * entriesPerBlock e, ¬SlotNamed e v inode (name.take TFS_NAME_LEN) j) →
      FoundExactly e v inode nb name d) := by
  have hlegible : Legible e v inode nb name → FoundExactly e v inode nb name d := fun hleg => by
    have hiff := (tfsFindEntry_vol hm hq hd hnb harea hleg hnz d hvol).iff
    rw [Nat.zero_mul] at hiff
    refine hiff.trans (exists_congr fun j => ?_)
    exact and_iff_right (Nat.zero_le j)
  refine ⟨?_, fun h => hlegible (.inr h)⟩
  rcases Nat.lt_or_ge TFS_NAME_LEN name.length with hlong | hshort
  · have hno : ¬∃ j < nb * entriesPerBlock e, SlotNamed e v inode name j := by
      rintro ⟨j, -, h⟩
      exact absurd (slotNamed_length h) (Nat.not_le.mpr hlong)
    have hfound : (∃ cs de, (tfsFindEntry e inode name d).1 = .found cs de) ↔
        Overrun e name (inode.iData.take nb) d.tick := by
      rcases Nat.eq_zero_or_pos nb with rfl | hpos
      · rw [tfsFindEntry, if_pos (hd.rest 0 (le_refl 0) (by decide))]
        refine iff_of_false ?_ id
        rintro ⟨cs, de, h⟩
        cases h
      · rw [tfsFindEntry, if_neg (hd.block_ne 0 hpos), DevM.bind_apply]
        exact findEntryLoop_overrun (k := 0) hlong hnz hd hnb harea _ (Nat.zero_add nb) hpos d.tick
    rw [FoundExactly, iff_false_right hno, hfound, or_iff_right (Nat.not_le.mpr hlong)]
  · exact iff_of_true (hlegible (.inl hshort)) (.inl hshort)

/-! ### A slot that overruns -/

/-- A directory of one block. -/
def oneBlockDir : Inode := (newInodeValue TFS_DIR).setData 0 6

/-- The block: the inode 2 under a name of 28 times the letter a, and the inode 7. -/
def overrunBlock : ℕ → UInt8 := fun x =>
  if x = 0 then 2 else if x < 4 then 0 else if x < 32 then 97 else if x = 32 then 7
  else if x = 36 then 98 else 0

/-- The small volume with this block. -/
def overrunDev : Dev :=
  cacheInit 9 { Dev.blank with
    disk := fun sector => if sector = TFS_FS_SECTOR + 6 then overrunBlock else fun _ => 0 }

/-- What its blocks hold. -/
def overrunVol : ℕ → Buf := diskBlock (smallSbi 9) fun sector =>
  if sector = TFS_FS_SECTOR + 6 then overrunBlock else fun _ => 0

theorem overrunDir_whole : WholeDir (Env.quiet (smallSbi 9)) {6} oneBlockDir 1 := by
  refine ⟨by decide, by decide, fun k hk => ?_, by decide⟩
  obtain rfl : k = 0 := by omega
  rfl

theorem overrunDev_vol : Vol (Env.quiet (smallSbi 9)) {6} overrunVol overrunDev :=
  vol_cacheInit ⟨rfl, rfl, by decide, by decide⟩ (by decide) _

/-- **29 characters that are found**: the last one is the inode number of the next slot. -/
theorem not_found_exactly :
    Vol (Env.quiet (smallSbi 9)) {6} overrunVol overrunDev ∧
    (tfsFindEntry (Env.quiet (smallSbi 9)) oneBlockDir (List.replicate 28 97 ++ [7])
      overrunDev).1 = .found (.entry 0) 0 ∧
    ¬FoundExactly (Env.quiet (smallSbi 9)) overrunVol oneBlockDir 1 (List.replicate 28 97 ++ [7])
      overrunDev := by
  have hfound : (tfsFindEntry (Env.quiet (smallSbi 9)) oneBlockDir (List.replicate 28 97 ++ [7])
      overrunDev).1 = .found (.entry 0) 0 := by decide +kernel
  refine ⟨overrunDev_vol, hfound, fun h => ?_⟩
  obtain ⟨j, -, hj⟩ := h.mp ⟨_, _, hfound⟩
  exact absurd (slotNamed_length hj) (by decide)

/-- The name of the first slot is found exactly. -/
theorem found_exactly_small : FoundExactly (Env.quiet (smallSbi 9)) overrunVol oneBlockDir 1
    (List.replicate 28 97) overrunDev :=
  (tfsFindEntry_exact_iff ⟨rfl, rfl, by decide, by decide⟩ (fun _ => rfl) overrunDir_whole
    (by decide) ⟨by decide, by decide⟩ (fun c hc => by rw [List.eq_of_mem_replicate hc]; decide)
    overrunDev_vol).1.mpr (.inl (by decide))

end Thunix.Fs
