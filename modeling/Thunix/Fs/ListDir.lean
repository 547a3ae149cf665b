import Thunix.Fs.ReadFile

/-!
# Listing a directory and looking a name up in it

The slots of a directory are the pieces of 32 bytes of its blocks
(`Thunix.Fs.slotBytes`). `tfs_readdir` walks them by the offset, over block boundaries
and free slots, and its calls return the live ones in their order and then `NULL`
(`Thunix.Fs.readdirCalls_vol`). `tfs_find_entry` walks the same slots by a pointer into
one block after another, with a different test for the end
(`Thunix.Fs.tfsFindEntry_vol`), and finds a name exactly if it is in the listing
(`Thunix.Fs.listed_iff_found`).
-/

namespace Thunix.Fs

variable {e : Env} {S : Set ℕ} {v : ℕ → Buf} {inode : Inode} {nb i j : ℕ}

/-! ### Slots -/

/-- A directory whose blocks are the first `nb` words of `i_data`. -/
structure WholeDir (e : Env) (S : Set ℕ) (inode : Inode) (nb : ℕ) : Prop where
  nb_le : nb ≤ TFS_N_BLOCKS
  block_ne : ∀ k < nb, inode.iData.getD k 0 ≠ 0
  block_mem : ∀ k < nb, inode.iData.getD k 0 ∈ S
  rest : ∀ k, nb ≤ k → k < TFS_N_BLOCKS → inode.iData.getD k 0 = 0

/-- The bytes of a slot. -/
def slotBytes (e : Env) (v : ℕ → Buf) (inode : Inode) (j : ℕ) : Buf :=
  fun x => fileBytes e v inode (sizeofDirEntry * j + x)

/-- The slot holds an entry. -/
def slotLive (e : Env) (v : ℕ → Buf) (inode : Inode) (j : ℕ) : Bool :=
  le32 (slotBytes e v inode j) 0 ≠ 0

theorem WholeDir.bmap (h : WholeDir e S inode nb) {k : ℕ} (hk : k < nb) :
    tfsBmap inode k = inode.iData.getD k 0 :=
  if_neg (by have := h.nb_le; omega)

theorem WholeDir.bmap_end (h : WholeDir e S inode nb) : tfsBmap inode nb = 0 := by
  by_cases hle : TFS_N_BLOCKS ≤ nb
  · exact if_pos hle
  · rw [tfsBmap, if_neg hle]
    exact h.rest nb (le_refl nb) (by omega)

/-- Where a slot is: in which block, and at which place of it. -/
theorem slotBytes_eq (hm : Mounted e.sbi) {x : ℕ} (hx : x < sizeofDirEntry) :
    slotBytes e v inode j x = v (inode.iData.getD (j / entriesPerBlock e) 0)
      (sizeofDirEntry * (j % entriesPerBlock e) + x) := by
  have hdiv : (sizeofDirEntry * j + x) / sizeofDirEntry = j := by
    rw [sizeofDirEntry] at hx ⊢
    omega
  have hmod : (sizeofDirEntry * j + x) % sizeofDirEntry = x := by
    rw [sizeofDirEntry] at hx ⊢
    omega
  rw [slotBytes, fileBytes, ← hm.slots, Nat.mul_comm (entriesPerBlock e), ← Nat.div_div_eq_div_mul,
    hdiv, Nat.mod_mul, hdiv, hmod, Nat.add_comm x]

theorem Mounted.entriesPerBlock_pos (hm : Mounted e.sbi) : 0 < entriesPerBlock e := by
  have h1 := hm.slots
  have h2 := hm.size_pos
  refine Nat.pos_of_ne_zero fun h0 => ?_
  rw [h0, Nat.zero_mul] at h1
  omega

/-- The block of a slot, from its offset. -/
theorem slot_index (hm : Mounted e.sbi) (j : ℕ) :
    (sizeofDirEntry * j) >>> e.sbi.sBlockShift = j / entriesPerBlock e := by
  rw [shiftRight_blockShift hm, ← hm.slots, Nat.mul_comm (entriesPerBlock e),
    Nat.mul_div_mul_left _ _ (by decide : 0 < sizeofDirEntry)]

theorem le32_congr {m m' : ℕ → UInt8} {a : ℕ} (h : ∀ x < 4, m (a + x) = m' (a + x)) :
    le32 m a = le32 m' a := by
  have h0 := h 0 (by decide)
  rw [Nat.add_zero] at h0
  rw [le32, le32, h0, h 1 (by decide), h 2 (by decide), h 3 (by decide)]

/-! ### `tfs_readdir` -/

/-- What `tfs_readdir` makes of an entry at an offset. -/
def direntOf (de : Buf) (offset : ℕ) : Dirent where
  dIno := le32 de 0
  dOff := offset
  dReclen := sizeofDirEntry
  dType := 0
  dName := (List.range TFS_NAME_LEN).map fun k => de (4 + k)

theorem direntOf_congr {de de' : Buf} (h : Agree sizeofDirEntry de de') (offset : ℕ) :
    direntOf de offset = direntOf de' offset := by
  have h0 : le32 de 0 = le32 de' 0 :=
    le32_congr fun x hx => h _ (by rw [sizeofDirEntry]; omega)
  have hname : ((List.range TFS_NAME_LEN).map fun k => de (4 + k)) =
      (List.range TFS_NAME_LEN).map fun k => de' (4 + k) :=
    List.map_congr_left fun k hk => h _ (by
      have := List.mem_range.mp hk
      rw [TFS_NAME_LEN] at this
      rw [sizeofDirEntry]
      omega)
  rw [direntOf, direntOf, h0, hname]

/-- The entry of a slot. -/
def direntAt (e : Env) (v : ℕ → Buf) (inode : Inode) (j : ℕ) : Dirent :=
  direntOf (slotBytes e v inode j) (sizeofDirEntry * j)

/-- **The entry that is looked at** is that of the slot. -/
theorem entryAt_vol (hm : Mounted e.sbi) (hq : Quiet e) (hd : WholeDir e S inode nb)
    (hj : j < nb * entriesPerBlock e) :
    Hoare (Vol e S v) (entryAt e (inode.iData.getD (j / entriesPerBlock e) 0) (sizeofDirEntry * j))
      fun de d => Vol e S v d ∧ Agree sizeofDirEntry de (slotBytes e v inode j) := by
  have hE := hm.entriesPerBlock_pos
  have hk : j / entriesPerBlock e < nb := (Nat.div_lt_iff_lt_mul hE).mpr hj
  have hmod := Nat.mod_lt j hE
  have hplace : sizeofDirEntry * j &&& (e.sbi.sBlockSize - 1) =
      sizeofDirEntry * (j % entriesPerBlock e) := by
    rw [and_blockSize hm, ← hm.slots, Nat.mul_comm (entriesPerBlock e), Nat.mul_mod_mul_left]
  refine request_vol hm hq fun i => dataPtr_holding.bind_eq fun d h => ⟨h.1, fun x hx => ?_⟩
  rw [slotBytes_eq hm hx]
  change d.cacheData (i * e.sbi.sBlockSize + (sizeofDirEntry * j &&& (e.sbi.sBlockSize - 1)) + x) =
    _
  rw [hplace, Nat.add_assoc]
  refine h.agree (hd.block_mem _ hk) _ ?_
  have := Nat.mul_le_mul_right sizeofDirEntry (Nat.succ_le_of_lt hmod)
  rw [hm.slots, Nat.succ_mul, Nat.mul_comm] at this
  omega

theorem mallocOk_vol (hmalloc : ∀ t, e.mallocOk t = true) :
    Hoare (Vol e S v) (mallocOk e) fun r d => r = true ∧ Vol e S v d := fun d h =>
  ⟨hmalloc d.ticks, h.tick⟩

/-- The live slots among `r` from `j` on. -/
def liveSlots (e : Env) (v : ℕ → Buf) (inode : Inode) (j r : ℕ) : List ℕ :=
  (List.range' j r).filter (slotLive e v inode)

/-- What one call returns, and the offset after it, from the live slots that are left. -/
def firstOf (e : Env) (v : ℕ → Buf) (inode : Inode) (total : ℕ) : List ℕ → Option Dirent × ℕ
  | [] => (none, sizeofDirEntry * total)
  | j :: _ => (some (direntAt e v inode j), sizeofDirEntry * (j + 1))

/-- **One call of `tfs_readdir`** returns the first live slot. The recursion over the free
ones has come to its end when it has been allowed as many calls as slots are left, and
one more. -/
theorem tfsReaddirLoop_vol (hm : Mounted e.sbi) (hq : Quiet e)
    (hmalloc : ∀ t, e.mallocOk t = true) (hd : WholeDir e S inode nb) {r fuel : ℕ}
    (hr : j + r = nb * entriesPerBlock e) (hfuel : r < fuel) :
    Hoare (Vol e S v) (tfsReaddirLoop e inode fuel (sizeofDirEntry * j)) fun res d =>
      res = firstOf e v inode (nb * entriesPerBlock e) (liveSlots e v inode j r) ∧ Vol e S v d := by
  have hE := hm.entriesPerBlock_pos
  induction fuel generalizing j r with
  | zero => omega
  | succ fuel ih =>
    cases r with
    | zero =>
      -- behind the last block
      have hend : j / entriesPerBlock e = nb := by
        rw [show j = nb * entriesPerBlock e by omega, Nat.mul_div_cancel _ hE]
      rw [tfsReaddirLoop, slot_index hm, hend, hd.bmap_end, if_pos rfl]
      refine .pure fun d h => ⟨?_, h⟩
      rw [show j = nb * entriesPerBlock e by omega]
      rfl
    | succ r =>
      have hj : j < nb * entriesPerBlock e := by omega
      have hk : j / entriesPerBlock e < nb := (Nat.div_lt_iff_lt_mul hE).mpr hj
      have hnb := hd.nb_le
      have hle := hm.size_le
      have hslots := hm.slots
      -- the offset stays small
      have hnext : (sizeofDirEntry * j + sizeofDirEntry) % 2 ^ 32 = sizeofDirEntry * (j + 1) := by
        have h1 := Nat.mul_le_mul_right (entriesPerBlock e) hnb
        rw [TFS_N_BLOCKS] at h1
        rw [sizeofDirEntry] at hslots ⊢
        omega
      rw [tfsReaddirLoop, slot_index hm, hd.bmap hk, if_neg (hd.block_ne _ hk)]
      refine (entryAt_vol hm hq hd hj).bind fun de => Hoare.assume fun hde => ?_
      refine (mallocOk_vol hmalloc).bind_eq ?_
      have hino : le32 de 0 = le32 (slotBytes e v inode j) 0 :=
        le32_congr fun x hx => hde _ (by rw [sizeofDirEntry]; omega)
      rw [hnext, hino, liveSlots, List.range'_succ, List.filter_cons,
        if_neg (by decide : ¬(!true) = true)]
      by_cases h0 : le32 (slotBytes e v inode j) 0 = 0
      · have hfree : ¬slotLive e v inode j = true := by
          rw [slotLive, h0]
          decide
        rw [if_neg hfree, if_pos h0]
        exact ih (by omega) (by omega)
      · have hlive : slotLive e v inode j = true := decide_eq_true h0
        rw [if_pos hlive, if_neg h0]
        refine .pure fun d h => ⟨Prod.ext (congrArg some ?_) rfl, h⟩
        have := direntOf_congr hde (sizeofDirEntry * j)
        rw [direntOf, hino] at this
        exact this

/-! ### Call after call -/

/-- Calls of `tfs_readdir`, until one returns `NULL`: what they return. -/
def readdirCalls (e : Env) (inode : Inode) : ℕ → ℕ → DevM (List (Option Dirent))
  | 0, _ => pure []
  | fuel + 1, offset => do
    let r ← tfsReaddir e inode offset
    if r.1.isNone then pure [none]
    else do
      let rs ← readdirCalls e inode fuel r.2
      pure (r.1 :: rs)

/-- The live slots behind the first one. -/
theorem liveSlots_cons {r k : ℕ} {ks : List ℕ} (h : liveSlots e v inode j r = k :: ks) :
    j ≤ k ∧ k < j + r ∧ ks = liveSlots e v inode (k + 1) (j + r - (k + 1)) := by
  induction r generalizing j with
  | zero => cases h
  | succ r ih =>
    rw [liveSlots, List.range'_succ, List.filter_cons] at h
    by_cases hlive : slotLive e v inode j = true
    · rw [if_pos hlive] at h
      obtain ⟨rfl, rfl⟩ := List.cons.inj h
      refine ⟨le_refl j, by omega, ?_⟩
      rw [liveSlots, show j + (r + 1) - (j + 1) = r by omega]
    · rw [if_neg hlive] at h
      obtain ⟨hle, hlt, hks⟩ := ih h
      refine ⟨by omega, by omega, ?_⟩
      rw [hks, show j + (r + 1) = j + 1 + r by omega]

theorem tfsReaddir_vol (hm : Mounted e.sbi) (hq : Quiet e) (hmalloc : ∀ t, e.mallocOk t = true)
    (hd : WholeDir e S inode nb) {r : ℕ} (hr : j + r = nb * entriesPerBlock e) :
    Hoare (Vol e S v) (tfsReaddir e inode (sizeofDirEntry * j)) fun res d =>
      res = firstOf e v inode (nb * entriesPerBlock e) (liveSlots e v inode j r) ∧ Vol e S v d := by
  have := Nat.mul_le_mul_right (entriesPerBlock e) hd.nb_le
  exact tfsReaddirLoop_vol hm hq hmalloc hd hr (by omega)

/-- **The calls** from a slot on. The induction is on the calls allowed. -/
theorem readdirCalls_vol (hm : Mounted e.sbi) (hq : Quiet e) (hmalloc : ∀ t, e.mallocOk t = true)
    (hd : WholeDir e S inode nb) {r fuel : ℕ} (hr : j + r = nb * entriesPerBlock e)
    (hfuel : r < fuel) :
    Hoare (Vol e S v) (readdirCalls e inode fuel (sizeofDirEntry * j)) fun rs d =>
      rs = (liveSlots e v inode j r).map (fun k => some (direntAt e v inode k)) ++ [none] ∧
        Vol e S v d := by
  induction fuel generalizing j r with
  | zero => omega
  | succ fuel ih =>
    refine (tfsReaddir_vol hm hq hmalloc hd hr).bind_eq ?_
    cases hlive : liveSlots e v inode j r with
    | nil => exact .pure fun d h => ⟨rfl, h⟩
    | cons k ks =>
      obtain ⟨hle, hlt, hks⟩ := liveSlots_cons hlive
      have hrest : k + 1 + (j + r - (k + 1)) = nb * entriesPerBlock e := by omega
      refine (ih hrest (by omega)).bind_eq (.pure fun d h => ⟨?_, h⟩)
      rw [hks]
      rfl

/-! ### Names -/

/-- The string in an array of `n` characters, which may fill it. -/
def nameIn (f : Buf) (n : ℕ) : List UInt8 := ((List.range n).map f).takeWhile (· ≠ 0)

theorem nameIn_succ (f : Buf) (n : ℕ) :
    nameIn f (n + 1) = if f 0 = 0 then [] else f 0 :: nameIn (fun k => f (k + 1)) n := by
  rw [nameIn, List.range_succ_eq_map, List.map_cons, List.takeWhile_cons, List.map_map]
  by_cases h0 : f 0 = 0
  · rw [if_pos h0, if_neg (by simpa using h0)]
  · rw [if_neg h0, if_pos (by simpa using h0)]
    rfl

/-- **What it is to hold a name.** -/
theorem nameIn_eq_iff {name : List UInt8} (hnz : ∀ c ∈ name, c ≠ 0) {n : ℕ}
    (hlen : name.length ≤ n) {f : Buf} :
    nameIn f n = name ↔ (∀ k (hk : k < name.length), f k = name[k]) ∧
      (name.length = n ∨ f name.length = 0) := by
  induction name generalizing n f with
  | nil =>
    cases n with
    | zero => simp [nameIn]
    | succ n =>
      rw [nameIn_succ]
      by_cases h0 : f 0 = 0 <;> simp [h0]
  | cons c name ih =>
    cases n with
    | zero => simp at hlen
    | succ n =>
      have hc : c ≠ 0 := hnz c List.mem_cons_self
      have ih := @ih (fun c hc => hnz c (List.mem_cons_of_mem _ hc)) n
        (Nat.le_of_succ_le_succ hlen) (fun k => f (k + 1))
      rw [nameIn_succ]
      constructor
      · intro h
        by_cases h0 : f 0 = 0
        · rw [if_pos h0] at h
          cases h
        · rw [if_neg h0] at h
          obtain ⟨hfc, hrest⟩ := List.cons.inj h
          obtain ⟨h1, h2⟩ := ih.mp hrest
          refine ⟨fun k hk => ?_, by simpa using h2⟩
          cases k with
          | zero => exact hfc
          | succ k => exact h1 k (Nat.lt_of_succ_lt_succ hk)
      · rintro ⟨h1, h2⟩
        have hfc : f 0 = c := h1 0 (Nat.succ_pos _)
        rw [if_neg (hfc ▸ hc), hfc]
        congr 1
        exact ih.mpr ⟨fun k hk => h1 (k + 1) (Nat.succ_lt_succ hk), by simpa using h2⟩

/-- `strncmp` over the length of a name. -/
theorem strncmp_eq_zero_iff {name : List UInt8} (hne : name ≠ []) (hnz : ∀ c ∈ name, c ≠ 0)
    {m : ℕ → UInt8} {a : ℕ} :
    strncmp m name a name.length = 0 ↔ ∀ k (hk : k < name.length), m (a + k) = name[k] := by
  have hbyte : ∀ x y : UInt8, ((x.toNat : ℤ) - y.toNat = 0) ↔ y = x := fun x y => by
    rw [sub_eq_zero, Nat.cast_inj, UInt8.toNat_inj]
    exact eq_comm
  induction name generalizing a with
  | nil => exact absurd rfl hne
  | cons c name ih =>
    have hc : c ≠ 0 := hnz c List.mem_cons_self
    rw [strncmp]
    cases name with
    | nil =>
      rw [if_neg (by simp), hbyte]
      simp
    | cons c' name =>
      have hn : ((c :: c' :: name).length : ℤ) - 1 = (c' :: name).length := by simp
      by_cases heq : c = m a
      · have hcount : ((c' :: name).length : ℤ) ≠ 0 := by simp; omega
        rw [if_pos ⟨by rw [hn]; exact hcount, heq, hc⟩, hn]
        refine (ih (by simp) fun x hx => hnz x (List.mem_cons_of_mem _ hx)).trans
          ⟨fun h k hk => ?_, fun h k hk => ?_⟩
        · cases k with
          | zero => exact heq.symm
          | succ k =>
            have := h k (Nat.lt_of_succ_lt_succ hk)
            rwa [Nat.add_assoc, Nat.add_comm 1] at this
        · have := h (k + 1) (Nat.succ_lt_succ hk)
          rwa [← Nat.add_assoc, Nat.add_right_comm] at this
      · rw [if_neg fun h => heq h.2.1, hbyte]
        exact iff_of_false (fun h => heq h.symm) fun h => heq (h 0 (Nat.succ_pos _)).symm

/-! ### `tfs_find_entry` -/

theorem strlenEq_iff {m : ℕ → UInt8} {a n : ℕ} :
    strlenEq m a n = true ↔ (∀ k < n, m (a + k) ≠ 0) ∧ m (a + n) = 0 := by
  simp [strlenEq]

/-- **What matches**: a live entry that holds the name. -/
theorem tfsMatchEntry_iff {name : List UInt8} (hlen : name.length ≤ TFS_NAME_LEN)
    (hnz : ∀ c ∈ name, c ≠ 0) {m : ℕ → UInt8} {de : ℕ} :
    tfsMatchEntry name m de = true ↔
      le32 m de ≠ 0 ∧ nameIn (fun k => m (de + 4 + k)) TFS_NAME_LEN = name := by
  rw [nameIn_eq_iff hnz hlen, tfsMatchEntry]
  by_cases h0 : le32 m de = 0
  · rw [if_pos h0]
    simp [h0]
  · rw [if_neg h0]
    by_cases hstr : ¬strlenEq m (de + 4) name.length ∧ name.length ≠ TFS_NAME_LEN
    · rw [if_pos hstr]
      refine iff_of_false (by decide) fun ⟨_, hbytes, hend⟩ => hstr.1 ?_
      refine strlenEq_iff.mpr ⟨fun k hk => ?_, hend.resolve_left hstr.2⟩
      rw [hbytes k hk]
      exact hnz _ (List.getElem_mem hk)
    · have hend : name.length = TFS_NAME_LEN ∨ m (de + 4 + name.length) = 0 := by
        by_cases hfull : name.length = TFS_NAME_LEN
        · exact .inl hfull
        · exact .inr (strlenEq_iff.mp (not_not.mp fun h => hstr ⟨h, hfull⟩)).2
      rw [if_neg hstr, decide_eq_true_eq]
      rcases name with _ | ⟨c, name⟩
      · -- the empty name, of an entry whose name is empty
        have hzero : m (de + 4) = 0 := hend.resolve_left (by decide)
        rw [strncmp, hzero]
        simp [h0, hzero]
      · rw [strncmp_eq_zero_iff (List.cons_ne_nil c name) hnz]
        exact ⟨fun h => ⟨h0, h, hend⟩, fun h => h.2.1⟩

/-- The walk over the entries of a block ends at the first that matches. -/
theorem findInBlock_eq {name : List UInt8} {m : ℕ → UInt8} {n de : ℕ} :
    (findInBlock name m n de = none ∧
      ∀ k < n, ¬tfsMatchEntry name m (de + sizeofDirEntry * k) = true) ∨
    ∃ k < n, findInBlock name m n de = some (de + sizeofDirEntry * k) ∧
      tfsMatchEntry name m (de + sizeofDirEntry * k) = true ∧
      ∀ l < k, ¬tfsMatchEntry name m (de + sizeofDirEntry * l) = true := by
  induction n generalizing de with
  | zero => exact .inl ⟨rfl, fun k hk => absurd hk (Nat.not_lt_zero k)⟩
  | succ n ih =>
    by_cases hmatch : tfsMatchEntry name m de = true
    · have h0 : le32 m de ≠ 0 := fun h0 => by
        rw [tfsMatchEntry, if_pos h0] at hmatch
        cases hmatch
      refine .inr ⟨0, Nat.succ_pos n, ?_, hmatch, fun l hl => absurd hl (Nat.not_lt_zero l)⟩
      rw [findInBlock, if_neg h0, if_pos hmatch, Nat.mul_zero, Nat.add_zero]
    · have hstep : findInBlock name m (n + 1) de = findInBlock name m n (de + sizeofDirEntry) := by
        rw [findInBlock, if_neg hmatch, ite_self]
      have hplace : ∀ l, de + sizeofDirEntry + sizeofDirEntry * l = de + sizeofDirEntry * (l + 1) :=
        fun l => by rw [Nat.mul_succ, Nat.add_comm (sizeofDirEntry * l), Nat.add_assoc]
      have hbelow : ∀ k, (∀ l < k,
        ¬tfsMatchEntry name m (de + sizeofDirEntry + sizeofDirEntry * l) =
          true) → ∀ l < k + 1, ¬tfsMatchEntry name m (de + sizeofDirEntry * l) = true :=
        fun k h l hl => by
          rcases l with _ | l
          · exact hmatch
          · rw [← hplace]
            exact h l (Nat.lt_of_succ_lt_succ hl)
      rw [hstep]
      rcases @ih (de + sizeofDirEntry) with ⟨hnone, hall⟩ | ⟨k, hk, hsome, hk', hl⟩
      · exact .inl ⟨hnone, hbelow n hall⟩
      · rw [hplace] at hsome hk'
        exact .inr ⟨k + 1, Nat.succ_lt_succ hk, hsome, hk', hbelow k hl⟩

/-- A live slot with this name. -/
def SlotNamed (e : Env) (v : ℕ → Buf) (inode : Inode) (name : List UInt8) (j : ℕ) : Prop :=
  slotLive e v inode j = true ∧ nameIn (fun k => slotBytes e v inode j (4 + k)) TFS_NAME_LEN = name

theorem nameIn_congr {f f' : Buf} {n : ℕ} (h : ∀ k < n, f k = f' k) : nameIn f n = nameIn f' n := by
  rw [nameIn, nameIn, List.map_congr_left fun k hk => h k (List.mem_range.mp hk)]

/-- The name can be told from those in the slots: it is not too long, or no slot holds as much
of it as there is room for. -/
def Legible (e : Env) (v : ℕ → Buf) (inode : Inode) (nb : ℕ) (name : List UInt8) : Prop :=
  name.length ≤ TFS_NAME_LEN ∨
    ∀ j < nb * entriesPerBlock e, ¬SlotNamed e v inode (name.take TFS_NAME_LEN) j

/-- A name that is too long matches where the beginning of it stands. -/
theorem match_long {name : List UInt8} (hlong : TFS_NAME_LEN < name.length)
    (hnz : ∀ c ∈ name, c ≠ 0) {m : ℕ → UInt8} {de : ℕ} (h : tfsMatchEntry name m de = true) :
    tfsMatchEntry (name.take TFS_NAME_LEN) m de = true := by
  have htake : (name.take TFS_NAME_LEN).length = TFS_NAME_LEN := List.length_take_of_le hlong.le
  have hnz' : ∀ c ∈ name.take TFS_NAME_LEN, c ≠ 0 := fun c hc => hnz c (List.mem_of_mem_take hc)
  have hne : name ≠ [] := fun h => by
    rw [h] at hlong
    cases hlong
  rw [tfsMatchEntry_iff htake.le hnz', nameIn_eq_iff hnz' htake.le]
  rw [tfsMatchEntry] at h
  by_cases h0 : le32 m de = 0
  · rw [if_pos h0] at h
    cases h
  · rw [if_neg h0] at h
    by_cases hstr : ¬strlenEq m (de + 4) name.length ∧ name.length ≠ TFS_NAME_LEN
    · rw [if_pos hstr] at h
      cases h
    · rw [if_neg hstr, decide_eq_true_eq, strncmp_eq_zero_iff hne hnz] at h
      refine ⟨h0, fun k hk => ?_, .inl htake⟩
      rw [List.getElem_take]
      exact h k (by omega)

/-- An entry in a buffer that holds a block of the directory matches as its slot does. -/
theorem match_slot (hm : Mounted e.sbi) {name : List UInt8} (hleg : Legible e v inode nb name)
    (hnz : ∀ c ∈ name, c ≠ 0) {m : ℕ → UInt8} {a k l : ℕ} (hk : k < nb)
    (hl : l < entriesPerBlock e)
    (hagree : ∀ x < e.sbi.sBlockSize, m (a + x) = v (inode.iData.getD k 0) x) :
    tfsMatchEntry name m (a + sizeofDirEntry * l) = true ↔
      SlotNamed e v inode name (k * entriesPerBlock e + l) := by
  have hdiv : (k * entriesPerBlock e + l) / entriesPerBlock e = k := by
    rw [Nat.mul_comm, Nat.mul_add_div (by omega), Nat.div_eq_of_lt hl, Nat.add_zero]
  have hmod : (k * entriesPerBlock e + l) % entriesPerBlock e = l := by
    rw [Nat.mul_comm, Nat.mul_add_mod, Nat.mod_eq_of_lt hl]
  have hend := Nat.mul_le_mul_right sizeofDirEntry (Nat.succ_le_of_lt hl)
  rw [hm.slots, Nat.succ_mul, Nat.mul_comm] at hend
  have hbytes : ∀ x < sizeofDirEntry, m (a + sizeofDirEntry * l + x) =
      slotBytes e v inode (k * entriesPerBlock e + l) x := fun x hx => by
    rw [slotBytes_eq hm hx, hdiv, hmod, Nat.add_assoc]
    exact hagree _ (by omega)
  have hino : le32 m (a + sizeofDirEntry * l) =
      le32 (slotBytes e v inode (k * entriesPerBlock e + l)) 0 := by
    have h : ∀ x < 4, m (a + sizeofDirEntry * l + x) = _ := fun x hx =>
      hbytes x (by rw [sizeofDirEntry]; omega)
    have h0 := h 0 (by decide)
    rw [Nat.add_zero] at h0
    rw [le32, le32, h0, h 1 (by decide), h 2 (by decide), h 3 (by decide)]
  have hname : nameIn (fun x => m (a + sizeofDirEntry * l + 4 + x)) TFS_NAME_LEN =
      nameIn (fun x => slotBytes e v inode (k * entriesPerBlock e + l) (4 + x)) TFS_NAME_LEN :=
    nameIn_congr fun x hx => by
      rw [Nat.add_assoc _ 4 x]
      refine hbytes _ ?_
      rw [TFS_NAME_LEN] at hx
      rw [sizeofDirEntry]
      omega
  have hshort : ∀ {name : List UInt8}, name.length ≤ TFS_NAME_LEN → (∀ c ∈ name, c ≠ 0) →
      (tfsMatchEntry name m (a + sizeofDirEntry * l) = true ↔
        SlotNamed e v inode name (k * entriesPerBlock e + l)) := fun hlen hnz => by
    rw [tfsMatchEntry_iff hlen hnz, SlotNamed, hino, hname, slotLive, decide_eq_true_eq]
  by_cases hlen : name.length ≤ TFS_NAME_LEN
  · exact hshort hlen hnz
  · have hlt : k * entriesPerBlock e + l < nb * entriesPerBlock e := by
      have := Nat.mul_le_mul_right (entriesPerBlock e) (Nat.succ_le_of_lt hk)
      rw [Nat.succ_mul] at this
      omega
    have hno := hleg.resolve_left hlen _ hlt
    have htake : (name.take TFS_NAME_LEN).length ≤ TFS_NAME_LEN := List.length_take_le _ _
    refine iff_of_false (fun h => hno ?_) fun h => hlen ?_
    · exact (hshort htake fun c hc => hnz c (List.mem_of_mem_take hc)).mp
        (match_long (by omega) hnz h)
    · rw [← h.2]
      exact (List.takeWhile_sublist _).length_le.trans (by simp)

/-- The blocks of the directory are in the data area, where `tfs_find_entry` follows them. -/
def InDataArea (e : Env) (inode : Inode) (nb : ℕ) : Prop :=
  0 < e.sbi.sDataArea ∧ ∀ k < nb, e.sbi.sDataArea ≤ inode.iData.getD k 0

theorem drop_iData {k : ℕ} (hk : k < TFS_N_BLOCKS) :
    inode.iData.drop k = inode.iData.getD k 0 :: inode.iData.drop (k + 1) := by
  have hlt : k < inode.iData.length := by rw [inode.iData_length]; exact hk
  rw [List.drop_eq_getElem_cons hlt, List.getD_eq_getElem _ _ hlt]

/-- The first slot with the name, from one on. -/
def FirstNamed (e : Env) (v : ℕ → Buf) (inode : Inode) (name : List UInt8) (lo hi j : ℕ) : Prop :=
  lo ≤ j ∧ j < hi ∧ SlotNamed e v inode name j ∧ ∀ j', lo ≤ j' → j' < j →
    ¬SlotNamed e v inode name j'

/-- What the search returns, from a block on: the first slot with the name, in an entry
that holds its block, or nothing, when there is none. -/
def Finds (e : Env) (S : Set ℕ) (v : ℕ → Buf) (inode : Inode) (nb : ℕ) (name : List UInt8) (k : ℕ) :
    Lookup → Dev → Prop
  | .null, d => Vol e S v d ∧
    ∀ j, k * entriesPerBlock e ≤ j → j < nb * entriesPerBlock e → ¬SlotNamed e v inode name j
  | .err _, _ => False
  | .found cs de, d => ∃ i j, cs = .entry i ∧
    de = i * e.sbi.sBlockSize + sizeofDirEntry * (j % entriesPerBlock e) ∧
    FirstNamed e v inode name (k * entriesPerBlock e) (nb * entriesPerBlock e) j ∧
    Holding e S v i (inode.iData.getD (j / entriesPerBlock e) 0) d

theorem Finds.iff {name : List UInt8} {k : ℕ} {res : Lookup} {d : Dev}
    (h : Finds e S v inode nb name k res d) : (∃ cs de, res = .found cs de) ↔
      ∃ j, k * entriesPerBlock e ≤ j ∧ j < nb * entriesPerBlock e ∧ SlotNamed e v inode name j := by
  cases res with
  | null =>
    exact iff_of_false (fun ⟨_, _, h⟩ => by cases h) fun ⟨j, hlo, hhi, hj⟩ => h.2 j hlo hhi hj
  | err => cases h
  | found cs de =>
    obtain ⟨i, j, -, -, ⟨hlo, hhi, hj, -⟩, -⟩ := h
    exact iff_of_true ⟨_, _, rfl⟩ ⟨j, hlo, hhi, hj⟩

/-- **The walk over the blocks** from one on. -/
theorem findEntryLoop_vol (hm : Mounted e.sbi) (hq : Quiet e) (hd : WholeDir e S inode nb)
    (hnb : nb < TFS_N_BLOCKS) (harea : InDataArea e inode nb) {name : List UInt8}
    (hleg : Legible e v inode nb name) (hnz : ∀ c ∈ name, c ≠ 0) (behind : List ℕ) {k r : ℕ}
    (hr : k + r = nb) (hpos : 0 < r) :
    Hoare (Vol e S v) (findEntryLoop e name (inode.iData.drop k ++ behind))
      (Finds e S v inode nb name k) := by
  have hE := hm.entriesPerBlock_pos
  induction r generalizing k with
  | zero => omega
  | succ r ih =>
    have hmono : (k + 1) * entriesPerBlock e ≤ nb * entriesPerBlock e :=
      Nat.mul_le_mul_right _ (by omega)
    rw [Nat.succ_mul] at hmono
    rw [drop_iData (by omega), List.cons_append, findEntryLoop]
    refine request_vol hm hq fun i => dataPtr_holding.bind_eq ?_
    -- the block holds the slots from `k * entriesPerBlock e` on
    have hread : Hoare (Holding e S v i (inode.iData.getD k 0))
        (readMem fun m => findInBlock name m (entriesPerBlock e) (i * e.sbi.sBlockSize))
        fun res d => Holding e S v i (inode.iData.getD k 0) d ∧
          ((res = none ∧ ∀ l < entriesPerBlock e,
            ¬SlotNamed e v inode name (k * entriesPerBlock e + l)) ∨
          ∃ l < entriesPerBlock e, res = some (i * e.sbi.sBlockSize + sizeofDirEntry * l) ∧
            SlotNamed e v inode name (k * entriesPerBlock e + l) ∧
            ∀ l' < l, ¬SlotNamed e v inode name (k * entriesPerBlock e + l')) := fun d h => by
      have hmatch := fun {l} (hl : l < entriesPerBlock e) =>
        match_slot hm hleg hnz (by omega) hl (h.agree (hd.block_mem k (by omega)))
      refine ⟨h, ?_⟩
      rcases @findInBlock_eq name d.cacheData (entriesPerBlock e) (i * e.sbi.sBlockSize) with
        ⟨hnone, hall⟩ | ⟨l, hl, hsome, hl', hbelow⟩
      · exact .inl ⟨hnone, fun l hl hj => hall l hl ((hmatch hl).mpr hj)⟩
      · exact .inr ⟨l, hl, hsome, (hmatch hl).mp hl', fun l' h' hj =>
          hbelow l' h' ((hmatch (h'.trans hl)).mpr hj)⟩
    refine hread.bind fun res => Hoare.assume fun hres => ?_
    rcases hres with ⟨rfl, hno⟩ | ⟨l, hl, rfl, hnamed, hbelow⟩
    · have hnot : ∀ j, k * entriesPerBlock e ≤ j → j < k * entriesPerBlock e + entriesPerBlock e →
          ¬SlotNamed e v inode name j := fun j hlo hhi => by
        obtain ⟨l, rfl⟩ := Nat.exists_eq_add_of_le hlo
        exact hno l (by omega)
      have hhead : (inode.iData.drop (k + 1) ++ behind).headD 0 = inode.iData.getD (k + 1) 0 := by
        rw [drop_iData (by omega)]
        rfl
      dsimp only
      rw [hhead]
      rcases Nat.eq_zero_or_pos r with rfl | hr0
      · -- the word behind the last block
        rw [if_pos (by rw [hd.rest (k + 1) (by omega) (by omega)]; exact harea.1)]
        refine .pure fun d h => ⟨h.1, fun j hlo hhi => hnot j hlo ?_⟩
        rwa [show nb = k + 1 by omega, Nat.succ_mul] at hhi
      · rw [if_neg (Nat.not_lt.mpr (harea.2 (k + 1) (by omega)))]
        refine ((ih (by omega) hr0).pre fun d h => h.1).post fun res d h => ?_
        cases res with
        | null =>
          refine ⟨h.1, fun j hlo hhi => ?_⟩
          by_cases hj : j < k * entriesPerBlock e + entriesPerBlock e
          · exact hnot j hlo hj
          · exact h.2 j (by rw [Nat.succ_mul]; omega) hhi
        | err => exact h
        | found cs de =>
          obtain ⟨i, j, hcs, hde, ⟨hlo, hhi, hj, hfirst⟩, hhold⟩ := h
          rw [Nat.succ_mul] at hlo hfirst
          refine ⟨i, j, hcs, hde, ⟨by omega, hhi, hj, fun j' hlo' hlt => ?_⟩, hhold⟩
          by_cases hj' : j' < k * entriesPerBlock e + entriesPerBlock e
          · exact hnot j' hlo' hj'
          · exact hfirst j' (by omega) hlt
    · have hdiv : (k * entriesPerBlock e + l) / entriesPerBlock e = k := by
        rw [Nat.mul_comm, Nat.mul_add_div hE, Nat.div_eq_of_lt hl, Nat.add_zero]
      have hmod : (k * entriesPerBlock e + l) % entriesPerBlock e = l := by
        rw [Nat.mul_comm, Nat.mul_add_mod, Nat.mod_eq_of_lt hl]
      refine .pure fun d h => ⟨i, k * entriesPerBlock e + l, rfl, by rw [hmod],
        ⟨Nat.le_add_right _ _, by omega, hnamed, fun j hlo hlt => ?_⟩, by rw [hdiv]; exact h⟩
      obtain ⟨l', rfl⟩ := Nat.exists_eq_add_of_le hlo
      exact hbelow l' (by omega)

/-- **`tfs_find_entry` finds the first live slot with the name.** -/
theorem tfsFindEntry_vol (hm : Mounted e.sbi) (hq : Quiet e) (hd : WholeDir e S inode nb)
    (hnb : nb < TFS_N_BLOCKS) (harea : InDataArea e inode nb) {name : List UInt8}
    (hleg : Legible e v inode nb name) (hnz : ∀ c ∈ name, c ≠ 0) :
    Hoare (Vol e S v) (tfsFindEntry e inode name) (Finds e S v inode nb name 0) := by
  rcases Nat.eq_zero_or_pos nb with rfl | hpos
  · rw [tfsFindEntry, if_pos (hd.rest 0 (le_refl 0) (by decide))]
    refine .pure fun d h => ⟨h, fun j _ hj => ?_⟩
    rw [Nat.zero_mul] at hj
    exact absurd hj (Nat.not_lt_zero j)
  · rw [tfsFindEntry, if_neg (hd.block_ne 0 hpos)]
    have hwords : Hoare (Vol e S v) (dataWords e inode) fun r d =>
        Vol e S v d ∧ ∃ behind, r = inode.iData ++ behind := fun d h => ⟨h.tick, _, rfl⟩
    refine hwords.bind fun r => Hoare.assume ?_
    rintro ⟨behind, rfl⟩
    exact findEntryLoop_vol (k := 0) hm hq hd hnb harea hleg hnz behind (Nat.zero_add nb) hpos

/-! ### The listing -/

/-- `d_name[k]`: the record has been cleared before the name is copied into it. -/
def Dirent.dNameByte (de : Dirent) : Buf := fun k => de.dName.getD k 0

/-- The string in `d_name`, an array of 256 characters. -/
def Dirent.name (de : Dirent) : List UInt8 := nameIn de.dNameByte 256

theorem dNameByte_direntAt (j k : ℕ) : (direntAt e v inode j).dNameByte k =
    if k < TFS_NAME_LEN then slotBytes e v inode j (4 + k) else 0 := by
  rw [Dirent.dNameByte, direntAt, direntOf, List.getD_eq_getElem?_getD, List.getElem?_map]
  by_cases hk : k < TFS_NAME_LEN
  · rw [if_pos hk, List.getElem?_range hk]
    rfl
  · rw [if_neg hk, List.getElem?_eq_none (by rw [List.length_range]; omega)]
    rfl

/-- What lies behind a terminator does not matter. -/
theorem nameIn_of_zero {f : Buf} {n m : ℕ} (h0 : f n = 0) (hle : n ≤ m) :
    nameIn f m = nameIn f n := by
  induction n generalizing f m with
  | zero =>
    cases m with
    | zero => rfl
    | succ m => rw [nameIn_succ, if_pos h0, nameIn, List.range_zero, List.map_nil,
        List.takeWhile_nil]
  | succ n ih =>
    obtain ⟨m, rfl⟩ := Nat.exists_eq_add_of_le' hle
    rw [← Nat.add_assoc, nameIn_succ, nameIn_succ, @ih (fun k => f (k + 1)) (m + n) h0 (by omega)]

/-- The name listed is that of the slot, also when it fills the slot. -/
theorem name_direntAt (j : ℕ) : (direntAt e v inode j).name =
    nameIn (fun k => slotBytes e v inode j (4 + k)) TFS_NAME_LEN := by
  have hzero : (direntAt e v inode j).dNameByte TFS_NAME_LEN = 0 := by
    rw [dNameByte_direntAt, if_neg (Nat.lt_irrefl _)]
  rw [Dirent.name, nameIn_of_zero hzero (by decide)]
  exact nameIn_congr fun k hk => by rw [dNameByte_direntAt, if_pos hk]

/-- The calls that `tfs_readdir` makes of itself come to an end: to allow it more of them
than there are slots that `i_data` has room for makes no difference, whatever the disk and
the memory hold. -/
theorem tfsReaddirLoop_ends (hm : Mounted e.sbi) (inode : Inode) {r n n' : ℕ}
    (hr : j + r = TFS_N_BLOCKS * entriesPerBlock e) (hn : r < n) (hn' : r < n') (d : Dev) :
    tfsReaddirLoop e inode n (sizeofDirEntry * j) d =
      tfsReaddirLoop e inode n' (sizeofDirEntry * j) d := by
  have hE := hm.entriesPerBlock_pos
  induction r generalizing j n n' d with
  | zero =>
    obtain ⟨n, rfl⟩ := Nat.exists_eq_add_of_le' hn
    obtain ⟨n', rfl⟩ := Nat.exists_eq_add_of_le' hn'
    -- behind the last block that `i_data` has room for
    have hend : j / entriesPerBlock e = TFS_N_BLOCKS := by
      rw [show j = TFS_N_BLOCKS * entriesPerBlock e by omega, Nat.mul_div_cancel _ hE]
    rw [tfsReaddirLoop, tfsReaddirLoop, slot_index hm, hend, tfsBmap, if_pos (le_refl _)]
    rfl
  | succ r ih =>
    obtain ⟨n, rfl⟩ := Nat.exists_eq_add_of_le' (Nat.lt_of_le_of_lt (Nat.zero_le _) hn)
    obtain ⟨n', rfl⟩ := Nat.exists_eq_add_of_le' (Nat.lt_of_le_of_lt (Nat.zero_le _) hn')
    have hle := hm.size_le
    have hslots := hm.slots
    have hnext : (sizeofDirEntry * j + sizeofDirEntry) % 2 ^ 32 = sizeofDirEntry * (j + 1) := by
      rw [TFS_N_BLOCKS] at hr
      rw [sizeofDirEntry] at hslots ⊢
      omega
    have hrest : ∀ d, tfsReaddirLoop e inode n (sizeofDirEntry * (j + 1)) d =
        tfsReaddirLoop e inode n' (sizeofDirEntry * (j + 1)) d := fun d =>
      ih (by omega) (by omega) (by omega) d
    have hloop : tfsReaddirLoop e inode n (sizeofDirEntry * (j + 1)) =
        tfsReaddirLoop e inode n' (sizeofDirEntry * (j + 1)) := funext hrest
    simp only [tfsReaddirLoop, hnext, hloop]

/-- A name is in the listing exactly if a live slot has it. -/
theorem listed_iff {n : ℕ} {name : List UInt8} :
    (∃ de, some de ∈ (liveSlots e v inode 0 n).map (fun j => some (direntAt e v inode j)) ++
      [none] ∧
      de.name = name) ↔ ∃ j < n, SlotNamed e v inode name j := by
  constructor
  · rintro ⟨de, hmem, rfl⟩
    rcases List.mem_append.mp hmem with hmem | hmem
    · obtain ⟨j, hj, hde⟩ := List.mem_map.mp hmem
      obtain rfl := Option.some.inj hde
      obtain ⟨hlt, hlive⟩ := List.mem_filter.mp hj
      have := List.mem_range'_1.mp hlt
      exact ⟨j, by omega, hlive, (name_direntAt j).symm⟩
    · simp at hmem
  · rintro ⟨j, hj, hlive, hname⟩
    refine ⟨direntAt e v inode j, List.mem_append_left _ (List.mem_map.mpr ⟨j, ?_, rfl⟩),
      (name_direntAt j).trans hname⟩
    exact List.mem_filter.mpr ⟨List.mem_range'_1.mpr (by omega), hlive⟩

/-- **The listing is complete and exact.** The calls from offset 0 return the live slots of
the directory, each once and in their order, with their numbers and their names, which
are terminated, and then `NULL`; each of them ends; and `tfs_find_entry` finds exactly
the names listed. -/
theorem listed_iff_found (hm : Mounted e.sbi) (hq : Quiet e) (hmalloc : ∀ t, e.mallocOk t = true)
    (hd : WholeDir e S inode nb) {d : Dev} (h : Vol e S v d) {fuel : ℕ}
    (hfuel : nb * entriesPerBlock e < fuel) :
    (readdirCalls e inode fuel 0 d).1 =
      (liveSlots e v inode 0 (nb * entriesPerBlock e)).map (fun j => some (direntAt e v inode j)) ++
        [none] ∧
    (∀ j k, TFS_NAME_LEN ≤ k → (direntAt e v inode j).dNameByte k = 0) ∧
    (∀ j n d', j ≤ TFS_N_BLOCKS * entriesPerBlock e → TFS_N_BLOCKS * entriesPerBlock e < n →
      tfsReaddirLoop e inode n (sizeofDirEntry * j) d' =
        tfsReaddir e inode (sizeofDirEntry * j) d') ∧
    (nb < TFS_N_BLOCKS → InDataArea e inode nb → ∀ name : List UInt8, name ≠ [] →
      name.length ≤ TFS_NAME_LEN → (∀ c ∈ name, c ≠ 0) → ∀ d', Vol e S v d' →
      ((∃ de, some de ∈ (readdirCalls e inode fuel 0 d).1 ∧ de.name = name) ↔
        ∃ cs p, (tfsFindEntry e inode name d').1 = .found cs p)) := by
  have hcalls := (readdirCalls_vol (j := 0) hm hq hmalloc hd (Nat.zero_add _) hfuel d h).1
  rw [Nat.mul_zero] at hcalls
  refine ⟨hcalls, fun j k hk => ?_, fun j n d' hj hn => ?_, ?_⟩
  · rw [dNameByte_direntAt, if_neg (Nat.not_lt.mpr hk)]
  · exact tfsReaddirLoop_ends hm inode (Nat.add_sub_cancel' hj) (by omega) (by omega) d'
  · intro hnb harea name hne hlen hnz d' hd'
    rw [hcalls, listed_iff, (tfsFindEntry_vol hm hq hd hnb harea (.inl hlen) hnz d' hd').iff]
    refine exists_congr fun j => ?_
    rw [Nat.zero_mul]
    exact (and_iff_right (Nat.zero_le j)).symm

/-- The root directory of the small volume. -/
def rootDir : Inode where
  iMode := TFS_DIR
  iSize := 64
  iIno := 1
  iAtime := 0
  iMtime := 0
  iCtime := 0
  iDtime := 0
  iData := [6, 0, 0, 0, 0, 0, 0, 0]
  iFlags := 0
  iBlksize := 512
  iData_length := rfl

theorem wholeDir_rootDir : WholeDir (Env.quiet (smallSbi 9)) {6} rootDir 1 := by
  have hk : ∀ k < 1, k = 0 := fun k h => by omega
  refine ⟨by decide, fun k h => ?_, fun k h => ?_, by decide⟩
  · rw [hk k h]
    decide
  · rw [hk k h]
    simp [rootDir]

/-- Its listing: the two entries, after which the search finds `..` and not `...`. -/
theorem listed_iff_found_rootDir :
    (readdirCalls (Env.quiet (smallSbi 9)) rootDir 17 0 (cacheInit 9 formatted)).1.map
        (fun r => r.map fun de => (de.dIno, de.name)) =
      [some (1, [46]), some (1, [46, 46]), none] ∧
    ∃ cs p, (tfsFindEntry (Env.quiet (smallSbi 9)) rootDir [46, 46] (cacheInit 9 formatted)).1 =
      .found cs p := by
  have hvol : Vol (Env.quiet (smallSbi 9)) {6} (diskBlock (smallSbi 9) formatted.disk)
      (cacheInit 9 formatted) := vol_cacheInit mounted_small (by decide) formatted
  obtain ⟨hcalls, -, -, hfound⟩ := listed_iff_found mounted_small (quiet_quiet _) (fun _ => rfl)
    wholeDir_rootDir hvol (by decide : 1 * entriesPerBlock (Env.quiet (smallSbi 9)) < 17)
  have hslots : 1 * entriesPerBlock (Env.quiet (smallSbi 9)) = 16 := by decide
  rw [hslots] at hcalls
  constructor
  · have hlist : (liveSlots (Env.quiet (smallSbi 9)) (diskBlock (smallSbi 9) formatted.disk)
        rootDir 0 16).map ((fun r => r.map fun de => (de.dIno, de.name)) ∘
          fun j => some (direntAt (Env.quiet (smallSbi 9)) (diskBlock (smallSbi 9) formatted.disk)
            rootDir j)) = [some (1, [46]), some (1, [46, 46])] := by
      decide +kernel
    rw [hcalls, List.map_append, List.map_map, hlist]
    rfl
  · have harea : InDataArea (Env.quiet (smallSbi 9)) rootDir 1 := by
      refine ⟨by decide, fun k hk => ?_⟩
      obtain rfl : k = 0 := by omega
      decide
    have hnz : ∀ c ∈ ([46, 46] : List UInt8), c ≠ 0 := by simp
    refine (hfound (by decide) harea [46, 46] (by decide) (by decide) hnz _ hvol).mp
      ⟨direntAt (Env.quiet (smallSbi 9)) (diskBlock (smallSbi 9) formatted.disk) rootDir 1, ?_,
        by decide +kernel⟩
    rw [hcalls]
    refine List.mem_append_left _ (List.mem_map.mpr ⟨1, ?_, rfl⟩)
    have hlive : liveSlots (Env.quiet (smallSbi 9)) (diskBlock (smallSbi 9) formatted.disk)
        rootDir 0 16 = [0, 1] := by decide +kernel
    rw [hlive]
    decide

end Thunix.Fs
