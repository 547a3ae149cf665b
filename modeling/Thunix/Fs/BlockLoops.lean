import Thunix.Fs.Kernel
import Thunix.Lib.Logged

/-!
# The loops over the blocks of a file

`tfs_read`, `tfs_write` and `tfs_release_inode` once more, with a log of the places in `i_data`
that they read and write, and of the rounds of their loops. An index is an `int` here, as it is in
the source, and `tfs_bmap` tests it against `TFS_N_BLOCKS` only: a negative one would be logged
like any other. The functions keep the names of their originals with an `L`, and compute what those
compute.

The loops count an `int` down to 0, and a negative one is a large one. What ends them is the
index: it starts at 0 or above, for an offset of 32 bits is shifted down, it grows by one in each
round, and `tfs_bmap` gives 0 from `TFS_N_BLOCKS` on. `Thunix.Fs.blockLoops_within` says so of all
three.
-/

namespace Thunix.Fs

open Logged

/-- What is logged. -/
inductive Access
  /-- `i_data` is read or written at an index. -/
  | data (index : ℤ)
  /-- A round of a loop. -/
  | round
  deriving DecidableEq

/-- Programs on the cache and the disk, with their accesses. -/
abbrev LoopM (α : Type) := Prog Dev Access α

/-! ### The source -/

/-- `inode->i_data[index]`. -/
def dataAtL {σ : Type} (inode : Inode) (index : ℤ) : Prog σ Access ℕ :=
  visit (.data index) fun s => (inode.iData.getD index.toNat 0, s)

/-- `inode->i_data[index] = block`. -/
def setDataL (inode : Inode) (index : ℤ) (block : ℕ) : LoopM Inode :=
  visit (.data index) fun d => (inode.setData index.toNat block, d)

/-- One more round. -/
def roundL {σ : Type} : Prog σ Access Unit := visit .round fun s => ((), s)

/-- `tfs_bmap`. -/
def tfsBmapL {σ : Type} (inode : Inode) (index : ℤ) : Prog σ Access ℕ :=
  if TFS_N_BLOCKS ≤ index then pure 0 else dataAtL inode index

variable (e : Env)

/-- The loop of `tfs_read`. -/
def tfsReadLoopL (inode : Inode) : ℕ → ℤ → ℕ → (ℕ → UInt8) → LoopM (ℤ × (ℕ → UInt8))
  | 0, _, bytesRead, buf => pure (bytesRead, buf)
  | blocks + 1, index, bytesRead, buf => do
    roundL
    let block ← tfsBmapL inode index
    if block = 0 then pure (bytesRead, buf)
    else do
      let cs ← quiet (getCacheBlock e e.sbi block)
      match cs with
      | none => pure (- EIO, buf)
      | some cs => do
        let data ← quiet (dataPtr cs)
        let bytes ← quiet (readMem fun m i => m (data + i))
        tfsReadLoopL inode blocks (index + 1) (bytesRead + e.sbi.sBlockSize)
          (blit buf bytesRead e.sbi.sBlockSize bytes)

/-- `int index = file->offset >> sbi->s_block_shift`. -/
def firstIndex (offset : ℕ) : ℤ := toS32 (offset >>> e.sbi.sBlockShift)

/-- `tfs_read`. -/
def tfsReadL (inode : Inode) (offset : ℕ) (buf : ℕ → UInt8) (blocks : ℤ) :
    LoopM (ℤ × (ℕ → UInt8)) :=
  if blocks = 0 then pure (0, buf)
  else if inode.iSize ≤ offset then pure (-1, buf)
  else tfsReadLoopL e inode (toU32 blocks) (firstIndex e offset) 0 buf

/-- The block of a file at an index, or a new one. The index has been incremented before it is
tested, and what is tested and stored through is `index - 1`. -/
def blockForWriteL (inode : Inode) (index : ℤ) : LoopM (Except ℤ ℕ × Inode) := do
  let block ← tfsBmapL inode index
  let index := index + 1
  if block ≠ 0 then pure (.ok block, inode)
  else if index - 1 < TFS_N_BLOCKS then do
    let block ← quiet (tfsAllocBlock e e.sbi.sDataArea)
    if block < 0 then pure (.error (-ENOSPC), inode)
    else do
      let inode ← setDataL inode (index - 1) (toU32 block)
      pure (.ok (toU32 block), inode)
  else pure (.error (-EFBIG), inode)

/-- The words of `i_data` are copied, so many of them. -/
def copyDataL : ℕ → LoopM Unit
  | 0 => pure ()
  | n + 1 => do
    visit (.data n) fun d => ((), d)
    copyDataL n

/-- `tfs_iwrite`. -/
def tfsIwriteL (inode : Inode) : LoopM ℤ := do
  let k := toU32 (inode.iIno - 1)
  let inodeBlock := (e.sbi.sInodeTable + k / e.sbi.sInodesPerBlock) % 2 ^ 32
  let cs ← quiet (getCacheBlock e e.sbi inodeBlock)
  match cs with
  | none => pure (- EIO)
  | some cs => do
    copyDataL TFS_N_BLOCKS
    quiet (storeRecord e inode inodeBlock (k % e.sbi.sInodesPerBlock) cs)

/-- The loop of `tfs_write`. -/
def tfsWriteLoopL (offset : ℕ) (buf : ℕ → UInt8) :
    ℕ → ℤ → ℕ → Inode → LoopM (ℤ × Inode)
  | 0, _, bytesWritten, inode => do
    let res ← tfsIwriteL e inode
    if res ≠ 0 then pure (- EIO, inode) else pure (bytesWritten, inode)
  | blocks + 1, index, bytesWritten, inode => do
    roundL
    let (block, inode) ← blockForWriteL e inode index
    match block with
    | .error err => pure (err, inode)
    | .ok block => do
      let cs ← quiet (getCacheBlock e e.sbi block)
      match cs with
      | none => pure (- EIO, inode)
      | some cs => do
        let res ← quiet
          (copyAndWrite e block cs 0 e.sbi.sBlockSize fun i => buf (bytesWritten + i))
        let bytesWritten := bytesWritten + e.sbi.sBlockSize
        let inode := growSize inode offset bytesWritten
        if res ≠ 0 then pure (- EIO, inode)
        else tfsWriteLoopL offset buf blocks (index + 1) bytesWritten inode

/-- `tfs_write`. -/
def tfsWriteL (inode : Inode) (offset : ℕ) (buf : ℕ → UInt8) (blocks : ℤ) :
    LoopM (ℤ × Inode) := do
  if blocks = 0 then pure (0, inode)
  else do
    let index := firstIndex e offset
    let bufoff := offset &&& (e.sbi.sBlockSize - 1)
    let (block, inode) ← blockForWriteL e inode index
    match block with
    | .error err => pure (err, inode)
    | .ok block => do
      let cs ← quiet (getCacheBlock e e.sbi block)
      match cs with
      | none => pure (- EIO, inode)
      | some cs => do
        let bytesWritten := e.sbi.sBlockSize - bufoff
        let res ← quiet (copyAndWrite e block cs bufoff bytesWritten buf)
        let inode := growSize inode offset bytesWritten
        if res ≠ 0 then pure (- EIO, inode)
        else tfsWriteLoopL e offset buf (toU32 (blocks - 1)) (index + 1) bytesWritten inode

/-- The loop of `tfs_release_inode`, which counts nothing: nothing is returned if `n` rounds do not
end it. -/
def releaseLoopL (inode : Inode) : ℕ → ℤ → ℤ → Prog Kernel Access (Option ℤ)
  | 0, _, _ => pure none
  | n + 1, index, res => do
    roundL
    let block ← tfsBmapL inode index
    if block = 0 then pure (some res)
    else do
      let res ← quiet (onDev (tfsFreeBlock e block))
      if res < 0 then pure (some res) else releaseLoopL inode n (index + 1) res

/-- `tfs_release_inode`, with so many rounds for its loop. -/
def tfsReleaseInodeL (n obj : ℕ) : Prog Kernel Access (Option ℤ) := do
  let inode ← quiet (inodeAt obj)
  let res ← quiet (onDev (tfsFreeInode e (toS32 inode.iIno)))
  if res < 0 then pure (some res)
  else do
    let inode ← quiet (inodeAt obj)
    let res ← releaseLoopL e inode n 0 res
    match res with
    | none => pure none
    | some res => do
      quiet (freeInode obj)
      pure (some res)

/-! ### Logs -/

/-- Every index lies in `i_data`, and there are at most so many rounds. -/
def Within (n : ℕ) (es : List Access) : Prop :=
  (∀ i : ℤ, .data i ∈ es → 0 ≤ i ∧ i < TFS_N_BLOCKS) ∧ es.count .round ≤ n

theorem Within.nil (n : ℕ) : Within n [] :=
  ⟨fun _ h => absurd h List.not_mem_nil, Nat.zero_le n⟩

theorem Within.append {m n k : ℕ} (h : m + n ≤ k) (es fs : List Access) (hes : Within m es)
    (hfs : Within n fs) : Within k (es ++ fs) := by
  refine ⟨fun i hi => ?_, ?_⟩
  · rcases List.mem_append.mp hi with hi | hi
    · exact hes.1 i hi
    · exact hfs.1 i hi
  · rw [List.count_append]
    exact (Nat.add_le_add hes.2 hfs.2).trans h

theorem Within.mono {m n : ℕ} (h : m ≤ n) (es : List Access) (hes : Within m es) : Within n es :=
  ⟨hes.1, hes.2.trans h⟩

theorem Within.round : Within 1 [.round] :=
  ⟨fun i hi => by simp at hi, le_rfl⟩

theorem Within.data {i : ℤ} (h0 : 0 ≤ i) (h : i < TFS_N_BLOCKS) : Within 0 [.data i] := by
  refine ⟨fun j hj => ?_, le_rfl⟩
  obtain rfl := Access.data.inj (List.mem_singleton.mp hj)
  exact ⟨h0, h⟩

section Rules

variable {σ α β : Type} {m n k : ℕ} {x : Prog σ Access α} {u : StateM σ α}
  {f : α → Prog σ Access β} {g : α → StateM σ β} {inode : Inode} {index : ℕ}

/-- A step that touches nothing comes first. -/
theorem within_quiet (u : StateM σ α) (hf : ∀ a, Computes (Within n) (f a) (g a)) :
    Computes (Within n) (quiet u >>= f) (u >>= g) :=
  .bind (.quiet u (.nil 0)) (fun _ => hf _) (Within.append (Nat.zero_add n).le)

theorem within_round {y : Prog σ Access β} {v : StateM σ β} (hy : Computes (Within n) y v) :
    Computes (Within (n + 1)) (roundL >>= fun _ => y) v :=
  .bind_pure (.visit _ .round) hy (Within.append (Nat.add_comm 1 n).le)

/-- **`tfs_bmap` stays inside of `i_data`**, for an index that is not negative. -/
theorem within_tfsBmapL (inode : Inode) (index : ℕ) :
    Computes (Within 0) (tfsBmapL inode index : Prog σ Access ℕ) (pure (tfsBmap inode index)) := by
  rw [tfsBmapL, tfsBmap]
  by_cases h : TFS_N_BLOCKS ≤ index
  · rw [if_pos h, if_pos (Int.ofNat_le.mpr h)]
    exact .pure _ (.nil 0)
  · rw [if_neg h, if_neg (mt Int.ofNat_le.mp h)]
    exact .visit _ (.data (Int.natCast_nonneg index) (by omega))

theorem tfsBmap_ne_zero {inode : Inode} {index : ℕ} (h : tfsBmap inode index ≠ 0) :
    index < TFS_N_BLOCKS := by
  refine Nat.lt_of_not_le fun hle => h ?_
  rw [tfsBmap, if_pos hle]

end Rules

/-! ### Reading -/

theorem within_tfsReadLoopL (inode : Inode) (blocks index bytesRead : ℕ) (buf : ℕ → UInt8) :
    Computes (Within (TFS_N_BLOCKS - index + 1)) (tfsReadLoopL e inode blocks index bytesRead buf)
      (tfsReadLoop e inode blocks index bytesRead buf) := by
  induction blocks generalizing index bytesRead buf with
  | zero => exact .pure _ (.nil _)
  | succ blocks ih =>
    rw [tfsReadLoopL, tfsReadLoop]
    refine within_round (.bind_pure (within_tfsBmapL inode index) (.ite (fun _ => ?_) fun h => ?_)
      (Within.append (Nat.zero_add _).le))
    · exact .pure _ (.nil _)
    · have hlt := tfsBmap_ne_zero h
      refine within_quiet _ fun cs => ?_
      cases cs with
      | none => exact .pure _ (.nil _)
      | some cs =>
        refine within_quiet _ fun data => within_quiet _ fun bytes => ?_
        refine (ih (index + 1) _ _).mono (Within.mono ?_)
        omega

/-- The first index is not negative. -/
theorem firstIndex_eq {offset : ℕ} (hoff : offset < 2 ^ 32) (hshift : 9 ≤ e.sbi.sBlockShift) :
    firstIndex e offset = (offset >>> e.sbi.sBlockShift : ℕ) := by
  have hlt : offset >>> e.sbi.sBlockShift < 2 ^ 31 := by
    rw [Nat.shiftRight_eq_div_pow]
    refine Nat.div_lt_of_lt_mul (hoff.trans_le ?_)
    have h2 : 2 ^ 9 ≤ 2 ^ e.sbi.sBlockShift := Nat.pow_le_pow_right (by decide) hshift
    omega
  rw [firstIndex, toS32, if_pos hlt]

theorem within_tfsReadL (inode : Inode) {offset : ℕ} (buf : ℕ → UInt8) (blocks : ℤ)
    (hoff : offset < 2 ^ 32) (hshift : 9 ≤ e.sbi.sBlockShift) :
    Computes (Within (TFS_N_BLOCKS + 1)) (tfsReadL e inode offset buf blocks)
      (tfsRead e inode offset buf blocks) := by
  rw [tfsReadL, tfsRead, firstIndex_eq e hoff hshift]
  refine .ite (fun _ => .pure _ (.nil _)) fun _ => .ite (fun _ => .pure _ (.nil _)) fun _ => ?_
  exact (within_tfsReadLoopL e inode _ _ 0 buf).mono
    (Within.mono (Nat.add_le_add_right (Nat.sub_le _ _) 1))

/-! ### Writing -/

/-- A block is found, or made, only inside of `i_data`. -/
theorem blockForWrite_ok {inode : Inode} {index block : ℕ} {d : Dev}
    (h : (blockForWrite e inode index d).1.1 = .ok block) : index < TFS_N_BLOCKS := by
  refine Nat.lt_of_not_le fun hle => ?_
  have h0 : tfsBmap inode index = 0 := by rw [tfsBmap, if_pos hle]
  rw [blockForWrite, h0, if_neg (by decide), if_neg (Nat.not_lt.mpr hle)] at h
  exact absurd h (by rw [DevM.pure_apply]; simp)

theorem within_blockForWriteL (inode : Inode) (index : ℕ) :
    Computes (Within 0) (blockForWriteL e inode index) (blockForWrite e inode index) := by
  rw [blockForWriteL, blockForWrite]
  refine .bind_pure (within_tfsBmapL inode index) ?_ (Within.append (n := 0) le_rfl)
  refine .ite (fun _ => .pure _ (.nil 0)) fun _ => ?_
  rw [Int.add_sub_cancel]
  by_cases hlt : index < TFS_N_BLOCKS
  · rw [if_pos hlt, if_pos (Int.ofNat_lt.mpr hlt)]
    refine within_quiet _ fun block => .ite (fun _ => .pure _ (.nil 0)) fun _ => ?_
    have hset : Computes (Within 0) (setDataL inode index (toU32 block))
        (pure (inode.setData index (toU32 block))) :=
      .visit _ (.data (Int.natCast_nonneg index) (Int.ofNat_lt.mpr hlt))
    exact .bind_pure hset (.pure _ (.nil 0)) (Within.append le_rfl)
  · rw [if_neg hlt, if_neg (mt Int.ofNat_lt.mp hlt)]
    exact .pure _ (.nil 0)

theorem within_copyDataL {n : ℕ} (hn : n ≤ TFS_N_BLOCKS) :
    Computes (Within 0) (copyDataL n) (pure ()) := by
  induction n with
  | zero => exact .pure _ (.nil 0)
  | succ n ih =>
    have hread : Computes (Within 0) (visit (.data n) fun d : Dev => ((), d)) (pure ()) :=
      .visit _ (.data (Int.natCast_nonneg n) (Int.ofNat_lt.mpr hn))
    exact .bind_pure hread (ih (by omega)) (Within.append le_rfl)

theorem within_tfsIwriteL (inode : Inode) :
    Computes (Within 0) (tfsIwriteL e inode) (tfsIwrite e inode) := by
  rw [tfsIwriteL, tfsIwrite]
  refine within_quiet _ fun cs => ?_
  cases cs with
  | none => exact .pure _ (.nil 0)
  | some cs =>
    exact .bind_pure (within_copyDataL le_rfl) (.quiet _ (.nil 0)) (Within.append le_rfl)

theorem within_tfsWriteLoopL (offset : ℕ) (buf : ℕ → UInt8) (blocks index bytesWritten : ℕ)
    (inode : Inode) :
    Computes (Within (TFS_N_BLOCKS - index + 1))
      (tfsWriteLoopL e offset buf blocks index bytesWritten inode)
      (tfsWriteLoop e offset buf blocks index bytesWritten inode) := by
  induction blocks generalizing index bytesWritten inode with
  | zero =>
    rw [tfsWriteLoopL, tfsWriteLoop]
    refine .bind ((within_tfsIwriteL e inode).mono (Within.mono (Nat.zero_le _))) (fun _ => ?_)
      (Within.append (n := 0) le_rfl)
    exact .ite (fun _ => .pure _ (.nil 0)) fun _ => .pure _ (.nil 0)
  | succ blocks ih =>
    rw [tfsWriteLoopL, tfsWriteLoop]
    refine within_round (.bind (within_blockForWriteL e inode index) (fun d => ?_)
      (Within.append (Nat.zero_add _).le))
    have hok : ∀ block, (blockForWrite e inode index d).1.1 = .ok block → index < TFS_N_BLOCKS :=
      fun _ h => blockForWrite_ok e h
    generalize (blockForWrite e inode index d).1 = r at hok ⊢
    obtain ⟨block, inode⟩ := r
    cases block with
    | error err => exact .pure _ (.nil _)
    | ok block =>
      have hlt := hok block rfl
      refine within_quiet _ fun cs => ?_
      cases cs with
      | none => exact .pure _ (.nil _)
      | some cs =>
        refine within_quiet _ fun res => .ite (fun _ => .pure _ (.nil _)) fun _ => ?_
        refine (ih (index + 1) _ _).mono (Within.mono ?_)
        omega

theorem within_tfsWriteL (inode : Inode) {offset : ℕ} (buf : ℕ → UInt8) (blocks : ℤ)
    (hoff : offset < 2 ^ 32) (hshift : 9 ≤ e.sbi.sBlockShift) :
    Computes (Within (TFS_N_BLOCKS + 1)) (tfsWriteL e inode offset buf blocks)
      (tfsWrite e inode offset buf blocks) := by
  rw [tfsWriteL, tfsWrite, firstIndex_eq e hoff hshift]
  refine .ite (fun _ => .pure _ (.nil _)) fun _ => ?_
  refine .bind (within_blockForWriteL e inode _) (fun d => ?_)
    (Within.append (Nat.zero_add _).le)
  obtain ⟨block, inode⟩ := (blockForWrite e inode (offset >>> e.sbi.sBlockShift) d).1
  cases block with
  | error err => exact .pure _ (.nil _)
  | ok block =>
    refine within_quiet _ fun cs => ?_
    cases cs with
    | none => exact .pure _ (.nil _)
    | some cs =>
      refine within_quiet _ fun res => .ite (fun _ => .pure _ (.nil _)) fun _ => ?_
      exact (within_tfsWriteLoopL e offset buf _ (_ + 1) _ _).mono
        (Within.mono (Nat.add_le_add_right (Nat.sub_le _ _) 1))

/-! ### Releasing -/

theorem some_onDev_bind {α β : Type} {x : DevM α} {f : α → DevM β} :
    (some <$> onDev (x >>= f)) = onDev x >>= fun a => some <$> onDev (f a) := rfl

theorem some_onDev_ite {α : Type} {c : Prop} [Decidable c] {a : α} {x : DevM α} :
    (some <$> onDev (if c then pure a else x)) =
      if c then pure (some a) else some <$> onDev x := by
  by_cases hc : c
  · rw [if_pos hc, if_pos hc]
    rfl
  · rw [if_neg hc, if_neg hc]

/-- Enough rounds are one more than there are blocks left. -/
theorem within_releaseLoopL (inode : Inode) {n : ℕ} (index : ℕ) (res : ℤ)
    (hn : TFS_N_BLOCKS - index < n) :
    Computes (Within (TFS_N_BLOCKS - index + 1)) (releaseLoopL e inode n index res)
      (some <$> onDev (releaseLoop e inode (TFS_N_BLOCKS - index) index res)) := by
  induction n generalizing index res with
  | zero => exact absurd hn (Nat.not_lt_zero _)
  | succ n ih =>
    rw [releaseLoopL]
    refine within_round (.bind_pure (within_tfsBmapL inode index) ?_
      (Within.append (Nat.zero_add _).le))
    by_cases h0 : tfsBmap inode index = 0
    · have hend : (some <$> onDev (releaseLoop e inode (TFS_N_BLOCKS - index) index res)) =
          pure (some res) := by
        cases TFS_N_BLOCKS - index with
        | zero => rfl
        | succ left =>
          rw [releaseLoop, if_pos h0]
          rfl
      rw [if_pos h0, hend]
      exact .pure _ (.nil _)
    · have hlt := tfsBmap_ne_zero h0
      have hnext : (some <$> onDev (releaseLoop e inode (TFS_N_BLOCKS - index) index res)) =
          onDev (tfsFreeBlock e (tfsBmap inode index)) >>= fun res =>
            if res < 0 then pure (some res)
            else some <$> onDev
              (releaseLoop e inode (TFS_N_BLOCKS - (index + 1)) (index + 1) res) := by
        rw [show TFS_N_BLOCKS - index = TFS_N_BLOCKS - (index + 1) + 1 by omega, releaseLoop,
          if_neg h0, some_onDev_bind]
        exact bind_congr fun res => some_onDev_ite
      rw [if_neg h0, hnext]
      refine within_quiet _ fun res => .ite (fun _ => .pure _ (.nil _)) fun _ => ?_
      exact (ih (index + 1) res (by omega)).mono (Within.mono (by omega))

/-- **The loop of `tfs_release_inode` ends within `TFS_N_BLOCKS + 1` rounds.** -/
theorem within_tfsReleaseInodeL {n : ℕ} (hn : TFS_N_BLOCKS < n) (obj : ℕ) :
    Computes (Within (TFS_N_BLOCKS + 1)) (tfsReleaseInodeL e n obj)
      (some <$> tfsReleaseInode e obj) := by
  rw [tfsReleaseInodeL, tfsReleaseInode, map_bind]
  refine within_quiet _ fun inode => ?_
  rw [map_bind]
  refine within_quiet _ fun res => ?_
  rw [apply_ite (some <$> ·)]
  refine .ite (fun _ => .pure _ (.nil _)) fun _ => ?_
  rw [map_bind]
  refine within_quiet _ fun inode => ?_
  rw [map_bind]
  refine .bind_map (within_releaseLoopL e inode 0 res hn) (fun res => ?_)
    (Within.append (n := 0) le_rfl)
  exact within_quiet _ fun _ => .pure _ (.nil 0)

/-! ### All three -/

/-- **The loops over the blocks of a file stay inside of `i_data`, and end.** For every file and
every state of the cache and the disk, every environment, every offset and every count. -/
theorem blockLoops_within (hmin : 9 ≤ e.sbi.sBlockShift) :
    (∀ inode offset buf blocks, offset < 2 ^ 32 →
      Computes (Within (TFS_N_BLOCKS + 1)) (tfsReadL e inode offset buf blocks)
        (tfsRead e inode offset buf blocks)) ∧
    (∀ inode offset buf blocks, offset < 2 ^ 32 →
      Computes (Within (TFS_N_BLOCKS + 1)) (tfsWriteL e inode offset buf blocks)
        (tfsWrite e inode offset buf blocks)) ∧
    ∀ n obj, TFS_N_BLOCKS < n →
      Computes (Within (TFS_N_BLOCKS + 1)) (tfsReleaseInodeL e n obj)
        (some <$> tfsReleaseInode e obj) :=
  ⟨fun inode _ buf blocks hoff => within_tfsReadL e inode buf blocks hoff hmin,
    fun inode _ buf blocks hoff => within_tfsWriteL e inode buf blocks hoff hmin,
    fun _ obj hn => within_tfsReleaseInodeL e hn obj⟩

/-- A read of a negative number of blocks, from the last offset there is. -/
theorem blockLoops_within_negative :
    (touched (tfsReadL (Env.quiet (smallSbi 9)) (newInodeValue TFS_FILE) (2 ^ 32 - 1)
      (fun _ => 0) (-1)) Dev.blank).count .round ≤ TFS_N_BLOCKS + 1 :=
  (((blockLoops_within (Env.quiet (smallSbi 9)) (by decide)).1 _ _ (fun _ => 0) (-1)
    (by decide)).touched Dev.blank).2

end Thunix.Fs
