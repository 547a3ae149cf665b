import Thunix.Fs.Syscall
import Thunix.Fs.Volume

/-!
# Reading files

`sys_read` of an open file without holes (`Thunix.Fs.WholeFile`), over blocks with known
contents. `tfs_read` copies whole blocks, from the one that contains the offset, to the
start of the caller's buffer, as many as the bytes wanted fill, and `sys_read` moves them
down by the offset in the first block. So the bytes are the file's, and nothing behind
the caller's buffer is touched, exactly if the blocks copied reach as far as the bytes
wanted and fit in the buffer (`Thunix.Fs.sysRead_reads_iff`).

Chunks of whole blocks, read one after another from the start, always do
(`Thunix.Fs.readChunks_whole`).
-/

namespace Thunix.Fs

variable {e : Env} {S : Set ℕ} {v : ℕ → Buf} {i b : ℕ}

/-! ### Sizes and offsets -/

theorem shiftRight_blockShift {sbi : TfsSbInfo} (h : Mounted sbi) (x : ℕ) :
    x >>> sbi.sBlockShift = x / sbi.sBlockSize := by
  rw [Nat.shiftRight_eq_div_pow, h.size]

theorem and_blockSize {sbi : TfsSbInfo} (h : Mounted sbi) (x : ℕ) :
    x &&& (sbi.sBlockSize - 1) = x % sbi.sBlockSize := by
  rw [h.size, Nat.and_two_pow_sub_one_eq_mod]

/-- How many blocks hold `n` bytes. -/
def blocksOf (bs n : ℕ) : ℕ := (n + bs - 1) / bs

theorem blocksOf_spec {bs n : ℕ} (hbs : 0 < bs) :
    n ≤ blocksOf bs n * bs ∧ (0 < n → blocksOf bs n * bs < n + bs) := by
  have hdiv := Nat.div_add_mod (n + bs - 1) bs
  have hmod := Nat.mod_lt (n + bs - 1) hbs
  rw [Nat.mul_comm] at hdiv
  rw [blocksOf]
  omega

theorem blocksOf_zero {bs : ℕ} (hbs : 0 < bs) : blocksOf bs 0 = 0 := by
  rw [blocksOf, Nat.zero_add]
  exact Nat.div_eq_of_lt (by omega)

theorem blocksOf_pos {bs n : ℕ} (hbs : 0 < bs) (hn : 0 < n) : 0 < blocksOf bs n := by
  refine Nat.pos_of_ne_zero fun h0 => ?_
  have := (blocksOf_spec (n := n) hbs).1
  rw [h0] at this
  omega

/-- The number of blocks the system calls ask for. -/
theorem blocksFor_eq (hm : Mounted e.sbi) {n : ℕ} (hn : n + e.sbi.sBlockSize ≤ 2 ^ 31) :
    blocksFor e n e.sbi.sBlockSize = blocksOf e.sbi.sBlockSize n := by
  have hpos := hm.size_pos
  have hsum : (n : ℤ) + e.sbi.sBlockSize - 1 = ((n + e.sbi.sBlockSize - 1 : ℕ) : ℤ) := by omega
  have hlt : n + e.sbi.sBlockSize - 1 < 2 ^ 31 := by omega
  rw [blocksFor, hsum, toU32, blocksOf, hm.size, Int.shiftRight_eq_div_pow]
  rw [hm.size] at hlt
  have hmod : (((n + 2 ^ e.sbi.sBlockShift - 1 : ℕ) : ℤ) % 2 ^ 32).toNat =
      n + 2 ^ e.sbi.sBlockShift - 1 := by omega
  rw [hmod, toS32, if_pos hlt, Int.natCast_div]

/-! ### Files -/

/-- The bytes of a file. -/
def fileBytes (e : Env) (v : ℕ → Buf) (inode : Inode) (x : ℕ) : UInt8 :=
  v (inode.iData.getD (x / e.sbi.sBlockSize) 0) (x % e.sbi.sBlockSize)

theorem fileBytes_block {inode : Inode} {k x : ℕ} (hx : x < e.sbi.sBlockSize) :
    fileBytes e v inode (k * e.sbi.sBlockSize + x) = v (inode.iData.getD k 0) x := by
  rw [fileBytes, Nat.mul_comm, Nat.mul_add_div (by omega), Nat.div_eq_of_lt hx, Nat.mul_add_mod,
    Nat.mod_eq_of_lt hx, Nat.add_zero]

/-- A file without holes, whose blocks are in `S`. -/
structure WholeFile (e : Env) (S : Set ℕ) (inode : Inode) : Prop where
  size_le : inode.iSize ≤ TFS_N_BLOCKS * e.sbi.sBlockSize
  blksize : inode.iBlksize = e.sbi.sBlockSize
  block_ne : ∀ k, k * e.sbi.sBlockSize < inode.iSize → inode.iData.getD k 0 ≠ 0
  block_mem : ∀ k, k * e.sbi.sBlockSize < inode.iSize → inode.iData.getD k 0 ∈ S

variable {inode : Inode} {f : File}

theorem WholeFile.bmap (hf : WholeFile e S inode) {k : ℕ}
    (hk : k * e.sbi.sBlockSize < inode.iSize) : tfsBmap inode k = inode.iData.getD k 0 := by
  refine if_neg fun hle => ?_
  have h1 := Nat.mul_le_mul_right e.sbi.sBlockSize hle
  have h2 := hf.size_le
  omega

theorem blit_congr {m src src' : ℕ → UInt8} {a count : ℕ} (h : ∀ k < count, src k = src' k) :
    blit m a count src = blit m a count src' := by
  funext x
  by_cases hx : a ≤ x ∧ x < a + count
  · rw [blit_of_mem hx, blit_of_mem hx, h _ (by omega)]
  · rw [blit_of_not_mem hx, blit_of_not_mem hx]

theorem blit_zero (m src : ℕ → UInt8) (a : ℕ) : blit m a 0 src = m := by
  funext x
  exact blit_of_not_mem (by omega)

/-- Two runs of bytes, one behind the other. -/
theorem blit_blit (m src : ℕ → UInt8) (a c c' : ℕ) :
    blit (blit m a c src) (a + c) c' (fun k => src (c + k)) = blit m a (c + c') src := by
  funext x
  by_cases hx : a + c ≤ x ∧ x < a + c + c'
  · rw [blit_of_mem hx, blit_of_mem (by omega)]
    congr 1
    omega
  · rw [blit_of_not_mem hx]
    by_cases hx' : a ≤ x ∧ x < a + c
    · rw [blit_of_mem hx', blit_of_mem (by omega)]
    · rw [blit_of_not_mem hx', blit_of_not_mem (by omega)]

/-! ### `tfs_read` -/

/-- **The loop of `tfs_read`** over blocks of the file. -/
theorem tfsReadLoop_vol (hm : Mounted e.sbi) (hq : Quiet e) (hf : WholeFile e S inode) {n index : ℕ}
    (hblocks : ∀ k, index ≤ k → k < index + n → k * e.sbi.sBlockSize < inode.iSize)
    (m : ℕ) (buf : Buf) :
    Hoare (Vol e S v) (tfsReadLoop e inode n index m buf) fun r d =>
      r = (((m + n * e.sbi.sBlockSize : ℕ) : ℤ), blit buf m (n * e.sbi.sBlockSize)
        fun x => fileBytes e v inode (index * e.sbi.sBlockSize + x)) ∧ Vol e S v d := by
  induction n generalizing index m buf with
  | zero =>
    refine .pure fun d h => ⟨?_, h⟩
    rw [Nat.zero_mul, Nat.add_zero, blit_zero]
  | succ n ih =>
    have hk := hblocks index (le_refl _) (by omega)
    have hpos := hm.size_pos
    rw [tfsReadLoop, hf.bmap hk, if_neg (hf.block_ne index hk)]
    refine request_vol hm hq fun i => dataPtr_holding.bind_eq ?_
    -- the bytes of the buffer are those of the file
    have hread : Hoare (Holding e S v i (inode.iData.getD index 0))
        (readMem fun m k => m (i * e.sbi.sBlockSize + k)) fun bytes d =>
          Vol e S v d ∧ Agree e.sbi.sBlockSize bytes
            fun x => fileBytes e v inode (index * e.sbi.sBlockSize + x) := fun d h => by
      refine ⟨h.1, fun x hx => ?_⟩
      exact (h.agree (hf.block_mem index hk) x hx).trans (fileBytes_block hx).symm
    refine hread.bind fun bytes => Hoare.assume fun hbytes => ?_
    refine (@ih (index + 1) (fun k h1 h2 => hblocks k (by omega) (by omega))
      (m + e.sbi.sBlockSize) _).post fun r d ⟨hr, hd⟩ => ⟨?_, hd⟩
    rw [hr, blit_congr hbytes, show m + (n + 1) * e.sbi.sBlockSize =
      m + e.sbi.sBlockSize + n * e.sbi.sBlockSize by rw [Nat.succ_mul]; omega]
    congr 1
    rw [show (n + 1) * e.sbi.sBlockSize = e.sbi.sBlockSize + n * e.sbi.sBlockSize by
      rw [Nat.succ_mul, Nat.add_comm], ← blit_blit]
    congr 1
    funext x
    rw [Nat.succ_mul, Nat.add_assoc]

/-- The blocks of a file that hold the bytes from `offset` on. -/
theorem block_lt_of_blocksOf {bs n offset size k : ℕ} (hbs : 0 < bs) (hn : 0 < n)
    (hle : offset + n ≤ size) (hk : k < offset / bs + blocksOf bs n) : k * bs < size := by
  have h1 := (blocksOf_spec (n := n) hbs).2 hn
  have h2 := Nat.div_mul_le_self offset bs
  have h3 := Nat.mul_le_mul_right bs (Nat.le_sub_one_of_lt hk)
  rw [Nat.sub_mul, Nat.add_mul] at h3
  omega

/-- **`tfs_read`** of the blocks that `n` bytes fill. -/
theorem tfsRead_vol (hm : Mounted e.sbi) (hq : Quiet e) (hf : WholeFile e S inode) {offset n : ℕ}
    (hn : 0 < n) (hle : offset + n ≤ inode.iSize) (buf : Buf) :
    Hoare (Vol e S v) (tfsRead e inode offset buf (blocksOf e.sbi.sBlockSize n)) fun r d =>
      r = (((blocksOf e.sbi.sBlockSize n * e.sbi.sBlockSize : ℕ) : ℤ),
        blit buf 0 (blocksOf e.sbi.sBlockSize n * e.sbi.sBlockSize) fun x =>
          fileBytes e v inode (offset / e.sbi.sBlockSize * e.sbi.sBlockSize + x)) ∧
            Vol e S v d := by
  have hpos : 0 < e.sbi.sBlockSize := by have := hm.size_pos; omega
  have hb := blocksOf_pos hpos hn
  have hle' := hf.size_le
  have hsize := hm.size_le
  have hlt := (blocksOf_spec (n := n) hpos).2 hn
  have hsmall : blocksOf e.sbi.sBlockSize n < 2 ^ 32 := by
    have := Nat.le_mul_of_pos_right (blocksOf e.sbi.sBlockSize n) hpos
    rw [TFS_N_BLOCKS] at hle'
    omega
  rw [tfsRead, if_neg (by omega), if_neg (by omega), shiftRight_blockShift hm]
  have hU : toU32 (blocksOf e.sbi.sBlockSize n) = blocksOf e.sbi.sBlockSize n := by
    rw [toU32]
    omega
  rw [hU]
  refine (tfsReadLoop_vol hm hq hf (fun k _ hk => block_lt_of_blocksOf hpos hn hle hk) 0 buf).post
    fun r d h => ?_
  rwa [Nat.zero_add] at h

/-! ### `sys_read` -/

/-- The descriptor is open on a file with this inode. -/
structure OpenAt (fd : ℕ) (f : File) (inode : Inode) (k : Kernel) : Prop where
  fd_lt : fd < MAX_FD
  file : k.files fd = some f
  inode : k.objs f.inode = inode

/-- And the blocks have these contents. -/
def OpenVol (e : Env) (S : Set ℕ) (v : ℕ → Buf) (fd : ℕ) (f : File) (inode : Inode) (k : Kernel) :
    Prop := Vol e S v k.dev ∧ OpenAt fd f inode k

variable {fd : ℕ}

theorem fget_open : Hoare (OpenVol e S v fd f inode) (fget e fd) fun r k =>
    r = some (.file f) ∧ OpenVol e S v fd f inode k := fun k h => by
  have hlt := h.2.fd_lt
  have h1 : ¬((fd : ℤ) < 0 ∨ (fd : ℤ) > MAX_FD) := by omega
  have h2 : ¬((fd : ℤ) = MAX_FD) := by omega
  rw [fget, if_neg h1, if_neg h2, Int.toNat_natCast, h.2.file]
  exact ⟨rfl, h⟩

theorem inodeAt_open : Hoare (OpenVol e S v fd f inode) (inodeAt f.inode) fun r k =>
    r = inode ∧ OpenVol e S v fd f inode k := fun k h => by
  rw [inodeAt, KernelM.bind_apply, touch]
  by_cases ha : k.alive f.inode
  · rw [if_pos ha]
    exact ⟨h.2.inode, h⟩
  · rw [if_neg ha]
    exact ⟨h.2.inode, h.1, h.2.fd_lt, h.2.file, h.2.inode⟩

/-- A computation on the blocks leaves the descriptor alone. -/
theorem onDev_open {α : Type} {x : DevM α} {Q : α → Dev → Prop} {v' : ℕ → Buf}
    (h : Hoare (Vol e S v) x fun r d => Q r d ∧ Vol e S v' d) :
    Hoare (OpenVol e S v fd f inode) (onDev x) fun r k =>
      Q r k.dev ∧ OpenVol e S v' fd f inode k := fun k hk => by
  obtain ⟨hq, hv⟩ := h k.dev hk.1
  exact ⟨hq, hv, hk.2.fd_lt, hk.2.file, hk.2.inode⟩

theorem setOffset_open (offset : ℕ) : Hoare (OpenVol e S v fd f inode) (setOffset fd offset)
    fun _ k => OpenVol e S v fd { f with offset := offset } inode k := fun k h => by
  refine ⟨h.1, h.2.fd_lt, ?_, h.2.inode⟩
  change Function.update k.files fd _ fd = _
  rw [Function.update_self, h.2.file]
  rfl

/-- The caller's buffer after a read of `n` bytes: the blocks copied, and the bytes moved
down in them. -/
def readInto (e : Env) (v : ℕ → Buf) (inode : Inode) (offset n : ℕ) (buf : Buf) : Buf :=
  let bs := e.sbi.sBlockSize
  let copied := blit buf 0 (blocksOf bs n * bs) fun x =>
    fileBytes e v inode (offset / bs * bs + x)
  blit copied 0 n fun x => copied (x + offset % bs)

theorem readInto_zero (hpos : 0 < e.sbi.sBlockSize) (offset : ℕ) (buf : Buf) :
    readInto e v inode offset 0 buf = buf := by
  rw [readInto, blocksOf_zero hpos, Nat.zero_mul, blit_zero, blit_zero]

/-- The bytes that `sys_read` needs are counted right. -/
theorem bytesNeed_eq (hm : Mounted e.sbi) (hf : WholeFile e S inode) {size n : ℕ}
    (hsize : size < 2 ^ 31) (hoff : f.offset ≤ inode.iSize)
    (hn : n = min size (inode.iSize - f.offset)) :
    toS32 (min (toU32 size) (toU32 ((inode.iSize : ℤ) - f.offset))) = n := by
  have hle := hf.size_le
  have hbs := hm.size_le
  rw [TFS_N_BLOCKS] at hle
  rw [toU32, toU32, toS32]
  split <;> omega

/-- And so are their blocks. -/
theorem WholeFile.blocksFor_eq (hf : WholeFile e S inode) (hm : Mounted e.sbi) {n : ℕ}
    (hn : n ≤ inode.iSize) : blocksFor e n inode.iBlksize = blocksOf e.sbi.sBlockSize n := by
  have hle := hf.size_le
  have hbs := hm.size_le
  rw [TFS_N_BLOCKS] at hle
  rw [hf.blksize]
  exact Fs.blocksFor_eq hm (by omega)

/-- What is skipped is what the offset has in the first block. -/
theorem WholeFile.skip_eq (hf : WholeFile e S inode) (hm : Mounted e.sbi) (offset : ℕ) :
    offset &&& toU32 (inode.iBlksize - 1) = offset % e.sbi.sBlockSize := by
  have hpos := hm.size_pos
  have hbs := hm.size_le
  have hU : toU32 ((e.sbi.sBlockSize : ℤ) - 1) = e.sbi.sBlockSize - 1 := by
    rw [toU32]
    omega
  rw [hf.blksize, hU, and_blockSize hm]

/-- **What `sys_read` does**, whatever the offset and the size. -/
theorem sysRead_vol (hm : Mounted e.sbi) (hq : Quiet e) (hf : WholeFile e S inode) {size n : ℕ}
    (hsize : size < 2 ^ 31) (hoff : f.offset ≤ inode.iSize)
    (hn : n = min size (inode.iSize - f.offset)) (buf : Buf) :
    Hoare (OpenVol e S v fd f inode) (sysRead e fd buf size) fun r k =>
      r = ((n : ℤ), readInto e v inode f.offset n buf) ∧
      OpenVol e S v fd { f with offset := f.offset + n } inode k := by
  have hpos : 0 < e.sbi.sBlockSize := by have := hm.size_pos; omega
  have hle := hf.size_le
  have hbs := hm.size_le
  rw [TFS_N_BLOCKS] at hle
  have hneed := bytesNeed_eq hm hf hsize hoff hn
  have hblocks : blocksFor e n inode.iBlksize = blocksOf e.sbi.sBlockSize n :=
    hf.blocksFor_eq hm (by omega)
  refine fget_open.bind_eq (inodeAt_open.bind_eq ?_)
  dsimp only
  rw [hneed, hblocks]
  by_cases h0 : n = 0
  · -- nothing is asked for
    rw [h0, blocksOf_zero hpos]
    have hread : Hoare (OpenVol e S v fd f inode)
        (onDev (tfsRead e inode f.offset buf ((0 : ℕ) : ℤ))) fun r k =>
          r = ((0 : ℤ), buf) ∧ OpenVol e S v fd f inode k := fun k h => ⟨rfl, h⟩
    refine hread.bind_eq (.pure fun k h => ⟨?_, h⟩)
    rw [readInto_zero hpos]
    rfl
  · have hge := (blocksOf_spec (n := n) hpos).1
    refine (onDev_open (tfsRead_vol hm hq hf (by omega) (by omega) buf)).bind_eq ?_
    have hmin : minInt n (blocksOf e.sbi.sBlockSize n * e.sbi.sBlockSize : ℕ) = n := by
      rw [minInt]
      split <;> omega
    have hskip := hf.skip_eq hm f.offset
    have hoffset : toU32 ((f.offset : ℤ) + n) = f.offset + n := by
      rw [toU32]
      omega
    dsimp only
    rw [hmin, if_pos (by omega), hskip, hoffset]
    refine (setOffset_open _).bind fun _ => .pure fun k h => ⟨?_, h⟩
    rfl

/-! ### When a read is right -/

/-- The blocks copied for `n` bytes reach as far as the bytes wanted, and fit in a buffer of
`size` bytes. -/
def ReadFits (bs offset n size : ℕ) : Prop :=
  n = 0 ∨ (offset % bs + n ≤ blocksOf bs n * bs ∧ blocksOf bs n * bs ≤ size)

instance {bs offset n size : ℕ} : Decidable (ReadFits bs offset n size) :=
  inferInstanceAs (Decidable (_ ∨ _))

theorem exists_ne_byte (x : UInt8) : ∃ y, y ≠ x := by
  by_cases hx : x = 0
  · exact ⟨1, by rw [hx]; decide⟩
  · exact ⟨0, fun h => hx h.symm⟩

/-- The bytes moved down are those of the file, if the blocks reach as far. -/
theorem readInto_of_lt {offset n j : ℕ} {buf : Buf} (hj : j < n)
    (hreach : offset % e.sbi.sBlockSize + n ≤ blocksOf e.sbi.sBlockSize n * e.sbi.sBlockSize) :
    readInto e v inode offset n buf j = fileBytes e v inode (offset + j) := by
  have hdiv := Nat.div_add_mod offset e.sbi.sBlockSize
  rw [Nat.mul_comm] at hdiv
  rw [readInto, blit_of_mem (by omega), blit_of_mem (by omega)]
  congr 1
  omega

/-- Behind the bytes wanted there are those of the blocks, and behind these the caller's. -/
theorem readInto_of_ge {offset n x : ℕ} {buf : Buf} (hx : n ≤ x) :
    readInto e v inode offset n buf x =
      if x < blocksOf e.sbi.sBlockSize n * e.sbi.sBlockSize then
        fileBytes e v inode (offset / e.sbi.sBlockSize * e.sbi.sBlockSize + x) else buf x := by
  rw [readInto, blit_of_not_mem (by omega)]
  by_cases hlt : x < blocksOf e.sbi.sBlockSize n * e.sbi.sBlockSize
  · rw [if_pos hlt, blit_of_mem (by omega), Nat.sub_zero]
  · rw [if_neg hlt, blit_of_not_mem (by omega)]

/-- **When the buffer is right**, whatever it held before. -/
theorem readInto_iff (hpos : 0 < e.sbi.sBlockSize) {offset n size : ℕ} (hn : n ≤ size) :
    (∀ buf, (∀ j < n, readInto e v inode offset n buf j = fileBytes e v inode (offset + j)) ∧
      ∀ x, size ≤ x → readInto e v inode offset n buf x = buf x) ↔
      ReadFits e.sbi.sBlockSize offset n size := by
  constructor
  · intro h
    by_contra hfits
    rw [ReadFits, not_or] at hfits
    obtain ⟨hn0, hfits⟩ := hfits
    have hmod := Nat.mod_lt offset hpos
    have hblocks := Nat.le_mul_of_pos_left e.sbi.sBlockSize
      (blocksOf_pos hpos (Nat.pos_of_ne_zero hn0))
    by_cases hreach : offset % e.sbi.sBlockSize + n ≤ blocksOf e.sbi.sBlockSize n * e.sbi.sBlockSize
    · -- the byte behind the buffer is overwritten
      have hsize : size < blocksOf e.sbi.sBlockSize n * e.sbi.sBlockSize :=
        Nat.lt_of_not_le fun hle => hfits ⟨hreach, hle⟩
      obtain ⟨y, hy⟩ := exists_ne_byte
        (fileBytes e v inode (offset / e.sbi.sBlockSize * e.sbi.sBlockSize + size))
      have := (h fun _ => y).2 size (le_refl _)
      rw [readInto_of_ge hn, if_pos hsize] at this
      exact hy this.symm
    · -- the first byte wanted that has not been copied
      obtain ⟨j, hj⟩ := Nat.exists_eq_add_of_le (hmod.le.trans hblocks)
      obtain ⟨y, hy⟩ := exists_ne_byte (fileBytes e v inode (offset + j))
      have := (h fun _ => y).1 j (by omega)
      rw [readInto, blit_of_mem (by omega), blit_of_not_mem (by omega)] at this
      exact hy this
  · rintro (rfl | ⟨hreach, hsize⟩) buf
    · exact ⟨fun j hj => absurd hj (Nat.not_lt_zero j), fun x _ => by rw [readInto_zero hpos]⟩
    · refine ⟨fun j hj => readInto_of_lt hj hreach, fun x hx => ?_⟩
      rw [readInto_of_ge (by omega), if_neg (by omega)]

/-- What is promised of `sys_read`, whatever the caller's buffer holds: the number of bytes
there are, those of the file, the new offset, and nothing behind the buffer. -/
def ReadsFile (e : Env) (v : ℕ → Buf) (fd size n : ℕ) (f : File) (inode : Inode) (k : Kernel) :
    Prop :=
  ∀ buf, (sysRead e fd buf size k).1.1 = n ∧
    (∀ j < n, (sysRead e fd buf size k).1.2 j = fileBytes e v inode (f.offset + j)) ∧
    (sysRead e fd buf size k).2.files fd = some { f with offset := f.offset + n } ∧
    ∀ x, size ≤ x → (sysRead e fd buf size k).1.2 x = buf x

/-- The promise is one about the buffer only. -/
theorem readsFile_iff_readInto (hm : Mounted e.sbi) (hq : Quiet e) (hf : WholeFile e S inode)
    {k : Kernel} (h : OpenVol e S v fd f inode k) {size n : ℕ} (hsize : size < 2 ^ 31)
    (hoff : f.offset ≤ inode.iSize) (hn : n = min size (inode.iSize - f.offset)) :
    ReadsFile e v fd size n f inode k ↔ ∀ buf,
      (∀ j < n, readInto e v inode f.offset n buf j = fileBytes e v inode (f.offset + j)) ∧
      ∀ x, size ≤ x → readInto e v inode f.offset n buf x = buf x := by
  refine forall_congr' fun buf => ?_
  obtain ⟨hr, hk⟩ := sysRead_vol hm hq hf hsize hoff hn buf k h
  rw [hr]
  exact ⟨fun h => ⟨h.2.1, h.2.2.2⟩, fun h => ⟨rfl, h.1, hk.2.file, h.2⟩⟩

/-- **`sys_read` is right exactly if the blocks it copies reach as far as the bytes wanted
and fit in the caller's buffer.** -/
theorem sysRead_reads_iff (hm : Mounted e.sbi) (hq : Quiet e) (hf : WholeFile e S inode)
    {k : Kernel} (h : OpenVol e S v fd f inode k) {size : ℕ} (hsize : size < 2 ^ 31)
    (hoff : f.offset ≤ inode.iSize) :
    ReadsFile e v fd size (min size (inode.iSize - f.offset)) f inode k ↔
      ReadFits e.sbi.sBlockSize f.offset (min size (inode.iSize - f.offset)) size := by
  rw [readsFile_iff_readInto hm hq hf h hsize hoff rfl]
  exact readInto_iff (by have := hm.size_pos; omega) (Nat.min_le_left _ _)

/-- A file of two blocks of the small volume. -/
def twoBlocks : Inode where
  iMode := TFS_FILE
  iSize := 1024
  iIno := 2
  iAtime := 0
  iMtime := 0
  iCtime := 0
  iDtime := 0
  iData := [6, 7, 0, 0, 0, 0, 0, 0]
  iFlags := 0
  iBlksize := 512
  iData_length := rfl

/-- It is open at this offset. -/
def openTwoBlocks (offset : ℕ) : Kernel :=
  { bootKernel (Env.quiet (smallSbi 9)) formatted with
    objs := fun _ => twoBlocks
    files := fun _ => some { inode := 0, offset } }

theorem quiet_quiet (sbi : TfsSbInfo) : Quiet (Env.quiet sbi) := fun _ => rfl

theorem mounted_small : Mounted (Env.quiet (smallSbi 9)).sbi := ⟨rfl, rfl, by decide, by decide⟩

theorem wholeFile_twoBlocks : WholeFile (Env.quiet (smallSbi 9)) {6, 7} twoBlocks := by
  have hk : ∀ k, k * 512 < 1024 → k = 0 ∨ k = 1 := fun k h => by omega
  refine ⟨by decide, rfl, fun k h => ?_, fun k h => ?_⟩
  · obtain rfl | rfl := hk k h <;> decide
  · obtain rfl | rfl := hk k h <;> simp [twoBlocks]

theorem openVol_twoBlocks (offset : ℕ) : OpenVol (Env.quiet (smallSbi 9)) {6, 7}
    (diskBlock (smallSbi 9) formatted.disk) 0 { inode := 0, offset } twoBlocks
    (openTwoBlocks offset) :=
  ⟨vol_cacheInit mounted_small (by decide) formatted, by decide, rfl, rfl⟩

/-- **A read across a block boundary.** Of 512 bytes from offset 256 of the file, the second
half is not read. -/
theorem not_readsFile : ¬ReadsFile (Env.quiet (smallSbi 9)) (diskBlock (smallSbi 9) formatted.disk)
    0 512 512 { inode := 0, offset := 256 } twoBlocks (openTwoBlocks 256) := by
  intro h
  have hall := (readsFile_iff_readInto mounted_small (quiet_quiet _) wholeFile_twoBlocks
    (openVol_twoBlocks 256) (by decide) (by decide) (by decide)).mp h
  exact absurd ((readInto_iff (by decide) (le_refl _)).mp hall) (by decide)

/-- The whole file into a buffer of its size. -/
theorem sysRead_reads_iff_twoBlocks :
    ReadsFile (Env.quiet (smallSbi 9)) (diskBlock (smallSbi 9) formatted.disk) 0 1024 1024
      { inode := 0, offset := 0 } twoBlocks (openTwoBlocks 0) ↔ ReadFits 512 0 1024 1024 :=
  sysRead_reads_iff mounted_small (quiet_quiet _) wholeFile_twoBlocks (openVol_twoBlocks 0)
    (by decide) (by decide)

/-! ### Chunk after chunk -/

/-- Calls of `sys_read` for `c` bytes, until one returns 0 or less: the results, with the
caller's buffer after each call, which held `bufs t` before call `t`. -/
def readChunks (e : Env) (fd : ℕ) (c : ℕ) (bufs : ℕ → Buf) : ℕ → ℕ → KernelM (List (ℤ × Buf))
  | 0, _ => pure []
  | fuel + 1, t => do
    let r ← sysRead e fd (bufs t) c
    if r.1 ≤ 0 then pure [r]
    else do
      let rs ← readChunks e fd c bufs fuel (t + 1)
      pure (r :: rs)

/-- The bytes a call has read. -/
def taken (r : ℤ × Buf) : List UInt8 := (List.range r.1.toNat).map r.2

/-- The bytes of a file from an offset on. -/
def bytesFrom (e : Env) (v : ℕ → Buf) (inode : Inode) (offset : ℕ) : List UInt8 :=
  (List.range (inode.iSize - offset)).map fun j => fileBytes e v inode (offset + j)

/-- The results of a loop that has come to the end of the file. -/
structure ReadAll (c : ℕ) (bufs : ℕ → Buf) (t : ℕ) (bytes : List UInt8) (rs : List (ℤ × Buf)) :
    Prop where
  last : rs.getLast?.map Prod.fst = some 0
  bytes : rs.flatMap taken = bytes
  buffer : ∀ k r, rs[k]? = some r → ∀ x, c ≤ x → r.2 x = bufs (t + k) x

/-- A file is read up to a place and from there. -/
theorem bytesFrom_append {offset n : ℕ} (h : offset + n ≤ inode.iSize) :
    bytesFrom e v inode offset =
      ((List.range n).map fun j => fileBytes e v inode (offset + j)) ++
        bytesFrom e v inode (offset + n) := by
  rw [bytesFrom, bytesFrom, show inode.iSize - offset = n + (inode.iSize - (offset + n)) by omega,
    List.range_add, List.map_append, List.map_map]
  congr 2
  funext j
  exact congrArg _ (Nat.add_assoc _ _ _).symm

/-- Whole blocks from the start of a block reach as far as any bytes wanted of them. -/
theorem readFits_of_dvd {bs offset n c : ℕ} (hbs : 0 < bs) (hc : bs ∣ c) (hn : n ≤ c)
    (hoff : n = 0 ∨ bs ∣ offset) : ReadFits bs offset n c := by
  rcases Nat.eq_zero_or_pos n with rfl | hpos
  · exact .inl rfl
  · have hmod : offset % bs = 0 := Nat.mod_eq_zero_of_dvd (hoff.resolve_left hpos.ne')
    obtain ⟨h1, h2⟩ := blocksOf_spec (n := n) hbs
    refine .inr ⟨by omega, ?_⟩
    obtain ⟨q, rfl⟩ := hc
    have hlt : blocksOf bs n * bs < (q + 1) * bs := by
      rw [Nat.succ_mul, Nat.mul_comm q]
      have := h2 hpos
      omega
    have hle := Nat.le_of_lt_succ (lt_of_mul_lt_mul_right hlt (Nat.zero_le bs))
    have := Nat.mul_le_mul_right bs hle
    rwa [Nat.mul_comm q] at this

/-- **The loop**, from an offset that is the start of a chunk or the end of the file. The
induction is on the calls allowed. -/
theorem readChunks_vol (hm : Mounted e.sbi) (hq : Quiet e) (hf : WholeFile e S inode) {c : ℕ}
    (hc : 0 < c) (hdvd : e.sbi.sBlockSize ∣ c) (hc31 : c < 2 ^ 31) (bufs : ℕ → Buf) {fuel : ℕ}
    (t offset : ℕ) (hoff : offset ≤ inode.iSize) (hstart : offset = inode.iSize ∨ c ∣ offset)
    (hfuel : inode.iSize - offset + c ≤ fuel * c) :
    Hoare (OpenVol e S v fd { f with offset := offset } inode) (readChunks e fd c bufs fuel t)
      fun rs _ => ReadAll c bufs t (bytesFrom e v inode offset) rs := by
  have hpos : 0 < e.sbi.sBlockSize := by have := hm.size_pos; omega
  induction fuel generalizing t offset with
  | zero => omega
  | succ fuel ih =>
    obtain ⟨n, hn⟩ : ∃ n, n = min c (inode.iSize - offset) := ⟨_, rfl⟩
    have hread : Hoare (OpenVol e S v fd { f with offset := offset } inode)
        (sysRead e fd (bufs t) c) fun r k => r = ((n : ℤ), readInto e v inode offset n (bufs t)) ∧
          OpenVol e S v fd { f with offset := offset + n } inode k :=
      sysRead_vol hm hq hf hc31 hoff hn (bufs t)
    have hfits : ReadFits e.sbi.sBlockSize offset n c := by
      refine readFits_of_dvd hpos hdvd (by omega) ?_
      rcases hstart with h | h
      · exact .inl (by omega)
      · exact .inr (hdvd.trans h)
    obtain ⟨hbytes, hbuf⟩ : (∀ j < n, readInto e v inode offset n (bufs t) j =
        fileBytes e v inode (offset + j)) ∧
        ∀ x, c ≤ x → readInto e v inode offset n (bufs t) x = bufs t x :=
      (readInto_iff hpos (by omega)).mpr hfits (bufs t)
    have htaken : taken ((n : ℤ), readInto e v inode offset n (bufs t)) =
        (List.range n).map fun j => fileBytes e v inode (offset + j) :=
      List.map_congr_left fun j hj => hbytes j (List.mem_range.mp hj)
    refine hread.bind_eq (.ite (fun hle => .pure fun k _ => ?_) fun hgt => ?_)
    · -- the end of the file
      have h0 : n = 0 := by
        have : (n : ℤ) ≤ 0 := hle
        omega
      subst h0
      refine ⟨rfl, ?_, fun k r hr x hx => ?_⟩
      · rw [List.flatMap_singleton, htaken, bytesFrom, show inode.iSize - offset = 0 by omega]
      · obtain ⟨rfl, rfl⟩ : k = 0 ∧ _ := by simpa [List.getElem?_singleton] using hr
        exact hbuf x hx
    · have hn0 : 0 < n := by
        have : ¬(n : ℤ) ≤ 0 := hgt
        omega
      rw [Nat.succ_mul] at hfuel
      refine (ih (t + 1) (offset + n) (by omega) ?_ ?_).bind fun rs => .pure fun k h => ?_
      · by_cases hlt : inode.iSize - offset ≤ c
        · exact .inl (by omega)
        · rcases hstart with h | h
          · omega
          · refine .inr ?_
            rw [show n = c by omega]
            exact Nat.dvd_add h (dvd_refl c)
      · by_cases hlt : c ≤ inode.iSize - offset
        · omega
        · have : 1 ≤ fuel := Nat.pos_of_ne_zero fun h0 => by
            rw [h0] at hfuel
            omega
          have := Nat.mul_le_mul_right c this
          omega
      · refine ⟨?_, ?_, fun j r hr x hx => ?_⟩
        · obtain ⟨r, hr⟩ : ∃ r, rs.getLast? = some r := by
            cases hrs : rs.getLast? with
            | none =>
              have := h.last
              rw [hrs] at this
              cases this
            | some r => exact ⟨r, rfl⟩
          rw [List.getLast?_cons, hr, Option.getD_some, ← h.last, hr]
        · rw [List.flatMap_cons, htaken, h.bytes, ← bytesFrom_append (by omega)]
        · cases j with
          | zero =>
            obtain rfl := Option.some.inj hr
            exact hbuf x hx
          | succ j =>
            have := h.buffer j r hr x hx
            rwa [Nat.add_assoc, Nat.add_comm 1] at this

/-- **Sequential reading reproduces the file.** With chunks of whole blocks, from offset 0,
the loop ends with a result of 0, the bytes read are those of the file, and no call
changes the caller's buffer behind the chunk. -/
theorem readChunks_whole (hm : Mounted e.sbi) (hq : Quiet e) (hf : WholeFile e S inode) {c : ℕ}
    (hc : 0 < c) (hdvd : e.sbi.sBlockSize ∣ c) (hc31 : c < 2 ^ 31) {k : Kernel}
    (h : OpenVol e S v fd f inode k) (h0 : f.offset = 0) (bufs : ℕ → Buf) {fuel : ℕ}
    (hfuel : inode.iSize / c + 2 ≤ fuel) :
    ReadAll c bufs 0 ((List.range inode.iSize).map (fileBytes e v inode))
      (readChunks e fd c bufs fuel 0 k).1 := by
  have hmul := Nat.mul_le_mul_right c hfuel
  have hdiv := Nat.div_add_mod inode.iSize c
  have hmod := Nat.mod_lt inode.iSize hc
  rw [Nat.add_mul, Nat.mul_comm _ c] at hmul
  have hk : OpenVol e S v fd { f with offset := 0 } inode k := by
    rw [← h0]
    exact h
  have hall := readChunks_vol hm hq hf hc hdvd hc31 bufs 0 0 (Nat.zero_le _) (.inr (dvd_zero c))
    (by omega : inode.iSize - 0 + c ≤ fuel * c) k hk
  rw [bytesFrom, Nat.sub_zero] at hall
  simpa only [Nat.zero_add] using hall

/-- The file of two blocks, in chunks of its size. -/
theorem readChunks_whole_twoBlocks :
    ReadAll 1024 (fun _ _ => 0) 0
      ((List.range 1024).map
        (fileBytes (Env.quiet (smallSbi 9)) (diskBlock (smallSbi 9) formatted.disk) twoBlocks))
      (readChunks (Env.quiet (smallSbi 9)) 0 1024 (fun _ _ => 0) 3 0
        (openTwoBlocks 0)).1 :=
  readChunks_whole mounted_small (quiet_quiet _) wholeFile_twoBlocks (by decide) (by decide)
    (by decide) (openVol_twoBlocks 0) rfl _ (by decide)

end Thunix.Fs
