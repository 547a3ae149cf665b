import Thunix.Fs.WriteFile
import Thunix.Lib.Pieces
import Thunix.Lib.Run

/-!
# Files as arrays

Writes of whole blocks, at starts of blocks, put pieces over the bytes of a file
(`Thunix.Piece`). As long as every write reaches as far as the file it is an array written
piece by piece, and so it is read back (`Thunix.Fs.writes_array`). A write that ends
before the end of the file cuts it off (`Thunix.Fs.not_writes_array`).
-/

namespace Thunix.Fs

variable {e : Env} {S : Set ℕ} {v v' : ℕ → Buf} {inode inode' : Inode} {fd : ℕ} {f : File}

/-! ### Writes -/

/-- `sys_lseek(fd, start, SEEK_SET)` and a `sys_write` of the piece, if it writes all of it;
with the pieces written so far. -/
def writePiece (e : Env) (fd : ℕ) (s : Kernel × List (Piece UInt8)) (p : Piece UInt8) :
    Option (Kernel × List (Piece UInt8)) :=
  let k := (sysLseek e fd p.start 0 s.1).2
  if (sysWrite e fd p.data p.len k).1 = p.len then
    some ((sysWrite e fd p.data p.len k).2, s.2 ++ [p])
  else none

/-- The piece is some whole blocks, at the start of a block that the file reaches. -/
def Aligned (e : Env) (obj : ℕ) (s : Kernel × List (Piece UInt8)) (p : Piece UInt8) : Prop :=
  e.sbi.sBlockSize ∣ p.start ∧ e.sbi.sBlockSize ∣ p.len ∧ 0 < p.len ∧ p.len < 2 ^ 31 ∧
    p.start ≤ (s.1.objs obj).iSize

/-- And it reaches as far as the file. -/
def Reaching (e : Env) (obj : ℕ) (s : Kernel × List (Piece UInt8)) (p : Piece UInt8) : Prop :=
  Aligned e obj s p ∧ (s.1.objs obj).iSize ≤ p.stop

/-- The file holds an array: its length and its bytes. -/
structure HoldsArray (e : Env) (S : Set ℕ) (v₀ : ℕ → Buf) (inode₀ : Inode) (v : ℕ → Buf)
    (inode : Inode) (n : ℕ) (bytes : ℕ → UInt8) : Prop where
  whole : WholeFile e S inode
  file : FileOn e S inode
  free : FreeOn e S v₀ inode₀ → FreeOn e S v inode
  keep : ∀ k, inode₀.iData.getD k 0 ≠ 0 → inode.iData.getD k 0 ≠ 0
  size : inode.iSize = n
  bytes : ∀ x < n, fileBytes e v inode x = bytes x

theorem sysLseek_open {offset : ℕ} (hlt : offset < 2 ^ 31) :
    Hoare (OpenVol e S v fd f inode) (sysLseek e fd offset 0) fun _ k =>
      OpenVol e S v fd { f with offset := offset } inode k := by
  refine fget_open.bind_eq ?_
  have hU : toU32 offset = offset := toU32_natCast (by omega)
  have hset : Hoare (OpenVol e S v fd f inode) (setOffset fd offset) fun _ k =>
    OpenVol e S v fd { f with offset := offset } inode k := setOffset_open offset
  refine Hoare.bind ?_ fun _ => .pure fun k h => h
  rw [hU, Int.toNat_natCast]
  exact hset

/-- The extent of a write of whole blocks from the start of a block. -/
theorem extent_aligned (hpos : 0 < e.sbi.sBlockSize) {offset size : ℕ}
    (hoff : e.sbi.sBlockSize ∣ offset) (hsize : e.sbi.sBlockSize ∣ size) (h0 : 0 < size) :
    extent e offset size = size ∧ blocksOf e.sbi.sBlockSize size * e.sbi.sBlockSize = size := by
  obtain ⟨h1, h2⟩ := blocksOf_spec (n := size) hpos
  obtain ⟨q, rfl⟩ := hsize
  have hlt : blocksOf e.sbi.sBlockSize (e.sbi.sBlockSize * q) * e.sbi.sBlockSize <
      (q + 1) * e.sbi.sBlockSize := by
    have := h2 h0
    rwa [Nat.succ_mul, Nat.mul_comm q]
  have hq : blocksOf e.sbi.sBlockSize (e.sbi.sBlockSize * q) = q := by
    refine Nat.le_antisymm (Nat.le_of_lt_succ (lt_of_mul_lt_mul_right hlt (Nat.zero_le _))) ?_
    refine Nat.le_of_mul_le_mul_right ?_ hpos
    rwa [Nat.mul_comm q]
  rw [extent, hq, Nat.mod_eq_zero_of_dvd hoff, Nat.sub_zero, Nat.mul_comm]
  exact ⟨rfl, rfl⟩

/-- **A write that reaches as far as the file** puts a piece over the array. -/
theorem HoldsArray.written (hpos : 0 < e.sbi.sBlockSize) {v₀ : ℕ → Buf} {inode₀ : Inode} {n : ℕ}
    {bytes : ℕ → UInt8} (h : HoldsArray e S v₀ inode₀ v inode n bytes) {p : Piece UInt8}
    (hroom : p.stop ≤ TFS_N_BLOCKS * e.sbi.sBlockSize) (h0 : 0 < p.len)
    (hw : Written e S v inode p.start p.data p.len v' inode') (hstart : p.start ≤ n)
    (hreach : n ≤ p.stop) :
    HoldsArray e S v₀ inode₀ v' inode' (max n p.stop) (p.over bytes) := by
  have hsize : inode'.iSize = p.stop := by rw [hw.size, if_neg h0.ne', Piece.stop]
  have hthere : ∀ x < p.stop, inode'.iData.getD (x / e.sbi.sBlockSize) 0 ≠ 0 := fun x hx => by
    by_cases hlt : x < p.start
    · have hold := h.whole.block_ne (x / e.sbi.sBlockSize) <| by
        rw [h.size]
        exact lt_of_le_of_lt (Nat.div_mul_le_self _ _) (lt_of_lt_of_le hlt hstart)
      rw [hw.keep _ hold]
      exact hold
    · exact hw.there x (Nat.le_of_not_lt hlt) hx
  have hblock : ∀ k, k * e.sbi.sBlockSize < inode'.iSize → inode'.iData.getD k 0 ≠ 0 :=
    fun k hk => by
    have := hthere (k * e.sbi.sBlockSize) (hsize ▸ hk)
    rwa [Nat.mul_div_cancel _ hpos] at this
  refine ⟨⟨by rw [hsize]; exact hroom, hw.file.blksize, hblock, fun k hk =>
    hw.file.mem k (hblock k hk)⟩,
    hw.file, fun hfree => hw.free (h.free hfree), fun k hk => ?_, ?_, fun x hx => ?_⟩
  · rw [hw.keep k (h.keep k hk)]
    exact h.keep k hk
  · rw [hsize, Nat.max_eq_right hreach]
  · rw [Nat.max_eq_right hreach] at hx
    have hin : inode.iData.getD (x / e.sbi.sBlockSize) 0 ≠ 0 ∨
        (p.start ≤ x ∧ x < p.start + p.len) := by
      by_cases hlt : x < p.start
      · exact .inl (h.whole.block_ne _ (by
          rw [h.size]
          exact lt_of_le_of_lt (Nat.div_mul_le_self _ _) (lt_of_lt_of_le hlt hstart)))
      · exact .inr ⟨Nat.le_of_not_lt hlt, hx⟩
    rw [hw.bytes x hin, Piece.over]
    by_cases hcov : p.Covers x
    · rw [if_pos hcov, if_pos (show p.start ≤ x ∧ x < p.start + p.len from hcov)]
    · rw [if_neg hcov, if_neg (show ¬(p.start ≤ x ∧ x < p.start + p.len) from hcov)]
      refine h.bytes x ?_
      by_contra hge
      exact hcov ⟨by omega, hx⟩

/-! ### Runs -/

section Runs

variable (hm : Mounted e.sbi) (hq : Quiet e) (hap : Apart e S) {v₀ : ℕ → Buf} {inode₀ : Inode}
  (hnew : ∀ k < TFS_N_BLOCKS, inode₀.iData.getD k 0 = 0 → FreeOn e S v₀ inode₀)

/-- The state of a run: the file is open, and holds the array of the pieces written. -/
def ArrayState (e : Env) (S : Set ℕ) (v₀ : ℕ → Buf) (inode₀ : Inode) (fd obj : ℕ)
    (s : Kernel × List (Piece UInt8)) : Prop :=
  ∃ v f, f.inode = obj ∧ OpenVol e S v fd f (s.1.objs obj) s.1 ∧
    HoldsArray e S v₀ inode₀ v (s.1.objs obj) (reach inode₀.iSize s.2)
      (overlay (fileBytes e v₀ inode₀) s.2)

include hm hq hap hnew

/-- **A step of a run.** -/
theorem ArrayState.step {obj : ℕ} {s s' : Kernel × List (Piece UInt8)} {p : Piece UInt8}
    (h : ArrayState e S v₀ inode₀ fd obj s) (hok : Reaching e obj s p)
    (hstep : writePiece e fd s p = some s') : ArrayState e S v₀ inode₀ fd obj s' := by
  obtain ⟨v, f, rfl, hopen, harr⟩ := h
  obtain ⟨⟨hdstart, hdlen, h0, hlen, hstart⟩, hreach⟩ := hok
  have hpos : 0 < e.sbi.sBlockSize := by have := hm.size_pos; omega
  have hsize := harr.whole.size_le
  have hle := hm.size_le
  rw [TFS_N_BLOCKS] at hsize
  obtain ⟨hext, hblocks⟩ := extent_aligned hpos hdstart hdlen h0
  have hseek := sysLseek_open (show p.start < 2 ^ 31 by omega) s.1 hopen
  have hfree : ∀ k < TFS_N_BLOCKS, p.start / e.sbi.sBlockSize ≤ k →
      k * e.sbi.sBlockSize < p.start + p.len → (s.1.objs f.inode).iData.getD k 0 = 0 →
        FreeOn e S v (s.1.objs f.inode) := fun k hk _ _ hzero => by
    refine harr.free (hnew k hk ?_)
    by_contra hne
    exact harr.keep k hne hzero
  have hrun := sysWrite_vol hm hq hap harr.file harr.whole.size_le h0 hlen (f :=
    { f with offset := p.start }) hstart hfree p.data _ hseek
  rw [writePiece] at hstep
  dsimp only at hstep hrun
  generalize sysWrite e fd p.data p.len (sysLseek e fd p.start 0 s.1).2 = w at hstep hrun
  by_cases hres : w.1 = p.len
  · rw [if_pos hres] at hstep
    obtain rfl := Option.some.inj hstep
    rcases hrun with ⟨hroom, -, v', inode', hw, hopen'⟩ | ⟨-, hneg⟩
    · rw [hext] at hw hopen'
      have hbound : p.stop ≤ TFS_N_BLOCKS * e.sbi.sBlockSize := by
        have h1 := Nat.mul_le_mul_right e.sbi.sBlockSize hroom.1
        rw [Nat.add_mul, hblocks, Nat.div_mul_cancel hdstart] at h1
        exact h1
      obtain rfl := hopen'.2.inode
      refine ⟨v', { f with offset := p.start + min p.len p.len }, rfl, hopen', ?_⟩
      rw [reach_append, overlay_append]
      rw [harr.size] at hstart hreach
      exact harr.written hpos hbound h0 hw hstart hreach
    · omega
  · rw [if_neg hres] at hstep
    cases hstep

/-- **Every state of a run.** -/
theorem ArrayState.run (hwhole : WholeFile e S inode₀) (hfile : FileOn e S inode₀) {k : Kernel}
    (h : OpenVol e S v₀ fd f inode₀ k) {s : Kernel × List (Piece UInt8)}
    (hrun : Reach (StepOf (writePiece e fd)) (Reaching e f.inode) (k, []) s) :
    ArrayState e S v₀ inode₀ fd f.inode s := by
  refine hrun.invariant ?_ fun s p s' hs hok hstep => hs.step hm hq hap hnew hok hstep
  have hobj : k.objs f.inode = inode₀ := h.2.inode
  refine ⟨v₀, f, rfl, ?_, ?_⟩
  · change OpenVol e S v₀ fd f (k.objs f.inode) k
    rw [hobj]
    exact h
  · change HoldsArray e S v₀ inode₀ v₀ (k.objs f.inode) inode₀.iSize (fileBytes e v₀ inode₀)
    rw [hobj]
    exact ⟨hwhole, hfile, fun h => h, fun _ h => h, rfl, fun _ _ => rfl⟩

end Runs

/-- A byte of the file, as the disk has it. -/
def byteOn (e : Env) (obj : ℕ) (k : Kernel) (x : ℕ) : UInt8 :=
  fileBytes e (diskBlock e.sbi k.dev.disk) (k.objs obj) x

theorem HoldsArray.byteOn_eq (hpos : 0 < e.sbi.sBlockSize) {v₀ : ℕ → Buf} {inode₀ : Inode} {n : ℕ}
    {bytes : ℕ → UInt8} {obj : ℕ} {k : Kernel}
    (h : HoldsArray e S v₀ inode₀ v (k.objs obj) n bytes)
    (hopen : OpenVol e S v fd f (k.objs obj) k) {x : ℕ} (hx : x < n) :
    byteOn e obj k x = bytes x ∧ fileBytes e v (k.objs obj) x = byteOn e obj k x := by
  have hblock := h.whole.block_mem (x / e.sbi.sBlockSize) <| by
    rw [h.size]
    exact lt_of_le_of_lt (Nat.div_mul_le_self _ _) hx
  have hdisk : byteOn e obj k x = fileBytes e v (k.objs obj) x :=
    hopen.1.2.disk _ hblock _ (Nat.mod_lt _ hpos)
  exact ⟨hdisk.trans (h.bytes x hx), hdisk.symm⟩

/-- **A file is an array written piece by piece**, in every run whose writes all reach as far
as the file does then: its size is the greatest of the ends, a byte is the one written
last in its place or the one there was, and so the file is read back. -/
theorem writes_array (hm : Mounted e.sbi) (hq : Quiet e) (hap : Apart e S)
    (hwhole : WholeFile e S inode) (hfile : FileOn e S inode)
    (hnew : ∀ k < TFS_N_BLOCKS, inode.iData.getD k 0 = 0 → FreeOn e S v inode) {k : Kernel}
    (h : OpenVol e S v fd f inode k) {s : Kernel × List (Piece UInt8)}
    (hrun : Reach (StepOf (writePiece e fd)) (Reaching e f.inode) (k, []) s) {n : ℕ}
    (hn : (s.1.objs f.inode).iSize = n) :
    (inode.iSize ≤ n ∧ (∀ p ∈ s.2, p.stop ≤ n) ∧ (n = inode.iSize ∨ ∃ p ∈ s.2, n = p.stop)) ∧
    (∀ x < n, (∀ p ∈ s.2, ¬p.Covers x) → byteOn e f.inode s.1 x = fileBytes e v inode x) ∧
    (∀ x < n, ∀ pre p post, s.2 = pre ++ p :: post → p.Covers x → (∀ q ∈ post, ¬q.Covers x) →
      byteOn e f.inode s.1 x = p.data (x - p.start)) ∧
    ∀ c bufs fuel, 0 < c → e.sbi.sBlockSize ∣ c → c < 2 ^ 31 → n / c + 2 ≤ fuel →
      ReadAll c bufs 0 ((List.range n).map (byteOn e f.inode s.1))
        (readChunks e fd c bufs fuel 0 (sysLseek e fd 0 0 s.1).2).1 := by
  have hpos : 0 < e.sbi.sBlockSize := by have := hm.size_pos; omega
  obtain ⟨v', f', hobj, hopen, harr⟩ := ArrayState.run hm hq hap hnew hwhole hfile h hrun
  have hbyte := fun {x} => harr.byteOn_eq hpos hopen (x := x)
  have hreach := reach_eq inode.iSize s.2
  rw [← harr.size, hn] at hbyte hreach
  refine ⟨hreach, fun x hx hno => ?_, fun x hx pre p post hs hp hpost => ?_,
    fun c bufs fuel hc hdvd hc31 hfuel => ?_⟩
  · rw [(hbyte hx).1, overlay_of_not_covered hno]
  · rw [(hbyte hx).1, overlay_last hs hp hpost]
  · have hseek := sysLseek_open (show 0 < 2 ^ 31 by decide) s.1 hopen
    have hmul := Nat.mul_le_mul_right c hfuel
    have hdiv := Nat.div_add_mod n c
    have hmod := Nat.mod_lt n hc
    rw [Nat.add_mul, Nat.mul_comm _ c] at hmul
    have hend : (s.1.objs f.inode).iSize - 0 + c ≤ fuel * c := by
      rw [hn]
      omega
    have hall := readChunks_vol hm hq harr.whole hc hdvd hc31 bufs 0 0 (Nat.zero_le _)
      (.inr (dvd_zero c)) hend _ hseek
    have hbytes : bytesFrom e v' (s.1.objs f.inode) 0 =
        (List.range n).map (byteOn e f.inode s.1) := by
      rw [bytesFrom, hn, Nat.sub_zero]
      refine List.map_congr_left fun x hx => ?_
      rw [Nat.zero_add]
      exact (hbyte (List.mem_range.mp hx)).2
    rw [hbytes] at hall
    exact hall

/-! ### Writes that go through -/

/-- **A write for which there is room** is a step of a run, and the file ends with it. -/
theorem writePiece_of_room (hm : Mounted e.sbi) (hq : Quiet e) (hap : Apart e S)
    (hfile : FileOn e S inode) (hisize : inode.iSize ≤ TFS_N_BLOCKS * e.sbi.sBlockSize)
    {p : Piece UInt8} (hdstart : e.sbi.sBlockSize ∣ p.start) (hdlen : e.sbi.sBlockSize ∣ p.len)
    (h0 : 0 < p.len) (hlen : p.len < 2 ^ 31) (hstart : p.start ≤ inode.iSize)
    (hfree : ∀ k < TFS_N_BLOCKS, p.start / e.sbi.sBlockSize ≤ k →
      k * e.sbi.sBlockSize < p.start + p.len → inode.iData.getD k 0 = 0 → FreeOn e S v inode)
    (hroom : Room e v inode (p.start / e.sbi.sBlockSize) (blocksOf e.sbi.sBlockSize p.len))
    {k : Kernel} (h : OpenVol e S v fd f inode k) (ps : List (Piece UInt8)) :
    ∃ k', writePiece e fd (k, ps) p = some (k', ps ++ [p]) ∧ (k'.objs f.inode).iSize = p.stop := by
  have hpos : 0 < e.sbi.sBlockSize := by have := hm.size_pos; omega
  have hle := hm.size_le
  rw [TFS_N_BLOCKS] at hisize
  obtain ⟨hext, -⟩ := extent_aligned hpos hdstart hdlen h0
  have hseek := sysLseek_open (show p.start < 2 ^ 31 by omega) k h
  rcases sysWrite_vol hm hq hap hfile hisize h0 hlen
    (f := { f with offset := p.start }) hstart hfree
    p.data _ hseek with ⟨-, hres, v', inode', hw, hopen⟩ | ⟨hno, -⟩
  · rw [hext, Nat.min_self] at hres
    rw [hext] at hw
    refine ⟨_, if_pos hres, ?_⟩
    have hsize := hw.size
    rw [← hopen.2.inode, if_neg h0.ne'] at hsize
    exact hsize
  · exact absurd hroom hno

/-- Bytes for the beginning of a file. -/
def sevens (len : ℕ) : Piece UInt8 where
  start := 0
  len := len
  data _ := 7

/-- **A rewrite of the first block** of the file of two: it is cut to one. -/
theorem not_writes_array : ¬∀ s, Reach (StepOf (writePiece (Env.quiet (smallSbi 9)) 0))
    (Aligned (Env.quiet (smallSbi 9)) 0) (openTwoBlocks 0, []) s →
      twoBlocks.iSize ≤ (s.1.objs 0).iSize := by
  intro h
  have hroom : Room (Env.quiet (smallSbi 9))
      (diskBlock (smallSbi 9) formatted.disk) twoBlocks 0 1 := by
    have hnone : (missing twoBlocks 0 1).card = 0 := by decide
    exact ⟨by decide, hnone.le.trans (Nat.zero_le _)⟩
  obtain ⟨k, hstep, hsize⟩ := writePiece_of_room (p := sevens 512) mounted_small (quiet_quiet _)
    apart_small fileOn_twoBlocks wholeFile_twoBlocks.size_le (dvd_zero _) (by decide) (by decide)
    (by decide) (Nat.zero_le _) (new_twoBlocks (by decide) _) hroom (openVol_twoBlocks_record 0) []
  have hok : Aligned (Env.quiet (smallSbi 9)) 0 (openTwoBlocks 0, []) (sevens 512) :=
    ⟨dvd_zero _, by decide, by decide, by decide, Nat.zero_le _⟩
  have hle := h _ (.step .start hok hstep)
  rw [hsize] at hle
  exact absurd hle (by decide)

/-! ### A file that grows -/

theorem oneBlock_words : [6, 0, 0, 0, 0, 0, 0, 0].length = TFS_N_BLOCKS := rfl

/-- A file of one block of the small volume. -/
def oneBlock : Inode where
  iMode := TFS_FILE
  iSize := 512
  iIno := 2
  iAtime := 0
  iMtime := 0
  iCtime := 0
  iDtime := 0
  iData := [6, 0, 0, 0, 0, 0, 0, 0]
  iFlags := 0
  iBlksize := 512
  iData_length := oneBlock_words

/-- It is open. -/
def openOneBlock : Kernel :=
  { bootKernel (Env.quiet (smallSbi 9)) formatted with
    objs := fun _ => oneBlock
    files := fun _ => some { inode := 0, offset := 0 } }

/-- The blocks of the small volume. -/
def smallBlocks : Set ℕ := {b | b < 32}

theorem apart_smallBlocks : Apart (Env.quiet (smallSbi 9)) smallBlocks :=
  apart_of_lt fun b hb => by
    have hlt : b < 32 := hb
    have hone : sectorsPerBlock (Env.quiet (smallSbi 9)).sbi = 1 := by decide
    have hoff : (Env.quiet (smallSbi 9)).sbi.sOffset = 0 := rfl
    rw [hone, hoff, TFS_FS_SECTOR]
    omega

/-- The disk with blocks of one sector. -/
def diskOf (blocks : ℕ → Buf) : Dev :=
  { Dev.blank with
    disk := fun sector => if TFS_FS_SECTOR ≤ sector then blocks (sector - TFS_FS_SECTOR)
      else fun _ => 0 }

theorem diskBlock_diskOf (blocks : ℕ → Buf) {b x : ℕ} (hb : b < 32) (hx : x < 512) :
    diskBlock (smallSbi 9) (diskOf blocks).disk b x = blocks b x := by
  have hshift : (smallSbi 9).sBlockShift - 9 = 0 := rfl
  have hoff : (smallSbi 9).sOffset = 0 := rfl
  have hdisk : (diskOf blocks).disk = fun sector => if TFS_FS_SECTOR ≤ sector then
    blocks (sector - TFS_FS_SECTOR) else fun _ => 0 := rfl
  have hlt : b + TFS_FS_SECTOR < 2 ^ 32 := by
    rw [TFS_FS_SECTOR]
    omega
  rw [diskBlock, sectorBytes, Nat.div_eq_of_lt hx, Nat.mod_eq_of_lt hx, sectorOf, hshift, hoff,
    Nat.shiftLeft_zero, Nat.add_zero b, Nat.mod_eq_of_lt hlt, Nat.add_zero, Nat.mod_eq_of_lt hlt,
    hdisk]
  beta_reduce
  rw [if_pos (Nat.le_add_left _ _), Nat.add_sub_cancel]

theorem diskBlock_formatted {b x : ℕ} (hb : b < 32) (hx : x < 512) :
    diskBlock (smallSbi 9) formatted.disk b x = formattedBlock b x :=
  diskBlock_diskOf formattedBlock hb hx

/-- The free blocks of the volume are those behind the root directory. -/
theorem usedIn_formatted {b : ℕ} (hb : b < 8 * 512)
    (h : usedIn (diskBlock (smallSbi 9) formatted.disk 3) b = false) : 7 ≤ b ∧ b < 32 := by
  rw [usedIn, bit, Nat.zero_add, diskBlock_formatted (by decide) (by omega)] at h
  by_contra hout
  by_cases hlow : b < 7
  · have hall : ∀ b < 7, (formattedBlock 3 (b / 8)).toNat.testBit (b % 8) = true := by decide
    rw [hall b hlow] at h
    cases h
  · have hbyte : formattedBlock 3 (b / 8) = 0xff := by
      change (if b / 8 = 0 then 0x7f else if b / 8 < 4 then 0 else 0xff : UInt8) = 0xff
      rw [if_neg (by omega), if_neg (by omega)]
    have hall : ∀ i < 8, (0xff : UInt8).toNat.testBit i = true := by decide
    rw [hbyte, hall _ (Nat.mod_lt b (by decide))] at h
    cases h

theorem getD_oneBlock {k : ℕ} (h : oneBlock.iData.getD k 0 ≠ 0) :
    k = 0 ∧ oneBlock.iData.getD k 0 = 6 := by
  rcases k with _ | k
  · exact ⟨rfl, rfl⟩
  · refine absurd ?_ h
    by_cases hk : k < 7
    · have : ∀ k < 7, oneBlock.iData.getD (k + 1) 0 = 0 := by decide
      exact this k hk
    · exact getD_of_le (by rw [TFS_N_BLOCKS]; omega)

theorem fileOn_oneBlock : FileOn (Env.quiet (smallSbi 9)) smallBlocks oneBlock := by
  refine ⟨rfl, fun k hk => ?_, fun j k hjk hj => ?_, by decide, by decide, by decide,
    show 4 < 32 by decide, fun k hk => ?_⟩
  · rw [(getD_oneBlock hk).2]
    exact show 6 < 32 by decide
  · obtain ⟨rfl, -⟩ := getD_oneBlock hj
    obtain ⟨rfl, -⟩ := getD_oneBlock (hjk ▸ hj)
    rfl
  · rw [(getD_oneBlock hk).2]
    decide

theorem wholeFile_oneBlock : WholeFile (Env.quiet (smallSbi 9)) smallBlocks oneBlock := by
  have hk : ∀ k, k * 512 < 512 → k = 0 := fun k h => by omega
  refine ⟨by decide, rfl, fun k h => ?_, fun k h => ?_⟩
  · obtain rfl := hk k h
    decide
  · obtain rfl := hk k h
    exact show 6 < 32 by decide

theorem freeOn_oneBlock : FreeOn (Env.quiet (smallSbi 9)) smallBlocks
    (diskBlock (smallSbi 9) formatted.disk) oneBlock := by
  refine ⟨straight_quiet _, by decide, show 3 < 32 by decide, fun k hk => ?_, by decide,
    fun b hb hfree => ?_⟩
  · rw [(getD_oneBlock hk).2]
    decide
  · obtain ⟨hlo, hhi⟩ := usedIn_formatted hb hfree
    refine ⟨hhi, by omega, ?_, ?_, fun k hk => ?_⟩
    · rintro rfl
      exact absurd hlo (by decide)
    · rintro rfl
      exact absurd hlo (by decide)
    · have := (getD_oneBlock (k := k) (by rw [hk]; omega)).2
      omega

theorem openVol_oneBlock : OpenVol (Env.quiet (smallSbi 9)) smallBlocks
    (diskBlock (smallSbi 9) formatted.disk) 0 { inode := 0, offset := 0 } oneBlock openOneBlock :=
  ⟨vol_cacheInit mounted_small (fun h => absurd (show emptyBlock < 32 from h) (by decide))
    formatted,
    by decide, rfl, rfl⟩

/-- The file is rewritten and grows by a block. -/
theorem writes_array_oneBlock : ∃ s, Reach (StepOf (writePiece (Env.quiet (smallSbi 9)) 0))
    (Reaching (Env.quiet (smallSbi 9)) 0) (openOneBlock, []) s ∧
    (s.1.objs 0).iSize = 1024 ∧ ∀ x < 1024, byteOn (Env.quiet (smallSbi 9)) 0 s.1 x = 7 := by
  have hroom : Room (Env.quiet (smallSbi 9))
      (diskBlock (smallSbi 9) formatted.disk) oneBlock 0 2 := by
    have hone : (missing oneBlock 0 2).card = 1 := by decide
    have hseven : 7 ∈ freeBlocks (Env.quiet (smallSbi 9))
        (diskBlock (smallSbi 9) formatted.disk 3) := by
      refine mem_freeBlocks.mpr ⟨by decide, ?_⟩
      decide +kernel
    exact ⟨by decide, hone.le.trans (Finset.card_pos.mpr ⟨7, hseven⟩)⟩
  obtain ⟨k, hstep, hsize⟩ := writePiece_of_room (p := sevens 1024) mounted_small (quiet_quiet _)
    apart_smallBlocks fileOn_oneBlock wholeFile_oneBlock.size_le (dvd_zero _) (by decide)
      (by decide)
    (by decide) (Nat.zero_le _) (fun _ _ _ _ _ => freeOn_oneBlock) hroom openVol_oneBlock []
  have hok : Reaching (Env.quiet (smallSbi 9)) 0 (openOneBlock, []) (sevens 1024) :=
    ⟨⟨dvd_zero _, by decide, by decide, by decide, Nat.zero_le _⟩, by decide⟩
  have hrun : Reach (StepOf (writePiece (Env.quiet (smallSbi 9)) 0))
    (Reaching (Env.quiet (smallSbi 9)) 0) (openOneBlock, []) (k, [sevens 1024]) :=
    .step .start hok hstep
  obtain ⟨-, -, hlast, -⟩ := writes_array mounted_small (quiet_quiet _) apart_smallBlocks
    wholeFile_oneBlock fileOn_oneBlock (fun _ _ _ => freeOn_oneBlock) openVol_oneBlock hrun hsize
  exact ⟨_, hrun, hsize, fun x hx => hlast x hx [] (sevens 1024) [] rfl
    ⟨Nat.zero_le x, (Nat.zero_add 1024).symm ▸ hx⟩ fun _ h => absurd h List.not_mem_nil⟩

end Thunix.Fs
