import Thunix.Fs.BitmapCalls

/-!
# The record behind `container_of`

`tfs_read_block_bitmap` and `tfs_read_inode_bitmap` are given the pointer `sbi` and want
the `struct fs` whose member `sb` has this value. They get it with `container_of`, which
goes from the address of a member to the structure around it, but `sbi` is not the address
of the member: it is the address of the record the member points to. What they take for
`fs->sb` is the word at `sbi`, and that is `s_inodes_count`
(`Thunix.Fs.fsSb_containerOf`).

Structures are words in memory here (`Thunix.Fs.Words`). A bitmap that is not in the
cache is read from the sectors that the record at `s_inodes_count` says, and written to
those that the mounted record says (`Thunix.Fs.bitmap_sectors_iff`).
-/

namespace Thunix.Fs

variable {e : Env} {d : Dev} {b : ℕ} {os : List ℕ}

/-! ### Structures in memory -/

/-- Memory, by the addresses of words. -/
structure Words where
  word : ℕ → ℕ
  word_lt : ∀ a, word a < 2 ^ 32

/-- The address `n` bytes on. -/
def offsetBy (a n : ℕ) : ℕ := (a + n) % 2 ^ 32

/-- `offsetof(struct fs, sb)`: the member follows the pointer `name`. -/
def offsetofSb : ℕ := 4

/-- `container_of`, of a member at this offset. -/
def containerOf (ptr offset : ℕ) : ℕ := (ptr + 2 ^ 32 - offset) % 2 ^ 32

/-- `fs->sb`. -/
def fsSb (w : Words) (fs : ℕ) : ℕ := w.word (offsetBy fs offsetofSb)

/-- The `struct tfs_sb_info` at an address. -/
def sbInfoAt (w : Words) (a : ℕ) : TfsSbInfo where
  sInodesCount := w.word (offsetBy a 0)
  sBlocksCount := w.word (offsetBy a 4)
  sFreeBlocksCount := w.word (offsetBy a 8)
  sFreeInodesCount := w.word (offsetBy a 12)
  sBlockShift := w.word (offsetBy a 16)
  sBlockSize := w.word (offsetBy a 20)
  sInodeBitmap := w.word (offsetBy a 24)
  sInodeBitmapCount := w.word (offsetBy a 28)
  sBlockBitmap := w.word (offsetBy a 32)
  sBlockBitmapCount := w.word (offsetBy a 36)
  sInodeTable := w.word (offsetBy a 40)
  sInodeTableCount := w.word (offsetBy a 44)
  sDataArea := w.word (offsetBy a 48)
  sOffset := w.word (offsetBy a 52)
  sInodesPerBlock := w.word (offsetBy a 56)

/-- **The pointer that the bitmap functions follow is the first word of the record.** -/
theorem fsSb_containerOf (w : Words) {sbi : ℕ} (h : sbi < 2 ^ 32) :
    fsSb w (containerOf sbi offsetofSb) = (sbInfoAt w sbi).sInodesCount := by
  have haddr : offsetBy (containerOf sbi offsetofSb) offsetofSb = offsetBy sbi 0 := by
    rw [offsetBy, offsetBy, containerOf, offsetofSb]
    omega
  rw [fsSb, haddr]
  rfl

/-- The environment is that of a file system whose record is at this address. -/
structure MountedAt (e : Env) (w : Words) (sbi : ℕ) : Prop where
  sbi_lt : sbi < 2 ^ 32
  mounted : e.sbi = sbInfoAt w sbi
  stray : e.straySbi = sbInfoAt w (fsSb w (containerOf sbi offsetofSb))

/-! ### Sectors -/

/-- The sectors of a transfer: the first one, and how many. -/
def Moved.span (m : Moved) : ℕ × ℕ := (m.sector, m.sectors)

/-- `tfs_read_block_bitmap` or `tfs_read_inode_bitmap`. -/
def readBitmap (e : Env) : Kind → DevM (Option CacheRef)
  | .block => tfsReadBlockBitmap e
  | .inode => tfsReadInodeBitmap e

theorem readBitmap_eq (e : Env) (kind : Kind) :
    readBitmap e kind = getCacheBlock e e.straySbi (bitmapBlock e kind) := by
  cases kind <;> rfl

/-- **What a request for an absent block transfers.** -/
theorem getCacheBlock_absent_log (e : Env) (sb : TfsSbInfo) (h : RingOk d os) (hne : os ≠ [])
    (habsent : ∀ j ∈ os, d.label j ≠ b) :
    ∃ v m, (getCacheBlock e sb b d).2.log = d.log ++ [.load v m] ∧
      m.span = (sectorOf sb b, sectorsPerBlock sb) := by
  obtain ⟨pre, x, rfl⟩ := List.eq_nil_or_concat os |>.resolve_left hne
  rw [List.concat_eq_append] at h habsent
  have hlast : (d.cache (d.cache .head).prev).block ≠ b := by
    rw [h.prev_head]
    exact habsent x (by simp)
  have hfind : findBlock d b d.cacheEntries (d.cache .head).prev = none := by
    rw [h.findBlock_eq, List.find?_eq_none.mpr, Option.map_none]
    intro j hj
    simpa using habsent j (List.mem_reverse.mp hj)
  rw [getCacheBlock, if_neg hlast, hfind]
  dsimp only
  obtain ⟨m, t, hread, -⟩ := tfsBread_frame e sb b (d.cache (d.cache .head).next).data d
  generalize tfsBread e sb b (d.cache (d.cache .head).next).data d = r at hread ⊢
  obtain ⟨res, d'⟩ := r
  obtain rfl := hread
  refine ⟨(d.cache (d.cache .head).next).block,
    { block := b, sector := sectorOf sb b, sectors := sectorsPerBlock sb, tick := d.ticks, res,
      data := fun i => m ((d.cache (d.cache .head).next).data + i) }, ?_, rfl⟩
  dsimp only
  by_cases hres : res ≠ 0
  · rw [if_pos hres]
    rfl
  · rw [if_neg hres, (relinked_relink _ _ _).rest]
    rfl

theorem tfsBwrite_log (e : Env) (b buf : ℕ) (d : Dev) :
    ∃ m, (tfsBwrite e e.sbi b buf d).2.log = d.log ++ [.store false m] ∧
      m.span = (sectorOf e.sbi b, sectorsPerBlock e.sbi) := by
  obtain ⟨disk, t, h⟩ := floppyWritesLoop_frame e (sectorsPerBlock e.sbi) (sectorOf e.sbi b) buf 0 d
  let m : Moved :=
    { block := b, sector := sectorOf e.sbi b, sectors := sectorsPerBlock e.sbi, tick := d.ticks,
      res := (tfsBwrite e e.sbi b buf d).1, data := d.buf buf }
  have hlog : (floppyWrites e (sectorOf e.sbi b) buf (sectorsPerBlock e.sbi) d).2.log = d.log := by
    rw [floppyWrites, h]
  exact ⟨m, congrArg (fun log : List Event => log ++ [Event.store false m]) hlog, rfl⟩

/-- The transfers of two records are the same for a block exactly if their blocks are of one
size and their offsets agree. -/
theorem span_eq_iff {sb sbi : TfsSbInfo} (hsb : 9 ≤ sb.sBlockShift) (hsbi : 9 ≤ sbi.sBlockShift)
    (ho : sb.sOffset < 2 ^ 32) (ho' : sbi.sOffset < 2 ^ 32) :
    ((sectorOf sb b, sectorsPerBlock sb) = (sectorOf sbi b, sectorsPerBlock sbi)) ↔
      sb.sBlockShift = sbi.sBlockShift ∧ sb.sOffset = sbi.sOffset := by
  rw [Prod.mk.injEq, sectorsPerBlock, sectorsPerBlock, Nat.shiftLeft_eq, Nat.shiftLeft_eq,
    Nat.one_mul, Nat.one_mul, Nat.pow_right_inj (le_refl 2), sectorOf, sectorOf]
  constructor
  · rintro ⟨h1, h2⟩
    rw [h2] at h1
    exact ⟨by omega, by omega⟩
  · rintro ⟨h1, h2⟩
    rw [h1, h2]
    exact ⟨rfl, rfl⟩

/-- **Where a bitmap is read from.** The `struct fs` that the bitmap functions reconstruct
has the mounted record for its `sb` exactly if the number of inodes is the address of the
record, and then what they read are the sectors written. For the sectors to be the same
it is necessary and enough that the words in the places of `s_block_shift` and
`s_offset` at the address `s_inodes_count` are those of the record. -/
theorem bitmap_sectors_iff {w : Words} {sbi : ℕ} (hat : MountedAt e w sbi) (kind : Kind)
    (hring : RingOk d os) (hne : os ≠ []) (habsent : ∀ j ∈ os, d.label j ≠ bitmapBlock e kind)
    (d' : Dev) (buf : ℕ) :
    (fsSb w (containerOf sbi offsetofSb) = sbi ↔ e.sbi.sInodesCount = sbi) ∧
    ∃ v m m', (readBitmap e kind d).2.log = d.log ++ [.load v m] ∧
      (tfsBwrite e e.sbi (bitmapBlock e kind) buf d').2.log = d'.log ++ [.store false m'] ∧
      (e.sbi.sInodesCount = sbi → m.span = m'.span) ∧
      (9 ≤ e.sbi.sBlockShift → 9 ≤ w.word (offsetBy e.sbi.sInodesCount 16) →
        (m.span = m'.span ↔
          w.word (offsetBy e.sbi.sInodesCount 16) = e.sbi.sBlockShift ∧
          w.word (offsetBy e.sbi.sInodesCount 52) = e.sbi.sOffset)) := by
  have hsb : fsSb w (containerOf sbi offsetofSb) = e.sbi.sInodesCount := by
    rw [fsSb_containerOf w hat.sbi_lt, hat.mounted]
  have hstray : e.straySbi = sbInfoAt w e.sbi.sInodesCount := by rw [hat.stray, hsb]
  obtain ⟨v, m, hread, hm⟩ := getCacheBlock_absent_log e e.straySbi hring hne habsent
  obtain ⟨m', hwrite, hm'⟩ := tfsBwrite_log e (bitmapBlock e kind) buf d'
  rw [← readBitmap_eq] at hread
  refine ⟨by rw [hsb], v, m, m', hread, hwrite, fun h => ?_, fun h9 h9' => ?_⟩
  · rw [hm, hm', hstray, h, ← hat.mounted]
  · have hword : e.sbi.sOffset < 2 ^ 32 := by
      rw [hat.mounted]
      exact w.word_lt _
    rw [hm, hm', hstray]
    exact span_eq_iff h9' h9 (w.word_lt _) hword

/-! ### An example -/

/-- The record of the small volume at address 4096. It has 16 inodes, and at address 16, in
the place of `s_block_shift`, there is the word 10. -/
def smallWords : Words where
  word a := (if 4096 ≤ a then
      [16, 32, 26, 16, 9, 512, 2, 1, 3, 1, 4, 2, 6, 0, 8].getD ((a - 4096) / 4) 0
    else if a = 32 then 10 else 0) % 2 ^ 32
  word_lt _ := Nat.mod_lt _ (by decide)

/-- The environment of a file system whose record is at address 4096. -/
def strayEnv : Env :=
  { Env.quiet (sbInfoAt smallWords 4096) with
    straySbi := sbInfoAt smallWords (fsSb smallWords (containerOf 4096 offsetofSb)) }

theorem mountedAt_strayEnv : MountedAt strayEnv smallWords 4096 := ⟨by decide, rfl, rfl⟩

theorem ringOk_blank : RingOk (cacheInit 9 Dev.blank) (List.range (numEntries 9)) :=
  (initInv_cacheInit (by decide : 0 < numEntries 9) Dev.blank).ringOk (by decide)

theorem absent_blank : ∀ j ∈ List.range (numEntries 9),
    (cacheInit 9 Dev.blank).label j ≠ bitmapBlock strayEnv .block := fun j hj h =>
  absurd (((initInv_cacheInit (by decide : 0 < numEntries 9) Dev.blank).label j
    (List.mem_range.mp hj)).symm.trans h) (by decide)

/-- **The bitmap of a small volume** is written to one sector and read from two. -/
theorem not_bitmap_sectors : MountedAt strayEnv smallWords 4096 ∧
    ∃ v m m', (readBitmap strayEnv .block (cacheInit 9 Dev.blank)).2.log =
        (cacheInit 9 Dev.blank).log ++ [.load v m] ∧
      (tfsBwrite strayEnv strayEnv.sbi (bitmapBlock strayEnv .block) 0
        (cacheInit 9 Dev.blank)).2.log = (cacheInit 9 Dev.blank).log ++ [.store false m'] ∧
      m.span = (838, 2) ∧ m'.span = (835, 1) := by
  obtain ⟨v, m, hread, hm⟩ := getCacheBlock_absent_log strayEnv strayEnv.straySbi ringOk_blank
    (by decide) absent_blank
  obtain ⟨m', hwrite, hm'⟩ := tfsBwrite_log strayEnv (bitmapBlock strayEnv .block) 0
    (cacheInit 9 Dev.blank)
  rw [← readBitmap_eq] at hread
  exact ⟨mountedAt_strayEnv, v, m, m', hread, hwrite, hm.trans (by decide), hm'.trans (by decide)⟩

/-- The reconstructed structure in this memory. -/
theorem bitmap_sectors_iff_small :
    fsSb smallWords (containerOf 4096 offsetofSb) = 4096 ↔ strayEnv.sbi.sInodesCount = 4096 :=
  (bitmap_sectors_iff mountedAt_strayEnv .block ringOk_blank (by decide) absent_blank
    (cacheInit 9 Dev.blank) 0).1

end Thunix.Fs
