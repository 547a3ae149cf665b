import Thunix.Fs.CacheKeep
import Thunix.Fs.Slots

/-!
# Directories of an image

What the functions of `fs/tfs/dir.c` on one directory do to an image: `tfs_find_entry`
finds the first slot with the name, and leaves it in the cache
(`Thunix.Fs.tfsFindEntry_image`); `tfs_add_entry` fills the first free slot, or one of a
new block (`Thunix.Fs.tfsAddEntry_image`); and the end of a removal clears a slot that is
still in the cache (`Thunix.Fs.clearEntry_image`).
-/

namespace Thunix.Fs

variable {e : Env} {I : Image} {d : Dev} {dir : Inode} {b i j k : ℕ} {f : Buf} {name : List UInt8}
  {B : Finset ℕ}

/-! ### A block in the cache -/

/-- The entry `i` holds the block `b`. -/
def HoldingImage (e : Env) (I : Image) (i b : ℕ) (d : Dev) : Prop :=
  ∃ v, Holding e (volume e.sbi) v i b d ∧ Shows e v I

theorem HoldingImage.on (h : HoldingImage e I i b d) : ImageOn e I d := by
  obtain ⟨v, hv, hshow⟩ := h
  exact ⟨v, hv.1, hshow⟩

theorem HoldingImage.agree (h : HoldingImage e I i b d) (hb : InData e.sbi b) :
    Agree e.sbi.sBlockSize (d.buf (i * e.sbi.sBlockSize)) (I.data b) := by
  obtain ⟨v, hv, hshow⟩ := h
  exact fun x hx => (hv.agree hb.2 x hx).trans (hshow.data b hb x hx)

/-- The entry `i` holds the block `b`, with its buffer changed to `f`. -/
def EditedImage (e : Env) (I : Image) (i b : ℕ) (f : Buf) (d : Dev) : Prop :=
  ∃ v, EditedVol e (volume e.sbi) v i b f d ∧ Shows e v I

theorem EditedImage.congr {f' : Buf} (h : EditedImage e I i b f d)
    (hf : Agree e.sbi.sBlockSize f f') : EditedImage e I i b f' d := by
  obtain ⟨v, ⟨hos, hv⟩, hshow⟩ := h
  exact ⟨v, ⟨hos, hv.congr hf⟩, hshow⟩

theorem HoldingImage.edited (h : HoldingImage e I i b d) (hb : InData e.sbi b) :
    EditedImage e I i b (I.data b) d := by
  obtain ⟨v, hv, hshow⟩ := h
  have hedit : EditedImage e I i b (v b) d := ⟨v, hv.edited hb.2, hshow⟩
  exact hedit.congr (hshow.data b hb)

theorem copyIn_image {off count : ℕ} (hfit : off + count ≤ e.sbi.sBlockSize) (src : Buf) :
    Hoare (EditedImage e I i b f) (copyIn (i * e.sbi.sBlockSize + off) count src) fun _ d =>
      EditedImage e I i b (blit f off count src) d :=
  Hoare.exists fun v d ⟨hv, hshow⟩ => ⟨v, copyIn_edited hfit src d hv, hshow⟩

theorem dataPtr_edited : Hoare (EditedImage e I i b f) (dataPtr (.entry i)) fun a d =>
    a = i * e.sbi.sBlockSize ∧ EditedImage e I i b f d := fun d h => by
  obtain ⟨v, ⟨hos, hv⟩, hshow⟩ := h
  exact ⟨hv.data i hv.lt, v, ⟨hos, hv⟩, hshow⟩

theorem dataPtr_image : Hoare (HoldingImage e I i b) (dataPtr (.entry i)) fun a d =>
    a = i * e.sbi.sBlockSize ∧ HoldingImage e I i b d := fun d h => by
  obtain ⟨v, hv, hshow⟩ := h
  exact ⟨hv.1.2.data i hv.2.1, v, hv, hshow⟩

theorem getCacheBlock_image (hs : Steady e) :
    Hoare (ImageOn e I) (getCacheBlock e e.sbi b) fun r d =>
      ∃ i, r = some (.entry i) ∧ HoldingImage e I i b d :=
  Hoare.exists fun v d ⟨hv, hshow⟩ => by
    obtain ⟨i, hr, hhold⟩ := getCacheBlock_vol hs.geometry.mounted hs.quiet (b := b) d hv
    exact ⟨i, hr, v, hhold, hshow⟩

/-- A computation that begins with a request. -/
theorem request_image {α : Type} {F : Option CacheRef → DevM α} {Q : α → Dev → Prop} (hs : Steady e)
    (h : ∀ i, Hoare (HoldingImage e I i b) (F (some (.entry i))) Q) :
    Hoare (ImageOn e I) (getCacheBlock e e.sbi b >>= F) Q := by
  refine (getCacheBlock_image hs).bind fun r => ?_
  rintro d ⟨i, rfl, hd⟩
  exact h i d hd

/-- A block of data that is written. -/
theorem tfsBwrite_image (hs : Steady e) (hb : InData e.sbi b) :
    Hoare (EditedImage e I i b f) (tfsBwrite e e.sbi b (i * e.sbi.sBlockSize)) fun r d =>
      r = 0 ∧ ImageOn e (I.setData b f) d :=
  Hoare.exists fun v d ⟨hv, hshow⟩ => by
    have g := hs.geometry
    obtain ⟨hr, hv'⟩ := tfsBwrite_edited g.mounted hs.quiet g.apart
      (show b ∈ volume e.sbi from hb.2)
      false d hv
    exact ⟨hr, _, hv', hshow.setData g hb⟩

/-! ### Looking up -/

/-- What the search finds in the image. -/
def FoundIn (e : Env) (I : Image) (dir : Inode) (name : List UInt8) : Lookup → Dev → Prop
  | .null, d => ImageOn e I d ∧ ∀ j < slots e dir, ¬SlotNamed e I.data dir name j
  | .err _, _ => False
  | .found cs de, d => ∃ i j, cs = .entry i ∧ de = i * e.sbi.sBlockSize + slotPlace e j ∧
    FirstNamed e I.data dir name 0 (slots e dir) j ∧ HoldingImage e I i (slotBlock e dir j) d ∧
    Kept e i (slotBlock e dir j) ∅ d

/-- An entry found is the one requested last. -/
theorem findEntryLoop_kept (hm : Mounted e.sbi) (words : List ℕ) :
    Hoare (fun d => ∃ os, Shaped e os d) (findEntryLoop e name words) fun res d =>
      ∀ cs de, res = .found cs de → ∃ i b, cs = .entry i ∧ Kept e i b ∅ d := by
  induction words with
  | nil => exact .pure fun d _ cs de h => by cases h
  | cons b words ih =>
    rw [findEntryLoop]
    have hget : Hoare (fun d => ∃ os, Shaped e os d) (getCacheBlock e e.sbi b) fun r d =>
        (∃ os, Shaped e os d) ∧ ∀ cs, r = some cs → ∃ i, cs = .entry i ∧ Kept e i b ∅ d :=
      fun d h => by
        obtain ⟨os, hos⟩ := h
        exact ⟨hos.request_shape hm e.sbi b, fun cs h => hos.request_kept hm e.sbi h⟩
    refine hget.bind fun r => ?_
    cases r with
    | none => exact .pure fun d _ cs de h => by cases h
    | some cs =>
      dsimp only
      refine Hoare.bind (Q := fun _ d => (∃ os, Shaped e os d) ∧ ∀ cs', some cs = some cs' →
        ∃ i, cs' = .entry i ∧ Kept e i b ∅ d) (fun d h => h) fun data => ?_
      refine Hoare.bind (Q := fun _ d => (∃ os, Shaped e os d) ∧ ∀ cs', some cs = some cs' →
        ∃ i, cs' = .entry i ∧ Kept e i b ∅ d) (fun d h => h) fun r => ?_
      cases r with
      | some de =>
        refine .pure fun d h cs' de' hres => ?_
        obtain ⟨rfl, -⟩ := Lookup.found.inj hres
        obtain ⟨i, hi, hkept⟩ := h.2 cs rfl
        exact ⟨i, b, hi, hkept⟩
      | none =>
        refine .ite (fun _ => .pure fun d _ cs' de' hres => by cases hres) fun _ => ?_
        exact ih.pre fun d h => h.1

theorem tfsFindEntry_kept (hm : Mounted e.sbi) (dir : Inode) (name : List UInt8) :
    Hoare (fun d => ∃ os, Shaped e os d) (tfsFindEntry e dir name) fun res d =>
      ∀ cs de, res = .found cs de → ∃ i b, cs = .entry i ∧ Kept e i b ∅ d := by
  unfold tfsFindEntry
  refine .ite (fun _ => .pure fun d _ cs de h => by cases h) fun _ => ?_
  refine Hoare.bind (Q := fun _ d => ∃ os, Shaped e os d) (fun d h => ?_) fun words =>
    findEntryLoop_kept hm words
  obtain ⟨os, hos⟩ := h
  exact ⟨os, hos.congr rfl rfl⟩

/-- **`tfs_find_entry`** finds the first slot with the name. -/
theorem tfsFindEntry_image (hs : Steady e) (hd : DirOn e dir) (hroom : dir.blocks < TFS_N_BLOCKS)
    (hleg : Legible e I.data dir dir.blocks name) (hnz : ∀ c ∈ name, c ≠ 0) :
    Hoare (ImageOn e I) (tfsFindEntry e dir name) (FoundIn e I dir name) :=
  Hoare.exists fun v d ⟨hv, hshow⟩ => by
    have g := hs.geometry
    have hm := g.mounted
    have hslot : ∀ {name : List UInt8}, ∀ j < slots e dir,
        (SlotNamed e v dir name j ↔ SlotNamed e I.data dir name j) := fun j hj =>
      slotNamed_congr (slotBytes_agree hm (hshow.data _ (hd.area _ (div_lt_blocks hm hj))))
    have hnamed : ∀ j < slots e dir, SlotNamed e v dir name j ↔ SlotNamed e I.data dir name j :=
      hslot
    have hleg' : Legible e v dir dir.blocks name :=
      hleg.imp_right fun hno j hj h => hno j hj ((hslot j hj).mp h)
    have hfind := tfsFindEntry_vol hm hs.quiet hd.whole hroom (hd.inDataArea g) hleg' hnz d hv
    have hkept := tfsFindEntry_kept hm dir name d hv.1
    generalize tfsFindEntry e dir name d = r at hfind hkept ⊢
    obtain ⟨res, d'⟩ := r
    cases res with
    | null =>
      refine ⟨⟨v, hfind.1, hshow⟩, fun j hj h => ?_⟩
      refine hfind.2 j ?_ hj ((hnamed j hj).mpr h)
      rw [Nat.zero_mul]
      exact Nat.zero_le j
    | err => exact hfind.elim
    | found cs de =>
      obtain ⟨i, j, rfl, hde, ⟨-, hj, hnam, hfirst⟩, hhold⟩ := hfind
      obtain ⟨i', b, hi, hk⟩ := hkept _ _ rfl
      obtain rfl := CacheRef.entry.inj hi
      rw [Nat.zero_mul] at hfirst
      have hlab : slotBlock e dir j = b := by
        obtain ⟨_, _, _, hlab, _⟩ := hk
        exact hhold.2.2.symm.trans hlab
      refine ⟨i, j, rfl, hde, ⟨Nat.zero_le j, hj, (hnamed j hj).mp hnam, fun j' hlo hlt h => ?_⟩,
        ⟨v, hhold, hshow⟩, hlab ▸ hk⟩
      exact hfirst j' hlo hlt ((hnamed j' (hlt.trans hj)).mpr h)

/-! ### A free slot -/

/-- The walk over the entries of a block ends at the first free one. -/
theorem freeInBlock_eq {m : ℕ → UInt8} {n de : ℕ} :
    (freeInBlock m n de = none ∧ ∀ k < n, le32 m (de + sizeofDirEntry * k) ≠ 0) ∨
    ∃ k < n, freeInBlock m n de = some (de + sizeofDirEntry * k) ∧
      le32 m (de + sizeofDirEntry * k) = 0 ∧ ∀ l < k, le32 m (de + sizeofDirEntry * l) ≠ 0 := by
  induction n generalizing de with
  | zero => exact .inl ⟨rfl, fun k hk => absurd hk (Nat.not_lt_zero k)⟩
  | succ n ih =>
    by_cases h0 : le32 m de = 0
    · refine .inr ⟨0, Nat.succ_pos n, ?_, h0, fun l hl => absurd hl (Nat.not_lt_zero l)⟩
      rw [freeInBlock, if_pos h0, Nat.mul_zero, Nat.add_zero]
    · have hplace : ∀ l, de + sizeofDirEntry + sizeofDirEntry * l = de + sizeofDirEntry * (l + 1) :=
        fun l => by rw [Nat.mul_succ, Nat.add_comm (sizeofDirEntry * l), Nat.add_assoc]
      have hbelow : ∀ k, (∀ l < k, le32 m (de + sizeofDirEntry + sizeofDirEntry * l) ≠ 0) →
          ∀ l < k + 1, le32 m (de + sizeofDirEntry * l) ≠ 0 := fun k h l hl => by
        rcases l with _ | l
        · exact h0
        · rw [← hplace]
          exact h l (Nat.lt_of_succ_lt_succ hl)
      rw [freeInBlock, if_neg h0]
      rcases @ih (de + sizeofDirEntry) with ⟨hnone, hall⟩ | ⟨k, hk, hsome, hk', hl⟩
      · exact .inl ⟨hnone, hbelow n hall⟩
      · rw [hplace] at hsome hk'
        exact .inr ⟨k + 1, Nat.succ_lt_succ hk, hsome, hk', hbelow k hl⟩

/-- A number read from a buffer that holds a block of the directory. -/
theorem slotIno_buffer (hm : Mounted e.sbi) {m : ℕ → UInt8} {a l : ℕ} (hl : l < entriesPerBlock e)
    (hagree : ∀ x < e.sbi.sBlockSize, m (a + x) = I.data (dir.iData.getD k 0) x) :
    le32 m (a + sizeofDirEntry * l) = slotIno e I.data dir (k * entriesPerBlock e + l) := by
  have hdiv : (k * entriesPerBlock e + l) / entriesPerBlock e = k := by
    rw [Nat.mul_comm, Nat.mul_add_div (by omega), Nat.div_eq_of_lt hl, Nat.add_zero]
  have hmod : (k * entriesPerBlock e + l) % entriesPerBlock e = l := by
    rw [Nat.mul_comm, Nat.mul_add_mod, Nat.mod_eq_of_lt hl]
  have hplace := slotPlace_le (e := e) hm (k * entriesPerBlock e + l)
  rw [slotPlace, hmod] at hplace
  have hbytes : ∀ x < 4, m (a + sizeofDirEntry * l + x) =
      slotBytes e I.data dir (k * entriesPerBlock e + l) (0 + x) := fun x hx => by
    have hx' : x < sizeofDirEntry := by rw [sizeofDirEntry]; omega
    rw [Nat.zero_add, slotBytes_eq hm hx', hdiv, hmod, Nat.add_assoc]
    exact hagree _ (by omega)
  have h0 := hbytes 0 (by decide)
  rw [Nat.add_zero] at h0
  rw [slotIno, le32, le32, h0, hbytes 1 (by decide), hbytes 2 (by decide), hbytes 3 (by decide)]

/-- The first free slot, from one on. -/
def FirstFree (e : Env) (I : Image) (dir : Inode) (lo j : ℕ) : Prop :=
  lo ≤ j ∧ j < slots e dir ∧ slotIno e I.data dir j = 0 ∧
    ∀ j', lo ≤ j' → j' < j → slotIno e I.data dir j' ≠ 0

/-- No slot is free, from one on. -/
def NoneFree (e : Env) (I : Image) (dir : Inode) (lo : ℕ) : Prop :=
  ∀ j, lo ≤ j → j < slots e dir → slotIno e I.data dir j ≠ 0

/-- Where the walk of `tfs_add_entry` ends in the image, from a block on. -/
def PlacedIn (e : Env) (I : Image) (dir : Inode) (k : ℕ) : Place → Dev → Prop
  | .fail, _ => False
  | .slot block cs de, d => ∃ i j, block = slotBlock e dir j ∧ cs = .entry i ∧
    de = i * e.sbi.sBlockSize + slotPlace e j ∧ FirstFree e I dir (k * entriesPerBlock e) j ∧
    HoldingImage e I i block d
  | .full index, d => index = dir.blocks + 1 ∧ NoneFree e I dir (k * entriesPerBlock e) ∧
    ImageOn e I d

theorem addEntryLoop_image (hs : Steady e) (hd : DirOn e dir) (hroom : dir.blocks < TFS_N_BLOCKS)
    (behind : List ℕ) {r : ℕ} (hr : k + r = dir.blocks) (hpos : 0 < r) :
    Hoare (ImageOn e I) (addEntryLoop e (dir.iData.drop k ++ behind) (k + 1))
      (PlacedIn e I dir k) := by
  have hm := hs.geometry.mounted
  have hE := hm.entriesPerBlock_pos
  induction r generalizing k with
  | zero => omega
  | succ r ih =>
    have hmono : (k + 1) * entriesPerBlock e ≤ slots e dir := Nat.mul_le_mul_right _ (by omega)
    rw [Nat.succ_mul] at hmono
    rw [drop_iData (by omega), List.cons_append, addEntryLoop]
    refine request_image hs fun i => dataPtr_image.bind_eq ?_
    have hread : Hoare (HoldingImage e I i (dir.iData.getD k 0))
        (readMem fun m => freeInBlock m (entriesPerBlock e) (i * e.sbi.sBlockSize))
        fun res d => HoldingImage e I i (dir.iData.getD k 0) d ∧
          ((res = none ∧ ∀ l < entriesPerBlock e,
            slotIno e I.data dir (k * entriesPerBlock e + l) ≠ 0) ∨
          ∃ l < entriesPerBlock e, res = some (i * e.sbi.sBlockSize + sizeofDirEntry * l) ∧
            slotIno e I.data dir (k * entriesPerBlock e + l) = 0 ∧
            ∀ l' < l, slotIno e I.data dir (k * entriesPerBlock e + l') ≠ 0) := fun d h => by
      have hino := fun {l} (hl : l < entriesPerBlock e) =>
        slotIno_buffer hm hl (h.agree (hd.area k (by omega)))
      refine ⟨h, ?_⟩
      rcases @freeInBlock_eq d.cacheData (entriesPerBlock e) (i * e.sbi.sBlockSize) with
        ⟨hnone, hall⟩ | ⟨l, hl, hsome, hl', hbelow⟩
      · exact .inl ⟨hnone, fun l hl => by rw [← hino hl]; exact hall l hl⟩
      · refine .inr ⟨l, hl, hsome, by rw [← hino hl]; exact hl', fun l' h' => ?_⟩
        rw [← hino (h'.trans hl)]
        exact hbelow l' h'
    refine hread.bind fun res => Hoare.assume fun hres => ?_
    rcases hres with ⟨rfl, hno⟩ | ⟨l, hl, rfl, hfree, hbelow⟩
    · have hnot : ∀ j, k * entriesPerBlock e ≤ j → j < k * entriesPerBlock e + entriesPerBlock e →
          slotIno e I.data dir j ≠ 0 := fun j hlo hhi => by
        obtain ⟨l, rfl⟩ := Nat.exists_eq_add_of_le hlo
        exact hno l (by omega)
      have hhead : (dir.iData.drop (k + 1) ++ behind).headD 0 = dir.iData.getD (k + 1) 0 := by
        rw [drop_iData (by omega)]
        rfl
      dsimp only
      rw [hhead]
      rcases Nat.eq_zero_or_pos r with rfl | hr0
      · -- the word behind the last block
        rw [if_pos (hd.packed.getD_eq (by omega))]
        refine .pure fun d h => ⟨by omega, fun j hlo hhi => hnot j hlo ?_, h.on⟩
        rw [slots, show dir.blocks = k + 1 by omega, Nat.succ_mul] at hhi
        exact hhi
      · rw [if_neg (Inode.getD_ne (by omega))]
        refine ((ih (by omega) hr0).pre fun d h => h.on).post fun res d h => ?_
        cases res with
        | fail => exact h
        | slot block cs de =>
          obtain ⟨i, j, hblock, hcs, hde, ⟨hlo, hhi, hj, hfirst⟩, hhold⟩ := h
          rw [Nat.succ_mul] at hlo hfirst
          refine ⟨i, j, hblock, hcs, hde, ⟨by omega, hhi, hj, fun j' hlo' hlt => ?_⟩, hhold⟩
          by_cases hj' : j' < k * entriesPerBlock e + entriesPerBlock e
          · exact hnot j' hlo' hj'
          · exact hfirst j' (by omega) hlt
        | full index =>
          obtain ⟨hindex, hall, hon⟩ := h
          refine ⟨hindex, fun j hlo hhi => ?_, hon⟩
          by_cases hj : j < k * entriesPerBlock e + entriesPerBlock e
          · exact hnot j hlo hj
          · exact hall j (by rw [Nat.succ_mul]; omega) hhi
    · have hdiv : (k * entriesPerBlock e + l) / entriesPerBlock e = k := by
        rw [Nat.mul_comm, Nat.mul_add_div hE, Nat.div_eq_of_lt hl, Nat.add_zero]
      have hmod : (k * entriesPerBlock e + l) % entriesPerBlock e = l := by
        rw [Nat.mul_comm, Nat.mul_add_mod, Nat.mod_eq_of_lt hl]
      refine .pure fun d h => ⟨i, k * entriesPerBlock e + l, by rw [slotBlock, hdiv], rfl,
        by rw [slotPlace, hmod], ⟨Nat.le_add_right _ _, by omega, hfree, fun j hlo hlt => ?_⟩, h⟩
      obtain ⟨l', rfl⟩ := Nat.exists_eq_add_of_le hlo
      exact hbelow l' (by omega)

/-- **The walk of `tfs_add_entry`** ends at the first free slot of the directory. -/
theorem findPlace_image (hs : Steady e) (hd : DirOn e dir) (hroom : dir.blocks < TFS_N_BLOCKS) :
    Hoare (ImageOn e I) (findPlace e dir) (PlacedIn e I dir 0) := by
  unfold findPlace
  refine .ite (fun h0 => .pure fun d h => ?_) fun h0 => ?_
  · have hblocks : dir.blocks = 0 := Nat.eq_zero_of_not_pos fun hpos => Inode.getD_ne hpos h0
    refine ⟨by rw [hblocks], fun j _ hj => ?_, h⟩
    rw [slots, hblocks, Nat.zero_mul] at hj
    exact absurd hj (Nat.not_lt_zero j)
  · have hpos : 0 < dir.blocks := hd.packed.lt_blocks_iff.mpr h0
    have hwords : Hoare (ImageOn e I) (dataWords e dir) fun r d =>
        ImageOn e I d ∧ ∃ behind, r = dir.iData ++ behind := fun d h => ⟨h.tick, _, rfl⟩
    refine hwords.bind fun r => Hoare.assume ?_
    rintro ⟨behind, rfl⟩
    exact addEntryLoop_image (k := 0) hs hd hroom behind (Nat.zero_add _) hpos

/-! ### Adding -/

/-- The size with an entry more. -/
def Inode.grown (dir : Inode) : Inode := { dir with iSize := (dir.iSize + sizeofDirEntry) % 2 ^ 32 }

/-- Where the next entry of a directory goes, and the image and the inode with room there:
to the first free slot, or to the first of a new block. -/
inductive RoomFor (e : Env) (I : Image) (dir : Inode) : Image → Inode → ℕ → Prop
  | slot {j : ℕ} (first : FirstFree e I dir 0 j) : RoomFor e I dir I dir j
  | block {b : ℕ} (none : NoneFree e I dir 0) (lt : b < 8 * e.sbi.sBlockSize)
      (free : I.blockUsed b = false) :
      RoomFor e I dir ((I.useBlock b true).setData b fun _ => 0) (dir.setData dir.blocks b)
        (slots e dir)

/-- The blocks whose bits are clear are blocks of data. -/
def FreeInData (e : Env) (I : Image) : Prop :=
  ∀ b < 8 * e.sbi.sBlockSize, I.blockUsed b = false → InData e.sbi b

theorem slotPlace_slots (dir : Inode) : slotPlace e (slots e dir) = 0 := by
  rw [slotPlace, slots, Nat.mul_mod_left, Nat.mul_zero]

theorem slotBlock_slots (hm : Mounted e.sbi) (hroom : dir.blocks < TFS_N_BLOCKS) :
    slotBlock e (dir.setData dir.blocks b) (slots e dir) = b := by
  rw [slotBlock, slots, Nat.mul_div_cancel _ hm.entriesPerBlock_pos, getD_setData hroom, if_pos rfl]

/-- The end of `tfs_add_entry`. -/
theorem putEntry_image (hs : Steady e) (dir : Inode) (name : List UInt8)
    (hb : InData e.sbi b) {off : ℕ} (hoff : off + sizeofDirEntry ≤ e.sbi.sBlockSize) (inr : ℤ) :
    Hoare (EditedImage e I i b f)
      (putEntry e dir name inr b (.entry i) (i * e.sbi.sBlockSize + off)) fun r d =>
      r = (0, dir.grown, true) ∧
        ImageOn e (I.setData b (blit f off sizeofDirEntry (newEntry inr name))) d := by
  refine (copyIn_image hoff _).bind fun _ => dataPtr_edited.bind_eq ?_
  refine (tfsBwrite_image hs hb).bind_eq ?_
  rw [if_neg (not_not.mpr rfl)]
  exact .pure fun d h => ⟨rfl, h⟩

theorem setData_setData (I : Image) (b : ℕ) (f f' : Buf) :
    (I.setData b f).setData b f' = I.setData b f' := by
  rw [Image.setData, Image.setData, Image.setData, Function.update_idem]

/-- An entry at the beginning of a block that is cleared. -/
theorem addFirst_image (hs : Steady e) (hb : InData e.sbi b) (name : List UInt8) (inr : ℤ)
    (dir : Inode) (dirty : Bool) :
    Hoare (ImageOn e I) (do
      match ← getCacheBlock e e.sbi b with
      | none => pure (- EIO, dir, dirty)
      | some cs => putFirstEntry e dir name inr b cs) fun r d =>
      r = (0, dir.grown, true) ∧
        ImageOn e (I.setData b (blit (fun _ => 0) 0 sizeofDirEntry (newEntry inr name))) d := by
  refine request_image hs fun i => ?_
  have hclear : Hoare (HoldingImage e I i b)
      (copyIn (i * e.sbi.sBlockSize) e.sbi.sBlockSize fun _ => 0) fun _ d =>
        EditedImage e I i b (fun _ => 0) d := fun d h => by
    have hcopy := copyIn_image (show 0 + e.sbi.sBlockSize ≤ e.sbi.sBlockSize by omega)
      (fun _ => 0) d
      (h.edited hb)
    refine EditedImage.congr hcopy fun x hx => ?_
    rw [blit_of_mem ⟨Nat.zero_le x, by omega⟩]
  refine dataPtr_image.bind_eq (hclear.bind fun _ => ?_)
  have hfit := slotPlace_le (e := e) hs.geometry.mounted 0
  exact putEntry_image hs dir name hb (show 0 + sizeofDirEntry ≤ e.sbi.sBlockSize by omega) inr

/-- **`tfs_add_entry`**, where there is room. -/
theorem tfsAddEntry_image (hs : Steady e) (hd : DirOn e dir) (hroom : dir.blocks < TFS_N_BLOCKS)
    (hdata : FreeInData e I) (hlen : name.length ≤ TFS_NAME_LEN) (inr : ℤ) (dirty : Bool)
    (hfree : NoneFree e I dir 0 → ∃ b < 8 * e.sbi.sBlockSize, I.blockUsed b = false) :
    Hoare (ImageOn e I) (tfsAddEntry e dir name inr dirty) fun r d =>
      ∃ I' dir' j, RoomFor e I dir I' dir' j ∧ r = (0, dir'.grown, true) ∧
        ImageOn e (I'.putSlot e dir' j sizeofDirEntry (newEntry inr name)) d := by
  have g := hs.geometry
  have hm := g.mounted
  rw [tfsAddEntry, if_neg (Nat.not_lt.mpr hlen)]
  refine (findPlace_image hs hd hroom).bind fun place => ?_
  cases place with
  | fail => exact fun d h => h.elim
  | slot block cs de =>
    rintro d ⟨i, j, rfl, rfl, rfl, hfirst, hhold⟩
    rw [Nat.zero_mul] at hfirst
    have harea : InData e.sbi (slotBlock e dir j) := hd.area _ (div_lt_blocks hm hfirst.2.1)
    obtain ⟨hr, hon⟩ := putEntry_image hs dir name harea (slotPlace_le hm j) inr d
      (hhold.edited harea)
    exact ⟨I, dir, j, .slot hfirst, hr, hon⟩
  | full index =>
    refine Hoare.pre (P := fun d => ImageOn e I d ∧ (index = dir.blocks + 1 ∧
      NoneFree e I dir 0)) ?_
      fun d h => ⟨h.2.2, h.1, by have := h.2.1; rwa [Nat.zero_mul] at this⟩
    refine Hoare.assume ?_
    rintro ⟨rfl, hnone⟩
    refine (tfsAllocBlock_image hs).bind fun r d h => ?_
    rcases h with ⟨-, hall, -⟩ | ⟨b, hb, rfl, hbfree, hon⟩
    · obtain ⟨b, hb, hbfree⟩ := hfree hnone
      rw [hall b hb] at hbfree
      cases hbfree
    · have hb32 : toU32 (b : ℤ) = b := toU32_natCast (by have := g.small; omega)
      have hbdata := hdata b hb hbfree
      rw [hb32, if_neg (by omega), Nat.add_sub_cancel]
      obtain ⟨hr, hon'⟩ := addFirst_image hs hbdata name inr (dir.setData dir.blocks b) _ d hon
      refine ⟨_, _, _, .block hnone hb hbfree, hr, ?_⟩
      have hcleared : ((I.useBlock b true).setData b fun _ => 0).data b = fun _ => 0 :=
        Function.update_self _ _ _
      rw [Image.putSlot, slotBlock_slots hm hroom, slotPlace_slots, setData_setData, hcleared]
      exact hon'

/-! ### Removing -/

theorem Kept.holding (h : Kept e i b B d) (hon : ImageOn e I d) : HoldingImage e I i b d := by
  obtain ⟨pre, post, hos, hlab, -⟩ := h
  obtain ⟨v, hv, hshow⟩ := hon
  exact ⟨v, ⟨hv, hos.mem_iff.mp (List.mem_append_right _ List.mem_cons_self), hlab⟩, hshow⟩

/-- **The end of a removal** clears the slot of an entry that is still in the cache. -/
theorem clearEntry_image (hs : Steady e) (hd : DirOn e dir) (hj : j < slots e dir) :
    Hoare (fun d => ImageOn e I d ∧ Kept e i (slotBlock e dir j) B d)
      (clearEntry e (.entry i) (i * e.sbi.sBlockSize + slotPlace e j)) fun r d =>
      r = 0 ∧ ImageOn e (I.putSlot e dir j 4 fun _ => 0) d := by
  have hm := hs.geometry.mounted
  have harea : InData e.sbi (slotBlock e dir j) := hd.area _ (div_lt_blocks hm hj)
  have hplace := slotPlace_le hm j
  rw [sizeofDirEntry] at hplace
  refine Hoare.pre (P := EditedImage e I i (slotBlock e dir j) (I.data (slotBlock e dir j))) ?_
    fun d h => (h.2.holding h.1).edited harea
  refine (copyIn_image (show slotPlace e j + 4 ≤ e.sbi.sBlockSize by omega) _).bind fun _ => ?_
  have hblock : Hoare (EditedImage e I i (slotBlock e dir j)
      (blit (I.data (slotBlock e dir j)) (slotPlace e j) 4 fun _ => 0))
        (blockOf (.entry i)) fun r d =>
        r = slotBlock e dir j ∧ EditedImage e I i (slotBlock e dir j)
          (blit (I.data (slotBlock e dir j)) (slotPlace e j) 4 fun _ => 0) d := fun d h => by
    obtain ⟨v, ⟨hos, hv⟩, hshow⟩ := h
    exact ⟨hv.label, v, ⟨hos, hv⟩, hshow⟩
  exact hblock.bind_eq (dataPtr_edited.bind_eq (tfsBwrite_image hs harea))

/-- An entry is kept while a record is read. -/
theorem tfsReadInode_kept (hs : Steady e) {n : ℕ} (hn : InTable e.sbi n)
    (hempty : emptyBlock ∉ insert (recordBlock e.sbi n) B)
    (hcard : (insert (recordBlock e.sbi n) B).card < numEntries e.sbi.sBlockShift) :
    Hoare (Kept e i b B) (tfsReadInode e n) fun _ d =>
      Kept e i b (insert (recordBlock e.sbi n) B) d := by
  unfold tfsReadInode
  rw [toU32_recordBlock hs hn]
  refine Hoare.bind (Q := fun _ => Kept e i b (insert (recordBlock e.sbi n) B))
    (fun d h => h.request hs.geometry.mounted e.sbi hempty hcard) fun r => ?_
  cases r with
  | none => exact fun d h => h.congr rfl rfl
  | some cs =>
    refine Hoare.bind (Q := fun _ => Kept e i b (insert (recordBlock e.sbi n) B)) (fun d h => h)
      fun data => .ite (fun _ d h => h.congr rfl rfl) fun _ d h => h

/-- And while one is written. -/
theorem tfsIwrite_kept (hs : Steady e) {inode : Inode} (hn : InTable e.sbi inode.iIno)
    (hwords : inode.Words) (hempty : emptyBlock ∉ insert (recordBlock e.sbi inode.iIno) B)
    (hcard : (insert (recordBlock e.sbi inode.iIno) B).card < numEntries e.sbi.sBlockShift) :
    Hoare (fun d => ImageOn e I d ∧ Kept e i b B d) (tfsIwrite e inode) fun _ d =>
      Kept e i b (insert (recordBlock e.sbi inode.iIno) B) d := fun d ⟨hon, hkept⟩ => by
  have g := hs.geometry
  have hb := g.record_mem hn
  obtain ⟨v, ⟨⟨os, hos⟩, hv⟩, -⟩ := hon
  obtain ⟨_, d', hrun, -, -, -, -, hcache⟩ :=
    tfsIwrite_contents g.mounted.toRecords hs.quiet g.apart
    hn.1 hwords.ino ((g.lt_two_pow hb).trans (by decide)) hb hos hv
  obtain ⟨hc, hn'⟩ := hcache _ rfl
  rw [hrun]
  exact (hkept.request g.mounted e.sbi hempty hcard).congr hc hn'

/-! ### Releasing -/

/-- The blocks of an inode, in their order. -/
def Inode.blockList (inode : Inode) : List ℕ := inode.iData.takeWhile (· ≠ 0)

/-- Blocks are given back. -/
def Image.freeBlocks (I : Image) (bs : List ℕ) : Image :=
  { I with blockUsed := fun b => if b ∈ bs then false else I.blockUsed b }

theorem Inode.mem_blockList {inode : Inode} :
    b ∈ inode.blockList ↔ ∃ k < inode.blocks, inode.iData.getD k 0 = b := by
  have hpre : inode.blockList <+: inode.iData := List.takeWhile_prefix _
  rw [List.mem_iff_getElem]
  refine exists_congr fun k => ⟨fun ⟨hk, h⟩ => ⟨hk, ?_⟩, fun ⟨hk, h⟩ => ⟨hk, ?_⟩⟩
  · rw [← h, hpre.getElem hk, List.getD_eq_getElem _ _ (hpre.length_le.trans_lt' hk)]
  · rw [← h, hpre.getElem hk, List.getD_eq_getElem _ _ (hpre.length_le.trans_lt' hk)]

theorem Inode.drop_blockList {inode : Inode} (hk : k < inode.blocks) :
    inode.blockList.drop k = inode.iData.getD k 0 :: inode.blockList.drop (k + 1) := by
  have hpre : inode.blockList <+: inode.iData := List.takeWhile_prefix _
  have hlt : k < inode.blockList.length := hk
  rw [List.drop_eq_getElem_cons hlt, hpre.getElem hlt,
    List.getD_eq_getElem _ _ (hpre.length_le.trans_lt' hlt)]

theorem freeBlocks_cons (I : Image) (b : ℕ) (bs : List ℕ) :
    (I.useBlock b false).freeBlocks bs = I.freeBlocks (b :: bs) := by
  have hused : (fun b' => if b' ∈ bs then false else Function.update I.blockUsed b false b') =
      fun b' => if b' ∈ b :: bs then false else I.blockUsed b' := funext fun b' => by
    by_cases hb : b' = b
    · rw [hb, Function.update_self, if_pos List.mem_cons_self, ite_self]
    · rw [Function.update_of_ne hb]
      simp only [List.mem_cons, hb, false_or]
  rw [Image.freeBlocks, Image.freeBlocks, ← hused]
  rfl

/-- **The loop of `tfs_release_inode`** gives the blocks back, from one on. -/
theorem releaseLoop_image (hs : Steady e) {inode : Inode}
    (hdata : ∀ k < inode.blocks, InData e.sbi (inode.iData.getD k 0)) {n : ℕ}
    (hn : n + k = TFS_N_BLOCKS) (hk : k ≤ inode.blocks) :
    Hoare (ImageOn e I) (releaseLoop e inode n k 0) fun r d =>
      r = 0 ∧ ImageOn e (I.freeBlocks (inode.blockList.drop k)) d := by
  have hend : ∀ {I : Image} {k}, inode.blocks ≤ k → I.freeBlocks (inode.blockList.drop k) = I :=
    fun {I k} h => by
      rw [List.drop_eq_nil_of_le (show inode.blockList.length ≤ k from h), Image.freeBlocks]
      simp
  induction n generalizing k I with
  | zero =>
    refine .pure fun d h => ⟨rfl, ?_⟩
    rw [hend (by have := inode.blocks_le; omega)]
    exact h
  | succ n ih =>
    have hbmap : tfsBmap inode k = inode.iData.getD k 0 := if_neg (by omega)
    rw [releaseLoop, hbmap]
    by_cases hlt : k < inode.blocks
    · have hb := hdata k hlt
      have hb8 : inode.iData.getD k 0 < 8 * e.sbi.sBlockSize :=
        lt_of_lt_of_le hb.2 hs.geometry.blocks
      rw [if_neg (Inode.getD_ne hlt), Inode.drop_blockList hlt, ← freeBlocks_cons]
      refine (tfsFreeBlock_image hs hb8).bind_eq ?_
      rw [if_neg (by decide)]
      exact ih (by omega) hlt
    · rw [if_pos (by rw [show k = inode.blocks by omega]; exact inode.getD_blocks),
        hend (Nat.le_of_not_lt hlt)]
      exact .pure fun d h => ⟨rfl, h⟩

end Thunix.Fs
