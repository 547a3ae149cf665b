import Thunix.Mm.Tiles

/-!
# A release coalesces

Where no two neighbouring blocks are free, a release leaves none either. The
block freed and its free neighbours, of which there is at most one on each side, become
one free block (`Thunix.Mm.Coalesced`); the other blocks stay where they are, with their
sizes and what they hold (`Thunix.Mm.free_coalesces`).

The statement is about every heap of at least two blocks, not only about those that the
allocator builds itself. With a single block `try_merge_back` asks a block at
`NULL` whether it is free.
-/

namespace Thunix.Mm

variable {m m' : Mem} {A S n : ℕ} {pre post ps qs ts : List Tile} {t P c : Tile}

/-- No two neighbours are free. -/
def NoAdjacentFree (ts : List Tile) : Prop :=
  ts.IsChain fun x y => x.isFree = false ∨ y.isFree = false

/-- The free block that the tile `t` and its neighbours become. -/
def absorb (ps : List Tile) (t : Tile) (qs : List Tile) : Tile where
  size := total ps + (t.size + total qs)
  isFree := true
  min_le := by have := t.min_le; omega

/-- The memory `m'` is that of a heap in which the tile `t` and free neighbours
of it, `ps` before it and `qs` behind it, have become one free block. -/
structure Coalesced (m m' : Mem) (pre ps : List Tile) (t : Tile) (qs post : List Tile) : Prop where
  tiles : Tiles m' memory 0 (pre ++ absorb ps t qs :: post)
  /-- Nothing is written outside the block, up to the back link of the next one. -/
  out : ∀ y, y < memory + total pre ∨ memory + total pre + (absorb ps t qs).size < y → m' y = m y
  /-- Only free blocks are swallowed, -/
  free : ∀ x ∈ ps ++ qs, x.isFree = true
  /-- and none is left beside the block. -/
  before : ∀ x ∈ pre.getLast?, x.isFree = false
  behind : ∀ x ∈ post.head?, x.isFree = false

/-! ### The branches of `free` -/

/-- The tiles before a free one end with one in use. -/
theorem NoAdjacentFree.before (h : NoAdjacentFree (pre ++ t :: ts)) (ht : t.isFree = true) :
    ∀ x ∈ pre.getLast?, x.isFree = false := by
  intro x hx
  rcases (List.isChain_append.mp h).2.2 x hx t rfl with h | h
  · exact h
  · rw [ht] at h
    cases h

/-- The tiles behind a free one start with one in use. -/
theorem NoAdjacentFree.behind (pre : List Tile) (h : NoAdjacentFree (pre ++ t :: ts))
    (ht : t.isFree = true) : ∀ x ∈ ts.head?, x.isFree = false := by
  intro x hx
  rcases (List.isChain_cons.mp (List.isChain_append.mp h).2.1).1 x hx with h | h
  · rw [ht] at h
    cases h
  · exact h

/-- A release that replaces a block and its free neighbours by one coalesces. -/
theorem Replaced.coalesced (h : Replaced m m' S n) (hS : S = memory + total pre)
    (hn : n = total ps + (t.size + total qs)) (hw : Tiled m (pre ++ (ps ++ t :: qs) ++ post))
    (hfree : ∀ x ∈ ps ++ qs, x.isFree = true) (hbefore : ∀ x ∈ pre.getLast?, x.isFree = false)
    (hbehind : ∀ x ∈ post.head?, x.isFree = false) : Coalesced m m' pre ps t qs post := by
  obtain rfl : n = (absorb ps t qs).size := hn
  subst hS
  have hend : memEnd = memory + memSize := rfl
  have hsize : total (ps ++ t :: qs) = (absorb ps t qs).size := by
    rw [total_append, total_cons]
    rfl
  have htotal := hw.total_eq
  rw [total_append, total_append, hsize] at htotal
  exact ⟨h.tiles hw.tiles rfl (by simp) hsize rfl (by omega),
    fun y hy => h.out y (hy.imp_left Nat.le_of_lt), hfree, hbefore, hbehind⟩

/-- The first block. -/
theorem tryMergeBack_coalesced (hw : Tiled m (t :: c :: post))
    (hgap : NoAdjacentFree (t :: c :: post)) :
    ∃ qs post', c :: post = qs ++ post' ∧
      Coalesced m (tryMergeBack m memory).2 [] [] t qs post' := by
  have ht := t.twelve_le
  have hc := c.twelve_le
  have hend : memEnd = memory + memSize := rfl
  have htotal := hw.total_eq
  simp only [total_cons] at htotal
  obtain ⟨hht, hhc, -⟩ := hw.tiles
  have hnext : getNext m memory = memory + t.size := by
    rw [hht.getNext_eq (by omega), if_neg (by omega)]
  have hflag : freeOf (setFree m memory 1) (memory + t.size) = c.flag := by
    rw [freeOf, setFree, put_ne (by omega)]
    exact hhc.free
  rw [tryMergeBack, hnext, hflag]
  by_cases hcf : c.isFree = true
  · rw [if_pos (Tile.flag_ne_zero_iff.mpr hcf)]
    have hm : Merged Eq (setFree m memory 1) (mergeBack (setFree m memory 1) memory
        (memory + t.size)).2 memory (t.size + c.size) :=
      mergeBack_merged (fun _ => rfl) (by rw [setFree, put_ne (by omega)]; exact hht.size)
        (by rw [setFree, put_ne (by omega)]; exact hhc.size) ht hc (by omega)
    exact ⟨[c], post, rfl, Replaced.coalesced ((hm.replaced (by omega)).of_setFree (by omega)
      (by omega)) rfl (by simp) hw (by simpa using hcf) (by simp) (hgap.behind [t] hcf)⟩
  · rw [if_neg (mt Tile.flag_ne_zero_iff.mp hcf)]
    have hm : Merged Eq m (setFree m memory 1) memory t.size :=
      setFree_merged hht.size ht fun _ => hhc.prev
    exact ⟨[], c :: post, rfl, Replaced.coalesced (hm.replaced ht) rfl (by simp) hw (by simp)
      (by simp) (by simpa using hcf)⟩

/-- The last block. -/
theorem tryMergeFront_coalesced (hw : Tiled m (pre ++ [P] ++ [t]))
    (hgap : NoAdjacentFree (pre ++ [P] ++ [t])) (hA : A = memory + total (pre ++ [P])) :
    ∃ pre' ps, pre ++ [P] = pre' ++ ps ∧
      Coalesced m (tryMergeFront m A).2 pre' ps t [] [] := by
  obtain ⟨S, hS⟩ : ∃ S, S = memory + total pre := ⟨_, rfl⟩
  obtain rfl : A = S + P.size := by
    rw [hA, hS, total_append, total_cons, total_nil, Nat.add_zero, Nat.add_assoc]
  have ht := t.twelve_le
  have hP := P.twelve_le
  have hend : memEnd = memory + memSize := rfl
  have htotal := hw.total_eq
  simp only [total_append, total_cons, total_nil] at htotal
  obtain ⟨htpP, htt⟩ := tiles_append.mp hw.tiles
  have hhP := (tiles_append.mp htpP).2.1
  have hht := htt.1
  rw [lastAddr_concat, ← hA, ← hS] at hht
  rw [← hS] at hhP
  have hprev : prevOf (setFree m (S + P.size) 1) (S + P.size) = S := by
    rw [prevOf, setFree, put_ne (by omega)]
    exact hht.prev
  have hflag : freeOf (setFree m (S + P.size) 1) S = P.flag := by
    rw [freeOf, setFree, put_ne (by omega)]
    exact hhP.free
  rw [tryMergeFront, hprev, hflag]
  by_cases hPf : P.isFree = true
  · rw [if_pos (Tile.flag_ne_zero_iff.mpr hPf)]
    have hm : Merged Eq (setFree m (S + P.size) 1)
        (mergeFront (setFree m (S + P.size) 1) (S + P.size) S).2 S (P.size + t.size) :=
      mergeFront_merged (fun _ => rfl) (by rw [setFree, put_ne (by omega)]; exact hhP.size)
        (by rw [setFree, put_ne (by omega)]; exact hht.size)
        (hflag.trans (Tile.flag_of_free hPf)) hP ht (by omega)
    rw [List.append_assoc] at hgap
    exact ⟨pre, [P], rfl, Replaced.coalesced ((hm.replaced (by omega)).of_setFree (by omega)
      (by omega)) hS (by simp) (by simpa using hw) (by simpa using hPf) (hgap.before hPf)
      (by simp)⟩
  · rw [if_neg (mt Tile.flag_ne_zero_iff.mp hPf)]
    have hm : Merged Eq m (setFree m (S + P.size) 1) (S + P.size) t.size :=
      setFree_merged hht.size ht fun hne => absurd (by omega) hne
    exact ⟨pre ++ [P], [], by simp, Replaced.coalesced (hm.replaced ht) hA (by simp)
      (by simpa using hw) (by simp) (by simpa using hPf) (by simp)⟩

/-- A block between two others. -/
theorem free_inner_coalesced {x : ℕ} (hw : Tiled m (pre ++ [P] ++ t :: c :: post))
    (hgap : NoAdjacentFree (pre ++ [P] ++ t :: c :: post)) (hu : t.isFree = false)
    (hA : A = memory + total (pre ++ [P])) :
    ∃ pre' ps qs post', pre ++ [P] = pre' ++ ps ∧ c :: post = qs ++ post' ∧
      Coalesced m (free ⟨m, x⟩ (A + sizeofMemStruct)).mem pre' ps t qs post' := by
  obtain ⟨S, hS⟩ : ∃ S, S = memory + total pre := ⟨_, rfl⟩
  obtain rfl : A = S + P.size := by
    rw [hA, hS, total_append, total_cons, total_nil, Nat.add_zero, Nat.add_assoc]
  have ht := t.twelve_le
  have hP := P.twelve_le
  have hc := c.twelve_le
  have hmem : memory = 0x800000 := rfl
  have hend : memEnd = memory + memSize := rfl
  have htotal := hw.total_eq
  simp only [total_append, total_cons, total_nil] at htotal
  obtain ⟨htpP, htt⟩ := tiles_append.mp hw.tiles
  have hhP := (tiles_append.mp htpP).2.1
  obtain ⟨hht, hhc, -⟩ := htt
  rw [lastAddr_concat, ← hA, ← hS] at hht
  rw [← hA] at hhc
  rw [← hS] at hhP
  have hbusy : ¬ freeOf m (S + P.size) = 1 := by
    rw [hht.free, Tile.flag_of_inUse hu]
    decide
  have hnext : getNext m (S + P.size) = S + P.size + t.size := by
    rw [hht.getNext_eq (by omega), if_neg (by omega)]
  simp only [free, Nat.add_sub_cancel, if_neg hbusy, hht.prev, hnext, hhP.free, hhc.free]
  rw [if_neg (by omega), if_neg (by omega)]
  have hgap' : NoAdjacentFree (pre ++ P :: (t :: c :: post)) := by simpa using hgap
  have hw' : Tiled m (pre ++ ([P] ++ [t, c]) ++ post) := by simpa using hw
  by_cases hPf : P.isFree = true
  · have hP1 := Tile.flag_of_free hPf
    by_cases hcf : c.isFree = true
    · have hc1 := Tile.flag_of_free hcf
      rw [hP1, hc1, if_neg (by decide), if_neg (by decide), if_pos (by decide)]
      have hm : Merged Eq m (mergeBoth m (S + P.size) S (S + P.size + t.size)).2 S
          (P.size + (t.size + c.size)) :=
        mergeBoth_merged (fun _ => rfl) hhP.size hht.size hhc.size (hhP.free.trans hP1) hP ht hc
          (by omega)
      exact ⟨pre, [P], [c], post, rfl, rfl, Replaced.coalesced (hm.replaced (by omega)) hS
        (by simp) (by simpa using hw) (by simp [hPf, hcf]) (hgap'.before hPf)
        (NoAdjacentFree.behind (pre ++ [P, t]) (by simpa using hgap) hcf)⟩
    · have hc0 := Tile.flag_of_inUse (by simpa using hcf)
      rw [hP1, hc0, if_pos (by decide)]
      have hm : Merged Eq m (mergeFront m (S + P.size) S).2 S (P.size + t.size) :=
        mergeFront_merged (fun _ => rfl) hhP.size hht.size (hhP.free.trans hP1) hP ht (by omega)
      exact ⟨pre, [P], [], c :: post, rfl, rfl, Replaced.coalesced (hm.replaced (by omega)) hS
        (by simp) (by simpa using hw) (by simp [hPf]) (hgap'.before hPf) (by simpa using hcf)⟩
  · have hP0 := Tile.flag_of_inUse (by simpa using hPf)
    by_cases hcf : c.isFree = true
    · have hc1 := Tile.flag_of_free hcf
      rw [hP0, hc1, if_neg (by decide), if_pos (by decide)]
      have hm : Merged Eq m (mergeBack m (S + P.size) (S + P.size + t.size)).2 (S + P.size)
          (t.size + c.size) :=
        mergeBack_merged (fun _ => rfl) hht.size hhc.size ht hc (by omega)
      exact ⟨pre ++ [P], [], [c], post, by simp, rfl, Replaced.coalesced (hm.replaced (by omega)) hA
        (by simp) (by simpa using hw) (by simp [hcf]) (by simpa using hPf)
        (NoAdjacentFree.behind (pre ++ [P, t]) (by simpa using hgap) hcf)⟩
    · have hc0 := Tile.flag_of_inUse (by simpa using hcf)
      rw [hP0, hc0, if_neg (by decide), if_neg (by decide), if_neg (by decide)]
      have hm : Merged Eq m (setFree m (S + P.size) 1) (S + P.size) t.size :=
        setFree_merged hht.size ht fun _ => hhc.prev
      exact ⟨pre ++ [P], [], [], c :: post, by simp, rfl, Replaced.coalesced (hm.replaced ht) hA
        (by simp) (by simpa using hw) (by simp) (by simpa using hPf) (by simpa using hcf)⟩

/-- **Every release coalesces.** -/
theorem free_coalesced {x : ℕ} (hw : Tiled m (pre ++ t :: post)) (htwo : pre ++ post ≠ [])
    (hgap : NoAdjacentFree (pre ++ t :: post)) (hu : t.isFree = false)
    (hA : A = memory + total pre) : ∃ pre' ps qs post', pre = pre' ++ ps ∧ post = qs ++ post' ∧
      Coalesced m (free ⟨m, x⟩ (A + sizeofMemStruct)).mem pre' ps t qs post' := by
  have hmem : memory = 0x800000 := rfl
  have hend : memEnd = memory + memSize := rfl
  have htotal := hw.total_eq
  rw [total_append] at htotal
  have hbusy : freeOf m A ≠ 1 := by
    have hht := (tiles_append.mp hw.tiles).2.1
    rw [← hA] at hht
    rw [hht.free, Tile.flag_of_inUse hu]
    decide
  rcases List.eq_nil_or_concat pre with rfl | ⟨pre, P, rfl⟩
  · cases post with
    | nil => exact absurd rfl htwo
    | cons c post =>
      obtain rfl : A = memory := hA
      obtain ⟨qs, post', hpost, hco⟩ := tryMergeBack_coalesced hw hgap
      refine ⟨[], [], qs, post', rfl, hpost, ?_⟩
      simp only [free, Nat.add_sub_cancel, if_neg hbusy]
      rw [if_pos hw.tiles.1.prev]
      exact hco
  · rw [List.concat_eq_append] at hw hgap hA
    rw [List.concat_eq_append]
    cases post with
    | nil =>
      have hhA := (tiles_append.mp hw.tiles).2
      rw [lastAddr_concat, ← hA] at hhA
      have hprev := hhA.1.prev
      have hnext : getNext m A = 0 :=
        (hhA.getNext_eq (by rw [List.concat_eq_append] at htotal; omega)).trans (if_pos rfl)
      obtain ⟨pre', ps, hpre, hco⟩ := tryMergeFront_coalesced hw hgap hA
      refine ⟨pre', ps, [], [], hpre, rfl, ?_⟩
      simp only [free, Nat.add_sub_cancel, if_neg hbusy]
      rw [if_neg (by omega), if_pos hnext]
      exact hco
    | cons c post => exact free_inner_coalesced hw hgap hu hA

/-! ### What is left of the heap -/

/-- **What a release is to leave behind** of a heap with the blocks `ts`, from which the block
`t` at the address `a` is released. -/
structure Released (m m' : Mem) (ts new : List Tile) (a : ℕ) (t : Tile) : Prop where
  /-- The heap is well-formed, and its sizes sum to the arena. -/
  tiled : Tiled m' new
  gap : NoAdjacentFree new
  /-- The blocks in use are the others, at their addresses and with their sizes, -/
  inUse : ∀ a' t', t'.isFree = false → (TileAt new a' t' ↔ TileAt ts a' t' ∧ a' ≠ a)
  /-- and they hold what they have held. -/
  payload : ∀ a' t', t'.isFree = false → TileAt new a' t' →
    ∀ y, a' + sizeofMemStruct ≤ y → y < a' + t'.size → m' y = m y
  /-- The bytes freed belong to one free block. -/
  covered : ∃ s j, TileAt new s j ∧ j.isFree = true ∧ s ≤ a ∧ a + t.size ≤ s + j.size

theorem Coalesced.noAdjacentFree (h : Coalesced m m' pre ps t qs post)
    (hgap : NoAdjacentFree (pre ++ ps ++ t :: (qs ++ post))) :
    NoAdjacentFree (pre ++ absorb ps t qs :: post) := by
  have hpre : NoAdjacentFree pre := by
    rw [List.append_assoc] at hgap
    exact (List.isChain_append.mp hgap).1
  have hpost : NoAdjacentFree post := by
    rw [← List.cons_append, ← List.append_assoc] at hgap
    exact (List.isChain_append.mp hgap).2.1
  refine List.isChain_append.mpr ⟨hpre, List.isChain_cons.mpr ⟨fun y hy => .inr (h.behind y hy),
    hpost⟩, fun x hx y _ => .inl (h.before x hx)⟩

theorem Coalesced.released (h : Coalesced m m' pre ps t qs post)
    (hw : Tiled m (pre ++ ps ++ t :: (qs ++ post)))
    (hgap : NoAdjacentFree (pre ++ ps ++ t :: (qs ++ post)))
    (hA : A = memory + total (pre ++ ps)) :
    Released m m' (pre ++ ps ++ t :: (qs ++ post)) (pre ++ absorb ps t qs :: post) A t := by
  have ht := t.twelve_le
  have hsize : (absorb ps t qs).size = total ps + (t.size + total qs) := rfl
  rw [total_append] at hA
  -- A block in use of the new heap is before the free block or behind it.
  have hnew : ∀ a' t', t'.isFree = false → (TileAt (pre ++ absorb ps t qs :: post) a' t' ↔
      TileIn memory pre a' t' ∨
        TileIn (memory + total pre + (absorb ps t qs).size) post a' t') := by
    intro a' t' hu'
    rw [TileAt, tileIn_append, TileIn]
    refine or_congr Iff.rfl (or_iff_right ?_)
    rintro ⟨-, rfl⟩
    cases hu'
  refine ⟨⟨h.tiles, ?_⟩, h.noAdjacentFree hgap, fun a' t' hu' => ?_,
    fun a' t' hu' hat y hlo hhi => ?_, _, _, tileIn_mid pre post _, rfl, by omega, by omega⟩
  · have htotal := hw.total_eq
    simp only [total_append, total_cons] at htotal ⊢
    omega
  · rw [hnew a' t' hu', TileAt, tileIn_append, tileIn_append, TileIn, tileIn_append]
    constructor
    · rintro (hp | hp)
      · have := hp.range
        have := t'.twelve_le
        exact ⟨.inl (.inl hp), by omega⟩
      · have := hp.range
        rw [hsize, ← Nat.add_assoc, ← Nat.add_assoc] at hp
        refine ⟨.inr (.inr (.inr ?_)), by omega⟩
        rwa [total_append, ← Nat.add_assoc]
    · rintro ⟨(hp | hp) | ⟨ha, -⟩ | hp | hp, hne⟩
      · exact .inl hp
      · rw [h.free _ (List.mem_append_left _ hp.mem)] at hu'
        cases hu'
      · rw [total_append] at ha
        omega
      · rw [h.free _ (List.mem_append_right _ hp.mem)] at hu'
        cases hu'
      · refine .inr ?_
        rw [hsize, ← Nat.add_assoc, ← Nat.add_assoc]
        rwa [total_append, ← Nat.add_assoc] at hp
  · have : 12 ≤ t'.size := t'.twelve_le
    have h12 : sizeofMemStruct = 12 := rfl
    rcases (hnew a' t' hu').mp hat with hp | hp
    · have := hp.range
      exact h.out y (.inl (by omega))
    · have := hp.range
      exact h.out y (.inr (by omega))

/-- **A release coalesces completely and touches nothing else.** -/
theorem free_coalesces (h : Heap) (ts : List Tile) (a : ℕ) (t : Tile) (hw : Tiled h.mem ts)
    (htwo : 2 ≤ ts.length) (hgap : NoAdjacentFree ts) (ht : TileAt ts a t)
    (hu : t.isFree = false) :
    ∃ new, Released h.mem (free h (a + sizeofMemStruct)).mem ts new a t := by
  obtain ⟨pre, post, rfl, rfl⟩ := ht.split
  have hother : pre ++ post ≠ [] := by
    intro hnil
    obtain ⟨rfl, rfl⟩ := List.append_eq_nil_iff.mp hnil
    exact absurd htwo (show ¬ 2 ≤ 1 by decide)
  obtain ⟨pre', ps, qs, post', rfl, rfl, hco⟩ :=
    free_coalesced (x := h.nextStart) hw hother hgap hu rfl
  exact ⟨_, hco.released hw hgap rfl⟩

/-- A heap of a block in use and a free one. -/
def twoBlocks : Mem := fun x =>
  if x = memory + 4 then 112
  else if x = memory + 112 then UInt32.ofNat memory
  else if x = memory + 116 then UInt32.ofNat (memSize - 112)
  else if x = memory + 120 then 1
  else 0

/-- Its blocks. -/
def twoTiles : List Tile := [⟨112, false, by decide⟩, ⟨memSize - 112, true, by decide⟩]

theorem tiled_twoBlocks : Tiled twoBlocks twoTiles :=
  ⟨⟨⟨by decide +kernel, by decide +kernel, by decide +kernel⟩,
    ⟨by decide +kernel, by decide +kernel, by decide +kernel⟩, trivial⟩, by decide⟩

theorem free_coalesces_twoBlocks : Tiled twoBlocks twoTiles ∧ NoAdjacentFree twoTiles ∧
    ∃ new, Released twoBlocks (free ⟨twoBlocks, memory + 112⟩ (memory + sizeofMemStruct)).mem
      twoTiles new memory ⟨112, false, by decide⟩ :=
  have hgap : NoAdjacentFree twoTiles := List.isChain_pair.mpr (.inl rfl)
  ⟨tiled_twoBlocks, hgap, free_coalesces ⟨twoBlocks, memory + 112⟩ twoTiles memory _
    tiled_twoBlocks (by decide) hgap (.inl ⟨rfl, rfl⟩) rfl⟩

end Thunix.Mm
