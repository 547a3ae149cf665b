import Thunix.Mm.Tiles

/-!
# Requests of any size

The argument of `malloc` is an `int`, and `size_needed` is computed from it without a
test. The sum is unsigned and wraps around, and what becomes of it is an `int` again:
for a negative request, and for one within 15 of the largest, it is less than
a header, negative in most cases (`Thunix.Mm.sizeNeeded_le`). The search then accepts the
block at `next_start`, and `malloc` hands it out. For every other request the
block returned has the room that was asked for (`Thunix.Mm.safeMalloc_iff`).

The heap is any one whose `next_start` is the header of a free block.
-/

namespace Thunix.Mm

variable {m : Mem} {a p fuel : ℕ} {need size : ℤ} {t : Tile} {ts : List Tile} {h : Heap}

/-! ### The size needed -/

/-- A request that is not negative and not within 15 of the largest has room for a
header added. -/
theorem sizeNeeded_of_inRange (h0 : 0 ≤ size) (h1 : size + 15 < 2 ^ 31) :
    sizeNeeded size = (size + 15) / 4 * 4 := by
  have h12 : sizeofMemStruct = 12 := rfl
  rw [sizeNeeded, toInt_of_lt] <;> rw [toNat_ofNat_of_lt] <;> omega

theorem sizeNeeded_bounds (h0 : 0 ≤ size) (h1 : size + 15 < 2 ^ 31) :
    size + 12 ≤ sizeNeeded size ∧ 12 ≤ sizeNeeded size := by
  rw [sizeNeeded_of_inRange h0 h1]
  omega

/-- **For every other request the sum wraps around**: what is needed is no more than
a header. -/
theorem sizeNeeded_le (hlo : -2 ^ 31 ≤ size) (hhi : size < 2 ^ 31)
    (hout : ¬ (0 ≤ size ∧ size + 15 < 2 ^ 31)) : sizeNeeded size ≤ 12 := by
  have h12 : sizeofMemStruct = 12 := rfl
  rw [sizeNeeded, toInt, toNat_ofNat_of_lt (by omega)]
  split <;> omega

/-! ### The search -/

theorem Header.sizeOf_eq (h : Header m a p t) (ht : t.size < 2 ^ 31) : sizeOf m a = t.size := by
  rw [sizeOf, toInt_of_lt (by rw [h.size]; exact ht), h.size]

/-- What the search accepts. -/
theorem Header.accepts_iff (h : Header m a p t) (ht : t.size < 2 ^ 31) :
    freeOf m a ≠ 0 ∧ need ≤ sizeOf m a ↔ t.isFree = true ∧ need ≤ t.size := by
  rw [h.free, h.sizeOf_eq ht, Tile.flag_ne_zero_iff]

/-- **The search over the tiles up to the end of the arena** ends with a free block that is large
enough, or after the last one. -/
theorem firstFit_tiles (h : Tiles m a p ts) (hend : a + total ts = memEnd) (ha : 0 < a)
    (hfuel : memEnd < a + 12 * fuel) :
    ∃ r, firstFit m need fuel (if ts = [] then 0 else a) = some r ∧
      (r = 0 ∨ ∃ t, TileIn a ts r t ∧ t.isFree = true ∧ need ≤ t.size) := by
  have hmem : memEnd = 0x900000 := rfl
  induction ts generalizing a p fuel with
  | nil =>
    obtain ⟨fuel, rfl⟩ : ∃ f, fuel = f + 1 := ⟨fuel - 1, by simp at hend; omega⟩
    exact ⟨0, rfl, .inl rfl⟩
  | cons t ts ih =>
    have ht := t.twelve_le
    have hnext := h.getNext_eq hend
    rw [total_cons] at hend
    obtain ⟨fuel, rfl⟩ : ∃ f, fuel = f + 1 := ⟨fuel - 1, by omega⟩
    rw [if_neg (List.cons_ne_nil _ _), firstFit, if_neg (by omega)]
    by_cases hfit : t.isFree = true ∧ need ≤ t.size
    · rw [if_pos ((h.1.accepts_iff (by omega)).mpr hfit)]
      exact ⟨a, rfl, .inr ⟨t, .inl ⟨rfl, rfl⟩, hfit⟩⟩
    · rw [if_neg (mt (h.1.accepts_iff (by omega)).mp hfit), hnext]
      obtain ⟨r, hr, hcase⟩ := @ih _ _ fuel h.2 (by omega) (by omega) (by omega)
      exact ⟨r, hr, hcase.imp id (Exists.imp fun t' h' => ⟨.inr h'.1, h'.2⟩)⟩

/-! ### The block handed out -/

theorem sizeOf_setSize {m : Mem} {a : ℕ} {n : ℤ} (h0 : -2 ^ 31 ≤ n) (h1 : n < 2 ^ 31) :
    sizeOf (setSize m a n) a = n := by
  rw [sizeOf, setSize, put_self, toInt_ofInt h0 h1]

theorem sizeOf_congr {m m' : Mem} {a : ℕ} (h : m' (a + 4) = m (a + 4)) :
    sizeOf m' a = sizeOf m a := by
  rw [sizeOf, h, sizeOf]

/-- **A block that is large enough is handed out** with the size needed or with its own. -/
theorem le_sizeOf_carve {x n : ℕ} (hsize : (h.mem (x + 4)).toNat = n) (hn : x + n ≤ memEnd)
    (h12 : 12 ≤ need) (hfit : need ≤ n) : need ≤ sizeOf (carve h x need).mem x := by
  have hmem : memEnd = 0x900000 := rfl
  have htotal : sizeOf h.mem x = n := by
    rw [sizeOf, toInt_of_lt (by omega), hsize]
  have hfree : sizeOf (setFree h.mem x 0) x = n := by
    rw [← htotal]
    exact sizeOf_congr (put_ne (by omega))
  rw [carve]
  dsimp only
  rw [htotal]
  by_cases heq : (n : ℤ) = need
  · rw [if_pos heq, hfree]
    exact hfit
  · rw [if_neg heq]
    obtain ⟨k, rfl⟩ : ∃ k : ℕ, need = k := ⟨need.toNat, by omega⟩
    have hk : k < n := by omega
    -- The rest of the block starts within the arena.
    have hnext : getNext (setSize (setFree h.mem x 0) x k) x = x + k := by
      rw [getNext_of_toNat (n := k) (by rw [setSize, put_self, toNat_ofInt_natCast (by omega)])
        (by omega), if_neg (by omega)]
    have hset : sizeOf (setSize (setFree h.mem x 0) x k) x = k :=
      sizeOf_setSize (by omega) (by omega)
    rw [hnext, if_neg (by omega)]
    split
    · exact hfit.trans_eq (sizeOf_setSize (n := n) (by omega) (by omega)).symm
    · obtain ⟨m1, hm1⟩ : ∃ m1, m1 = setSize (setFree h.mem x 0) x k := ⟨_, rfl⟩
      rw [← hm1] at hset ⊢
      -- The header written into the rest leads behind the block, so no word of the block is linked.
      have hrest : getNext (setFree (setPrev (setSize m1 (x + k) (n - k)) (x + k) x) (x + k) 1)
          (x + k) = if x + k + (n - k) = memEnd then 0 else x + k + (n - k) := by
        refine getNext_of_toNat ?_ (by omega)
        rw [setFree, put_ne (by omega), setPrev, put_ne (by omega), setSize, put_self,
          ← Nat.cast_sub hk.le, toNat_ofInt_natCast (by omega)]
      have hne : x + 4 ≠ if x + k + (n - k) = memEnd then 0 else x + k + (n - k) := by
        split <;> omega
      refine le_of_eq (hset.symm.trans (sizeOf_congr ?_).symm)
      dsimp only
      rw [hrest, linkPrev_ne hne, setFree, put_ne (by omega), setPrev, put_ne (by omega), setSize,
        put_ne (by omega)]

/-! ### The request -/

/-- The block that `malloc` settles on is larger than what it takes to be needed, so it is split,
at least for a moment. -/
def Splits (h : Heap) (size : ℤ) : Prop :=
  ∃ found, firstFit h.mem (sizeNeeded size) walkFuel h.nextStart = some found ∧
    sizeNeeded size < sizeOf h.mem (goodOf h found)

/-- **What a request is to do**, on a heap with the blocks `ts`. -/
structure SafeMalloc (h : Heap) (ts : List Tile) (size : ℤ) : Prop where
  /-- It returns `NULL` and changes nothing, or a block with the room asked for, which the
  header says too. -/
  result : ∃ ptr h', malloc h size = some (ptr, h') ∧
    (ptr = 0 ∧ h'.mem = h.mem ∨
      0 ≤ size ∧ (∃ t, TileAt ts (ptr - sizeofMemStruct) t ∧ t.isFree = true ∧
        size + sizeofMemStruct ≤ t.size) ∧
      size + sizeofMemStruct ≤ sizeOf h'.mem (ptr - sizeofMemStruct))
  /-- No block is split for less than a header. -/
  split : Splits h size → (sizeofMemStruct : ℤ) ≤ sizeNeeded size

variable {t0 : Tile}

/-- The search from a free block, and what it ends with. -/
theorem firstFit_nextStart (need : ℤ) (hw : Tiled h.mem ts) (ht : TileAt ts h.nextStart t0)
    (hf : t0.isFree = true) : ∃ r, firstFit h.mem need walkFuel h.nextStart = some r ∧
      (need ≤ t0.size → r = h.nextStart) ∧
      (r = 0 ∨ ∃ t, TileAt ts r t ∧ t.isFree = true ∧ need ≤ t.size) := by
  have hfuel : walkFuel = 0x1ffff + 1 := rfl
  have hmem : memory = 0x800000 := rfl
  have hend : memEnd = memory + memSize := rfl
  have hsz : memSize = 0x100000 := rfl
  obtain ⟨pre, post, rfl, ha⟩ := ht.split
  have htotal := hw.total_eq
  rw [total_append] at htotal
  have htail := (tiles_append.mp hw.tiles).2
  rw [← ha] at htail
  obtain ⟨r, hr, hcase⟩ := firstFit_tiles htail (by omega) (by omega)
    (show memEnd < h.nextStart + 12 * walkFuel by omega)
  rw [if_neg (List.cons_ne_nil _ _)] at hr
  refine ⟨r, hr, fun hfit => ?_, hcase.imp id (Exists.imp fun t h => ⟨?_, h.2⟩)⟩
  · rw [total_cons] at htotal
    rw [hfuel, firstFit, if_neg (by omega),
      if_pos ((htail.1.accepts_iff (by omega)).mpr ⟨hf, hfit⟩)] at hr
    exact (Option.some.inj hr).symm
  · exact tileIn_append.mpr (.inr (ha ▸ h.1))

theorem malloc_of_firstFit {found : ℕ}
    (hr : firstFit h.mem (sizeNeeded size) walkFuel h.nextStart = some found) :
    malloc h size = some (if sizeOf h.mem (goodOf h found) < sizeNeeded size then (0, h)
      else (goodOf h found + sizeofMemStruct, carve h (goodOf h found) (sizeNeeded size))) := by
  simp only [malloc, hr, Option.bind_eq_bind, Option.bind_some]
  split <;> rfl

theorem Tiled.sizeOf_eq (hw : Tiled h.mem ts) (ht : TileAt ts a t) :
    (h.mem (a + 4)).toNat = t.size ∧ sizeOf h.mem a = t.size ∧ a + t.size ≤ memEnd ∧
      memory ≤ a := by
  have hmem : memory = 0x800000 := rfl
  have hend : memEnd = memory + memSize := rfl
  have hsz : memSize = 0x100000 := rfl
  have hrange := ht.range
  rw [hw.total_eq] at hrange
  obtain ⟨pre, post, rfl, rfl⟩ := ht.split
  have hhdr := (tiles_append.mp hw.tiles).2.1
  exact ⟨hhdr.size, hhdr.sizeOf_eq (by omega), by omega, hrange.1⟩

/-- A request whose size needed is at least a header, and at least the room asked for, is safe. -/
theorem safeMalloc_of_le (hw : Tiled h.mem ts) (ht : TileAt ts h.nextStart t0)
    (hf : t0.isFree = true) (h0 : 0 ≤ size) (hneed : size + 12 ≤ sizeNeeded size) :
    SafeMalloc h ts size := by
  have h12 : sizeofMemStruct = 12 := rfl
  have hmem : memory = 0x800000 := rfl
  obtain ⟨r, hr, hfirst, hcase⟩ := firstFit_nextStart (sizeNeeded size) hw ht hf
  have hm := malloc_of_firstFit hr
  refine ⟨?_, fun _ => by omega⟩
  obtain ⟨-, hsize0, -, hlo0⟩ := hw.sizeOf_eq ht
  rcases eq_or_ne r 0 with rfl | hr0
  · -- Nothing is found, and the block at `next_start` is too small as well.
    have hlt : ¬ sizeNeeded size ≤ t0.size := fun hfit => by
      have := hfirst hfit
      omega
    rw [goodOf, if_pos rfl, if_pos (by omega)] at hm
    exact ⟨0, h, hm, .inl ⟨rfl, rfl⟩⟩
  · obtain ⟨t, hat, hfree, hfit⟩ := hcase.resolve_left hr0
    obtain ⟨hword, hsize, hend, -⟩ := hw.sizeOf_eq hat
    rw [goodOf, if_neg hr0, if_neg (by omega)] at hm
    have hcarve := le_sizeOf_carve (h := h) hword hend (by omega) hfit
    refine ⟨_, _, hm, .inr ⟨h0, ?_⟩⟩
    rw [Nat.add_sub_cancel]
    exact ⟨⟨t, hat, hfree, by omega⟩, by omega⟩

/-- **A request is safe exactly when it is not negative and not within 15 of the largest.** -/
theorem safeMalloc_iff (h : Heap) (ts : List Tile) (t0 : Tile) (hw : Tiled h.mem ts)
    (ht : TileAt ts h.nextStart t0) (hf : t0.isFree = true) (size : ℤ) (hlo : -2 ^ 31 ≤ size)
    (hhi : size < 2 ^ 31) : SafeMalloc h ts size ↔ 0 ≤ size ∧ size + 15 < 2 ^ 31 := by
  constructor
  · intro hs
    by_contra hout
    -- The block at `next_start` is taken, whatever its size.
    have hneed := sizeNeeded_le hlo hhi hout
    have ht12 := t0.twelve_le
    obtain ⟨r, hr, hfirst, -⟩ := firstFit_nextStart (sizeNeeded size) hw ht hf
    obtain rfl := hfirst (by omega)
    obtain ⟨-, hsize, -, hmem⟩ := hw.sizeOf_eq ht
    have hgood : goodOf h h.nextStart = h.nextStart := by
      rw [goodOf]
      split <;> rfl
    obtain ⟨ptr, h', hm, hcase⟩ := hs.result
    rw [malloc_of_firstFit hr, hgood, if_neg (by omega)] at hm
    obtain ⟨rfl, rfl⟩ := Prod.mk.inj (Option.some.inj hm)
    rcases hcase with ⟨hnull, -⟩ | ⟨h0, ⟨t, hat, -, hroom⟩, -⟩
    · have h12 : sizeofMemStruct = 12 := rfl
      omega
    · have hend : memEnd = 0x900000 := rfl
      obtain ⟨-, -, hle, -⟩ := hw.sizeOf_eq hat
      exact hout ⟨h0, by omega⟩
  · rintro ⟨h0, h1⟩
    exact safeMalloc_of_le hw ht hf h0 (sizeNeeded_bounds h0 h1).1

/-- The arena as `malloc_init` leaves it. -/
theorem tiled_mallocInit : Tiled (mallocInit fun _ => 0).mem [⟨memSize, true, by decide⟩] :=
  ⟨⟨⟨by decide +kernel, by decide +kernel, by decide +kernel⟩, trivial⟩, by decide⟩

theorem safeMalloc_mallocInit :
    Tiled (mallocInit fun _ => 0).mem [⟨memSize, true, by decide⟩] ∧
      SafeMalloc (mallocInit fun _ => 0) [⟨memSize, true, by decide⟩] 100 :=
  ⟨tiled_mallocInit, (safeMalloc_iff _ _ ⟨memSize, true, by decide⟩ tiled_mallocInit
    (.inl ⟨rfl, rfl⟩) rfl 100 (by decide) (by decide)).mpr (by decide)⟩

/-- The first request of -100 bytes is granted. -/
theorem not_safeMalloc : ¬ ∀ (h : Heap) (ts : List Tile) (t0 : Tile), Tiled h.mem ts →
    TileAt ts h.nextStart t0 → t0.isFree = true → ∀ size : ℤ, -2 ^ 31 ≤ size → size < 2 ^ 31 →
    SafeMalloc h ts size := by
  intro hall
  have hs := hall _ _ ⟨memSize, true, by decide⟩ tiled_mallocInit (.inl ⟨rfl, rfl⟩) rfl (-100)
    (by decide) (by decide)
  obtain ⟨ptr, h', hm, ⟨rfl, -⟩ | ⟨h0, -⟩⟩ := hs.result
  · have hptr : (malloc (mallocInit fun _ => 0) (-100)).map Prod.fst = some (memory + 12) := by
      decide +kernel
    rw [hm] at hptr
    cases hptr
  · exact absurd h0 (by decide)

end Thunix.Mm
