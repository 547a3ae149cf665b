import Thunix.Fs.Transfers
import Thunix.Lib.Ring

/-!
# The block cache as a ring

The list of `fs/cache.c` seen through `Thunix.Circular`. A request to the cache has two
outcomes that change the list: a hit, in which the entry labelled with the block
moves to the end (`Thunix.Fs.getCacheBlock_hit`), and a miss, in which the first
entry is filled, labelled and moved to the end (`Thunix.Fs.getCacheBlock_miss`). A
read that fails leaves the list alone, but not the buffer
(`Thunix.Fs.getCacheBlock_fail`).
-/

namespace Thunix.Fs

open Circular

variable {e : Env} {sb : TfsSbInfo} {d d' : Dev} {b : ℕ} {cs last r : CacheRef}

/-! ### Assignments to the fields of an entry -/

/-- The pointers of the list. -/
def Dev.links (d : Dev) : Links CacheRef where
  next r := (d.cache r).next
  prev r := (d.cache r).prev

/-- The label of `cache[i]`. -/
def Dev.label (d : Dev) (i : ℕ) : ℕ := (d.cache (.entry i)).block

/-- The buffer of `cache[i]`. -/
def Dev.dataOf (d : Dev) (i : ℕ) : ℕ := (d.cache (.entry i)).data

@[simp] theorem links_setNext (d : Dev) (a c : CacheRef) :
    (d.setNext a c).links = d.links.setNext a c := by
  ext r <;> by_cases h : r = a <;> simp [Dev.links, Dev.setNext, Links.setNext, h]

@[simp] theorem links_setPrev (d : Dev) (a c : CacheRef) :
    (d.setPrev a c).links = d.links.setPrev a c := by
  ext r <;> by_cases h : r = a <;> simp [Dev.links, Dev.setPrev, Links.setPrev, h]

@[simp] theorem links_setBlock (d : Dev) (a : CacheRef) (x : ℕ) :
    (d.setBlock a x).links = d.links := by
  ext r <;> by_cases h : r = a <;> simp [Dev.links, Dev.setBlock, h]

@[simp] theorem links_setData (d : Dev) (a : CacheRef) (x : ℕ) :
    (d.setData a x).links = d.links := by
  ext r <;> by_cases h : r = a <;> simp [Dev.links, Dev.setData, h]

/-- **`relink` takes the entry out of the list and adds it before the head.** -/
theorem links_relink (last cs : CacheRef) (d : Dev) :
    (relink last cs d).links = (d.links.unlink cs).link .head last cs := by
  have hnext : ∀ (d : Dev) (r : CacheRef), (d.cache r).next = d.links.next r := fun _ _ => rfl
  have hprev : ∀ (d : Dev) (r : CacheRef), (d.cache r).prev = d.links.prev r := fun _ _ => rfl
  simp only [relink, hnext, hprev, links_setNext, links_setPrev]
  rfl

/-- The states differ in the pointers of the list only. -/
structure Dev.Relinked (d d' : Dev) : Prop where
  block : ∀ r, (d'.cache r).block = (d.cache r).block
  data : ∀ r, (d'.cache r).data = (d.cache r).data
  rest : d' = { d with cache := d'.cache }

theorem Dev.Relinked.refl (d : Dev) : d.Relinked d := ⟨fun _ => rfl, fun _ => rfl, rfl⟩

theorem Dev.Relinked.trans {d₁ d₂ d₃ : Dev} (h : d₁.Relinked d₂) (h' : d₂.Relinked d₃) :
    d₁.Relinked d₃ := by
  refine ⟨fun r => (h'.block r).trans (h.block r), fun r => (h'.data r).trans (h.data r), ?_⟩
  rw [h'.rest, h.rest]

theorem relinked_setNext (d : Dev) (a c : CacheRef) : d.Relinked (d.setNext a c) := by
  refine ⟨fun r => ?_, fun r => ?_, rfl⟩ <;> by_cases h : r = a <;> simp [Dev.setNext, h]

theorem relinked_setPrev (d : Dev) (a c : CacheRef) : d.Relinked (d.setPrev a c) := by
  refine ⟨fun r => ?_, fun r => ?_, rfl⟩ <;> by_cases h : r = a <;> simp [Dev.setPrev, h]

/-- `relink` leaves labels, buffers and the disk alone. -/
theorem relinked_relink (last cs : CacheRef) (d : Dev) : d.Relinked (relink last cs d) := by
  unfold relink
  exact (((((relinked_setNext _ _ _).trans (relinked_setPrev _ _ _)).trans
    (relinked_setNext _ _ _)).trans (relinked_setPrev _ _ _)).trans
    (relinked_setPrev _ _ _)).trans (relinked_setNext _ _ _)

/-! ### The list of the cache -/

/-- The list visits exactly the entries of the cache, in the order `os`, the least
recently used first. -/
structure RingOk (d : Dev) (os : List ℕ) : Prop where
  ring : IsRing d.links .head (os.map .entry)
  perm : os.Perm (List.range d.cacheEntries)

variable {os pre post : List ℕ} {i j : ℕ}

theorem RingOk.nodup (h : RingOk d os) : os.Nodup := h.perm.nodup_iff.mpr List.nodup_range

theorem RingOk.length (h : RingOk d os) : os.length = d.cacheEntries := by
  rw [h.perm.length_eq, List.length_range]

theorem RingOk.mem_iff (h : RingOk d os) : i ∈ os ↔ i < d.cacheEntries := by
  rw [h.perm.mem_iff, List.mem_range]

/-- The most recently used entry is before the head. -/
theorem RingOk.prev_head (h : RingOk d (pre ++ [i])) : (d.cache .head).prev = .entry i := by
  have := h.ring.prev_head
  rw [List.map_append, List.map_singleton, lastOr_concat] at this
  exact this

/-- The least recently used entry is after the head. -/
theorem RingOk.next_head (h : RingOk d (i :: post)) : (d.cache .head).next = .entry i :=
  h.ring.next_head

/-- What only concerns the pointers and the number of entries carries over. -/
theorem RingOk.congr (h : RingOk d os) (hl : d'.links = d.links)
    (hn : d'.cacheEntries = d.cacheEntries) : RingOk d' os :=
  ⟨hl ▸ h.ring, hn ▸ h.perm⟩

/-- **Relinking moves the entry to the end**, also when it is there already. -/
theorem RingOk.relink (h : RingOk d (pre ++ i :: post)) (hne : post ≠ []) :
    RingOk (relink (d.cache .head).prev (.entry i) d) (pre ++ post ++ [i]) := by
  have hring := h.ring
  rw [List.map_append, List.map_cons] at hring
  refine ⟨?_, ?_⟩
  · rw [links_relink, List.map_append, List.map_append, List.map_singleton]
    exact hring.moveToEnd (by simpa using hne)
  · rw [(relinked_relink _ _ d).rest]
    refine List.Perm.trans ?_ h.perm
    rw [List.append_assoc]
    exact (show (post ++ [i]).Perm ([i] ++ post) from List.perm_append_comm).append_left pre

/-- **The scan finds the entry with the label**, the most recently used one. -/
theorem findBlock_eq (d : Dev) (b : ℕ) (n : ℕ) (cs : CacheRef) :
    findBlock d b n cs = scanBack d.links.prev (fun r => decide ((d.cache r).block = b)) n cs := by
  induction n generalizing cs with
  | zero => rfl
  | succ n ih => simp only [findBlock, scanBack, ih, decide_eq_true_eq]; rfl

theorem RingOk.findBlock_eq (h : RingOk d os) (b : ℕ) :
    findBlock d b d.cacheEntries (d.cache .head).prev =
      (os.reverse.find? fun i => decide (d.label i = b)).map .entry := by
  have hscan := h.ring.scanBack_eq fun r => decide ((d.cache r).block = b)
  rw [List.length_map, h.length, ← List.map_reverse, List.find?_map] at hscan
  rw [Fs.findBlock_eq]
  exact hscan

/-! ### The three outcomes of a request -/

/-- **A hit.** -/
theorem getCacheBlock_hit (e : Env) (sb : TfsSbInfo) (h : RingOk d (pre ++ i :: post))
    (hi : d.label i = b) (hpost : ∀ j ∈ post, d.label j ≠ b) :
    ∃ d', getCacheBlock e sb b d = (some (.entry i), d') ∧ RingOk d' (pre ++ post ++ [i]) ∧
      d.Relinked d' := by
  rcases List.eq_nil_or_concat post with rfl | ⟨post', x, hx⟩
  · refine ⟨d, ?_, by simpa using h, .refl d⟩
    have hlast := h.prev_head
    rw [getCacheBlock, hlast]
    exact if_pos hi
  · rw [List.concat_eq_append] at hx
    have hne : post ≠ [] := by rw [hx]; exact List.concat_ne_nil _ _
    refine ⟨_, ?_, h.relink hne, relinked_relink _ _ d⟩
    have hfind : findBlock d b d.cacheEntries (d.cache .head).prev = some (.entry i) := by
      rw [h.findBlock_eq, List.reverse_append, List.reverse_cons, List.append_assoc,
        List.find?_append, List.find?_eq_none.mpr, Option.none_or, List.singleton_append,
        List.find?_cons, decide_eq_true hi, Option.map_some]
      intro j hj
      simpa using hpost j (List.mem_reverse.mp hj)
    have hlast : (d.cache (d.cache .head).prev).block ≠ b := by
      rw [hx, ← List.cons_append, ← List.append_assoc] at h
      rw [h.prev_head]
      exact hpost x (by rw [hx]; simp)
    rw [getCacheBlock, if_neg hlast, hfind]

/-- What is recorded of the read of a request for `b` into `cache[i]`. -/
def loadMoved (e : Env) (sb : TfsSbInfo) (b i : ℕ) (d : Dev) : Moved :=
  let r := tfsBread e sb b (d.dataOf i) d
  { block := b, sector := sectorOf sb b, sectors := sectorsPerBlock sb, tick := d.ticks,
    res := r.1, data := r.2.buf (d.dataOf i) }

/-- The state after that read. -/
def loadInto (e : Env) (sb : TfsSbInfo) (b i : ℕ) (d : Dev) : Dev :=
  let r := tfsBread e sb b (d.dataOf i) d
  { r.2 with log := r.2.log ++ [.load (d.label i) (loadMoved e sb b i d)] }

theorem getCacheBlock_of_absent (h : RingOk d (i :: post))
    (hb : ∀ j ∈ i :: post, d.label j ≠ b) :
    getCacheBlock e sb b d =
      if (tfsBread e sb b (d.dataOf i) d).1 ≠ 0 then (none, loadInto e sb b i d)
      else (some (.entry i),
        relink (d.cache .head).prev (.entry i) ((loadInto e sb b i d).setBlock (.entry i) b)) := by
  have hfind : findBlock d b d.cacheEntries (d.cache .head).prev = none := by
    rw [h.findBlock_eq, List.find?_eq_none.mpr, Option.map_none]
    intro j hj
    simpa using hb j (List.mem_reverse.mp hj)
  have hlast : (d.cache (d.cache .head).prev).block ≠ b := by
    obtain ⟨post', x, hx⟩ := List.eq_nil_or_concat (i :: post) |>.resolve_left
      (List.cons_ne_nil i post)
    rw [List.concat_eq_append] at hx
    rw [hx] at h hb
    rw [h.prev_head]
    exact hb x (by simp)
  rw [getCacheBlock, if_neg hlast, hfind, h.next_head]
  rfl

/-- The frame of a load: the buffer is filled, and the transfer recorded. -/
theorem loadInto_frame (e : Env) (sb : TfsSbInfo) (b i : ℕ) (d : Dev) :
    ∃ m t, loadInto e sb b i d = { d with
        cacheData := m, ticks := t, log := d.log ++ [.load (d.label i) (loadMoved e sb b i d)] } ∧
      ∀ x, ¬(d.dataOf i ≤ x ∧ x < d.dataOf i + 512 * sectorsPerBlock sb) → m x = d.cacheData x := by
  obtain ⟨m, t, h, hm⟩ := tfsBread_frame e sb b (d.dataOf i) d
  refine ⟨m, t, ?_, hm⟩
  rw [loadInto, h]

/-- **A miss.** -/
theorem getCacheBlock_miss (e : Env) (sb : TfsSbInfo) (h : RingOk d (i :: post)) (hne : post ≠ [])
    (hb : ∀ j ∈ i :: post, d.label j ≠ b) (hread : (tfsBread e sb b (d.dataOf i) d).1 = 0) :
    ∃ d', getCacheBlock e sb b d = (some (.entry i), d') ∧ RingOk d' (post ++ [i]) ∧
      ((loadInto e sb b i d).setBlock (.entry i) b).Relinked d' := by
  obtain ⟨m, t, hload, -⟩ := loadInto_frame e sb b i d
  refine ⟨_, ?_, ?_, relinked_relink (d.cache .head).prev (.entry i) _⟩
  · rw [getCacheBlock_of_absent h hb, hread, if_neg (by simp)]
  · have hring : RingOk ((loadInto e sb b i d).setBlock (.entry i) b) (i :: post) := by
      refine h.congr ?_ ?_
      · rw [links_setBlock, hload]
        rfl
      · rw [hload]
        rfl
    have hprev : (((loadInto e sb b i d).setBlock (.entry i) b).cache .head).prev =
        (d.cache .head).prev := by
      rw [hload]
      simp [Dev.setBlock]
    have hmoved := @RingOk.relink _ [] _ _ hring hne
    rwa [hprev] at hmoved

/-- **A miss whose read fails.** -/
theorem getCacheBlock_fail (h : RingOk d (i :: post))
    (hb : ∀ j ∈ i :: post, d.label j ≠ b) (hread : (tfsBread e sb b (d.dataOf i) d).1 ≠ 0) :
    getCacheBlock e sb b d = (none, loadInto e sb b i d) ∧
      RingOk (loadInto e sb b i d) (i :: post) := by
  obtain ⟨m, t, hload, -⟩ := loadInto_frame e sb b i d
  refine ⟨by rw [getCacheBlock_of_absent h hb, if_pos hread], ?_⟩
  rw [hload]
  exact h.congr rfl rfl

theorem exists_last_of_mem {p : ℕ → Prop} [DecidablePred p] {l : List ℕ} (h : ∃ x ∈ l, p x) :
    ∃ pre x post, l = pre ++ x :: post ∧ p x ∧ ∀ y ∈ post, ¬p y := by
  obtain ⟨x, hx, hp⟩ := h
  obtain ⟨y, hy⟩ := Option.isSome_iff_exists.mp
    (List.find?_isSome (p := fun z => decide (p z)) |>.mpr
      ⟨x, List.mem_reverse.mpr hx, decide_eq_true hp⟩)
  obtain ⟨hpy, as, bs, hl, has⟩ := List.find?_eq_some_iff_append.mp hy
  refine ⟨bs.reverse, y, as.reverse, ?_, of_decide_eq_true hpy, fun z hz => ?_⟩
  · have := congrArg List.reverse hl
    simpa using this
  · simpa using has z (List.mem_reverse.mp hz)

/-- The outcomes of a request, whatever the labels. -/
theorem RingOk.request {os : List ℕ} (e : Env) (sb : TfsSbInfo) (b : ℕ) (h : RingOk d os)
    (htwo : 2 ≤ d.cacheEntries) :
    (∃ pre i post d', os = pre ++ i :: post ∧ d.label i = b ∧ (∀ j ∈ post, d.label j ≠ b) ∧
      getCacheBlock e sb b d = (some (.entry i), d') ∧ RingOk d' (pre ++ post ++ [i]) ∧
      d.Relinked d') ∨
    ∃ i post, os = i :: post ∧ (∀ j ∈ os, d.label j ≠ b) ∧
      ((tfsBread e sb b (d.dataOf i) d).1 = 0 ∧ (∃ d',
          getCacheBlock e sb b d = (some (.entry i), d') ∧ RingOk d' (post ++ [i]) ∧
            ((loadInto e sb b i d).setBlock (.entry i) b).Relinked d') ∨
        (tfsBread e sb b (d.dataOf i) d).1 ≠ 0 ∧
          getCacheBlock e sb b d = (none, loadInto e sb b i d) ∧
          RingOk (loadInto e sb b i d) os) := by
  by_cases hb : ∃ j ∈ os, d.label j = b
  · obtain ⟨pre, i, post, rfl, hi, hpost⟩ := exists_last_of_mem hb
    obtain ⟨d', hget, hring, hrel⟩ := getCacheBlock_hit e sb h hi hpost
    exact .inl ⟨pre, i, post, d', rfl, hi, hpost, hget, hring, hrel⟩
  · have habsent : ∀ j ∈ os, d.label j ≠ b := fun j hj he => hb ⟨j, hj, he⟩
    have hlen := h.length
    rcases os with _ | ⟨i, post⟩
    · rw [List.length_nil] at hlen
      omega
    refine .inr ⟨i, post, rfl, habsent, ?_⟩
    by_cases hread : (tfsBread e sb b (d.dataOf i) d).1 = 0
    · have hne : post ≠ [] := by
        rintro rfl
        rw [List.length_singleton] at hlen
        omega
      exact .inl ⟨hread, getCacheBlock_miss e sb h hne habsent hread⟩
    · exact .inr ⟨hread, getCacheBlock_fail h habsent hread⟩

end Thunix.Fs
