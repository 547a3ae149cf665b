import Mathlib.Data.List.Count
import Thunix.Fs.CacheRing
import Thunix.Fs.Transfers
import Thunix.Lib.Lru

/-!
# The block cache is an LRU cache

`Thunix.Fs.ShowsLru` relates the cache to a reference list of block numbers
(`Thunix.Lru`): in the order of the ring the labels are those of the list, after as
many empty markers as there are entries left. `cache_init` sets up a cache that shows
the empty list (`Thunix.Fs.showsLru_cacheInit`), and a request whose read succeeds
does to the ring what the reference request does to the list
(`Thunix.Fs.ShowsLru.request`). The refinement over all sequences of requests is
`Thunix.Fs.getCacheBlock_refines_lru`.
-/

namespace Thunix.Fs

open Circular

variable {e : Env} {sb : TfsSbInfo} {d d' : Dev} {b i n bs : ℕ} {os l pre post : List ℕ}

/-! ### Setting up the list -/

/-- The nodes of the list as `cache_init` links them: the head, then the entries. -/
def node : ℕ → CacheRef
  | 0 => .head
  | i + 1 => .entry i

theorem node_injective : Function.Injective node := by
  rintro (_ | i) (_ | j) h
  · rfl
  · cases h
  · cases h
  · cases h
    rfl

/-- The state when `cache_init` has set up the first `i` of `n` entries. -/
structure InitInv (bs n i : ℕ) (d : Dev) : Prop where
  adj : ∀ j < i, d.links.Adj (node j) (node (j + 1))
  prev_head : (d.cache .head).prev = node n
  next_last : (d.cache (node n)).next = .head
  label : ∀ j < i, d.label j = emptyBlock
  data : ∀ j < i, d.dataOf j = j * bs
  entries : d.cacheEntries = n

/-- One turn of the loop. -/
theorem InitInv.step (h : InitInv bs n i d) (hi : i < n) :
    InitInv bs n (i + 1) ((((d.setBlock (.entry i) emptyBlock).setPrev (.entry i) (node i)).setNext
      (node i) (.entry i)).setData (.entry i) (i * bs)) := by
  have hcur : ∀ j, j ≠ i → CacheRef.entry j ≠ .entry i := fun j hj he => hj (by cases he; rfl)
  have hself : CacheRef.entry i ≠ node i := fun he =>
    absurd (@node_injective (i + 1) _ he) (Nat.succ_ne_self i)
  refine ⟨fun j hj => ?_, ?_, ?_, fun j hj => ?_, fun j hj => ?_, h.entries⟩
  · simp only [links_setData, links_setNext, links_setPrev, links_setBlock]
    rcases Nat.lt_succ_iff_lt_or_eq.mp hj with hj | rfl
    · have h1 : node j ≠ node i := fun he => hj.ne (node_injective he)
      have h2 : node (j + 1) ≠ .entry i := fun he =>
        hj.ne (Nat.succ.inj (@node_injective _ (i + 1) he))
      exact ⟨(Function.update_of_ne h1 _ _).trans (h.adj j hj).1,
        (Function.update_of_ne h2 _ _).trans (h.adj j hj).2⟩
    · exact ⟨Function.update_self _ _ _, Function.update_self _ _ _⟩
  · have := h.prev_head
    cases i with
    | zero => simp [Dev.setBlock, Dev.setPrev, Dev.setNext, Dev.setData, node, this]
    | succ i => simp [Dev.setBlock, Dev.setPrev, Dev.setNext, Dev.setData, node, this]
  · have hn : node n ≠ node i := fun he => hi.ne' (node_injective he)
    have hlast := h.next_last
    by_cases hni : node n = .entry i
    · rw [hni] at hlast hn
      simp [Dev.setBlock, Dev.setPrev, Dev.setNext, Dev.setData, hni, hn, hlast]
    · simp [Dev.setBlock, Dev.setPrev, Dev.setNext, Dev.setData, hni, hn, hlast]
  · rcases Nat.lt_succ_iff_lt_or_eq.mp hj with hj | rfl
    · have hne := hcur j hj.ne
      have := h.label j hj
      by_cases hp : CacheRef.entry j = node i <;>
        simp_all [Dev.label, Dev.setBlock, Dev.setPrev, Dev.setNext, Dev.setData]
    · simp [Dev.label, Dev.setBlock, Dev.setPrev, Dev.setNext, Dev.setData, hself]
  · rcases Nat.lt_succ_iff_lt_or_eq.mp hj with hj | rfl
    · have hne := hcur j hj.ne
      have := h.data j hj
      by_cases hp : CacheRef.entry j = node i <;>
        simp_all [Dev.dataOf, Dev.setBlock, Dev.setPrev, Dev.setNext, Dev.setData]
    · simp [Dev.dataOf, Dev.setBlock, Dev.setPrev, Dev.setNext, Dev.setData]

/-- The loop, from any entry on. -/
theorem InitInv.loop {k : ℕ} (h : InitInv bs n i d) (hk : i + k = n) :
    InitInv bs n n (cacheInitLoop bs k i (node i) (i * bs) d) := by
  induction k generalizing i d with
  | zero =>
    rw [Nat.add_zero] at hk
    exact hk ▸ h
  | succ k ih =>
    rw [cacheInitLoop]
    have := ih (h.step (by omega)) (by omega)
    rwa [Nat.succ_mul] at this

/-- The number of entries `cache_init` sets up. -/
def numEntries (blockShift : ℕ) : ℕ := min (CACHE_SIZE >>> blockShift) MAX_CACHE_ENTRIES

theorem initInv_start (bs m : ℕ) (d : Dev) :
    InitInv bs (m + 1) 0
      (({ d with cacheEntries := m + 1 }.setPrev .head (.entry m)).setNext (.entry m) .head) := by
  refine ⟨fun j hj => absurd hj (Nat.not_lt_zero j), ?_, ?_, fun j hj =>
    absurd hj (Nat.not_lt_zero j),
    fun j hj => absurd hj (Nat.not_lt_zero j), rfl⟩
  · simp [Dev.setPrev, Dev.setNext, node]
  · simp [Dev.setNext, node]

theorem initInv_cacheInit {shift : ℕ} (hn : 0 < numEntries shift) (d : Dev) :
    InitInv (1 <<< shift) (numEntries shift) (numEntries shift) (cacheInit shift d) := by
  have hentries : (if CACHE_SIZE >>> shift > MAX_CACHE_ENTRIES then MAX_CACHE_ENTRIES
      else CACHE_SIZE >>> shift) = numEntries shift := by
    rw [numEntries]
    split <;> omega
  obtain ⟨m, hm⟩ := Nat.exists_eq_succ_of_ne_zero hn.ne'
  have h := (initInv_start (1 <<< shift) m d).loop (Nat.zero_add _)
  rw [Nat.zero_mul] at h
  rw [cacheInit]
  simp only [hentries, hm]
  exact h

/-- **`cache_init` links the entries into a ring.** -/
theorem InitInv.ringOk (h : InitInv bs n n d) (hn : 0 < n) : RingOk d (List.range n) := by
  refine ⟨⟨?_, ?_⟩, by rw [h.entries]⟩
  · refine List.nodup_cons.mpr ⟨by simp, ?_⟩
    exact List.nodup_range.map fun _ _ he => by cases he; rfl
  · rw [List.isChain_iff_getElem]
    intro j hj
    simp only [List.length_append, List.length_cons, List.length_map, List.length_range,
      List.length_nil] at hj
    have hnode : ∀ k (hk : k < n + 1)
        (_ : k < (CacheRef.head :: (List.range n).map .entry ++ [CacheRef.head]).length),
        (CacheRef.head :: (List.range n).map .entry ++ [CacheRef.head])[k] = node k := by
      intro k hk _
      rw [List.getElem_append_left (by simpa using hk)]
      cases k with
      | zero => rfl
      | succ k => simp [node]
    rw [hnode j (by omega) (by simp; omega)]
    rcases Nat.lt_succ_iff_lt_or_eq.mp (show j < n + 1 by omega) with hj1 | rfl
    · rw [hnode (j + 1) (by omega) (by simp; omega)]
      exact h.adj j hj1
    · rw [List.getElem_append_right (by simp)]
      simp only [List.length_cons, List.length_map, List.length_range, Nat.sub_self,
        List.getElem_cons_zero]
      exact ⟨h.next_last, h.prev_head⟩

/-! ### The reference list -/

/-- The cache shows a reference list: in the order of the ring, the labels of the
entries are empty markers followed by the list. -/
structure ShowsLru (bs : ℕ) (d : Dev) (os l : List ℕ) : Prop where
  ring : RingOk d os
  labels : os.map d.label = Lru.padded d.cacheEntries emptyBlock l
  fits : Lru.Fits d.cacheEntries l
  real : emptyBlock ∉ l
  data : ∀ i < d.cacheEntries, d.dataOf i = i * bs

/-- **The cache after `cache_init` shows the empty list.** -/
theorem showsLru_cacheInit {shift : ℕ} (hn : 0 < numEntries shift) (d : Dev) :
    ShowsLru (1 <<< shift) (cacheInit shift d) (List.range (numEntries shift)) [] := by
  have h := initInv_cacheInit hn d
  refine ⟨h.ringOk hn, ?_, Lru.fits_nil, List.not_mem_nil, fun i hi => h.data i (h.entries ▸ hi)⟩
  rw [Lru.padded, List.append_nil, h.entries, List.length_nil, Nat.sub_zero,
    List.eq_replicate_iff]
  refine ⟨by simp, fun x hx => ?_⟩
  obtain ⟨i, hi, rfl⟩ := List.mem_map.mp hx
  exact h.label i (List.mem_range.mp hi)

/-- A block of the list labels exactly one entry. -/
theorem ShowsLru.exists_split (h : ShowsLru bs d os l) (hb : b ∈ l) :
    ∃ pre i post, os = pre ++ i :: post ∧ d.label i = b ∧ b ∉ pre.map d.label ∧
      b ∉ post.map d.label := by
  have hne : b ≠ emptyBlock := fun he => h.real (he ▸ hb)
  have hmem : b ∈ os.map d.label := by
    rw [h.labels]
    exact (Lru.mem_padded hne).mpr hb
  obtain ⟨i, hi, hlab⟩ := List.mem_map.mp hmem
  obtain ⟨pre, post, rfl⟩ := List.append_of_mem hi
  refine ⟨pre, i, post, rfl, hlab, ?_⟩
  -- the label is counted once in the list shown
  have hcount : ((pre ++ i :: post).map d.label).count b = 1 := by
    rw [h.labels, Lru.padded, List.count_append, List.count_replicate,
      if_neg (by simpa using hne.symm),
      Nat.zero_add]
    exact List.count_eq_one_of_mem h.fits.nodup hb
  rw [List.map_append, List.map_cons, List.count_append, hlab, List.count_cons_self] at hcount
  exact ⟨List.count_eq_zero.mp (by omega), List.count_eq_zero.mp (by omega)⟩

/-! ### Requests -/

/-- What a request for a block of the list does: nothing but move its entry. -/
theorem ShowsLru.hit (e : Env) (sb : TfsSbInfo) (h : ShowsLru bs d os l) (hb : b ∈ l) :
    ∃ pre i post d', os = pre ++ i :: post ∧ getCacheBlock e sb b d = (some (.entry i), d') ∧
      ShowsLru bs d' (pre ++ post ++ [i]) (Lru.request d.cacheEntries l b) ∧ d.Relinked d' ∧
      d.label i = b := by
  have hne : b ≠ emptyBlock := fun he => h.real (he ▸ hb)
  obtain ⟨pre, i, post, rfl, hlab, hpre, hpost⟩ := h.exists_split hb
  obtain ⟨d', hget, hring, hrel⟩ := getCacheBlock_hit e sb h.ring hlab
    fun j hj he => hpost (List.mem_map.mpr ⟨j, hj, he⟩)
  have hn : d'.cacheEntries = d.cacheEntries := by rw [hrel.rest]
  have hlabel : d'.label = d.label := funext fun j => hrel.block _
  refine ⟨pre, i, post, d', rfl, hget, ⟨hring, ?_, ?_, ?_, ?_⟩, hrel, hlab⟩
  · have herase : ((pre ++ i :: post).map d.label).erase b = (pre ++ post).map d.label := by
      rw [List.map_append, List.map_cons, hlab, List.erase_append_right _ hpre,
        List.erase_cons_head, List.map_append]
    rw [hlabel, hn, Lru.padded_hit hb hne, ← h.labels, herase, List.map_append,
      List.map_singleton, hlab]
  · rw [hn]
    exact h.fits.request (List.length_pos_of_mem hb |>.trans_le h.fits.length_le) b
  · exact fun hm => (Lru.mem_request hm).elim h.real fun he => hne he.symm
  · exact fun j hj => (hrel.data _).trans (h.data j (hn ▸ hj))

/-- What a request for another block does, if its read succeeds: the entry the ring
begins with is filled, labelled and moved. -/
theorem ShowsLru.miss (h : ShowsLru bs d os l) (hn : 2 ≤ d.cacheEntries) (hb : b ∉ l)
    (hne : b ≠ emptyBlock) (hread : (tfsBread e sb b (d.dataOf i) d).1 = 0)
    (hos : os = i :: post) :
    ∃ d', getCacheBlock e sb b d = (some (.entry i), d') ∧
      ShowsLru bs d' (post ++ [i]) (Lru.request d.cacheEntries l b) ∧
      ((loadInto e sb b i d).setBlock (.entry i) b).Relinked d' := by
  subst hos
  have hlen : post.length + 1 = d.cacheEntries := h.ring.length
  have hpost : post ≠ [] := by
    rintro rfl
    rw [List.length_nil] at hlen
    omega
  have habsent : ∀ j ∈ i :: post, d.label j ≠ b := fun j hj he =>
    hb ((Lru.mem_padded hne).mp (h.labels ▸ List.mem_map.mpr ⟨j, hj, he⟩))
  obtain ⟨d', hget, hring, hrel⟩ := getCacheBlock_miss e sb h.ring hpost habsent hread
  obtain ⟨m, t, hload, -⟩ := loadInto_frame e sb b i d
  rw [hload] at hrel
  have hentries : d'.cacheEntries = d.cacheEntries := by rw [hrel.rest]; rfl
  have hi : d'.label i = b := (hrel.block (.entry i)).trans (by simp [Dev.setBlock])
  have hlabel : post.map d'.label = post.map d.label := by
    refine List.map_congr_left fun j hj => (hrel.block (.entry j)).trans ?_
    have hji : j ≠ i := fun he => (List.nodup_cons.mp h.ring.nodup).1 (he ▸ hj)
    simp [Dev.setBlock, hji, Dev.label]
  refine ⟨d', hget, ⟨hring, ?_, ?_, ?_, fun j hj => ?_⟩, hload ▸ hrel⟩
  · rw [hentries, Lru.padded_miss hb (by omega) h.fits, ← h.labels, List.map_append, hlabel,
      List.map_singleton, hi]
    rfl
  · rw [hentries]
    exact h.fits.request (by omega) b
  · exact fun hm => (Lru.mem_request hm).elim h.real fun he => hne he.symm
  · refine (hrel.data _).trans ?_
    have := h.data j (hentries ▸ hj)
    by_cases hji : j = i
    · subst hji
      simpa [Dev.setBlock, Dev.dataOf] using this
    · simpa [Dev.setBlock, Dev.dataOf, hji] using this

/-! ### The refinement -/

/-- Requests for the blocks of a list, one after another. -/
def requests (e : Env) (sb : TfsSbInfo) (bs : List ℕ) (d : Dev) : Dev :=
  bs.foldl (fun d b => (getCacheBlock e sb b d).2) d

/-- What the reference list says of a request for `b`, given what `get_cache_block`
returned and the state after it. -/
structure LruAnswer (d : Dev) (l : List ℕ) (b : ℕ) (cs : CacheRef) (d' : Dev) : Prop where
  /-- A request for a block of the list reads nothing. -/
  hit : b ∈ l → d'.log = d.log ∧ d'.ticks = d.ticks ∧ d'.cacheData = d.cacheData
  /-- Any other request reads the block, once, into the buffer of the entry that was
  labelled with the least recently used block, or with none while there are such. -/
  miss : b ∉ l → ∃ victim m, d'.log = d.log ++ [.load victim m] ∧ m.block = b ∧
    victim = (d.cache cs).block ∧
    victim = if l.length = d.cacheEntries then l.headI else emptyBlock
  /-- The entry returned is labelled with the block. -/
  label : (d'.cache cs).block = b
  /-- It is the most recently used one. -/
  mru : (d'.cache .head).prev = cs

/-- **A request refines the reference request.** -/
theorem ShowsLru.request (sb : TfsSbInfo) (h : ShowsLru bs d os l) (hn : 2 ≤ d.cacheEntries)
    (hok : ∀ t, e.transfer t ≠ .ioError) (hne : b ≠ emptyBlock) :
    ∃ cs d' os', getCacheBlock e sb b d = (some cs, d') ∧ d'.cacheEntries = d.cacheEntries ∧
      ShowsLru bs d' os' (Lru.request d.cacheEntries l b) ∧ LruAnswer d l b cs d' := by
  by_cases hb : b ∈ l
  · obtain ⟨pre, i, post, d', -, hget, hshow, hrel, hlab⟩ := h.hit e sb hb
    refine ⟨_, d', _, hget, by rw [hrel.rest], hshow, fun _ => ?_, fun hm => absurd hb hm,
      (hrel.block _).trans hlab, hshow.ring.prev_head⟩
    rw [hrel.rest]
    exact ⟨rfl, rfl, rfl⟩
  · obtain ⟨i, post, hos⟩ : ∃ i post, os = i :: post := by
      have := h.ring.length
      cases os with
      | nil => rw [List.length_nil] at this; omega
      | cons i post => exact ⟨i, post, rfl⟩
    obtain ⟨d', hget, hshow, hrel⟩ := h.miss hn hb hne (tfsBread_ok hok _ _ _ _) hos
    obtain ⟨m, t, hload, -⟩ := loadInto_frame e sb b i d
    refine ⟨_, d', _, hget, by rw [hrel.rest, hload]; rfl, hshow, fun hm => absurd hm hb,
      fun _ => ⟨_, loadMoved e sb b i d, ?_, rfl, rfl, ?_⟩, ?_, hshow.ring.prev_head⟩
    · rw [hrel.rest, hload]
      rfl
    · have hlabels := h.labels
      rw [hos, List.map_cons] at hlabels
      exact Lru.padded_head h.fits hlabels.symm
    · exact (hrel.block _).trans (by simp [Dev.setBlock])

/-- What the list of the cache, its labels and its buffers satisfy. -/
structure CacheOk (bs n : ℕ) (d : Dev) : Prop where
  /-- The list is a ring through the head and exactly the entries. -/
  ring : ∃ os : List ℕ, IsRing d.links .head (os.map .entry) ∧ os.Perm (List.range n)
  /-- No two entries are labelled with the same block. -/
  labels : ∀ i < n, ∀ j < n, d.label i = d.label j → d.label i ≠ emptyBlock → i = j
  /-- The buffers are apart. -/
  apart : ∀ i < n, ∀ j < n, i ≠ j → d.dataOf i + bs ≤ d.dataOf j ∨ d.dataOf j + bs ≤ d.dataOf i

theorem ShowsLru.cacheOk (h : ShowsLru bs d os l) (hn : d.cacheEntries = n) :
    CacheOk bs n d := by
  subst hn
  refine ⟨⟨os, h.ring.ring, h.ring.perm⟩, fun i hi j hj hij hne => ?_, fun i hi j hj hij => ?_⟩
  · have hb : d.label i ∈ l := by
      rw [← Lru.mem_padded hne, ← h.labels]
      exact List.mem_map.mpr ⟨i, h.ring.mem_iff.mpr hi, rfl⟩
    obtain ⟨pre, k, post, hos, -, hpre, hpost⟩ := h.exists_split hb
    -- any entry with the label is the one at the split
    have honly : ∀ x, x < d.cacheEntries → d.label x = d.label i → x = k := by
      intro x hx hxi
      have hmem := h.ring.mem_iff.mpr hx
      rw [hos, List.mem_append, List.mem_cons] at hmem
      rcases hmem with hm | rfl | hm
      · exact absurd (List.mem_map.mpr ⟨x, hm, hxi⟩) hpre
      · rfl
      · exact absurd (List.mem_map.mpr ⟨x, hm, hxi⟩) hpost
    rw [honly i hi rfl, honly j hj hij.symm]
  · rw [h.data i hi, h.data j hj, ← Nat.succ_mul, ← Nat.succ_mul]
    rcases Nat.lt_or_gt_of_ne hij with hlt | hlt
    · exact .inl (Nat.mul_le_mul_right bs hlt)
    · exact .inr (Nat.mul_le_mul_right bs hlt)

/-- A run of requests shows the reference run. -/
theorem showsLru_requests (sb : TfsSbInfo) (hok : ∀ t, e.transfer t ≠ .ioError) {reqs : List ℕ}
    (hreqs : emptyBlock ∉ reqs) (h : ShowsLru bs d os l) (hn : d.cacheEntries = n)
    (h2 : 2 ≤ n) :
    (requests e sb reqs d).cacheEntries = n ∧
      ∃ os', ShowsLru bs (requests e sb reqs d) os' (reqs.foldl (Lru.request n) l) := by
  induction reqs generalizing d os l with
  | nil => exact ⟨hn, os, h⟩
  | cons b reqs ih =>
    rw [List.mem_cons, not_or] at hreqs
    obtain ⟨cs, d', os', hget, hn', hshow, -⟩ :=
      h.request sb (hn ▸ h2) hok (Ne.symm hreqs.1)
    rw [hn] at hn' hshow
    have := ih hreqs.2 hshow hn'
    rw [requests, List.foldl_cons, hget, List.foldl_cons]
    exact this

/-- **The block cache refines an ideal LRU cache.** After any sequence of requests to
a cache of at least two entries set up by `cache_init`, the list, the labels and the
buffers are sound, the buffers lie in `cache_data`, and the next request is answered
as the reference list of that sequence says. -/
theorem getCacheBlock_refines_lru (e : Env) (hok : ∀ t, e.transfer t ≠ .ioError)
    (hn : 2 ≤ numEntries e.sbi.sBlockShift) (d₀ : Dev) (reqs : List ℕ)
    (hreqs : emptyBlock ∉ reqs) :
    let n := numEntries e.sbi.sBlockShift
    let bs := 1 <<< e.sbi.sBlockShift
    let d := requests e e.sbi reqs (cacheInit e.sbi.sBlockShift d₀)
    let l := reqs.foldl (Lru.request n) []
    d.cacheEntries = n ∧ CacheOk bs n d ∧ (∀ i < n, d.dataOf i + bs ≤ CACHE_SIZE) ∧
      ∀ b, b ≠ emptyBlock → ∃ cs d', getCacheBlock e e.sbi b d = (some cs, d') ∧
        CacheOk bs n d' ∧ LruAnswer d l b cs d' := by
  intro n bs d l
  have hinit := @showsLru_cacheInit e.sbi.sBlockShift (by omega) d₀
  have hentries := (@initInv_cacheInit e.sbi.sBlockShift (by omega) d₀).entries
  obtain ⟨hd, os, hshow⟩ := showsLru_requests e.sbi hok hreqs hinit hentries hn
  refine ⟨hd, hshow.cacheOk hd, fun i hi => ?_, fun b hb => ?_⟩
  · have hbs : bs = 2 ^ e.sbi.sBlockShift := by
      rw [show bs = 1 <<< e.sbi.sBlockShift from rfl, Nat.shiftLeft_eq, Nat.one_mul]
    have hle : n * bs ≤ CACHE_SIZE := by
      refine (Nat.mul_le_mul_right bs (Nat.min_le_left _ _)).trans ?_
      rw [Nat.shiftRight_eq_div_pow, hbs]
      exact Nat.div_mul_le_self _ _
    rw [hshow.data i (hd ▸ hi), ← Nat.succ_mul]
    exact (Nat.mul_le_mul_right bs hi).trans hle
  · obtain ⟨cs, d', os', hget, hn', hshow', hans⟩ :=
      hshow.request e.sbi (hd ▸ hn) hok hb
    exact ⟨cs, d', hget, hshow'.cacheOk (hn'.trans hd), hans⟩

/-- Two entries, after requests for the blocks 5, 6 and 5: a request for 7 reuses the
entry of 6. -/
theorem getCacheBlock_refines_lru_evict :
    let e := Env.quiet (smallSbi 14)
    let d := requests e e.sbi [5, 6, 5] (cacheInit e.sbi.sBlockShift .blank)
    ∃ cs d', getCacheBlock e e.sbi 7 d = (some cs, d') ∧ (d.cache cs).block = 6 ∧
      (d'.cache cs).block = 7 := by
  obtain ⟨hd, -, -, hreq⟩ := getCacheBlock_refines_lru (.quiet (smallSbi 14))
    (fun _ => by simp [Env.quiet]) (by decide) .blank [5, 6, 5] (by decide)
  have hn : numEntries (Env.quiet (smallSbi 14)).sbi.sBlockShift = 2 := by decide
  have hl : [5, 6, 5].foldl (Lru.request 2) [] = [6, 5] := by decide
  obtain ⟨cs, d', hget, -, hans⟩ := hreq 7 (by decide)
  rw [hn] at hd hans
  obtain ⟨victim, m, -, -, hv, hlru⟩ := hans.miss (by decide)
  rw [hd, hl] at hlru
  exact ⟨cs, d', hget, hv.symm.trans hlru, hans.label⟩

end Thunix.Fs
