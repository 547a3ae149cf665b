import Thunix.Fs.CacheKeep
import Thunix.Fs.CoherentRuns
import Thunix.Fs.Syscall
import Thunix.Lib.Hoare

/-!
# Entries that are held across requests

How long the entry that a request has returned may be used. Whatever the requests after it
are, and however they end, the entries used since it was returned stand behind it in the list
of the cache, and their labels are different blocks (`Thunix.Fs.HeldEntry`). So before it there is
one more entry as long as the other blocks requested are fewer than the other entries, and a
request that reads, successfully or not, fills the buffer of that one.

The invariant asks nothing of the labels of the entries in front, of which many may be the
empty marker, and so allows requests for the marker itself.
-/

namespace Thunix.Fs

variable {e : Env} {sb : TfsSbInfo} {d d' d₁ : Dev} {size n i j b b' a : ℕ} {B : Finset ℕ}
  {os pre post : List ℕ} {m : ℕ → UInt8}

/-! ### The list and the buffers -/

/-- The list of the cache is a ring through its entries, with their buffers apart. -/
structure Linked (size : ℕ) (os : List ℕ) (d : Dev) : Prop where
  ring : RingOk d os
  apart : ∀ i < d.cacheEntries, ∀ j < d.cacheEntries, i ≠ j →
    d.dataOf i + size ≤ d.dataOf j ∨ d.dataOf j + size ≤ d.dataOf i

theorem Linked.congr {os' : List ℕ} (h : Linked size os d) (hring : RingOk d' os')
    (hn : d'.cacheEntries = d.cacheEntries) (hdata : ∀ j, d'.dataOf j = d.dataOf j) :
    Linked size os' d' := by
  refine ⟨hring, fun i hi j hj hij => ?_⟩
  rw [hn] at hi hj
  rw [hdata, hdata]
  exact h.apart i hi j hj hij

/-- What a load leaves of the entries. -/
theorem load_entries (e : Env) (sb : TfsSbInfo) (b i : ℕ) (d : Dev) :
    (loadInto e sb b i d).cacheEntries = d.cacheEntries ∧
      (∀ j, (loadInto e sb b i d).dataOf j = d.dataOf j) ∧
      ∀ j, (loadInto e sb b i d).label j = d.label j := by
  obtain ⟨hc, hn⟩ := loadInto_cache e sb b i d
  exact ⟨hn, fun j => by rw [Dev.dataOf, hc]; rfl, fun j => by rw [Dev.label, hc]; rfl⟩

/-- **A request keeps the list a ring and the buffers apart.** -/
theorem Linked.request (h : Linked size os d) (htwo : 2 ≤ d.cacheEntries) (e : Env)
    (sb : TfsSbInfo) (b : ℕ) :
    ∃ os', Linked size os' (getCacheBlock e sb b d).2 ∧
      (getCacheBlock e sb b d).2.cacheEntries = d.cacheEntries := by
  rcases h.ring.request e sb b htwo with ⟨pre, i, post, d', -, -, -, hget, hring, hrel⟩ |
    ⟨i, post, -, -, ⟨-, d', hget, hring, hrel⟩ | ⟨-, hget, hring⟩⟩
  · have hn : d'.cacheEntries = d.cacheEntries := by rw [hrel.rest]
    rw [hget]
    exact ⟨_, h.congr hring hn fun j => hrel.data _, hn⟩
  · obtain ⟨hn, hdata, -⟩ := load_entries e sb b i d
    have hn' : d'.cacheEntries = d.cacheEntries := by
      rw [hrel.rest]
      exact hn
    rw [hget]
    refine ⟨_, h.congr hring hn' fun j => ?_, hn'⟩
    exact ((hrel.data _).trans (dataOf_setBlock _ i b j)).trans (hdata j)
  · obtain ⟨hn, hdata, -⟩ := load_entries e sb b i d
    rw [hget]
    exact ⟨_, h.congr hring hn hdata, hn⟩

/-! ### Held entries -/

/-- **The entry `i` is held** for the block `b`, with its buffer at `a` and the bytes `m` in it:
the entries used since are labelled with different blocks of `B`. -/
structure HeldEntry (size n i b : ℕ) (B : Finset ℕ) (a : ℕ) (m : ℕ → UInt8) (d : Dev) : Prop where
  order : ∃ pre post, Linked size (pre ++ i :: post) d ∧ (post.map d.label).Nodup ∧
    ∀ j ∈ post, d.label j ∈ B
  entries : d.cacheEntries = n
  label : d.label i = b
  data : d.dataOf i = a
  bytes : ∀ x < size, d.buf a x = m x

/-- The entry is one of the cache. -/
theorem HeldEntry.lt (h : HeldEntry size n i b B a m d) : i < n := by
  obtain ⟨pre, post, hl, -⟩ := h.order
  rw [← h.entries, ← hl.ring.mem_iff]
  exact List.mem_append_right _ List.mem_cons_self

/-- Labels that are different blocks are not more than the blocks. -/
theorem length_le_card_of_nodup (hnodup : (post.map d.label).Nodup)
    (hB : ∀ j ∈ post, d.label j ∈ B) : post.length ≤ B.card := by
  rw [← List.length_map (f := d.label), ← List.toFinset_card_of_nodup hnodup]
  refine Finset.card_le_card fun x hx => ?_
  obtain ⟨j, hj, rfl⟩ := List.mem_map.mp (List.mem_toFinset.mp hx)
  exact hB j hj

/-- Where another entry has been moved to the end. -/
theorem moved_cases {pre' post' : List ℕ} {i' : ℕ} (hne : i' ≠ i)
    (h : pre ++ i :: post = pre' ++ i' :: post') :
    (∃ l, post' = l ++ i :: post ∧ pre = pre' ++ i' :: l) ∨
      ∃ l, post = l ++ i' :: post' ∧ pre' = pre ++ i :: l := by
  rcases List.append_eq_append_iff.mp h with ⟨l, hpre, hl⟩ | ⟨l, hpre, hl⟩
  · rcases l with _ | ⟨x, l⟩
    · exact absurd (List.cons.inj hl).1.symm hne
    · rw [List.cons_append] at hl
      obtain ⟨rfl, hrest⟩ := List.cons.inj hl
      exact .inr ⟨l, hrest, hpre⟩
  · rcases l with _ | ⟨x, l⟩
    · exact absurd (List.cons.inj hl).1 hne
    · rw [List.cons_append] at hl
      obtain ⟨rfl, hrest⟩ := List.cons.inj hl
      exact .inl ⟨l, hrest, hpre⟩

/-- Another entry with a block of `B` has been moved to the end, the last with its label. -/
theorem HeldEntry.moved (h : HeldEntry size n i b B a m d) {pre' post' : List ℕ} {i' : ℕ}
    (hne : i' ≠ i) (hos : pre ++ i :: post = pre' ++ i' :: post')
    (hnodup : (post.map d.label).Nodup) (hpost : ∀ j ∈ post, d.label j ∈ B)
    (hlast : ∀ j ∈ post', d.label j ≠ d.label i') (hi' : d.label i' ∈ insert b B)
    (hrel : d.Relinked d') (hlink : Linked size (pre' ++ post' ++ [i']) d') :
    HeldEntry size n i b B a m d' := by
  have hlab : ∀ j, d'.label j = d.label j := fun j => hrel.block _
  have hmap : ∀ l : List ℕ, l.map d'.label = l.map d.label := fun l =>
    List.map_congr_left fun j _ => hlab j
  have hn : d'.cacheEntries = d.cacheEntries := by rw [hrel.rest]
  have hbytes : d'.cacheData = d.cacheData := by rw [hrel.rest]
  refine ⟨?_, hn.trans h.entries, (hlab i).trans h.label, (hrel.data _).trans h.data,
    fun x hx => by rw [Dev.buf, hbytes]; exact h.bytes x hx⟩
  rcases moved_cases hne hos with ⟨l, rfl, rfl⟩ | ⟨l, rfl, rfl⟩
  · -- an entry in front, so that none of those behind has the label
    have hB : d.label i' ∈ B := by
      refine Finset.mem_of_mem_insert_of_ne hi' fun hib => ?_
      exact hlast i (by simp) (h.label.trans hib.symm)
    refine ⟨pre' ++ l, post ++ [i'], by simpa using hlink, ?_, fun j hj => ?_⟩
    · rw [hmap, List.map_append, List.map_singleton]
      refine hnodup.append (List.nodup_singleton _) ?_
      rw [List.disjoint_singleton]
      intro hmem
      obtain ⟨j, hj, hji⟩ := List.mem_map.mp hmem
      exact hlast j (by simp [hj]) hji
    · rw [hlab]
      rcases List.mem_append.mp hj with hj | hj
      · exact hpost j hj
      · rw [List.mem_singleton.mp hj]
        exact hB
  · refine ⟨pre, l ++ post' ++ [i'], by simpa using hlink, ?_, fun j hj => ?_⟩
    · have hperm : (l ++ post' ++ [i']).Perm (l ++ i' :: post') := by
        rw [List.append_assoc]
        exact (List.perm_append_comm).append_left l
      rw [hmap]
      exact (hperm.map d.label).nodup_iff.mpr hnodup
    · rw [hlab]
      refine hpost j ?_
      simp only [List.mem_append, List.mem_cons] at hj ⊢
      tauto

/-- There is an entry in front: the labels behind are other blocks than one that no entry has. -/
theorem HeldEntry.exists_front (h : HeldEntry size n i b B a m d) (hcard : B.card < n) {x : ℕ}
    {rest : List ℕ} (hlink : Linked size (pre ++ i :: post) d) (hnodup : (post.map d.label).Nodup)
    (hpost : ∀ j ∈ post, d.label j ∈ B) (hos : pre ++ i :: post = x :: rest) (hb' : b' ∈ B)
    (habsent : ∀ j ∈ pre ++ i :: post, d.label j ≠ b') :
    ∃ pre', pre = x :: pre' ∧ rest = pre' ++ i :: post := by
  rcases pre with _ | ⟨y, pre'⟩
  · have hlen := length_le_card_of_nodup hnodup (B := B.erase b') fun j hj =>
      Finset.mem_erase.mpr ⟨habsent j (by simp [hj]), hpost j hj⟩
    rw [Finset.card_erase_of_mem hb'] at hlen
    have hpos := Finset.card_pos.mpr ⟨b', hb'⟩
    have htotal := hlink.ring.length
    rw [h.entries, List.nil_append, List.length_cons] at htotal
    omega
  · obtain ⟨rfl, rfl⟩ := List.cons.inj hos
    exact ⟨pre', rfl, rfl⟩

/-- **The buffer of the entry in front is filled**, whether or not the read succeeds. -/
theorem HeldEntry.load (h : HeldEntry size n i b B a m d)
    (hsize : 512 * sectorsPerBlock sb ≤ size) {x : ℕ}
    (hlink : Linked size (x :: (pre ++ i :: post)) d) (hnodup : (post.map d.label).Nodup)
    (hpost : ∀ j ∈ post, d.label j ∈ B)
    (hring : RingOk (loadInto e sb b' x d) (x :: (pre ++ i :: post))) :
    HeldEntry size n i b B a m (loadInto e sb b' x d) := by
  obtain ⟨hn, hdata, hlab⟩ := load_entries e sb b' x d
  have hnot := (List.nodup_cons.mp hlink.ring.nodup).1
  have hix : i ≠ x := fun hix => hnot (hix ▸ by simp)
  refine ⟨⟨x :: pre, post, hlink.congr hring hn hdata, ?_, fun j hj => ?_⟩, hn.trans h.entries,
    (hlab i).trans h.label, (hdata i).trans h.data, fun y hy => ?_⟩
  · rw [List.map_congr_left fun j _ => hlab j]
    exact hnodup
  · rw [hlab]
    exact hpost j hj
  · obtain ⟨m', t, hload, hout⟩ := loadInto_frame e sb b' x d
    rw [← h.bytes y hy, hload]
    refine hout _ ?_
    have hapart := hlink.apart i (hlink.ring.mem_iff.mp (by simp)) x
      (hlink.ring.mem_iff.mp (by simp)) hix
    rw [h.data] at hapart
    omega

/-- **The entry in front is labelled** with a block that no entry has, and moved to the end. -/
theorem HeldEntry.relabelled (h : HeldEntry size n i b B a m d) {x : ℕ}
    (hlink : Linked size (x :: (pre ++ i :: post)) d) (hnodup : (post.map d.label).Nodup)
    (hpost : ∀ j ∈ post, d.label j ∈ B) (hb' : b' ∈ B)
    (habsent : ∀ j ∈ x :: (pre ++ i :: post), d.label j ≠ b')
    (hrel : (d.setBlock (.entry x) b').Relinked d') (hring : RingOk d' (pre ++ i :: post ++ [x])) :
    HeldEntry size n i b B a m d' ∧ d'.label x = b' := by
  have hn : d'.cacheEntries = d.cacheEntries := by
    rw [hrel.rest]
    rfl
  have hbytes : d'.cacheData = d.cacheData := by
    rw [hrel.rest]
    rfl
  have hdata : ∀ j, d'.dataOf j = d.dataOf j := fun j =>
    (hrel.data _).trans (dataOf_setBlock d x b' j)
  have hlab : ∀ j, d'.label j = if j = x then b' else d.label j := fun j =>
    (hrel.block _).trans (label_setBlock d x b' j)
  have hnot := (List.nodup_cons.mp hlink.ring.nodup).1
  have hne : ∀ {j}, j ∈ pre ++ i :: post → j ≠ x := fun hj hjx => hnot (hjx ▸ hj)
  have hx : d'.label x = b' := by rw [hlab, if_pos rfl]
  have hsame : post.map d'.label = post.map d.label := List.map_congr_left fun j hj => by
    rw [hlab, if_neg (hne (by simp [hj]))]
  refine ⟨⟨⟨pre, post ++ [x], by simpa using hlink.congr hring hn hdata, ?_, fun j hj => ?_⟩,
    hn.trans h.entries, ?_, (hdata i).trans h.data, fun y hy => ?_⟩, hx⟩
  · rw [List.map_append, List.map_singleton, hsame, hx]
    refine hnodup.append (List.nodup_singleton _) ?_
    rw [List.disjoint_singleton]
    intro hmem
    obtain ⟨j, hj, hjb⟩ := List.mem_map.mp hmem
    exact habsent j (by simp [hj]) hjb
  · rcases List.mem_append.mp hj with hj | hj
    · rw [hlab, if_neg (hne (by simp [hj]))]
      exact hpost j hj
    · rw [List.mem_singleton.mp hj, hx]
      exact hb'
  · rw [hlab, if_neg (hne (by simp))]
    exact h.label
  · rw [Dev.buf, hbytes]
    exact h.bytes y hy

/-- **A request leaves the entry alone**, while the other blocks requested are fewer than the
entries. What it returns is an entry with the block. -/
theorem HeldEntry.request (h : HeldEntry size n i b B a m d)
    (hsize : 512 * sectorsPerBlock sb ≤ size) (hn : 2 ≤ n) (hcard : B.card < n)
    (hb' : b' ∈ insert b B) (e : Env) :
    HeldEntry size n i b B a m (getCacheBlock e sb b' d).2 ∧
      ∀ cs, (getCacheBlock e sb b' d).1 = some cs →
        ∃ j < n, cs = .entry j ∧ (getCacheBlock e sb b' d).2.label j = b' := by
  obtain ⟨pre, post, hl, hnodup, hpost⟩ := h.order
  have hlt : ∀ {j}, j ∈ pre ++ i :: post → j < n := fun hj => by
    rw [← h.entries]
    exact hl.ring.mem_iff.mp hj
  rcases hl.ring.request e sb b' (h.entries.symm ▸ hn) with
    ⟨pre', i', post', d', hos, rfl, hlast, hget, hring, hrel⟩ | ⟨x, rest, hos, habsent, hout⟩
  · have hn' : d'.cacheEntries = d.cacheEntries := by rw [hrel.rest]
    have hlink : Linked size (pre' ++ post' ++ [i']) d' := hl.congr hring hn' fun j => hrel.data _
    rw [hget]
    refine ⟨?_, fun cs hcs => ?_⟩
    · rcases eq_or_ne i' i with rfl | hne
      · -- it has been requested itself
        have hbytes : d'.cacheData = d.cacheData := by rw [hrel.rest]
        exact ⟨⟨pre' ++ post', [], hlink, List.nodup_nil, fun j hj => absurd hj List.not_mem_nil⟩,
          hn'.trans h.entries, (hrel.block _).trans h.label, (hrel.data _).trans h.data,
          fun x hx => by rw [Dev.buf, hbytes]; exact h.bytes x hx⟩
      · exact h.moved hne hos hnodup hpost hlast hb' hrel hlink
    · obtain rfl := Option.some.inj hcs
      exact ⟨i', hlt (hos ▸ by simp), rfl, hrel.block _⟩
  · have hB : b' ∈ B := by
      refine Finset.mem_of_mem_insert_of_ne hb' fun hbb => ?_
      exact habsent i (by simp) (h.label.trans hbb.symm)
    obtain ⟨pre', rfl, rfl⟩ := h.exists_front hcard hl hnodup hpost hos hB habsent
    rcases hout with ⟨-, d', hget, hring, hrel⟩ | ⟨-, hget, hring⟩
    · have hlab := (load_entries e sb b' x d).2.2
      have hring' : RingOk (loadInto e sb b' x d) (x :: (pre' ++ i :: post)) :=
        hl.ring.congr (by rw [Dev.links, Dev.links, (loadInto_cache e sb b' x d).1])
          (loadInto_cache e sb b' x d).2
      have hload := h.load hsize hl hnodup hpost hring'
      obtain ⟨hn', hdata, -⟩ := load_entries e sb b' x d
      have hkept := hload.relabelled (hl.congr hring' hn' hdata)
        (by rw [List.map_congr_left fun j _ => hlab j]; exact hnodup)
        (fun j hj => by rw [hlab]; exact hpost j hj) hB
        (fun j hj => by rw [hlab]; exact habsent j hj) hrel hring
      rw [hget]
      refine ⟨hkept.1, fun cs hcs => ?_⟩
      obtain rfl := Option.some.inj hcs
      exact ⟨x, hlt (by simp), rfl, hkept.2⟩
    · rw [hget]
      exact ⟨h.load hsize hl hnodup hpost hring, fun cs hcs => by cases hcs⟩

/-- What concerns neither the list nor the labels: the bytes may change. -/
theorem HeldEntry.congr (h : HeldEntry size n i b B a m d) {m' : ℕ → UInt8}
    (hc : d'.cache = d.cache) (hn : d'.cacheEntries = d.cacheEntries)
    (hbytes : ∀ x < size, d'.buf a x = m' x) :
    HeldEntry size n i b B a m' d' := by
  obtain ⟨pre, post, hl, hnodup, hpost⟩ := h.order
  have hlab : ∀ j, d'.label j = d.label j := fun j => by rw [Dev.label, hc]; rfl
  have hdata : ∀ j, d'.dataOf j = d.dataOf j := fun j => by rw [Dev.dataOf, hc]; rfl
  have hring := hl.ring.congr (by rw [Dev.links, Dev.links, hc]) hn
  refine ⟨⟨pre, post, hl.congr hring hn hdata, ?_, fun j hj => ?_⟩, hn.trans h.entries,
    (hlab i).trans h.label, (hdata i).trans h.data, hbytes⟩
  · rw [List.map_congr_left fun j _ => hlab j]
    exact hnodup
  · rw [hlab]
    exact hpost j hj

/-- Bytes are written to a buffer. -/
def written (cs : CacheRef) (j off count : ℕ) (src m : ℕ → UInt8) : ℕ → UInt8 :=
  if .entry j = cs then blit m off count src else m

/-- **A write to a buffer** changes the bytes held only when the buffer is that of the entry. -/
theorem HeldEntry.write (h : HeldEntry size n i b B a m d) (hj : j < n) {off count : ℕ}
    (hfit : off + count ≤ size) (src : ℕ → UInt8) :
    HeldEntry size n i b B a (written (.entry i) j off count src m)
      (d.copyIn (d.dataOf j + off) count src) := by
  refine h.congr rfl rfl fun x hx => ?_
  have hb := h.bytes x hx
  rw [Dev.buf] at hb
  rw [Dev.buf, Dev.copyIn_cacheData, written]
  rcases eq_or_ne j i with rfl | hne
  · rw [if_pos rfl, h.data]
    by_cases hin : off ≤ x ∧ x < off + count
    · rw [blit_of_mem (by omega), blit_of_mem hin, Nat.add_sub_add_left]
    · rw [blit_of_not_mem (by omega), blit_of_not_mem hin]
      exact hb
  · obtain ⟨pre, post, hl, -⟩ := h.order
    have hapart := hl.apart j (h.entries.symm ▸ hj) i (h.entries.symm ▸ h.lt) hne
    rw [h.data] at hapart
    rw [if_neg fun hji => hne (CacheRef.entry.inj hji), blit_of_not_mem (by omega)]
    exact hb

theorem HeldEntry.tick (h : HeldEntry size n i b B a m d) : HeldEntry size n i b B a m d.tick :=
  h.congr rfl rfl h.bytes

theorem HeldEntry.bwrite (h : HeldEntry size n i b B a m d) (e : Env) (sb : TfsSbInfo)
    (block buf : ℕ) : HeldEntry size n i b B a m (tfsBwrite e sb block buf d).2 := by
  obtain ⟨disk, t, hf⟩ := floppyWritesLoop_frame e (sectorsPerBlock sb) (sectorOf sb block) buf 0 d
  have hcache : (tfsBwrite e sb block buf d).2.cache = d.cache := by
    change (floppyWritesLoop e (sectorsPerBlock sb) (sectorOf sb block) buf 0 d).2.cache = _
    rw [hf]
  have hn : (tfsBwrite e sb block buf d).2.cacheEntries = d.cacheEntries := by
    change (floppyWritesLoop e (sectorsPerBlock sb) (sectorOf sb block) buf 0 d).2.cacheEntries = _
    rw [hf]
  have hbytes : (tfsBwrite e sb block buf d).2.cacheData = d.cacheData := by
    change (floppyWritesLoop e (sectorsPerBlock sb) (sectorOf sb block) buf 0 d).2.cacheData = _
    rw [hf]
  refine h.congr hcache hn fun x hx => ?_
  rw [Dev.buf, hbytes]
  exact h.bytes x hx

theorem HeldEntry.mono {B' : Finset ℕ} (h : HeldEntry size n i b B a m d) (hB : B ⊆ B') :
    HeldEntry size n i b B' a m d := by
  obtain ⟨pre, post, hl, hnodup, hpost⟩ := h.order
  exact ⟨⟨pre, post, hl, hnodup, fun j hj => hB (hpost j hj)⟩, h.entries, h.label, h.data, h.bytes⟩

/-- **An entry that has just been returned** is held. -/
theorem Linked.held (h : Linked size os d) (hn : 2 ≤ d.cacheEntries) {cs : CacheRef}
    (hget : getCacheBlock e sb b d = (some cs, d₁)) :
    ∃ i, cs = .entry i ∧ HeldEntry size d.cacheEntries i b ∅ (d₁.dataOf i)
      (d₁.buf (d₁.dataOf i)) d₁ := by
  rcases h.ring.request e sb b hn with ⟨pre, i, post, d', -, hi, -, hget', hring, hrel⟩ |
    ⟨i, post, -, -, ⟨-, d', hget', hring, hrel⟩ | ⟨-, hget', -⟩⟩
  · obtain ⟨hcs, rfl⟩ := Prod.ext_iff.mp (hget'.symm.trans hget)
    obtain rfl := Option.some.inj hcs
    have hn' : d'.cacheEntries = d.cacheEntries := by rw [hrel.rest]
    exact ⟨i, rfl, ⟨pre ++ post, [], h.congr hring hn' fun j => hrel.data _, List.nodup_nil,
      fun j hj => absurd hj List.not_mem_nil⟩, hn', (hrel.block _).trans hi, rfl, fun _ _ => rfl⟩
  · obtain ⟨hcs, rfl⟩ := Prod.ext_iff.mp (hget'.symm.trans hget)
    obtain rfl := Option.some.inj hcs
    obtain ⟨hnl, hdatal, -⟩ := load_entries e sb b i d
    have hn' : d'.cacheEntries = d.cacheEntries := by
      rw [hrel.rest]
      exact hnl
    have hdata : ∀ j, d'.dataOf j = d.dataOf j := fun j =>
      ((hrel.data _).trans (dataOf_setBlock _ i b j)).trans (hdatal j)
    refine ⟨i, rfl, ⟨post, [], h.congr hring hn' hdata, List.nodup_nil,
      fun j hj => absurd hj List.not_mem_nil⟩, hn', ?_, rfl, fun _ _ => rfl⟩
    exact (hrel.block _).trans ((label_setBlock _ i b i).trans (if_pos rfl))
  · cases congrArg Prod.fst (hget'.symm.trans hget)

/-! ### Sequences of uses -/

/-- What a caller does with the cache while it holds an entry. -/
inductive CacheUse
  /-- `get_cache_block` -/
  | request (block : ℕ)
  /-- Bytes are written to the buffer of an entry. -/
  | write (i off count : ℕ) (src : ℕ → UInt8)
  /-- `tfs_bwrite` -/
  | writeBack (block buf : ℕ)

/-- The state after a use, however it ends. -/
def CacheUse.run (e : Env) (sb : TfsSbInfo) (d : Dev) : CacheUse → Dev
  | .request block => (getCacheBlock e sb block d).2
  | .write i off count src => d.copyIn (d.dataOf i + off) count src
  | .writeBack block buf => (tfsBwrite e sb block buf d).2

/-- The uses one after another. -/
def runUses (e : Env) (sb : TfsSbInfo) (uses : List CacheUse) (d : Dev) : Dev :=
  uses.foldl (CacheUse.run e sb) d

/-- A write is to the buffer of an entry. -/
def CacheUse.Fits (size n : ℕ) : CacheUse → Prop
  | .write i off count _ => i < n ∧ off + count ≤ size
  | _ => True

/-- The block that is requested. -/
def CacheUse.block? : CacheUse → Option ℕ
  | .request block => some block
  | _ => none

/-- The bytes of the entry after a use. -/
def CacheUse.own (cs : CacheRef) (m : ℕ → UInt8) : CacheUse → ℕ → UInt8
  | .write j off count src => written cs j off count src m
  | _ => m

/-- The blocks other than `b` that are requested. -/
def otherBlocks (uses : List CacheUse) (b : ℕ) : Finset ℕ :=
  (uses.filterMap CacheUse.block?).toFinset.erase b

/-- **A use leaves the entry to its holder.** -/
theorem HeldEntry.use (h : HeldEntry size n i b B a m d) (hsize : 512 * sectorsPerBlock sb ≤ size)
    (hn : 2 ≤ n) (hcard : B.card < n) (e : Env) {u : CacheUse} (hfit : u.Fits size n)
    (hblock : ∀ b' ∈ u.block?, b' ∈ insert b B) :
    HeldEntry size n i b B a (u.own (.entry i) m) (u.run e sb d) := by
  cases u with
  | request b' => exact (h.request hsize hn hcard (hblock b' rfl) e).1
  | write j off count src => exact h.write hfit.1 hfit.2 src
  | writeBack b' buf => exact h.bwrite e sb b' buf

/-- **A run of uses.** -/
theorem HeldEntry.uses (h : HeldEntry size n i b B a m d) (hsize : 512 * sectorsPerBlock sb ≤ size)
    (hn : 2 ≤ n) (hcard : B.card < n) (e : Env) {uses : List CacheUse}
    (hfit : ∀ u ∈ uses, u.Fits size n) (hblock : ∀ u ∈ uses, ∀ b' ∈ u.block?, b' ∈ insert b B) :
    HeldEntry size n i b B a (uses.foldl (CacheUse.own (.entry i)) m) (runUses e sb uses d) := by
  induction uses generalizing d m with
  | nil => exact h
  | cons u uses ih =>
    obtain ⟨hu, hfit⟩ := List.forall_mem_cons.mp hfit
    obtain ⟨hbu, hblock⟩ := List.forall_mem_cons.mp hblock
    exact ih (h.use hsize hn hcard e hu hbu) hfit hblock

/-- **What is promised of entries** of a cache in a state: the one that a request returns keeps
its block, its buffer and what its holder has written there, through uses that request fewer
other blocks than there are other entries. -/
def EntriesStay (e : Env) (sb : TfsSbInfo) (size : ℕ) (d : Dev) : Prop :=
  ∀ b cs d₁ uses, getCacheBlock e sb b d = (some cs, d₁) →
    (∀ u ∈ uses, u.Fits size d.cacheEntries) → (otherBlocks uses b).card ≤ d.cacheEntries - 1 →
      ((runUses e sb uses d₁).cache cs).block = b ∧
      ((runUses e sb uses d₁).cache cs).data = (d₁.cache cs).data ∧
      ∀ x < size, (runUses e sb uses d₁).buf (d₁.cache cs).data x =
        uses.foldl (CacheUse.own cs) (d₁.buf (d₁.cache cs).data) x

theorem Linked.entriesStay (h : Linked size os d) (hsize : 512 * sectorsPerBlock sb ≤ size)
    (hn : 2 ≤ d.cacheEntries) (e : Env) : EntriesStay e sb size d := by
  intro b cs d₁ uses hget hfit hcard
  obtain ⟨i, rfl, hheld⟩ := h.held hn hget
  have hblock : ∀ u ∈ uses, ∀ b' ∈ u.block?, b' ∈ insert b (otherBlocks uses b) := by
    intro u hu b' hb'
    by_cases hbb : b' = b
    · exact hbb ▸ Finset.mem_insert_self _ _
    · refine Finset.mem_insert_of_mem (Finset.mem_erase.mpr ⟨hbb, List.mem_toFinset.mpr ?_⟩)
      exact List.mem_filterMap.mpr ⟨u, hu, hb'⟩
  have hkept := (hheld.mono (Finset.empty_subset _)).uses hsize hn (by omega) e hfit hblock
  exact ⟨hkept.label, hkept.data, hkept.bytes⟩

/-! ### The cache of the file system -/

theorem Shaped.linked (h : Shaped e os d) : Linked e.sbi.sBlockSize os d := by
  refine ⟨h.ring, fun i hi j hj hij => ?_⟩
  rw [h.entries] at hi hj
  rw [h.data i hi, h.data j hj, ← Nat.succ_mul, ← Nat.succ_mul]
  rcases Nat.lt_or_gt_of_ne hij with hlt | hlt
  · exact .inl (Nat.mul_le_mul_right _ hlt)
  · exact .inr (Nat.mul_le_mul_right _ hlt)

/-! ### The slot of a directory entry -/

/-- The entry is held, and blocks requested since are not more than `c`. -/
def HeldBy (size n i b c a : ℕ) (m : ℕ → UInt8) (d : Dev) : Prop :=
  ∃ B : Finset ℕ, B.card ≤ c ∧ HeldEntry size n i b B a m d

section Slot

variable {c : ℕ} {k k₂ : Kernel} {inode : Inode} {dname : List UInt8} {dir : ℕ}

theorem HeldBy.request (h : HeldBy size n i b c a m d) (hsize : 512 * sectorsPerBlock sb ≤ size)
    (hc : c + 1 < n) (e : Env) (b' : ℕ) :
    HeldBy size n i b (c + 1) a m (getCacheBlock e sb b' d).2 ∧
      ∀ cs, (getCacheBlock e sb b' d).1 = some cs → ∃ j < n, cs = .entry j := by
  obtain ⟨B, hB, h⟩ := h
  have hcard : (insert b' B).card ≤ c + 1 := (Finset.card_insert_le _ _).trans (by omega)
  obtain ⟨hkept, hcs⟩ := (h.mono (Finset.subset_insert b' B)).request hsize (by omega)
    (hcard.trans_lt hc) (Finset.mem_insert_of_mem (Finset.mem_insert_self _ _)) e
  refine ⟨⟨_, hcard, hkept⟩, fun cs h => ?_⟩
  obtain ⟨j, hj, rfl, -⟩ := hcs cs h
  exact ⟨j, hj, rfl⟩

theorem HeldBy.tick (h : HeldBy size n i b c a m d) : HeldBy size n i b c a m d.tick := by
  obtain ⟨B, hB, h⟩ := h
  exact ⟨B, hB, h.tick⟩

/-- **`tfs_read_inode`** requests one block. -/
theorem tfsReadInode_held (hm : Mounted e.sbi) (hc : c + 1 < n) (inr : ℤ) :
    Hoare (HeldBy e.sbi.sBlockSize n i b c a m) (tfsReadInode e inr)
      fun _ => HeldBy e.sbi.sBlockSize n i b (c + 1) a m := by
  intro d h
  have hreq := h.request hm.sectors.le hc e
    (toU32 (e.sbi.sInodeTable + (inr - 1).tdiv e.sbi.sInodesPerBlock))
  unfold tfsReadInode
  rw [DevM.bind_apply]
  generalize getCacheBlock e e.sbi _ d = r at hreq ⊢
  obtain ⟨r, d'⟩ := r
  cases r with
  | none => exact hreq.1.tick
  | some cs =>
    dsimp only
    rw [DevM.bind_apply]
    split
    · exact hreq.1.tick
    · exact hreq.1

/-- **`tfs_iget_by_inr`** requests no other. -/
theorem tfsIgetByInr_held (hm : Mounted e.sbi) (hc : c + 1 < n) (inr : ℤ) :
    Hoare (fun k : Kernel => HeldBy e.sbi.sBlockSize n i b c a m k.dev) (tfsIgetByInr e inr)
      fun _ k => HeldBy e.sbi.sBlockSize n i b (c + 1) a m k.dev := by
  have hnew : Hoare (fun k : Kernel => HeldBy e.sbi.sBlockSize n i b (c + 1) a m k.dev)
      (newInode e 0) fun _ k => HeldBy e.sbi.sBlockSize n i b (c + 1) a m k.dev := by
    have htick : Hoare (fun k : Kernel => HeldBy e.sbi.sBlockSize n i b (c + 1) a m k.dev)
        (onDev (mallocOk e)) fun _ k => HeldBy e.sbi.sBlockSize n i b (c + 1) a m k.dev :=
      fun k h => h.tick
    exact htick.bind fun _ => .ite (fun _ => .pure fun _ h => h) fun _ =>
      htick.bind fun _ => .ite (fun _ => .pure fun _ h => h) fun _ _ h => h
  have hread : Hoare (fun k : Kernel => HeldBy e.sbi.sBlockSize n i b c a m k.dev)
      (onDev (tfsReadInode e inr)) fun _ k => HeldBy e.sbi.sBlockSize n i b (c + 1) a m k.dev :=
    fun k h => tfsReadInode_held hm hc inr k.dev h
  unfold tfsIgetByInr
  refine hread.bind fun tinode => hnew.bind fun r => ?_
  cases r with
  | none => exact .pure fun _ h => h
  | some obj =>
    have hset : Hoare (fun k : Kernel => HeldBy e.sbi.sBlockSize n i b (c + 1) a m k.dev)
        (setInode obj (igetValue e inr tinode))
        fun _ k => HeldBy e.sbi.sBlockSize n i b (c + 1) a m k.dev := fun k h => by
      have hdev : (setInode obj (igetValue e inr tinode) k).2.dev = k.dev := touch_dev obj k
      dsimp only
      rw [hdev]
      exact h
    exact hset.bind fun _ => .pure fun _ h => h

/-- The bytes differ in the record of the inode only, which is in the block. -/
def SameButRecord (e : Env) (inode : Inode) (b : ℕ) (m m' : ℕ → UInt8) : Prop :=
  ∀ x < e.sbi.sBlockSize, m' x ≠ m x →
    b = iwriteBlock e inode ∧ iwritePlace e inode ≤ x ∧ x < iwritePlace e inode + sizeofTfsInode

/-- **`tfs_iwrite`** requests one block, and writes its record there. -/
theorem tfsIwrite_held (hm : Mounted e.sbi) (hc : c + 1 < n) (inode : Inode) :
    Hoare (HeldBy e.sbi.sBlockSize n i b c a m) (tfsIwrite e inode) fun _ d =>
      ∃ m', SameButRecord e inode b m m' ∧
        HeldBy e.sbi.sBlockSize n i b (c + 1) a m' d := by
  intro d h
  obtain ⟨B, hB, hheld⟩ := h
  have hcard : (insert (iwriteBlock e inode) B).card ≤ c + 1 :=
    (Finset.card_insert_le _ _).trans (by omega)
  obtain ⟨hkept, hcs⟩ := (hheld.mono (Finset.subset_insert (iwriteBlock e inode) B)).request
    hm.sectors.le (by omega) (hcard.trans_lt hc)
    (Finset.mem_insert_of_mem (Finset.mem_insert_self (iwriteBlock e inode) B)) e
  have hplace : iwritePlace e inode + sizeofTfsInode ≤ e.sbi.sBlockSize := by
    have hlt := Nat.mod_lt (toU32 (inode.iIno - 1)) hm.inodesPerBlock_pos
    have := Nat.mul_le_mul_right sizeofTfsInode (Nat.succ_le_of_lt hlt)
    rw [hm.records, Nat.succ_mul] at this
    exact this
  rcases hget : getCacheBlock e e.sbi (iwriteBlock e inode) d with ⟨r, d'⟩
  rw [hget] at hkept hcs
  rw [iwriteBlock] at hget
  rw [tfsIwrite, DevM.bind_apply, hget]
  cases r with
  | none => exact ⟨m, fun x _ hne => absurd rfl hne, _, hcard, hkept⟩
  | some cs =>
    obtain ⟨j, hj, rfl, hlab⟩ := hcs cs rfl
    have hstored := (hkept.write hj hplace (tfsWriteInode
      (fun y => d'.cacheData (d'.dataOf j + iwritePlace e inode + y)) inode)).bwrite e e.sbi
        (iwriteBlock e inode) (d'.dataOf j)
    refine ⟨_, fun x _ hne => ?_, _, hcard, hstored⟩
    rw [written] at hne
    by_cases hji : CacheRef.entry j = .entry i
    · rw [if_pos hji] at hne
      obtain rfl := CacheRef.entry.inj hji
      refine ⟨hkept.label.symm.trans hlab, ?_⟩
      by_contra hout
      exact hne (blit_of_not_mem hout)
    · rw [if_neg hji] at hne
      exact absurd rfl hne

/-- **Writing an object's inode.** -/
theorem iwriteObj_heldBy (hm : Mounted e.sbi) (hc : c + 1 < n) (dir : ℕ) :
    Hoare (fun k : Kernel => HeldBy e.sbi.sBlockSize n i b c a m k.dev) (iwriteObj e dir)
      fun _ k => ∃ m', SameButRecord e (k.objs dir) b m m' ∧
        HeldBy e.sbi.sBlockSize n i b (c + 1) a m' k.dev := by
  intro k h
  have htouch : (touch dir k).2.objs = k.objs := by
    rw [touch]
    split <;> rfl
  have hinode : (inodeAt dir k).1 = k.objs dir := congrFun htouch dir
  have hobjs : (inodeAt dir k).2.objs = k.objs := htouch
  have hdev : (inodeAt dir k).2.dev = k.dev := touch_dev dir k
  rw [iwriteObj, KernelM.bind_apply, hinode, onDev, hdev]
  dsimp only
  rw [hobjs]
  exact tfsIwrite_held hm hc (k.objs dir) k.dev h

/-! ### Removing an entry -/

/-- `tfs_find_entry` returns an entry it has just requested, and a slot in its buffer. -/
theorem findEntryLoop_found (hm : Mounted e.sbi) {words : List ℕ} {cs : CacheRef} {de : ℕ}
    (hl : Linked e.sbi.sBlockSize os d) (hn : 2 ≤ d.cacheEntries)
    (h : findEntryLoop e dname words d = (.found cs de, d₁)) :
    ∃ i, cs = .entry i ∧
      HeldEntry e.sbi.sBlockSize d.cacheEntries i (d₁.label i) ∅ (d₁.dataOf i)
        (d₁.buf (d₁.dataOf i)) d₁ ∧
      d₁.dataOf i ≤ de ∧ de + sizeofDirEntry ≤ d₁.dataOf i + e.sbi.sBlockSize := by
  induction words generalizing d os with
  | nil => cases congrArg Prod.fst h
  | cons block rest ih =>
    rw [findEntryLoop, DevM.bind_apply] at h
    obtain ⟨os', hl', hn'⟩ := hl.request hn e e.sbi block
    rcases hget : getCacheBlock e e.sbi block d with ⟨r, d'⟩
    rw [hget] at h hl' hn'
    cases r with
    | none => cases congrArg Prod.fst h
    | some cs' =>
      obtain ⟨i, rfl, hheld⟩ := hl.held hn hget
      dsimp only at h
      have hdata : dataPtr (.entry i) d' = (d'.dataOf i, d') := rfl
      have hread : ∀ a, readMem (fun m => findInBlock dname m (entriesPerBlock e) a) d' =
          (findInBlock dname d'.cacheData (entriesPerBlock e) a, d') := fun _ => rfl
      rw [DevM.bind_apply, hdata] at h
      dsimp only at h
      rw [DevM.bind_apply, hread] at h
      rcases hfind : findInBlock dname d'.cacheData (entriesPerBlock e) (d'.dataOf i) with _ | de'
      · rw [hfind] at h
        dsimp only at h
        split at h
        · cases congrArg Prod.fst h
        · rw [← hn']
          exact ih hl' (hn'.symm ▸ hn) h
      · rw [hfind] at h
        obtain ⟨hfound, rfl⟩ := Prod.ext_iff.mp h
        obtain ⟨rfl, rfl⟩ := Lookup.found.inj hfound
        obtain ⟨hle, hge⟩ := findInBlock_mem hfind
        rw [hm.slots] at hge
        have hlab : d'.label i = block := hheld.label
        exact ⟨i, rfl, hlab.symm ▸ hheld, hle, hge⟩

theorem tfsFindEntry_found (hm : Mounted e.sbi) {cs : CacheRef} {de : ℕ}
    (hl : Linked e.sbi.sBlockSize os d) (hn : 2 ≤ d.cacheEntries)
    (h : tfsFindEntry e inode dname d = (.found cs de, d₁)) :
    ∃ i, cs = .entry i ∧
      HeldEntry e.sbi.sBlockSize d.cacheEntries i (d₁.label i) ∅ (d₁.dataOf i)
        (d₁.buf (d₁.dataOf i)) d₁ ∧
      d₁.dataOf i ≤ de ∧ de + sizeofDirEntry ≤ d₁.dataOf i + e.sbi.sBlockSize := by
  unfold tfsFindEntry at h
  split at h
  · cases congrArg Prod.fst h
  · have htick : Linked e.sbi.sBlockSize os d.tick :=
      hl.congr (hl.ring.congr rfl rfl) rfl fun _ => rfl
    change findEntryLoop e dname (inode.iData ++ e.beyond d.ticks) d.tick = _ at h
    exact findEntryLoop_found (d := d.tick) hm htick hn h

variable (e) in
/-- `tfs_rmdir` and `tfs_unlink` up to the point where the slot is cleared, with their test of the
inode found: that inode, the entry and the slot, if they come to that. -/
def upToClear (test : Inode → Bool) (dir : ℕ) (dname : List UInt8) :
    KernelM (Option (ℕ × CacheRef × ℕ)) := do
  let inode ← inodeAt dir
  match ← onDev (tfsFindEntry e inode dname) with
  | .found cs de => do
    match ← tfsIgetByInr e (← onDev (entryInr de)) with
    | .error _ => pure none
    | .ok obj => do
      if test (← inodeAt obj) then do
        let inode ← inodeAt dir
        setInode dir { inode with iSize := toU32 (inode.iSize - sizeofDirEntry) }
        if (← iwriteObj e dir) ≠ 0 then pure none else pure (some (obj, cs, de))
      else pure none
  | _ => pure none

variable (e) in
/-- The rest of the two functions. -/
def fromClear (obj : ℕ) (cs : CacheRef) (de : ℕ) : KernelM ℤ := do
  let err ← onDev (clearEntry e cs de)
  if err ≠ 0 then giveUp obj err
  else tfsReleaseInode e obj

/-- The test of `tfs_rmdir`. -/
def rmdirTest (inode : Inode) : Bool :=
  inode.iMode = TFS_DIR ∧ isEmptyDir inode ≠ 0 ∧ isEmptyDir inode ≠ -1

/-- The test of `tfs_unlink`. -/
def unlinkTest (inode : Inode) : Bool := inode.iMode = TFS_FILE

/-- **What is promised of the slot** when it is cleared, in the state `k₂`: its entry has the
label and the buffer it had when `tfs_find_entry` returned it, the slot is in the buffer, and the
bytes there are the same, but for the record of the directory where that is in the block. -/
def SlotStays (e : Env) (dir : ℕ) (dname : List UInt8) (k : Kernel) (cs : CacheRef) (de : ℕ)
    (k₂ : Kernel) : Prop :=
  ∃ d₁, tfsFindEntry e (k.objs dir) dname k.dev = (.found cs de, d₁) ∧
    (k₂.dev.cache cs).block = (d₁.cache cs).block ∧ (k₂.dev.cache cs).data = (d₁.cache cs).data ∧
    (d₁.cache cs).data ≤ de ∧ de + sizeofDirEntry ≤ (d₁.cache cs).data + e.sbi.sBlockSize ∧
    SameButRecord e (k₂.objs dir) (d₁.cache cs).block (d₁.buf (d₁.cache cs).data)
      (k₂.dev.buf (d₁.cache cs).data)

/-- **A function is its two halves**, where it comes to the second. -/
theorem withEntry_halves {test : Inode → Bool} {call : ℕ → CacheRef → ℕ → KernelM ℤ}
    (hcall : ∀ obj cs de k, test (inodeAt obj k).1 = true →
      call obj cs de k = removeEntry e dir obj cs de (inodeAt obj k).2)
    {obj : ℕ} {cs : CacheRef} {de : ℕ}
    (h : upToClear e test dir dname k = (some (obj, cs, de), k₂)) :
    withEntry e dir dname call k = fromClear e obj cs de k₂ := by
  unfold upToClear at h
  unfold withEntry
  rw [KernelM.bind_apply] at h ⊢
  generalize inodeAt dir k = r at h ⊢
  obtain ⟨inode, k⟩ := r
  dsimp only at h ⊢
  rw [KernelM.bind_apply] at h ⊢
  generalize onDev (tfsFindEntry e inode dname) k = r at h ⊢
  obtain ⟨r, k⟩ := r
  cases r with
  | null => cases congrArg Prod.fst h
  | err n => cases congrArg Prod.fst h
  | found cs' de' =>
    dsimp only at h ⊢
    rw [KernelM.bind_apply, KernelM.bind_apply] at h ⊢
    generalize tfsIgetByInr e _ _ = r at h ⊢
    obtain ⟨r, k⟩ := r
    cases r with
    | error n => cases congrArg Prod.fst h
    | ok obj' =>
      dsimp only at h ⊢
      rw [KernelM.bind_apply] at h
      by_cases htest : test (inodeAt obj' k).1 = true
      · rw [if_pos htest, KernelM.bind_apply, KernelM.bind_apply, KernelM.bind_apply] at h
        rw [hcall obj' cs' de' k htest, removeEntry, KernelM.bind_apply, KernelM.bind_apply,
          KernelM.bind_apply]
        generalize iwriteObj e dir _ = r at h ⊢
        obtain ⟨err, k⟩ := r
        by_cases herr : err ≠ 0
        · rw [if_pos herr] at h
          cases congrArg Prod.fst h
        · rw [if_neg herr] at h ⊢
          obtain ⟨hsome, rfl⟩ := Prod.ext_iff.mp h
          cases hsome
          rfl
      · rw [if_neg htest] at h
        cases congrArg Prod.fst h

theorem tfsRmdir_halves {obj : ℕ} {cs : CacheRef} {de : ℕ}
    (h : upToClear e rmdirTest dir dname k = (some (obj, cs, de), k₂)) :
    tfsRmdir e dir dname k = fromClear e obj cs de k₂ := by
  refine withEntry_halves (fun obj cs de k htest => ?_) h
  obtain ⟨hmode, hempty, hsize⟩ := of_decide_eq_true htest
  rw [KernelM.bind_apply, if_neg (not_not.mpr hmode), if_neg hempty, if_neg hsize]

theorem tfsUnlink_halves {obj : ℕ} {cs : CacheRef} {de : ℕ}
    (h : upToClear e unlinkTest dir dname k = (some (obj, cs, de), k₂)) :
    tfsUnlink e dir dname k = fromClear e obj cs de k₂ := by
  refine withEntry_halves (fun obj cs de k htest => ?_) h
  rw [KernelM.bind_apply, if_neg (not_not.mpr (of_decide_eq_true htest))]

/-- **Two blocks** at most are requested between the search and the clearing. -/
theorem upToClear_slot (hm : Mounted e.sbi) (hl : Linked e.sbi.sBlockSize os k.dev)
    (hn : 3 ≤ k.dev.cacheEntries) {test : Inode → Bool} {obj : ℕ} {cs : CacheRef} {de : ℕ}
    (h : upToClear e test dir dname k = (some (obj, cs, de), k₂)) :
    SlotStays e dir dname k cs de k₂ := by
  unfold upToClear at h
  rw [KernelM.bind_apply] at h
  have hinode : (inodeAt dir k).1 = k.objs dir := by
    change (touch dir k).2.objs dir = _
    rw [touch]
    split <;> rfl
  have hdev : (inodeAt dir k).2.dev = k.dev := touch_dev dir k
  rw [hinode, KernelM.bind_apply] at h
  have hfind : onDev (tfsFindEntry e (k.objs dir) dname) (inodeAt dir k).2 =
      ((tfsFindEntry e (k.objs dir) dname k.dev).1, { (inodeAt dir k).2 with
        dev := (tfsFindEntry e (k.objs dir) dname k.dev).2 }) := by
    rw [onDev, hdev]
  rw [hfind] at h
  rcases hres : tfsFindEntry e (k.objs dir) dname k.dev with ⟨r, d₁⟩
  rw [hres] at h
  cases r with
  | null => cases congrArg Prod.fst h
  | err n => cases congrArg Prod.fst h
  | found cs' de' =>
    obtain ⟨i, rfl, hheld, hle, hge⟩ := tfsFindEntry_found hm hl (by omega) hres
    dsimp only at h
    rw [KernelM.bind_apply, KernelM.bind_apply] at h
    have higet := tfsIgetByInr_held (n := k.dev.cacheEntries) (c := 0) hm (by omega)
      (onDev (entryInr de') { (inodeAt dir k).2 with dev := d₁ }).1
      (onDev (entryInr de') { (inodeAt dir k).2 with dev := d₁ }).2
      (⟨∅, Nat.le_refl _, hheld⟩ : HeldBy e.sbi.sBlockSize _ i _ 0 _ _ d₁)
    generalize tfsIgetByInr e _ _ = r at h higet
    obtain ⟨r, k₁⟩ := r
    cases r with
    | error n => cases congrArg Prod.fst h
    | ok obj' =>
      dsimp only at h
      rw [KernelM.bind_apply] at h
      split at h
      · rw [KernelM.bind_apply, KernelM.bind_apply, KernelM.bind_apply] at h
        have hdevs : ∀ inode', (setInode dir inode' (inodeAt dir (inodeAt obj' k₁).2).2).2.dev =
            k₁.dev := fun inode' =>
          ((touch_dev dir _).trans (touch_dev dir _)).trans (touch_dev obj' k₁)
        have hwrite := iwriteObj_heldBy (n := k.dev.cacheEntries) (c := 1) hm (by omega) dir
          (setInode dir { (inodeAt dir (inodeAt obj' k₁).2).1 with
            iSize := toU32 ((inodeAt dir (inodeAt obj' k₁).2).1.iSize - sizeofDirEntry) }
            (inodeAt dir (inodeAt obj' k₁).2).2).2
          (by dsimp only; rw [hdevs]; exact higet)
        generalize iwriteObj e dir _ = r at h hwrite
        obtain ⟨err, k'⟩ := r
        split at h
        · cases congrArg Prod.fst h
        · obtain ⟨hsome, rfl⟩ := Prod.ext_iff.mp h
          cases (show some (obj', CacheRef.entry i, de') = some (obj, cs, de) from hsome)
          obtain ⟨m', hsame, B, -, hkept⟩ := hwrite
          refine ⟨d₁, hres, hkept.label, hkept.data, hle, hge, fun x hx hne => ?_⟩
          refine hsame x hx fun heq => hne ?_
          exact (hkept.bytes x hx).trans heq
      · cases congrArg Prod.fst h

end Slot

/-! ### Both -/

/-- **Entries held across further requests stay valid**: in every cache of at least two entries,
through every sequence of uses that requests fewer other blocks than there are other entries; and
with at least three the slot that `tfs_rmdir` or `tfs_unlink` has found is still the slot of its
block when they clear it. -/
theorem entriesStay_and_slotStays :
    (∀ (e : Env) (sb : TfsSbInfo) (size : ℕ) (os : List ℕ) (d : Dev), Linked size os d →
      512 * sectorsPerBlock sb ≤ size → 2 ≤ d.cacheEntries → EntriesStay e sb size d) ∧
    ∀ (e : Env) (os : List ℕ) (k : Kernel), Mounted e.sbi → Linked e.sbi.sBlockSize os k.dev →
      3 ≤ k.dev.cacheEntries → ∀ dir dname obj cs de k₂,
        (upToClear e rmdirTest dir dname k = (some (obj, cs, de), k₂) →
          tfsRmdir e dir dname k = fromClear e obj cs de k₂ ∧ SlotStays e dir dname k cs de k₂) ∧
        (upToClear e unlinkTest dir dname k = (some (obj, cs, de), k₂) →
          tfsUnlink e dir dname k = fromClear e obj cs de k₂ ∧
            SlotStays e dir dname k cs de k₂) := by
  refine ⟨fun e sb size os d h hsize hn => h.entriesStay hsize hn e, ?_⟩
  intro e os k hm hl hn dir dname obj cs de k₂
  exact ⟨fun h => ⟨tfsRmdir_halves h, upToClear_slot hm hl hn h⟩,
    fun h => ⟨tfsUnlink_halves h, upToClear_slot hm hl hn h⟩⟩

/-- A state in which the root directory of the formatted volume is the only object. -/
def rootOnly : Kernel :=
  { bootKernel (.quiet (smallSbi 9)) formatted with
    objs := fun _ => igetValue (.quiet (smallSbi 9)) TFS_ROOT_INODE (formattedBlock 4)
    alive := fun obj => obj = 0
    nextObj := 1 }

/-- There the directory's own entry is found, and comes to be cleared. -/
theorem entriesStay_and_slotStays_root :
    EntriesStay (.quiet (smallSbi 9)) (smallSbi 9) 512 (cacheInit 9 formatted) ∧
      ∃ cs de k₂, SlotStays (.quiet (smallSbi 9)) 0 dot rootOnly cs de k₂ := by
  obtain ⟨hentries, hslots⟩ := entriesStay_and_slotStays
  have hm : Mounted (Env.quiet (smallSbi 9)).sbi := ⟨rfl, rfl, by decide, by decide⟩
  have hshape := shaped_cacheInit hm formatted
  have hl := hshape.linked
  have hn : (cacheInit 9 formatted).cacheEntries = 64 := hshape.entries.trans (by decide)
  refine ⟨hentries _ _ _ _ _ hl (by decide) (by omega), ?_⟩
  have hsome : (upToClear (.quiet (smallSbi 9)) rmdirTest 0 dot rootOnly).1.isSome = true := by
    decide +kernel
  have hthree : 3 ≤ rootOnly.dev.cacheEntries := hn.symm ▸ (by decide : 3 ≤ 64)
  rcases hclear : upToClear (.quiet (smallSbi 9)) rmdirTest 0 dot rootOnly with ⟨r, k₂⟩
  rw [hclear] at hsome
  obtain ⟨⟨obj, cs, de⟩, rfl⟩ := Option.isSome_iff_exists.mp hsome
  exact ⟨cs, de, k₂, ((hslots _ _ _ hm hl hthree 0 dot obj cs de k₂).1 hclear).2⟩

end Thunix.Fs
