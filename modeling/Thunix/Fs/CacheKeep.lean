import Mathlib.Data.Finset.Card
import Thunix.Fs.Volume
import Thunix.Fs.Inode

/-!
# Entries that are kept

A caller may hold an entry of the cache while more blocks are requested. The entry keeps
its block as long as the blocks requested since then are fewer than the other entries
(`Thunix.Fs.Kept.request`): then it is not the least recently used one.
-/

namespace Thunix.Fs

variable {e : Env} {d d' : Dev} {i b b' : ℕ} {B : Finset ℕ} {os : List ℕ}

/-- The entry `i` holds the block `b`, and the entries used since hold blocks of `B`. -/
def Kept (e : Env) (i b : ℕ) (B : Finset ℕ) (d : Dev) : Prop :=
  ∃ pre post, Shaped e (pre ++ i :: post) d ∧ d.label i = b ∧ ∀ j ∈ post, d.label j ∈ B

theorem Kept.congr (h : Kept e i b B d) (hc : d'.cache = d.cache)
    (hn : d'.cacheEntries = d.cacheEntries) : Kept e i b B d' := by
  obtain ⟨pre, post, hos, hlab, hpost⟩ := h
  refine ⟨pre, post, hos.congr hc hn, ?_, fun j hj => ?_⟩
  · rw [Dev.label, hc]
    exact hlab
  · rw [Dev.label, hc]
    exact hpost j hj

/-- The entries used since are not more than the blocks. -/
theorem length_le_card {pre post : List ℕ} (hos : Shaped e (pre ++ i :: post) d)
    (hpost : ∀ j ∈ post, d.label j ∈ B) (hB : emptyBlock ∉ B) : post.length ≤ B.card := by
  have hnodup : post.Nodup := (List.nodup_cons.mp (List.nodup_append.mp hos.ring.nodup).2.1).2
  have hmem : ∀ {j}, j ∈ post → j ∈ pre ++ i :: post := fun hj =>
    List.mem_append_right _ (List.mem_cons_of_mem _ hj)
  rw [← List.toFinset_card_of_nodup hnodup]
  refine Finset.card_le_card_of_injOn d.label (fun j hj => ?_) fun j hj k hk hjk => ?_
  · exact hpost j (List.mem_toFinset.mp hj)
  · have hj' := List.mem_toFinset.mp hj
    have hk' := List.mem_toFinset.mp hk
    refine hos.labels j (hmem hj') k (hmem hk') hjk fun h0 => hB ?_
    rw [← h0]
    exact hpost j hj'

/-- Where an entry is after another one, or itself, has been moved to the end. -/
theorem moved_to_end {pre post pre' post' : List ℕ} {i' : ℕ}
    (h : pre ++ i :: post = pre' ++ i' :: post') :
    ∃ pre'' post'', pre' ++ post' ++ [i'] = pre'' ++ i :: post'' ∧
      ∀ j ∈ post'', j ∈ post ∨ j = i' := by
  rcases List.append_eq_append_iff.mp h with ⟨l, rfl, hl⟩ | ⟨l, rfl, hl⟩
  · rcases l with _ | ⟨x, l⟩
    · obtain ⟨rfl, rfl⟩ := List.cons.inj hl
      exact ⟨pre ++ [] ++ post, [], rfl, fun j hj => absurd hj List.not_mem_nil⟩
    · rw [List.cons_append] at hl
      obtain ⟨rfl, hrest⟩ := List.cons.inj hl
      refine ⟨pre, l ++ post' ++ [i'], by simp, fun j hj => ?_⟩
      have hpost : j ∈ post ↔ j ∈ l ∨ j = i' ∨ j ∈ post' := by
        rw [hrest]
        simp
      simp only [List.mem_append, List.mem_singleton] at hj
      rcases hj with (hj | hj) | hj
      · exact .inl (hpost.mpr (.inl hj))
      · exact .inl (hpost.mpr (.inr (.inr hj)))
      · exact .inr hj
  · rcases l with _ | ⟨x, l⟩
    · obtain ⟨rfl, rfl⟩ := List.cons.inj hl
      exact ⟨pre' ++ post', [], rfl, fun j hj => absurd hj List.not_mem_nil⟩
    · obtain ⟨rfl, rfl⟩ := List.cons.inj hl
      refine ⟨pre' ++ l, post ++ [i'], by simp, fun j hj => ?_⟩
      simp only [List.mem_append, List.mem_singleton] at hj
      exact hj

/-- **A request leaves an entry alone** while the blocks requested are fewer than the other
entries. -/
theorem Kept.request (h : Kept e i b B d) (hm : Mounted e.sbi) (sb : TfsSbInfo)
    (hempty : emptyBlock ∉ insert b' B)
    (hcard : (insert b' B).card < numEntries e.sbi.sBlockShift) :
    Kept e i b (insert b' B) (getCacheBlock e sb b' d).2 := by
  obtain ⟨pre, post, hos, hlab, hpost⟩ := h
  have hreq := hos.request hm sb b'
  generalize getCacheBlock e sb b' d = r at hreq ⊢
  obtain ⟨r, d'⟩ := r
  change Request e sb b' _ d r d' at hreq
  cases hreq with
  | @hit pre' post' i' _ hos' label shape rel =>
    obtain ⟨pre'', post'', heq, hmem⟩ := moved_to_end hos'
    rw [heq] at shape
    refine ⟨pre'', post'', shape, (rel.block _).trans hlab, fun j hj => ?_⟩
    have hj' : d'.label j = d.label j := rel.block _
    rw [hj']
    rcases hmem j hj with h | rfl
    · exact Finset.mem_insert_of_mem (hpost j h)
    · rw [label]
      exact Finset.mem_insert_self _ _
  | @miss post' i' _ hos' absent _ shape rel =>
    -- the blocks requested before are others, so that there is an entry before this one
    have hB : ∀ j ∈ post, d.label j ∈ (insert b' B).erase b' := fun j hj =>
      Finset.mem_erase.mpr ⟨absent j (List.mem_append_right _ (List.mem_cons_of_mem _ hj)),
        Finset.mem_insert_of_mem (hpost j hj)⟩
    have hlen := length_le_card hos hB fun h => hempty (Finset.mem_of_mem_erase h)
    rw [Finset.card_erase_of_mem (Finset.mem_insert_self _ _)] at hlen
    have htotal := hos.ring.length
    rw [hos.entries, List.length_append, List.length_cons] at htotal
    rcases pre with _ | ⟨x, pre⟩
    · rw [List.length_nil] at htotal
      have := Finset.card_pos.mpr ⟨b', Finset.mem_insert_self b' B⟩
      omega
    · obtain ⟨rfl, rfl⟩ := List.cons.inj hos'
      have hnot := (List.nodup_cons.mp hos.ring.nodup).1
      have hne : ∀ {j}, j ∈ pre ++ i :: post → j ≠ x := fun hj h => hnot (h ▸ hj)
      have hother : ∀ j, d'.label j = if j = x then b' else d.label j := fun j => by
        have hj : d'.label j = ((loadInto e sb b' x d).setBlock (.entry x) b').label j :=
          rel.block _
        rw [hj, label_setBlock, Dev.label, (loadInto_cache e sb b' x d).1]
        rfl
      refine ⟨pre, post ++ [x], by simpa using shape, ?_, fun j hj => ?_⟩
      · rw [hother, if_neg (hne (List.mem_append_right _ List.mem_cons_self))]
        exact hlab
      · rw [hother]
        rcases List.mem_append.mp hj with hj | hj
        · rw [if_neg (hne (List.mem_append_right _ (List.mem_cons_of_mem _ hj)))]
          exact Finset.mem_insert_of_mem (hpost j hj)
        · rw [List.mem_singleton.mp hj, if_pos rfl]
          exact Finset.mem_insert_self _ _
  | @fail post' i' _ _ _ shape =>
    obtain ⟨hc, hn⟩ := loadInto_cache e sb b' i' d
    have hkept : Kept e i b (insert b' B) d :=
      ⟨pre, post, hos, hlab, fun j hj => Finset.mem_insert_of_mem (hpost j hj)⟩
    exact hkept.congr hc hn

/-- An entry that has just been requested. -/
theorem Shaped.request_kept (h : Shaped e os d) (hm : Mounted e.sbi)
    (sb : TfsSbInfo) {cs : CacheRef} (hget : (getCacheBlock e sb b d).1 = some cs) :
    ∃ i, cs = .entry i ∧ Kept e i b ∅ (getCacheBlock e sb b d).2 := by
  have hreq := h.request hm sb b
  generalize getCacheBlock e sb b d = r at hreq hget ⊢
  obtain ⟨r, d'⟩ := r
  change Request e sb b _ d r d' at hreq
  change r = some cs at hget
  cases hreq with
  | @hit pre post i _ _ label shape rel =>
    obtain rfl := Option.some.inj hget
    exact ⟨i, rfl, _, [], shape, (rel.block _).trans label, fun j hj => absurd hj List.not_mem_nil⟩
  | @miss post i _ _ _ _ shape rel =>
    obtain rfl := Option.some.inj hget
    refine ⟨i, rfl, post, [], shape, (rel.block _).trans ?_, fun j hj => absurd hj List.not_mem_nil⟩
    exact (label_setBlock _ i b i).trans (if_pos rfl)
  | fail => cases hget

end Thunix.Fs
