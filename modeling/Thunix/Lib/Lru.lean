import Mathlib.Data.List.Basic
import Mathlib.Data.List.Nodup

/-!
# A least-recently-used list

The reference cache: a list of at most `n` keys without repetitions, the least
recently used first. `Thunix.Lru.request` moves a key that is present to the end;
one that is absent is put there, at the cost of the first key when the list is full.

An implementation in slots keeps a key in every slot, and a marker in those not
yet used. `Thunix.Lru.padded` is what it shows, slots in order of use, and
`Thunix.Lru.padded_hit` and `Thunix.Lru.padded_miss` say that the request is, on
the slots, always the same movement: take one slot out, put the key at the end.
-/

namespace Thunix.Lru

variable {β : Type*} [DecidableEq β]

/-- One request to a list of capacity `n`. -/
def request (n : ℕ) (l : List β) (b : β) : List β :=
  if b ∈ l then l.erase b ++ [b] else if l.length < n then l ++ [b] else l.tail ++ [b]

/-- The list is one of a cache with `n` slots. -/
structure Fits (n : ℕ) (l : List β) : Prop where
  /-- No key is there twice. -/
  nodup : l.Nodup
  /-- There is a slot for every key. -/
  length_le : l.length ≤ n

variable {n : ℕ} {l : List β} {b e : β}

omit [DecidableEq β] in
theorem fits_nil : Fits n ([] : List β) := ⟨List.nodup_nil, Nat.zero_le n⟩

theorem mem_request {x : β} (hx : x ∈ request n l b) : x ∈ l ∨ x = b := by
  unfold request at hx
  split at hx
  · rcases List.mem_append.mp hx with hx | hx
    · exact .inl (List.mem_of_mem_erase hx)
    · exact .inr (List.mem_singleton.mp hx)
  · split at hx <;> rcases List.mem_append.mp hx with hx | hx
    · exact .inl hx
    · exact .inr (List.mem_singleton.mp hx)
    · exact .inl (List.mem_of_mem_tail hx)
    · exact .inr (List.mem_singleton.mp hx)

/-- **A request keeps a list that fits.** -/
theorem Fits.request (h : Fits n l) (hn : 0 < n) (b : β) : Fits n (request n l b) := by
  have hlen := h.length_le
  unfold Lru.request
  split
  next hb =>
    refine ⟨?_, ?_⟩
    · rw [List.nodup_append']
      refine ⟨h.nodup.erase b, List.nodup_singleton b, ?_⟩
      rw [List.disjoint_singleton]
      exact h.nodup.not_mem_erase
    · have := List.length_pos_of_mem hb
      rw [List.length_append, List.length_erase_of_mem hb, List.length_singleton]
      omega
  next hb =>
    split
    next hlt =>
      refine ⟨?_, by rw [List.length_append, List.length_singleton]; omega⟩
      rw [List.nodup_append']
      exact ⟨h.nodup, List.nodup_singleton b, by rwa [List.disjoint_singleton]⟩
    next hlt =>
      refine ⟨?_, ?_⟩
      · rw [List.nodup_append']
        refine ⟨h.nodup.sublist (List.tail_sublist l), List.nodup_singleton b, ?_⟩
        rw [List.disjoint_singleton]
        exact fun hm => hb (List.mem_of_mem_tail hm)
      · rw [List.length_append, List.length_tail, List.length_singleton]
        omega

/-! ### Slots -/

/-- The keys in the slots, unused slots first. -/
def padded (n : ℕ) (e : β) (l : List β) : List β := List.replicate (n - l.length) e ++ l

omit [DecidableEq β] in
theorem mem_padded {x : β} (hx : x ≠ e) : x ∈ padded n e l ↔ x ∈ l := by
  rw [padded, List.mem_append, List.mem_replicate]
  exact ⟨fun h => h.resolve_left fun h => hx h.2, .inr⟩

omit [DecidableEq β] in
/-- The first slot holds the first key when all are used, and the marker otherwise. -/
theorem padded_head [Inhabited β] {x : β} {xs : List β} (h : Fits n l)
    (hp : padded n e l = x :: xs) : x = if l.length = n then l.headI else e := by
  have hlen := h.length_le
  unfold padded at hp
  split
  next hn =>
    rw [hn, Nat.sub_self, List.replicate_zero, List.nil_append] at hp
    rw [hp]
    rfl
  next hn =>
    obtain ⟨k, hk⟩ := Nat.exists_eq_succ_of_ne_zero
      (Nat.sub_ne_zero_of_lt (Nat.lt_of_le_of_ne hlen hn))
    rw [hk, List.replicate_succ, List.cons_append] at hp
    exact (List.cons.inj hp).1.symm

/-- **A hit on the slots.** -/
theorem padded_hit (hb : b ∈ l) (he : b ≠ e) :
    padded n e (request n l b) = (padded n e l).erase b ++ [b] := by
  have hpos := List.length_pos_of_mem hb
  have hne : b ∉ List.replicate (n - l.length) e := fun hm => he (List.eq_of_mem_replicate hm)
  rw [request, if_pos hb, padded, padded, List.erase_append_right _ hne, List.append_assoc,
    List.length_append, List.length_erase_of_mem hb, List.length_singleton]
  congr 3
  omega

/-- **A miss on the slots**: the first one is used, full or not. -/
theorem padded_miss (hb : b ∉ l) (hn : 0 < n) (h : Fits n l) :
    padded n e (request n l b) = (padded n e l).tail ++ [b] := by
  have hlen := h.length_le
  rw [request, if_neg hb]
  split
  next hlt =>
    have hk : n - l.length = n - (l ++ [b]).length + 1 := by
      rw [List.length_append, List.length_singleton]
      omega
    rw [padded, padded, hk, List.replicate_succ, List.cons_append, List.tail_cons,
      List.append_assoc]
  next hlt =>
    have hk : n - (l.tail ++ [b]).length = 0 := by
      rw [List.length_append, List.length_tail, List.length_singleton]
      omega
    rw [padded, padded, hk, Nat.sub_eq_zero_of_le (by omega)]
    simp

end Thunix.Lru
