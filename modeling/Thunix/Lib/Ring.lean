import Mathlib.Data.List.Basic
import Mathlib.Data.List.Nodup
import Mathlib.Data.List.Chain
import Mathlib.Logic.Function.Basic

/-!
# Circular doubly linked lists

A circular list with a sentinel is a pair of pointer maps. `Thunix.Circular.IsRing L h l`
says that from the sentinel `h` the `next` pointers visit the nodes of `l` in order
and come back to `h`, and that the `prev` pointers are their inverse on the way.

Three results are used of it. Taking a node out of the ring and putting it back
just before the sentinel are, each, two and four assignments to fields, and
`Thunix.Circular.IsRing.unlink` and `Thunix.Circular.IsRing.link` say what they do to the
list visited; together they are `Thunix.Circular.IsRing.moveToEnd`. And a scan along
the `prev` pointers from the sentinel is a search of the list from its end
(`Thunix.Circular.IsRing.scanBack_eq`).
-/

namespace Thunix.Circular

variable {ν : Type*}

/-- The pointers of a doubly linked structure. -/
@[ext]
structure Links (ν : Type*) where
  /-- The node after. -/
  next : ν → ν
  /-- The node before. -/
  prev : ν → ν

/-- `b` comes directly after `a`, in both directions. -/
def Links.Adj (L : Links ν) (a b : ν) : Prop := L.next a = b ∧ L.prev b = a

/-- The ring through `h` visits the nodes of `l`. -/
structure IsRing (L : Links ν) (h : ν) (l : List ν) : Prop where
  /-- No node is visited twice, the sentinel included. -/
  nodup : (h :: l).Nodup
  /-- Each node visited is adjacent to the one visited next. -/
  chain : List.IsChain L.Adj (h :: l ++ [h])

variable {L : Links ν} {h c : ν} {l pre post : List ν}

/-! ### Neighbours -/

/-- The node before the first of a list, the sentinel or the last of the list. -/
def lastOr (h : ν) (l : List ν) : ν := (h :: l).getLast (List.cons_ne_nil _ _)

@[simp] theorem lastOr_nil : lastOr h [] = h := rfl

@[simp] theorem lastOr_concat : lastOr h (l ++ [c]) = c := by simp [lastOr]

theorem lastOr_mem : lastOr h l ∈ h :: l := List.getLast_mem _

/-- The list with the sentinel, split at its last node. -/
theorem dropLast_lastOr : (h :: l).dropLast ++ [lastOr h l] = h :: l :=
  List.dropLast_append_getLast _

theorem adj_lastOr {x : ν} {tl : List ν} (hc : List.IsChain L.Adj (h :: l ++ x :: tl)) :
    L.Adj (lastOr h l) x := by
  rw [← dropLast_lastOr, List.append_assoc] at hc
  exact (List.isChain_append.mp hc).2.1.rel

/-- **The sentinel's back pointer is the end of the list.** -/
theorem IsRing.prev_head (hr : IsRing L h l) : L.prev h = lastOr h l :=
  (adj_lastOr hr.chain).2

/-- The sentinel's forward pointer is the start of the list. -/
theorem IsRing.next_head (hr : IsRing L h (c :: l)) : L.next h = c :=
  hr.chain.rel.1

/-- The way round, split at a node. -/
theorem IsRing.split (hr : IsRing L h (pre ++ c :: post)) :
    List.IsChain L.Adj (h :: pre) ∧ List.IsChain L.Adj (c :: (post ++ [h])) ∧
      L.Adj (lastOr h pre) c := by
  have hc : List.IsChain L.Adj ((h :: pre) ++ c :: (post ++ [h])) := by
    simpa using hr.chain
  exact ⟨(List.isChain_append.mp hc).1, (List.isChain_append.mp hc).2.1, adj_lastOr hc⟩

/-- The neighbours of a node inside the ring. -/
theorem IsRing.adj_mid (hr : IsRing L h (pre ++ c :: post)) :
    L.Adj (lastOr h pre) c ∧ L.Adj c ((post ++ [h]).head (by simp)) := by
  obtain ⟨-, hc, ha⟩ := hr.split
  obtain ⟨b, tl, hb⟩ := List.exists_cons_of_ne_nil (List.concat_ne_nil h post)
  simp only [hb, List.head_cons] at hc ⊢
  exact ⟨ha, hc.rel⟩

/-! ### Scanning from the end -/

/-- Follow `prev` from a node, for at most `n` nodes, to one with the property. -/
def scanBack (prev : ν → ν) (p : ν → Bool) : ℕ → ν → Option ν
  | 0, _ => none
  | n + 1, x => if p x then some x else scanBack prev p n (prev x)

/-- **The scan searches the list from its end.** -/
theorem IsRing.scanBack_eq (hr : IsRing L h l) (p : ν → Bool) :
    scanBack L.prev p l.length (L.prev h) = l.reverse.find? p := by
  have key : ∀ l : List ν, List.IsChain L.Adj (h :: l) →
      scanBack L.prev p l.length (lastOr h l) = l.reverse.find? p := by
    intro l
    induction l using List.reverseRecOn with
    | nil => intro _; rfl
    | append_singleton l x ih =>
      intro hc
      have hadj : L.Adj (lastOr h l) x := @adj_lastOr _ _ _ _ _ [] hc
      rw [← List.cons_append] at hc
      rw [List.length_append, List.length_singleton, scanBack, lastOr_concat, hadj.2,
        ih (List.isChain_append.mp hc).1, List.reverse_concat, List.find?_cons]
      cases p x <;> rfl
  rw [hr.prev_head]
  exact key l (List.isChain_append.mp hr.chain).1

/-! ### Assignments -/

variable [DecidableEq ν]

/-- `a->next = b`. -/
def Links.setNext (L : Links ν) (a b : ν) : Links ν :=
  { L with next := Function.update L.next a b }

/-- `a->prev = b`. -/
def Links.setPrev (L : Links ν) (a b : ν) : Links ν :=
  { L with prev := Function.update L.prev a b }

/-- `c->prev->next = c->next; c->next->prev = c->prev`. -/
def Links.unlink (L : Links ν) (c : ν) : Links ν :=
  let L := L.setNext (L.prev c) (L.next c)
  L.setPrev (L.next c) (L.prev c)

/-- `last->next = c; c->prev = last; h->prev = c; c->next = h`. -/
def Links.link (L : Links ν) (h last c : ν) : Links ν :=
  (((L.setNext last c).setPrev c last).setPrev h c).setNext c h

/-! ### Taking a node out -/

/-- Out of a ring of other nodes, only the two neighbours change. -/
theorem IsRing.unlink_adj (hr : IsRing L h (pre ++ c :: post)) {x y : ν} (hx : x ≠ c)
    (hy : y ≠ c) (hxy : L.Adj x y) : (L.unlink c).Adj x y := by
  obtain ⟨ha, hb⟩ := hr.adj_mid
  refine ⟨?_, ?_⟩
  · rw [Links.unlink, Links.setPrev, Links.setNext]
    refine (Function.update_of_ne (fun he => hy ?_) _ _).trans hxy.1
    rw [← hxy.1, he, ha.2, ha.1]
  · have hnext : (L.setNext (L.prev c) (L.next c)).next c = L.next c := by
      by_cases hself : c = L.prev c
      · exact (congrArg _ hself).trans (Function.update_self _ _ _)
      · exact Function.update_of_ne hself _ _
    rw [Links.unlink, Links.setPrev]
    refine (Function.update_of_ne (fun he => hx ?_) _ _).trans hxy.2
    rw [← hxy.2, he, hnext, hb.1, hb.2]

/-- **Unlinking**: the two assignments take the node out of the list visited. -/
theorem IsRing.unlink (hr : IsRing L h (pre ++ c :: post)) :
    IsRing (L.unlink c) h (pre ++ post) := by
  obtain ⟨ha, hb⟩ := hr.adj_mid
  have hnd : (h :: pre).Nodup ∧ (c :: (post)).Nodup ∧ List.Disjoint (h :: pre) (c :: post) :=
    List.nodup_append'.mp hr.nodup
  have hcpre : c ∉ h :: pre := fun hm => hnd.2.2 hm List.mem_cons_self
  have hch : h ≠ c := fun he => hcpre (he ▸ List.mem_cons_self)
  have hcpost : c ∉ post ++ [h] := by
    rw [List.mem_append, List.mem_singleton]
    rintro (hm | he)
    · exact (List.nodup_cons.mp hnd.2.1).1 hm
    · exact hch he.symm
  obtain ⟨hc1, hc2, -⟩ := hr.split
  refine ⟨?_, ?_⟩
  · exact hr.nodup.sublist ((List.Sublist.append_left (List.sublist_cons_self _ _) _).cons_cons _)
  · rw [← List.cons_append, List.append_assoc, List.isChain_append]
    refine ⟨?_, ?_, ?_⟩
    · refine hc1.imp_of_mem_imp fun x y hx hy hxy => hr.unlink_adj ?_ ?_ hxy
      · exact fun he => hcpre (he ▸ hx)
      · exact fun he => hcpre (he ▸ hy)
    · refine hc2.tail.imp_of_mem_imp fun x y hx hy hxy => hr.unlink_adj ?_ ?_ hxy
      · exact fun he => hcpost (he ▸ hx)
      · exact fun he => hcpost (he ▸ hy)
    · -- the two sides meet at the neighbours of the node that is gone
      intro x hx y hy
      obtain rfl : lastOr h pre = x := by
        rw [List.getLast?_eq_some_getLast (List.cons_ne_nil _ _)] at hx
        exact Option.some.inj hx
      obtain rfl : (post ++ [h]).head (by simp) = y := by
        rw [List.head?_eq_some_head (by simp)] at hy
        exact Option.some.inj hy
      have hne : c ≠ lastOr h pre := fun he => hcpre (he ▸ lastOr_mem)
      have hnext : (L.setNext (L.prev c) (L.next c)).next c = L.next c := by
        rw [ha.2]
        exact Function.update_of_ne hne _ _
      refine ⟨?_, ?_⟩
      · rw [Links.unlink, Links.setPrev, Links.setNext, ha.2, hb.1]
        exact Function.update_self _ _ _
      · rw [Links.unlink, Links.setPrev, hnext, hb.1]
        exact (Function.update_self _ _ _).trans ha.2

/-! ### Putting a node in before the sentinel -/

/-- **Linking**: the four assignments put a new node at the end of the list visited. -/
theorem IsRing.link (hr : IsRing L h l) (hc : c ∉ h :: l) :
    IsRing (L.link h (lastOr h l) c) h (l ++ [c]) := by
  have hch : c ≠ h := fun he => hc (he ▸ List.mem_cons_self)
  have hcl : c ≠ lastOr h l := fun he => hc (he ▸ lastOr_mem)
  have hlast := adj_lastOr hr.chain
  refine ⟨?_, ?_⟩
  · rw [← List.cons_append, List.nodup_append']
    exact ⟨hr.nodup, List.nodup_singleton c, by simpa using hc⟩
  have hold : List.IsChain (L.link h (lastOr h l) c).Adj (h :: l) := by
    refine (List.isChain_append.mp hr.chain).1.imp_of_mem_tail_imp fun x y hx hy hxy => ?_
    have hyh : y ≠ h := fun he => (List.nodup_cons.mp hr.nodup).1 (he ▸ hy)
    have hxl : x ≠ lastOr h l := fun he => hyh (hxy.1 ▸ he ▸ hlast.1)
    have hxc : x ≠ c := fun he => hc (he ▸ hx)
    have hyc : y ≠ c := fun he => hc (he ▸ List.mem_cons_of_mem _ hy)
    refine ⟨?_, ?_⟩
    · simp [Links.link, Links.setNext, Links.setPrev, hxl, hxc, hxy.1]
    · simp [Links.link, Links.setNext, Links.setPrev, hyh, hyc, hxy.2]
  have hin : (L.link h (lastOr h l) c).Adj (lastOr h l) c := by
    refine ⟨?_, ?_⟩
    · simp [Links.link, Links.setNext, Links.setPrev, hcl.symm]
    · simp [Links.link, Links.setNext, Links.setPrev, hch]
  have hout : (L.link h (lastOr h l) c).Adj c h := by
    refine ⟨?_, ?_⟩ <;> simp [Links.link, Links.setNext, Links.setPrev]
  rw [← List.cons_append, List.append_assoc, List.isChain_append]
  refine ⟨hold, List.isChain_pair.mpr hout, fun x hx y hy => ?_⟩
  rw [List.getLast?_eq_some_getLast (List.cons_ne_nil _ _)] at hx
  obtain rfl := Option.some.inj hx
  obtain rfl := Option.some.inj hy
  exact hin

/-- **Moving a node to the end.** When the node is not the last one already, the
pointer to the last node may be read before the node is taken out. -/
theorem IsRing.moveToEnd (hr : IsRing L h (pre ++ c :: post)) (hne : post ≠ []) :
    IsRing ((L.unlink c).link h (L.prev h) c) h (pre ++ post ++ [c]) := by
  have hnd := List.nodup_cons.mp hr.nodup
  have hmem : c ∉ h :: (pre ++ post) := by
    rw [List.mem_cons]
    rintro (he | hm)
    · exact hnd.1 (he ▸ by simp)
    · have := (List.perm_middle.nodup_iff.mp hnd.2)
      exact (List.nodup_cons.mp this).1 hm
  have hlast : L.prev h = lastOr h (pre ++ post) := by
    rw [hr.prev_head]
    obtain ⟨post', x, rfl⟩ := List.eq_nil_or_concat post |>.resolve_left hne
    rw [List.concat_eq_append, ← List.cons_append, ← List.append_assoc, lastOr_concat,
      ← List.append_assoc, lastOr_concat]
  rw [hlast]
  exact hr.unlink.link hmem

end Thunix.Circular
