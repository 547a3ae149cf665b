import Mathlib.Data.List.Induction
import Mathlib.Data.Set.Insert
import Mathlib.Logic.Function.Basic
import Mathlib.Logic.Relation

/-!
# Trees of names

Nodes are linked by names: a node binds a name to a node. The links are a tree when every node has
one name in one node, the root has none, and every node is reached from the root
(`Thunix.NameTree.Tree`). So there is exactly one path to each (`Thunix.NameTree.Tree.path`).

A new node is linked under a free name (`Thunix.NameTree.Tree.attach`), and one that binds nothing
is taken out (`Thunix.NameTree.Tree.detach`).
-/

namespace Thunix.NameTree

variable {ι α : Type*} {live : Set ι} {root c d d' n : ι} {links : ι → α → Option ι} {a : α}

/-- A node has another under some name. -/
def Child (links : ι → α → Option ι) (d c : ι) : Prop := ∃ a, links d a = some c

/-- **The links are a tree.** -/
structure Tree (live : Set ι) (root : ι) (links : ι → α → Option ι) : Prop where
  rooted : root ∈ live
  ends : ∀ d a c, links d a = some c → d ∈ live ∧ c ∈ live ∧ c ≠ root
  once : ∀ d a d' a' c, links d a = some c → links d' a' = some c → d = d' ∧ a = a'
  reach : ∀ c ∈ live, Relation.ReflTransGen (Child links) root c

/-- Follow some names. -/
def walk (links : ι → α → Option ι) : ι → List α → Option ι
  | d, [] => some d
  | d, a :: path => (links d a).bind (walk links · path)

theorem walk_concat (path : List α) (d : ι) :
    walk links d (path ++ [a]) = (walk links d path).bind (links · a) := by
  induction path generalizing d with
  | nil =>
    rw [List.nil_append, walk, walk, Option.bind_some]
    cases links d a <;> rfl
  | cons b path ih =>
    rw [List.cons_append, walk, walk]
    cases links d b with
    | none => rfl
    | some c => exact ih c

/-- The last step of a walk. -/
theorem walk_concat_eq_some (path : List α) :
    walk links d (path ++ [a]) = some c ↔ ∃ n, walk links d path = some n ∧ links n a = some c := by
  rw [walk_concat, Option.bind_eq_some_iff]

/-- **There is one path** to every node. -/
theorem Tree.path (h : Tree live root links) (hc : c ∈ live) :
    ∃! path, walk links root path = some c := by
  have hexists : ∃ path, walk links root path = some c := by
    have hreach := h.reach c hc
    clear hc
    induction hreach with
    | refl => exact ⟨[], rfl⟩
    | tail _ hstep ih =>
      obtain ⟨path, hpath⟩ := ih
      obtain ⟨a, ha⟩ := hstep
      exact ⟨path ++ [a], (walk_concat_eq_some path).mpr ⟨_, hpath, ha⟩⟩
  obtain ⟨path, hpath⟩ := hexists
  refine ⟨path, hpath, fun path' hpath' => ?_⟩
  clear hc
  -- the last names are the same, and so are the nodes before them
  have hroot : ∀ {path : List α} {a : α}, walk links root (path ++ [a]) ≠ some root := by
    intro path a hwalk
    obtain ⟨n, -, ha⟩ := (walk_concat_eq_some path).mp hwalk
    exact (h.ends n a root ha).2.2 rfl
  induction path using List.reverseRecOn generalizing c path' with
  | nil =>
    obtain rfl := Option.some.inj hpath
    rcases List.eq_nil_or_concat path' with rfl | ⟨p, a, rfl⟩
    · rfl
    · rw [List.concat_eq_append] at hpath'
      exact absurd hpath' hroot
  | append_singleton path a ih =>
    obtain ⟨n, hn, ha⟩ := (walk_concat_eq_some path).mp hpath
    rcases List.eq_nil_or_concat path' with rfl | ⟨p, a', rfl⟩
    · obtain rfl := Option.some.inj hpath'
      exact absurd hpath hroot
    · rw [List.concat_eq_append] at hpath' ⊢
      obtain ⟨n', hn', ha'⟩ := (walk_concat_eq_some p).mp hpath'
      obtain ⟨rfl, rfl⟩ := h.once n a n' a' c ha ha'
      rw [ih hn p hn']

/-- No node is below itself. -/
theorem Tree.ne_of_link (h : Tree live root links) (ha : links d a = some c) : c ≠ d := by
  rintro rfl
  obtain ⟨hc, -, -⟩ := h.ends c a c ha
  obtain ⟨path, hpath, huniq⟩ := h.path hc
  have hlong := huniq (path ++ [a]) ((walk_concat_eq_some path).mpr ⟨c, hpath, ha⟩)
  exact absurd hlong (by simp)

variable [DecidableEq ι] [DecidableEq α]

/-- A name of a node gets another meaning. -/
def link (links : ι → α → Option ι) (d : ι) (a : α) (o : Option ι) : ι → α → Option ι :=
  Function.update links d (Function.update (links d) a o)

theorem link_of_ne {o : Option ι} (h : n ≠ d) : link links d a o n = links n :=
  Function.update_of_ne h _ _

theorem link_self {o : Option ι} : link links d a o d = Function.update (links d) a o :=
  Function.update_self _ _ _

theorem link_some_iff {x : α} {m : ι} : link links d a (some c) n x = some m ↔
    (n = d ∧ x = a ∧ m = c) ∨ (¬(n = d ∧ x = a) ∧ links n x = some m) := by
  rw [link]
  rcases eq_or_ne n d with rfl | hn
  · rw [Function.update_self]
    rcases eq_or_ne x a with rfl | hx
    · rw [Function.update_self, Option.some_inj]
      simp [eq_comm]
    · rw [Function.update_of_ne hx]
      simp [hx]
  · rw [Function.update_of_ne hn]
    simp [hn]

theorem link_none_iff {x : α} {m : ι} : link links d a none n x = some m ↔
    ¬(n = d ∧ x = a) ∧ links n x = some m := by
  rw [link]
  rcases eq_or_ne n d with rfl | hn
  · rw [Function.update_self]
    rcases eq_or_ne x a with rfl | hx
    · rw [Function.update_self]
      simp
    · rw [Function.update_of_ne hx]
      simp [hx]
  · rw [Function.update_of_ne hn]
    simp [hn]

/-- **A new node** is linked under a name that is free. -/
theorem Tree.attach (h : Tree live root links) (hd : d ∈ live) (hc : c ∉ live)
    (ha : links d a = none) : Tree (insert c live) root (link links d a (some c)) where
  rooted := .inr h.rooted
  ends n x m hm := by
    rcases link_some_iff.mp hm with ⟨rfl, rfl, rfl⟩ | ⟨-, hm⟩
    · exact ⟨.inr hd, .inl rfl, fun heq => hc (heq ▸ h.rooted)⟩
    · obtain ⟨hn, hm, hne⟩ := h.ends n x m hm
      exact ⟨.inr hn, .inr hm, hne⟩
  once n x n' x' m hm hm' := by
    have hnew : ∀ {n x m}, links n x = some m → m ≠ c := fun h' heq =>
      hc (heq ▸ (h.ends _ _ _ h').2.1)
    rcases link_some_iff.mp hm with ⟨rfl, rfl, hmc⟩ | ⟨-, hold⟩ <;>
      rcases link_some_iff.mp hm' with ⟨rfl, rfl, hmc'⟩ | ⟨-, hold'⟩
    · exact ⟨rfl, rfl⟩
    · exact absurd hmc (hnew hold')
    · exact absurd hmc' (hnew hold)
    · exact h.once n x n' x' m hold hold'
  reach n hn := by
    have hkeep : ∀ n m, Child links n m → Child (link links d a (some c)) n m := by
      rintro n m ⟨x, hx⟩
      refine ⟨x, link_some_iff.mpr (.inr ⟨?_, hx⟩)⟩
      rintro ⟨rfl, rfl⟩
      rw [ha] at hx
      cases hx
    rcases hn with rfl | hn
    · exact (Relation.ReflTransGen.mono hkeep _ _ (h.reach d hd)).tail
        ⟨a, link_some_iff.mpr (.inl ⟨rfl, rfl, rfl⟩)⟩
    · exact Relation.ReflTransGen.mono hkeep _ _ (h.reach n hn)

/-- **A node that binds nothing** is taken out. -/
theorem Tree.detach (h : Tree live root links) (ha : links d a = some c)
    (hleaf : ∀ x, links c x = none) : Tree (live \ {c}) root (link links d a none) where
  rooted := ⟨h.rooted, (h.ends d a c ha).2.2.symm⟩
  ends n x m hm := by
    obtain ⟨hne, hm⟩ := link_none_iff.mp hm
    obtain ⟨hn, hml, hroot⟩ := h.ends n x m hm
    refine ⟨⟨hn, ?_⟩, ⟨hml, ?_⟩, hroot⟩
    · rintro rfl
      rw [hleaf] at hm
      cases hm
    · rintro rfl
      exact hne (h.once n x d a m hm ha)
  once n x n' x' m hm hm' :=
    h.once n x n' x' m (link_none_iff.mp hm).2 (link_none_iff.mp hm').2
  reach n hn := by
    obtain ⟨hn, hnc⟩ := hn
    have hreach := h.reach n hn
    clear hn
    induction hreach with
    | refl => exact .refl
    | @tail m n _ hstep ih =>
      obtain ⟨x, hx⟩ := hstep
      have hmc : m ≠ c := by
        rintro rfl
        rw [hleaf] at hx
        cases hx
      refine (ih hmc).tail ⟨x, link_none_iff.mpr ⟨?_, hx⟩⟩
      rintro ⟨rfl, rfl⟩
      rw [ha] at hx
      exact hnc (Option.some.inj hx).symm

end Thunix.NameTree
