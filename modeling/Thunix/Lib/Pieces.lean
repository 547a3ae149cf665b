import Mathlib.Order.Lattice.Nat

/-!
# Arrays written piece by piece

An array is a function of the index and a length. A piece is a run of values with a place
(`Thunix.Piece`); it covers what was there (`Thunix.Piece.over`) and may reach beyond the
end. What an array holds after some pieces is decided by the last piece that covers an
index (`Thunix.overlay_last`), and its length is the greatest of the ends
(`Thunix.reach_eq`).
-/

namespace Thunix

variable {β : Type*}

/-- A run of values and its place. -/
structure Piece (β : Type*) where
  start : ℕ
  len : ℕ
  data : ℕ → β

/-- The index behind the last value. -/
def Piece.stop (p : Piece β) : ℕ := p.start + p.len

/-- The index is one of the piece. -/
def Piece.Covers (p : Piece β) (x : ℕ) : Prop := p.start ≤ x ∧ x < p.stop

instance (p : Piece β) (x : ℕ) : Decidable (p.Covers x) := inferInstanceAs (Decidable (_ ∧ _))

/-- A piece is put over an array. -/
def Piece.over (p : Piece β) (f : ℕ → β) : ℕ → β := fun x =>
  if p.Covers x then p.data (x - p.start) else f x

/-- Pieces are put over an array one after another. -/
def overlay (f : ℕ → β) (ps : List (Piece β)) : ℕ → β := ps.foldl (fun f p => p.over f) f

/-- The length of the array after them. -/
def reach (n : ℕ) (ps : List (Piece β)) : ℕ := ps.foldl (fun n p => max n p.stop) n

variable {f : ℕ → β} {ps : List (Piece β)} {p : Piece β} {n x : ℕ}

theorem overlay_append (f : ℕ → β) (ps qs : List (Piece β)) :
    overlay f (ps ++ qs) = overlay (overlay f ps) qs := List.foldl_append

theorem reach_append (n : ℕ) (ps qs : List (Piece β)) :
    reach n (ps ++ qs) = reach (reach n ps) qs := List.foldl_append

/-- **No piece covers the index**: it has kept its value. -/
theorem overlay_of_not_covered (h : ∀ p ∈ ps, ¬p.Covers x) : overlay f ps x = f x := by
  induction ps generalizing f with
  | nil => rfl
  | cons p ps ih =>
    refine (ih fun q hq => h q (List.mem_cons_of_mem p hq)).trans ?_
    exact if_neg (h p List.mem_cons_self)

/-- **The last piece that covers an index** decides. -/
theorem overlay_last {pre post : List (Piece β)} (hps : ps = pre ++ p :: post) (hp : p.Covers x)
    (hpost : ∀ q ∈ post, ¬q.Covers x) : overlay f ps x = p.data (x - p.start) := by
  rw [hps, overlay_append]
  exact (overlay_of_not_covered hpost).trans (if_pos hp)

/-- **The length is the greatest of the ends**, and of the length there was. -/
theorem reach_eq (n : ℕ) (ps : List (Piece β)) :
    n ≤ reach n ps ∧ (∀ p ∈ ps, p.stop ≤ reach n ps) ∧
      (reach n ps = n ∨ ∃ p ∈ ps, reach n ps = p.stop) := by
  induction ps generalizing n with
  | nil => exact ⟨le_refl n, fun p hp => absurd hp List.not_mem_nil, .inl rfl⟩
  | cons p ps ih =>
    obtain ⟨hle, hall, hsome⟩ := ih (max n p.stop)
    refine ⟨(le_max_left _ _).trans hle, fun q hq => ?_, ?_⟩
    · rcases List.mem_cons.mp hq with rfl | hq
      · exact (le_max_right _ _).trans hle
      · exact hall q hq
    · rcases hsome with h | ⟨q, hq, h⟩
      · rcases max_choice n p.stop with hmax | hmax
        · exact .inl (h.trans hmax)
        · exact .inr ⟨p, List.mem_cons_self, h.trans hmax⟩
      · exact .inr ⟨q, List.mem_cons_of_mem p hq, h⟩

end Thunix
