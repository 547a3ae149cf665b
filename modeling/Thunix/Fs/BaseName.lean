import Thunix.Fs.Namei
import Thunix.Lib.Logged

/-!
# The base name, byte by byte

`get_base_name` over the memory around its copy of the path, with each byte it reads or writes
logged. Addresses count from the pointer that `strdup` has returned.

What it returns is what `Thunix.Fs.getBaseName` says of the two strings
(`Thunix.Fs.runs_getBaseNameL`). The last component, at which `namei` stops with
`LOOKUP_PARENT`, is found without a step outside the copy exactly when there is memory for the
copy, the path has a slash and does not end in one (`Thunix.Fs.splittersAgree_iff`): the loops
that scan back test the byte before they test the pointer, and the component in front of a
final slash is cleared before it is returned.
-/

namespace Thunix.Fs

open Logged

/-! ### The source -/

/-- Programs on the memory around the copy that log the bytes they touch. -/
abbrev StrM (α : Type) := Prog (ℤ → UInt8) ℤ α

/-- `*p`. -/
def readByte (p : ℤ) : StrM UInt8 := visit p fun m => (m p, m)

/-- `*p = c`. -/
def writeByte (p : ℤ) (c : UInt8) : StrM Unit := visit p fun m => ((), Function.update m p c)

/-- `strlen` from `sc` on, in memory that has so many bytes more. -/
def strlen : ℕ → ℕ → StrM ℕ
  | 0, sc => pure sc
  | room + 1, sc => do
    if (← readByte sc) ≠ 0 then strlen room (sc + 1) else pure sc

/-- The loop of `strrchr`, with `end` one below the number. In front of the string it reads a
byte and stops, whatever the byte is. -/
def strrchrLoop (c : UInt8) : ℕ → StrM ℤ
  | 0 => do
    let _ ← readByte (-1)
    pure (-1)
  | n + 1 => do
    if (← readByte n) ≠ c then strrchrLoop c n else pure n

/-- `strrchr`: `none` for `NULL`. -/
def strrchr (room : ℕ) (c : UInt8) : StrM (Option ℤ) := do
  let len ← strlen room 0
  let e ← strrchrLoop c len
  pure (if e < 0 then none else some e)

/-- `while (*p != '/' && p >= path)`, with `p` one below the number. -/
def clearLoop : ℕ → StrM ℤ
  | 0 => do
    let _ ← readByte (-1)
    pure (-1)
  | n + 1 => do
    if (← readByte n) ≠ slash then do
      writeByte n 0
      clearLoop n
    else pure n

/-- What `get_base_name` returns. -/
inductive BaseName
  /-- `path_org`. -/
  | org
  | null
  /-- A pointer into the copy. -/
  | ptr (p : ℤ)

/-- `get_base_name`, after `strdup`. -/
def getBaseNameL (room : ℕ) : StrM BaseName := do
  match ← strrchr room slash with
  | none => pure .org
  | some p => do
    if (← readByte (p + 1)) = 0 then do
      writeByte p 0
      let p ← clearLoop p.toNat
      pure (if p < 0 then .null else .ptr (p + 1))
    else pure (.ptr (p + 1))

/-- A string in a memory that is something else around it. -/
def memoryOf (str : List UInt8) (around : ℤ → UInt8) (p : ℤ) : UInt8 :=
  if 0 ≤ p ∧ p ≤ str.length then str.getD p.toNat 0 else around p

/-- The string at an address, in memory that has so many bytes more. -/
def stringAt (m : ℤ → UInt8) : ℕ → ℤ → List UInt8
  | 0, _ => []
  | room + 1, p => if m p = 0 then [] else m p :: stringAt m room (p + 1)

/-- The string that is returned. -/
def BaseName.string (pathOrg : List UInt8) (room : ℕ) (m : ℤ → UInt8) :
    BaseName → Option (List UInt8)
  | .org => some pathOrg
  | .null => none
  | .ptr p => some (stringAt m room p)

/-! ### The last slash -/

section Strings

variable {str pre t path : List UInt8} {around : ℤ → UInt8}

theorem behindSlash_eq_none : behindSlash str = none ↔ slash ∉ str := by
  induction str with
  | nil => exact iff_of_true rfl List.not_mem_nil
  | cons c str ih =>
    rw [behindSlash_cons, Option.or_eq_none_iff, ih, List.mem_cons, not_or]
    by_cases hc : c = slash
    · simp [hc]
    · simp [hc, Ne.symm hc]

/-- What stands behind the last slash. -/
theorem behindSlash_eq_some :
    behindSlash str = some t ↔ ∃ pre, str = pre ++ slash :: t ∧ slash ∉ t := by
  induction str with
  | nil =>
    refine iff_of_false (fun h => by cases h) ?_
    rintro ⟨pre, h, -⟩
    exact absurd h (by simp)
  | cons c str ih =>
    rw [behindSlash_cons, Option.or_eq_some_iff, ih, behindSlash_eq_none]
    constructor
    · rintro (⟨pre, rfl, ht⟩ | ⟨hno, h⟩)
      · exact ⟨c :: pre, rfl, ht⟩
      · by_cases hc : c = slash
        · rw [if_pos hc] at h
          obtain rfl := Option.some.inj h
          exact ⟨[], by rw [hc]; rfl, hno⟩
        · rw [if_neg hc] at h
          cases h
    · rintro ⟨pre, h, ht⟩
      rcases pre with _ | ⟨c', pre⟩
      · obtain ⟨rfl, rfl⟩ := List.cons.inj h
        exact .inr ⟨ht, if_pos rfl⟩
      · obtain ⟨rfl, rfl⟩ := List.cons.inj h
        exact .inl ⟨pre, rfl, ht⟩

/-! ### Bytes -/

theorem memoryOf_nat {i : ℕ} (hi : i ≤ str.length) : memoryOf str around i = str.getD i 0 := by
  rw [memoryOf, if_pos ⟨Int.natCast_nonneg i, Int.ofNat_le.mpr hi⟩, Int.toNat_natCast]

/-- The memory holds a string from an address on. -/
def HoldsAt (m : ℤ → UInt8) (p : ℤ) (str : List UInt8) : Prop :=
  ∀ i ≤ str.length, m (p + i) = str.getD i 0

theorem holdsAt_memoryOf (str : List UInt8) (around : ℤ → UInt8) :
    HoldsAt (memoryOf str around) 0 str := fun i hi => by
  rw [Int.zero_add]
  exact memoryOf_nat hi

theorem HoldsAt.append {m : ℤ → UInt8} {p : ℤ} (h : HoldsAt m p (pre ++ t)) :
    HoldsAt m (p + pre.length) t := fun i hi => by
  have hb := h (pre.length + i) (by rw [List.length_append]; omega)
  rw [List.getD_append_right _ _ _ _ (Nat.le_add_right _ _), Nat.add_sub_cancel_left] at hb
  rw [← hb, Int.natCast_add, Int.add_assoc]

theorem HoldsAt.tail {m : ℤ → UInt8} {p : ℤ} {c : UInt8} (h : HoldsAt m p (c :: str)) :
    HoldsAt m (p + 1) str := by
  have hc : HoldsAt m p ([c] ++ str) := h
  exact hc.append

/-- The string that is held is the string there. -/
theorem HoldsAt.stringAt {m : ℤ → UInt8} {p : ℤ} {room : ℕ} (h : HoldsAt m p str) (h0 : 0 ∉ str)
    (hroom : str.length < room) : stringAt m room p = str := by
  induction str generalizing p room with
  | nil =>
    have hend := h 0 (Nat.le_refl _)
    rw [Int.natCast_zero, Int.add_zero] at hend
    obtain ⟨room, rfl⟩ := Nat.exists_eq_succ_of_ne_zero (Nat.ne_of_gt hroom)
    exact if_pos hend
  | cons c str ih =>
    rw [List.mem_cons, not_or] at h0
    rw [List.length_cons] at hroom
    obtain ⟨room, rfl⟩ := Nat.exists_eq_succ_of_ne_zero (Nat.ne_of_gt (Nat.zero_lt_of_lt hroom))
    have hc : m p = c := by
      have hb := h 0 (Nat.zero_le _)
      rwa [Int.natCast_zero, Int.add_zero] at hb
    have hrest : HoldsAt m (p + 1) str := h.tail
    rw [Fs.stringAt, hc, if_neg (Ne.symm h0.1), ih hrest h0.2 (by omega)]

end Strings

/-! ### The loops -/

section Loops

variable {W : ℤ → Prop} {str pre t : List UInt8} {m : ℤ → UInt8} {n : ℕ} {c : UInt8}

theorem runs_readByte {p : ℤ} (hp : W p) : Runs W (readByte p) m (m p) m :=
  .visit (fun m : ℤ → UInt8 => (m p, m)) hp

theorem runs_writeByte {p : ℤ} (hp : W p) (c : UInt8) :
    Runs W (writeByte p c) m () (Function.update m p c) :=
  .visit (fun m : ℤ → UInt8 => ((), Function.update m p c)) hp

theorem runs_strlen {room sc : ℕ} (h : HoldsAt m sc str) (h0 : 0 ∉ str) (hroom : str.length < room)
    (hW : ∀ p : ℕ, p ≤ sc + str.length → W p) :
    Runs W (strlen room sc) m (sc + str.length) m := by
  induction str generalizing sc room with
  | nil =>
    obtain ⟨room, rfl⟩ := Nat.exists_eq_succ_of_ne_zero (Nat.ne_of_gt hroom)
    have hend := h 0 (Nat.le_refl _)
    rw [Int.natCast_zero, Int.add_zero] at hend
    refine (runs_readByte (hW sc (Nat.le_add_right _ _))).bind ?_
    rw [hend, if_neg (fun h => h rfl)]
    exact .pure _
  | cons c str ih =>
    rw [List.mem_cons, not_or] at h0
    rw [List.length_cons] at hroom
    obtain ⟨room, rfl⟩ := Nat.exists_eq_succ_of_ne_zero (Nat.ne_of_gt (Nat.zero_lt_of_lt hroom))
    have hc : m sc = c := by
      have hb := h 0 (Nat.zero_le _)
      rwa [Int.natCast_zero, Int.add_zero] at hb
    have hrest : HoldsAt m ((sc + 1 : ℕ) : ℤ) str := h.tail
    have hlen : sc + (c :: str).length = sc + 1 + str.length := by rw [List.length_cons]; omega
    rw [hlen] at hW ⊢
    refine (runs_readByte (hW sc (by omega))).bind ?_
    rw [hc, if_pos (Ne.symm h0.1)]
    exact ih hrest h0.2 (by omega) hW

/-- The memory begins with the bytes. -/
def Begins (m : ℤ → UInt8) (str : List UInt8) : Prop := ∀ i < str.length, m i = str.getD i 0

theorem HoldsAt.begins (h : HoldsAt m 0 str) : Begins m str := fun i hi => by
  have hb := h i (Nat.le_of_lt hi)
  rwa [Int.zero_add] at hb

theorem Begins.left (h : Begins m (pre ++ t)) : Begins m pre := fun i hi => by
  rw [h i (by rw [List.length_append]; omega), List.getD_append _ _ _ _ hi]

theorem Begins.last (h : Begins m (pre ++ [c])) : m pre.length = c := by
  rw [h pre.length (by rw [List.length_append, List.length_singleton]; omega),
    List.getD_append_right _ _ _ _ (Nat.le_refl _), Nat.sub_self]
  rfl

/-- `strrchr` ends at the last slash. -/
theorem runs_strrchrLoop (h : Begins m (pre ++ c :: t)) (hc : c ∉ t)
    (hW : ∀ p : ℕ, p < (pre ++ c :: t).length → W p) :
    Runs W (strrchrLoop c (pre ++ c :: t).length) m pre.length m := by
  induction t using List.reverseRecOn with
  | nil =>
    have hlen : (pre ++ [c]).length = pre.length + 1 := List.length_append
    rw [hlen] at hW ⊢
    refine (runs_readByte (hW pre.length (Nat.lt_succ_self _))).bind ?_
    rw [h.last, if_neg (not_not.mpr rfl)]
    exact .pure _
  | append_singleton t x ih =>
    rw [List.mem_append, List.mem_singleton, not_or] at hc
    have happ : pre ++ c :: (t ++ [x]) = (pre ++ c :: t) ++ [x] := by simp
    rw [happ] at h hW ⊢
    rw [List.length_append, List.length_singleton] at hW ⊢
    refine (runs_readByte (hW _ (Nat.lt_succ_self _))).bind ?_
    rw [h.last, if_pos (Ne.symm hc.2)]
    exact ih h.left hc.1 fun p hp => hW p (Nat.lt_succ_of_lt hp)

/-- Without a slash it goes on to the byte in front. -/
theorem runs_strrchrLoop_none (h : Begins m str) (hc : c ∉ str)
    (hW : ∀ p : ℤ, -1 ≤ p → p < str.length → W p) :
    Runs W (strrchrLoop c str.length) m (-1) m := by
  induction str using List.reverseRecOn with
  | nil => exact (runs_readByte (hW (-1) (le_refl _) (by decide))).bind (.pure _)
  | append_singleton str x ih =>
    rw [List.mem_append, List.mem_singleton, not_or] at hc
    rw [List.length_append, List.length_singleton] at hW ⊢
    refine (runs_readByte (hW str.length (by omega) (by omega))).bind ?_
    rw [h.last, if_pos (Ne.symm hc.2)]
    exact ih h.left hc.1 fun p hp hlt => hW p hp (by omega)

/-- The bytes between two places are cleared. -/
def cleared (q : ℤ) (n : ℕ) (m : ℤ → UInt8) (p : ℤ) : UInt8 := if q < p ∧ p < n then 0 else m p

theorem Begins.update {b : UInt8} (h : Begins m str) :
    Begins (Function.update m (str.length : ℤ) b) str := fun i hi => by
  rw [Function.update_of_ne (by omega)]
  exact h i hi

theorem cleared_update {q : ℤ} (hq : q < n) :
    cleared q n (Function.update m (n : ℤ) 0) = cleared q (n + 1) m := by
  funext p
  rw [cleared, cleared]
  by_cases hp : p = n
  · rw [if_neg (by omega), if_pos (by omega), hp, Function.update_self]
  · by_cases hin : q < p ∧ p < n
    · rw [if_pos hin, if_pos (by omega)]
    · rw [if_neg hin, if_neg (by omega), Function.update_of_ne hp]

/-- The last component is cleared. -/
theorem runs_clearLoop (h : Begins m (pre ++ slash :: t)) (ht : slash ∉ t)
    (hW : ∀ p : ℕ, p < (pre ++ slash :: t).length → W p) :
    Runs W (clearLoop (pre ++ slash :: t).length) m pre.length
      (cleared pre.length (pre ++ slash :: t).length m) := by
  induction t using List.reverseRecOn generalizing m with
  | nil =>
    have hlen : (pre ++ [slash]).length = pre.length + 1 := List.length_append
    have hsame : cleared pre.length (pre.length + 1) m = m := by
      funext p
      exact if_neg (by omega)
    rw [hlen] at hW ⊢
    rw [hsame]
    refine (runs_readByte (hW pre.length (Nat.lt_succ_self _))).bind ?_
    rw [h.last, if_neg (not_not.mpr rfl)]
    exact .pure _
  | append_singleton t x ih =>
    rw [List.mem_append, List.mem_singleton, not_or] at ht
    have happ : pre ++ slash :: (t ++ [x]) = (pre ++ slash :: t) ++ [x] := by simp
    rw [happ] at h hW ⊢
    rw [List.length_append, List.length_singleton] at hW ⊢
    refine (runs_readByte (hW _ (Nat.lt_succ_self _))).bind ?_
    rw [h.last, if_pos (Ne.symm ht.2)]
    refine (runs_writeByte (hW _ (Nat.lt_succ_self _)) 0).bind ?_
    rw [← cleared_update (by rw [List.length_append, List.length_cons]; omega)]
    exact ih h.left.update ht.1 fun p hp => hW p (Nat.lt_succ_of_lt hp)

theorem runs_clearLoop_none (h : Begins m str) (hc : slash ∉ str)
    (hW : ∀ p : ℤ, -1 ≤ p → p < str.length → W p) :
    ∃ m', Runs W (clearLoop str.length) m (-1) m' := by
  induction str using List.reverseRecOn generalizing m with
  | nil => exact ⟨m, (runs_readByte (hW (-1) (le_refl _) (by decide))).bind (.pure _)⟩
  | append_singleton str x ih =>
    rw [List.mem_append, List.mem_singleton, not_or] at hc
    rw [List.length_append, List.length_singleton] at hW ⊢
    obtain ⟨m', hm'⟩ := ih (h.left.update (b := 0)) hc.1 fun p hp hlt =>
      hW p hp (by omega)
    refine ⟨m', (runs_readByte (hW str.length (by omega) (by omega))).bind ?_⟩
    rw [h.last, if_pos (Ne.symm hc.2)]
    exact (runs_writeByte (hW str.length (by omega) (by omega)) 0).bind hm'

end Loops

/-! ### What is touched at all -/

section Touched

variable {m : ℤ → UInt8}

theorem adds_strlen (room sc : ℕ) : Adds (strlen room sc) := by
  induction room generalizing sc with
  | zero => exact .pure _
  | succ room ih => exact (Adds.visit _ _).bind fun _ => .ite (ih _) (.pure _)

theorem adds_strrchrLoop (c : UInt8) (n : ℕ) : Adds (strrchrLoop c n) := by
  induction n with
  | zero => exact (Adds.visit _ _).bind fun _ => .pure _
  | succ n ih => exact (Adds.visit _ _).bind fun _ => .ite ih (.pure _)

theorem touched_strrchrLoop_none {c : UInt8} {str : List UInt8} (h : Begins m str) (hc : c ∉ str) :
    -1 ∈ touched (strrchrLoop c str.length) m := by
  induction str using List.reverseRecOn with
  | nil => exact List.mem_singleton_self _
  | append_singleton str x ih =>
    rw [List.mem_append, List.mem_singleton, not_or] at hc
    have hx : m str.length ≠ c := by
      rw [h.last]
      exact Ne.symm hc.2
    rw [List.length_append, List.length_singleton]
    refine (runs_readByte (W := fun _ => True) trivial).mem_touched_bind
      (.ite (adds_strrchrLoop c _) (.pure _)) ?_
    rw [if_pos hx]
    exact ih h.left hc.1

theorem adds_strrchr (room : ℕ) (c : UInt8) : Adds (strrchr room c) :=
  (adds_strlen room 0).bind fun len => (adds_strrchrLoop c len).bind fun _ => .pure _

theorem adds_clearLoop (n : ℕ) : Adds (clearLoop n) := by
  induction n with
  | zero => exact (Adds.visit _ _).bind fun _ => .pure _
  | succ n ih =>
    exact (Adds.visit _ _).bind fun _ => .ite ((Adds.visit _ _).bind fun _ => ih) (.pure _)

/-- What `strrchr` touches is touched by `get_base_name`. -/
theorem mem_touched_getBaseNameL {room : ℕ} {p : ℤ} (h : p ∈ touched (strrchr room slash) m) :
    p ∈ touched (getBaseNameL room) m := by
  refine (adds_strrchr room slash).mem_touched_bind (fun r => ?_) h
  cases r with
  | none => exact .pure _
  | some p =>
    refine (Adds.visit _ _).bind fun _ => .ite ((Adds.visit _ _).bind fun _ => ?_) (.pure _)
    exact (adds_clearLoop _).bind fun _ => .pure _

/-- The first byte of the string is read. -/
theorem zero_mem_touched (room : ℕ) : 0 ∈ touched (getBaseNameL (room + 1)) m := by
  refine mem_touched_getBaseNameL ((adds_strlen _ 0).mem_touched_bind
    (fun len => (adds_strrchrLoop slash len).bind fun _ => .pure _) ?_)
  exact (Adds.visit _ _).mem_touched_bind (fun _ => .ite (adds_strlen room _) (.pure _))
    (List.mem_singleton_self _)

/-- Without a slash the byte in front is read. -/
theorem front_mem_touched {str : List UInt8} (h : HoldsAt m 0 str) (h0 : 0 ∉ str)
    (hno : slash ∉ str) : -1 ∈ touched (getBaseNameL (str.length + 1)) m := by
  have hlen := runs_strlen (W := fun _ => True) h h0 (Nat.lt_succ_self _)
    fun _ _ => trivial
  rw [Nat.zero_add] at hlen
  refine mem_touched_getBaseNameL ?_
  have hloop := (adds_strrchrLoop slash str.length).bind (f := fun e : ℤ =>
    (pure (if e < 0 then none else some e) : StrM (Option ℤ))) fun _ => .pure _
  obtain ⟨r, m', hrest⟩ := hloop m
  rw [strrchr, Runs.touched_bind hlen hrest]
  exact List.mem_append_right _ ((adds_strrchrLoop slash _).mem_touched_bind (fun _ => .pure _)
    (touched_strrchrLoop_none h.begins hno))

end Touched

/-! ### The base name -/

section Base

variable {W : ℤ → Prop} {str pre t : List UInt8} {m : ℤ → UInt8}

theorem runs_strrchr {c : UInt8} (h : HoldsAt m 0 (pre ++ c :: t)) (h0 : 0 ∉ pre ++ c :: t)
    (hc : c ∉ t) (hW : ∀ p : ℕ, p ≤ (pre ++ c :: t).length → W p) :
    Runs W (strrchr ((pre ++ c :: t).length + 1) c) m (some (pre.length : ℤ)) m := by
  have hlen := runs_strlen h h0 (Nat.lt_succ_self _)
    fun p hp => hW p (hp.trans_eq (Nat.zero_add _))
  rw [Nat.zero_add] at hlen
  refine hlen.bind ((runs_strrchrLoop h.begins hc fun p hp => hW p (Nat.le_of_lt hp)).bind ?_)
  rw [if_neg (by omega)]
  exact .pure _

theorem runs_strrchr_none {c : UInt8} (h : HoldsAt m 0 str) (h0 : 0 ∉ str) (hc : c ∉ str)
    (hW : ∀ p : ℤ, -1 ≤ p → p ≤ str.length → W p) :
    Runs W (strrchr (str.length + 1) c) m none m := by
  have hlen : Runs W (strlen (str.length + 1) 0) m (0 + str.length) m :=
    runs_strlen h h0 (Nat.lt_succ_self _) fun p hp => hW p (by omega) (by omega)
  rw [Nat.zero_add] at hlen
  exact hlen.bind ((runs_strrchrLoop_none h.begins hc
    fun p hp hlt => hW p hp (Int.le_of_lt hlt)).bind (.pure _))

/-- **What `get_base_name` computes.** It touches the copy, and the byte in front of it when
there is no slash to stop at. -/
theorem runs_getBaseNameL (h : HoldsAt m 0 str) (h0 : 0 ∉ str)
    (hW : ∀ p : ℤ, 0 ≤ p → p ≤ str.length → W p)
    (hfront : (slash ∉ str ∨ str.getLast? = some slash ∧ slash ∉ str.dropLast) → W (-1))
    (pathOrg : List UInt8) :
    ∃ r m', Runs W (getBaseNameL (str.length + 1)) m r m' ∧
      r.string pathOrg (str.length + 1) m' = getBaseName pathOrg str := by
  have hall : W (-1) → ∀ p : ℤ, -1 ≤ p → p ≤ str.length → W p := fun h1 p hp hle => by
    rcases eq_or_ne p (-1) with rfl | hne
    · exact h1
    · exact hW p (by omega) hle
  have hnat : ∀ p : ℕ, p ≤ str.length → W p := fun p hp => hW p (by omega) (by omega)
  rw [getBaseName]
  rcases hb : behindSlash str with _ | t
  · have hno := behindSlash_eq_none.mp hb
    exact ⟨.org, m, (runs_strrchr_none h h0 hno (hall (hfront (.inl hno)))).bind (.pure _), rfl⟩
  · obtain ⟨pre, rfl, ht⟩ := behindSlash_eq_some.mp hb
    have hrchr := runs_strrchr h h0 ht hnat
    have hbehind : HoldsAt m (pre.length + 1) t := by
      have happ : pre ++ slash :: t = (pre ++ [slash]) ++ t := by simp
      rw [happ] at h
      have := h.append
      rwa [List.length_append, Int.zero_add] at this
    have hnext : m (pre.length + 1) = t.getD 0 0 := by
      have := hbehind 0 (Nat.zero_le _)
      rwa [Int.natCast_zero, Int.add_zero] at this
    have hlen : (pre ++ slash :: t).length = pre.length + 1 + t.length := by
      rw [List.length_append, List.length_cons]
      omega
    have hread : Runs W (readByte (pre.length + 1)) m (m (pre.length + 1)) m :=
      runs_readByte (hW _ (by omega) (by rw [hlen]; omega))
    cases t with
    | nil =>
      -- the path ends in the slash: the component in front of it is cleared
      have hzero : m (pre.length + 1) = 0 := hnext
      have hbegins : Begins (Function.update m (pre.length : ℤ) 0) pre := h.begins.left.update
      have hwrite := runs_writeByte (m := m) (hnat pre.length (by rw [hlen]; omega)) 0
      have hdrop : (pre ++ [slash]).dropLast = pre := List.dropLast_concat
      have hclear : ∀ {q : ℤ} {m' : ℤ → UInt8},
          Runs W (clearLoop pre.length) (Function.update m (pre.length : ℤ) 0) q m' →
            Runs W (getBaseNameL ((pre ++ [slash]).length + 1)) m
              (if q < 0 then .null else .ptr (q + 1)) m' := fun hq => by
        refine hrchr.bind (hread.bind ?_)
        rw [hzero, if_pos rfl]
        exact hwrite.bind (hq.bind (.pure _))
      by_cases hin : slash ∈ pre
      · obtain ⟨t', ht'⟩ := Option.ne_none_iff_exists'.mp
          (mt behindSlash_eq_none.mp (not_not.mpr hin))
        obtain ⟨pre', rfl, hno⟩ := behindSlash_eq_some.mp ht'
        have hrun := hclear (runs_clearLoop hbegins hno fun p hp => hnat p (by omega))
        rw [if_neg (by omega)] at hrun
        refine ⟨_, _, hrun, ?_⟩
        dsimp only
        rw [hdrop, if_pos hin, BaseName.string, stringAt, if_pos]
        -- the byte returned is the slash, or stands before it
        rw [cleared]
        by_cases hlast : (pre'.length + 1 : ℤ) = (pre' ++ slash :: t').length
        · rw [if_neg (by omega), hlast, Function.update_self]
        · have hle : pre'.length + 1 ≤ (pre' ++ slash :: t').length := by simp
          exact if_pos (by omega)
      · obtain ⟨m', hm'⟩ := runs_clearLoop_none hbegins hin (W := W) fun p hp hlt =>
          hall (hfront (.inr ⟨by simp, by rwa [hdrop]⟩)) p hp (by omega)
        refine ⟨.null, m', hclear hm', ?_⟩
        dsimp only
        rw [hdrop, if_neg hin]
        rfl
    | cons c s =>
      have hc : m (pre.length + 1) = c := hnext
      have hsub : ∀ x, x ∈ c :: s → x ∈ pre ++ slash :: c :: s := fun x hx =>
        List.mem_append_right _ (List.mem_cons_of_mem _ hx)
      refine ⟨.ptr (pre.length + 1), m, hrchr.bind (hread.bind ?_), congrArg some ?_⟩
      · rw [hc, if_neg fun hc0 : c = 0 => h0 (hsub 0 (hc0 ▸ List.mem_cons_self))]
        exact .pure _
      · exact hbehind.stringAt (fun hmem => h0 (hsub 0 hmem)) (by rw [hlen]; omega)

end Base

/-! ### The two splitters -/

section Splitters

variable (e : Env) (d : Dev) (around : ℤ → UInt8) (path : List UInt8)

/-- The string that `strdup` returns a pointer to: a copy of the path, or, without memory,
what is at address 0. -/
def dupString : List UInt8 := if (mallocOk e d).1 then path else e.nullString

/-- The run of `get_base_name`. -/
def baseRun : StrM BaseName := getBaseNameL ((dupString e d path).length + 1)

/-- The memory it begins with. -/
def dupMemory : ℤ → UInt8 := memoryOf (dupString e d path) around

/-- **What is promised of a path**, with the last component `base`. -/
structure SplittersAgree (comps : List (List UInt8)) (base : List UInt8) : Prop where
  /-- `namei` with `LOOKUP_PARENT` looks the other components up, and stops there. -/
  stops : Lookup.Short path → ∀ (m : Type → Type) [Monad m] [LawfulMonad m] (ι : Type)
    (o : Lookup.Ops m ι) (root pwd : ι) (part : Lookup.Part),
    Lookup.namei o root pwd part path 1 =
      Lookup.fold o comps (Lookup.startInode root pwd path) >>= fun f => pure (.found f)
  /-- `get_base_name` returns it. -/
  returns : ∀ r t, baseRun e d path (dupMemory e d around path, []) = (r, t) →
    r.string path ((dupString e d path).length + 1) t.1 = some base
  /-- It stays inside the copy. -/
  inside : ∀ p ∈ touched (baseRun e d path) (dupMemory e d around path),
    (mallocOk e d).1 = true ∧ 0 ≤ p ∧ p ≤ path.length
  /-- The system calls are about that name. -/
  names : (baseName e path d).1 = base

variable {e d around path} {comps : List (List UInt8)} {base : List UInt8}

theorem baseName_eq : (baseName e path d).1 =
    (getBaseName path (dupString e d path)).getD e.nullString := rfl

/-- **The splitters agree**, and nothing is touched outside the copy, exactly when there is
memory for the copy, the path has a slash and does not end in one. -/
theorem splittersAgree_iff (h0 : 0 ∉ path) (hcomps : components path = comps ++ [base]) :
    SplittersAgree e d around path comps base ↔
      (mallocOk e d).1 = true ∧ slash ∈ path ∧ path.getLast? ≠ some slash := by
  have hne : base ≠ [] := componentsFrom_ne_nil
    (hcomps ▸ List.mem_append_right _ (List.mem_singleton_self _))
  have hrunEq : (mallocOk e d).1 = true → baseRun e d path = getBaseNameL (path.length + 1) :=
    fun hok => by rw [baseRun, dupString, if_pos hok]
  constructor
  · intro h
    by_cases hok : (mallocOk e d).1 = true
    · have hdup : dupString e d path = path := if_pos hok
      have hmem : HoldsAt (dupMemory e d around path) 0 path := by
        rw [dupMemory, hdup]
        exact holdsAt_memoryOf path around
      have hslash : slash ∈ path := by
        by_contra hno
        have hfront := front_mem_touched hmem h0 hno
        rw [← hrunEq hok] at hfront
        exact absurd (h.inside (-1) hfront).2.1 (by decide)
      refine ⟨hok, hslash, fun hend => ?_⟩
      obtain ⟨r, m', hrun, hr⟩ := runs_getBaseNameL (W := fun _ => True) hmem h0
        (fun _ _ _ => trivial) (fun _ => trivial) path
      have hret := h.returns r (m', touched (baseRun e d path) (dupMemory e d around path)) (by
        rw [hrunEq hok]
        exact hrun.apply [])
      rw [hdup, hr] at hret
      obtain ⟨pre, rfl⟩ := List.getLast?_eq_some_iff.mp hend
      rw [getBaseName, behindSlash_eq_some.mpr ⟨pre, rfl, List.not_mem_nil⟩] at hret
      dsimp only at hret
      split at hret
      · exact hne (Option.some.inj hret).symm
      · cases hret
    · exact absurd (h.inside 0 (zero_mem_touched _)).1 hok
  · rintro ⟨hok, hslash, hend⟩
    have hdup : dupString e d path = path := if_pos hok
    have hmem : HoldsAt (dupMemory e d around path) 0 path := by
      rw [dupMemory, hdup]
      exact holdsAt_memoryOf path around
    have hbase := getBaseName_eq hend hcomps
    obtain ⟨r, m', hrun, hr⟩ := runs_getBaseNameL
      (W := fun p => (mallocOk e d).1 = true ∧ 0 ≤ p ∧ p ≤ path.length) hmem h0
      (fun p hp hle => ⟨hok, hp, hle⟩) (fun h => h.elim (absurd hslash) fun h => absurd h.1 hend)
      path
    rw [← hrunEq hok] at hrun
    refine ⟨fun hshort m _ _ ι o root pwd part => ?_, fun r' t ht => ?_, hrun.touched, ?_⟩
    · rw [Lookup.namei_fold o rfl root pwd part hshort, hcomps]
      have hwanted : Lookup.wanted 1 (comps ++ [base]) = comps := by
        rw [Lookup.wanted, if_pos (by decide), List.dropLast_concat]
      rw [hwanted]
    · obtain ⟨rfl, rfl⟩ := Prod.ext_iff.mp ((hrun.apply []).symm.trans ht)
      rw [hdup, hr, hbase]
    · rw [baseName_eq, hdup, hbase]
      rfl

/-- In the environment in which nothing goes wrong the base name of `"/a//b"` is `b`. -/
theorem splittersAgree_iff_quiet :
    SplittersAgree (.quiet (smallSbi 14)) .blank (fun _ => 47) [47, 97, 47, 47, 98] [[97]] [98] :=
  (splittersAgree_iff (by decide) (by decide)).mpr ⟨by decide, by decide, by decide⟩

/-- **A final slash** hides the name: for `"/a/"` the base name is empty. -/
theorem not_splittersAgree : ¬∀ (e : Env) (d : Dev) (around : ℤ → UInt8) (path : List UInt8)
    (comps : List (List UInt8)) (base : List UInt8), 0 ∉ path →
      components path = comps ++ [base] → SplittersAgree e d around path comps base := by
  intro hall
  have h := hall (.quiet (smallSbi 14)) .blank (fun _ => 47) [47, 97, 47] [] [97] (by decide)
    (by decide)
  exact absurd h.names (by decide)

end Splitters

end Thunix.Fs
