import Mathlib.Data.List.Basic
import Mathlib.Data.List.GetD
import Mathlib.Logic.Function.Basic
import Mathlib.Tactic.Set
import Thunix.Lib.Logged

/-!
# The words of a command line

`parse_command` of `kernel/shell.c` cuts a line in place: it overwrites one space with a NUL for
each argument but the first, and passes on pointers into the line. The first word ends at the
first space of the line, and the others begin behind the last space of a gap, so that the spaces
in front of it stay with the word before. A line that begins with a space has an empty first
word, and one whose first gap has several spaces gets a word of spaces.

So the arguments are the words of the line exactly if single spaces separate them, with none at
either end; and there have to be fewer than `MAX_OPTION` of them, for the vector has no room for
a NULL behind as many (`Thunix.Shell.split_iff`). Nothing behind the line is touched
(`Thunix.Shell.runs_parseCommand`).
-/

namespace Thunix.Shell

open Logged

/-! ### The source -/

/-- `MAX_OPTION`. -/
def MAX_OPTION : ℕ := 10

/-- The size of `command_buffer`. -/
def COMMAND_SIZE : ℕ := 512

/-- `' '`. -/
def space : UInt8 := 0x20

/-- Programs on `command_buffer` that log the indices they touch. -/
abbrev BufM (α : Type) := Prog (ℕ → UInt8) ℕ α

/-- `*p`. -/
def readBuf (p : ℕ) : BufM UInt8 := visit p fun m => (m p, m)

/-- `*p = c`. -/
def writeBuf (p : ℕ) (c : UInt8) : BufM Unit := visit p fun m => ((), Function.update m p c)

/-- `while (*p != ' ' && *p) p++`, in a buffer with so many bytes more. -/
def skipWord : ℕ → ℕ → BufM ℕ
  | 0, p => pure p
  | room + 1, p => do
    let c ← readBuf p
    if c ≠ space ∧ c ≠ 0 then skipWord room (p + 1) else pure p

/-- `while (*p && *p == ' ') p++`. -/
def skipSpaces : ℕ → ℕ → BufM ℕ
  | 0, p => pure p
  | room + 1, p => do
    let c ← readBuf p
    if c ≠ 0 ∧ c = space then skipSpaces room (p + 1) else pure p

/-- The variables of `parse_command`. Pointers count from `command_buffer`, and `none` is
`NULL`. -/
structure Parse where
  p : ℕ
  argv : List (Option ℕ)
  argc : ℕ

/-- The body of the second loop, and whether it breaks. -/
def Parse.next (s : Parse) : BufM (Parse × Bool) := do
  writeBuf s.p 0
  let argv := s.argv.set s.argc (some (s.p + 1))
  let q ← skipWord COMMAND_SIZE (s.p + 1)
  let q ← skipSpaces COMMAND_SIZE q
  if (← readBuf q) = 0 then pure (⟨q, argv, s.argc + 1⟩, true)
  else pure (⟨q - 1, argv, s.argc + 1⟩, false)

/-- `while (*p && argc < MAX_OPTION)`, which adds an argument each time. -/
def Parse.loop : ℕ → Parse → BufM Parse
  | 0, s => pure s
  | left + 1, s => do
    if (← readBuf s.p) ≠ 0 ∧ s.argc < MAX_OPTION then do
      let t ← s.next
      if t.2 then pure t.1 else t.1.loop left
    else pure s

/-- `parse_command`: what it calls `run_command` with. -/
def parseCommand : BufM Parse := do
  let p ← skipWord COMMAND_SIZE 0
  Parse.loop MAX_OPTION ⟨p, (List.replicate MAX_OPTION none).set 0 (some 0), 1⟩

/-! ### What is asked of it -/

/-- The words of a line: the maximal runs of other characters than the space. -/
def words (line : List UInt8) : List (List UInt8) := (line.splitOn space).filter (· ≠ [])

/-- The string is at the address, with its NUL. -/
def StringAt (mem : ℕ → UInt8) (p : ℕ) (str : List UInt8) : Prop :=
  0 ∉ str ∧ ∀ i ≤ str.length, mem (p + i) = str.getD i 0

/-- **The line is split as it should be.** -/
structure Split (line : List UInt8) (s : Parse) (mem : ℕ → UInt8) : Prop where
  argc : s.argc = ((words line).take MAX_OPTION).length
  argv : ∀ (i : ℕ) (w : List UInt8), ((words line).take MAX_OPTION)[i]? = some w →
    ∃ p : ℕ, s.argv[i]? = some (some p) ∧ StringAt mem p w
  null : s.argv[s.argc]? = some none

/-- Single spaces separate the words of the line, and there are fewer than `MAX_OPTION`. -/
def Tidy (line : List UInt8) : Prop :=
  [] ∉ line.splitOn space ∧ (line.splitOn space).length < MAX_OPTION

/-! ### Fields -/

theorem space_notMem_of_mem_splitOn {line w : List UInt8} (h : w ∈ line.splitOn space) :
    space ∉ w := by
  induction line generalizing w with
  | nil =>
    rw [List.splitOn_nil, List.mem_singleton] at h
    simp [h]
  | cons c line ih =>
    rw [List.splitOn_cons_eq_if_modifyHead] at h
    by_cases hc : c = space
    · rw [if_pos (beq_iff_eq.mpr hc), List.mem_cons] at h
      rcases h with rfl | h
      · exact List.not_mem_nil
      · exact ih h
    · rw [if_neg (mt beq_iff_eq.mp hc)] at h
      obtain ⟨v, vs, hvs⟩ := List.exists_cons_of_ne_nil (List.splitOn_ne_nil space line)
      rw [hvs, List.modifyHead_cons, List.mem_cons] at h
      rcases h with rfl | h
      · have hv : space ∉ v := ih (hvs ▸ List.mem_cons_self)
        simp [hv, Ne.symm hc]
      · exact ih (hvs ▸ List.mem_cons_of_mem v h)

/-- Two spaces in a row have an empty field between them. -/
theorem nil_mem_splitOn_spaces (u v : List UInt8) :
    [] ∈ (u ++ space :: space :: v).splitOn space := by
  rw [List.splitOn_append_cons_self]
  refine List.mem_append_right _ ?_
  rw [← List.nil_append (space :: v), List.splitOn_append_cons_self]
  exact List.mem_append_left _ (by simp)

/-- A space at the end has one behind it. -/
theorem nil_mem_splitOn_last (u : List UInt8) : [] ∈ (u ++ [space]).splitOn space := by
  rw [List.splitOn_append_cons_self]
  exact List.mem_append_right _ (by simp)

/-! ### Strings in memory -/

section

variable {mem : ℕ → UInt8} {p q : ℕ} {u v str : List UInt8}

theorem StringAt.zero_notMem (h : StringAt mem p str) : 0 ∉ str := h.1

theorem StringAt.tail (h : StringAt mem p (u ++ v)) : StringAt mem (p + u.length) v := by
  refine ⟨fun h0 => h.1 (List.mem_append_right u h0), fun i hi => ?_⟩
  rw [Nat.add_assoc, h.2 (u.length + i) (by rw [List.length_append]; omega),
    List.getD_append_right _ _ _ _ (Nat.le_add_right _ _), Nat.add_sub_cancel_left]

/-- A string is cut by writing a NUL. -/
theorem StringAt.cut (h : StringAt mem p (u ++ v)) :
    StringAt (Function.update mem (p + u.length) 0) p u := by
  refine ⟨fun h0 => h.1 (List.mem_append_left v h0), fun i hi => ?_⟩
  rcases Nat.eq_or_lt_of_le hi with rfl | hi
  · rw [Function.update_self, List.getD_eq_default _ _ (Nat.le_refl _)]
  · rw [Function.update_of_ne (by omega), h.2 i (by rw [List.length_append]; omega),
      List.getD_append _ _ _ _ hi]

/-- A NUL elsewhere does not matter. -/
theorem StringAt.update (h : StringAt mem p str) (hq : q < p ∨ p + str.length < q) :
    StringAt (Function.update mem q 0) p str :=
  ⟨h.1, fun i hi => by rw [Function.update_of_ne (by omega), h.2 i hi]⟩

/-- A byte of the string. -/
theorem StringAt.head {c : UInt8} (h : StringAt mem p (c :: v)) : mem p = c ∧ c ≠ 0 :=
  ⟨h.2 0 (Nat.zero_le _), fun hc => h.1 (by simp [hc])⟩

theorem StringAt.rest {c : UInt8} (h : StringAt mem p (c :: v)) : StringAt mem (p + 1) v :=
  StringAt.tail (u := [c]) h

theorem StringAt.nil (h : StringAt mem p []) : mem p = 0 := h.2 0 (Nat.le_refl _)

/-- There is one string at an address. -/
theorem StringAt.unique (hu : StringAt mem p u) (hv : StringAt mem p v) : u = v := by
  induction u generalizing p v with
  | nil =>
    cases v with
    | nil => rfl
    | cons c v => exact absurd hu.nil (hv.head.1 ▸ hv.head.2)
  | cons c u ih =>
    cases v with
    | nil => exact absurd hv.nil (hu.head.1 ▸ hu.head.2)
    | cons d v =>
      obtain rfl : c = d := hu.head.1.symm.trans hv.head.1
      rw [ih hu.rest hv.rest]

variable {W : ℕ → Prop}

theorem runs_readBuf (hp : W p) : Runs W (readBuf p) mem (mem p) mem :=
  .visit (fun m : ℕ → UInt8 => (m p, m)) hp

theorem runs_writeBuf (hp : W p) (c : UInt8) :
    Runs W (writeBuf p c) mem () (Function.update mem p c) :=
  .visit (fun m : ℕ → UInt8 => ((), Function.update m p c)) hp

/-- A word is skipped. -/
theorem runs_skipWord {room : ℕ} (h : StringAt mem p (u ++ v)) (hu : space ∉ u)
    (hv : v = [] ∨ ∃ t, v = space :: t) (hroom : u.length < room)
    (hW : ∀ i ≤ p + (u ++ v).length, W i) :
    Runs W (skipWord room p) mem (p + u.length) mem := by
  induction u generalizing p room with
  | nil =>
    obtain ⟨room, rfl⟩ := Nat.exists_eq_succ_of_ne_zero (Nat.ne_of_gt hroom)
    refine (runs_readBuf (hW p (Nat.le_add_right _ _))).bind ?_
    rw [if_neg]
    · exact .pure _
    · rintro ⟨hs, h0⟩
      rcases hv with rfl | ⟨t, rfl⟩
      · exact h0 h.nil
      · exact hs h.head.1
  | cons c u ih =>
    obtain ⟨room, rfl⟩ := Nat.exists_eq_succ_of_ne_zero (Nat.ne_of_gt (Nat.zero_lt_of_lt hroom))
    rw [List.mem_cons, not_or] at hu
    have hc : mem p ≠ space ∧ mem p ≠ 0 := by
      rw [h.head.1]
      exact ⟨Ne.symm hu.1, h.head.2⟩
    have hlen : p + (c :: u).length = p + 1 + u.length := by
      rw [List.length_cons]
      omega
    refine (runs_readBuf (hW p (Nat.le_add_right _ _))).bind ?_
    rw [if_pos hc, hlen]
    refine ih h.rest hu.2 (Nat.lt_of_succ_lt_succ hroom) fun i hi => hW i ?_
    rw [List.cons_append, List.length_cons]
    omega

/-- A gap is skipped. -/
theorem runs_skipSpaces {room n : ℕ} (h : StringAt mem p (List.replicate n space ++ v))
    (hv : ∀ t, v ≠ space :: t) (hroom : n < room) (hW : ∀ i ≤ p + n, W i) :
    Runs W (skipSpaces room p) mem (p + n) mem := by
  induction n generalizing p room with
  | zero =>
    obtain ⟨room, rfl⟩ := Nat.exists_eq_succ_of_ne_zero (Nat.ne_of_gt hroom)
    refine (runs_readBuf (hW p (Nat.le_add_right _ _))).bind ?_
    rw [if_neg]
    · exact .pure _
    · rintro ⟨h0, hs⟩
      cases v with
      | nil => exact h0 h.nil
      | cons c v => exact hv v (by rw [← h.head.1, hs])
  | succ n ih =>
    obtain ⟨room, rfl⟩ := Nat.exists_eq_succ_of_ne_zero (Nat.ne_of_gt (Nat.zero_lt_of_lt hroom))
    rw [List.replicate_succ, List.cons_append] at h
    have hlen : p + (n + 1) = p + 1 + n := by omega
    refine (runs_readBuf (hW p (Nat.le_add_right _ _))).bind ?_
    rw [if_pos ⟨h.head.1 ▸ h.head.2, h.head.1⟩, hlen]
    exact ih h.rest (Nat.lt_of_succ_lt_succ hroom) (hlen ▸ hW)

end

/-! ### One more argument -/

/-- A line is a word, a gap, and what comes next; without a gap nothing comes. -/
theorem exists_gap (r : List UInt8) : ∃ (u : List UInt8) (n : ℕ) (v : List UInt8),
    r = u ++ (List.replicate n space ++ v) ∧ space ∉ u ∧ (∀ t, v ≠ space :: t) ∧
      (n = 0 → v = []) := by
  induction r with
  | nil => exact ⟨[], 0, [], rfl, List.not_mem_nil, fun t => by simp, fun _ => rfl⟩
  | cons c r ih =>
    obtain ⟨u, n, v, rfl, hu, hv, hn⟩ := ih
    rcases eq_or_ne c space with rfl | hc
    · cases u with
      | nil => exact ⟨[], n + 1, v, rfl, hu, hv, fun h => absurd h n.succ_ne_zero⟩
      | cons d u =>
        have hd : d ≠ space := fun hd => hu (by simp [hd])
        refine ⟨[], 1, _, rfl, List.not_mem_nil, fun t ht => ?_, fun h => absurd h Nat.one_ne_zero⟩
        exact hd (List.cons.inj ht).1
    · exact ⟨c :: u, n, v, rfl, by simp [hu, Ne.symm hc], hv, hn⟩

/-- The state at the head of the loop: `done` are the arguments cut off so far, and `w` is what
has been read of the last one, which begins at `a` and goes on with `rest` unless it is cut. -/
structure Head (line : List UInt8) (s : Parse) (mem : ℕ → UInt8)
    (done : List (ℕ × List UInt8)) (a : ℕ) (w rest : List UInt8) : Prop where
  argv : s.argv = done.map (fun d => some d.1) ++
    some a :: List.replicate (MAX_OPTION - s.argc) none
  argc : s.argc = done.length + 1
  le : s.argc ≤ MAX_OPTION
  strings : ∀ d ∈ done, StringAt mem d.1 d.2 ∧ d.1 + d.2.length < a
  last : StringAt mem a (w ++ rest)
  pos : s.p = a + w.length
  fields : line.splitOn space =
    done.flatMap (fun d => d.2.splitOn space) ++ (w ++ rest).splitOn space
  clean : [] ∉ line.splitOn space → (∀ d ∈ done, space ∉ d.2) ∧ space ∉ w
  gap : rest = [] ∨ ∃ t, rest = space :: t
  room : a + (w ++ rest).length = line.length

/-- The arguments of a line that has been cut. -/
structure Cuts (line : List UInt8) (s : Parse) (mem : ℕ → UInt8)
    (args : List (ℕ × List UInt8)) : Prop where
  argv : s.argv = args.map (fun d => some d.1) ++ List.replicate (MAX_OPTION - s.argc) none
  argc : s.argc = args.length
  le : s.argc ≤ MAX_OPTION
  strings : ∀ d ∈ args, StringAt mem d.1 d.2
  fields : line.splitOn space = args.flatMap fun d => d.2.splitOn space
  clean : [] ∉ line.splitOn space → s.argc < MAX_OPTION → ∀ d ∈ args, space ∉ d.2

section

variable {line : List UInt8} {s : Parse} {mem : ℕ → UInt8} {done : List (ℕ × List UInt8)} {a : ℕ}
  {w rest r : List UInt8} {W : ℕ → Prop}

/-- The loop is left, at the end of the line or with a full vector. -/
theorem Head.cuts (h : Head line s mem done a w rest) (hend : rest = [] ∨ s.argc = MAX_OPTION) :
    Cuts line s mem (done ++ [(a, w ++ rest)]) where
  argv := by rw [h.argv, List.map_append, List.append_assoc]; rfl
  argc := by rw [h.argc, List.length_append, List.length_singleton]
  le := h.le
  strings d hd := by
    rcases List.mem_append.mp hd with hd | hd
    · exact (h.strings d hd).1
    · rw [List.mem_singleton.mp hd]
      exact h.last
  fields := by rw [h.fields, List.flatMap_append, List.flatMap_singleton]
  clean hne hlt d hd := by
    obtain rfl := hend.resolve_right (Nat.ne_of_lt hlt)
    rcases List.mem_append.mp hd with hd | hd
    · exact (h.clean hne).1 d hd
    · rw [List.mem_singleton.mp hd, List.append_nil]
      exact (h.clean hne).2

/-- The vector with one more argument. -/
theorem set_argv (xs : List (Option ℕ)) (m : ℕ) (b x : Option ℕ) :
    (xs ++ b :: List.replicate (m + 1) none).set (xs.length + 1) x =
      xs ++ [b] ++ x :: List.replicate m none := by
  have h1 : xs.length + 1 - xs.length = 1 := Nat.add_sub_cancel_left _ _
  rw [List.set_append_right _ _ (Nat.le_succ _), h1, List.append_assoc]
  rfl

/-- The last argument is cut off, and the next one begins behind the cut. -/
theorem Head.advance (h : Head line s mem done a w (space :: r)) (hlt : s.argc < MAX_OPTION)
    {w' rest' : List UInt8} (hr : r = w' ++ rest') (hgap : rest' = [] ∨ ∃ t, rest' = space :: t)
    (hclean : [] ∉ r.splitOn space → space ∉ w') :
    Head line ⟨s.p + 1 + w'.length, s.argv.set s.argc (some (s.p + 1)), s.argc + 1⟩
      (Function.update mem s.p 0) (done ++ [(a, w)]) (s.p + 1) w' rest' where
  argv := by
    obtain ⟨m, hm⟩ : ∃ m, MAX_OPTION - s.argc = m + 1 := ⟨MAX_OPTION - s.argc - 1, by omega⟩
    have hm' : MAX_OPTION - (s.argc + 1) = m := by omega
    have hset := set_argv (done.map fun d => some d.1) m (some a) (some (s.p + 1))
    rw [List.length_map, ← h.argc, ← hm, ← h.argv] at hset
    rw [hset, hm', List.map_append]
    rfl
  argc := by rw [h.argc, List.length_append, List.length_singleton]
  le := hlt
  strings d hd := by
    have hpos := h.pos
    rcases List.mem_append.mp hd with hd | hd
    · obtain ⟨hstr, hbelow⟩ := h.strings d hd
      exact ⟨hstr.update (.inr (by omega)), by omega⟩
    · rw [List.mem_singleton.mp hd, hpos]
      exact ⟨h.last.cut, Nat.lt_succ_self _⟩
  last := by
    rw [← hr, h.pos]
    exact h.last.tail.rest.update (.inl (Nat.lt_succ_self _))
  pos := rfl
  fields := by
    rw [h.fields, List.splitOn_append_cons_self, List.flatMap_append, List.flatMap_singleton, ← hr,
      List.append_assoc]
  clean hne := by
    have hnr : [] ∉ r.splitOn space := fun hn => hne (by
      rw [h.fields, List.splitOn_append_cons_self]
      exact List.mem_append_right _ (List.mem_append_right _ hn))
    refine ⟨fun d hd => ?_, hclean hnr⟩
    rcases List.mem_append.mp hd with hd | hd
    · exact (h.clean hne).1 d hd
    · rw [List.mem_singleton.mp hd]
      exact (h.clean hne).2
  gap := hgap
  room := by
    have hroom := h.room
    rw [List.length_append, List.length_cons, ← Nat.add_assoc, ← h.pos] at hroom
    rw [← hr]
    omega

/-- What the two inner loops find behind the cut. -/
theorem Head.scan (h : Head line s mem done a w (space :: r)) {u v : List UInt8} {n : ℕ}
    (hr : r = u ++ (List.replicate n space ++ v)) (hu : space ∉ u) (hv : ∀ t, v ≠ space :: t)
    (hn : n = 0 → v = []) (hlen : line.length < COMMAND_SIZE) (hW : ∀ i ≤ line.length, W i) :
    Runs W (skipWord COMMAND_SIZE (s.p + 1)) (Function.update mem s.p 0) (s.p + 1 + u.length)
      (Function.update mem s.p 0) ∧
    Runs W (skipSpaces COMMAND_SIZE (s.p + 1 + u.length)) (Function.update mem s.p 0)
      (s.p + 1 + u.length + n) (Function.update mem s.p 0) ∧
    StringAt (Function.update mem s.p 0) (s.p + 1 + u.length + n) v ∧
    s.p + 1 + u.length + n ≤ line.length := by
  have hstr : StringAt (Function.update mem s.p 0) (s.p + 1) r := by
    rw [h.pos]
    exact h.last.tail.rest.update (.inl (Nat.lt_succ_self _))
  have hroom := h.room
  have hpos := h.pos
  have hrlen : r.length = u.length + (n + v.length) := by
    rw [hr, List.length_append, List.length_append, List.length_replicate]
  rw [List.length_append, List.length_cons] at hroom
  rw [hr] at hstr
  have hgap : List.replicate n space ++ v = [] ∨ ∃ t, List.replicate n space ++ v = space :: t := by
    cases n with
    | zero => exact .inl (by rw [hn rfl]; rfl)
    | succ n => exact .inr ⟨_, rfl⟩
  have hend := hstr.tail.tail
  rw [List.length_replicate] at hend
  refine ⟨runs_skipWord hstr hu hgap (by omega) fun i hi => hW i ?_,
    runs_skipSpaces hstr.tail hv (by omega) fun i hi => hW i (by omega), hend, by omega⟩
  rw [← hr] at hi
  omega

/-- **One round of the loop** cuts off the last argument and reads on. The next one takes all
spaces of the gap behind it but the last, and at the end of the line that one as well. -/
theorem Head.next (h : Head line s mem done a w (space :: r)) (hlt : s.argc < MAX_OPTION)
    (hlen : line.length < COMMAND_SIZE) (hW : ∀ i ≤ line.length, W i) :
    ∃ t mem' w' rest', Runs W s.next mem t mem' ∧ t.1.argc = s.argc + 1 ∧
      Head line t.1 mem' (done ++ [(a, w)]) (s.p + 1) w' rest' ∧ (t.2 = true → rest' = []) := by
  obtain ⟨u, n, v, hr, hu, hv, hn⟩ := exists_gap r
  obtain ⟨hword, hgap, hend, hle⟩ := h.scan hr hu hv hn hlen hW
  have hcut : Runs W (writeBuf s.p 0) mem () (Function.update mem s.p 0) :=
    runs_writeBuf (hW _ (by omega)) 0
  have hread : Runs W (readBuf (s.p + 1 + u.length + n)) (Function.update mem s.p 0) _ _ :=
    runs_readBuf (hW _ hle)
  cases v with
  | nil =>
    have hq : s.p + 1 + u.length + n = s.p + 1 + r.length := by
      rw [hr]
      simp [Nat.add_assoc]
    refine ⟨(⟨s.p + 1 + r.length, s.argv.set s.argc (some (s.p + 1)), s.argc + 1⟩, true), _, r, [],
      hcut.bind (hword.bind (hgap.bind (hread.bind ?_))), rfl,
      h.advance hlt (List.append_nil r).symm (.inl rfl) fun hclean hs => ?_, fun _ => rfl⟩
    · rw [if_pos hend.nil, hq]
      exact .pure _
    -- a space in the last argument is one at the end of the line
    · cases n with
      | zero => exact hu (by simpa [hr] using hs)
      | succ n =>
        refine hclean ?_
        rw [hr, List.append_nil, List.replicate_succ', ← List.append_assoc]
        exact nil_mem_splitOn_last _
  | cons c v =>
    obtain ⟨n, rfl⟩ : ∃ m, n = m + 1 :=
      Nat.exists_eq_succ_of_ne_zero fun h0 => List.cons_ne_nil c v (hn h0)
    have hq : s.p + 1 + u.length + (n + 1) - 1 =
        s.p + 1 + (u ++ List.replicate n space).length := by
      rw [List.length_append, List.length_replicate]
      omega
    refine ⟨(⟨s.p + 1 + (u ++ List.replicate n space).length, s.argv.set s.argc (some (s.p + 1)),
        s.argc + 1⟩, false), _, u ++ List.replicate n space, space :: c :: v,
      hcut.bind (hword.bind (hgap.bind (hread.bind ?_))), rfl,
      h.advance hlt ?_ (.inr ⟨_, rfl⟩) fun hclean hs => ?_, fun hb => absurd hb Bool.false_ne_true⟩
    · rw [if_neg (hend.head.1 ▸ hend.head.2), hq]
      exact .pure _
    · rw [hr, List.replicate_succ', List.append_assoc, List.append_assoc]
      rfl
    -- a space in another argument is the first of two
    · cases n with
      | zero => exact hu (by simpa using hs)
      | succ n =>
        refine hclean ?_
        have hr' : r = u ++ List.replicate n space ++ space :: space :: c :: v := by
          rw [hr, List.replicate_succ', List.replicate_succ']
          simp
        rw [hr']
        exact nil_mem_splitOn_spaces _ _

/-- **The loop cuts the line.** -/
theorem Head.loop {left : ℕ} (h : Head line s mem done a w rest)
    (hleft : MAX_OPTION ≤ s.argc + left) (hlen : line.length < COMMAND_SIZE)
    (hW : ∀ i ≤ line.length, W i) :
    ∃ t mem' args, Runs W (s.loop left) mem t mem' ∧ Cuts line t mem' args := by
  induction left generalizing s mem done a w rest with
  | zero => exact ⟨s, mem, _, .pure s, h.cuts (.inr (Nat.le_antisymm h.le hleft))⟩
  | succ left ih =>
    have hroom := h.room
    have hpos := h.pos
    rw [List.length_append] at hroom
    have hread : Runs W (readBuf s.p) mem (mem s.p) mem := runs_readBuf (hW _ (by omega))
    have hend := h.last.tail
    rw [← h.pos] at hend
    rcases h.gap with rfl | ⟨r, rfl⟩
    · refine ⟨s, mem, _, hread.bind ?_, h.cuts (.inl rfl)⟩
      rw [if_neg fun hc => hc.1 hend.nil]
      exact .pure s
    · by_cases hlt : s.argc < MAX_OPTION
      · have hp : mem s.p ≠ 0 := hend.head.1 ▸ hend.head.2
        obtain ⟨t, mem', w', rest', hrun, hargc, hhead, hbreak⟩ := h.next hlt hlen hW
        by_cases hb : t.2 = true
        · refine ⟨t.1, mem', _, hread.bind ?_, hhead.cuts (.inl (hbreak hb))⟩
          rw [if_pos ⟨hp, hlt⟩]
          refine hrun.bind ?_
          rw [if_pos hb]
          exact .pure _
        · obtain ⟨t', mem'', args, hloop, hcuts⟩ := ih hhead (by omega)
          refine ⟨t', mem'', args, hread.bind ?_, hcuts⟩
          rw [if_pos ⟨hp, hlt⟩]
          refine hrun.bind ?_
          rw [if_neg hb]
          exact hloop
      · refine ⟨s, mem, _, hread.bind ?_, h.cuts (.inr (by have := h.le; omega))⟩
        rw [if_neg fun hc => hlt hc.2]
        exact .pure s

end

/-! ### Which lines are split right -/

section

variable {line : List UInt8} {mem : ℕ → UInt8}

/-- **What `parse_command` does to a line.** It touches the line and its NUL. -/
theorem runs_parseCommand {W : ℕ → Prop} (h : StringAt mem 0 line)
    (hlen : line.length < COMMAND_SIZE) (hW : ∀ i ≤ line.length, W i) :
    ∃ t mem' args, Runs W parseCommand mem t mem' ∧ Cuts line t mem' args := by
  obtain ⟨u, n, v, hr, hu, hv, hn⟩ := exists_gap line
  obtain ⟨gap, hgapdef⟩ : ∃ gap, gap = List.replicate n space ++ v := ⟨_, rfl⟩
  rw [← hgapdef] at hr
  have hgap : gap = [] ∨ ∃ t, gap = space :: t := by
    cases n with
    | zero => exact .inl (by rw [hgapdef, hn rfl]; rfl)
    | succ n => exact .inr ⟨_, hgapdef⟩
  have hhead : Head line ⟨0 + u.length, (List.replicate MAX_OPTION none).set 0 (some 0), 1⟩ mem
      [] 0 u gap := by
    refine ⟨rfl, rfl, show 1 ≤ 10 by decide, fun d hd => absurd hd List.not_mem_nil, hr ▸ h, rfl,
      ?_, fun _ => ⟨fun d hd => absurd hd List.not_mem_nil, hu⟩, hgap, ?_⟩
    · rw [← hr]
      rfl
    · rw [← hr, Nat.zero_add]
  have hulen : u.length ≤ line.length := by
    rw [hr, List.length_append]
    exact Nat.le_add_right _ _
  have hword : Runs W (skipWord COMMAND_SIZE 0) mem (0 + u.length) mem :=
    runs_skipWord (hr ▸ h) hu hgap (by omega) fun i hi => hW i (by
      rw [← hr] at hi
      omega)
  obtain ⟨t, mem', args, hloop, hcuts⟩ := hhead.loop (show 10 ≤ 1 + 10 by decide) hlen hW
  exact ⟨t, mem', args, hword.bind hloop, hcuts⟩

theorem length_le_fields (args : List (ℕ × List UInt8)) :
    args.length ≤ (args.flatMap fun d => d.2.splitOn space).length := by
  induction args with
  | nil => exact Nat.le_refl _
  | cons d args ih =>
    have hd : 0 < (d.2.splitOn space).length :=
      List.length_pos_iff.mpr (List.splitOn_ne_nil space d.2)
    rw [List.flatMap_cons, List.length_append, List.length_cons]
    omega

/-- Arguments without spaces are the fields of the line. -/
theorem Cuts.fields_eq {s : Parse} {args : List (ℕ × List UInt8)} (h : Cuts line s mem args)
    (hclean : ∀ d ∈ args, space ∉ d.2) : line.splitOn space = args.map fun d => d.2 := by
  rw [h.fields, List.map_eq_flatMap]
  exact List.flatMap_congr fun d hd => List.splitOn_eq_singleton (hclean d hd)

/-- What is in the vector. -/
theorem Cuts.argv_getElem? {s : Parse} {args : List (ℕ × List UInt8)} (h : Cuts line s mem args)
    {i : ℕ} {d : ℕ × List UInt8} (hi : args[i]? = some d) : s.argv[i]? = some (some d.1) := by
  have hlt : i < args.length := (List.getElem?_eq_some_iff.mp hi).1
  rw [h.argv, List.getElem?_append_left (by rwa [List.length_map]), List.getElem?_map, hi]
  rfl

theorem Cuts.null_iff {s : Parse} {args : List (ℕ × List UInt8)} (h : Cuts line s mem args) :
    s.argv[s.argc]? = some none ↔ s.argc < MAX_OPTION := by
  have hle : (args.map fun d => some d.1).length ≤ s.argc :=
    Nat.le_of_eq ((List.length_map _).trans h.argc.symm)
  rw [h.argv, List.getElem?_append_right hle, List.length_map, ← h.argc, Nat.sub_self,
    List.getElem?_replicate]
  split <;> simp <;> omega

/-- **A line is split right exactly if it is tidy.** -/
theorem split_iff (h : StringAt mem 0 line) (hlen : line.length < COMMAND_SIZE) :
    Split line (parseCommand (mem, [])).1 (parseCommand (mem, [])).2.1 ↔ Tidy line := by
  obtain ⟨t, mem', args, hrun, hcuts⟩ := runs_parseCommand (W := fun _ => True) h hlen
    fun _ _ => trivial
  rw [hrun.apply []]
  change Split line t mem' ↔ Tidy line
  constructor
  · intro hsplit
    have hlt := hcuts.null_iff.mp hsplit.null
    have htake : (words line).take MAX_OPTION = words line := by
      refine List.take_of_length_le ?_
      have := hsplit.argc
      rw [List.length_take] at this
      omega
    -- the strings in the vector are the words, so they have no spaces and are not empty
    have hwords : ∀ d ∈ args, d.2 ∈ words line := by
      intro d hd
      obtain ⟨i, hi⟩ := List.mem_iff_getElem?.mp hd
      have hilt : i < (words line).length := by
        have := (List.getElem?_eq_some_iff.mp hi).1
        rwa [← hcuts.argc, hsplit.argc, htake] at this
      obtain ⟨p, hp, hstr⟩ := hsplit.argv i (words line)[i] (by
        rw [htake, List.getElem?_eq_getElem hilt])
      obtain rfl : d.1 = p :=
        Option.some.inj (Option.some.inj ((hcuts.argv_getElem? hi).symm.trans hp))
      rw [(hcuts.strings d hd).unique hstr]
      exact List.getElem_mem hilt
    have hfields := hcuts.fields_eq fun d hd =>
      space_notMem_of_mem_splitOn (List.mem_filter.mp (hwords d hd)).1
    refine ⟨fun hnil => ?_, ?_⟩
    · rw [hfields, List.mem_map] at hnil
      obtain ⟨d, hd, hnil⟩ := hnil
      exact (of_decide_eq_true (List.mem_filter.mp (hwords d hd)).2) hnil
    · rw [hfields, List.length_map, ← hcuts.argc]
      exact hlt
  · rintro ⟨hnil, hlt⟩
    have hargc : t.argc < MAX_OPTION := by
      have := length_le_fields args
      rw [← hcuts.fields, ← hcuts.argc] at this
      omega
    have hfields := hcuts.fields_eq (hcuts.clean hnil hargc)
    have hwords : (words line).take MAX_OPTION = args.map fun d => d.2 := by
      rw [words, List.filter_eq_self.mpr, hfields, List.take_of_length_le]
      · rw [List.length_map, ← hcuts.argc]
        omega
      · intro w hw
        exact decide_eq_true fun hw0 => hnil (hw0 ▸ hw)
    refine ⟨by rw [hwords, List.length_map, hcuts.argc], fun i w hw => ?_,
      hcuts.null_iff.mpr hargc⟩
    rw [hwords, List.getElem?_map, Option.map_eq_some_iff] at hw
    obtain ⟨d, hd, rfl⟩ := hw
    exact ⟨d.1, hcuts.argv_getElem? hd, hcuts.strings d (List.mem_of_getElem? hd)⟩

end

/-- A line in a buffer that is zero behind it. -/
def bufferOf (line : List UInt8) (i : ℕ) : UInt8 := line.getD i 0

theorem stringAt_bufferOf {line : List UInt8} (h : 0 ∉ line) : StringAt (bufferOf line) 0 line :=
  ⟨h, fun i _ => by rw [Nat.zero_add]; rfl⟩

/-- `a b` is split right. -/
theorem split_pair : Split [97, space, 98] (parseCommand (bufferOf [97, space, 98], [])).1
    (parseCommand (bufferOf [97, space, 98], [])).2.1 := by
  have hfields : [97, space, 98].splitOn space = [[97], [98]] := by
    have hsplit : ([97] ++ space :: [98]).splitOn space = [97] :: [98].splitOn space :=
      List.splitOn_append_cons_self_of_not_mem (by decide) _
    rwa [List.splitOn_eq_singleton (by decide : space ∉ [98])] at hsplit
  refine (split_iff (stringAt_bufferOf (by decide)) (by decide)).mpr ⟨?_, ?_⟩
  · rw [hfields]
    decide
  · rw [hfields]
    decide

/-- `a`, two spaces and `b` are split in three. -/
theorem not_split : ¬∀ (line : List UInt8) (mem : ℕ → UInt8), StringAt mem 0 line →
    line.length < COMMAND_SIZE →
      Split line (parseCommand (mem, [])).1 (parseCommand (mem, [])).2.1 := by
  intro h
  have hargc := (h [97, space, space, 98] _ (stringAt_bufferOf (by decide)) (by decide)).argc
  have hthree : (parseCommand (bufferOf [97, space, space, 98], [])).1.argc = 3 := by
    decide +kernel
  have hfields : [97, space, space, 98].splitOn space = [[97], [], [98]] := by
    have hsplit : ([97] ++ space :: [space, 98]).splitOn space =
        [97] :: [space, 98].splitOn space :=
      List.splitOn_append_cons_self_of_not_mem (by decide) _
    have hrest : ([] ++ space :: [98]).splitOn space = [] :: [98].splitOn space :=
      List.splitOn_append_cons_self_of_not_mem List.not_mem_nil _
    rw [List.splitOn_eq_singleton (by decide : space ∉ [98])] at hrest
    exact hsplit.trans (congrArg ([97] :: ·) hrest)
  rw [hthree, words, hfields] at hargc
  exact absurd hargc (by decide)

end Thunix.Shell
