import Mathlib.Order.Bounds.Basic
import Thunix.Fs.Bitops

/-!
# The search for a clear bit, at any length

`find_first_zero` of `lib/bitopts.c` with the word behind the end, which its loop reads before it
looks at the bound; what that word is makes no difference
(`Thunix.Fs.Scan.findFirstZero_eq`).

Bit numbers are `unsigned long`s, and `-1` is one of them. The search therefore gives the number
of the first clear bit modulo `2 ^ 32` (`Thunix.Fs.Scan.findFirstZero_of_least`): in a buffer of
`2 ^ 29` bytes the last bit has the number `-1`, so that a buffer in which nothing else is clear
counts as full (`Thunix.Fs.Scan.findFirstZero_last`). Below that number the search is what it
should be (`Thunix.Fs.Scan.findFirstZero_scans`).
-/

namespace Thunix.Fs.Scan

/-! ### The source -/

/-- The loop of `find_first_zero`: the word is read first, and then `p` is compared. -/
def words (m : ℕ → UInt8) (fin p block : ℕ) : ℕ × ℕ :=
  if le32 m p = 0xffffffff ∧ p < fin then words m fin (p + 4) ((block + 32) % 2 ^ 32)
  else (p, block)
termination_by fin - p

/-- What follows the loop. -/
def bits (m : ℕ → UInt8) (fin p block : ℕ) : ℕ :=
  if fin ≤ p then minusOne
  else match (List.range 32).find? fun i => testBit m p i = 0 with
    | some i => (block + i) % 2 ^ 32
    | none => minusOne

/-- `find_first_zero`. -/
def findFirstZero (m : ℕ → UInt8) (buf fin : ℕ) : ℕ :=
  bits m fin (words m fin buf 0).1 (words m fin buf 0).2

/-! ### The word behind the end -/

variable {m : ℕ → UInt8} {buf len k : ℕ}

theorem words_eq (m : ℕ → UInt8) (n p block : ℕ) :
    bits m (p + 4 * n) (words m (p + 4 * n) p block).1 (words m (p + 4 * n) p block).2 =
      findFirstZeroLoop m n p block := by
  induction n generalizing p block with
  | zero =>
    rw [words, if_neg fun h => absurd h.2 (by omega), bits, if_pos (by omega), findFirstZeroLoop]
  | succ n ih =>
    rw [words, findFirstZeroLoop]
    by_cases hones : le32 m p = 0xffffffff
    · rw [if_pos ⟨hones, by omega⟩, if_pos hones, ← ih,
        show p + 4 * (n + 1) = p + 4 + 4 * n by omega]
    · rw [if_neg fun h => hones h.1, if_neg hones]
      exact if_neg (show ¬p + 4 * (n + 1) ≤ p by omega)

/-- **The word behind the end makes no difference.** -/
theorem findFirstZero_eq (m : ℕ → UInt8) (buf : ℕ) (h4 : 4 ∣ len) :
    findFirstZero m buf (buf + len) = Fs.findFirstZero m buf len := by
  have h := words_eq m (len / 4) buf 0
  rwa [Nat.mul_div_cancel' h4] at h

/-! ### Any number of words -/

/-- Bit `k` is the first clear one from `lo` on. -/
def Least (m : ℕ → UInt8) (buf lo k : ℕ) : Prop :=
  lo ≤ k ∧ bit m buf k = false ∧ ∀ i, lo ≤ i → i < k → bit m buf i = true

/-- One word further on, the block is 32 bits further on. -/
theorem block_add (w : ℕ) : (32 * w % 2 ^ 32 + 32) % 2 ^ 32 = 32 * (w + 1) % 2 ^ 32 := by
  omega

/-- The rest of the loop, and what follows it, from a word on. -/
theorem loop_of_least {n w : ℕ} (hk : Least m buf (32 * w) k) (hlt : k < 32 * (w + n)) :
    findFirstZeroLoop m n (buf + 4 * w) (32 * w % 2 ^ 32) = k % 2 ^ 32 := by
  obtain ⟨hlo, hclear, hset⟩ := hk
  induction n generalizing w with
  | zero => omega
  | succ n ih =>
    rw [findFirstZeroLoop]
    by_cases hones : le32 m (buf + 4 * w) = 0xffffffff
    · have hfull := (word_ones_iff m buf w).mp hones
      have hnext : 32 * (w + 1) ≤ k := Nat.le_of_not_lt fun h => by
        rw [hfull k hlo h] at hclear
        exact absurd hclear (by decide)
      rw [if_pos hones, block_add]
      exact ih (by omega) hnext fun i h1 h2 => hset i (by omega) h2
    · -- the clear bit lies in this word
      have hhere : k < 32 * (w + 1) := Nat.lt_of_not_le fun h =>
        hones ((word_ones_iff m buf w).mpr fun i h1 h2 => hset i h1 (lt_of_lt_of_le h2 h))
      have hfind : (List.range 32).find? (fun i => testBit m (buf + 4 * w) i = 0) =
          some (k - 32 * w) := by
        refine List.find?_range_eq_some.mpr ⟨?_, List.mem_range.mpr (by omega), fun i hi => ?_⟩
        · rw [decide_eq_true_eq, testBit_eq_zero_iff, bit_word, Nat.add_sub_cancel' hlo]
          exact hclear
        · rw [Bool.not_eq_true', decide_eq_false_iff_not, testBit_eq_zero_iff, bit_word,
            hset _ (by omega) (by omega)]
          decide
      rw [if_neg hones, hfind]
      show (32 * w % 2 ^ 32 + (k - 32 * w)) % 2 ^ 32 = k % 2 ^ 32
      omega

theorem loop_of_full {n w block : ℕ}
    (hset : ∀ i, 32 * w ≤ i → i < 32 * (w + n) → bit m buf i = true) :
    findFirstZeroLoop m n (buf + 4 * w) block = minusOne := by
  induction n generalizing w block with
  | zero => rfl
  | succ n ih =>
    have hones := (word_ones_iff m buf w).mpr fun i h1 h2 => hset i h1 (by omega)
    rw [findFirstZeroLoop, if_pos hones]
    exact ih (w := w + 1) fun i h1 h2 => hset i (by omega) (by omega)

/-- **The search gives the first clear bit, modulo `2 ^ 32`.** -/
theorem findFirstZero_of_least (h4 : 4 ∣ len) (hk : Least m buf 0 k) (hlt : k < 8 * len) :
    findFirstZero m buf (buf + len) = k % 2 ^ 32 := by
  rw [findFirstZero_eq m buf h4]
  exact loop_of_least hk (show k < 32 * (0 + len / 4) by omega)

/-- **The search in a full buffer.** -/
theorem findFirstZero_of_full (h4 : 4 ∣ len) (hset : ∀ k < 8 * len, bit m buf k = true) :
    findFirstZero m buf (buf + len) = minusOne := by
  rw [findFirstZero_eq m buf h4]
  exact loop_of_full (w := 0) fun i _ hi => hset i (by omega)

/-- A buffer is full, or has a first clear bit. -/
theorem full_or_least (m : ℕ → UInt8) (buf len : ℕ) :
    (∀ k < 8 * len, bit m buf k = true) ∨ ∃ k < 8 * len, Least m buf 0 k := by
  by_cases h : ∃ k, k < 8 * len ∧ bit m buf k = false
  · refine .inr ⟨Nat.find h, (Nat.find_spec h).1, Nat.zero_le _, (Nat.find_spec h).2, ?_⟩
    intro i _ hi
    have hmin := Nat.find_min h hi
    have hlt : i < 8 * len := hi.trans (Nat.find_spec h).1
    exact Bool.eq_true_of_not_eq_false fun hb => hmin ⟨hlt, hb⟩
  · exact .inl fun k hk => Bool.eq_true_of_not_eq_false fun hb => h ⟨k, hk, hb⟩

/-! ### Below the last number -/

/-- The clear bits of a buffer, by `test_bit`. -/
def clearBits (m : ℕ → UInt8) (buf len : ℕ) : Set ℕ := {k | k < 8 * len ∧ testBit m buf k = 0}

theorem mem_clearBits : k ∈ clearBits m buf len ↔ k < 8 * len ∧ bit m buf k = false :=
  and_congr_right fun _ => testBit_eq_zero_iff

theorem Least.isLeast (hk : Least m buf 0 k) (hlt : k < 8 * len) :
    IsLeast (clearBits m buf len) k := by
  obtain ⟨-, hclear, hset⟩ := hk
  refine ⟨mem_clearBits.mpr ⟨hlt, hclear⟩, fun i hi => Nat.le_of_not_lt fun hik => ?_⟩
  have hi' := (mem_clearBits.mp hi).2
  rw [hset i (Nat.zero_le i) hik] at hi'
  exact absurd hi' (by decide)

/-- A full buffer, or one whose first clear bit the search gives. -/
theorem findFirstZero_cases (h4 : 4 ∣ len)
    (hfirst : ∀ k, IsLeast (clearBits m buf len) k → k < minusOne) :
    findFirstZero m buf (buf + len) = minusOne ∧ clearBits m buf len = ∅ ∨
      findFirstZero m buf (buf + len) < minusOne ∧
        IsLeast (clearBits m buf len) (findFirstZero m buf (buf + len)) := by
  rcases full_or_least m buf len with hfull | ⟨k, hlt, hk⟩
  · refine .inl ⟨findFirstZero_of_full h4 hfull, Set.eq_empty_of_forall_notMem fun i hi => ?_⟩
    obtain ⟨hlt, hclear⟩ := mem_clearBits.mp hi
    rw [hfull i hlt] at hclear
    exact absurd hclear (by decide)
  · have hleast := hk.isLeast hlt
    have hk32 : k < minusOne := hfirst k hleast
    have hr : findFirstZero m buf (buf + len) = k :=
      (findFirstZero_of_least h4 hk hlt).trans (Nat.mod_eq_of_lt (hk32.trans (by decide)))
    rw [hr]
    exact .inr ⟨hk32, hleast⟩

/-- Setting a bit takes it from the clear ones. -/
theorem clearBits_setBit (m : ℕ → UInt8) (buf len n : ℕ) :
    clearBits (setBit m buf n).2 buf len = clearBits m buf len \ {n} := by
  ext k
  rw [Set.mem_sdiff, mem_clearBits, mem_clearBits, bit_setBit, Set.mem_singleton_iff]
  rcases eq_or_ne k n with rfl | hk
  · simp
  · rw [decide_eq_false hk, Bool.false_or]
    exact ⟨fun h => ⟨h, hk⟩, fun h => h.1⟩

/-- **The search, where the first clear bit has a number below `-1`.** What comes after it has to
have a number, too. -/
theorem findFirstZero_scans (h4 : 4 ∣ len)
    (hfirst : ∀ k, IsLeast (clearBits m buf len) k → k < minusOne) :
    (findFirstZero m buf (buf + len) = minusOne ↔ ∀ k < 8 * len, testBit m buf k ≠ 0) ∧
    (findFirstZero m buf (buf + len) ≠ minusOne →
      IsLeast (clearBits m buf len) (findFirstZero m buf (buf + len)) ∧
      ((∀ k ∈ clearBits m buf len, k < 2 ^ 32) →
        findFirstZero (setBit m buf (findFirstZero m buf (buf + len))).2 buf (buf + len) =
            minusOne ∨
          findFirstZero m buf (buf + len) <
            findFirstZero (setBit m buf (findFirstZero m buf (buf + len))).2 buf (buf + len)) ∧
      (clearBit (setBit m buf (findFirstZero m buf (buf + len))).2 buf
        (findFirstZero m buf (buf + len))).2 = m) := by
  rcases findFirstZero_cases h4 hfirst with ⟨hr, hempty⟩ | ⟨hr, hleast⟩
  · refine ⟨⟨fun _ k hk h0 => ?_, fun _ => hr⟩, fun h => absurd hr h⟩
    have hk : k ∈ clearBits m buf len := ⟨hk, h0⟩
    rw [hempty] at hk
    exact hk
  · refine ⟨⟨fun h => absurd h hr.ne, fun h => absurd hleast.1.2 (h _ hleast.1.1)⟩, fun _ => ?_⟩
    refine ⟨hleast, fun hnum => ?_, clearBit_setBit (mem_clearBits.mp hleast.1).2⟩
    generalize findFirstZero m buf (buf + len) = n at hleast
    rcases full_or_least (setBit m buf n).2 buf len with hfull | ⟨k, hlt, hk⟩
    · exact .inl (findFirstZero_of_full h4 hfull)
    · -- what is clear now was clear before, and is not the bit that has been set
      have hmem := (hk.isLeast hlt).1
      rw [clearBits_setBit] at hmem
      rw [findFirstZero_of_least h4 hk hlt, Nat.mod_eq_of_lt (hnum k hmem.1)]
      exact .inr (lt_of_le_of_ne (hleast.2 hmem.1) (Ne.symm hmem.2))

/-- A buffer of one word, in which bit 3 alone is clear. -/
theorem findFirstZero_scans_247 :
    findFirstZero (Function.update (fun _ => 255) 0 247) 0 (0 + 4) = 3 ∧
      IsLeast (clearBits (Function.update (fun _ => 255) 0 247) 0 4) 3 := by
  have hr : findFirstZero (Function.update (fun _ => 255) 0 247) 0 (0 + 4) = 3 := by
    rw [findFirstZero_eq _ _ (by decide)]
    rfl
  have hfirst : ∀ k, IsLeast (clearBits (Function.update (fun _ => 255) 0 247) 0 4) k →
      k < minusOne := fun k hk => lt_trans hk.1.1 (by decide)
  have hscans := findFirstZero_scans (show 4 ∣ 4 by decide) hfirst
  refine ⟨hr, ?_⟩
  rw [hr] at hscans
  exact (hscans.2 (by decide)).1

/-- Half a gigabyte, with its last bit clear. -/
def lastClear : ℕ → UInt8 := Function.update (fun _ => 255) (2 ^ 29 - 1) 127

theorem bit_lastClear (k : ℕ) :
    bit lastClear 0 k = !decide (k = 2 ^ 32 - 1) := by
  have hbyte : ∀ j < 8, (255 : UInt8).toNat.testBit j = true := by decide
  have hbyte' : ∀ j < 8, (127 : UInt8).toNat.testBit j = !decide (j = 7) := by decide
  rw [bit, lastClear, Nat.zero_add]
  rcases eq_or_ne (k / 8) (2 ^ 29 - 1) with h | h
  · rw [h, Function.update_self, hbyte' _ (by omega)]
    congr 1
    exact decide_eq_decide.mpr (by omega)
  · rw [Function.update_of_ne h, hbyte _ (by omega), decide_eq_false (by omega)]
    rfl

/-- **The last bit of half a gigabyte has the number `-1`:** the search says that the buffer is
full, and it is not. -/
theorem findFirstZero_last :
    findFirstZero lastClear 0 (0 + 2 ^ 29) = minusOne ∧
      2 ^ 32 - 1 < 8 * 2 ^ 29 ∧ testBit lastClear 0 (2 ^ 32 - 1) = 0 := by
  have hclear : bit lastClear 0 (2 ^ 32 - 1) = false := bit_lastClear _
  have hleast : Least lastClear 0 0 (2 ^ 32 - 1) := by
    refine ⟨Nat.zero_le _, hclear, fun i _ hi => ?_⟩
    rw [bit_lastClear i, decide_eq_false (by omega)]
    rfl
  refine ⟨?_, by decide, testBit_eq_zero_iff.mpr hclear⟩
  rw [findFirstZero_of_least (by decide) hleast (by decide)]
  rfl

end Thunix.Fs.Scan
