import Mathlib.Data.Nat.Bitwise
import Mathlib.Data.UInt
import Mathlib.Logic.Function.Basic

/-!
# Bit operations

`lib/bitopts.c`: bits of a byte array, bit `nr` of the array at `a` being bit `nr % 8`
of the byte `nr / 8` bytes on. The C functions return the masked byte, so that a bit
that is set shows as some non-zero value; `Thunix.Fs.bit` is the bit itself, and the
lemmas say what each function does in terms of it.
-/

namespace Thunix.Fs

/-- The bit `nr` of the array at `a`. -/
def bit (m : ℕ → UInt8) (a nr : ℕ) : Bool := (m (a + nr / 8)).toNat.testBit (nr % 8)

/-- `mask` in the functions below. -/
def bitMask (nr : ℕ) : UInt8 := UInt8.ofNat (1 <<< (nr % 8))

/-- `test_bit`. -/
def testBit (m : ℕ → UInt8) (a nr : ℕ) : ℕ := (bitMask nr &&& m (a + nr / 8)).toNat

/-- `set_bit`: the original value, and the memory after it. -/
def setBit (m : ℕ → UInt8) (a nr : ℕ) : ℕ × (ℕ → UInt8) :=
  (testBit m a nr, Function.update m (a + nr / 8) (m (a + nr / 8) ||| bitMask nr))

/-- `clear_bit`. -/
def clearBit (m : ℕ → UInt8) (a nr : ℕ) : ℕ × (ℕ → UInt8) :=
  (testBit m a nr, Function.update m (a + nr / 8) (m (a + nr / 8) &&& ~~~bitMask nr))

/-- The little-endian word at an address. -/
def le32 (m : ℕ → UInt8) (a : ℕ) : ℕ :=
  (m a).toNat + 2 ^ 8 * (m (a + 1)).toNat + 2 ^ 16 * (m (a + 2)).toNat +
    2 ^ 24 * (m (a + 3)).toNat

/-- `-1` as an `unsigned long`. -/
def minusOne : ℕ := 0xffffffff

/-- The loop of `find_first_zero` over the words from `p` on, with `n` of them before
`end`. -/
def findFirstZeroLoop (m : ℕ → UInt8) : ℕ → ℕ → ℕ → ℕ
  | 0, _, _ => minusOne
  | n + 1, p, block =>
    if le32 m p = 0xffffffff then findFirstZeroLoop m n (p + 4) ((block + 32) % 2 ^ 32)
    else match (List.range 32).find? fun i => testBit m p i = 0 with
      | some i => (block + i) % 2 ^ 32
      | none => minusOne

/-- `find_first_zero`, of an array of `len` bytes at `buf`. -/
def findFirstZero (m : ℕ → UInt8) (buf len : ℕ) : ℕ := findFirstZeroLoop m (len / 4) buf 0

/-! ### One bit -/

variable {m : ℕ → UInt8} {a nr k : ℕ}

theorem toNat_bitMask (nr : ℕ) : (bitMask nr).toNat = 2 ^ (nr % 8) := by
  have h : nr % 8 < 8 := Nat.mod_lt _ (by decide)
  have hlt : 2 ^ (nr % 8) < 2 ^ 8 := Nat.pow_lt_pow_right (by decide) h
  rw [bitMask, UInt8.toNat_ofNat', Nat.shiftLeft_eq, Nat.one_mul, Nat.mod_eq_of_lt hlt]

/-- **`test_bit` is non-zero exactly if the bit is set.** -/
theorem testBit_eq_zero_iff : testBit m a nr = 0 ↔ bit m a nr = false := by
  rw [testBit, bit, UInt8.toNat_and, toNat_bitMask, Nat.two_pow_and]
  cases (m (a + nr / 8)).toNat.testBit (nr % 8) <;> simp

theorem bit_update_of_ne {x : ℕ} {v : UInt8} (h : x ≠ a + k / 8) :
    bit (Function.update m x v) a k = bit m a k := by
  rw [bit, bit, Function.update_of_ne h.symm]

theorem bit_eq_of_eq (h : k / 8 = nr / 8) (hm : k % 8 = nr % 8) : k = nr := by omega

/-- **`set_bit` sets one bit.** -/
theorem bit_setBit : bit (setBit m a nr).2 a k = (decide (k = nr) || bit m a k) := by
  by_cases hw : k / 8 = nr / 8
  · simp only [setBit, bit, hw, Function.update_self]
    rw [UInt8.toNat_or, toNat_bitMask, Nat.testBit_or, Nat.testBit_two_pow, Bool.or_comm]
    congr 1
    exact decide_eq_decide.mpr ⟨fun h => bit_eq_of_eq hw h.symm, fun h => by rw [h]⟩
  · rw [setBit, bit_update_of_ne (by omega), decide_eq_false (fun h => hw (by rw [h])),
      Bool.false_or]

/-- **`clear_bit` clears one bit.** -/
theorem bit_clearBit : bit (clearBit m a nr).2 a k = (!decide (k = nr) && bit m a k) := by
  by_cases hw : k / 8 = nr / 8
  · have hk : k % 8 < 8 := Nat.mod_lt _ (by decide)
    have hnot : (~~~bitMask nr).toNat.testBit (k % 8) = !decide (k = nr) := by
      rw [UInt8.toNat_not, toNat_bitMask]
      have hlt : 2 ^ (nr % 8) < 2 ^ 8 :=
        Nat.pow_lt_pow_right (by decide) (Nat.mod_lt _ (by decide))
      rw [show UInt8.size - 1 - 2 ^ (nr % 8) = 2 ^ 8 - (2 ^ (nr % 8) + 1) by
        simp only [UInt8.size]; omega, Nat.testBit_two_pow_sub_succ hlt, Nat.testBit_two_pow,
        decide_eq_true hk, Bool.true_and]
      congr 1
      exact decide_eq_decide.mpr ⟨fun h => bit_eq_of_eq hw h.symm, fun h => by rw [h]⟩
    simp only [clearBit, bit, hw, Function.update_self]
    rw [UInt8.toNat_and, Nat.testBit_and, hnot, Bool.and_comm]
  · rw [clearBit, bit_update_of_ne (by omega), decide_eq_false (fun h => hw (by rw [h])),
      Bool.not_false, Bool.true_and]

/-- Only one byte changes. -/
theorem setBit_of_ne {x : ℕ} (h : x ≠ a + nr / 8) : (setBit m a nr).2 x = m x :=
  Function.update_of_ne h _ _

theorem clearBit_of_ne {x : ℕ} (h : x ≠ a + nr / 8) : (clearBit m a nr).2 x = m x :=
  Function.update_of_ne h _ _

/-- A byte is its eight bits. -/
theorem byte_ext {x y : UInt8} (h : ∀ j < 8, x.toNat.testBit j = y.toNat.testBit j) : x = y := by
  refine UInt8.toNat_inj.mp (Nat.eq_of_testBit_eq fun j => ?_)
  by_cases hj : j < 8
  · exact h j hj
  · have hle : 2 ^ 8 ≤ 2 ^ j := Nat.pow_le_pow_right (by decide) (Nat.le_of_not_lt hj)
    rw [Nat.testBit_lt_two_pow (lt_of_lt_of_le x.toNat_lt hle),
      Nat.testBit_lt_two_pow (lt_of_lt_of_le y.toNat_lt hle)]

/-- Two memories that differ in one byte at most, and not in its bits. -/
theorem mem_ext {m' : ℕ → UInt8} (hout : ∀ x, x ≠ a + nr / 8 → m x = m' x)
    (hbit : ∀ k, bit m a k = bit m' a k) : m = m' := by
  funext x
  by_cases hx : x = a + nr / 8
  · subst hx
    refine byte_ext fun j hj => ?_
    have := hbit (8 * (nr / 8) + j)
    rwa [bit, bit, show (8 * (nr / 8) + j) / 8 = nr / 8 by omega,
      show (8 * (nr / 8) + j) % 8 = j by omega] at this
  · exact hout x hx

/-- **A clear bit that is set and cleared again.** -/
theorem clearBit_setBit (h : bit m a nr = false) : (clearBit (setBit m a nr).2 a nr).2 = m := by
  refine mem_ext (fun x hx => (clearBit_of_ne hx).trans (setBit_of_ne hx)) fun k => ?_
  rw [bit_clearBit, bit_setBit]
  by_cases hk : k = nr
  · rw [hk, h, decide_eq_true rfl]
    rfl
  · rw [decide_eq_false hk]
    rfl

/-- A clear bit that is cleared. -/
theorem clearBit_of_clear (h : bit m a nr = false) : (clearBit m a nr).2 = m := by
  refine mem_ext (fun x hx => clearBit_of_ne hx) fun k => ?_
  rw [bit_clearBit]
  by_cases hk : k = nr
  · rw [hk, h, Bool.and_false]
  · rw [decide_eq_false hk]
    rfl

/-! ### The search for a clear bit -/

/-- A word is all ones exactly if its 32 bits are set. -/
theorem le32_eq_ones_iff (m : ℕ → UInt8) (p : ℕ) :
    le32 m p = 0xffffffff ↔ ∀ i < 32, bit m p i = true := by
  have hbyte : ∀ b : UInt8, b.toNat = 255 ↔ ∀ j < 8, b.toNat.testBit j = true := by
    intro b
    refine ⟨fun h j hj => ?_, fun h => Nat.eq_of_testBit_eq fun j => ?_⟩
    · rw [h, show 255 = 2 ^ 8 - 1 by rfl, Nat.testBit_two_pow_sub_one]
      exact decide_eq_true hj
    · rw [show 255 = 2 ^ 8 - 1 by rfl, Nat.testBit_two_pow_sub_one]
      by_cases hj : j < 8
      · rw [h j hj, decide_eq_true hj]
      · rw [decide_eq_false hj]
        exact Nat.testBit_lt_two_pow (lt_of_lt_of_le b.toNat_lt
          (Nat.pow_le_pow_right (by decide) (Nat.le_of_not_lt hj)))
  have hword : le32 m p = 0xffffffff ↔ ∀ q < 4, (m (p + q)).toNat = 255 := by
    have h0 := (m p).toNat_lt
    have h1 := (m (p + 1)).toNat_lt
    have h2 := (m (p + 2)).toNat_lt
    have h3 := (m (p + 3)).toNat_lt
    rw [le32]
    refine ⟨fun h q hq => ?_, fun h => ?_⟩
    · obtain rfl | rfl | rfl | rfl : q = 0 ∨ q = 1 ∨ q = 2 ∨ q = 3 := by omega
      · rw [Nat.add_zero]
        omega
      all_goals omega
    · have e0 := h 0 (by decide)
      have e1 := h 1 (by decide)
      have e2 := h 2 (by decide)
      have e3 := h 3 (by decide)
      rw [Nat.add_zero] at e0
      omega
  rw [hword]
  refine ⟨fun h i hi => (hbyte _).mp (h (i / 8) (by omega)) _ (Nat.mod_lt _ (by decide)),
    fun h q hq => (hbyte _).mpr fun j hj => ?_⟩
  have := h (8 * q + j) (by omega)
  rwa [bit, show (8 * q + j) / 8 = q by omega, show (8 * q + j) % 8 = j by omega] at this

/-- The bits of a word, counted from the start of the array on. -/
theorem bit_word (m : ℕ → UInt8) (buf w i : ℕ) :
    bit m (buf + 4 * w) i = bit m buf (32 * w + i) := by
  rw [bit, bit, show (32 * w + i) / 8 = 4 * w + i / 8 by omega,
    show (32 * w + i) % 8 = i % 8 by omega, Nat.add_assoc]

/-- A word is all ones if its 32 bits, counted so, are set. -/
theorem word_ones_iff (m : ℕ → UInt8) (buf w : ℕ) :
    le32 m (buf + 4 * w) = 0xffffffff ↔
      ∀ i, 32 * w ≤ i → i < 32 * (w + 1) → bit m buf i = true := by
  rw [le32_eq_ones_iff]
  constructor
  · intro h i hlo hhi
    have hi := h (i - 32 * w) (by omega)
    rwa [bit_word, Nat.add_sub_cancel' hlo] at hi
  · intro h i hi
    rw [bit_word]
    exact h _ (by omega) (by omega)

/-- What the search returns: the first clear bit of a range, or `-1`. -/
def FirstClear (m : ℕ → UInt8) (a lo hi r : ℕ) : Prop :=
  (r = minusOne ∧ ∀ k, lo ≤ k → k < hi → bit m a k = true) ∨
    (lo ≤ r ∧ r < hi ∧ bit m a r = false ∧ ∀ k, lo ≤ k → k < r → bit m a k = true)

theorem findFirstZeroLoop_spec (m : ℕ → UInt8) (buf n w : ℕ) (h : 32 * (w + n) < 2 ^ 32) :
    FirstClear m buf (32 * w) (32 * (w + n))
      (findFirstZeroLoop m n (buf + 4 * w) (32 * w)) := by
  induction n generalizing w with
  | zero => exact .inl ⟨rfl, fun k h1 h2 => absurd h1 (by omega)⟩
  | succ n ih =>
    rw [findFirstZeroLoop]
    by_cases hones : le32 m (buf + 4 * w) = 0xffffffff
    · have hset := (word_ones_iff m buf w).mp hones
      rw [if_pos hones, show (32 * w + 32) % 2 ^ 32 = 32 * (w + 1) by omega,
        show buf + 4 * w + 4 = buf + 4 * (w + 1) by omega]
      rcases ih (w + 1) (by omega) with ⟨hr, hall⟩ | ⟨hlo, hhi, hclear, hall⟩
      · refine .inl ⟨hr, fun k h1 h2 => ?_⟩
        by_cases hk : k < 32 * (w + 1)
        · exact hset k h1 hk
        · exact hall k (by omega) (by omega)
      · refine .inr ⟨by omega, by omega, hclear, fun k h1 h2 => ?_⟩
        by_cases hk : k < 32 * (w + 1)
        · exact hset k h1 hk
        · exact hall k (by omega) h2
    · rw [if_neg hones]
      cases hfind : (List.range 32).find? fun i => testBit m (buf + 4 * w) i = 0 with
      | none =>
        refine absurd ((le32_eq_ones_iff m _).mpr fun i hi => ?_) hones
        have := List.find?_range_eq_none.mp hfind i hi
        rwa [Bool.not_eq_true', decide_eq_false_iff_not, testBit_eq_zero_iff,
          Bool.not_eq_false] at this
      | some i =>
        obtain ⟨hi, hmem, hbefore⟩ := List.find?_range_eq_some.mp hfind
        have hilt : i < 32 := List.mem_range.mp hmem
        have hr : (32 * w + i) % 2 ^ 32 = 32 * w + i := Nat.mod_eq_of_lt (by omega)
        rw [decide_eq_true_eq, testBit_eq_zero_iff, bit_word] at hi
        simp only [hr]
        refine .inr ⟨by omega, by omega, hi, fun k h1 h2 => ?_⟩
        have := hbefore (k - 32 * w) (by omega)
        rwa [Bool.not_eq_true', decide_eq_false_iff_not, testBit_eq_zero_iff,
          Bool.not_eq_false, bit_word, Nat.add_sub_cancel' h1] at this

/-- **`find_first_zero` finds the first clear bit of an array of whole words.** -/
theorem findFirstZero_spec (m : ℕ → UInt8) (buf : ℕ) {len : ℕ} (hlen : 8 * len < 2 ^ 32)
    (h4 : 4 ∣ len) : FirstClear m buf 0 (8 * len) (findFirstZero m buf len) := by
  have h := findFirstZeroLoop_spec m buf (len / 4) 0 (by omega)
  rwa [Nat.zero_add, show 32 * (len / 4) = 8 * len by omega] at h

end Thunix.Fs
