import Mathlib.Data.Int.ModEq
import Mathlib.Data.List.Induction
import Mathlib.Data.Nat.Digits.Defs
import Mathlib.Tactic.Ring

/-!
# Numeric arguments

`atoi` and `is_digits` of `kernel/shell.c`. `is_digits` accepts exactly the numerals
(`Thunix.Shell.isDigits_iff`). `atoi_hex` makes two slips: it takes `9` for a letter, its test
being `*str < '9'`, and counts the letters from 0 on, not from 10. So the number is right, modulo
`2 ^ 32`, exactly for decimal numerals and for hexadecimal ones that have neither a `9` nor a
letter among their last eight digits, which are all that counts
(`Thunix.Shell.numberRight_iff`).
-/

namespace Thunix.Shell

/-! ### The source

A string is the list of the bytes before its NUL. -/

/-- A `char` as an `int`. -/
def charInt (c : UInt8) : ℤ := if c.toNat < 2 ^ 7 then c.toNat else c.toNat - 2 ^ 8

/-- `*str | 0x20`. -/
def lower (c : UInt8) : ℤ := charInt (c ||| 0x20)

/-- The loop `sum = sum * base + rest` over the characters of a string, in an `int` that wraps
around. -/
def sumLoop (base : ℤ) (rest : UInt8 → ℤ) : List UInt8 → ℤ → ℤ
  | [], sum => sum
  | c :: str, sum => sumLoop base rest str (Int.bmod (sum * base + rest c) (2 ^ 32))

/-- `rest` in the loop of `atoi_hex`. -/
def hexRest (c : UInt8) : ℤ := if charInt c < 0x39 then charInt c - 0x30 else lower c - 0x61

/-- What the loop of `atoi` adds. -/
def decRest (c : UInt8) : ℤ := charInt c - 0x30

/-- `atoi_hex`. -/
def atoiHex (str : List UInt8) : ℤ := sumLoop 16 hexRest str 0

/-- `str[0] == '0' && (str[1] | 0x20) == 'x'`. -/
def hexPrefix (str : List UInt8) : Prop := str.getD 0 0 = 0x30 ∧ lower (str.getD 1 0) = 0x78

instance (str : List UInt8) : Decidable (hexPrefix str) := inferInstanceAs (Decidable (_ ∧ _))

/-- `atoi`. -/
def atoi (str : List UInt8) : ℤ :=
  if hexPrefix str then atoiHex (str.drop 2) else sumLoop 10 decRest str 0

/-- `try_hex`. -/
def tryHex : List UInt8 → Bool
  | [] => true
  | c :: str =>
    if (charInt c ≥ 0x30 ∧ charInt c ≤ 0x39) ∨ (lower c ≥ 0x61 ∧ lower c ≤ 0x66) then tryHex str
    else false

/-- The loop of `is_digits`. -/
def isDigitsLoop : List UInt8 → Bool
  | [] => true
  | c :: str => if charInt c > 0x39 ∨ charInt c < 0x30 then false else isDigitsLoop str

/-- `is_digits`. -/
def isDigits (str : List UInt8) : Bool :=
  if hexPrefix str ∧ tryHex (str.drop 2) then true else isDigitsLoop str

/-! ### Numerals -/

/-- The value of a decimal digit. -/
def decDigit (c : UInt8) : Option ℕ :=
  if 0x30 ≤ c.toNat ∧ c.toNat ≤ 0x39 then some (c.toNat - 0x30) else none

/-- The value of a hexadecimal digit. -/
def hexDigit (c : UInt8) : Option ℕ :=
  if 0x30 ≤ c.toNat ∧ c.toNat ≤ 0x39 then some (c.toNat - 0x30)
  else if 0x61 ≤ c.toNat ∧ c.toNat ≤ 0x66 then some (c.toNat - 0x61 + 10)
  else if 0x41 ≤ c.toNat ∧ c.toNat ≤ 0x46 then some (c.toNat - 0x41 + 10)
  else none

/-- The number that a string of digits denotes, the first digit counting most. -/
def numeral (base : ℕ) (digit : UInt8 → Option ℕ) (str : List UInt8) : Option ℕ :=
  if str.all fun c => (digit c).isSome then
    some (Nat.ofDigits base (str.map fun c => (digit c).getD 0).reverse)
  else none

/-- **The number a string denotes**: hexadecimal behind `0x` or `0X`, decimal otherwise. -/
def denotes (str : List UInt8) : Option ℕ :=
  if str.take 2 = [0x30, 0x78] ∨ str.take 2 = [0x30, 0x58] then numeral 16 hexDigit (str.drop 2)
  else numeral 10 decDigit str

/-- **A string is handled as a number should be**: `is_digits` accepts it exactly if it is a
numeral, and then `atoi` gives the number it denotes, modulo `2 ^ 32`. -/
def NumberRight (str : List UInt8) : Prop :=
  (isDigits str = true ↔ (denotes str).isSome) ∧
    ∀ v ∈ denotes str, atoi str ≡ (v : ℤ) [ZMOD 2 ^ 32]

example : denotes [0x30, 0x78, 0x31, 0x66] = some 31 ∧ atoi [0x30, 0x78, 0x31, 0x66] = 21 := by
  decide +kernel

/-! ### Digits -/

/-- The digits for which `atoi_hex` finds the right value. -/
def Plain (c : UInt8) : Prop := c.toNat < 0x39

instance (c : UInt8) : Decidable (Plain c) := inferInstanceAs (Decidable (_ < _))

/-- What is true of all bytes can be tested on the numbers below 256. -/
theorem forall_byte {P : UInt8 → Prop} (h : ∀ n : Fin 256, P (UInt8.ofFin n)) (c : UInt8) : P c :=
  h c.toFin

/-- What the tests of the source say of a byte. -/
theorem digit_facts (c : UInt8) :
    (lower c = 0x78 ↔ c = 0x78 ∨ c = 0x58) ∧
    (((charInt c ≥ 0x30 ∧ charInt c ≤ 0x39) ∨ (lower c ≥ 0x61 ∧ lower c ≤ 0x66)) ↔
      (hexDigit c).isSome) ∧
    (¬(charInt c > 0x39 ∨ charInt c < 0x30) ↔ (decDigit c).isSome) ∧
    (lower c = 0x78 → ¬(decDigit c).isSome) ∧
    ((decDigit c).isSome → decRest c + (0 : ℕ) = ((decDigit c).getD 0 : ℕ)) := by
  revert c
  exact forall_byte (by decide +kernel)

theorem hexPrefix_iff (str : List UInt8) :
    hexPrefix str ↔ str.take 2 = [0x30, 0x78] ∨ str.take 2 = [0x30, 0x58] := by
  have hx : ∀ c, lower c = 0x78 ↔ c = 0x78 ∨ c = 0x58 := fun c => (digit_facts c).1
  rcases str with _ | ⟨a, _ | ⟨b, str⟩⟩
  · simp [hexPrefix]
  · simp [hexPrefix, hx]
  · simp only [hexPrefix, List.getD_cons_zero, List.getD_cons_succ, hx]
    simp only [List.take_succ_cons, List.take_zero, List.cons.injEq, and_true, and_or_left]

theorem tryHex_eq_true (str : List UInt8) :
    tryHex str = true ↔ ∀ c ∈ str, (hexDigit c).isSome := by
  have hc : ∀ c : UInt8, ((charInt c ≥ 0x30 ∧ charInt c ≤ 0x39) ∨
      (lower c ≥ 0x61 ∧ lower c ≤ 0x66)) ↔ (hexDigit c).isSome := fun c => (digit_facts c).2.1
  induction str with
  | nil => simp [tryHex]
  | cons c str ih => simp [tryHex, hc, ih]

theorem isDigitsLoop_eq_true (str : List UInt8) :
    isDigitsLoop str = true ↔ ∀ c ∈ str, (decDigit c).isSome := by
  have hc : ∀ c : UInt8, ¬(charInt c > 0x39 ∨ charInt c < 0x30) ↔ (decDigit c).isSome :=
    fun c => (digit_facts c).2.2.1
  induction str with
  | nil => simp [isDigitsLoop]
  | cons c str ih =>
    rw [isDigitsLoop, List.forall_mem_cons, ← hc]
    split
    · simp_all
    · simp_all

theorem denotes_of_hexPrefix {str : List UInt8} (h : hexPrefix str) :
    denotes str = numeral 16 hexDigit (str.drop 2) :=
  if_pos ((hexPrefix_iff str).mp h)

theorem denotes_of_not_hexPrefix {str : List UInt8} (h : ¬hexPrefix str) :
    denotes str = numeral 10 decDigit str :=
  if_neg fun h' => h ((hexPrefix_iff str).mpr h')

section

variable {digit : UInt8 → Option ℕ} {str : List UInt8}

theorem numeral_of_digits (base : ℕ) (h : ∀ c ∈ str, (digit c).isSome) :
    numeral base digit str = some (Nat.ofDigits base (str.map fun c => (digit c).getD 0).reverse) :=
  if_pos (List.all_eq_true.mpr h)

theorem numeral_eq_none (base : ℕ) (h : ¬∀ c ∈ str, (digit c).isSome) :
    numeral base digit str = none :=
  if_neg fun hall => h (List.all_eq_true.mp hall)

theorem isSome_numeral (base : ℕ) :
    (numeral base digit str).isSome ↔ ∀ c ∈ str, (digit c).isSome := by
  by_cases h : ∀ c ∈ str, (digit c).isSome
  · rw [numeral_of_digits base h]
    exact iff_of_true rfl h
  · rw [numeral_eq_none base h]
    exact iff_of_false Bool.false_ne_true h

end

/-- **`is_digits` accepts exactly the numerals.** -/
theorem isDigits_iff (str : List UInt8) : isDigits str = true ↔ (denotes str).isSome := by
  rw [isDigits]
  by_cases hp : hexPrefix str
  · rw [denotes_of_hexPrefix hp, isSome_numeral, ← tryHex_eq_true]
    by_cases ht : tryHex (str.drop 2) = true
    · simp [hp, ht]
    · -- the string is no decimal numeral either, for its second character
      have hloop : ¬isDigitsLoop str = true := by
        rw [isDigitsLoop_eq_true]
        intro hall
        rcases str with _ | ⟨a, _ | ⟨b, str⟩⟩
        · exact absurd hp.1 (by decide)
        · exact absurd (show lower 0 = 0x78 from hp.2) (by decide)
        · exact (digit_facts b).2.2.2.1 hp.2 (hall b (by simp))
      simp [ht, hloop]
  · rw [denotes_of_not_hexPrefix hp, if_neg (fun h => hp h.1), isSome_numeral, isDigitsLoop_eq_true]

/-! ### The sums -/

/-- What the loop computes, whatever it takes each character for. -/
theorem sumLoop_append (base : ℤ) (rest : UInt8 → ℤ) (str : List UInt8) (c : UInt8) (sum : ℤ) :
    sumLoop base rest (str ++ [c]) sum ≡ sumLoop base rest str sum * base + rest c
      [ZMOD 2 ^ 32] := by
  induction str generalizing sum with
  | nil => exact Int.bmod_emod
  | cons d str ih => exact ih _

/-- A loop that takes each character for `err c` less than its value is short of the number by
what the errors amount to. -/
theorem sumLoop_add_err (base : ℕ) {rest : UInt8 → ℤ} (val err : UInt8 → ℕ) (str : List UInt8)
    (h : ∀ c ∈ str, rest c + err c = val c) :
    sumLoop base rest str 0 + (Nat.ofDigits base (str.map err).reverse : ℕ) ≡
      (Nat.ofDigits base (str.map val).reverse : ℕ) [ZMOD 2 ^ 32] := by
  induction str using List.reverseRecOn with
  | nil => exact Int.ModEq.refl _
  | append_singleton str c ih =>
    have hstep := sumLoop_append base rest str c 0
    have hprev := (ih fun d hd => h d (by simp [hd])).mul_right base
    have hc := h c (by simp)
    simp only [List.map_append, List.map_cons, List.map_nil, List.reverse_append,
      List.reverse_cons, List.reverse_nil, List.nil_append, List.cons_append, Nat.ofDigits_cons]
    set S := sumLoop (base : ℤ) rest str 0
    set E := Nat.ofDigits base (str.map err).reverse
    set V := Nat.ofDigits base (str.map val).reverse
    calc sumLoop (base : ℤ) rest (str ++ [c]) 0 + ((err c + base * E : ℕ) : ℤ)
        ≡ S * base + rest c + ((err c + base * E : ℕ) : ℤ) [ZMOD 2 ^ 32] := hstep.add_right _
      _ = (S + E) * base + (rest c + err c) := by push_cast; ring
      _ ≡ V * base + val c [ZMOD 2 ^ 32] := by rw [hc]; exact hprev.add_right _
      _ = ((val c + base * V : ℕ) : ℤ) := by push_cast; ring

/-! ### The errors -/

/-- By how much `atoi_hex` takes a digit for too little. -/
def hexErr (c : UInt8) : ℕ := ((hexDigit c).getD 0 - hexRest c).toNat

theorem hexErr_facts (c : UInt8) : (hexDigit c).isSome →
    hexRest c + hexErr c = ((hexDigit c).getD 0 : ℕ) ∧ (16 ∣ hexErr c ↔ Plain c) ∧
      (hexErr c = 0 ↔ Plain c) := by
  revert c
  exact forall_byte (by decide +kernel)

theorem hexRest_add_hexErr {c : UInt8} (h : (hexDigit c).isSome) :
    hexRest c + hexErr c = ((hexDigit c).getD 0 : ℕ) :=
  (hexErr_facts c h).1

/-- An error that 16 divides is none. -/
theorem sixteen_dvd_hexErr {c : UInt8} (h : (hexDigit c).isSome) : 16 ∣ hexErr c ↔ Plain c :=
  (hexErr_facts c h).2.1

theorem hexErr_eq_zero {c : UInt8} (h : (hexDigit c).isSome) : hexErr c = 0 ↔ Plain c :=
  (hexErr_facts c h).2.2

/-- The errors of a numeral vanish modulo `16 ^ k` only if its last `k` digits have none. -/
theorem pow_dvd_errors {str : List UInt8} (h : ∀ c ∈ str, (hexDigit c).isSome) (k : ℕ) :
    16 ^ k ∣ Nat.ofDigits 16 (str.map hexErr) ↔ ∀ c ∈ str.take k, Plain c := by
  induction str generalizing k with
  | nil => simp
  | cons c str ih =>
    have hc : (hexDigit c).isSome := h c (by simp)
    specialize ih fun d hd => h d (by simp [hd])
    cases k with
    | zero => simp
    | succ k =>
      rw [List.map_cons, Nat.ofDigits_cons, List.take_succ_cons, List.forall_mem_cons, ← ih k]
      have hzero := hexErr_eq_zero hc
      have hdvd := sixteen_dvd_hexErr hc
      constructor
      · intro hall
        -- the last digit first: 16 divides everything else
        have h16k : 16 ∣ 16 ^ (k + 1) := dvd_pow_self 16 k.succ_ne_zero
        have h16 : 16 ∣ hexErr c := (Nat.dvd_add_left (dvd_mul_right 16 _)).mp (h16k.trans hall)
        have hplain := hdvd.mp h16
        rw [hzero.mpr hplain, zero_add, pow_succ'] at hall
        exact ⟨hplain, Nat.dvd_of_mul_dvd_mul_left (by norm_num) hall⟩
      · rintro ⟨hplain, hrest⟩
        rw [hzero.mpr hplain, zero_add, pow_succ']
        exact Nat.mul_dvd_mul_left _ hrest

/-! ### Which numbers are right -/

theorem atoi_of_decimal {str : List UInt8} (h : ∀ c ∈ str, (decDigit c).isSome) :
    sumLoop 10 decRest str 0 ≡
      (Nat.ofDigits 10 (str.map fun c => (decDigit c).getD 0).reverse : ℕ) [ZMOD 2 ^ 32] := by
  have hrest : ∀ c : UInt8, (decDigit c).isSome →
      decRest c + (0 : ℕ) = ((decDigit c).getD 0 : ℕ) := fun c => (digit_facts c).2.2.2.2
  have hsum := sumLoop_add_err 10 _ (fun _ => 0) str fun c hc => hrest c (h c hc)
  have hzero : Nat.ofDigits 10 (str.map fun _ => 0).reverse = 0 := by
    rw [List.map_const', List.reverse_replicate]
    exact Nat.ofDigits_append_replicate_zero (b := 10) (k := str.length) []
  rw [hzero, Nat.cast_zero, add_zero] at hsum
  exact hsum

/-- A hexadecimal number is right if nothing that counts is wrong. -/
theorem atoiHex_iff {str : List UInt8} (h : ∀ c ∈ str, (hexDigit c).isSome) :
    atoiHex str ≡ (Nat.ofDigits 16 (str.map fun c => (hexDigit c).getD 0).reverse : ℕ)
        [ZMOD 2 ^ 32] ↔
      ∀ c ∈ str.reverse.take 8, Plain c := by
  have hsum := sumLoop_add_err 16 _ hexErr str fun c hc => hexRest_add_hexErr (h c hc)
  rw [← pow_dvd_errors (fun c hc => h c (List.mem_reverse.mp hc)) 8, List.map_reverse, atoiHex]
  generalize Nat.ofDigits 16 (str.map hexErr).reverse = E at hsum ⊢
  generalize Nat.ofDigits 16 (str.map fun c => (hexDigit c).getD 0).reverse = V at hsum ⊢
  generalize sumLoop (16 : ℕ) hexRest str 0 = S at hsum
  have h32 : (16 : ℕ) ^ 8 = 2 ^ 32 := by norm_num
  rw [h32]
  unfold Int.ModEq at hsum ⊢
  omega

/-- **The exact condition**: no hexadecimal numeral may have a `9` or a letter among its last
eight digits. -/
theorem numberRight_iff (str : List UInt8) :
    NumberRight str ↔
      ((denotes str).isSome → hexPrefix str → ∀ c ∈ (str.drop 2).reverse.take 8, Plain c) := by
  rw [NumberRight, and_iff_right (isDigits_iff str)]
  by_cases hp : hexPrefix str
  · rw [denotes_of_hexPrefix hp, isSome_numeral, atoi, if_pos hp]
    by_cases hall : ∀ c ∈ str.drop 2, (hexDigit c).isSome
    · rw [numeral_of_digits _ hall, ← atoiHex_iff hall]
      constructor
      · intro h _ _
        exact h _ rfl
      · rintro h v ⟨⟩
        exact h hall hp
    · rw [numeral_eq_none _ hall]
      exact iff_of_true (fun v hv => absurd hv (by simp)) fun h => absurd h hall
  · rw [denotes_of_not_hexPrefix hp, atoi, if_neg hp]
    refine iff_of_true ?_ fun _ h => absurd h hp
    intro v hv
    by_cases hall : ∀ c ∈ str, (decDigit c).isSome
    · rw [numeral_of_digits _ hall] at hv
      obtain rfl := Option.some.inj hv
      exact atoi_of_decimal hall
    · rw [numeral_eq_none _ hall] at hv
      exact absurd hv (by simp)

/-- `0x10` is 16, but `0x1f` is not 31. -/
theorem not_numberRight : ¬∀ str, str ≠ [] → NumberRight str := by
  intro h
  have hv := (h [0x30, 0x78, 0x31, 0x66] (List.cons_ne_nil _ _)).2 31 (by decide +kernel)
  exact absurd hv (by decide +kernel)

end Thunix.Shell
