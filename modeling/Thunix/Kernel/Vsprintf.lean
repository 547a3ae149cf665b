import Mathlib.Data.Int.DivMod
import Mathlib.Data.List.Basic
import Mathlib.Data.Nat.Digits.Lemmas
import Thunix.Lib.Word

/-!
# Formatted output

`vsprintf` of `lib/vsprintf.c`, the function behind `printk` and `sprintk`. A format is read
character by character, and what it stands for is written to a buffer, one character behind
another. The field of an integer is laid out by `number`.

A string is the list of the bytes before its NUL; the arguments are the words on the stack. What
`number` writes is said once, without its loops, by `Thunix.Kernel.number_eq`.
-/

namespace Thunix.Kernel

/-! ### The source -/

/-- The result of an arithmetic operation on `int`s. -/
def wrap (i : ℤ) : ℤ := Int.bmod i (2 ^ 32)

/-- `is_digit`. -/
def isDigit (c : UInt8) : Bool := 0x30 ≤ c && c ≤ 0x39

/-- `skip_atoi`: the number, and the string behind it. -/
def skipAtoi (i : ℤ) : List UInt8 → ℤ × List UInt8
  | [] => (i, [])
  | c :: s => if isDigit c then skipAtoi (wrap (i * 10 + c.toNat - 0x30)) s else (i, c :: s)

/-- The bits of `flags`. -/
structure Flags where
  /-- `ZEROPAD`. -/
  zeropad : Bool
  /-- `SIGN`. -/
  sign : Bool
  /-- `PLUS`. -/
  plus : Bool
  /-- `SPACE`. -/
  space : Bool
  /-- `LEFT`. -/
  left : Bool
  /-- `SPECIAL`. -/
  special : Bool
  /-- `SMALL`. -/
  small : Bool
deriving DecidableEq, Repr

/-- `flags = 0`. -/
def Flags.none : Flags := ⟨false, false, false, false, false, false, false⟩

/-- `digits[i]`. -/
def digits (small : Bool) (i : ℕ) : UInt8 :=
  if i < 10 then UInt8.ofNat (0x30 + i)
  else UInt8.ofNat ((if small then 0x61 else 0x41) + (i - 10))

/-- The loop `while (bound < n--) *str++ = c`: what it writes, and `n` behind it. -/
def fillWhile (bound : ℤ) (c : UInt8) (n : ℤ) : List UInt8 × ℤ :=
  if bound < n then
    let r := fillWhile bound c (n - 1)
    (c :: r.1, r.2)
  else ([], wrap (n - 1))
termination_by (n - bound).toNat

/-- The loop `while (--n > 0) *str++ = ' '`. -/
def blankWhile (n : ℤ) : List UInt8 × ℤ :=
  if n - 1 > 0 then
    let r := blankWhile (n - 1)
    (0x20 :: r.1, r.2)
  else ([], wrap (n - 1))
termination_by n.toNat

/-- The loop `while (num != 0) tmp[i++] = digits[do_div(num, base)]`, whose division is unsigned. -/
def tmpLoop (small : Bool) (base num : ℕ) : List UInt8 :=
  if num = 0 ∨ base < 2 then []
  else digits small (num % base) :: tmpLoop small base (num / base)
termination_by num
decreasing_by exact Nat.div_lt_self (by omega) (by omega)

/-- The second half of `number`, which writes the field: `size` is the room left to be filled. -/
def putField (type : Flags) (size precision : ℤ) (sign special tmp : List UInt8) : List UInt8 :=
  let c : UInt8 := if type.zeropad then 0x30 else 0x20
  let blanks := if ¬(type.zeropad ∨ type.left) then fillWhile 0 0x20 size else ([], size)
  let fill := if ¬type.left then fillWhile 0 c blanks.2 else ([], blanks.2)
  let zeros := fillWhile tmp.length 0x30 precision
  let behind := fillWhile 0 0x20 fill.2
  blanks.1 ++ sign ++ special ++ fill.1 ++ zeros.1 ++ tmp.reverse ++ behind.1

/-- `number`: what it writes to `str`, and nothing where it returns 0. -/
def number (num : UInt32) (base : ℕ) (size precision : ℤ) (type : Flags) :
    Option (List UInt8) :=
  let type := if type.left then { type with zeropad := false } else type
  if base < 2 ∨ base > 36 then none
  else
    let negative := type.sign = true ∧ toInt num < 0
    let sign : Option UInt8 := if negative then some 0x2D
      else if type.plus then some 0x2B
      else if type.space then some 0x20
      else none
    let num := if negative then -num else num
    let size := if sign.isSome then wrap (size - 1) else size
    let size := if type.special then
        if base = 16 then wrap (size - 2) else if base = 8 then wrap (size - 1) else size
      else size
    let tmp := if num = 0 then [0x30] else tmpLoop type.small base num.toNat
    let precision : ℤ := if tmp.length > precision then tmp.length else precision
    let special : List UInt8 := if type.special then
        if base = 8 then [0x30]
        else if base = 16 then [0x30, digits type.small 33]
        else []
      else []
    some (putField type (wrap (size - precision)) precision sign.toList special tmp)

/-- What `vsprintf` is given behind the format: the words that `va_arg` takes one after another,
and the string at an address. -/
structure Args where
  /-- The word with this number. -/
  word : ℕ → UInt32
  /-- The string that a word points to. -/
  string : UInt32 → List UInt8

/-- The state of `vsprintf`. -/
structure Out where
  /-- What has been written since `buf`. -/
  str : List UInt8
  /-- How many arguments have been taken. -/
  arg : ℕ
  /-- The words that `%n` has stored, with their addresses. -/
  stores : List (UInt32 × ℕ)
deriving DecidableEq, Repr

/-- Behind the characters `cs`. -/
def Out.put (out : Out) (cs : List UInt8) : Out := { out with str := out.str ++ cs }

/-- What the characters `-`, `+`, ` `, `#` and `0` set. -/
def flagOf (c : UInt8) (flags : Flags) : Option Flags :=
  if c = 0x2D then some { flags with left := true }
  else if c = 0x2B then some { flags with plus := true }
  else if c = 0x20 then some { flags with space := true }
  else if c = 0x23 then some { flags with special := true }
  else if c = 0x30 then some { flags with zeropad := true }
  else none

/-- The jumps to `repeat`. -/
def skipFlags (flags : Flags) : List UInt8 → Flags × List UInt8
  | [] => (flags, [])
  | c :: fmt =>
    match flagOf c flags with
    | some flags => skipFlags flags fmt
    | none => (flags, c :: fmt)

/-- What has been read of a directive, and where the format and the arguments go on. -/
structure Directive where
  flags : Flags
  fieldWidth : ℤ
  precision : ℤ
  fmt : List UInt8
  arg : ℕ

/-- The field width. A `*` takes an argument, and is not skipped. -/
def getWidth (va : Args) (flags : Flags) (fmt : List UInt8) (arg : ℕ) : Directive :=
  if isDigit (fmt.headD 0) then
    let r := skipAtoi 0 fmt
    ⟨flags, r.1, -1, r.2, arg⟩
  else if fmt.headD 0 = 0x2A then
    let w := toInt (va.word arg)
    if w < 0 then ⟨{ flags with left := true }, wrap (-w), -1, fmt, arg + 1⟩
    else ⟨flags, w, -1, fmt, arg + 1⟩
  else ⟨flags, -1, -1, fmt, arg⟩

/-- The precision. -/
def getPrecision (va : Args) (d : Directive) : Directive :=
  if d.fmt.headD 0 = 0x2E then
    let fmt := d.fmt.tail
    let d : Directive :=
      if isDigit (fmt.headD 0) then
        let r := skipAtoi 0 fmt
        { d with precision := r.1, fmt := r.2 }
      else if fmt.headD 0 = 0x2A then
        { d with precision := toInt (va.word d.arg), fmt := fmt.tail, arg := d.arg + 1 }
      else { d with fmt := fmt }
    if d.precision < 0 then { d with precision := 0 } else d
  else d

/-- The conversion qualifier, which nothing looks at again. -/
def getQualifier (d : Directive) : Directive :=
  let c := d.fmt.headD 0
  if c = 0x68 ∨ c = 0x6C ∨ c = 0x4C then { d with fmt := d.fmt.tail } else d

/-- The case `'c'`. -/
def putChar (d : Directive) (w : UInt32) : List UInt8 :=
  let before := if ¬d.flags.left then blankWhile d.fieldWidth else ([], d.fieldWidth)
  before.1 ++ w.toUInt8 :: (blankWhile before.2).1

/-- The case `'s'`. -/
def putString (d : Directive) (s : List UInt8) : List UInt8 :=
  let len : ℤ := wrap s.length
  let len := if d.precision < 0 then len else if len > d.precision then d.precision else len
  let before := if ¬d.flags.left then fillWhile len 0x20 d.fieldWidth else ([], d.fieldWidth)
  before.1 ++ s.take len.toNat ++ (fillWhile len 0x20 before.2).1

/-- A call of `number` by `vsprintf`. -/
def putNumber (va : Args) (d : Directive) (base : ℕ) (out : Out) : Option Out :=
  (number (va.word d.arg) base d.fieldWidth d.precision d.flags).map fun cs =>
    { out.put cs with arg := d.arg + 1 }

/-- The `switch` over the conversion. -/
def convert (va : Args) (d : Directive) (out : Out) : Option Out :=
  let c := d.fmt.headD 0
  if c = 0x63 then -- 'c'
    some { out.put (putChar d (va.word d.arg)) with arg := d.arg + 1 }
  else if c = 0x73 then -- 's'
    some { out.put (putString d (va.string (va.word d.arg))) with arg := d.arg + 1 }
  else if c = 0x6F then -- 'o'
    putNumber va d 8 out
  else if c = 0x70 then -- 'p'
    if d.fieldWidth = -1 then
      putNumber va { d with fieldWidth := 8, flags := { d.flags with zeropad := true } } 16 out
    else putNumber va d 16 out
  else if c = 0x78 then -- 'x'
    putNumber va { d with flags := { d.flags with small := true } } 16 out
  else if c = 0x58 then -- 'X'
    putNumber va d 16 out
  else if c = 0x64 ∨ c = 0x69 then -- 'd', 'i'
    putNumber va { d with flags := { d.flags with sign := true } } 10 out
  else if c = 0x75 then -- 'u'
    putNumber va d 10 out
  else if c = 0x6E then -- 'n'
    some { out with
      arg := d.arg + 1
      stores := out.stores ++ [(va.word d.arg, out.str.length)] }
  else -- another one, or the NUL
    some { out.put ((if c ≠ 0x25 then [0x25] else []) ++ (if c ≠ 0 then [c] else [])) with
      arg := d.arg }

/-- What is read of a directive up to its conversion. -/
def directive (va : Args) (fmt : List UInt8) (arg : ℕ) : Directive :=
  let r := skipFlags Flags.none fmt
  getQualifier (getPrecision va (getWidth va r.1 r.2 arg))

/-! ### What is read is shorter -/

theorem length_skipFlags (flags : Flags) (fmt : List UInt8) :
    (skipFlags flags fmt).2.length ≤ fmt.length := by
  induction fmt generalizing flags with
  | nil => exact le_rfl
  | cons c fmt ih =>
    rw [skipFlags]
    cases flagOf c flags with
    | none => exact le_rfl
    | some flags' => exact (ih flags').trans (by simp)

theorem length_skipAtoi (i : ℤ) (s : List UInt8) : (skipAtoi i s).2.length ≤ s.length := by
  induction s generalizing i with
  | nil => exact le_rfl
  | cons c s ih =>
    rw [skipAtoi]
    split
    · exact (ih _).trans (by simp)
    · exact le_rfl

theorem length_getWidth (va : Args) (flags : Flags) (fmt : List UInt8) (arg : ℕ) :
    (getWidth va flags fmt arg).fmt.length ≤ fmt.length := by
  rw [getWidth]
  split
  · exact length_skipAtoi 0 fmt
  · split
    · dsimp only
      split <;> exact le_rfl
    · exact le_rfl

theorem length_getPrecision (va : Args) (d : Directive) :
    (getPrecision va d).fmt.length ≤ d.fmt.length := by
  have htail : d.fmt.tail.length ≤ d.fmt.length := by simp
  rw [getPrecision]
  split
  · dsimp only
    have h : ∀ d' : Directive, d'.fmt.length ≤ d.fmt.length →
        (if d'.precision < 0 then { d' with precision := 0 } else d').fmt.length
          ≤ d.fmt.length := by
      intro d' hd'
      split <;> exact hd'
    apply h
    split
    · exact (length_skipAtoi 0 _).trans htail
    · split
      · simp only [List.length_tail]
        omega
      · exact htail
  · exact le_rfl

theorem length_directive (va : Args) (fmt : List UInt8) (arg : ℕ) :
    (directive va fmt arg).fmt.length ≤ fmt.length := by
  have hqualifier : ∀ d : Directive, (getQualifier d).fmt.length ≤ d.fmt.length := by
    intro d
    rw [getQualifier]
    split
    · simp
    · exact le_rfl
  calc (directive va fmt arg).fmt.length
      ≤ (getPrecision va (getWidth va (skipFlags Flags.none fmt).1
          (skipFlags Flags.none fmt).2 arg)).fmt.length := hqualifier _
    _ ≤ (getWidth va (skipFlags Flags.none fmt).1
          (skipFlags Flags.none fmt).2 arg).fmt.length := length_getPrecision va _
    _ ≤ (skipFlags Flags.none fmt).2.length := length_getWidth va _ _ arg
    _ ≤ fmt.length := length_skipFlags _ fmt

/-- The loop of `vsprintf`. -/
def vsprintfLoop (va : Args) : List UInt8 → Out → Option Out
  | [], out => some out
  | c :: fmt, out =>
    if c ≠ 0x25 then vsprintfLoop va fmt (out.put [c])
    else
      let d := directive va fmt out.arg
      (convert va d out).bind fun out' => vsprintfLoop va d.fmt.tail out'
termination_by fmt => fmt.length
decreasing_by
  · simp
  · have := length_directive va fmt out.arg
    simp only [List.length_tail, List.length_cons]
    omega

/-- `vsprintf`. Behind the characters written it puts a NUL, and it returns their number. -/
def vsprintf (va : Args) (fmt : List UInt8) : Option Out := vsprintfLoop va fmt ⟨[], 0, []⟩

/-! ### The loops -/

theorem wrap_of_mem {i : ℤ} (h : -2 ^ 31 ≤ i) (h' : i < 2 ^ 31) : wrap i = i :=
  Int.bmod_eq_of_le (by norm_num; omega) (by norm_num; omega)

/-- What a loop `while (bound < n--)` writes, and where it leaves `n`. -/
theorem fillWhile_eq (bound : ℤ) (c : UInt8) (n : ℤ) :
    fillWhile bound c n = (List.replicate (n - bound).toNat c, wrap (min n bound - 1)) := by
  induction hk : (n - bound).toNat generalizing n with
  | zero =>
    rw [fillWhile, if_neg (by omega), min_eq_left (by omega)]
    rfl
  | succ k ih =>
    have hstep : (n - 1 - bound).toNat = k := by omega
    rw [fillWhile, if_pos (by omega), ih _ hstep, min_eq_right (by omega : bound ≤ n - 1),
      min_eq_right (by omega : bound ≤ n)]
    rfl

theorem blankWhile_eq (n : ℤ) :
    blankWhile n = (List.replicate (n - 1).toNat 0x20, wrap (min (n - 1) 0)) := by
  induction hk : (n - 1).toNat generalizing n with
  | zero =>
    rw [blankWhile, if_neg (by omega), min_eq_left (by omega)]
    rfl
  | succ k ih =>
    have hstep : (n - 1 - 1).toNat = k := by omega
    rw [blankWhile, if_pos (by omega), ih _ hstep]
    have hmin : min (n - 1 - 1) 0 = min (n - 1) 0 := by omega
    rw [hmin]
    rfl

/-- The digits that are divided off are those of the number. -/
theorem tmpLoop_eq (small : Bool) {base : ℕ} (hbase : 2 ≤ base) (num : ℕ) :
    tmpLoop small base num = (Nat.digits base num).map (digits small) := by
  induction num using Nat.strongRecOn with
  | _ num ih =>
    rw [tmpLoop]
    by_cases h0 : num = 0
    · rw [if_pos (Or.inl h0), h0, Nat.digits_zero, List.map_nil]
    · have hpos : 0 < num := Nat.pos_of_ne_zero h0
      rw [if_neg (by omega), ih _ (Nat.div_lt_self hpos hbase),
        Nat.digits_def' (by omega : 1 < base) hpos, List.map_cons]

/-! ### The field of an integer -/

/-- A number in digits, the first counting most. Zero has one digit. -/
def numeral (small : Bool) (base num : ℕ) : List UInt8 :=
  if num = 0 then [0x30] else ((Nat.digits base num).map (digits small)).reverse

/-- The sign in front of a number. -/
def signOf (type : Flags) (num : UInt32) : List UInt8 :=
  if type.sign = true ∧ toInt num < 0 then [0x2D]
  else if type.plus then [0x2B]
  else if type.space then [0x20]
  else []

/-- The mark for octal and hexadecimal numbers. -/
def markOf (type : Flags) (base : ℕ) : List UInt8 :=
  if type.special then
    if base = 8 then [0x30] else if base = 16 then [0x30, digits type.small 33] else []
  else []

/-- The number without its sign. -/
def magnitude (type : Flags) (num : UInt32) : ℕ :=
  if type.sign = true ∧ toInt num < 0 then (toInt num).natAbs else num.toNat

/-- The digits of a number, at least as many as the precision. -/
def bodyOf (type : Flags) (base : ℕ) (precision : ℤ) (num : UInt32) : List UInt8 :=
  let ds := numeral type.small base (magnitude type num)
  List.replicate (precision.toNat - ds.length) 0x30 ++ ds

/-- **The field of an integer**: sign, mark and digits, filled up to the width on the left, on the
right, or by zeros in between. -/
def intField (num : UInt32) (base : ℕ) (size precision : ℤ) (type : Flags) : List UInt8 :=
  let lead := signOf type num ++ markOf type base
  let body := bodyOf type base precision num
  let room := size.toNat - (lead.length + body.length)
  if type.left then lead ++ body ++ List.replicate room 0x20
  else if type.zeropad then lead ++ List.replicate room 0x30 ++ body
  else List.replicate room 0x20 ++ lead ++ body

/-- Negating an `int` gives its absolute value as an unsigned number, also for the least one. -/
theorem toNat_neg_of_neg {num : UInt32} (h : toInt num < 0) :
    (-num).toNat = (toInt num).natAbs := by
  have hlt := num.toNat_lt
  have hsize : UInt32.size = 2 ^ 32 := rfl
  rw [UInt32.toNat_neg, hsize]
  rw [toInt] at h ⊢
  split_ifs at h ⊢ <;> omega

theorem length_numeral_pos (small : Bool) (base num : ℕ) :
    0 < (numeral small base num).length := by
  rw [numeral]
  split
  · exact Nat.one_pos
  · rw [List.length_reverse, List.length_map]
    exact List.length_pos_iff.mpr (Nat.digits_ne_nil_iff_ne_zero.mpr ‹_›)

theorem length_numeral_le (small : Bool) {base : ℕ} (hbase : 2 ≤ base) {num : ℕ}
    (h : num < 2 ^ 32) : (numeral small base num).length ≤ 32 := by
  rw [numeral]
  split
  · simp
  · rw [List.length_reverse, List.length_map]
    refine (Nat.digits_length_le_iff (by omega) num).mpr (h.trans_le ?_)
    exact Nat.pow_le_pow_left hbase 32

section

variable (num : UInt32) (type : Flags)

theorem magnitude_lt : magnitude type num < 2 ^ 32 := by
  have := num.toNat_lt
  rw [magnitude]
  split_ifs with h
  · rw [← toNat_neg_of_neg h.2]
    exact UInt32.toNat_lt _
  · exact this

/-- The number whose digits are written. -/
theorem toNat_abs :
    (if type.sign = true ∧ toInt num < 0 then -num else num).toNat = magnitude type num := by
  rw [magnitude]
  split_ifs with h
  · exact toNat_neg_of_neg h.2
  · rfl

theorem tmp_eq {base : ℕ} (hbase : 2 ≤ base) (num : UInt32) :
    (if num = 0 then [0x30] else tmpLoop type.small base num.toNat) =
      (numeral type.small base num.toNat).reverse := by
  rw [numeral]
  by_cases h : num = 0
  · rw [if_pos h, h]
    rfl
  · have hnat : num.toNat ≠ 0 := fun h' => h (UInt32.toNat_inj.mp h')
    rw [if_neg h, if_neg hnat, List.reverse_reverse, tmpLoop_eq _ hbase]

theorem length_signOf : (signOf type num).length ≤ 1 := by
  rw [signOf]
  split_ifs <;> simp

theorem length_markOf (base : ℕ) : (markOf type base).length ≤ 2 := by
  rw [markOf]
  split_ifs <;> simp

/-- The room that the mark takes. -/
theorem size_mark {base : ℕ} {size : ℤ} (h : -2 ^ 31 + 2 ≤ size) (h' : size < 2 ^ 31) :
    (if type.special then
        if base = 16 then wrap (size - 2) else if base = 8 then wrap (size - 1) else size
      else size) = size - (markOf type base).length := by
  rw [markOf]
  by_cases hspecial : type.special = true
  · rw [if_pos hspecial, if_pos hspecial]
    by_cases h8 : base = 8
    · subst h8
      rw [if_neg (by decide), if_pos rfl, if_pos rfl]
      exact wrap_of_mem (by omega) (by omega)
    · rw [if_neg h8, if_neg h8]
      split_ifs
      · exact wrap_of_mem (by omega) (by omega)
      · simp
  · rw [if_neg hspecial, if_neg hspecial]
    simp

/-- The room that the sign takes. -/
theorem size_sign {size : ℤ} (h : -2 ^ 31 + 1 ≤ size) (h' : size < 2 ^ 31) {sign : Option UInt8}
    (hsign : sign.toList = signOf type num) :
    (if sign.isSome then wrap (size - 1) else size) = size - (signOf type num).length := by
  rw [← hsign]
  cases sign with
  | none => simp
  | some c =>
    rw [Option.isSome_some, if_pos rfl, wrap_of_mem (by omega) (by omega)]
    rfl

end

/-- The loops that fill a field: those in front of a field, behind its sign and behind its digits
write nothing but in one place. -/
theorem putField_eq (type : Flags) {size precision : ℤ} (sign special tmp : List UInt8)
    (h : -2 ^ 31 + 2 ≤ size) (h' : size < 2 ^ 31) :
    putField type size precision sign special tmp =
      let lead := sign ++ special
      let body := List.replicate (precision - tmp.length).toNat 0x30 ++ tmp.reverse
      if type.left then lead ++ body ++ List.replicate size.toNat 0x20
      else if type.zeropad then lead ++ List.replicate size.toNat 0x30 ++ body
      else List.replicate size.toNat 0x20 ++ lead ++ body := by
  have hnone : ∀ (c : UInt8) (n : ℤ), n ≤ 0 → (fillWhile 0 c n).1 = [] := by
    intro c n hn
    rw [fillWhile_eq, sub_zero, Int.toNat_of_nonpos hn, List.replicate_zero]
  have hfill : ∀ c : UInt8, fillWhile 0 c size =
      (List.replicate size.toNat c, min size 0 - 1) := by
    intro c
    rw [fillWhile_eq, sub_zero, wrap_of_mem (by omega) (by omega)]
  have hagain : ∀ c : UInt8, (fillWhile 0 c (min size 0 - 1)).2 ≤ 0 := by
    intro c
    rw [fillWhile_eq, wrap_of_mem (by omega) (by omega)]
    omega
  have hzeros : (fillWhile tmp.length 0x30 precision).1 =
      List.replicate (precision - tmp.length).toNat 0x30 := by
    rw [fillWhile_eq]
  rw [putField]
  dsimp only
  rw [hzeros]
  by_cases hleft : type.left = true
  · -- the digits come first
    simp [hleft, hfill, List.append_assoc]
  · by_cases hzero : type.zeropad = true
    · simp [hleft, hzero, hfill, hnone _ (min size 0 - 1) (by omega), List.append_assoc,
        -List.replicate_append_replicate]
    · simp [hleft, hzero, hfill, hnone _ (min size 0 - 1) (by omega), hnone _ _ (hagain _),
        List.append_assoc]

/-- **What `number` writes**, whatever the number and the flags. -/
theorem number_eq (num : UInt32) {base : ℕ} (hbase : 2 ≤ base) (hbase' : base ≤ 36)
    {size precision : ℤ} (type : Flags) (hsize : -1 ≤ size) (hsize' : size < 2 ^ 31)
    (hprecision : precision ≤ 2 ^ 31 - 6) :
    number num base size precision type = some (intField num base size precision type) := by
  have hlead := length_signOf num type
  have hmark := length_markOf type base
  have hdigits := length_numeral_pos type.small base (magnitude type num)
  have hshort := length_numeral_le type.small hbase (magnitude_lt num type)
  set ds := numeral type.small base (magnitude type num) with hds
  -- the flag that is cleared first is read by `putField` only
  set type' := if type.left then { type with zeropad := false } else type with htype'
  have hsame : type'.sign = type.sign ∧ type'.plus = type.plus ∧ type'.space = type.space ∧
      type'.left = type.left ∧ type'.special = type.special ∧ type'.small = type.small := by
    rw [htype']
    split <;> simp
  obtain ⟨h1, h2, h3, h4, h5, h6⟩ := hsame
  have hzeropad : type.left = false → type'.zeropad = type.zeropad := by
    intro h
    rw [htype', h]
    rfl
  rw [number]
  simp only [← htype', h1, h2, h3, h5, h6]
  rw [if_neg (by omega)]
  set sign : Option UInt8 := if type.sign = true ∧ toInt num < 0 then some 0x2D
    else if type.plus then some 0x2B else if type.space then some 0x20 else none with hsign
  have hsign' : sign.toList = signOf type num := by
    rw [hsign, signOf]
    split_ifs <;> rfl
  rw [size_sign num type (by omega) hsize' hsign', size_mark type (by omega) (by omega),
    tmp_eq type hbase, toNat_abs, ← hds, List.length_reverse]
  have hprec : (if (ds.length : ℤ) > precision then (ds.length : ℤ) else precision) =
      max precision ds.length := by
    split_ifs <;> omega
  rw [hprec, wrap_of_mem (by omega) (by omega), putField_eq _ _ _ _ (by omega) (by omega)]
  have hroom : (size - (signOf type num).length - (markOf type base).length -
      max precision ds.length).toNat = size.toNat - ((signOf type num ++ markOf type base).length +
        (bodyOf type base precision num).length) := by
    rw [bodyOf, ← hds, List.length_append, List.length_append, List.length_replicate]
    omega
  have hbody : List.replicate (max precision ds.length - ds.length).toNat 0x30 ++ ds =
      bodyOf type base precision num := by
    rw [bodyOf, ← hds]
    congr 2
    omega
  rw [intField, hsign', h4, hroom, List.length_reverse, List.reverse_reverse, hbody]
  change some _ = some _
  by_cases hleft : type.left = true
  · simp only [hleft, if_true]
    rfl
  · simp only [hleft, hzeropad (Bool.eq_false_iff.mpr hleft)]
    rfl

end Thunix.Kernel
