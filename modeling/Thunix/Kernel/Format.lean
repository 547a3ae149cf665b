import Thunix.Kernel.Vsprintf

/-!
# What a format means

A format is a list of items (`Thunix.Kernel.Item`): characters that stand for themselves, and
directives. Each has a text, and does something to the characters written so far and the arguments
left (`Thunix.Kernel.Item.run`). `vsprintf` on the text of a list of items does what the items do,
one after another (`Thunix.Kernel.vsprintf_text`). So the texts of directives need no separators,
and whatever flags, width and precision a directive has, what comes behind it is not concerned.

The exception is a width that is given by `*`. Its argument is taken, but the `*` is not skipped, so
that it is taken for the conversion (`Thunix.Kernel.vsprintf_star`).
-/

namespace Thunix.Kernel

/-! ### Items -/

/-- A flag of a directive. -/
inductive Flag
  | minus | plus | space | special | zero
deriving DecidableEq, Repr

/-- The character of a flag. -/
def Flag.char : Flag → UInt8
  | .minus => 0x2D
  | .plus => 0x2B
  | .space => 0x20
  | .special => 0x23
  | .zero => 0x30

/-- What a flag sets. -/
def Flag.set (flags : Flags) : Flag → Flags
  | .minus => { flags with left := true }
  | .plus => { flags with plus := true }
  | .space => { flags with space := true }
  | .special => { flags with special := true }
  | .zero => { flags with zeropad := true }

/-- The precision of a directive, as it is written. -/
inductive Precision
  /-- None. -/
  | none
  /-- A point and digits, of which there may be none. -/
  | digits (ds : List (Fin 10))
  /-- A point and a `*`. -/
  | star
deriving DecidableEq, Repr

/-- The conversions. -/
inductive Conv
  | character | string | octal | pointer | hex | upperHex | decimal | integer | unsigned | count
  | percent
deriving DecidableEq, Repr

/-- The character of a conversion. -/
def Conv.char : Conv → UInt8
  | .character => 0x63
  | .string => 0x73
  | .octal => 0x6F
  | .pointer => 0x70
  | .hex => 0x78
  | .upperHex => 0x58
  | .decimal => 0x64
  | .integer => 0x69
  | .unsigned => 0x75
  | .count => 0x6E
  | .percent => 0x25

/-- The qualifiers. -/
inductive Qualifier
  | h | l | L
deriving DecidableEq, Repr

/-- The character of a qualifier. -/
def Qualifier.char : Qualifier → UInt8
  | .h => 0x68
  | .l => 0x6C
  | .L => 0x4C

/-- A directive, as it is written. A width that began with a zero would be a flag and a width. -/
structure Spec where
  flags : List Flag
  width : List (Fin 10)
  precision : Precision
  qualifier : Option Qualifier
  conv : Conv
  /-- A width does not begin with a zero. -/
  width_head : width.head? ≠ some 0

/-- An item of a format. -/
inductive Item
  /-- A character that stands for itself, which is neither NUL nor `%`. -/
  | lit (c : UInt8) (h : c ≠ 0 ∧ c ≠ 0x25)
  /-- A directive. -/
  | dir (spec : Spec)

/-- A digit as a character. -/
def digitChar (d : Fin 10) : UInt8 := UInt8.ofNat (0x30 + d)

/-- The number that digits denote. -/
def digitsValue (ds : List (Fin 10)) : ℕ := Nat.ofDigits 10 (ds.map Fin.val).reverse

/-- The text of a precision. -/
def Precision.text : Precision → List UInt8
  | .none => []
  | .digits ds => 0x2E :: ds.map digitChar
  | .star => [0x2E, 0x2A]

/-- The text of a directive. -/
def Spec.text (spec : Spec) : List UInt8 :=
  0x25 :: (spec.flags.map Flag.char ++ (spec.width.map digitChar ++ (spec.precision.text ++
    ((spec.qualifier.map Qualifier.char).toList ++ [spec.conv.char]))))

/-- The text of an item. -/
def Item.text : Item → List UInt8
  | .lit c _ => [c]
  | .dir spec => spec.text

/-! ### What they do -/

/-- The flags of a directive, together. -/
def Spec.allFlags (spec : Spec) : Flags := spec.flags.foldl Flag.set Flags.none

/-- The width, which is -1 if there is none. -/
def Spec.widthValue (spec : Spec) : ℤ := if spec.width = [] then -1 else digitsValue spec.width

/-- The precision, which is -1 if there is none. -/
def Precision.value (va : Args) (arg : ℕ) : Precision → ℤ
  | .none => -1
  | .digits ds => digitsValue ds
  | .star => max (toInt (va.word arg)) 0

/-- How many arguments a precision takes. -/
def Precision.args : Precision → ℕ
  | .star => 1
  | _ => 0

/-- A field filled up with blanks. -/
def justify (left : Bool) (width : ℕ) (s : List UInt8) : List UInt8 :=
  let room := List.replicate (width - s.length) 0x20
  if left then s ++ room else room ++ s

/-- The field that a conversion of an integer writes. -/
def Conv.field (num : UInt32) (width precision : ℤ) (flags : Flags) : Conv → List UInt8
  | .octal => intField num 8 width precision flags
  | .pointer =>
    if width = -1 then intField num 16 8 precision { flags with zeropad := true }
    else intField num 16 width precision flags
  | .hex => intField num 16 width precision { flags with small := true }
  | .upperHex => intField num 16 width precision flags
  | .decimal => intField num 10 width precision { flags with sign := true }
  | .integer => intField num 10 width precision { flags with sign := true }
  | .unsigned => intField num 10 width precision flags
  | _ => []

/-- **What a directive does.** -/
def Spec.run (va : Args) (spec : Spec) (out : Out) : Out :=
  let precision := spec.precision.value va out.arg
  let arg := out.arg + spec.precision.args
  let word := va.word arg
  match spec.conv with
  | .character =>
    { out.put (justify spec.allFlags.left spec.widthValue.toNat [word.toUInt8]) with
      arg := arg + 1 }
  | .string =>
    let s := va.string word
    let s := if precision < 0 then s else s.take precision.toNat
    { out.put (justify spec.allFlags.left spec.widthValue.toNat s) with arg := arg + 1 }
  | .count => { out with arg := arg + 1, stores := out.stores ++ [(word, out.str.length)] }
  | .percent => { out.put [0x25] with arg := arg }
  | conv =>
    { out.put (conv.field word spec.widthValue precision spec.allFlags) with arg := arg + 1 }

/-- What an item does. -/
def Item.run (va : Args) (out : Out) : Item → Out
  | .lit c _ => out.put [c]
  | .dir spec => spec.run va out

/-- The numbers that a directive meets are such that no `int` overflows. -/
structure Spec.Fits (va : Args) (spec : Spec) (out : Out) : Prop where
  width : digitsValue spec.width < 2 ^ 31
  precision : spec.precision.value va out.arg ≤ 2 ^ 31 - 6
  string : spec.conv = .string →
    (va.string (va.word (out.arg + spec.precision.args))).length < 2 ^ 31

/-- The directives of a format are such that no `int` overflows. -/
def Fits (va : Args) : List Item → Out → Prop
  | [], _ => True
  | .lit c _ :: items, out => Fits va items (out.put [c])
  | .dir spec :: items, out => spec.Fits va out ∧ Fits va items (spec.run va out)

/-! ### Reading a directive -/

section

variable {va : Args}

theorem flagOf_char (flag : Flag) (flags : Flags) :
    flagOf flag.char flags = some (flag.set flags) := by
  cases flag <;> rfl

/-- The flags end where no flag follows. -/
theorem skipFlags_text (fs : List Flag) (flags : Flags) {rest : List UInt8}
    (h : ∀ flags, flagOf (rest.headD 0) flags = none) :
    skipFlags flags (fs.map Flag.char ++ rest) = (fs.foldl Flag.set flags, rest) := by
  induction fs generalizing flags with
  | nil =>
    cases rest with
    | nil => rfl
    | cons c rest =>
      rw [List.map_nil, List.nil_append, skipFlags, show flagOf c flags = none from h flags]
      rfl
  | cons f fs ih =>
    rw [List.map_cons, List.cons_append, skipFlags, flagOf_char]
    exact ih (f.set flags)

theorem toNat_digitChar (d : Fin 10) : (digitChar d).toNat = 0x30 + d := by
  have := d.isLt
  rw [digitChar, UInt8.toNat_ofNat']
  omega

theorem isDigit_digitChar : ∀ d : Fin 10, isDigit (digitChar d) = true := by decide

theorem digitsValue_cons (d : Fin 10) (ds : List (Fin 10)) :
    digitsValue (d :: ds) = d * 10 ^ ds.length + digitsValue ds := by
  rw [digitsValue, List.map_cons, List.reverse_cons, Nat.ofDigits_append, Nat.ofDigits_singleton,
    List.length_reverse, List.length_map, digitsValue]
  ring

/-- The digits end where no digit follows, and the number is the one they denote. -/
theorem skipAtoi_text (ds : List (Fin 10)) {i : ℕ} {rest : List UInt8}
    (hrest : isDigit (rest.headD 0) = false) (h : i * 10 ^ ds.length + digitsValue ds < 2 ^ 31) :
    skipAtoi i (ds.map digitChar ++ rest) =
      (((i * 10 ^ ds.length + digitsValue ds : ℕ) : ℤ), rest) := by
  induction ds generalizing i with
  | nil =>
    have h0 : digitsValue [] = 0 := rfl
    have hi : i * 10 ^ ([] : List (Fin 10)).length + digitsValue [] = i := by
      rw [h0, List.length_nil, pow_zero, mul_one, add_zero]
    rw [hi]
    cases rest with
    | nil => rfl
    | cons c rest =>
      have hc : isDigit c = false := hrest
      rw [List.map_nil, List.nil_append, skipAtoi, hc]
      rfl
  | cons d ds ih =>
    have hvalue : (i * 10 + d) * 10 ^ ds.length + digitsValue ds =
        i * 10 ^ (d :: ds).length + digitsValue (d :: ds) := by
      rw [digitsValue_cons, List.length_cons]
      ring
    have hle : i * 10 + d ≤ (i * 10 + d) * 10 ^ ds.length :=
      Nat.le_mul_of_pos_right _ (by positivity)
    have hstep : wrap (i * 10 + (digitChar d).toNat - 0x30) = ((i * 10 + d : ℕ) : ℤ) := by
      rw [toNat_digitChar, wrap_of_mem]
      · push_cast
        ring
      · push_cast
        omega
      · push_cast
        omega
    rw [List.map_cons, List.cons_append, skipAtoi, isDigit_digitChar, if_pos rfl, hstep,
      ih (by omega), hvalue]

/-- The text of a directive from the qualifier on, and what follows. -/
def Spec.ending (spec : Spec) (rest : List UInt8) : List UInt8 :=
  (spec.qualifier.map Qualifier.char).toList ++ spec.conv.char :: rest

/-- A character that none of the parts of a directive before the qualifier begins with. -/
def Ends (c : UInt8) : Prop :=
  (∀ flags, flagOf c flags = none) ∧ isDigit c = false ∧ c ≠ 0x2A ∧ c ≠ 0x2E

theorem ends_qualifier (q : Qualifier) : Ends q.char := by
  cases q <;> exact ⟨fun _ => rfl, rfl, by decide, by decide⟩

theorem ends_conv (conv : Conv) : Ends conv.char := by
  cases conv <;> exact ⟨fun _ => rfl, rfl, by decide, by decide⟩

theorem Spec.ends_ending (spec : Spec) (rest : List UInt8) :
    Ends ((spec.ending rest).headD 0) := by
  rw [Spec.ending]
  cases spec.qualifier with
  | none => exact ends_conv spec.conv
  | some q => exact ends_qualifier q

/-- The qualifier is skipped. -/
theorem getQualifier_text (spec : Spec) (rest : List UInt8) (flags : Flags) (width precision : ℤ)
    (arg : ℕ) :
    getQualifier ⟨flags, width, precision, spec.ending rest, arg⟩ =
      ⟨flags, width, precision, spec.conv.char :: rest, arg⟩ := by
  rw [Spec.ending, getQualifier]
  cases spec.qualifier with
  | some q => cases q <;> rfl
  | none => cases spec.conv <;> rfl

/-- The precision is read. -/
theorem getPrecision_text (spec : Spec) (rest : List UInt8) (flags : Flags) (width : ℤ) (arg : ℕ)
    (h : spec.precision.value va arg < 2 ^ 31) :
    getPrecision va
        ⟨flags, width, -1, spec.precision.text ++ spec.ending rest, arg⟩ =
      ⟨flags, width, spec.precision.value va arg, spec.ending rest,
        arg + spec.precision.args⟩ := by
  obtain ⟨-, hdigit, hstar, hpoint⟩ := spec.ends_ending rest
  cases hp : spec.precision with
  | none =>
    rw [getPrecision]
    exact if_neg hpoint
  | star =>
    rw [getPrecision]
    change (if toInt (va.word arg) < 0 then _ else _ : Directive) = _
    have hmax : (Precision.star.value va arg : ℤ) = max (toInt (va.word arg)) 0 := rfl
    rw [hmax]
    split
    · rw [max_eq_right (by omega)]
      rfl
    · rw [max_eq_left (by omega)]
      rfl
  | digits ds =>
    rw [hp] at h
    have hvalue : Precision.value va arg (.digits ds) = digitsValue ds := rfl
    rw [hvalue] at h ⊢
    rw [getPrecision]
    cases ds with
    | nil =>
      simp only [Precision.text, List.map_nil, List.cons_append, List.nil_append,
        List.headD_cons, List.tail_cons, if_true, hdigit, if_neg hstar]
      rfl
    | cons d ds =>
      have hread := skipAtoi_text (d :: ds) (i := 0) hdigit (by omega)
      rw [zero_mul, zero_add] at hread
      have hread' : skipAtoi 0 ((d :: ds).map digitChar ++ spec.ending rest) =
        ((digitsValue (d :: ds) : ℤ), spec.ending rest) := hread
      have hhead : isDigit (((d :: ds).map digitChar ++ spec.ending rest).headD 0) = true :=
        isDigit_digitChar d
      have hneg : ¬((digitsValue (d :: ds) : ℤ) < 0) := by omega
      simp only [Precision.text, List.cons_append, List.headD_cons, List.tail_cons, if_true,
        hhead, hread', if_neg hneg]
      rfl

theorem Spec.ends_precision (spec : Spec) (rest : List UInt8) :
    let c := (spec.precision.text ++ spec.ending rest).headD 0
    (∀ flags, flagOf c flags = none) ∧ isDigit c = false ∧ c ≠ 0x2A := by
  obtain ⟨hflag, hdigit, hstar, -⟩ := spec.ends_ending rest
  have hpoint : (0x2E : UInt8) ≠ 0x2A := by decide
  cases spec.precision with
  | none => exact ⟨hflag, hdigit, hstar⟩
  | digits ds => exact ⟨fun _ => rfl, rfl, hpoint⟩
  | star => exact ⟨fun _ => rfl, rfl, hpoint⟩

/-- The width is read. -/
theorem getWidth_text (spec : Spec) (rest : List UInt8) (flags : Flags) (arg : ℕ)
    (h : digitsValue spec.width < 2 ^ 31) :
    getWidth va flags (spec.width.map digitChar ++ (spec.precision.text ++ spec.ending rest)) arg =
      ⟨flags, spec.widthValue, -1, spec.precision.text ++ spec.ending rest, arg⟩ := by
  obtain ⟨-, hdigit, hstar⟩ := spec.ends_precision rest
  rw [Spec.widthValue, getWidth]
  cases hw : spec.width with
  | nil =>
    simp only [List.map_nil, List.nil_append, hdigit, if_neg hstar]
    rfl
  | cons d ds =>
    rw [hw] at h
    have hread := skipAtoi_text (d :: ds) (i := 0) hdigit (by omega)
    rw [zero_mul, zero_add] at hread
    have hhead : isDigit (((d :: ds).map digitChar ++
        (spec.precision.text ++ spec.ending rest)).headD 0) = true := isDigit_digitChar d
    rw [if_pos hhead, if_neg (List.cons_ne_nil _ _)]
    exact congrArg (fun r : ℤ × List UInt8 => (⟨flags, r.1, -1, r.2, arg⟩ : Directive)) hread

/-- No digit but zero is a flag. -/
theorem flagOf_digitChar : ∀ d : Fin 10, d ≠ 0 → ∀ flags, flagOf (digitChar d) flags = none := by
  intro d hd flags
  have hne : ∀ d : Fin 10, d ≠ 0 → digitChar d ≠ 0x2D ∧ digitChar d ≠ 0x2B ∧ digitChar d ≠ 0x20 ∧
      digitChar d ≠ 0x23 ∧ digitChar d ≠ 0x30 := by decide
  obtain ⟨h1, h2, h3, h4, h5⟩ := hne d hd
  rw [flagOf, if_neg h1, if_neg h2, if_neg h3, if_neg h4, if_neg h5]

theorem Spec.text_eq (spec : Spec) (rest : List UInt8) :
    spec.text ++ rest = 0x25 :: (spec.flags.map Flag.char ++
      (spec.width.map digitChar ++ (spec.precision.text ++ spec.ending rest))) := by
  simp [Spec.text, Spec.ending]

variable (va) in
/-- **A directive is read as it is written.** -/
theorem directive_text (spec : Spec) (rest : List UInt8) (arg : ℕ)
    (hwidth : digitsValue spec.width < 2 ^ 31)
    (hprecision : spec.precision.value va arg < 2 ^ 31) :
    directive va (spec.text ++ rest).tail arg =
      ⟨spec.allFlags, spec.widthValue, spec.precision.value va arg, spec.conv.char :: rest,
        arg + spec.precision.args⟩ := by
  have hflag : ∀ flags, flagOf ((spec.width.map digitChar ++
      (spec.precision.text ++ spec.ending rest)).headD 0) flags = none := by
    have hhead := spec.width_head
    cases hw : spec.width with
    | nil => exact (spec.ends_precision rest).1
    | cons d ds =>
      rw [hw] at hhead
      exact flagOf_digitChar d fun h => hhead (by rw [h]; rfl)
  rw [spec.text_eq, List.tail_cons, directive, skipFlags_text _ _ hflag]
  dsimp only
  rw [getWidth_text spec rest _ arg hwidth, getPrecision_text spec rest _ _ arg hprecision,
    getQualifier_text]
  rfl

/-! ### Carrying a directive out -/

theorem putChar_eq (d : Directive) (w : UInt32) (h : -1 ≤ d.fieldWidth) :
    putChar d w = justify d.flags.left d.fieldWidth.toNat [w.toUInt8] := by
  have hroom : (d.fieldWidth - 1).toNat = d.fieldWidth.toNat - 1 := by omega
  rw [putChar, justify]
  by_cases hleft : d.flags.left = true
  · rw [if_neg (not_not_intro hleft), if_pos hleft, blankWhile_eq, hroom]
    rfl
  · have hagain : (blankWhile (min (d.fieldWidth - 1) 0)).1 = [] := by
      rw [blankWhile_eq, Int.toNat_of_nonpos (by omega)]
      rfl
    rw [if_pos hleft, if_neg hleft, blankWhile_eq, wrap_of_mem (by omega) (by omega), hagain,
      hroom]
    rfl

theorem putString_eq (d : Directive) (s : List UInt8) (hs : s.length < 2 ^ 31)
    (h : -1 ≤ d.fieldWidth) (h' : d.fieldWidth < 2 ^ 31) :
    putString d s = justify d.flags.left d.fieldWidth.toNat
      (if d.precision < 0 then s else s.take d.precision.toNat) := by
  set s' := if d.precision < 0 then s else s.take d.precision.toNat with hs'
  have hlen : (if d.precision < 0 then (s.length : ℤ) else
      if (s.length : ℤ) > d.precision then d.precision else s.length) = s'.length := by
    rw [hs']
    split_ifs
    · rfl
    · rw [List.length_take]
      omega
    · rw [List.length_take]
      omega
  have htake : s.take s'.length = s' := by
    rw [hs']
    split_ifs
    · exact List.take_length
    · rw [List.length_take, ← List.take_take, List.take_length]
  have hshort : s'.length ≤ s.length := by
    rw [hs']
    split_ifs
    · exact le_rfl
    · exact List.length_take_le' _ _
  have hroom : (d.fieldWidth - s'.length).toNat = d.fieldWidth.toNat - s'.length := by omega
  rw [putString, justify]
  rw [wrap_of_mem (by omega) (by omega), hlen, Int.toNat_natCast, htake]
  by_cases hleft : d.flags.left = true
  · rw [if_neg (not_not_intro hleft), if_pos hleft, fillWhile_eq, hroom]
    rfl
  · have hagain : (fillWhile s'.length 0x20 (min d.fieldWidth s'.length - 1)).1 = [] := by
      rw [fillWhile_eq, Int.toNat_of_nonpos (by omega)]
      rfl
    rw [if_pos hleft, if_neg hleft, fillWhile_eq, wrap_of_mem (by omega) (by omega), hagain,
      hroom, List.append_nil]

theorem putNumber_eq (d : Directive) {base : ℕ} (out : Out) (hbase : 2 ≤ base) (hbase' : base ≤ 36)
    (h : -1 ≤ d.fieldWidth) (h' : d.fieldWidth < 2 ^ 31) (hp : d.precision ≤ 2 ^ 31 - 6) :
    putNumber va d base out = some
      { out.put (intField (va.word d.arg) base d.fieldWidth d.precision d.flags) with
        arg := d.arg + 1 } := by
  rw [putNumber, number_eq _ hbase hbase' _ h h' hp]
  rfl

theorem Spec.widthValue_mem (spec : Spec) (h : digitsValue spec.width < 2 ^ 31) :
    -1 ≤ spec.widthValue ∧ spec.widthValue < 2 ^ 31 := by
  rw [Spec.widthValue]
  split <;> omega

/-- **A directive that has been read is carried out.** -/
theorem convert_run (spec : Spec) (rest : List UInt8) (out : Out) (h : spec.Fits va out) :
    convert va ⟨spec.allFlags, spec.widthValue, spec.precision.value va out.arg,
        spec.conv.char :: rest, out.arg + spec.precision.args⟩ out =
      some (spec.run va out) := by
  obtain ⟨hw, hp, hs⟩ := h
  obtain ⟨hw0, hw1⟩ := spec.widthValue_mem hw
  have hnum : ∀ (d : Directive) (base : ℕ), 2 ≤ base → base ≤ 36 → -1 ≤ d.fieldWidth →
      d.fieldWidth < 2 ^ 31 → d.precision ≤ 2 ^ 31 - 6 → putNumber va d base out = some
      { out.put (intField (va.word d.arg) base d.fieldWidth d.precision d.flags) with
        arg := d.arg + 1 } := fun d base h1 h2 h3 h4 h5 => putNumber_eq d out h1 h2 h3 h4 h5
  rw [Spec.run]
  cases hc : spec.conv with
  | character => exact congrArg some (congrArg (fun cs => { out.put cs with
      arg := out.arg + spec.precision.args + 1 }) (putChar_eq _ _ hw0))
  | string => exact congrArg some (congrArg (fun cs => { out.put cs with
      arg := out.arg + spec.precision.args + 1 }) (putString_eq _ _ (hs hc) hw0 hw1))
  | octal => exact hnum _ 8 (by decide) (by decide) hw0 hw1 hp
  | pointer =>
    set d : Directive := ⟨spec.allFlags, spec.widthValue, spec.precision.value va out.arg,
      Conv.pointer.char :: rest, out.arg + spec.precision.args⟩ with hd
    have hconvert : convert va d out =
        if spec.widthValue = -1 then
          putNumber va { d with fieldWidth := 8, flags := { d.flags with zeropad := true } } 16 out
        else putNumber va d 16 out := rfl
    rw [hconvert]
    dsimp only [Conv.field]
    split_ifs
    · exact hnum _ 16 (by decide) (by decide) (show (-1 : ℤ) ≤ 8 by decide)
        (show (8 : ℤ) < 2 ^ 31 by decide) hp
    · exact hnum d 16 (by decide) (by decide) hw0 hw1 hp
  | hex => exact hnum _ 16 (by decide) (by decide) hw0 hw1 hp
  | upperHex => exact hnum _ 16 (by decide) (by decide) hw0 hw1 hp
  | decimal => exact hnum _ 10 (by decide) (by decide) hw0 hw1 hp
  | integer => exact hnum _ 10 (by decide) (by decide) hw0 hw1 hp
  | unsigned => exact hnum _ 10 (by decide) (by decide) hw0 hw1 hp
  | count => rfl
  | percent => rfl

/-! ### Formats -/

theorem vsprintfLoop_lit {c : UInt8} (h : c ≠ 0x25) (rest : List UInt8) (out : Out) :
    vsprintfLoop va (c :: rest) out = vsprintfLoop va rest (out.put [c]) := by
  rw [vsprintfLoop, if_pos h]

theorem vsprintfLoop_dir (spec : Spec) (rest : List UInt8) (out : Out) (h : spec.Fits va out) :
    vsprintfLoop va (spec.text ++ rest) out = vsprintfLoop va rest (spec.run va out) := by
  have hread := directive_text va spec rest out.arg h.width
    (h.precision.trans_lt (by norm_num))
  rw [spec.text_eq, List.tail_cons] at hread
  rw [spec.text_eq, vsprintfLoop, if_neg (not_not_intro rfl)]
  dsimp only
  rw [hread, convert_run spec rest out h]
  rfl

/-- Items are carried out one after another, and then what follows them. -/
theorem vsprintfLoop_text (items : List Item) (rest : List UInt8) (out : Out)
    (h : Fits va items out) :
    vsprintfLoop va (items.flatMap Item.text ++ rest) out =
      vsprintfLoop va rest (items.foldl (Item.run va) out) := by
  induction items generalizing out with
  | nil => rfl
  | cons item items ih =>
    rw [List.flatMap_cons, List.append_assoc, List.foldl_cons]
    cases item with
    | lit c hc =>
      rw [Item.text, List.singleton_append, vsprintfLoop_lit hc.2]
      exact ih _ h
    | dir spec =>
      rw [Item.text, vsprintfLoop_dir spec _ out h.1]
      exact ih _ h.2

/-- A format that ends with the items. -/
theorem vsprintfLoop_all (items : List Item) (out : Out) (h : Fits va items out) :
    vsprintfLoop va (items.flatMap Item.text) out = some (items.foldl (Item.run va) out) := by
  have hloop := vsprintfLoop_text items [] out h
  rw [List.append_nil] at hloop
  rw [hloop, vsprintfLoop]

/-- **`vsprintf` does what its format means.** -/
theorem vsprintf_text (items : List Item) (h : Fits va items ⟨[], 0, []⟩) :
    vsprintf va (items.flatMap Item.text) = some (items.foldl (Item.run va) ⟨[], 0, []⟩) :=
  vsprintfLoop_all items _ h

/-- The format `"%-5d|%+d"`. -/
def twoNumbers : List Item :=
  [.dir ⟨[.minus], [5], .none, none, .decimal, by decide⟩, .lit 0x7C (by decide),
    .dir ⟨[.plus], [], .none, none, .decimal, by decide⟩]

/-- The arguments -42 and 7. -/
def twoArgs : Args := ⟨fun i => if i = 0 then -42 else 7, fun _ => []⟩

theorem vsprintf_text_twoNumbers :
    vsprintf twoArgs (twoNumbers.flatMap Item.text) =
      some (twoNumbers.foldl (Item.run twoArgs) ⟨[], 0, []⟩) :=
  vsprintf_text twoNumbers
    ⟨⟨by decide, show (-1 : ℤ) ≤ 2 ^ 31 - 6 by decide, fun h => absurd h (by decide)⟩,
      ⟨by decide, show (-1 : ℤ) ≤ 2 ^ 31 - 6 by decide, fun h => absurd h (by decide)⟩, trivial⟩

/-- It is `"-42  |+7"`. -/
example : (vsprintf twoArgs [0x25, 0x2D, 0x35, 0x64, 0x7C, 0x25, 0x2B, 0x64]).map Out.str =
    some [0x2D, 0x34, 0x32, 0x20, 0x20, 0x7C, 0x2B, 0x37] := by
  decide +kernel

/-- **A width that is given by `*` is written out**, and its argument is lost. -/
theorem vsprintf_star (fs : List Flag) (rest : List UInt8) (out : Out) :
    vsprintfLoop va (0x25 :: (fs.map Flag.char ++ 0x2A :: rest)) out =
      vsprintfLoop va rest { out.put [0x25, 0x2A] with arg := out.arg + 1 } := by
  have hstar : ∀ flags, flagOf ((0x2A :: rest).headD 0) flags = none := fun _ => rfl
  have hwidth : ∃ flags width, getWidth va (fs.foldl Flag.set Flags.none) (0x2A :: rest) out.arg =
      ⟨flags, width, -1, 0x2A :: rest, out.arg + 1⟩ := by
    rw [getWidth]
    change ∃ flags width, (if toInt (va.word out.arg) < 0 then _ else _ : Directive) = _
    split
    · exact ⟨_, _, rfl⟩
    · exact ⟨_, _, rfl⟩
  obtain ⟨flags, width, hwidth⟩ := hwidth
  rw [vsprintfLoop, if_neg (not_not_intro rfl)]
  dsimp only
  rw [directive, skipFlags_text _ _ hstar]
  dsimp only
  rw [hwidth]
  rfl

end

end Thunix.Kernel
