import Thunix.Kernel.Format
import Thunix.Shell.Numbers

/-!
# What is printed

Two things that follow from the meaning of formats. The buffers of `printk` and `sprintk` are of a
fixed size and nothing compares it with what is written; but if every `%s` of a format has a
precision, then how much is written is bounded by the format alone
(`Thunix.Kernel.printk_within`).

And numbers that are printed are numbers for the shell again (`Thunix.Kernel.printed_atoi`): in
decimal always, in hexadecimal up to the slip of `atoi_hex`.
-/

namespace Thunix.Kernel

/-! ### The size of the output -/

/-- The digits that an integer of 32 bits has at most, in the bases from 8 on. -/
def maxDigits : ℕ := 11

/-- The precision, if it is no argument, and 0 if there is none. -/
def Precision.bound : Precision → Option ℕ
  | .none => some 0
  | .digits ds => if digitsValue ds ≤ 2 ^ 31 - 6 then some (digitsValue ds) else Option.none
  | .star => Option.none

/-- Room for what a conversion writes; `bounded` says that there is a precision. -/
def Conv.room (width precision : ℕ) (bounded : Bool) : Conv → Option ℕ
  | .character => some (max width 1)
  | .string => if bounded then some (max width precision) else none
  | .count => some 0
  | .percent => some 1
  | .pointer => some (max (max width 8) (3 + max precision maxDigits))
  | _ => some (max width (3 + max precision maxDigits))

/-- Room for what a directive writes, if that does not depend on the length of a string or on an
argument. -/
def Spec.room (spec : Spec) : Option ℕ :=
  if digitsValue spec.width < 2 ^ 31 then
    spec.precision.bound.bind fun p =>
      spec.conv.room spec.widthValue.toNat p (spec.precision ≠ .none)
  else none

/-- Room for what an item writes. -/
def Item.room : Item → Option ℕ
  | .lit _ _ => some 1
  | .dir spec => spec.room

/-- Room for what a format writes. -/
def formatRoom : List Item → Option ℕ
  | [] => some 0
  | item :: items => do
    let n ← item.room
    let m ← formatRoom items
    pure (n + m)

/-- `printk`: what it has put into its buffer, the NUL included, and what it gives to
`con_write`. -/
def printk (va : Args) (fmt : List UInt8) : Option (List UInt8 × List UInt8) :=
  (vsprintf va fmt).map fun out => (out.str ++ [0], out.str)

section

variable {va : Args}

theorem length_numeral_le_maxDigits (small : Bool) {base : ℕ} (hbase : 8 ≤ base) {num : ℕ}
    (h : num < 2 ^ 32) : (numeral small base num).length ≤ maxDigits := by
  rw [numeral, maxDigits]
  split
  · simp
  · rw [List.length_reverse, List.length_map]
    refine (Nat.digits_length_le_iff (by omega) num).mpr ?_
    calc num < 8 ^ 11 := by omega
      _ ≤ base ^ 11 := Nat.pow_le_pow_left hbase 11

/-- A field is as wide as it should be, or as wide as it has to be. -/
theorem length_intField (num : UInt32) (base : ℕ) (size precision : ℤ) (type : Flags) :
    (intField num base size precision type).length = max size.toNat
      ((signOf type num).length + (markOf type base).length +
        (bodyOf type base precision num).length) := by
  rw [intField]
  split_ifs <;> simp only [List.length_append, List.length_replicate] <;> omega

theorem length_intField_le (num : UInt32) {base : ℕ} (hbase : 8 ≤ base) (size precision : ℤ)
    (type : Flags) :
    (intField num base size precision type).length ≤
      max size.toNat (3 + max precision.toNat maxDigits) := by
  have hsign := length_signOf num type
  have hmark := length_markOf type base
  have hdigits := length_numeral_le_maxDigits type.small hbase (magnitude_lt num type)
  rw [length_intField, bodyOf, List.length_append, List.length_replicate]
  omega

theorem length_justify (left : Bool) (width : ℕ) (s : List UInt8) :
    (justify left width s).length = max width s.length := by
  rw [justify]
  split <;> simp only [List.length_append, List.length_replicate] <;> omega

variable (va) in
theorem Precision.toNat_value {precision : Precision} {p : ℕ} (h : precision.bound = some p)
    (arg : ℕ) : (precision.value va arg).toNat = p ∧ p ≤ 2 ^ 31 - 6 := by
  cases precision with
  | none =>
    obtain rfl := Option.some.inj h
    exact ⟨rfl, by norm_num⟩
  | digits ds =>
    rw [Precision.bound] at h
    split_ifs at h with hle
    obtain rfl := Option.some.inj h
    exact ⟨Int.toNat_natCast _, hle⟩
  | star => exact absurd h (by simp [Precision.bound])

theorem Spec.room_eq_some {spec : Spec} {n : ℕ} (h : spec.room = some n) :
    digitsValue spec.width < 2 ^ 31 ∧ ∃ p, spec.precision.bound = some p ∧
      spec.conv.room spec.widthValue.toNat p (spec.precision ≠ .none) = some n := by
  rw [Spec.room] at h
  by_cases hwidth : digitsValue spec.width < 2 ^ 31
  · rw [if_pos hwidth] at h
    exact ⟨hwidth, Option.bind_eq_some_iff.mp h⟩
  · rw [if_neg hwidth] at h
    exact absurd h (by simp)

/-- A directive for which there is room is one whose numbers are small. -/
theorem Spec.fits_of_room (spec : Spec) (out : Out) {n : ℕ} (h : spec.room = some n)
    (hstring : ∀ p, (va.string p).length < 2 ^ 31) : spec.Fits va out := by
  obtain ⟨hwidth, p, hp, -⟩ := spec.room_eq_some h
  obtain ⟨hvalue, hle⟩ := Precision.toNat_value va hp out.arg
  exact ⟨hwidth, by omega, fun _ => hstring _⟩

theorem Spec.length_run (spec : Spec) (out : Out) {n : ℕ} (h : spec.room = some n) :
    (spec.run va out).str.length ≤ out.str.length + n := by
  obtain ⟨-, p, hp, hroom⟩ := spec.room_eq_some h
  obtain ⟨hvalue, -⟩ := Precision.toNat_value va hp out.arg
  have hput : ∀ cs : List UInt8, cs.length ≤ n →
      (out.put cs).str.length ≤ out.str.length + n := by
    intro cs hcs
    rw [Out.put, List.length_append]
    omega
  have hfield : ∀ num base size type, 8 ≤ base → max size.toNat (3 + max p maxDigits) ≤ n →
      (out.put (intField num base size (spec.precision.value va out.arg) type)).str.length ≤
        out.str.length + n := by
    intro num base size type hbase hn
    refine hput _ ((length_intField_le num hbase _ _ type).trans ?_)
    rw [hvalue]
    exact hn
  rw [Spec.run]
  cases hc : spec.conv with
  | character =>
    rw [hc] at hroom
    obtain rfl := Option.some.inj hroom
    exact hput _ (length_justify _ _ _).le
  | string =>
    rw [hc, Conv.room] at hroom
    by_cases hnone : spec.precision = .none
    · rw [if_neg (by simp [hnone])] at hroom
      exact absurd hroom (by simp)
    · rw [if_pos (by simp [hnone])] at hroom
      obtain rfl := Option.some.inj hroom
      have hpos : ¬spec.precision.value va out.arg < 0 := by
        cases hprec : spec.precision with
        | none => exact absurd hprec hnone
        | digits ds => exact not_lt.mpr (Int.natCast_nonneg _)
        | star => exact not_lt.mpr (le_max_right _ _)
      refine hput _ ((length_justify _ _ _).le.trans (max_le_max le_rfl ?_))
      rw [if_neg hpos, List.length_take, hvalue]
      exact min_le_left _ _
  | count => exact Nat.le_add_right _ _
  | percent =>
    rw [hc] at hroom
    obtain rfl := Option.some.inj hroom
    exact hput _ le_rfl
  | pointer =>
    rw [hc] at hroom
    obtain rfl := Option.some.inj hroom
    dsimp only [Conv.field]
    split_ifs
    · exact hfield _ 16 _ _ (by omega) (by omega)
    · exact hfield _ 16 _ _ (by omega) (by omega)
  | octal | hex | upperHex | decimal | integer | unsigned =>
    rw [hc] at hroom
    obtain rfl := Option.some.inj hroom
    exact hfield _ _ _ _ (by omega) le_rfl

variable (va) in
theorem Item.length_run (item : Item) (out : Out) {n : ℕ} (h : item.room = some n) :
    (item.run va out).str.length ≤ out.str.length + n := by
  cases item with
  | lit c hc =>
    obtain rfl := Option.some.inj h
    simp [Item.run, Out.put]
  | dir spec => exact spec.length_run out h

variable (va) in
/-- A format writes no more than there is room for. -/
theorem length_foldl_run (items : List Item) (out : Out) {n : ℕ} (h : formatRoom items = some n) :
    (items.foldl (Item.run va) out).str.length ≤ out.str.length + n := by
  induction items generalizing out n with
  | nil =>
    obtain rfl := Option.some.inj h
    exact le_rfl
  | cons item items ih =>
    obtain ⟨k, hk, m, hm, rfl⟩ : ∃ k, item.room = some k ∧ ∃ m, formatRoom items = some m ∧
        k + m = n := by
      simpa [formatRoom, Option.bind_eq_some_iff] using h
    have hitem := item.length_run va out hk
    have hrest := ih (item.run va out) hm
    rw [List.foldl_cons]
    omega

theorem fits_of_formatRoom (items : List Item) (out : Out) {n : ℕ} (h : formatRoom items = some n)
    (hstring : ∀ p, (va.string p).length < 2 ^ 31) : Fits va items out := by
  induction items generalizing out n with
  | nil => exact trivial
  | cons item items ih =>
    obtain ⟨k, hk, m, hm, rfl⟩ : ∃ k, item.room = some k ∧ ∃ m, formatRoom items = some m ∧
        k + m = n := by
      simpa [formatRoom, Option.bind_eq_some_iff] using h
    cases item with
    | lit c hc => exact ih _ hm
    | dir spec => exact ⟨spec.fits_of_room out hk hstring, ih _ hm⟩

/-- The digits of a field with `k` zeros in front, the first counting most. -/
def fieldDigits (base num k : ℕ) : List ℕ :=
  List.replicate k 0 ++ if num = 0 then [0] else (Nat.digits base num).reverse

theorem map_fieldDigits (small : Bool) (base num k : ℕ) :
    List.replicate k 0x30 ++ numeral small base num =
      (fieldDigits base num k).map (digits small) := by
  have hzero : digits small 0 = 0x30 := rfl
  rw [fieldDigits, List.map_append, List.map_replicate, hzero, numeral]
  split
  · rfl
  · rw [List.map_reverse]

theorem fieldDigits_lt {base num k d : ℕ} (hbase : 2 ≤ base) (h : d ∈ fieldDigits base num k) :
    d < base := by
  rw [fieldDigits, List.mem_append] at h
  rcases h with h | h
  · rw [List.eq_of_mem_replicate h]
    omega
  · split at h
    · rw [List.mem_singleton.mp h]
      omega
    · exact Nat.digits_lt_base (by omega) (List.mem_reverse.mp h)

theorem ofDigits_fieldDigits (base num k : ℕ) :
    Nat.ofDigits base (fieldDigits base num k).reverse = num := by
  rw [fieldDigits, List.reverse_append, List.reverse_replicate,
    Nat.ofDigits_append_replicate_zero]
  split
  · rename_i h
    rw [h]
    rfl
  · rw [List.reverse_reverse, Nat.ofDigits_digits]

/-- What reads digits one by one reads the number back. -/
theorem numeral_fieldDigits {small : Bool} {base : ℕ} (hbase : 2 ≤ base)
    {digit : UInt8 → Option ℕ} (hdigit : ∀ d < base, digit (digits small d) = some d)
    (num k : ℕ) :
    Shell.numeral base digit ((fieldDigits base num k).map (digits small)) = some num := by
  have hall : ∀ c ∈ (fieldDigits base num k).map (digits small), (digit c).isSome := by
    intro c hc
    obtain ⟨d, hd, rfl⟩ := List.mem_map.mp hc
    rw [hdigit d (fieldDigits_lt hbase hd)]
    rfl
  have hvalues : ((fieldDigits base num k).map (digits small)).map (fun c => (digit c).getD 0) =
      fieldDigits base num k := by
    have hid : ∀ d ∈ fieldDigits base num k, (digit (digits small d)).getD 0 = id d := by
      intro d hd
      rw [hdigit d (fieldDigits_lt hbase hd)]
      rfl
    rw [List.map_map]
    exact (List.map_congr_left hid).trans (List.map_id _)
  rw [Shell.numeral_of_digits base hall, hvalues, ofDigits_fieldDigits]

/-- The base of a directive whose fields the shell can read: 16 behind the mark, or 10. -/
def Spec.shellBase (spec : Spec) : Option ℕ :=
  match spec.conv with
  | .decimal | .integer | .unsigned => some 10
  | .hex | .upperHex => if spec.allFlags.special then some 16 else none
  | _ => none

/-- Nothing stands in front of the digits of a field, or behind them. -/
structure Spec.Bare (spec : Spec) (num : UInt32) : Prop where
  plus : spec.allFlags.plus = false
  space : spec.allFlags.space = false
  /-- There is no width, or it is reached by zeros. -/
  pad : spec.width = [] ∨ (spec.allFlags.zeropad = true ∧ spec.allFlags.left = false)
  /-- There is no minus sign. -/
  nonneg : spec.conv = .decimal ∨ spec.conv = .integer → 0 ≤ toInt num

/-- A field with nothing around it is the mark, zeros, and the digits of the number. -/
theorem intField_bare {num : UInt32} {base : ℕ} {size precision : ℤ} {type : Flags}
    (hsign : signOf type num = []) (hpos : magnitude type num = num.toNat)
    (hpad : size ≤ 0 ∨ (type.zeropad = true ∧ type.left = false)) :
    ∃ k, intField num base size precision type = markOf type base ++
      (fieldDigits base num.toNat k).map (digits type.small) := by
  rw [intField, hsign, List.nil_append, bodyOf, hpos]
  set room := size.toNat - ((markOf type base).length +
    (List.replicate (precision.toNat - (numeral type.small base num.toNat).length) 0x30 ++
      numeral type.small base num.toNat).length)
  set zeros := precision.toNat - (numeral type.small base num.toNat).length
  rcases hpad with hsize | ⟨hzero, hleft⟩
  · have hroom : room = 0 := by omega
    refine ⟨zeros, ?_⟩
    rw [← map_fieldDigits]
    simp [hroom]
  · refine ⟨room + zeros, ?_⟩
    rw [← map_fieldDigits, List.replicate_add]
    simp [hzero, hleft, -List.replicate_append_replicate]

theorem decDigit_digits (small : Bool) : ∀ d < 10, Shell.decDigit (digits small d) = some d := by
  cases small <;> decide

theorem hexDigit_digits (small : Bool) : ∀ d < 16, Shell.hexDigit (digits small d) = some d := by
  cases small <;> decide

theorem plain_digits (small : Bool) : ∀ d < 16, (Shell.Plain (digits small d) ↔ d < 9) := by
  cases small <;> decide

/-- Decimal digits are a number for the shell. -/
theorem atoi_decimal (small : Bool) (num k : ℕ) :
    Shell.isDigits ((fieldDigits 10 num k).map (digits small)) = true ∧
      Shell.atoi ((fieldDigits 10 num k).map (digits small)) ≡ num [ZMOD 2 ^ 32] := by
  set s := (fieldDigits 10 num k).map (digits small) with hs
  have hall : ∀ c ∈ s, (Shell.decDigit c).isSome := by
    intro c hc
    obtain ⟨d, hd, rfl⟩ := List.mem_map.mp hc
    rw [decDigit_digits small d (fieldDigits_lt (by omega) hd)]
    rfl
  have hprefix : ¬Shell.hexPrefix s := by
    rw [Shell.hexPrefix_iff]
    rintro (h | h)
    · exact absurd (hall 0x78 (List.mem_of_mem_take (i := 2) (by rw [h]; simp))) (by decide)
    · exact absurd (hall 0x58 (List.mem_of_mem_take (i := 2) (by rw [h]; simp))) (by decide)
  have hdenotes : Shell.denotes s = some num := by
    rw [Shell.denotes_of_not_hexPrefix hprefix]
    exact numeral_fieldDigits (by omega) (decDigit_digits small) num k
  have hright := (Shell.numberRight_iff s).mpr fun _ h => absurd h hprefix
  exact ⟨hright.1.mpr (by rw [hdenotes]; rfl), hright.2 num hdenotes⟩

/-- Hexadecimal digits behind their mark are a number for the shell, and the right one exactly if
none of them is a 9 or a letter. -/
theorem atoi_hex (small : Bool) {num : ℕ} (hnum : num < 2 ^ 32) (k : ℕ) :
    Shell.isDigits (0x30 :: digits small 33 :: (fieldDigits 16 num k).map (digits small)) = true ∧
      (Shell.atoi (0x30 :: digits small 33 :: (fieldDigits 16 num k).map (digits small)) ≡ num
          [ZMOD 2 ^ 32] ↔ ∀ d ∈ Nat.digits 16 num, d < 9) := by
  set s := 0x30 :: digits small 33 :: (fieldDigits 16 num k).map (digits small) with hs
  have hprefix : Shell.hexPrefix s := by
    rw [Shell.hexPrefix_iff]
    cases small
    · exact Or.inr rfl
    · exact Or.inl rfl
  have hdenotes : Shell.denotes s = some num := by
    rw [Shell.denotes_of_hexPrefix hprefix]
    exact numeral_fieldDigits (by omega) (hexDigit_digits small) num k
  have hsome : (Shell.denotes s).isSome := by
    rw [hdenotes]
    rfl
  have hvalue : Shell.NumberRight s ↔ Shell.atoi s ≡ num [ZMOD 2 ^ 32] := by
    rw [Shell.NumberRight, and_iff_right (Shell.isDigits_iff s), hdenotes]
    simp
  -- of the last eight characters those that are digits of the number are all of them
  have hlast : (∀ c ∈ (s.drop 2).reverse.take 8, Shell.Plain c) ↔
      ∀ d ∈ Nat.digits 16 num, d < 9 := by
    set D := if num = 0 then [0] else Nat.digits 16 num with hD
    have hrev : (s.drop 2).reverse = (D ++ List.replicate k 0).map (digits small) := by
      rw [hs, List.drop_succ_cons, List.drop_succ_cons, List.drop_zero, ← List.map_reverse,
        fieldDigits, List.reverse_append, List.reverse_replicate, hD]
      split
      · rfl
      · rw [List.reverse_reverse]
    have hlen : D.length ≤ 8 := by
      rw [hD]
      split
      · simp
      · exact (Nat.digits_length_le_iff (by omega) num).mpr (hnum.trans_le (by norm_num))
    have hzeros : ∀ d ∈ (List.replicate k 0).take (8 - D.length), Shell.Plain (digits small d) := by
      intro d hd
      rw [List.eq_of_mem_replicate (List.mem_of_mem_take hd)]
      exact (plain_digits small 0 (by omega)).mpr (by omega)
    have hdigits : (∀ d ∈ D, Shell.Plain (digits small d)) ↔ ∀ d ∈ Nat.digits 16 num, d < 9 := by
      rw [hD]
      split
      · rename_i h
        subst h
        simp [plain_digits]
      · exact forall₂_congr fun d hd => plain_digits small d (Nat.digits_lt_base (by omega) hd)
    rw [hrev, ← List.map_take, List.take_append, List.take_of_length_le hlen,
      List.forall_mem_map, List.forall_mem_append, and_iff_left hzeros, hdigits]
  refine ⟨(Shell.isDigits_iff s).mpr hsome, ?_⟩
  rw [← hvalue, Shell.numberRight_iff, ← hlast]
  exact ⟨fun h => h hsome hprefix, fun h _ _ => h⟩

/-- No flag that is written sets `SIGN` or `SMALL`. -/
theorem Spec.allFlags_sign (spec : Spec) :
    spec.allFlags.sign = false ∧ spec.allFlags.small = false := by
  have hset : ∀ (fs : List Flag) (flags : Flags), flags.sign = false ∧ flags.small = false →
      (fs.foldl Flag.set flags).sign = false ∧ (fs.foldl Flag.set flags).small = false := by
    intro fs
    induction fs with
    | nil => exact fun _ h => h
    | cons f fs ih =>
      intro flags h
      refine ih _ ?_
      cases f <;> exact h
  exact hset spec.flags Flags.none ⟨rfl, rfl⟩

section

variable {num : UInt32} {size precision : ℤ} {type : Flags}

/-- There is nothing in front of the digits of a number that is not negative. -/
theorem signOf_eq_nil (hsign : type.sign = true → 0 ≤ toInt num) (hplus : type.plus = false)
    (hspace : type.space = false) :
    signOf type num = [] ∧ magnitude type num = num.toNat := by
  have hneg : ¬(type.sign = true ∧ toInt num < 0) := fun h => absurd (hsign h.1) (by omega)
  rw [signOf, magnitude, if_neg hneg, if_neg hneg, hplus, hspace]
  exact ⟨rfl, rfl⟩

/-- A decimal field is a number for the shell. -/
theorem atoi_intField_decimal (hsign : signOf type num = [] ∧ magnitude type num = num.toNat)
    (hpad : size ≤ 0 ∨ (type.zeropad = true ∧ type.left = false)) :
    Shell.isDigits (intField num 10 size precision type) = true ∧
      Shell.atoi (intField num 10 size precision type) ≡ num.toNat [ZMOD 2 ^ 32] := by
  obtain ⟨k, hk⟩ := intField_bare hsign.1 hsign.2 hpad
  have hmark : markOf type 10 = [] := by
    rw [markOf]
    split <;> rfl
  rw [hk, hmark, List.nil_append]
  exact atoi_decimal _ _ _

/-- A hexadecimal field with its mark is a number for the shell. -/
theorem atoi_intField_hex (hsign : signOf type num = [] ∧ magnitude type num = num.toNat)
    (hspecial : type.special = true)
    (hpad : size ≤ 0 ∨ (type.zeropad = true ∧ type.left = false)) :
    Shell.isDigits (intField num 16 size precision type) = true ∧
      (Shell.atoi (intField num 16 size precision type) ≡ num.toNat [ZMOD 2 ^ 32] ↔
        ∀ d ∈ Nat.digits 16 num.toNat, d < 9) := by
  obtain ⟨k, hk⟩ := intField_bare hsign.1 hsign.2 hpad
  have hmark : markOf type 16 = [0x30, digits type.small 33] := by
    rw [markOf, if_pos hspecial]
    rfl
  rw [hk, hmark]
  exact atoi_hex _ num.toNat_lt k

end

/-- **A printed number is a number for the shell**, and the same number, modulo `2 ^ 32`, exactly if
it has been printed in decimal, or none of its hexadecimal digits is a 9 or a letter. -/
theorem printed_atoi (spec : Spec) {base : ℕ} (hbase : spec.shellBase = some base)
    (hfits : spec.Fits va ⟨[], 0, []⟩) (hbare : spec.Bare (va.word spec.precision.args)) :
    ∃ s, vsprintf va spec.text = some ⟨s, spec.precision.args + 1, []⟩ ∧
      Shell.isDigits s = true ∧
      (Shell.atoi s ≡ (va.word spec.precision.args).toNat [ZMOD 2 ^ 32] ↔
        (base = 16 → ∀ d ∈ Nat.digits 16 (va.word spec.precision.args).toNat, d < 9)) := by
  have hrun : vsprintf va spec.text = some (spec.run va ⟨[], 0, []⟩) := by
    have h := vsprintfLoop_dir spec [] ⟨[], 0, []⟩ hfits
    rw [List.append_nil] at h
    rw [vsprintf, h, vsprintfLoop]
  set num := va.word spec.precision.args with hnum
  have hword : va.word (0 + spec.precision.args) = num := by rw [zero_add]
  have hpad : spec.widthValue ≤ 0 ∨
      (spec.allFlags.zeropad = true ∧ spec.allFlags.left = false) := by
    refine hbare.pad.imp_left fun h => ?_
    rw [Spec.widthValue, if_pos h]
    decide
  have hplain : signOf spec.allFlags num = [] ∧ magnitude spec.allFlags num = num.toNat :=
    signOf_eq_nil (fun h => absurd h (by rw [spec.allFlags_sign.1]; decide)) hbare.plus hbare.space
  have hsigned : (spec.conv = .decimal ∨ spec.conv = .integer) →
      signOf { spec.allFlags with sign := true } num = [] ∧
        magnitude { spec.allFlags with sign := true } num = num.toNat :=
    fun h => signOf_eq_nil (fun _ => hbare.nonneg h) hbare.plus hbare.space
  have hsmall : signOf { spec.allFlags with small := true } num = [] ∧
      magnitude { spec.allFlags with small := true } num = num.toNat :=
    signOf_eq_nil (fun h => absurd h (by simp [spec.allFlags_sign.1])) hbare.plus hbare.space
  refine ⟨spec.conv.field num spec.widthValue (spec.precision.value va 0) spec.allFlags, ?_, ?_⟩
  · rw [hrun, Spec.run]
    dsimp only
    rw [hword, zero_add]
    cases hc : spec.conv <;> simp [Spec.shellBase, hc] at hbase <;> rfl
  · cases hc : spec.conv with
    | decimal | integer =>
      obtain rfl : 10 = base := by simpa [Spec.shellBase, hc] using hbase
      obtain ⟨hdigits, hatoi⟩ := atoi_intField_decimal (hsigned (by simp [hc])) hpad
      exact ⟨hdigits, iff_of_true hatoi fun h => absurd h (by decide)⟩
    | unsigned =>
      obtain rfl : 10 = base := by simpa [Spec.shellBase, hc] using hbase
      obtain ⟨hdigits, hatoi⟩ := atoi_intField_decimal hplain hpad
      exact ⟨hdigits, iff_of_true hatoi fun h => absurd h (by decide)⟩
    | hex =>
      obtain ⟨hspecial, rfl⟩ : spec.allFlags.special = true ∧ 16 = base := by
        simpa [Spec.shellBase, hc] using hbase
      obtain ⟨hdigits, hatoi⟩ := atoi_intField_hex hsmall hspecial hpad
      exact ⟨hdigits, hatoi.trans ⟨fun h _ => h, fun h => h rfl⟩⟩
    | upperHex =>
      obtain ⟨hspecial, rfl⟩ : spec.allFlags.special = true ∧ 16 = base := by
        simpa [Spec.shellBase, hc] using hbase
      obtain ⟨hdigits, hatoi⟩ := atoi_intField_hex hplain hspecial hpad
      exact ⟨hdigits, hatoi.trans ⟨fun h _ => h, fun h => h rfl⟩⟩
    | character | string | octal | pointer | count | percent =>
      simp [Spec.shellBase, hc] at hbase

theorem printed_atoi_hex :
    ∃ s, vsprintf ⟨fun _ => 0x28, fun _ => []⟩ [0x25, 0x23, 0x78] = some ⟨s, 1, []⟩ ∧
      Shell.isDigits s = true ∧
      (Shell.atoi s ≡ (0x28 : UInt32).toNat [ZMOD 2 ^ 32] ↔
        (16 = 16 → ∀ d ∈ Nat.digits 16 (0x28 : UInt32).toNat, d < 9)) :=
  printed_atoi ⟨[.special], [], .none, none, .hex, by decide⟩ (by decide)
    ⟨by decide, show (-1 : ℤ) ≤ 2 ^ 31 - 6 by decide, fun h => absurd h (by decide)⟩
    ⟨rfl, rfl, Or.inl rfl, fun h => absurd h (by decide)⟩

end

end Thunix.Kernel
