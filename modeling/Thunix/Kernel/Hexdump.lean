import Mathlib.Data.List.GetD
import Thunix.Kernel.Printed

/-!
# Dumping memory

`hexdump` of `kernel/hexdump.c`. It collects the bytes of a line in two arrays, one for the
hexadecimal columns and one for the characters, and prints the line when the next one begins, and
the last one at the end.

Every store is inside the arrays, and the lines are those of `Thunix.Kernel.dumpLine`, whatever
the bytes (`Thunix.Kernel.hexdump_eq`). So the bytes can be read off the lines again
(`Thunix.Kernel.undump_hexdump`).
-/

namespace Thunix.Kernel

/-! ### The source -/

/-- An argument of a function with a variable number of them. -/
inductive Arg
  | word (w : UInt32)
  | string (s : List UInt8)

/-- The arguments of a call. A string is pointed to by its place among them. -/
def Args.ofList (args : List Arg) : Args where
  word i :=
    match args[i]? with
    | some (.word w) => w
    | _ => UInt32.ofNat i
  string p :=
    match args[p.toNat]? with
    | some (.string s) => s
    | _ => []

/-- The stores of the bytes `cs` from `a[i]` on, if they are inside the array. -/
def stores (a : List UInt8) (i : ℕ) : List UInt8 → Option (List UInt8)
  | [] => some a
  | c :: cs => if i < a.length then stores (a.set i c) (i + 1) cs else none

/-- The string in an array. -/
def cString (a : List UInt8) : List UInt8 := a.takeWhile (· ≠ 0)

/-- `sprintk` to `&a[i]`. -/
def sprintk (a : List UInt8) (i : ℕ) (fmt : List UInt8) (args : List Arg) :
    Option (List UInt8) := do
  let out ← vsprintf (Args.ofList args) fmt
  stores a i (out.str ++ [0])

/-- The format `"%02x "`. -/
def byteFormat : List UInt8 := [0x25, 0x30, 0x32, 0x78, 0x20]

/-- The format `"%08x  %-48s  |%-16s|\n"`. -/
def lineFormat : List UInt8 :=
  [0x25, 0x30, 0x38, 0x78, 0x20, 0x20, 0x25, 0x2D, 0x34, 0x38, 0x73, 0x20, 0x20, 0x7C,
    0x25, 0x2D, 0x31, 0x36, 0x73, 0x7C, 0x0A]

/-- The variables of `hexdump`, and what has been printed. -/
structure Dump where
  base : UInt32
  hex : List UInt8
  text : List UInt8
  out : List UInt8

/-- `printk("%08x  %-48s  |%-16s|\n", base, hex, text)`. -/
def Dump.printLine (d : Dump) : Option Dump := do
  let r ← printk (Args.ofList [.word d.base, .string (cString d.hex), .string (cString d.text)])
    lineFormat
  pure { d with out := d.out ++ r.2 }

/-- One round of the loop, for the byte `c` at `i`. -/
def Dump.round (d : Dump) (i : ℕ) (c : UInt8) : Option Dump := do
  let index := i % 16
  let d ← if i ≠ 0 ∧ index = 0 then do
      let d ← d.printLine
      pure { d with
        base := d.base + 0x10
        hex := List.replicate 49 0
        text := List.replicate 17 0 }
    else pure d
  let hex ← sprintk d.hex (index * 3) byteFormat [.word c.toUInt32]
  let text ← stores d.text index [if c < 0x20 ∨ c > 0x7F then 0x2E else c]
  pure { d with hex, text }

/-- The loop of `hexdump`, up to `i = n`. -/
def hexdumpLoop (data : ℕ → UInt8) : ℕ → Option Dump
  | 0 => some ⟨0, List.replicate 49 0, List.replicate 17 0, []⟩
  | n + 1 => do
    let d ← hexdumpLoop data n
    d.round n (data n)

/-- `hexdump` of `len` bytes of `data`: what it prints, if it stays inside its arrays. -/
def hexdump (data : ℕ → UInt8) (len : ℤ) : Option (List UInt8) := do
  let d ← hexdumpLoop data len.toNat
  let d ← d.printLine
  pure d.out

/-! ### The lines -/

/-- The last `k` digits of a number, the first counting most. -/
def fixedDigits (small : Bool) (base k num : ℕ) : List UInt8 :=
  ((List.range k).map fun j => digits small (num / base ^ j % base)).reverse

/-- The two digits of a byte. -/
def hexPair (c : UInt8) : List UInt8 := [digits true (c.toNat / 16), digits true (c.toNat % 16)]

/-- The columns of some bytes. -/
def hexColumns (bytes : List UInt8) : List UInt8 := bytes.flatMap fun c => hexPair c ++ [0x20]

/-- The characters that stand for some bytes. -/
def textColumns (bytes : List UInt8) : List UInt8 :=
  bytes.map fun c => if c < 0x20 ∨ c > 0x7F then 0x2E else c

/-- The line of up to 16 bytes. -/
def dumpLine (base : ℕ) (bytes : List UInt8) : List UInt8 :=
  fixedDigits true 16 8 base ++ ([0x20, 0x20] ++ (justify true 48 (hexColumns bytes) ++
    ([0x20, 0x20, 0x7C] ++ (justify true 16 (textColumns bytes) ++ [0x7C, 0x0A]))))

/-- The bytes of a line, of the first `n`. -/
def lineBytes (data : ℕ → UInt8) (n line : ℕ) : List UInt8 :=
  (List.range (min 16 (n - 16 * line))).map fun j => data (16 * line + j)

/-- The lines of the first `n` bytes. There is one also for no bytes. -/
def dumpLines (data : ℕ → UInt8) (n : ℕ) : List UInt8 :=
  (List.range (max 1 ((n + 15) / 16))).flatMap fun line =>
    dumpLine (16 * line) (lineBytes data n line)

/-! ### The two formats -/

/-- A number that fits is filled up to its width by the zeros among its last digits. -/
theorem zeros_numeral (small : Bool) {base k num : ℕ} (hbase : 2 ≤ base) (hk : 0 < k)
    (h : num < base ^ k) :
    List.replicate (k - (numeral small base num).length) 0x30 ++ numeral small base num =
      fixedDigits small base k num := by
  set D := if num = 0 then [0] else Nat.digits base num with hD
  have hlength : (numeral small base num).length = D.length := by
    rw [numeral, hD]
    split
    · rfl
    · rw [List.length_reverse, List.length_map]
  have hle : D.length ≤ k := by
    rw [hD]
    split
    · exact hk
    · exact (Nat.digits_length_le_iff (by omega) num).mpr h
  have hget : ∀ i, D.getD i 0 = num / base ^ i % base := by
    intro i
    rw [← Nat.getD_digits num i hbase, hD]
    split
    · rename_i h0
      subst h0
      cases i <;> simp
    · rfl
  have hall : D ++ List.replicate (k - D.length) 0 =
      (List.range k).map fun j => num / base ^ j % base := by
    refine List.ext_getElem (by simp; omega) fun i hi hi' => ?_
    rw [List.getElem_map, List.getElem_range, ← hget i, List.getElem_append]
    split
    · rename_i hlt
      rw [List.getD_eq_getElem _ _ hlt]
    · rename_i hge
      rw [List.getElem_replicate, List.getD_eq_default _ _ (by omega)]
  have hfield : fieldDigits base num (k - D.length) = ((List.range k).map
      fun j => num / base ^ j % base).reverse := by
    rw [← hall, List.reverse_append, List.reverse_replicate, fieldDigits, hD]
    split <;> rfl
  rw [hlength, map_fieldDigits, hfield, fixedDigits, List.map_reverse, List.map_map]
  rfl

/-- A field of hexadecimal digits with zeros in front. -/
theorem intField_fixed (num : UInt32) (base k : ℕ) (hbase : 2 ≤ base) (hk : 0 < k)
    (h : num.toNat < base ^ k) (precision : ℤ) (hprecision : precision ≤ 0) (small : Bool) :
    intField num base k precision ⟨true, false, false, false, false, false, small⟩ =
      fixedDigits small base k num.toNat := by
  have hnone : precision.toNat = 0 := Int.toNat_of_nonpos hprecision
  rw [← zeros_numeral small hbase hk h, intField, bodyOf, hnone]
  simp [signOf, markOf, magnitude]

theorem toNat_toUInt32 (c : UInt8) : c.toUInt32.toNat = c.toNat := by simp

/-- **`sprintk(.., "%02x ", c)`**. -/
theorem vsprintf_byte (c : UInt8) :
    vsprintf (Args.ofList [.word c.toUInt32]) byteFormat = some ⟨hexPair c ++ [0x20], 1, []⟩ := by
  have hc := c.toNat_lt
  let items : List Item := [.dir ⟨[.zero], [2], .none, none, .hex, by decide⟩,
    .lit 0x20 (by decide)]
  have hfits : Fits (Args.ofList [.word c.toUInt32]) items ⟨[], 0, []⟩ :=
    ⟨⟨by decide, show (-1 : ℤ) ≤ 2 ^ 31 - 6 by decide, fun h => absurd h (by decide)⟩, trivial⟩
  have hpair : fixedDigits true 16 2 c.toNat = hexPair c := by
    have h1 : c.toNat / 16 % 16 = c.toNat / 16 := Nat.mod_eq_of_lt (by omega)
    simp [fixedDigits, hexPair, List.range_succ, h1]
  have hfield := intField_fixed c.toUInt32 16 2 (by decide) (by decide)
    (by rw [toNat_toUInt32]; omega) (-1) (by decide) true
  rw [toNat_toUInt32, hpair] at hfield
  refine (vsprintfLoop_all items _ hfits).trans (congrArg some ?_)
  exact congrArg (fun cs => (⟨cs ++ [0x20], 1, []⟩ : Out)) hfield

/-- **`printk("%08x  %-48s  |%-16s|\n", base, hex, text)`**. -/
theorem vsprintf_line (base : UInt32) (hex text : List UInt8) (hhex : hex.length < 2 ^ 31)
    (htext : text.length < 2 ^ 31) :
    vsprintf (Args.ofList [.word base, .string hex, .string text]) lineFormat =
      some ⟨fixedDigits true 16 8 base.toNat ++ ([0x20, 0x20] ++ (justify true 48 hex ++
        ([0x20, 0x20, 0x7C] ++ (justify true 16 text ++ [0x7C, 0x0A])))), 3, []⟩ := by
  set va := Args.ofList [.word base, .string hex, .string text] with hva
  let items : List Item := [.dir ⟨[.zero], [8], .none, none, .hex, by decide⟩,
    .lit 0x20 (by decide), .lit 0x20 (by decide),
    .dir ⟨[.minus], [4, 8], .none, none, .string, by decide⟩,
    .lit 0x20 (by decide), .lit 0x20 (by decide), .lit 0x7C (by decide),
    .dir ⟨[.minus], [1, 6], .none, none, .string, by decide⟩,
    .lit 0x7C (by decide), .lit 0x0A (by decide)]
  have hnone : (-1 : ℤ) ≤ 2 ^ 31 - 6 := by decide
  have hfits : Fits va items ⟨[], 0, []⟩ :=
    ⟨⟨by decide, hnone, fun h => absurd h (by decide)⟩, ⟨by decide, hnone, fun _ => hhex⟩,
      ⟨by decide, hnone, fun _ => htext⟩, trivial⟩
  have hfield := intField_fixed base 16 8 (by decide) (by decide)
    (base.toNat_lt.trans_le (by norm_num)) (-1) (by decide) true
  have hrun : items.foldl (Item.run va) ⟨[], 0, []⟩ =
      ⟨[] ++ intField base 16 8 (-1) ⟨true, false, false, false, false, false, true⟩ ++ [0x20] ++
        [0x20] ++ justify true 48 hex ++ [0x20] ++ [0x20] ++ [0x7C] ++ justify true 16 text ++
        [0x7C] ++ [0x0A], 3, []⟩ := rfl
  refine (vsprintfLoop_all items _ hfits).trans (congrArg some ?_)
  rw [hrun, ← hfield]
  simp [List.append_assoc]

/-! ### The arrays -/

/-- An array of `n` bytes that holds `s`, and zeros behind it. -/
def filled (n : ℕ) (s : List UInt8) : List UInt8 := s ++ List.replicate (n - s.length) 0

/-- What is stored behind the characters of an array is put behind them. -/
theorem stores_filled {n : ℕ} (s cs : List UInt8) (h : s.length + cs.length ≤ n) :
    stores (filled n s) s.length cs = some (filled n (s ++ cs)) := by
  induction cs generalizing s with
  | nil => rw [stores, List.append_nil]
  | cons c cs ih =>
    rw [List.length_cons] at h
    obtain ⟨k, hk⟩ : ∃ k, n - s.length = k + 1 := ⟨n - s.length - 1, by omega⟩
    have hlt : s.length < (filled n s).length := by
      rw [filled, List.length_append, List.length_replicate]
      omega
    have hset : (filled n s).set s.length c = filled n (s ++ [c]) := by
      have hk' : n - (s ++ [c]).length = k := by
        rw [List.length_append, List.length_singleton]
        omega
      rw [filled, filled, hk, hk', List.set_append_right _ _ le_rfl, Nat.sub_self,
        List.replicate_succ, List.set_cons_zero, List.append_assoc]
      rfl
    have hnext := ih (s ++ [c]) (by simp; omega)
    rw [List.length_append, List.length_singleton, List.append_assoc] at hnext
    rw [stores, if_pos hlt, hset, hnext]
    rfl

/-- A NUL behind the characters is there already. -/
theorem filled_zero {n : ℕ} {s : List UInt8} (h : s.length < n) :
    filled n (s ++ [0]) = filled n s := by
  have hlength : n - s.length = n - (s ++ [0]).length + 1 := by
    rw [List.length_append, List.length_singleton]
    omega
  rw [filled, filled, hlength, List.replicate_succ, List.append_assoc]
  rfl

theorem cString_filled {n : ℕ} {s : List UInt8} (h : s.length < n) (hs : ∀ c ∈ s, c ≠ 0) :
    cString (filled n s) = s := by
  obtain ⟨k, hk⟩ : ∃ k, n - s.length = k + 1 := ⟨n - s.length - 1, by omega⟩
  rw [cString, filled, hk, List.replicate_succ, List.takeWhile_append_of_pos (by simpa using hs),
    List.takeWhile_cons_of_neg (by simp), List.append_nil]

/-! ### The loop -/

theorem length_lineBytes (data : ℕ → UInt8) (n line : ℕ) :
    (lineBytes data n line).length = min 16 (n - 16 * line) := by simp [lineBytes]

theorem length_hexColumns (bytes : List UInt8) : (hexColumns bytes).length = 3 * bytes.length := by
  induction bytes with
  | nil => rfl
  | cons c bytes ih =>
    have hcons : hexColumns (c :: bytes) = hexPair c ++ [0x20] ++ hexColumns bytes := rfl
    rw [hcons, List.length_append, ih, List.length_cons, hexPair]
    simp
    omega

theorem hexColumns_append (bytes : List UInt8) (c : UInt8) :
    hexColumns (bytes ++ [c]) = hexColumns bytes ++ (hexPair c ++ [0x20]) := by
  simp [hexColumns]

theorem textColumns_append (bytes : List UInt8) (c : UInt8) :
    textColumns (bytes ++ [c]) =
      textColumns bytes ++ [if c < 0x20 ∨ c > 0x7F then 0x2E else c] := by
  simp [textColumns]

theorem ne_zero_of_mem_hexColumns {bytes : List UInt8} {c : UInt8} (h : c ∈ hexColumns bytes) :
    c ≠ 0 := by
  have hdigit : ∀ d < 16, digits true d ≠ 0 := by decide
  obtain ⟨b, -, hc⟩ := List.mem_flatMap.mp h
  have hb := b.toNat_lt
  rw [hexPair] at hc
  rcases List.mem_append.mp hc with hc | hc
  · rcases List.mem_pair.mp hc with rfl | rfl
    · exact hdigit _ (by omega)
    · exact hdigit _ (Nat.mod_lt _ (by omega))
  · rw [List.mem_singleton.mp hc]
    decide

theorem ne_zero_of_mem_textColumns {bytes : List UInt8} {c : UInt8} (h : c ∈ textColumns bytes) :
    c ≠ 0 := by
  obtain ⟨b, -, rfl⟩ := List.mem_map.mp h
  split_ifs with hb
  · decide
  · rintro rfl
    exact hb (Or.inl (by decide))

/-- The variables when `n` bytes have been gone through and `lines` lines printed. -/
def dumpAt (data : ℕ → UInt8) (n lines : ℕ) : Dump where
  base := UInt32.ofNat (16 * lines)
  hex := filled 49 (hexColumns (lineBytes data n lines))
  text := filled 17 (textColumns (lineBytes data n lines))
  out := (List.range lines).flatMap fun line => dumpLine (16 * line) (lineBytes data n line)

variable (data : ℕ → UInt8)

/-- A line is printed. -/
theorem printLine_dumpAt (n : ℕ) {lines : ℕ} (h : 16 * lines < 2 ^ 32) :
    (dumpAt data n lines).printLine = some { dumpAt data n lines with
      out := (List.range (lines + 1)).flatMap fun line =>
        dumpLine (16 * line) (lineBytes data n line) } := by
  have hlength := length_lineBytes data n lines
  have hhex : (hexColumns (lineBytes data n lines)).length < 49 := by
    rw [length_hexColumns]
    omega
  have htext : (textColumns (lineBytes data n lines)).length < 17 := by
    rw [textColumns, List.length_map]
    omega
  have hbase : (UInt32.ofNat (16 * lines)).toNat = 16 * lines := UInt32.toNat_ofNat_of_lt' h
  have hline := vsprintf_line (UInt32.ofNat (16 * lines)) (hexColumns (lineBytes data n lines))
    (textColumns (lineBytes data n lines)) (by omega) (by omega)
  rw [Dump.printLine, dumpAt]
  dsimp only
  rw [cString_filled hhex fun c hc => ne_zero_of_mem_hexColumns hc,
    cString_filled htext fun c hc => ne_zero_of_mem_textColumns hc, printk, hline, hbase,
    List.range_succ, List.flatMap_append]
  simp [dumpLine]

/-- The bytes of a line that is full stay the same. -/
theorem lineBytes_of_le {n line : ℕ} (h : 16 * (line + 1) ≤ n) :
    lineBytes data (n + 1) line = lineBytes data n line := by
  rw [lineBytes, lineBytes]
  congr 2
  omega

/-- The last line gets one more byte. -/
theorem lineBytes_succ (n : ℕ) :
    lineBytes data (n + 1) (n / 16) = lineBytes data n (n / 16) ++ [data n] := by
  have h1 : min 16 (n + 1 - 16 * (n / 16)) = n - 16 * (n / 16) + 1 := by omega
  have h2 : min 16 (n - 16 * (n / 16)) = n - 16 * (n / 16) := by omega
  have h3 : 16 * (n / 16) + (n - 16 * (n / 16)) = n := by omega
  rw [lineBytes, lineBytes, h1, h2, List.range_succ, List.map_append, List.map_singleton, h3]

/-- The lines before the last one stay the same. -/
theorem flatMap_lines_succ (n : ℕ) :
    ((List.range (n / 16)).flatMap fun line => dumpLine (16 * line) (lineBytes data (n + 1) line)) =
      (List.range (n / 16)).flatMap fun line => dumpLine (16 * line) (lineBytes data n line) := by
  refine List.flatMap_congr fun line hline => ?_
  rw [lineBytes_of_le data (by have := List.mem_range.mp hline; omega)]

/-- One more byte goes into the arrays. -/
theorem store_dumpAt (n : ℕ) :
    (do
      let hex ← sprintk (dumpAt data n (n / 16)).hex (n % 16 * 3) byteFormat
        [.word (data n).toUInt32]
      let text ← stores (dumpAt data n (n / 16)).text (n % 16)
        [if data n < 0x20 ∨ data n > 0x7F then 0x2E else data n]
      pure { dumpAt data n (n / 16) with hex, text }) =
      some (dumpAt data (n + 1) (n / 16)) := by
  have hlength := length_lineBytes data n (n / 16)
  have hmod : min 16 (n - 16 * (n / 16)) = n % 16 := by omega
  rw [hmod] at hlength
  have hhex := length_hexColumns (lineBytes data n (n / 16))
  have htext : (textColumns (lineBytes data n (n / 16))).length = n % 16 := by
    rw [textColumns, List.length_map, hlength]
  have hstores := stores_filled (n := 49) (hexColumns (lineBytes data n (n / 16)))
    (hexPair (data n) ++ [0x20] ++ [0]) (by rw [hhex]; simp [hexPair]; omega)
  have hstores' := stores_filled (n := 17) (textColumns (lineBytes data n (n / 16)))
    [if data n < 0x20 ∨ data n > 0x7F then 0x2E else data n] (by rw [htext]; simp; omega)
  rw [hhex, hlength, mul_comm, ← List.append_assoc, ← hexColumns_append, filled_zero (by
    rw [length_hexColumns, List.length_append, hlength, List.length_singleton]; omega),
    ← lineBytes_succ] at hstores
  rw [htext, ← textColumns_append, ← lineBytes_succ] at hstores'
  rw [sprintk, vsprintf_byte]
  simp only [dumpAt, Option.bind_eq_bind, Option.bind_some, Option.pure_def, hstores, hstores',
    flatMap_lines_succ]

/-- **One round of the loop.** -/
theorem round_dumpAt {n : ℕ} (h : n < 2 ^ 31) :
    (dumpAt data n ((n - 1) / 16)).round n (data n) = some (dumpAt data (n + 1) (n / 16)) := by
  rw [Dump.round]
  by_cases hline : n ≠ 0 ∧ n % 16 = 0
  · have hnext : (n - 1) / 16 + 1 = n / 16 := by omega
    have hempty : lineBytes data n (n / 16) = [] := by
      rw [lineBytes, show min 16 (n - 16 * (n / 16)) = 0 by omega]
      rfl
    have hbase : UInt32.ofNat (16 * ((n - 1) / 16)) + 0x10 = UInt32.ofNat (16 * (n / 16)) := by
      rw [← hnext, mul_add, UInt32.ofNat_add]
      rfl
    -- the line that is full is printed, and the arrays are empty again
    have hnew : dumpAt data n (n / 16) =
        { base := UInt32.ofNat (16 * ((n - 1) / 16)) + 0x10
          hex := List.replicate 49 0
          text := List.replicate 17 0
          out := (List.range ((n - 1) / 16 + 1)).flatMap fun line =>
            dumpLine (16 * line) (lineBytes data n line) } := by
      rw [dumpAt, hempty, hbase, hnext]
      rfl
    have hstore := store_dumpAt data n
    rw [hnew] at hstore
    dsimp only
    rw [if_pos hline, printLine_dumpAt data n (by omega)]
    exact hstore
  · have hsame : (n - 1) / 16 = n / 16 := by omega
    rw [hsame]
    dsimp only
    rw [if_neg hline]
    exact store_dumpAt data n

theorem hexdumpLoop_eq {n : ℕ} (h : n ≤ 2 ^ 31) :
    hexdumpLoop data n = some (dumpAt data n ((n - 1) / 16)) := by
  induction n with
  | zero => rfl
  | succ n ih =>
    rw [hexdumpLoop, ih (by omega)]
    exact round_dumpAt data (by omega)

/-- **`hexdump` prints the lines of the bytes**, and stays inside its arrays. -/
theorem hexdump_eq {len : ℤ} (h : len < 2 ^ 31) :
    hexdump data len = some (dumpLines data len.toNat) := by
  have hlines : (len.toNat - 1) / 16 + 1 = max 1 ((len.toNat + 15) / 16) := by omega
  rw [hexdump, hexdumpLoop_eq data (by omega)]
  change ((dumpAt data len.toNat ((len.toNat - 1) / 16)).printLine).bind _ = _
  rw [printLine_dumpAt data _ (by omega), dumpLines, ← hlines]
  rfl

/-! ### Reading the bytes off -/

/-- The bytes in the columns of a line, up to the first one that is none. -/
def readColumns : List UInt8 → List UInt8
  | a :: b :: _ :: s =>
    match Shell.hexDigit a, Shell.hexDigit b with
    | some x, some y => UInt8.ofNat (16 * x + y) :: readColumns s
    | _, _ => []
  | _ => []

/-- The bytes of a dump. A line has 79 characters, 48 of them for the columns. -/
def undump (out : List UInt8) : List UInt8 :=
  (List.range (out.length / 79)).flatMap fun line =>
    readColumns (((out.drop (79 * line)).drop 10).take 48)

theorem readColumns_hexColumns (bytes : List UInt8) {rest : List UInt8}
    (h : readColumns rest = []) : readColumns (hexColumns bytes ++ rest) = bytes := by
  induction bytes with
  | nil => exact h
  | cons c bytes ih =>
    have hc := c.toNat_lt
    have hx := hexDigit_digits true (c.toNat / 16) (by omega)
    have hy := hexDigit_digits true (c.toNat % 16) (Nat.mod_lt _ (by omega))
    have hbyte : UInt8.ofNat (16 * (c.toNat / 16) + c.toNat % 16) = c := by
      rw [Nat.div_add_mod, UInt8.ofNat_toNat]
    have hcons : hexColumns (c :: bytes) ++ rest =
        digits true (c.toNat / 16) :: digits true (c.toNat % 16) :: 0x20 ::
          (hexColumns bytes ++ rest) := rfl
    rw [hcons, readColumns, hx, hy]
    dsimp only
    rw [hbyte, ih]

/-- Blanks are no bytes. -/
theorem readColumns_blanks (k : ℕ) : readColumns (List.replicate k 0x20) = [] := by
  rcases k with _ | _ | _ | k <;> rfl

/-- Where parts of the same length lie in the whole. -/
theorem drop_flatMap_range {f : ℕ → List UInt8} {k n : ℕ} (h : ∀ i < n, (f i).length = k) :
    ((List.range n).flatMap f).length = k * n ∧
      ∀ i < n, ∃ rest, ((List.range n).flatMap f).drop (k * i) = f i ++ rest := by
  induction n with
  | zero => exact ⟨by simp, fun i hi => absurd hi (Nat.not_lt_zero i)⟩
  | succ n ih =>
    obtain ⟨hlength, hdrop⟩ := ih fun i hi => h i (by omega)
    rw [List.range_succ, List.flatMap_append, List.flatMap_singleton]
    refine ⟨by rw [List.length_append, hlength, h n (by omega), mul_add, mul_one], ?_⟩
    intro i hi
    rcases Nat.lt_succ_iff_lt_or_eq.mp hi with hlt | rfl
    · obtain ⟨rest, hrest⟩ := hdrop i hlt
      refine ⟨rest ++ f n, ?_⟩
      have hle : k * i ≤ k * n := Nat.mul_le_mul_left k hlt.le
      rw [List.drop_append_of_le_length (by rw [hlength]; exact hle), hrest, List.append_assoc]
    · refine ⟨[], ?_⟩
      rw [← hlength, List.drop_left, List.append_nil]

theorem length_fixedDigits (small : Bool) (base k num : ℕ) :
    (fixedDigits small base k num).length = k := by simp [fixedDigits]

theorem length_dumpLine (base : ℕ) {bytes : List UInt8} (h : bytes.length ≤ 16) :
    (dumpLine base bytes).length = 79 := by
  have hhex := length_hexColumns bytes
  have htext : (textColumns bytes).length = bytes.length := List.length_map _
  simp only [dumpLine, List.length_append, length_fixedDigits, length_justify, List.length_cons,
    List.length_nil]
  omega

/-- The bytes of a line are read off it, whatever follows. -/
theorem readColumns_dumpLine (base : ℕ) {bytes : List UInt8} (h : bytes.length ≤ 16)
    (rest : List UInt8) :
    readColumns (((dumpLine base bytes ++ rest).drop 10).take 48) = bytes := by
  have hhex := length_hexColumns bytes
  have hcolumns : (justify true 48 (hexColumns bytes)).length = 48 := by
    rw [length_justify]
    omega
  have hstart : (fixedDigits true 16 8 base ++ [0x20, 0x20]).length = 10 := by
    rw [List.length_append, length_fixedDigits]
    rfl
  rw [dumpLine, ← List.append_assoc, List.append_assoc _ _ rest, ← hstart, List.drop_left,
    List.append_assoc, List.take_left' hcolumns]
  exact readColumns_hexColumns bytes (readColumns_blanks _)

/-- The lines, together, have all the bytes; the last may have none. -/
theorem flatMap_lineBytes (n : ℕ) :
    (List.range (n / 16 + 1)).flatMap (lineBytes data n) = (List.range n).map data := by
  induction n with
  | zero => rfl
  | succ n ih =>
    have hextra : (List.range ((n + 1) / 16 + 1)).flatMap (lineBytes data (n + 1)) =
        (List.range (n / 16 + 1)).flatMap (lineBytes data (n + 1)) := by
      rcases (by omega : (n + 1) / 16 = n / 16 ∨ (n + 1) / 16 = n / 16 + 1 ∧ (n + 1) % 16 = 0)
        with h | ⟨h, hmod⟩
      · rw [h]
      · have hempty : lineBytes data (n + 1) (n / 16 + 1) = [] := by
          rw [lineBytes, show min 16 (n + 1 - 16 * (n / 16 + 1)) = 0 by omega]
          rfl
        rw [h, List.range_succ, List.flatMap_append, List.flatMap_singleton, hempty,
          List.append_nil]
    have hbefore : (List.range (n / 16)).flatMap (lineBytes data (n + 1)) =
        (List.range (n / 16)).flatMap (lineBytes data n) :=
      List.flatMap_congr fun line hline =>
        lineBytes_of_le data (by have := List.mem_range.mp hline; omega)
    rw [List.range_succ, List.flatMap_append, List.flatMap_singleton] at ih
    rw [hextra, List.range_succ, List.flatMap_append, List.flatMap_singleton, hbefore,
      lineBytes_succ, ← List.append_assoc, ih, List.range_succ, List.map_append,
      List.map_singleton]

/-- **The bytes can be read off a dump again.** -/
theorem undump_dumpLines (n : ℕ) : undump (dumpLines data n) = (List.range n).map data := by
  have hshort : ∀ line, (lineBytes data n line).length ≤ 16 := by
    intro line
    rw [length_lineBytes]
    exact min_le_left _ _
  obtain ⟨hlength, hdrop⟩ := drop_flatMap_range (n := max 1 ((n + 15) / 16))
    fun line _ => length_dumpLine (16 * line) (hshort line)
  have hlines : (dumpLines data n).length / 79 = max 1 ((n + 15) / 16) := by
    rw [dumpLines, hlength]
    exact Nat.mul_div_cancel_left _ (by decide)
  have hread : ∀ line ∈ List.range (max 1 ((n + 15) / 16)),
      readColumns ((((dumpLines data n).drop (79 * line)).drop 10).take 48) =
        lineBytes data n line := by
    intro line hline
    obtain ⟨rest, hrest⟩ := hdrop line (List.mem_range.mp hline)
    rw [dumpLines, hrest]
    exact readColumns_dumpLine _ (hshort line) rest
  rw [undump, hlines, List.flatMap_congr hread, ← flatMap_lineBytes]
  rcases (by omega : n / 16 + 1 = max 1 ((n + 15) / 16) ∨
    n / 16 + 1 = max 1 ((n + 15) / 16) + 1 ∧ n % 16 = 0 ∧ n ≠ 0) with h | ⟨h, hmod, hpos⟩
  · rw [h]
  · have hempty : lineBytes data n (n / 16) = [] := by
      rw [lineBytes, show min 16 (n - 16 * (n / 16)) = 0 by omega]
      rfl
    have hlast : max 1 ((n + 15) / 16) = n / 16 := by omega
    rw [hlast, List.range_succ, List.flatMap_append, List.flatMap_singleton, hempty,
      List.append_nil]

/-- **A dump shows what is in memory**: `hexdump` stays inside its arrays, and what it prints
determines the bytes. -/
theorem undump_hexdump {len : ℤ} (h : len < 2 ^ 31) :
    ∃ out, hexdump data len = some out ∧ out = dumpLines data len.toNat ∧
      undump out = (List.range len.toNat).map data :=
  ⟨_, hexdump_eq data h, rfl, undump_dumpLines data _⟩

theorem undump_hexdump_three : ∃ out, hexdump (fun i => UInt8.ofNat (0x41 + i)) 3 = some out ∧
    out = dumpLines (fun i => UInt8.ofNat (0x41 + i)) 3 ∧ undump out = [0x41, 0x42, 0x43] :=
  undump_hexdump (fun i => UInt8.ofNat (0x41 + i)) (by decide)

end Thunix.Kernel
