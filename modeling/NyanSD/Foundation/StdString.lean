import Mathlib.Data.Nat.Digits.Lemmas
import Mathlib.Data.List.TakeWhile

/-!
# Byte strings of the standard library

Positions are `std::size_t` on a 64-bit platform: `npos` is its largest value and
one past it is zero. A search that fails returns `npos`. Only `substr` and
`stoul` can throw. `strtol` of the C library is here too, since it reads the same
text.
-/

/-- A `std::string`: any bytes, zero included. -/
abbrev Bytes := List UInt8

/-- The bytes of a literal. -/
def ascii (text : List Char) : Bytes := text.map Char.toUInt8

inductive StdException
  | invalidArgument
  | outOfRange
deriving DecidableEq, Repr

namespace StdString

def npos : Nat := 2 ^ 64 - 1

/-- Addition on positions wraps around. -/
def advance (position count : Nat) : Nat := (position + count) % 2 ^ 64

/-- `s.find(c, from)`. -/
def find (s : Bytes) (c : UInt8) (start : Nat) : Nat :=
  match (s.drop start).idxOf? c with
  | some offset => start + offset
  | none => npos

/-- `s.find_last_of(c)`. -/
def findLastOf (s : Bytes) (c : UInt8) : Nat :=
  match s.reverse.idxOf? c with
  | some offset => s.length - 1 - offset
  | none => npos

/-- `s.substr(start, count)`. -/
def substr (s : Bytes) (start count : Nat) : Except StdException Bytes :=
  if s.length < start then .error .outOfRange else .ok ((s.drop start).take count)

/-- `s.replace(start, count, other)`. -/
def replace (s : Bytes) (start count : Nat) (other : Bytes) : Except StdException Bytes :=
  if s.length < start then .error .outOfRange
  else .ok (s.take start ++ other ++ s.drop (start + count))

/-- `s.compare(start, count, other) == 0`: the selected part of `s` against all
of `other`. -/
def comparesEqual (s : Bytes) (start count : Nat) (other : Bytes) : Bool :=
  (s.drop start).take count == other

def isSpace (c : UInt8) : Bool := c == 32 || (9 ≤ c && c ≤ 13)

def isDigit (c : UInt8) : Bool := 48 ≤ c && c ≤ 57

def digitsValue (digits : Bytes) : Nat :=
  digits.foldl (fun value c => 10 * value + (c.toNat - 48)) 0

/-- `std::stoul` in base ten: leading white space, an optional sign, then as
many digits as there are. A minus sign negates in the unsigned type. -/
def stoul (s : Bytes) : Except StdException Nat :=
  let text := s.dropWhile isSpace
  let negative := text.head? == some 45
  let unsigned := if text.head? == some 43 || negative then text.tail else text
  let digits := unsigned.takeWhile isDigit
  if digits = [] then .error .invalidArgument
  else if 2 ^ 64 ≤ digitsValue digits then .error .outOfRange
  else .ok (if negative then (2 ^ 64 - digitsValue digits) % 2 ^ 64 else digitsValue digits)

/-- What a character stands for as a digit, in any base up to 36. -/
def digitValue (c : UInt8) : Option Nat :=
  if isDigit c then some (c.toNat - 48)
  else if 97 ≤ c && c ≤ 122 then some (c.toNat - 87)
  else if 65 ≤ c && c ≤ 90 then some (c.toNat - 55)
  else none

def isDigitIn (base : Nat) (c : UInt8) : Bool := (digitValue c).any fun value => value < base

def digitsValueIn (base : Nat) (digits : Bytes) : Nat :=
  digits.foldl (fun value c => base * value + (digitValue c).getD 0) 0

/-- How base zero finds the base: `0x` in front of a hexadecimal digit is skipped, any other
leading zero stands for octal. -/
def numberBase : Bytes → Nat × Bytes
  | 48 :: x :: c :: rest =>
      if (x = 120 ∨ x = 88) ∧ isDigitIn 16 c then (16, c :: rest) else (8, 48 :: x :: c :: rest)
  | 48 :: rest => (8, 48 :: rest)
  | text => (10, text)

/-- `strtol` in base zero, for a `long` of 64 bits: values beyond its range are cut to the
nearest one. Nothing is returned where the end pointer stays at the start. -/
def strtol (s : Bytes) : Option Int :=
  let text := s.dropWhile isSpace
  let negative := text.head? == some 45
  let (base, body) := numberBase (if text.head? == some 43 || negative then text.tail else text)
  let digits := body.takeWhile (isDigitIn base)
  if digits = [] then none
  else
    let value : Int := digitsValueIn base digits
    some (max (-2 ^ 63) (min (2 ^ 63 - 1) (if negative then -value else value)))

/-- `std::to_string` of a non-negative integer. -/
def decimal (n : Nat) : Bytes :=
  if n = 0 then [48] else (Nat.digits 10 n).reverse.map fun digit => UInt8.ofNat (48 + digit)

/-! ## Printing and reading decimals -/

theorem decimal_ne_nil (n : Nat) : decimal n ≠ [] := by
  unfold decimal
  split
  · simp
  · simp only [ne_eq, List.map_eq_nil_iff, List.reverse_eq_nil_iff, Nat.digits_eq_nil_iff_eq_zero]
    assumption

private theorem toNat_digit {digit : Nat} (hdigit : digit < 10) :
    (UInt8.ofNat (48 + digit)).toNat = 48 + digit := by
  rw [UInt8.toNat_ofNat', Nat.mod_eq_of_lt (by omega)]

private theorem isDigit_digit {digit : Nat} (hdigit : digit < 10) :
    isDigit (UInt8.ofNat (48 + digit)) = true := by
  simp only [isDigit, Bool.and_eq_true, decide_eq_true_eq, UInt8.le_iff_toNat_le,
    toNat_digit hdigit]
  have hlow : (48 : UInt8).toNat = 48 := rfl
  have hhigh : (57 : UInt8).toNat = 57 := rfl
  omega

private theorem toNat_of_isDigit {c : UInt8} (hdigit : isDigit c = true) :
    48 ≤ c.toNat ∧ c.toNat ≤ 57 := by
  simp only [isDigit, Bool.and_eq_true, decide_eq_true_eq, UInt8.le_iff_toNat_le] at hdigit
  exact hdigit

theorem isDigit_of_mem_decimal {n : Nat} {c : UInt8} (hmem : c ∈ decimal n) :
    isDigit c = true := by
  unfold decimal at hmem
  split at hmem
  · simp only [List.mem_singleton] at hmem
    subst c
    decide
  · simp only [List.mem_map, List.mem_reverse] at hmem
    obtain ⟨digit, hdigit, rfl⟩ := hmem
    exact isDigit_digit (Nat.digits_lt_base (by decide) hdigit)

private theorem digitsValue_reverse (digits : List Nat) (hlt : ∀ digit ∈ digits, digit < 10) :
    digitsValue (digits.reverse.map fun digit => UInt8.ofNat (48 + digit)) =
      Nat.ofDigits 10 digits := by
  rw [digitsValue, List.foldl_map, List.foldl_reverse]
  induction digits with
  | nil => rfl
  | cons digit rest ih =>
      obtain ⟨hdigit, hrest⟩ := List.forall_mem_cons.mp hlt
      rw [List.foldr_cons, Nat.ofDigits_cons, ih hrest, toNat_digit hdigit]
      omega

theorem length_decimal_le {n width : Nat} (hpos : 0 < width) (hlt : n < 10 ^ width) :
    (decimal n).length ≤ width := by
  unfold decimal
  split
  · exact hpos
  · simpa using (Nat.digits_length_le_iff (by decide) n).mpr hlt

theorem digitsValue_decimal (n : Nat) : digitsValue (decimal n) = n := by
  unfold decimal
  split
  next hzero => subst n; rfl
  next =>
    rw [digitsValue_reverse _ fun digit hdigit => Nat.digits_lt_base (by decide) hdigit,
      Nat.ofDigits_digits]

/-- A decimal number as it is printed: no zero in front of another digit. -/
structure Canonical (digits : Bytes) : Prop where
  ne_nil : digits ≠ []
  isDigit : ∀ c ∈ digits, isDigit c = true
  head : digits.head? = some 48 → digits.length = 1

instance (digits : Bytes) : Decidable (Canonical digits) :=
  decidable_of_iff
    (digits ≠ [] ∧ digits.all StdString.isDigit = true ∧
      (digits.head? = some 48 → digits.length = 1))
    ⟨fun ⟨hne, hdigits, hhead⟩ => ⟨hne, List.all_eq_true.mp hdigits, hhead⟩,
      fun ⟨hne, hdigits, hhead⟩ => ⟨hne, List.all_eq_true.mpr hdigits, hhead⟩⟩

/-- The values of the digits, last one first. -/
private def digitValues (digits : Bytes) : List Nat :=
  digits.reverse.map fun c => c.toNat - 48

private theorem digitValues_lt {digits : Bytes} (hdigits : ∀ c ∈ digits, isDigit c = true) :
    ∀ value ∈ digitValues digits, value < 10 := by
  intro value hmem
  obtain ⟨c, hc, rfl⟩ := List.mem_map.mp hmem
  have hbounds := toNat_of_isDigit (hdigits c (List.mem_reverse.mp hc))
  omega

private theorem map_digitValues {digits : Bytes} (hdigits : ∀ c ∈ digits, isDigit c = true) :
    ((digitValues digits).reverse.map fun value => UInt8.ofNat (48 + value)) = digits := by
  rw [digitValues, ← List.map_reverse, List.reverse_reverse, List.map_map]
  refine (List.map_congr_left ?_).trans (List.map_id _)
  intro c hmem
  have hbounds := toNat_of_isDigit (hdigits c hmem)
  have hback : 48 + (c.toNat - 48) = c.toNat := by omega
  rw [Function.comp_apply, hback, UInt8.ofNat_toNat, id]

/-- A first digit that is not zero is the last value, and the number is not zero. -/
private theorem digits_ofDigits_digitValues {c : UInt8} {rest : Bytes}
    (hdigits : ∀ other ∈ c :: rest, isDigit other = true) (hnonzero : c ≠ 48) :
    Nat.digits 10 (Nat.ofDigits 10 (digitValues (c :: rest))) = digitValues (c :: rest) := by
  apply Nat.digits_ofDigits 10 (by decide) _ (digitValues_lt hdigits)
  intro hne
  have hlow := (toNat_of_isDigit (hdigits c List.mem_cons_self)).1
  have hother : c.toNat ≠ 48 := fun heq => hnonzero (UInt8.toNat_inj.mp heq)
  simp only [digitValues, List.getLast_map, List.getLast_reverse, List.head_cons]
  omega

/-- A number that is written as it is printed is printed as it was written. -/
theorem Canonical.decimal_digitsValue {digits : Bytes} (hcanonical : Canonical digits) :
    decimal (digitsValue digits) = digits := by
  cases digits with
  | nil => exact absurd rfl hcanonical.ne_nil
  | cons c rest =>
      by_cases hzero : c = 48
      · subst hzero
        have hrest : rest = [] := by simpa using hcanonical.head rfl
        rw [hrest]
        rfl
      have hprinted := map_digitValues hcanonical.isDigit
      have hvalue := digitsValue_reverse _ (digitValues_lt hcanonical.isDigit)
      have hdigits := digits_ofDigits_digitValues hcanonical.isDigit hzero
      rw [hprinted] at hvalue
      have hnonzero : Nat.ofDigits 10 (digitValues (c :: rest)) ≠ 0 := by
        intro hnone
        rw [hnone, Nat.digits_zero] at hdigits
        simp [digitValues] at hdigits
      rw [hvalue, decimal, if_neg hnonzero, hdigits, hprinted]

theorem canonical_decimal (n : Nat) : Canonical (decimal n) where
  ne_nil := decimal_ne_nil n
  isDigit := fun _ => isDigit_of_mem_decimal
  head := by
    intro hhead
    unfold decimal at hhead ⊢
    split at hhead
    next hzero => rw [if_pos hzero]; rfl
    next hzero =>
      -- the first character is the last digit, which is not zero
      have hne : Nat.digits 10 n ≠ [] := Nat.digits_ne_nil_iff_ne_zero.mpr hzero
      have hlast := Nat.getLast_digit_ne_zero 10 hzero
      have hbound := Nat.digits_lt_base (by decide) (List.getLast_mem hne)
      rw [List.head?_map, List.head?_reverse, List.getLast?_eq_some_getLast hne, Option.map_some,
        Option.some.injEq, ← UInt8.toNat_inj, toNat_digit hbound] at hhead
      exact absurd (Nat.add_left_cancel (n := 48) hhead) hlast

theorem decimal_injective : Function.Injective decimal := by
  intro first second heq
  rw [← digitsValue_decimal first, heq, digitsValue_decimal]

private theorem not_isSpace_of_isDigit {c : UInt8} (hdigit : isDigit c = true) :
    isSpace c = false ∧ c ≠ 43 ∧ c ≠ 45 := by
  have hlow := (toNat_of_isDigit hdigit).1
  refine ⟨?_, ?_, ?_⟩
  · simp only [isSpace, Bool.or_eq_false_iff, Bool.and_eq_false_iff, beq_eq_false_iff_ne,
      decide_eq_false_iff_not, UInt8.le_iff_toNat_le]
    refine ⟨?_, .inr ?_⟩
    · rintro rfl
      exact absurd hlow (by decide)
    · have hlimit : (13 : UInt8).toNat = 13 := rfl
      omega
  · rintro rfl
    exact absurd hlow (by decide)
  · rintro rfl
    exact absurd hlow (by decide)

/-- Reading a string of digits only is computing their value, as long as it fits
in an `unsigned long`. -/
theorem stoul_of_digits {digits : Bytes} (hne : digits ≠ [])
    (hdigits : ∀ c ∈ digits, isDigit c = true) (hfits : digitsValue digits < 2 ^ 64) :
    stoul digits = .ok (digitsValue digits) := by
  cases digits with
  | nil => exact absurd rfl hne
  | cons c rest =>
      obtain ⟨hspace, hplus, hminus⟩ := not_isSpace_of_isDigit (hdigits c List.mem_cons_self)
      have htake : (c :: rest).takeWhile isDigit = c :: rest :=
        List.takeWhile_eq_self_iff.mpr hdigits
      simpa [stoul, hspace, hplus, hminus, htake] using hfits

theorem stoul_decimal {n : Nat} (hfits : n < 2 ^ 64) : stoul (decimal n) = .ok n := by
  have hvalue := digitsValue_decimal n
  rw [stoul_of_digits (decimal_ne_nil n) (fun c => isDigit_of_mem_decimal)
    (by rw [hvalue]; exact hfits), hvalue]

/-- Digits whose value does not fit are out of range. -/
theorem stoul_of_large {digits : Bytes} (hdigits : ∀ c ∈ digits, isDigit c = true)
    (hlarge : 2 ^ 64 ≤ digitsValue digits) : stoul digits = .error .outOfRange := by
  cases digits with
  | nil => exact absurd hlarge (by decide)
  | cons c rest =>
      obtain ⟨hspace, hplus, hminus⟩ := not_isSpace_of_isDigit (hdigits c List.mem_cons_self)
      have htake : (c :: rest).takeWhile isDigit = c :: rest :=
        List.takeWhile_eq_self_iff.mpr hdigits
      simpa [stoul, hspace, hplus, hminus, htake] using hlarge

/-- Text that starts with neither white space, a sign nor a digit is no number. -/
theorem stoul_of_not_isDigit {c : UInt8} (rest : Bytes) (hspace : isSpace c = false)
    (hplus : c ≠ 43) (hminus : c ≠ 45) (hdigit : isDigit c = false) :
    stoul (c :: rest) = .error .invalidArgument := by
  simp [stoul, hspace, hplus, hminus, hdigit]

private theorem isDigitIn_of_isDigit {c : UInt8} (hdigit : isDigit c = true) :
    digitValue c = some (c.toNat - 48) ∧ isDigitIn 10 c = true := by
  have hvalue : digitValue c = some (c.toNat - 48) := if_pos hdigit
  refine ⟨hvalue, ?_⟩
  have hhigh := (toNat_of_isDigit hdigit).2
  rw [isDigitIn, hvalue, Option.any_some, decide_eq_true_eq]
  omega

private theorem digitsValueIn_ten {digits : Bytes} (hdigits : ∀ c ∈ digits, isDigit c = true) :
    digitsValueIn 10 digits = digitsValue digits := by
  refine List.foldl_ext _ _ _ ?_
  intro value c hmem
  rw [(isDigitIn_of_isDigit (hdigits c hmem)).1, Option.getD_some]

/-- A number that is written as it is printed is read in base ten. -/
theorem strtol_of_canonical {digits : Bytes} (hcanonical : Canonical digits)
    (hfits : digitsValue digits < 2 ^ 63) : strtol digits = some (digitsValue digits : Int) := by
  obtain ⟨hne, hdigits, hhead⟩ := hcanonical
  cases digits with
  | nil => exact absurd rfl hne
  | cons c rest =>
      by_cases hzero : c = 48
      · subst hzero
        have hrest : rest = [] := by simpa using hhead rfl
        rw [hrest]
        decide
      obtain ⟨hspace, hplus, hminus⟩ := not_isSpace_of_isDigit (hdigits c List.mem_cons_self)
      have htake : (c :: rest).takeWhile (isDigitIn 10) = c :: rest := by
        rw [List.takeWhile_eq_self_iff]
        exact fun other hmem => (isDigitIn_of_isDigit (hdigits other hmem)).2
      have hbase : numberBase (c :: rest) = (10, c :: rest) := by
        unfold numberBase
        split
        · rename_i heq
          exact absurd (List.cons.inj heq).1 hzero
        · rename_i heq
          exact absurd (List.cons.inj heq).1 hzero
        · rfl
      have hvalue := digitsValueIn_ten hdigits
      simp only [strtol, List.dropWhile_cons, hspace, Bool.false_eq_true, if_false, List.head?_cons,
        Option.some_beq_some, beq_eq_false_iff_ne.mpr hplus, beq_eq_false_iff_ne.mpr hminus,
        Bool.or_false, hbase, htake, hvalue, reduceCtorEq, Option.some.injEq]
      omega

theorem strtol_decimal {n : Nat} (hfits : n < 2 ^ 63) : strtol (decimal n) = some (n : Int) := by
  have hvalue := digitsValue_decimal n
  rw [strtol_of_canonical (canonical_decimal n) (by rw [hvalue]; exact hfits), hvalue]

/-! ## Splitting at a separator -/

/-- The first separator ends the first part, and what is behind it is split on its own. -/
theorem splitOn_cases (c : UInt8) (text : Bytes) :
    c ∉ text ∧ text.splitOn c = [text] ∨
      ∃ word rest, text = word ++ c :: rest ∧ c ∉ word ∧
        text.splitOn c = word :: rest.splitOn c := by
  by_cases hmem : c ∈ text
  · obtain ⟨word, rest, rfl, hfree⟩ := List.eq_append_cons_of_mem hmem
    exact .inr ⟨word, rest, rfl, hfree, List.splitOn_append_cons_self_of_not_mem hfree rest⟩
  · exact .inl ⟨hmem, List.splitOn_eq_singleton hmem⟩

private theorem idxOf?_append_cons {c : UInt8} {word : Bytes} (rest : Bytes)
    (hfree : c ∉ word) : (word ++ c :: rest).idxOf? c = some word.length := by
  induction word with
  | nil => simp [List.idxOf?_cons]
  | cons head tail ih =>
      simp only [List.mem_cons, not_or] at hfree
      have hhead : (head == c) = false := by simpa using Ne.symm hfree.1
      simp [List.idxOf?_cons, hhead, ih hfree.2]

/-- Searching from one past the start of a non-empty word finds the separator
that ends the word. -/
theorem find_separator {c : UInt8} (before : Bytes) {word : Bytes} (rest : Bytes)
    (hne : word ≠ []) (hfree : c ∉ word) :
    find (before ++ (word ++ c :: rest)) c (before.length + 1) =
      before.length + word.length := by
  cases word with
  | nil => exact absurd rfl hne
  | cons head tail =>
      simp only [List.mem_cons, not_or] at hfree
      have hdrop : (before ++ (head :: tail ++ c :: rest)).drop (before.length + 1) =
          tail ++ c :: rest := by
        simp [List.drop_append]
      rw [find, hdrop, idxOf?_append_cons rest hfree.2]
      simp only [List.length_cons]
      omega

/-- A search never ends in front of its start. -/
theorem le_find (s : Bytes) (c : UInt8) {start : Nat} (hstart : start ≤ npos) :
    start ≤ find s c start := by
  rw [find]
  split
  · exact Nat.le_add_right _ _
  · exact hstart

/-- Searching from inside the last word finds no separator. -/
theorem find_last_word {c : UInt8} (before : Bytes) {word : Bytes} (hfree : c ∉ word) :
    find (before ++ word) c (before.length + 1) = npos := by
  have hdrop : (before ++ word).drop (before.length + 1) = word.drop 1 := by
    simp [List.drop_append]
  have hnone : (word.drop 1).idxOf? c = none :=
    List.idxOf?_eq_none_iff.mpr fun hmem => hfree (List.mem_of_mem_drop hmem)
  rw [find, hdrop, hnone]

/-- Searching backwards finds the separator behind which there is no other. -/
theorem findLastOf_separator {c : UInt8} (before : Bytes) {word : Bytes} (hfree : c ∉ word) :
    findLastOf (before ++ c :: word) c = before.length := by
  have hreverse : (before ++ c :: word).reverse = word.reverse ++ c :: before.reverse := by
    simp
  have hfound := idxOf?_append_cons before.reverse (mt List.mem_reverse.mp hfree)
  rw [findLastOf, hreverse, hfound]
  simp only [List.length_append, List.length_cons, List.length_reverse]
  omega

/-- Where the first separator stands is known from the string alone. -/
theorem append_separator_inj {c : UInt8} {first second rest more : Bytes}
    (hfirst : c ∉ first) (hsecond : c ∉ second) (heq : first ++ c :: rest = second ++ c :: more) :
    first = second ∧ rest = more := by
  induction first generalizing second with
  | nil =>
      cases second with
      | nil => exact ⟨rfl, (List.cons.inj heq).2⟩
      | cons head tail =>
          exact absurd (List.cons.inj heq).1 (List.ne_of_not_mem_cons hsecond)
  | cons head tail ih =>
      cases second with
      | nil => exact absurd (List.cons.inj heq).1.symm (List.ne_of_not_mem_cons hfirst)
      | cons other tail' =>
          obtain ⟨rfl, htail⟩ := List.cons.inj heq
          obtain ⟨rfl, hrest⟩ := ih (List.not_mem_of_not_mem_cons hfirst)
            (List.not_mem_of_not_mem_cons hsecond) htail
          exact ⟨rfl, hrest⟩

/-- What is behind a position is replaced, if there is no more of it. -/
theorem replace_end (before : Bytes) {word : Bytes} {count : Nat} (hshort : word.length ≤ count)
    (other : Bytes) :
    replace (before ++ word) before.length count other = .ok (before ++ other) := by
  have hlength : (before ++ word).length ≤ before.length + count := by
    rw [List.length_append]
    omega
  rw [replace, if_neg (by simp), List.take_left, List.drop_eq_nil_of_le hlength, List.append_nil]

theorem substr_word (before word rest : Bytes) :
    substr (before ++ (word ++ rest)) before.length word.length = .ok word := by
  simp [substr]

end StdString
