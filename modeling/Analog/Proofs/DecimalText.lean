import Mathlib.Data.String.Basic
import Analog.Decimal.Text
import Analog.Proofs.RoundedQuotients
import Analog.Proofs.TermGrammar

/-!
# Numbers read back from their text

The plain text of a decimal consists of an optional sign, a run of digits and, if the scale is
not zero, a point and as many digits as the scale says. It is a symbol of the grammar of terms,
and it is read as the same decimal if 32 bits hold the scale; no other scale is ever read.
-/

set_option autoImplicit false

namespace Analog.Decimal

theorem digits_value_eq (digits : List Char) (notEmpty : digits ≠ [])
    (each : ∀ char ∈ digits, char.isDigit = true) :
    digitsValue? digits = some (Nat.ofDigitChars 10 digits 0) := by
  have allDigits : digits.all Char.isDigit = true := List.all_eq_true.2 each
  simp [digitsValue?, notEmpty, allDigits, Nat.ofDigitChars_eq_foldl, Nat.mul_comm]

theorem digit_of_mem_padded {length value : Nat} {char : Char}
    (member : char ∈ paddedDigits length value) : char.isDigit = true := by
  unfold paddedDigits at member
  rcases List.mem_append.1 member with zero | digit
  · rw [(List.mem_replicate.1 zero).2]
    rfl
  · exact Nat.isDigit_of_mem_toDigits (by decide) (by decide) digit

theorem length_le_padded (length value : Nat) : length ≤ (paddedDigits length value).length := by
  simp only [paddedDigits, List.length_append, List.length_replicate]
  omega

theorem padded_ne_nil (length value : Nat) : paddedDigits length value ≠ [] := by
  simp [paddedDigits, Nat.toDigits_ne_nil]

theorem padded_value (length value : Nat) :
    digitsValue? (paddedDigits length value) = some value := by
  rw [digits_value_eq _ (padded_ne_nil length value) fun _ => digit_of_mem_padded]
  simp only [paddedDigits, Nat.ofDigitChars_append, Nat.ofDigitChars_replicate_zero, Nat.mul_zero]
  rw [Nat.ofDigitChars_toDigits (by decide) (by decide)]

theorem mem_digits {char : Char} (digit : char.isDigit = true) : char ∈ "0123456789".toList := by
  obtain ⟨low, high⟩ := Char.isDigit_iff_toNat.1 digit
  have within : ∀ number < '9'.toNat + 1, '0'.toNat ≤ number →
      Char.ofNat number ∈ "0123456789".toList := by decide
  rw [← Char.ofNat_toNat char]
  exact within char.toNat (Nat.lt_succ_of_le high) low

theorem of_digits (property : Char → Bool) (each : "0123456789".toList.all property = true)
    {char : Char} (digit : char.isDigit = true) : property char = true :=
  List.all_eq_true.1 each char (mem_digits digit)

theorem bytes_of_digits {digits : List Char} (each : ∀ char ∈ digits, char.isDigit = true) :
    (String.ofList digits).utf8ByteSize = digits.length := by
  rw [String.utf8ByteSize_ofList]
  induction digits with
  | nil => rfl
  | cons digit rest ih =>
      have oneByte : digit.utf8Size = 1 := by
        simpa using of_digits (fun char => char.utf8Size == 1) (by decide)
          (each digit (by simp))
      rw [String.utf8Len_cons, ih fun char member => each char (by simp [member]), oneByte,
        List.length_cons]

def signChars (value : Decimal) : List Char :=
  if value.coeff < 0 then ['-'] else []

/-- The point before the fractional digits, of which there may be none. -/
def tailChars (fraction : List Char) : List Char :=
  if fraction.isEmpty then [] else '.' :: fraction

theorem to_text_parts (value : Decimal) :
    ∃ whole fraction, value.toText.toList = value.signChars ++ whole ++ tailChars fraction ∧
      whole ++ fraction = paddedDigits (value.scale + 1) value.coeff.natAbs ∧
      whole ≠ [] ∧ fraction.length = value.scale := by
  have long := length_le_padded (value.scale + 1) value.coeff.natAbs
  refine ⟨_, _, String.toList_ofList, List.take_append_drop _ _, ?_, ?_⟩
  · rw [← List.length_pos_iff, List.length_take]
    omega
  · rw [List.length_drop]
    omega

/-- Whatever holds of digits, the minus sign and the point holds of the text of a number. -/
theorem to_text_chars (value : Decimal) (property : Char → Bool)
    (each : "0123456789-.".toList.all property = true) :
    ∀ char ∈ value.toText.toList, property char = true := by
  obtain ⟨whole, fraction, text, digits, _, _⟩ := value.to_text_parts
  have each := List.all_eq_true.1 each
  have ofDigit : ∀ char ∈ whole ++ fraction, property char = true := by
    intro char member
    rw [digits] at member
    have found := mem_digits (digit_of_mem_padded member)
    exact each char (List.mem_append_left ['-', '.'] found)
  intro char member
  rw [text, signChars, tailChars, List.mem_append, List.mem_append] at member
  rcases member with (sign | inWhole) | inTail
  · split_ifs at sign
    · rw [List.mem_singleton] at sign
      exact sign ▸ each '-' (by decide)
    · cases sign
  · exact ofDigit char (List.mem_append_left _ inWhole)
  · split_ifs at inTail
    · cases inTail
    · rcases List.mem_cons.1 inTail with rfl | inFraction
      · exact each '.' (by decide)
      · exact ofDigit char (List.mem_append_right _ inFraction)

theorem to_text_word (value : Decimal) : IsWord value.toText.toList := by
  obtain ⟨whole, fraction, text, _, notEmpty, _⟩ := value.to_text_parts
  refine ⟨by simp [text, notEmpty], fun char member => ?_⟩
  simpa using value.to_text_chars (fun char => !Term.isDelimiter char) (by decide)
    char member

theorem signed_value (value : Decimal) {digits : List Char} {magnitude : Nat}
    (each : ∀ char ∈ digits, char.isDigit = true) (read : digitsValue? digits = some magnitude)
    (magnitudeEq : magnitude = value.coeff.natAbs) :
    integerValue? (value.signChars ++ digits) = some value.coeff := by
  by_cases negative : value.coeff < 0
  · rw [signChars, if_pos negative, integerValue?]
    simp only [List.cons_append, List.nil_append, splitSign, read, Option.map_some, if_true,
      Option.some.injEq]
    omega
  · have unsigned : splitSign digits = (false, digits) := by
      unfold splitSign
      split
      · exact absurd (each '-' (by simp)) (by decide)
      · exact absurd (each '+' (by simp)) (by decide)
      · rfl
    rw [signChars, if_neg negative, integerValue?]
    simp only [List.nil_append, unsigned, read, Option.map_some, Bool.false_eq_true, if_false,
      Option.some.injEq]
    omega

theorem cancel_of_lowest {coeff : Int} {scale : Nat} (lowest : scale = 0 ∨ coeff % 10 ≠ 0) :
    cancel coeff scale = (coeff, scale) := by
  cases scale with
  | zero => rfl
  | succ scale =>
      have notMultiple : coeff % 10 ≠ 0 := lowest.resolve_left (Nat.succ_ne_zero scale)
      rw [cancel, if_neg notMultiple]

theorem of_exponent_scale (value : Decimal) : ofExponent value.coeff (0 - value.scale) = value := by
  obtain ⟨coeff, scale, lowest⟩ := value
  simp only [ofExponent]
  split_ifs with isZero negative
  · subst isZero
    obtain rfl : scale = 0 := lowest.resolve_right (by simp)
    rfl
  · simp [ofScaled, cancel_of_lowest lowest]
  · obtain rfl : scale = 0 := by omega
    simp [ofInt, tenTo]

theorem exponent_fits_iff (exponent : Int) :
    exponentFits exponent = true ↔ -2147483648 ≤ exponent ∧ exponent ≤ 2147483647 := by
  simp [exponentFits]

def scaleLimit : Nat := 2147483648

theorem of_text_to_text {value : Decimal} (short : value.scale ≤ scaleLimit) :
    ofText value.toText = .ok value := by
  obtain ⟨whole, fraction, text, digits, _, places⟩ := value.to_text_parts
  have eachDigit : ∀ char ∈ whole ++ fraction, char.isDigit = true := fun char member =>
    digit_of_mem_padded (digits ▸ member)
  have noMark : value.toText.toList.dropWhile (fun char => !(char == 'e' || char == 'E')) = [] :=
    List.dropWhile_eq_nil_iff.2 (value.to_text_chars _ (by decide))
  have noPoint : ∀ {char : Char}, char.isDigit = true → char ≠ '.' := fun digit => by
    simpa using of_digits ((· != '.')) (by decide) digit
  have before : ∀ char ∈ value.signChars ++ whole, (char != '.') = true := by
    intro char member
    rcases List.mem_append.1 member with sign | inWhole
    · rw [signChars] at sign
      split_ifs at sign
      · rw [List.mem_singleton.1 sign]
        rfl
      · cases sign
    · simpa using noPoint (eachDigit char (List.mem_append_left _ inWhole))
  have first : value.toText.toList.takeWhile (· != '.') = value.signChars ++ whole := by
    rw [text, List.takeWhile_append_of_pos before, tailChars]
    split_ifs <;> simp
  have second : (value.toText.toList.dropWhile (· != '.')).drop 1 = fraction := by
    rw [text, List.dropWhile_append_of_pos before, tailChars]
    split_ifs with none
    · simp [List.isEmpty_iff.1 none]
    · simp
  have coefficient : integerValue? (value.signChars ++ whole ++ fraction) = some value.coeff := by
    rw [List.append_assoc, digits] at *
    exact signed_value value (fun _ => digit_of_mem_padded) (padded_value _ _) rfl
  have onePoint : fraction.contains '.' = false := by
    rw [Bool.eq_false_iff]
    intro found
    exact noPoint (eachDigit '.' (List.mem_append_right _ (List.contains_iff_mem.1 found))) rfl
  have bytes : (String.ofList fraction).utf8ByteSize = value.scale := by
    rw [bytes_of_digits fun char member => eachDigit char (List.mem_append_right _ member), places]
  have fits : exponentFits (0 - value.scale) = true := by
    rw [exponent_fits_iff]
    unfold scaleLimit at short
    omega
  simp only [ofText, noMark, ofMantissa, first, second, onePoint, coefficient, bytes, fits,
    of_exponent_scale, Bool.false_eq_true, if_false, if_true]

theorem of_mantissa_scale {whole : String} {mantissa : List Char} {exponent : Int}
    {value : Decimal} (read : ofMantissa whole mantissa exponent = .ok value) :
    value.scale ≤ scaleLimit := by
  simp only [ofMantissa] at read
  generalize String.utf8ByteSize _ = bytes at read
  split at read
  · cases read
  split at read
  · cases read
  split at read
  · rename_i coeff _ fits
    obtain ⟨low, _⟩ := (exponent_fits_iff _).1 fits
    cases read
    unfold ofExponent scaleLimit
    split_ifs
    · exact Nat.zero_le _
    · exact Nat.le_trans (cancel_scale_le _ _) (by omega)
    · exact Nat.zero_le _
  · cases read

theorem of_text_scale {text : String} {value : Decimal} (read : ofText text = .ok value) :
    value.scale ≤ scaleLimit := by
  unfold ofText at read
  simp only at read
  split at read
  · exact of_mantissa_scale read
  · simp only [bind, Except.bind] at read
    split at read
    · cases read
    · exact of_mantissa_scale read

end Analog.Decimal
