/-!
# Decimal numerals

A numeral is an optional sign and at least one decimal digit, with nothing before, between or
after them.  Leading zeros and a signed zero are numerals as well.

* `Numeral.digits?` : the value of an unsigned numeral;
* `Numeral.value?` : the value of a numeral;
* `Numeral.word?` : the value of a numeral, if it fits a 64-bit word.
-/

namespace ResidueMachine

namespace Numeral

/-- The value of a row of digits. -/
def digits? (text : List Char) : Option Nat :=
  if text ≠ [] ∧ text.all Char.isDigit then some (Nat.ofDigitChars 10 text 0) else none

/-- The value of a numeral. -/
def value? : List Char → Option Int
  | '+' :: digits => (digits? digits).map Int.ofNat
  | '-' :: digits => (digits? digits).map fun n : Nat => -(n : Int)
  | digits => (digits? digits).map Int.ofNat

/-- The value fits a signed 64-bit word. -/
def FitsWord (value : Int) : Prop :=
  Int64.minValue.toInt ≤ value ∧ value ≤ Int64.maxValue.toInt

instance (value : Int) : Decidable (FitsWord value) :=
  inferInstanceAs (Decidable (_ ∧ _))

/-- The word that a text writes, if it is a numeral whose value fits. -/
def word? (text : List Char) : Option Int64 :=
  ((value? text).filter (FitsWord ·)).map Int64.ofInt

theorem toInt_ofInt_of_fitsWord {value : Int} (h : FitsWord value) :
    (Int64.ofInt value).toInt = value :=
  Int64.toInt_ofInt_of_le h.1 (Int.lt_of_le_of_lt h.2 (by decide))

/-- **A word is written by the numerals of its value.** -/
theorem word?_eq_some_iff {text : List Char} {word : Int64} :
    word? text = some word ↔ value? text = some word.toInt := by
  simp only [word?, Option.map_eq_some_iff, Option.filter_eq_some_iff, decide_eq_true_eq]
  constructor
  · rintro ⟨value, ⟨hvalue, hfits⟩, rfl⟩
    rw [toInt_ofInt_of_fitsWord hfits, hvalue]
  · intro h
    exact ⟨word.toInt, ⟨h, word.minValue_le_toInt, word.toInt_le⟩, Int64.ofInt_toInt word⟩

end Numeral

end ResidueMachine
