import Mathlib.Algebra.Group.Nat.Defs
import Mathlib.Data.List.TakeWhile
import Mathlib.Data.Nat.Basic

/-!
# Decimal texts of integers

The text of an integer has no superfluous sign or zero.  Reading is more liberal: it skips blanks,
takes an optional sign and as many digits as there are, and ignores the rest.  What has been written
is read back.
-/

namespace Decimal

/-- The decimal text of an integer. -/
def write : Int → List Char
  | .ofNat number => Nat.toDigits 10 number
  | .negSucc number => '-' :: Nat.toDigits 10 (number + 1)

/-- The digits at the begin of a text, if there are any. -/
def readDigits (text : List Char) : Option Nat :=
  match text.takeWhile Char.isDigit with
  | [] => none
  | digits => some (Nat.ofDigitChars 10 digits 0)

/-- An optional sign and digits. -/
def readSigned : List Char → Option Int
  | '-' :: text => (readDigits text).map fun number : Nat => -(number : Int)
  | '+' :: text => (readDigits text).map Int.ofNat
  | text => (readDigits text).map Int.ofNat

/-- The blanks of the C locale: tab to carriage return, and the space. -/
def isBlank (char : Char) : Bool := (9 ≤ char.toNat && char.toNat ≤ 13) || char.toNat == 32

/-- Read an integer after blanks. -/
def read (text : List Char) : Option Int := readSigned (text.dropWhile isBlank)

theorem readDigits_toDigits (number : Nat) : readDigits (Nat.toDigits 10 number) = some number := by
  have digits : (Nat.toDigits 10 number).takeWhile Char.isDigit = Nat.toDigits 10 number :=
    List.takeWhile_eq_self_iff.mpr fun _ member =>
      Nat.isDigit_of_mem_toDigits (by decide) (by decide) member
  rw [readDigits, digits]
  split
  · exact absurd ‹_› Nat.toDigits_ne_nil
  · rw [Nat.ofDigitChars_toDigits (by decide) (by decide)]

/-- The digits of a number end where the text goes on with another character. -/
theorem split_digits {digits text : List Char} {stop : Char}
    (all : ∀ digit ∈ digits, digit.isDigit = true) (other : stop.isDigit = false) :
    (digits ++ stop :: text).takeWhile Char.isDigit = digits ∧
      (digits ++ stop :: text).dropWhile Char.isDigit = stop :: text := by
  constructor
  · rw [List.takeWhile_append_of_pos all, List.takeWhile_cons_of_neg (by simp [other]),
      List.append_nil]
  · rw [List.dropWhile_append_of_pos all, List.dropWhile_cons_of_neg (by simp [other])]

/-- A number with leading zeros. -/
def padded (width number : Nat) : List Char :=
  List.replicate (width - (Nat.toDigits 10 number).length) '0' ++ Nat.toDigits 10 number

theorem padded_zero (number : Nat) : padded 0 number = Nat.toDigits 10 number := by
  simp [padded]

theorem isDigit_of_mem_padded {width number : Nat} {digit : Char}
    (member : digit ∈ padded width number) : digit.isDigit = true := by
  rcases List.mem_append.mp member with zero | member
  · obtain ⟨-, rfl⟩ := List.mem_replicate.mp zero
    rfl
  · exact Nat.isDigit_of_mem_toDigits (by decide) (by decide) member

theorem length_write_le {number : Int} {digits : Nat} (positive : 0 < digits)
    (bound : number.natAbs < 10 ^ digits) : (write number).length ≤ digits + 1 := by
  cases number with
  | ofNat number =>
      have short : (Nat.toDigits 10 number).length ≤ digits :=
        (Nat.length_toDigits_le_iff (by decide) positive).mpr bound
      rw [write]
      omega
  | negSucc number =>
      have short : (Nat.toDigits 10 (number + 1)).length ≤ digits :=
        (Nat.length_toDigits_le_iff (by decide) positive).mpr bound
      rw [write, List.length_cons]
      omega

theorem length_padded {width number : Nat} (positive : 0 < width) (bound : number < 10 ^ width) :
    (padded width number).length = width := by
  have short := (Nat.length_toDigits_le_iff (by decide) positive).mpr bound
  rw [padded, List.length_append, List.length_replicate]
  omega

theorem readDigits_padded_append {width number : Nat} {text : List Char} {stop : Char}
    (other : stop.isDigit = false) :
    readDigits (padded width number ++ stop :: text) = some number := by
  rw [readDigits, (split_digits (fun _ => isDigit_of_mem_padded) other).1]
  split
  · rename_i empty
    exact absurd (List.append_eq_nil_iff.mp empty).2 Nat.toDigits_ne_nil
  · rw [padded, Nat.ofDigitChars_append, Nat.ofDigitChars_replicate_zero, Nat.mul_zero,
      Nat.ofDigitChars_toDigits (by decide) (by decide)]

theorem dropWhile_padded_append {width number : Nat} {text : List Char} {stop : Char}
    (other : stop.isDigit = false) :
    (padded width number ++ stop :: text).dropWhile Char.isDigit = stop :: text :=
  (split_digits (fun _ => isDigit_of_mem_padded) other).2

theorem not_blank_of_isDigit {digit : Char} (isDigit : digit.isDigit = true) :
    isBlank digit = false ∧ digit ≠ '-' ∧ digit ≠ '+' := by
  refine ⟨?_, ?_, ?_⟩
  · have least : 48 ≤ digit.toNat := (Char.isDigit_iff_toNat.mp isDigit).1
    have tooLarge : ¬ digit.toNat ≤ 13 := by omega
    have notSpace : digit.toNat ≠ 32 := by omega
    simp [isBlank, tooLarge, notSpace]
  · rintro rfl
    simp at isDigit
  · rintro rfl
    simp at isDigit

theorem exists_toDigits_eq_cons (number : Nat) : ∃ digit digits,
    Nat.toDigits 10 number = digit :: digits ∧ digit.isDigit = true := by
  obtain ⟨digit, digits, split⟩ :=
    List.exists_cons_of_ne_nil (Nat.toDigits_ne_nil : Nat.toDigits 10 number ≠ [])
  have member : digit ∈ Nat.toDigits 10 number := by
    rw [split]
    exact List.mem_cons_self
  exact ⟨digit, digits, split, Nat.isDigit_of_mem_toDigits (by decide) (by decide) member⟩

/-- What has been written is read back. -/
theorem read_write (number : Int) : read (write number) = some number := by
  cases number with
  | ofNat number =>
      obtain ⟨digit, digits, split, isDigit⟩ := exists_toDigits_eq_cons number
      obtain ⟨noBlank, noMinus, noPlus⟩ := not_blank_of_isDigit isDigit
      have whole := readDigits_toDigits number
      rw [split] at whole
      rw [read, write, split, List.dropWhile_cons, noBlank]
      simp [readSigned, noMinus, noPlus, whole]
  | negSucc number =>
      have blank : isBlank '-' = false := by decide
      have value : -((number + 1 : Nat) : Int) = Int.negSucc number := rfl
      rw [read, write, List.dropWhile_cons, blank, if_neg Bool.false_ne_true, readSigned,
        readDigits_toDigits, Option.map_some, value]

end Decimal
