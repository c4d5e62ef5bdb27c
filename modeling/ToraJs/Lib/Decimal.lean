import Mathlib.Data.Nat.Digits.Lemmas
import Mathlib.Tactic.Ring

/-!
# Zero-padded decimal numerals

A number is printed as its decimal digits, the most significant one first, with zeros in front
up to a given width, one ASCII byte a digit.  Reading such a numeral from the left gives the
number back, and the numeral has the given width exactly when the number fits into it.
-/

namespace Decimal

/-- The byte of a decimal digit. -/
def digitByte (d : ℕ) : UInt8 := UInt8.ofNat (48 + d)

/-- Is the byte one of `0` to `9`? -/
def isDigit (c : UInt8) : Bool := decide (48 ≤ c) && decide (c ≤ 57)

/-- The value of a digit. -/
def digitVal (c : UInt8) : ℕ := (c - 48).toNat

/-- The decimal digits of `n`, the most significant one first, with zeros in front up to the
width `w`. -/
def zeroPadded (w n : ℕ) : List UInt8 :=
  List.replicate (w - (Nat.digits 10 n).length) (digitByte 0) ++
    (Nat.digits 10 n).reverse.map digitByte

/-- The number that a string of digits denotes, read from the left. -/
def readDigits (s : List UInt8) : ℕ := s.foldl (fun v c => v * 10 + digitVal c) 0

/-- The byte of a digit is a digit. -/
lemma isDigit_digitByte {d : ℕ} (hd : d < 10) : isDigit (digitByte d) = true := by
  have hall : ∀ d < 10, isDigit (digitByte d) = true := by decide
  exact hall d hd

/-- The byte of a digit has the value of the digit. -/
lemma digitVal_digitByte {d : ℕ} (hd : d < 10) : digitVal (digitByte d) = d := by
  have hall : ∀ d < 10, digitVal (digitByte d) = d := by decide
  exact hall d hd

/-- Every byte of a numeral is a digit. -/
lemma isDigit_of_mem_zeroPadded {w n : ℕ} {c : UInt8} (hc : c ∈ zeroPadded w n) :
    isDigit c = true := by
  rcases List.mem_append.mp hc with hc | hc
  · rw [List.eq_of_mem_replicate hc]
    exact isDigit_digitByte (by omega)
  · obtain ⟨d, hd, rfl⟩ := List.mem_map.mp hc
    exact isDigit_digitByte (Nat.digits_lt_base (by omega) (List.mem_reverse.mp hd))

/-- A numeral is as long as its digits, and no shorter than its width. -/
lemma length_zeroPadded (w n : ℕ) :
    (zeroPadded w n).length = max w (Nat.digits 10 n).length := by
  simp only [zeroPadded, List.length_append, List.length_replicate, List.length_map,
    List.length_reverse]
  omega

/-- A number below `10 ^ w` is printed in exactly `w` digits. -/
lemma length_zeroPadded_of_lt {w n : ℕ} (h : n < 10 ^ w) : (zeroPadded w n).length = w := by
  have hlen : (Nat.digits 10 n).length ≤ w := Nat.digits_length_le_iff (by omega) n |>.mpr h
  rw [length_zeroPadded, max_eq_left hlen]

/-- A number from `10 ^ w` on takes more than `w` digits. -/
lemma lt_length_zeroPadded {w n : ℕ} (h : 10 ^ w ≤ n) : w < (zeroPadded w n).length := by
  have hlen : w < (Nat.digits 10 n).length := Nat.lt_digits_length_iff (by omega) n |>.mpr h
  rw [length_zeroPadded]
  exact lt_max_of_lt_right hlen

/-- The digits of a number, read from the left, give the number. -/
lemma foldl_digits (ds : List ℕ) (hds : ∀ d ∈ ds, d < 10) :
    (ds.reverse.map digitByte).foldl (fun v c => v * 10 + digitVal c) 0 = Nat.ofDigits 10 ds := by
  induction ds with
  | nil => rfl
  | cons d ds ih =>
    have hd : d < 10 := hds d List.mem_cons_self
    have ih := ih fun x hx => hds x (List.mem_cons_of_mem d hx)
    rw [List.reverse_cons, List.map_append, List.foldl_append, ih, Nat.ofDigits_cons]
    simp only [List.map_cons, List.map_nil, List.foldl_cons, List.foldl_nil,
      digitVal_digitByte hd]
    ring

/-- Zeros in front of a numeral do not change its value. -/
lemma foldl_replicate_zero (k : ℕ) :
    (List.replicate k (digitByte 0)).foldl (fun v c => v * 10 + digitVal c) 0 = 0 := by
  induction k with
  | zero => rfl
  | succ k ih =>
    rw [List.replicate_succ, List.foldl_cons, digitVal_digitByte (by omega)]
    exact ih

/-- Reading a numeral gives the number that was printed. -/
theorem readDigits_zeroPadded (w n : ℕ) : readDigits (zeroPadded w n) = n := by
  rw [readDigits, zeroPadded, List.foldl_append, foldl_replicate_zero,
    foldl_digits _ fun d hd => Nat.digits_lt_base (by omega) hd]
  exact Nat.ofDigits_digits 10 n

end Decimal
