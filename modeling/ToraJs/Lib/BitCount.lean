import Mathlib.Data.List.Range
import Mathlib.Data.Nat.Bitwise

/-!
# Counting the bits of a number

The number of set bits below a width.  Taking away the lowest set bit, which `n &&& (n - 1)`
does, lowers the count by one.
-/

namespace BitCount

/-- The number of set bits among the lowest `w`. -/
def bitCount (w n : ℕ) : ℕ := (List.range w).countP fun i => n.testBit i

@[simp]
lemma bitCount_zero_right (w : ℕ) : bitCount w 0 = 0 :=
  List.countP_eq_zero.mpr fun i _ => by simp

/-- The lowest bit counts apart. -/
lemma bitCount_succ (w n : ℕ) : bitCount (w + 1) n = n % 2 + bitCount w (n / 2) := by
  have htail : (fun i => n.testBit i) ∘ Nat.succ = fun i => (n / 2).testBit i :=
    funext fun i => Nat.testBit_succ n i
  rw [bitCount, List.range_succ_eq_map, List.countP_cons, List.countP_map, htail, Nat.add_comm,
    Nat.testBit_zero]
  rcases Nat.mod_two_eq_zero_or_one n with h | h <;> simp [h, bitCount]

/-- An odd number loses its lowest bit. -/
lemma and_pred_odd (q : ℕ) : (2 * q + 1) &&& (2 * q + 1 - 1) = 2 * q := by
  refine Nat.eq_of_testBit_eq fun i => ?_
  rw [Nat.testBit_and, Nat.add_sub_cancel]
  cases i with
  | zero => simp
  | succ i =>
    rw [Nat.testBit_succ, Nat.testBit_succ, show (2 * q + 1) / 2 = q by omega,
      show 2 * q / 2 = q by omega, Bool.and_self]

/-- An even number keeps its lowest bit, and the rest loses its lowest set bit. -/
lemma and_pred_even {q : ℕ} (hq : 0 < q) : (2 * q) &&& (2 * q - 1) = 2 * (q &&& (q - 1)) := by
  refine Nat.eq_of_testBit_eq fun i => ?_
  rw [Nat.testBit_and]
  cases i with
  | zero => simp
  | succ i =>
    rw [Nat.testBit_succ, Nat.testBit_succ, Nat.testBit_succ, show 2 * q / 2 = q by omega,
      show (2 * q - 1) / 2 = q - 1 by omega, Nat.mul_div_cancel_left _ (by omega),
      Nat.testBit_and]

/-- **`n &&& (n - 1)` has one bit less.** -/
theorem bitCount_and_pred {w : ℕ} : ∀ {n : ℕ}, 0 < n → n < 2 ^ w →
    bitCount w (n &&& (n - 1)) + 1 = bitCount w n := by
  induction w with
  | zero => exact fun {n} hpos hlt => absurd hlt (by omega)
  | succ w ih =>
    intro n hpos hlt
    rw [Nat.pow_succ] at hlt
    obtain ⟨q, rfl | rfl⟩ : ∃ q, n = 2 * q + 1 ∨ n = 2 * q := ⟨n / 2, by omega⟩
    · rw [and_pred_odd, bitCount_succ, bitCount_succ, show (2 * q + 1) / 2 = q by omega,
        show 2 * q / 2 = q by omega, show (2 * q + 1) % 2 = 1 by omega,
        show 2 * q % 2 = 0 by omega]
      omega
    · have hq : 0 < q := by omega
      have hrest := ih hq (by omega)
      rw [and_pred_even hq, bitCount_succ, bitCount_succ, Nat.mul_div_cancel_left _ (by omega),
        Nat.mul_div_cancel_left _ (by omega), Nat.mul_mod_right, Nat.mul_mod_right]
      omega

/-- Only zero has no bit. -/
lemma bitCount_pos {w n : ℕ} (hpos : 0 < n) (hlt : n < 2 ^ w) : 0 < bitCount w n := by
  have := bitCount_and_pred hpos hlt
  omega

end BitCount
