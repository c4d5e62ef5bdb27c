import Mathlib.Data.List.Basic
import Mathlib.Data.Nat.Basic
import Mathlib.Tactic.Ring

/-!
# Little-endian fields

A field of `k` bytes holds a number below `256 ^ k`, its lowest byte first.  A reader takes the
field at an offset out of a file; what it reads is the number that was written there, whatever
stands before and behind the field.
-/

namespace LittleEndian

/-- The low `k` bytes of a number. -/
def toLe : ℕ → ℕ → List (BitVec 8)
  | 0, _ => []
  | k + 1, n => BitVec.ofNat 8 n :: toLe k (n / 256)

/-- The number that some bytes hold. -/
def ofLe : List (BitVec 8) → ℕ
  | [] => 0
  | b :: bytes => b.toNat + 256 * ofLe bytes

/-- The field of `k` bytes at an offset. -/
def readLe (bytes : List (BitVec 8)) (off k : ℕ) : ℕ := ofLe ((bytes.drop off).take k)

@[simp] lemma length_toLe (k n : ℕ) : (toLe k n).length = k := by
  induction k generalizing n with
  | zero => rfl
  | succ k ih => rw [toLe, List.length_cons, ih]

/-- The bytes of a number hold it, as far as they go. -/
lemma ofLe_toLe (k n : ℕ) : ofLe (toLe k n) = n % 256 ^ k := by
  induction k generalizing n with
  | zero => rw [Nat.pow_zero, Nat.mod_one]; rfl
  | succ k ih =>
    have hpow : 256 ^ (k + 1) = 256 * 256 ^ k := by ring
    rw [toLe, ofLe, ih, BitVec.toNat_ofNat, hpow, Nat.mod_mul]

section Reading

variable {before bytes behind : List (BitVec 8)} {off k n : ℕ}

/-- What stands before a part of the file only moves it. -/
lemma readLe_append_right (before bytes : List (BitVec 8)) (off k : ℕ) :
    readLe (before ++ bytes) (before.length + off) k = readLe bytes off k := by
  rw [readLe, readLe, List.drop_append, List.drop_of_length_le (by omega), List.nil_append,
    Nat.add_sub_cancel_left]

/-- What stands behind a field is not read. -/
lemma readLe_append_left (h : off + k ≤ bytes.length) :
    readLe (bytes ++ behind) off k = readLe bytes off k := by
  have hdrop : k ≤ (bytes.drop off).length := by
    rw [List.length_drop]
    omega
  rw [readLe, readLe, List.drop_append_of_le_length (by omega), List.take_append_of_le_length hdrop]

/-- **A field is read back.** -/
lemma readLe_field (before behind : List (BitVec 8)) (k n : ℕ) :
    readLe (before ++ (toLe k n ++ behind)) before.length k = n % 256 ^ k := by
  have h := readLe_append_right before (toLe k n ++ behind) 0 k
  rw [Nat.add_zero] at h
  have hfield : 0 + k ≤ (toLe k n).length := by
    rw [length_toLe]
    omega
  rw [h, readLe_append_left hfield, readLe, List.drop_zero, List.take_of_length_le, ofLe_toLe]
  exact (length_toLe k n).le

lemma length_table (k : ℕ) (l : List ℕ) : (l.flatMap (toLe k)).length = k * l.length := by
  induction l with
  | nil => rfl
  | cons n l ih =>
    rw [List.flatMap_cons, List.length_append, length_toLe, ih, List.length_cons]
    ring

/-- **An entry of a table** is read back at its index. -/
lemma readLe_table {l : List ℕ} {i : ℕ} (h : l[i]? = some n) :
    readLe (l.flatMap (toLe k)) (k * i) k = n % 256 ^ k := by
  induction l generalizing i with
  | nil => cases h
  | cons m l ih =>
    rw [List.flatMap_cons]
    cases i with
    | zero =>
      cases h
      rw [Nat.mul_zero]
      exact readLe_field [] (l.flatMap (toLe k)) k n
    | succ i =>
      have hshift := readLe_append_right (toLe k m) (l.flatMap (toLe k)) (k * i) k
      rw [length_toLe] at hshift
      rw [Nat.mul_succ, Nat.add_comm, hshift]
      exact ih h

end Reading

end LittleEndian
