import Mathlib.Data.List.Basic
import Mathlib.Data.List.Induction
import Mathlib.Tactic.Ring

/-!
# Big-endian fields

A field of `k` bytes holds a number below `256 ^ k`, its highest byte first.  A file is a row of
fields; a field is read back at the offset where the fields before it end, whatever they hold.
-/

namespace BigEndian

/-- The low `k` bytes of a number. -/
def toBe : ℕ → ℕ → List UInt8
  | 0, _ => []
  | k + 1, n => toBe k (n / 256) ++ [UInt8.ofNat n]

/-- The number that some bytes hold. -/
def ofBe (bytes : List UInt8) : ℕ := bytes.foldl (fun n b => 256 * n + b.toNat) 0

/-- The `k` bytes at an offset. -/
def field (bytes : List UInt8) (off k : ℕ) : List UInt8 := (bytes.drop off).take k

@[simp] lemma length_toBe (k n : ℕ) : (toBe k n).length = k := by
  induction k generalizing n with
  | zero => rfl
  | succ k ih => rw [toBe, List.length_append, ih, List.length_singleton]

/-- A last byte is the lowest one. -/
lemma ofBe_concat (bytes : List UInt8) (b : UInt8) :
    ofBe (bytes ++ [b]) = 256 * ofBe bytes + b.toNat := by
  rw [ofBe, List.foldl_append]
  rfl

/-- The bytes of a number hold it. -/
lemma ofBe_toBe {k n : ℕ} (h : n < 256 ^ k) : ofBe (toBe k n) = n := by
  induction k generalizing n with
  | zero =>
    rw [Nat.pow_zero] at h
    rw [Nat.lt_one_iff.mp h]
    rfl
  | succ k ih =>
    have hlow : (UInt8.ofNat n).toNat = n % 256 := UInt8.toNat_ofNat
    rw [toBe, ofBe_concat, ih (Nat.div_lt_of_lt_mul (by rwa [← Nat.pow_succ'])), hlow]
    exact Nat.div_add_mod n 256

/-- The number that `k` bytes hold is below `256 ^ k`. -/
lemma ofBe_lt (bytes : List UInt8) : ofBe bytes < 256 ^ bytes.length := by
  induction bytes using List.reverseRecOn with
  | nil => exact Nat.one_pos
  | append_singleton bytes b ih =>
    have hb : b.toNat < 256 := b.toNat_lt
    have hpow : 256 ^ (bytes.length + 1) = 256 * 256 ^ bytes.length := by ring
    rw [ofBe_concat, List.length_append, List.length_singleton, hpow]
    omega

section Reading

variable {before row behind : List UInt8} {off k : ℕ}

lemma length_field_le (bytes : List UInt8) (off k : ℕ) : (field bytes off k).length ≤ k :=
  List.length_take_le _ _

lemma length_field (h : off + k ≤ row.length) : (field row off k).length = k := by
  rw [field, List.length_take, List.length_drop]
  omega

/-- **A field is read back** where the fields before it end. -/
lemma field_at (hoff : before.length = off) (hk : row.length = k) :
    field (before ++ (row ++ behind)) off k = row := by
  rw [field, ← hoff, List.drop_left, ← hk, List.take_left]

/-- A field at the head is read back. -/
lemma field_head (hk : row.length = k) : field (row ++ behind) 0 k = row := by
  rw [field, List.drop_zero, ← hk, List.take_left]

/-- A field of a field. -/
lemma field_field (bytes : List UInt8) (off : ℕ) {j m : ℕ} (h : j + m ≤ k) :
    field (field bytes off k) j m = field bytes (off + j) m := by
  rw [field, field, field, List.drop_take, List.take_take, List.drop_drop,
    Nat.min_eq_left (by omega)]

/-- A row of fields of one width. -/
lemma length_flatMap_of_width {α : Type} {write : α → List UInt8}
    (hwidth : ∀ a, (write a).length = k) (l : List α) : (l.flatMap write).length = l.length * k := by
  induction l with
  | nil => rw [List.flatMap_nil, List.length_nil, List.length_nil, Nat.zero_mul]
  | cons a l ih =>
    rw [List.flatMap_cons, List.length_append, hwidth, ih, List.length_cons]
    ring

/-- **A field of a row** of fields of one width is read back at its index. -/
lemma field_flatMap {α : Type} {write : α → List UInt8} (hwidth : ∀ a, (write a).length = k)
    {l : List α} {i : ℕ} {a : α} (hget : l[i]? = some a) (hoff : before.length = off) :
    field (before ++ (l.flatMap write ++ behind)) (off + i * k) k = write a := by
  induction l generalizing before off i with
  | nil => cases hget
  | cons b l ih =>
    rw [List.flatMap_cons, List.append_assoc]
    cases i with
    | zero =>
      cases hget
      rw [Nat.zero_mul, Nat.add_zero, field_at hoff (hwidth a)]
    | succ i =>
      have hoff' : (before ++ write b).length = off + k := by
        rw [List.length_append, hoff, hwidth]
      rw [← List.append_assoc before, Nat.succ_mul, Nat.add_comm (i * k) k, ← Nat.add_assoc]
      exact ih hget hoff'

/-- **A row is read back** when each of its fields is. -/
lemma map_range_eq {α β : Type} {read : ℕ → β} {val : α → β}
    {l : List α} (hread : ∀ (i : ℕ) (a : α), l[i]? = some a → read i = val a) :
    (List.range l.length).map read = l.map val := by
  refine List.ext_getElem? fun i => ?_
  rw [List.getElem?_map, List.getElem?_map]
  cases hget : l[i]? with
  | none =>
    have hlen : (List.range l.length).length ≤ i := by
      rw [List.length_range]
      exact List.getElem?_eq_none_iff.mp hget
    rw [List.getElem?_eq_none_iff.mpr hlen]
    rfl
  | some a =>
    rw [List.getElem?_range (List.getElem?_eq_some_iff.mp hget).1, Option.map_some, Option.map_some,
      hread i a hget]

end Reading

end BigEndian
