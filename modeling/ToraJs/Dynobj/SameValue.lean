import ToraJs.Lib.Ieee754

/-!
# Values and SameValue

A boxed value is an immediate or the address of a cell.  A string is an immediate or a cell, and
an integer may be boxed as an `int32` or as a double, so one value of the language has several
boxes; `__torajs_anyv_same_value` compares boxes.  What it compares them for is the value a box
denotes.
-/

namespace Torajs.Dynobj

open Ieee754

/-- What a heap cell holds, as far as comparisons read it. -/
inductive Cell
  | str (bytes : List UInt8)
  | bigInt (n : ℤ)
  | object

/-- The heap.  Strings and integers are not written to, so that the cells are those of the whole
run; `materialize` is the cell that holds a string that is widened. -/
structure Heap where
  cell : ℕ → Cell
  materialize : List UInt8 → ℕ
  materialized : ∀ bytes, cell (materialize bytes) = .str bytes

/-- `AnyValue`. -/
inductive AnyValue
  | undefined
  | null
  | bool (b : Bool)
  | int32 (n : BitVec 32)
  | double (x : F64)
  | shortStr (bytes : List UInt8)
  | cell (p : ℕ)
  deriving DecidableEq

/-- `==` on doubles. -/
def numEq (a b : F64) : Bool := F64.partialCmp a b == some .eq

/-- A double that is zero. -/
def isZero : F64 → Bool
  | .finite _ m => m.units == 0
  | .inf _ | .nan => false

/-- `f64::is_sign_negative`; the sign of a NaN is never read. -/
def isSignNegative : F64 → Bool
  | .finite s _ | .inf s => s
  | .nan => false

/-- Two cells: strings by their bytes, integers by their value. -/
def cellEq (heap : Heap) (p q : ℕ) : Bool :=
  match heap.cell p, heap.cell q with
  | .str a, .str b => a == b
  | .bigInt m, .bigInt n => m == n
  | _, _ => false

/-- A string immediate and a cell. -/
def shortStrEq (heap : Heap) (a : List UInt8) (q : ℕ) : Bool :=
  match heap.cell q with
  | .str b => a == b
  | _ => false

/-- `__torajs_anyv_strict_eq` on boxes of different bits. -/
def strictEqDistinct (heap : Heap) : AnyValue → AnyValue → Bool
  | .double x, .double y => numEq x y
  | .int32 n, .double y => numEq (F64.ofInt n.toInt) y
  | .double x, .int32 n => numEq x (F64.ofInt n.toInt)
  | .cell p, .cell q => cellEq heap p q
  | .shortStr a, .cell q => shortStrEq heap a q
  | .cell p, .shortStr b => shortStrEq heap b p
  | _, _ => false

/-- `__torajs_anyv_strict_eq`. -/
def strictEq (heap : Heap) (l r : AnyValue) : Bool :=
  if l = r then decide (l ≠ .double .nan) else strictEqDistinct heap l r

/-- A number, from either of its boxes. -/
def asNumber : AnyValue → Option F64
  | .double x => some x
  | .int32 n => some (F64.ofInt n.toInt)
  | .undefined | .null | .bool _ | .shortStr _ | .cell _ => none

/-- The numeric rows of SameValue. -/
def sameNumber (a b : F64) : Bool :=
  if a = .nan ∧ b = .nan then true
  else if isZero a ∧ isZero b then isSignNegative a == isSignNegative b
  else numEq a b

/-- `__torajs_anyv_same_value`. -/
def sameValue (heap : Heap) (l r : AnyValue) : Bool :=
  match asNumber l, asNumber r with
  | some a, some b => sameNumber a b
  | _, _ => strictEq heap l r

/-! ### What a box denotes -/

/-- A value of the language; a double has one NaN. -/
inductive JsValue
  | undefined
  | null
  | bool (b : Bool)
  | number (x : F64)
  | string (bytes : List UInt8)
  | bigInt (n : ℤ)
  | object (p : ℕ)
  deriving DecidableEq

/-- The value of a cell. -/
def Heap.valueAt (heap : Heap) (p : ℕ) : JsValue :=
  match heap.cell p with
  | .str bytes => .string bytes
  | .bigInt n => .bigInt n
  | .object => .object p

/-- The value of a box. -/
def AnyValue.denote (heap : Heap) : AnyValue → JsValue
  | .undefined => .undefined
  | .null => .null
  | .bool b => .bool b
  | .int32 n => .number (F64.ofInt n.toInt)
  | .double x => .number x
  | .shortStr bytes => .string bytes
  | .cell p => heap.valueAt p

/-! ### SameValue -/

lemma signedUnits_inj {s t : Bool} {m n : Mag} (hzero : ¬ (m.units = 0 ∧ n.units = 0)) :
    F64.signedUnits s m = F64.signedUnits t n ↔ F64.finite s m = F64.finite t n := by
  constructor
  · intro h
    have hst : s = t ∧ m.units = n.units := by
      unfold F64.signedUnits at h
      cases s <;> cases t <;> simp only [if_true, Bool.false_eq_true, if_false] at h
      · exact ⟨rfl, by omega⟩
      · exact absurd ⟨by omega, by omega⟩ hzero
      · exact absurd ⟨by omega, by omega⟩ hzero
      · exact ⟨rfl, by omega⟩
    obtain ⟨rfl, hunits⟩ := hst
    obtain ⟨mu, _, _⟩ := m
    obtain ⟨nu, _, _⟩ := n
    cases hunits
    rfl
  · intro h
    obtain ⟨rfl, rfl⟩ := F64.finite.inj h
    rfl

lemma finite_zero_inj {s t : Bool} {m n : Mag} (hm : m.units = 0) (hn : n.units = 0) :
    F64.finite s m = F64.finite t n ↔ s = t := by
  obtain ⟨mu, _, _⟩ := m
  obtain ⟨nu, _, _⟩ := n
  cases hm
  cases hn
  exact ⟨fun h => (F64.finite.inj h).1, fun h => by rw [h]⟩

/-- **The numeric rows** decide equality: one NaN, and zeros by their signs. -/
lemma sameNumber_iff (a b : F64) : sameNumber a b = true ↔ a = b := by
  rw [sameNumber]
  cases a with
  | nan =>
    cases b with
    | nan => exact iff_of_true rfl rfl
    | inf t => exact iff_of_false Bool.false_ne_true F64.noConfusion
    | finite t n => exact iff_of_false Bool.false_ne_true F64.noConfusion
  | inf s =>
    cases b with
    | nan => exact iff_of_false Bool.false_ne_true F64.noConfusion
    | inf t =>
      cases s <;> cases t <;> exact (by decide)
    | finite t n =>
      refine iff_of_false ?_ F64.noConfusion
      cases s <;> exact Bool.false_ne_true
  | finite s m =>
    cases b with
    | nan =>
      refine iff_of_false ?_ F64.noConfusion
      rw [if_neg fun h => F64.noConfusion h.1, if_neg fun h => Bool.noConfusion h.2]
      exact Bool.false_ne_true
    | inf t =>
      refine iff_of_false ?_ F64.noConfusion
      rw [if_neg fun h => F64.noConfusion h.1, if_neg fun h => Bool.noConfusion h.2]
      cases t <;> exact Bool.false_ne_true
    | finite t n =>
      rw [if_neg fun h => F64.noConfusion h.1]
      simp only [isZero, beq_iff_eq, isSignNegative, numEq, F64.partialCmp]
      split_ifs with hzero
      · rw [beq_iff_eq]
        exact (finite_zero_inj hzero.1 hzero.2).symm
      · rw [beq_iff_eq, Option.some.injEq, compare_eq_iff_eq]
        exact signedUnits_inj hzero

lemma cellEq_iff (heap : Heap) {p q : ℕ} (hne : p ≠ q) :
    cellEq heap p q = true ↔ heap.valueAt p = heap.valueAt q := by
  unfold cellEq Heap.valueAt
  cases heap.cell p <;> cases heap.cell q <;> simp [hne]

lemma shortStrEq_iff (heap : Heap) (a : List UInt8) (q : ℕ) :
    shortStrEq heap a q = true ↔ .string a = heap.valueAt q := by
  unfold shortStrEq Heap.valueAt
  cases heap.cell q <;> simp

/-- A cell holds none of the immediates that are not strings. -/
lemma valueAt_cases (heap : Heap) (p : ℕ) :
    (∃ bytes, heap.valueAt p = .string bytes) ∨ (∃ n, heap.valueAt p = .bigInt n) ∨
      heap.valueAt p = .object p := by
  unfold Heap.valueAt
  cases heap.cell p with
  | str bytes => exact Or.inl ⟨bytes, rfl⟩
  | bigInt n => exact Or.inr (Or.inl ⟨n, rfl⟩)
  | object => exact Or.inr (Or.inr rfl)

/-- Boxes of different bits that are not both numbers. -/
lemma strictEqDistinct_iff (heap : Heap) {l r : AnyValue} (hne : l ≠ r)
    (hnumber : asNumber l = none ∨ asNumber r = none) :
    strictEqDistinct heap l r = true ↔ l.denote heap = r.denote heap := by
  have hcell : ∀ p, heap.valueAt p ≠ .undefined ∧ heap.valueAt p ≠ .null ∧
      (∀ b, heap.valueAt p ≠ .bool b) ∧ ∀ x, heap.valueAt p ≠ .number x := by
    intro p
    rcases valueAt_cases heap p with ⟨bytes, h⟩ | ⟨n, h⟩ | h <;> rw [h] <;> simp
  cases l with
  | cell p =>
    cases r with
    | cell q => exact cellEq_iff heap fun h => hne (h ▸ rfl)
    | shortStr b => exact (shortStrEq_iff heap b p).trans eq_comm
    | undefined => exact iff_of_false Bool.false_ne_true (hcell p).1
    | null => exact iff_of_false Bool.false_ne_true (hcell p).2.1
    | bool b => exact iff_of_false Bool.false_ne_true ((hcell p).2.2.1 b)
    | int32 n => exact iff_of_false Bool.false_ne_true ((hcell p).2.2.2 _)
    | double x => exact iff_of_false Bool.false_ne_true ((hcell p).2.2.2 _)
  | shortStr a =>
    cases r with
    | cell q => exact shortStrEq_iff heap a q
    | shortStr b =>
      exact iff_of_false Bool.false_ne_true fun h => hne (JsValue.string.inj h ▸ rfl)
    | undefined | null | bool | int32 | double =>
      exact iff_of_false Bool.false_ne_true JsValue.noConfusion
  | undefined =>
    cases r with
    | cell q => exact iff_of_false Bool.false_ne_true (hcell q).1.symm
    | undefined => exact absurd rfl hne
    | null | bool | int32 | double | shortStr =>
      exact iff_of_false Bool.false_ne_true JsValue.noConfusion
  | null =>
    cases r with
    | cell q => exact iff_of_false Bool.false_ne_true (hcell q).2.1.symm
    | null => exact absurd rfl hne
    | undefined | bool | int32 | double | shortStr =>
      exact iff_of_false Bool.false_ne_true JsValue.noConfusion
  | bool b =>
    cases r with
    | cell q => exact iff_of_false Bool.false_ne_true ((hcell q).2.2.1 b).symm
    | bool c => exact iff_of_false Bool.false_ne_true fun h => hne (JsValue.bool.inj h ▸ rfl)
    | undefined | null | int32 | double | shortStr =>
      exact iff_of_false Bool.false_ne_true JsValue.noConfusion
  | int32 n =>
    cases r with
    | cell q => exact iff_of_false Bool.false_ne_true ((hcell q).2.2.2 _).symm
    | int32 | double => exact absurd hnumber (by simp [asNumber])
    | undefined | null | bool | shortStr =>
      exact iff_of_false Bool.false_ne_true JsValue.noConfusion
  | double x =>
    cases r with
    | cell q => exact iff_of_false Bool.false_ne_true ((hcell q).2.2.2 _).symm
    | int32 | double => exact absurd hnumber (by simp [asNumber])
    | undefined | null | bool | shortStr =>
      exact iff_of_false Bool.false_ne_true JsValue.noConfusion

/-- A box of a number denotes it. -/
lemma denote_of_asNumber (heap : Heap) {v : AnyValue} {x : F64} (h : asNumber v = some x) :
    v.denote heap = .number x := by
  cases v with
  | int32 n => exact congrArg JsValue.number (Option.some.inj h)
  | double y => exact congrArg JsValue.number (Option.some.inj h)
  | undefined | null | bool | shortStr | cell => cases h

/-- **SameValue** of two boxes is equality of what they denote. -/
theorem sameValue_iff (heap : Heap) (l r : AnyValue) :
    sameValue heap l r = true ↔ l.denote heap = r.denote heap := by
  have hother : asNumber l = none ∨ asNumber r = none →
      (strictEq heap l r = true ↔ l.denote heap = r.denote heap) := by
    intro hnumber
    rw [strictEq]
    split_ifs with heq
    · subst heq
      refine iff_of_true (decide_eq_true ?_) rfl
      rintro rfl
      exact absurd hnumber (by simp [asNumber])
    · exact strictEqDistinct_iff heap heq hnumber
  unfold sameValue
  cases hl : asNumber l with
  | none => exact hother (Or.inl hl)
  | some a =>
    cases hr : asNumber r with
    | none => exact hother (Or.inr hr)
    | some b =>
      rw [denote_of_asNumber heap hl, denote_of_asNumber heap hr, JsValue.number.injEq]
      exact sameNumber_iff a b

end Torajs.Dynobj
