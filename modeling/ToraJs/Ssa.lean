import Mathlib.Data.Int.Bitwise
import ToraJs.Lib.RoundNearest

/-!
# SSA instructions and run-time values

The part of the SSA layer that the interval analysis reads: types, operands,
binary operators and the instruction kinds whose results it bounds.  Kinds that
the analysis treats as opaque producers (calls, loads, comparisons, boxes) are one
constructor with their operands.

A run-time value is the content of the register an SSA value lives in.  Of a double
only its integer value is kept, and whether it has one: fractions, infinities and
NaN are one element.
-/

namespace Torajs

/-- `ssa::ValueId`. -/
abbrev ValueId := ℕ

/-- `ssa::Type`.  The integer payloads are the ids of interned layouts. -/
inductive SsaType where
  | i64 | f64 | i32 | bool | void | ptr | str | substr
  | obj (id : ℕ) | arr (id : ℕ) | inline (id : ℕ) | fnSig (id : ℕ) | closure (id : ℕ)
  | regExp | date | symbol | promise | bigInt | weakRef | weakMap | weakSet
  | map | set | mapIter | arrIter | any
  | vec (shape : ℕ)
  deriving DecidableEq, Repr

/-! ### Doubles -/

/-- A finite double with an integer value. -/
structure IntDouble where
  val : ℤ
  fixed : RoundNearest.roundInt 53 val = val
  finite : val.natAbs < 2 ^ 1024

/-- A double: integer-valued, or one of the rest (a fraction, an infinity, NaN). -/
inductive Double where
  | int (n : IntDouble)
  | other

namespace Double

/-- The double nearest to an exact integer result, an infinity past the finite range. -/
def ofExact (z : ℤ) : Double :=
  if h : (RoundNearest.roundInt 53 z).natAbs < 2 ^ 1024 then
    .int ⟨RoundNearest.roundInt 53 z, RoundNearest.roundInt_idem (by norm_num) z, h⟩
  else .other

/-- The integer value of a double, if it has one. -/
def toInt? : Double → Option ℤ
  | .int n => some n.val
  | .other => none

/-- An exact result that is representable is not changed. -/
lemma toInt?_ofExact_of_fixed {z : ℤ} (h : RoundNearest.roundInt 53 z = z)
    (hfin : z.natAbs < 2 ^ 1024) : (ofExact z).toInt? = some z := by
  unfold ofExact
  rw [dif_pos (by rwa [h])]
  simp only [toInt?, h]

/-- The value of a rounded result, when it is finite. -/
lemma toInt?_ofExact (z : ℤ) :
    (ofExact z).toInt? = if (RoundNearest.roundInt 53 z).natAbs < 2 ^ 1024
      then some (RoundNearest.roundInt 53 z) else none := by
  unfold ofExact
  split <;> rfl

end Double

/-! ### Instructions -/

/-- `ssa::Operand`. -/
inductive Operand where
  | value (v : ValueId)
  | constI64 (c : BitVec 64)
  | constI32 (c : BitVec 32)
  | constF64 (f : Double)
  | constBool (b : Bool)
  | constPtrNull

/-- `ssa::BinOp`. -/
inductive BinOp where
  | add | sub | mul | sDiv | sRem | and | or | xor | shl | aShr | lShr
  | fAdd | fSub | fMul | fDiv | fRem
  deriving DecidableEq, Repr

/-- `ssa::InstKind`, with the kinds that the analysis does not look into under
`other`. -/
inductive InstKind where
  | binOp (op : BinOp) (a b : Operand)
  | copy (ty : SsaType) (a : Operand)
  | identity (a : Operand)
  | neg (a : Operand)
  | siToFp (a : Operand)
  | fpToSi (a : Operand)
  | fpToInt32 (a : Operand)
  | zExtBoolToI64 (a : Operand)
  | zExtI32ToI64 (a : Operand)
  | loadU8Dyn (base idx : Operand)
  | loadU16Dyn (base idx : Operand)
  | ctpop (a : Operand)
  | cttz (a : Operand)
  | other (args : List Operand)

/-- `visit_value_operands`: the operands an instruction reads. -/
def InstKind.operands : InstKind → List Operand
  | .binOp _ a b => [a, b]
  | .copy _ a | .identity a | .neg a | .siToFp a | .fpToSi a | .fpToInt32 a
  | .zExtBoolToI64 a | .zExtI32ToI64 a | .ctpop a | .cttz a => [a]
  | .loadU8Dyn base idx | .loadU16Dyn base idx => [base, idx]
  | .other args => args

/-! ### Run-time values -/

/-- The content of the register of an SSA value: a general register, a scalar float
register, or a vector register. -/
inductive Val where
  | gpr (x : BitVec 64)
  | fpr (d : Double)
  | lanes (x : BitVec 128)

/-- The register class of a type. -/
def SsaType.Holds : SsaType → Val → Prop
  | .f64, .fpr _ => True
  | .f64, _ => False
  | .vec _, .lanes _ => True
  | .vec _, _ => False
  | .void, _ => False
  | _, .gpr _ => True
  | _, _ => False

/-- The integer a value denotes, if it denotes one. -/
def Val.toInt? : Val → Option ℤ
  | .gpr x => some x.toInt
  | .fpr d => d.toInt?
  | .lanes _ => none

/-- The value of an operand: constants are fixed, SSA values come from the valuation. -/
def Operand.eval (ρ : ValueId → Val) : Operand → Val
  | .value v => ρ v
  | .constI64 c => .gpr c
  | .constI32 c => .gpr (c.signExtend 64)
  | .constF64 f => .fpr f
  | .constBool b => .gpr (if b then 1 else 0)
  | .constPtrNull => .gpr 0

end Torajs
