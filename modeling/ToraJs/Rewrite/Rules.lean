import ToraJs.Lib.Ieee754
import ToraJs.Ssa
import Mathlib.Data.Nat.Bits

/-!
# The rewrite rules of the e-graph

A rule looks at one instruction and may give another in its place.  The registry lists the
rules in priority order; an instruction is rewritten by the first rule that matches, and the
result again, up to a fixed number of times.
-/

namespace Torajs

namespace Rewrite

open Ieee754

/-! ### Instructions -/

/-- `ssa::Operand`, with full binary64 constants. -/
inductive Operand where
  | value (v : ValueId)
  | constI64 (c : BitVec 64)
  | constI32 (c : BitVec 32)
  | constF64 (f : F64)
  | constBool (b : Bool)
  | constPtrNull
  deriving DecidableEq

/-- `ssa::IPred`. -/
inductive IPred where
  | eq | ne | slt | sgt | sle | sge | ult | uge
  deriving DecidableEq

/-- `ssa::FPred`. -/
inductive FPred where
  | oeq | one | olt | ogt | ole | oge | une
  deriving DecidableEq

/-- `ssa::InstKind`: the kinds that a rule reads or gives; the kinds that no rule looks at are
under `other`. -/
inductive InstKind where
  | binOp (op : BinOp) (a b : Operand)
  | iCmp (p : IPred) (a b : Operand)
  | fCmp (p : FPred) (a b : Operand)
  | siToFp (a : Operand)
  | identity (a : Operand)
  | neg (a : Operand)
  | other (tag : ℕ) (args : List Operand)
  deriving DecidableEq

/-- A rule: its name, and the instruction it gives for another. -/
structure Rule where
  name : String
  tryApply : InstKind → Option InstKind

/-! ### Canonical operand order -/

/-- The operators whose operands may be swapped. -/
def commutative : BinOp → Bool
  | .add | .mul | .and | .or | .xor => true
  | _ => false

/-- An `i64` constant. -/
def Operand.isConstI64 : Operand → Bool
  | .constI64 _ => true
  | _ => false

/-- `CommutativeCanon`: a constant goes to the right of an operand that is not one. -/
def commutativeCanon : Rule where
  name := "commutative_canon"
  tryApply
    | .binOp op a b =>
      if commutative op && a.isConstI64 && !b.isConstI64 then some (.binOp op b a) else none
    | _ => none

/-! ### Identities -/

/-- A rule for an operator with one constant on its right; the result is made of the left
operand. -/
def rightConst (name : String) (op : BinOp) (c : BitVec 64) (result : Operand → Operand) :
    Rule where
  name := name
  tryApply
    | .binOp op' a (.constI64 c') =>
      if op' = op ∧ c' = c then some (.identity (result a)) else none
    | _ => none

/-- `AddZero`. -/
def addZero : Rule := rightConst "add_zero_to_identity" .add 0 id

/-- `MulOne`. -/
def mulOne : Rule := rightConst "mul_one_to_identity" .mul 1 id

/-- `MulZero`. -/
def mulZero : Rule := rightConst "mul_zero_to_zero" .mul 0 fun _ => .constI64 0

/-- `SubZero`. -/
def subZero : Rule := rightConst "sub_zero_to_identity" .sub 0 id

/-- `SubNegate`. -/
def subNegate : Rule where
  name := "sub_neg_to_negate"
  tryApply
    | .binOp .sub (.constI64 c) b => if c = 0 then some (.neg b) else none
    | _ => none

/-- `XorZero`. -/
def xorZero : Rule := rightConst "xor_zero_to_identity" .xor 0 id

/-- `OrZero`. -/
def orZero : Rule := rightConst "or_zero_to_identity" .or 0 id

/-- `AndAllOnes`. -/
def andAllOnes : Rule := rightConst "and_all_ones_to_identity" .and (-1) id

/-- `AndZero`. -/
def andZero : Rule := rightConst "and_zero_to_zero" .and 0 fun _ => .constI64 0

/-- `OrAllOnes`. -/
def orAllOnes : Rule := rightConst "or_all_ones_to_all_ones" .or (-1) fun _ => .constI64 (-1)

/-- A rule for an operator with the same operand on both sides. -/
def selfFold (name : String) (op : BinOp) : Rule where
  name := name
  tryApply
    | .binOp op' a b => if op' = op ∧ a = b then some (.identity (.constI64 0)) else none
    | _ => none

/-- `SubSelf`. -/
def subSelf : Rule := selfFold "sub_self_to_zero" .sub

/-- `XorSelf`. -/
def xorSelf : Rule := selfFold "xor_self_to_zero" .xor

/-! ### Constants -/

/-- The least `i64`. -/
def i64Min : BitVec 64 := BitVec.intMin 64

/-- `(0..64).contains(&b)`. -/
def shiftInRange (b : BitVec 64) : Bool := 0 ≤ b.toInt && b.toInt < 64

/-- An integer operator on two constants; a division by zero, the one division that overflows
and a shift out of range are left alone. -/
def foldI64 (op : BinOp) (a b : BitVec 64) : Option (BitVec 64) :=
  match op with
  | .add => some (a + b)
  | .sub => some (a - b)
  | .mul => some (a * b)
  | .sDiv => if b = 0 ∨ (a = i64Min ∧ b = -1) then none else some (a.sdiv b)
  | .sRem => if b = 0 ∨ (a = i64Min ∧ b = -1) then none else some (a.srem b)
  | .and => some (a &&& b)
  | .or => some (a ||| b)
  | .xor => some (a ^^^ b)
  | .shl => if !shiftInRange b then none else some (a <<< (b.toNat % 64))
  | .aShr => if !shiftInRange b then none else some (a.sshiftRight (b.toNat % 64))
  | .lShr => if !shiftInRange b then none else some (a >>> (b.toNat % 64))
  | _ => none

/-- A floating-point operator on two constants. -/
def foldF64 (op : BinOp) (a b : F64) : Option F64 :=
  match op with
  | .fAdd => some (a.add b)
  | .fSub => some (a.sub b)
  | .fMul => some (a.mul b)
  | .fDiv => some (a.div b)
  | .fRem => some (a.rem b)
  | _ => none

/-- `BinOpConstFold`. -/
def binOpConstFold : Rule where
  name := "binop_const_fold"
  tryApply
    | .binOp op (.constF64 a) (.constF64 b) =>
      (foldF64 op a b).map fun x => .identity (.constF64 x)
    | .binOp op (.constI64 a) (.constI64 b) =>
      (foldI64 op a b).map fun x => .identity (.constI64 x)
    | _ => none

/-- A comparison of two integers. -/
def icmp (p : IPred) {w : ℕ} (a b : BitVec w) : Bool :=
  match p with
  | .eq => a == b
  | .ne => a != b
  | .slt => a.slt b
  | .sgt => b.slt a
  | .sle => a.sle b
  | .sge => b.sle a
  | .ult => a.ult b
  | .uge => b.ule a

/-- A comparison of two numbers; with NaN only `une` holds. -/
def fcmp (p : FPred) (a b : F64) : Bool :=
  match p with
  | .oeq => F64.partialCmp a b == some .eq
  | .one => F64.partialCmp a b == some .lt || F64.partialCmp a b == some .gt
  | .olt => F64.partialCmp a b == some .lt
  | .ogt => F64.partialCmp a b == some .gt
  | .ole => F64.partialCmp a b == some .lt || F64.partialCmp a b == some .eq
  | .oge => F64.partialCmp a b == some .gt || F64.partialCmp a b == some .eq
  | .une => F64.partialCmp a b != some .eq

/-- `CmpConstFold`. -/
def cmpConstFold : Rule where
  name := "cmp_const_fold"
  tryApply
    | .iCmp p (.constI64 a) (.constI64 b) => some (.identity (.constBool (icmp p a b)))
    | .fCmp p (.constF64 a) (.constF64 b) => some (.identity (.constBool (fcmp p a b)))
    | _ => none

/-- `SiToFpConstFold`. -/
def siToFpConstFold : Rule where
  name := "sitofp_const_fold"
  tryApply
    | .siToFp (.constI64 n) => some (.identity (.constF64 (F64.ofInt n.toInt)))
    | .siToFp (.constI32 n) => some (.identity (.constF64 (F64.ofInt n.toInt)))
    | _ => none

/-! ### Strength reduction -/

/-- The zero bits below the lowest one bit of a word; all 64 for zero. -/
def trailingZeros (n : ℕ) : ℕ := ((List.range 64).find? n.testBit).getD 64

/-- `MulPow2ToShl`. -/
def mulPow2ToShl : Rule where
  name := "mul_pow2_to_shl"
  tryApply
    | .binOp .mul x (.constI64 c) =>
      if 1 < c.toInt ∧ c.toNat.isPowerOfTwo then
        some (.binOp .shl x (.constI64 (BitVec.ofNat 64 (trailingZeros c.toNat))))
      else none
    | _ => none

/-- `FMulTwoToAdd`: the constant is looked for on the right first. -/
def fMulTwoToAdd : Rule where
  name := "fmul_two_to_add"
  tryApply
    | .binOp .fMul x y =>
      let two : Operand → Bool
        | .constF64 c => F64.partialCmp c (F64.ofInt 2) == some .eq
        | _ => false
      if two y then some (.binOp .fAdd x x)
      else if two x then some (.binOp .fAdd y y)
      else none
    | _ => none

/-! ### The registry -/

/-- `BUILTIN_RULES`, in priority order. -/
def builtinRules : List Rule :=
  [commutativeCanon, addZero, mulOne, mulZero, subZero, subNegate, xorZero, orZero, andAllOnes,
    andZero, orAllOnes, subSelf, xorSelf, binOpConstFold, cmpConstFold, siToFpConstFold,
    mulPow2ToShl, fMulTwoToAdd]

/-- The result of the first rule that matches. -/
def applyRewrites (rules : List Rule) (lhs : InstKind) : Option InstKind :=
  rules.findSome? fun rule => rule.tryApply lhs

/-- `REWRITE_LIMIT`. -/
def rewriteLimit : ℕ := 5

/-- Rewrite while a rule matches, at most `left` times. -/
def rewriteLoop (rules : List Rule) : ℕ → InstKind → InstKind
  | 0, current => current
  | left + 1, current =>
    match applyRewrites rules current with
    | some next => rewriteLoop rules left next
    | none => current

/-- Rewrite an instruction, and the result again, up to the limit. -/
def applyRewritesRecursive (rules : List Rule) (lhs : InstKind) : InstKind :=
  rewriteLoop rules rewriteLimit lhs

end Rewrite

end Torajs
