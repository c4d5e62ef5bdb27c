import ToraJs.Rewrite.Rules
import Mathlib.Logic.Relation

/-!
# The rewrite rules preserve values

An instruction is evaluated as the target machine does it: integers are 64-bit words, a
division by zero gives zero and a shift takes its count modulo 64.  Each rule gives an
instruction with the same value, under every valuation of the operands; and each rule lowers
a weight that is no more than the rewrite limit, so the limit is never what ends a rewrite.
-/

namespace Torajs

namespace Rewrite

open Ieee754

/-! ### Values -/

/-- The content of a register: a general one, or a floating-point one. -/
inductive Reg where
  | gpr (x : BitVec 64)
  | fpr (d : F64)
  deriving DecidableEq

/-- The register of a truth value. -/
def Reg.ofBool (b : Bool) : Reg := .gpr (if b then 1 else 0)

/-- The register an operand is materialized into. -/
def Operand.eval (ρ : ValueId → Reg) : Operand → Reg
  | .value v => ρ v
  | .constI64 c => .gpr c
  | .constI32 c => .gpr (c.signExtend 64)
  | .constF64 f => .fpr f
  | .constBool b => Reg.ofBool b
  | .constPtrNull => .gpr 0

@[simp] lemma Operand.eval_constI64 (ρ : ValueId → Reg) (c : BitVec 64) :
    (Operand.constI64 c).eval ρ = .gpr c := rfl

@[simp] lemma Operand.eval_constF64 (ρ : ValueId → Reg) (f : F64) :
    (Operand.constF64 f).eval ρ = .fpr f := rfl

/-- An integer operator on words. -/
def intOp (op : BinOp) (x y : BitVec 64) : Option (BitVec 64) :=
  match op with
  | .add => some (x + y)
  | .sub => some (x - y)
  | .mul => some (x * y)
  | .sDiv => some (x.sdiv y)
  | .sRem => some (x - x.sdiv y * y)
  | .and => some (x &&& y)
  | .or => some (x ||| y)
  | .xor => some (x ^^^ y)
  | .shl => some (x <<< (y.toNat % 64))
  | .aShr => some (x.sshiftRight (y.toNat % 64))
  | .lShr => some (x >>> (y.toNat % 64))
  | .fAdd | .fSub | .fMul | .fDiv | .fRem => none

/-- A floating-point operator. -/
def floatOp (op : BinOp) (x y : F64) : Option F64 :=
  match op with
  | .fAdd => some (x.add y)
  | .fSub => some (x.sub y)
  | .fMul => some (x.mul y)
  | .fDiv => some (x.div y)
  | .fRem => some (x.rem y)
  | _ => none

/-- A comparison of the low halves: one operand is an `i32` constant, and the right one no
small `i64` constant and no null. -/
def narrowCompare (a b : Operand) : Bool :=
  let isI32 : Operand → Bool
    | .constI32 _ => true
    | _ => false
  match b with
  | .constI64 c => if 0 ≤ c.toInt ∧ c.toInt < 4096 then false else isI32 a
  | .constPtrNull => false
  | _ => isI32 a || isI32 b

/-- The value of an instruction; there is none when an operand is in the wrong kind of
register.  The kinds under `other` are interpreted by `sem`. -/
def InstKind.eval (sem : ℕ → List Reg → Option Reg) (ρ : ValueId → Reg) : InstKind → Option Reg
  | .binOp op a b =>
    match a.eval ρ, b.eval ρ with
    | .gpr x, .gpr y => (intOp op x y).map .gpr
    | .fpr x, .fpr y => (floatOp op x y).map .fpr
    | _, _ => none
  | .iCmp p a b =>
    match a.eval ρ, b.eval ρ with
    | .gpr x, .gpr y =>
      some (Reg.ofBool (if narrowCompare a b then icmp p (x.setWidth 32) (y.setWidth 32)
        else icmp p x y))
    | _, _ => none
  | .fCmp p a b =>
    match a.eval ρ, b.eval ρ with
    | .fpr x, .fpr y => some (Reg.ofBool (fcmp p x y))
    | _, _ => none
  | .siToFp a =>
    match a.eval ρ with
    | .gpr x => some (.fpr (F64.ofInt x.toInt))
    | _ => none
  | .identity a => some (a.eval ρ)
  | .neg a =>
    match a.eval ρ with
    | .gpr x => some (.gpr (0 - x))
    | _ => none
  | .other tag args => sem tag (args.map (Operand.eval ρ))

/-- The second instruction computes the value of the first, under every valuation. -/
def Preserves (lhs rhs : InstKind) : Prop :=
  ∀ sem ρ v, lhs.eval sem ρ = some v → rhs.eval sem ρ = some v

/-- What a rule gives preserves values. -/
def Rule.Sound (r : Rule) : Prop := ∀ lhs rhs, r.tryApply lhs = some rhs → Preserves lhs rhs

/-! ### Values of operators -/

section Values

variable {sem : ℕ → List Reg → Option Reg} {ρ : ValueId → Reg} {op : BinOp} {a b : Operand}

/-- An operator with an integer constant on its right has a word on its left. -/
lemma eval_rightConst {c : BitVec 64} {v : Reg}
    (h : (InstKind.binOp op a (.constI64 c)).eval sem ρ = some v) :
    ∃ x r, a.eval ρ = .gpr x ∧ intOp op x c = some r ∧ v = .gpr r := by
  simp only [InstKind.eval, Operand.eval_constI64] at h
  cases ha : a.eval ρ with
  | gpr x =>
    rw [ha] at h
    obtain ⟨r, hr, rfl⟩ := Option.map_eq_some_iff.mp h
    exact ⟨x, r, rfl, hr, rfl⟩
  | fpr d =>
    rw [ha] at h
    cases h

/-- The operands of a commutative operator may be swapped. -/
lemma intOp_comm (hop : commutative op = true) (x y : BitVec 64) : intOp op x y = intOp op y x := by
  cases op with
  | add => simp only [intOp, BitVec.add_comm]
  | mul => simp only [intOp, BitVec.mul_comm]
  | and => simp only [intOp, BitVec.and_comm]
  | or => simp only [intOp, BitVec.or_comm]
  | xor => simp only [intOp, BitVec.xor_comm]
  | _ => cases hop

/-- A commutative operator is not one on floating-point numbers. -/
lemma floatOp_eq_none (hop : commutative op = true) (x y : F64) : floatOp op x y = none := by
  cases op <;> first | rfl | cases hop

end Values

/-! ### The rules -/

lemma commutativeCanon_sound : commutativeCanon.Sound := by
  intro lhs rhs h sem ρ v hv
  cases lhs with
  | binOp op a b =>
    simp only [commutativeCanon] at h
    split_ifs at h with hcond
    cases h
    have hop : commutative op = true := by
      rw [Bool.and_eq_true, Bool.and_eq_true] at hcond
      exact hcond.1.1
    simp only [InstKind.eval] at hv ⊢
    cases ha : a.eval ρ with
    | gpr x =>
      cases hb : b.eval ρ with
      | gpr y =>
        rw [ha, hb] at hv
        rw [← hv]
        simp only [intOp_comm hop]
      | fpr y =>
        rw [ha, hb] at hv
        cases hv
    | fpr x =>
      cases hb : b.eval ρ with
      | gpr y =>
        rw [ha, hb] at hv
        cases hv
      | fpr y =>
        rw [ha, hb] at hv
        simp [floatOp_eq_none hop] at hv
  | _ => cases h

/-- A rule for a constant on the right is sound when its result has the value of the
operator. -/
lemma rightConst_sound {name : String} {op : BinOp} {c : BitVec 64} {result : Operand → Operand}
    (hres : ∀ ρ a x, a.eval ρ = .gpr x → ∀ r, intOp op x c = some r → (result a).eval ρ = .gpr r) :
    (rightConst name op c result).Sound := by
  intro lhs rhs h sem ρ v hv
  cases lhs with
  | binOp op' a b =>
    cases b with
    | constI64 c' =>
      simp only [rightConst] at h
      split_ifs at h with hcond
      obtain ⟨rfl, rfl⟩ := hcond
      cases h
      obtain ⟨x, r, ha, hr, rfl⟩ := eval_rightConst hv
      exact congrArg some (hres ρ a x ha r hr)
    | _ => cases h
  | _ => cases h

/-- A neutral constant on the right. -/
lemma neutral_sound {name : String} {op : BinOp} {c : BitVec 64} (h : ∀ x, intOp op x c = some x) :
    (rightConst name op c id).Sound := by
  refine rightConst_sound fun ρ a x ha r hr => ?_
  rw [h] at hr
  cases hr
  exact ha

/-- An absorbing constant on the right. -/
lemma absorbing_sound {name : String} {op : BinOp} {c : BitVec 64}
    (h : ∀ x, intOp op x c = some c) : (rightConst name op c fun _ => .constI64 c).Sound := by
  refine rightConst_sound fun ρ a x _ r hr => ?_
  rw [h] at hr
  cases hr
  rfl

lemma subNegate_sound : subNegate.Sound := by
  intro lhs rhs h sem ρ v hv
  unfold subNegate at h
  simp only at h
  split at h
  · next c b =>
    split_ifs at h with hc
    subst hc
    cases h
    simp only [InstKind.eval, Operand.eval_constI64] at hv ⊢
    cases hb : b.eval ρ with
    | gpr x =>
      rw [hb] at hv
      exact hv
    | fpr d =>
      rw [hb] at hv
      cases hv
  · cases h

/-- An operator that takes a word and itself to zero. -/
lemma selfFold_sound {name : String} {op : BinOp} (h : ∀ x, intOp op x x = some 0)
    (hf : ∀ x, floatOp op x x = none) : (selfFold name op).Sound := by
  intro lhs rhs hrule sem ρ v hv
  cases lhs with
  | binOp op' a b =>
    simp only [selfFold] at hrule
    split_ifs at hrule with hcond
    obtain ⟨rfl, rfl⟩ := hcond
    cases hrule
    simp only [InstKind.eval, Operand.eval_constI64] at hv ⊢
    cases ha : a.eval ρ with
    | gpr x =>
      rw [ha] at hv
      simp only [h, Option.map_some] at hv
      exact hv
    | fpr d =>
      rw [ha] at hv
      simp [hf] at hv
  | _ => cases hrule

/-- The remainder that the machine computes from the quotient. -/
lemma sub_sdiv_mul (x y : BitVec 64) : x - x.sdiv y * y = x.srem y := by
  have hdiv : x.sdiv y = BitVec.ofInt 64 (x.toInt.tdiv y.toInt) := by
    apply BitVec.eq_of_toInt_eq
    rw [BitVec.toInt_sdiv, BitVec.toInt_ofInt]
  have hrem : x.srem y = BitVec.ofInt 64 (x.toInt.tmod y.toInt) := by
    rw [← BitVec.toInt_srem, BitVec.ofInt_toInt]
  rw [BitVec.sub_eq_iff_eq_add]
  calc x = BitVec.ofInt 64 (x.toInt.tmod y.toInt + x.toInt.tdiv y.toInt * y.toInt) := by
        rw [Int.tmod_add_tdiv_mul, BitVec.ofInt_toInt]
    _ = x.srem y + x.sdiv y * y := by
        rw [BitVec.ofInt_add, BitVec.ofInt_mul, BitVec.ofInt_toInt, ← hdiv, ← hrem]

/-- What is folded from integer constants is what the machine computes. -/
lemma intOp_of_foldI64 {op : BinOp} {a b r : BitVec 64} (h : foldI64 op a b = some r) :
    intOp op a b = some r := by
  cases op with
  | sDiv =>
    simp only [foldI64] at h
    split_ifs at h
    exact h
  | sRem =>
    simp only [foldI64] at h
    split_ifs at h
    rw [intOp, sub_sdiv_mul]
    exact h
  | shl | aShr | lShr =>
    simp only [foldI64] at h
    split_ifs at h
    exact h
  | fAdd | fSub | fMul | fDiv | fRem => cases h
  | _ => exact h

lemma binOpConstFold_sound : binOpConstFold.Sound := by
  intro lhs rhs h sem ρ v hv
  unfold binOpConstFold at h
  simp only at h
  split at h
  · next op a b =>
    obtain ⟨x, hx, rfl⟩ := Option.map_eq_some_iff.mp h
    have hop : floatOp op a b = some x := by
      cases op <;> exact hx
    simp only [InstKind.eval, Operand.eval_constF64, hop, Option.map_some] at hv ⊢
    exact hv
  · next op a b =>
    obtain ⟨x, hx, rfl⟩ := Option.map_eq_some_iff.mp h
    simp only [InstKind.eval, Operand.eval_constI64, intOp_of_foldI64 hx, Option.map_some] at hv ⊢
    exact hv
  · cases h

lemma cmpConstFold_sound : cmpConstFold.Sound := by
  intro lhs rhs h sem ρ v hv
  unfold cmpConstFold at h
  simp only at h
  split at h
  · next p a b =>
    cases h
    have hwide : narrowCompare (.constI64 a) (.constI64 b) = false := ite_self false
    simp only [InstKind.eval, Operand.eval_constI64, hwide, Bool.false_eq_true, if_false] at hv
    exact hv
  · next p a b =>
    cases h
    exact hv
  · cases h

lemma siToFpConstFold_sound : siToFpConstFold.Sound := by
  intro lhs rhs h sem ρ v hv
  unfold siToFpConstFold at h
  simp only at h
  split at h
  · cases h
    exact hv
  · next n =>
    cases h
    have hext : (n.signExtend 64).toInt = n.toInt := BitVec.toInt_signExtend_of_le (by norm_num)
    simp only [InstKind.eval, Operand.eval, hext] at hv
    exact hv
  · cases h

/-- The zero bits below the one bit of a power of two. -/
lemma trailingZeros_two_pow {k : ℕ} (hk : k < 64) : trailingZeros (2 ^ k) = k := by
  have hfind : (List.range 64).find? (2 ^ k).testBit = some k := by
    rw [List.find?_range_eq_some]
    refine ⟨Nat.testBit_two_pow_self, List.mem_range.mpr hk, fun j hj => ?_⟩
    rw [Nat.testBit_two_pow, decide_eq_false (by omega), Bool.not_false]
  rw [trailingZeros, hfind, Option.getD_some]

lemma mulPow2ToShl_sound : mulPow2ToShl.Sound := by
  intro lhs rhs h sem ρ v hv
  unfold mulPow2ToShl at h
  simp only at h
  split at h
  · next x c =>
    split_ifs at h with hc
    cases h
    obtain ⟨-, k, hk⟩ := hc
    have hlt : k < 64 := by
      have hc64 : 2 ^ k < 2 ^ 64 := hk ▸ c.isLt
      exact (Nat.pow_lt_pow_iff_right (by norm_num)).mp hc64
    have hcount : (BitVec.ofNat 64 k).toNat % 64 = k := by
      rw [BitVec.toNat_ofNat]
      omega
    have hpow : c = BitVec.twoPow 64 k := by
      apply BitVec.eq_of_toNat_eq
      rw [hk, BitVec.toNat_twoPow, Nat.mod_eq_of_lt (hk ▸ c.isLt)]
    obtain ⟨w, r, hw, hr, rfl⟩ := eval_rightConst hv
    have hshl : intOp .shl w (BitVec.ofNat 64 k) = some r := by
      rw [intOp, hcount, ← BitVec.mul_twoPow_eq_shiftLeft, ← hpow]
      exact hr
    rw [hk, trailingZeros_two_pow hlt]
    simp only [InstKind.eval, Operand.eval_constI64, hw, hshl, Option.map_some]
  · cases h

/-- An operand that compares equal to two. -/
lemma eq_two_of_beq {c : F64} (h : (F64.partialCmp c (F64.ofInt 2) == some .eq) = true) :
    c = F64.ofInt 2 := F64.eq_two_of_partialCmp (eq_of_beq h)

lemma fMulTwoToAdd_sound : fMulTwoToAdd.Sound := by
  intro lhs rhs h sem ρ v hv
  unfold fMulTwoToAdd at h
  simp only at h
  split at h
  · next x y =>
    split_ifs at h with h₁ h₂
    · cases h
      split at h₁
      · next c =>
        rw [eq_two_of_beq h₁] at hv
        simp only [InstKind.eval, Operand.eval_constF64] at hv ⊢
        cases hx : x.eval ρ with
        | gpr w =>
          rw [hx] at hv
          cases hv
        | fpr d =>
          rw [hx] at hv
          simp only [floatOp, Option.map_some, F64.mul_two] at hv ⊢
          exact hv
      · cases h₁
    · cases h
      split at h₂
      · next c =>
        rw [eq_two_of_beq h₂] at hv
        simp only [InstKind.eval, Operand.eval_constF64] at hv ⊢
        cases hy : y.eval ρ with
        | gpr w =>
          rw [hy] at hv
          cases hv
        | fpr d =>
          rw [hy] at hv
          simp only [floatOp, Option.map_some, F64.two_mul] at hv ⊢
          exact hv
      · cases h₂
  · cases h

/-- Every rule of the registry preserves values. -/
theorem builtinRules_sound {r : Rule} (hr : r ∈ builtinRules) : r.Sound := by
  simp only [builtinRules, List.mem_cons, List.not_mem_nil, or_false] at hr
  rcases hr with rfl | rfl | rfl | rfl | rfl | rfl | rfl | rfl | rfl | rfl | rfl | rfl | rfl | rfl |
    rfl | rfl | rfl | rfl
  · exact commutativeCanon_sound
  · exact neutral_sound fun x => by simp [intOp]
  · exact neutral_sound fun x => by simp [intOp]
  · exact absorbing_sound fun x => by simp [intOp]
  · exact neutral_sound fun x => by simp [intOp]
  · exact subNegate_sound
  · exact neutral_sound fun x => by simp [intOp]
  · exact neutral_sound fun x => by simp [intOp]
  · exact neutral_sound fun x => congrArg some BitVec.and_allOnes
  · exact absorbing_sound fun x => by simp [intOp]
  · exact absorbing_sound fun x => congrArg some BitVec.or_allOnes
  · exact selfFold_sound (fun x => by simp [intOp]) fun x => rfl
  · exact selfFold_sound (fun x => by simp [intOp]) fun x => rfl
  · exact binOpConstFold_sound
  · exact cmpConstFold_sound
  · exact siToFpConstFold_sound
  · exact mulPow2ToShl_sound
  · exact fMulTwoToAdd_sound

/-! ### Chains of rules -/

/-- One rule of the registry rewrites an instruction. -/
def Step (lhs rhs : InstKind) : Prop := ∃ r ∈ builtinRules, r.tryApply lhs = some rhs

/-- Rules of the registry rewrite an instruction one after another, in any order. -/
abbrev Chain : InstKind → InstKind → Prop := Relation.ReflTransGen Step

/-- A chain of rules preserves values. -/
lemma Chain.preserves {lhs rhs : InstKind} (h : Chain lhs rhs) : Preserves lhs rhs := by
  induction h with
  | refl => exact fun _ _ _ hv => hv
  | tail _ hstep ih =>
    obtain ⟨r, hr, hrule⟩ := hstep
    intro sem ρ v hv
    exact builtinRules_sound hr _ _ hrule sem ρ v (ih sem ρ v hv)

/-- The first rule that matches is a rule of the registry. -/
lemma step_of_applyRewrites {lhs rhs : InstKind} (h : applyRewrites builtinRules lhs = some rhs) :
    Step lhs rhs := by
  obtain ⟨r, hr, hrule⟩ := List.exists_of_findSome?_eq_some h
  exact ⟨r, hr, hrule⟩

/-- The rewrites of the loop are a chain. -/
lemma chain_rewriteLoop (left : ℕ) (lhs : InstKind) :
    Chain lhs (rewriteLoop builtinRules left lhs) := by
  induction left generalizing lhs with
  | zero => exact .refl
  | succ left ih =>
    rw [rewriteLoop]
    split
    · next next h => exact .head (step_of_applyRewrites h) (ih next)
    · exact .refl

/-! ### Termination -/

/-- The rank of an operator: what it is rewritten to ranks lower. -/
def rank : BinOp → ℕ
  | .mul | .fMul => 2
  | _ => 1

/-- A weight that every rule lowers. -/
def weight : InstKind → ℕ
  | .binOp op a b =>
    2 * rank op + if commutative op && a.isConstI64 && !b.isConstI64 then 1 else 0
  | .iCmp _ _ _ | .fCmp _ _ _ | .siToFp _ => 1
  | .identity _ | .neg _ | .other _ _ => 0

/-- The weight is within the rewrite limit. -/
lemma weight_le (k : InstKind) : weight k ≤ rewriteLimit := by
  cases k with
  | binOp op a b =>
    have hrank : rank op ≤ 2 := by cases op <;> decide
    simp only [weight, rewriteLimit]
    split_ifs <;> omega
  | _ => simp [weight, rewriteLimit]

/-- An operator weighs more than nothing. -/
lemma weight_binOp_pos (op : BinOp) (a b : Operand) : 0 < weight (.binOp op a b) := by
  have hrank : 0 < rank op := by cases op <;> decide
  simp only [weight]
  omega

/-- What a rule gives weighs less. -/
def Rule.Lowers (r : Rule) : Prop := ∀ lhs rhs, r.tryApply lhs = some rhs → weight rhs < weight lhs

lemma commutativeCanon_lowers : commutativeCanon.Lowers := by
  intro lhs rhs h
  cases lhs with
  | binOp op a b =>
    simp only [commutativeCanon] at h
    split_ifs at h with hcond
    cases h
    -- the constant is on the right now
    have ha : a.isConstI64 = true := by
      rw [Bool.and_eq_true, Bool.and_eq_true] at hcond
      exact hcond.1.2
    simp only [weight]
    rw [if_pos hcond, ha, Bool.not_true, Bool.and_false, if_neg Bool.false_ne_true]
    omega
  | _ => cases h

lemma rightConst_lowers (name : String) (op : BinOp) (c : BitVec 64) (result : Operand → Operand) :
    (rightConst name op c result).Lowers := by
  intro lhs rhs h
  cases lhs with
  | binOp op' a b =>
    cases b with
    | constI64 c' =>
      simp only [rightConst] at h
      split_ifs at h
      cases h
      exact weight_binOp_pos _ _ _
    | _ => cases h
  | _ => cases h

lemma subNegate_lowers : subNegate.Lowers := by
  intro lhs rhs h
  unfold subNegate at h
  simp only at h
  split at h
  · split_ifs at h
    cases h
    exact weight_binOp_pos _ _ _
  · cases h

lemma selfFold_lowers (name : String) (op : BinOp) : (selfFold name op).Lowers := by
  intro lhs rhs h
  cases lhs with
  | binOp op' a b =>
    simp only [selfFold] at h
    split_ifs at h
    cases h
    exact weight_binOp_pos _ _ _
  | _ => cases h

lemma binOpConstFold_lowers : binOpConstFold.Lowers := by
  intro lhs rhs h
  unfold binOpConstFold at h
  simp only at h
  split at h
  · obtain ⟨x, -, rfl⟩ := Option.map_eq_some_iff.mp h
    exact weight_binOp_pos _ _ _
  · obtain ⟨x, -, rfl⟩ := Option.map_eq_some_iff.mp h
    exact weight_binOp_pos _ _ _
  · cases h

lemma cmpConstFold_lowers : cmpConstFold.Lowers := by
  intro lhs rhs h
  unfold cmpConstFold at h
  simp only at h
  split at h <;> cases h <;> exact Nat.zero_lt_one

lemma siToFpConstFold_lowers : siToFpConstFold.Lowers := by
  intro lhs rhs h
  unfold siToFpConstFold at h
  simp only at h
  split at h <;> cases h <;> exact Nat.zero_lt_one

lemma mulPow2ToShl_lowers : mulPow2ToShl.Lowers := by
  intro lhs rhs h
  unfold mulPow2ToShl at h
  simp only at h
  split at h
  · split_ifs at h
    cases h
    simp only [weight, rank, commutative, Bool.false_and, Bool.false_eq_true, if_false]
    omega
  · cases h

lemma fMulTwoToAdd_lowers : fMulTwoToAdd.Lowers := by
  intro lhs rhs h
  unfold fMulTwoToAdd at h
  simp only at h
  split at h
  · split_ifs at h <;> cases h <;>
      simp only [weight, rank, commutative, Bool.false_and, Bool.false_eq_true, if_false] <;>
      omega
  · cases h

/-- Every rule of the registry lowers the weight. -/
lemma builtinRules_lowers {r : Rule} (hr : r ∈ builtinRules) : r.Lowers := by
  simp only [builtinRules, List.mem_cons, List.not_mem_nil, or_false] at hr
  rcases hr with rfl | rfl | rfl | rfl | rfl | rfl | rfl | rfl | rfl | rfl | rfl | rfl | rfl | rfl |
    rfl | rfl | rfl | rfl
  · exact commutativeCanon_lowers
  · exact rightConst_lowers _ _ _ _
  · exact rightConst_lowers _ _ _ _
  · exact rightConst_lowers _ _ _ _
  · exact rightConst_lowers _ _ _ _
  · exact subNegate_lowers
  · exact rightConst_lowers _ _ _ _
  · exact rightConst_lowers _ _ _ _
  · exact rightConst_lowers _ _ _ _
  · exact rightConst_lowers _ _ _ _
  · exact rightConst_lowers _ _ _ _
  · exact selfFold_lowers _ _
  · exact selfFold_lowers _ _
  · exact binOpConstFold_lowers
  · exact cmpConstFold_lowers
  · exact siToFpConstFold_lowers
  · exact mulPow2ToShl_lowers
  · exact fMulTwoToAdd_lowers

/-- Every step lowers the weight. -/
lemma Step.weight_lt {lhs rhs : InstKind} (h : Step lhs rhs) : weight rhs < weight lhs := by
  obtain ⟨r, hr, hrule⟩ := h
  exact builtinRules_lowers hr _ _ hrule

/-- Rules cannot be applied for ever. -/
theorem step_wellFounded : WellFounded fun rhs lhs => Step lhs rhs :=
  Subrelation.wf Step.weight_lt (measure weight).wf

/-- A loop that may go on for the weight of an instruction ends where no rule matches. -/
lemma applyRewrites_rewriteLoop (left : ℕ) (lhs : InstKind) (hleft : weight lhs ≤ left) :
    applyRewrites builtinRules (rewriteLoop builtinRules left lhs) = none := by
  induction left generalizing lhs with
  | zero =>
    rw [rewriteLoop]
    by_contra hsome
    obtain ⟨rhs, hrhs⟩ := Option.ne_none_iff_exists'.mp hsome
    have := (step_of_applyRewrites hrhs).weight_lt
    omega
  | succ left ih =>
    rw [rewriteLoop]
    split
    · next next h =>
      have := (step_of_applyRewrites h).weight_lt
      exact ih next (by omega)
    · next h => exact h

/-- The rewriting of an instruction is sound: chains of rules in any order preserve its value
and come to an end, and the loop gives the end of such a chain, where no rule matches. -/
structure RewritesSound (lhs : InstKind) : Prop where
  chains : ∀ rhs, Chain lhs rhs → Preserves lhs rhs
  ends : Acc (fun rhs lhs => Step lhs rhs) lhs
  chain : Chain lhs (applyRewritesRecursive builtinRules lhs)
  preserves : Preserves lhs (applyRewritesRecursive builtinRules lhs)
  done : applyRewrites builtinRules (applyRewritesRecursive builtinRules lhs) = none

/-- The rewriting of every instruction is sound. -/
theorem rewritesSound (lhs : InstKind) : RewritesSound lhs where
  chains _ h := h.preserves
  ends := step_wellFounded.apply lhs
  chain := chain_rewriteLoop rewriteLimit lhs
  preserves := (chain_rewriteLoop rewriteLimit lhs).preserves
  done := applyRewrites_rewriteLoop rewriteLimit lhs (weight_le lhs)

end Rewrite

end Torajs
