import ToraJs.Egraph.Exec
import ToraJs.Lib.FloatBits
import ToraJs.Rewrite.Soundness

/-!
# The rewrite rules on a function's instructions

The registry of `rewrite::BUILTIN_RULES` over the instructions as functions hold them, with
doubles by their bits.  The arithmetic of constants is that of `Rewrite.Rules`.

A rule invents no value and no 32-bit constant, it leaves an operation with a 32-bit
constant alone, and on words it computes what the instruction did.
-/

namespace Torajs.Egraph

open Ieee754 (F64)

/-! ### The rules -/

/-- `Rewrite::try_apply`. -/
abbrev Rule := InstKind → Option InstKind

/-- The double of a bit pattern. -/
def f64OfWord (w : Word) : F64 := F64.ofBits w.toNat

/-- The bit pattern of a double. -/
def wordOfF64 (x : F64) : Word := BitVec.ofNat 64 x.toBits

/-- The same predicate where the constants are compared. -/
def IPred.rewrite : IPred → Rewrite.IPred
  | .eq => .eq
  | .ne => .ne
  | .slt => .slt
  | .sgt => .sgt
  | .sle => .sle
  | .sge => .sge
  | .ult => .ult
  | .uge => .uge

/-- The same predicate where the constants are compared. -/
def FPred.rewrite : FPred → Rewrite.FPred
  | .oeq => .oeq
  | .one => .one
  | .olt => .olt
  | .ogt => .ogt
  | .ole => .ole
  | .oge => .oge
  | .une => .une

/-- An `i64` constant. -/
def Operand.isConstI64 : Operand → Bool
  | .constI64 _ => true
  | _ => false

/-- `CommutativeCanon`. -/
def commutativeCanon : Rule
  | .binOp op a b =>
    if Rewrite.commutative op && a.isConstI64 && !b.isConstI64 then some (.binOp op b a) else none
  | _ => none

/-- A rule for an operator with one constant on its right; the result is made of the left
operand. -/
def rightConst (op : BinOp) (c : BitVec 64) (result : Operand → Operand) : Rule
  | .binOp op' a (.constI64 c') =>
    if op' = op ∧ c' = c then some (.unary .identity (result a)) else none
  | _ => none

/-- `AddZero`. -/
def addZero : Rule := rightConst .add 0 id

/-- `MulOne`. -/
def mulOne : Rule := rightConst .mul 1 id

/-- `MulZero`. -/
def mulZero : Rule := rightConst .mul 0 fun _ => .constI64 0

/-- `SubZero`. -/
def subZero : Rule := rightConst .sub 0 id

/-- `SubNegate`. -/
def subNegate : Rule
  | .binOp .sub (.constI64 c) b => if c = 0 then some (.unary .neg b) else none
  | _ => none

/-- `XorZero`. -/
def xorZero : Rule := rightConst .xor 0 id

/-- `OrZero`. -/
def orZero : Rule := rightConst .or 0 id

/-- `AndAllOnes`. -/
def andAllOnes : Rule := rightConst .and (-1) id

/-- `AndZero`. -/
def andZero : Rule := rightConst .and 0 fun _ => .constI64 0

/-- `OrAllOnes`. -/
def orAllOnes : Rule := rightConst .or (-1) fun _ => .constI64 (-1)

/-- A rule for an operator with the same operand on both sides. -/
def selfFold (op : BinOp) : Rule
  | .binOp op' a b =>
    if op' = op ∧ a = b then some (.unary .identity (.constI64 0)) else none
  | _ => none

/-- `SubSelf`. -/
def subSelf : Rule := selfFold .sub

/-- `XorSelf`. -/
def xorSelf : Rule := selfFold .xor

/-- `BinOpConstFold`. -/
def binOpConstFold : Rule
  | .binOp op (.constF64 a) (.constF64 b) =>
    (Rewrite.foldF64 op (f64OfWord a) (f64OfWord b)).map fun x =>
      .unary .identity (.constF64 (wordOfF64 x))
  | .binOp op (.constI64 a) (.constI64 b) =>
    (Rewrite.foldI64 op a b).map fun x => .unary .identity (.constI64 x)
  | _ => none

/-- `CmpConstFold`. -/
def cmpConstFold : Rule
  | .iCmp p (.constI64 a) (.constI64 b) =>
    some (.unary .identity (.constBool (Rewrite.icmp p.rewrite a b)))
  | .fCmp p (.constF64 a) (.constF64 b) =>
    some (.unary .identity (.constBool (Rewrite.fcmp p.rewrite (f64OfWord a) (f64OfWord b))))
  | _ => none

/-- `SiToFpConstFold`. -/
def siToFpConstFold : Rule
  | .unary .siToFp (.constI64 n) =>
    some (.unary .identity (.constF64 (wordOfF64 (F64.ofInt n.toInt))))
  | .unary .siToFp (.constI32 n) =>
    some (.unary .identity (.constF64 (wordOfF64 (F64.ofInt n.toInt))))
  | _ => none

/-- `MulPow2ToShl`. -/
def mulPow2ToShl : Rule
  | .binOp .mul x (.constI64 c) =>
    if 1 < c.toInt ∧ c.toNat.isPowerOfTwo then
      some (.binOp .shl x (.constI64 (BitVec.ofNat 64 (Rewrite.trailingZeros c.toNat))))
    else none
  | _ => none

/-- The constant two. -/
def Operand.isTwo : Operand → Bool
  | .constF64 c => F64.partialCmp (f64OfWord c) (F64.ofInt 2) == some .eq
  | _ => false

/-- `FMulTwoToAdd`: the constant is looked for on the right first. -/
def fMulTwoToAdd : Rule
  | .binOp .fMul x y =>
    if y.isTwo then some (.binOp .fAdd x x)
    else if x.isTwo then some (.binOp .fAdd y y)
    else none
  | _ => none

/-- `BUILTIN_RULES`, in priority order. -/
def builtinRules : List Rule :=
  [commutativeCanon, addZero, mulOne, mulZero, subZero, subNegate, xorZero, orZero, andAllOnes,
    andZero, orAllOnes, subSelf, xorSelf, binOpConstFold, cmpConstFold, siToFpConstFold,
    mulPow2ToShl, fMulTwoToAdd]

/-- `apply_rewrites`. -/
def applyRewrites (rules : List Rule) (lhs : InstKind) : Option InstKind :=
  rules.findSome? fun rule => rule lhs

/-- The loop of `apply_rewrites_recursive`. -/
def applyRewritesLoop (rules : List Rule) : ℕ → InstKind → InstKind
  | 0, current => current
  | left + 1, current =>
    match applyRewrites rules current with
    | some next => applyRewritesLoop rules left next
    | none => current

/-- `apply_rewrites_recursive`. -/
def applyRewritesRecursive (rules : List Rule) (lhs : InstKind) : InstKind :=
  applyRewritesLoop rules Rewrite.rewriteLimit lhs

/-! ### What a rule matches -/

section Inversion

variable {op : BinOp} {c : BitVec 64} {kind kind' : InstKind}

lemma commutativeCanon_eq_some (h : commutativeCanon kind = some kind') :
    ∃ op a b, Rewrite.commutative op = true ∧ a.isConstI64 = true ∧ kind = .binOp op a b ∧
      kind' = .binOp op b a := by
  unfold commutativeCanon at h
  split at h
  · next op a b =>
    split_ifs at h with hcond
    rw [Bool.and_eq_true, Bool.and_eq_true] at hcond
    exact ⟨op, a, b, hcond.1.1, hcond.1.2, rfl, (Option.some.inj h).symm⟩
  · cases h

lemma rightConst_eq_some {result : Operand → Operand}
    (h : rightConst op c result kind = some kind') :
    ∃ a, kind = .binOp op a (.constI64 c) ∧ kind' = .unary .identity (result a) := by
  unfold rightConst at h
  split at h
  · next a _ =>
    split_ifs at h with hcond
    obtain ⟨rfl, rfl⟩ := hcond
    exact ⟨a, rfl, (Option.some.inj h).symm⟩
  · cases h

lemma subNegate_eq_some (h : subNegate kind = some kind') :
    ∃ b, kind = .binOp .sub (.constI64 0) b ∧ kind' = .unary .neg b := by
  unfold subNegate at h
  split at h
  · next b =>
    split_ifs at h with hc
    subst hc
    exact ⟨b, rfl, (Option.some.inj h).symm⟩
  · cases h

lemma selfFold_eq_some (h : selfFold op kind = some kind') :
    ∃ a, kind = .binOp op a a ∧ kind' = .unary .identity (.constI64 0) := by
  unfold selfFold at h
  split at h
  · next a _ =>
    split_ifs at h with hcond
    obtain ⟨rfl, rfl⟩ := hcond
    exact ⟨a, rfl, (Option.some.inj h).symm⟩
  · cases h

lemma binOpConstFold_eq_some (h : binOpConstFold kind = some kind') :
    (∃ op a b x, Rewrite.foldF64 op (f64OfWord a) (f64OfWord b) = some x ∧
        kind = .binOp op (.constF64 a) (.constF64 b) ∧
        kind' = .unary .identity (.constF64 (wordOfF64 x))) ∨
      ∃ op a b x, Rewrite.foldI64 op a b = some x ∧
        kind = .binOp op (.constI64 a) (.constI64 b) ∧ kind' = .unary .identity (.constI64 x) := by
  unfold binOpConstFold at h
  split at h
  · next op a b =>
    obtain ⟨x, hx, rfl⟩ := Option.map_eq_some_iff.mp h
    exact Or.inl ⟨op, a, b, x, hx, rfl, rfl⟩
  · next op a b =>
    obtain ⟨x, hx, rfl⟩ := Option.map_eq_some_iff.mp h
    exact Or.inr ⟨op, a, b, x, hx, rfl, rfl⟩
  · cases h

lemma cmpConstFold_eq_some (h : cmpConstFold kind = some kind') :
    (∃ p a b, kind = .iCmp p (.constI64 a) (.constI64 b) ∧
        kind' = .unary .identity (.constBool (Rewrite.icmp p.rewrite a b))) ∨
      ∃ p a b, kind = .fCmp p (.constF64 a) (.constF64 b) ∧ kind' =
        .unary .identity (.constBool (Rewrite.fcmp p.rewrite (f64OfWord a) (f64OfWord b))) := by
  unfold cmpConstFold at h
  split at h
  · next p a b => exact Or.inl ⟨p, a, b, rfl, (Option.some.inj h).symm⟩
  · next p a b => exact Or.inr ⟨p, a, b, rfl, (Option.some.inj h).symm⟩
  · cases h

lemma siToFpConstFold_eq_some (h : siToFpConstFold kind = some kind') :
    (∃ n : BitVec 64, kind = .unary .siToFp (.constI64 n) ∧
        kind' = .unary .identity (.constF64 (wordOfF64 (F64.ofInt n.toInt)))) ∨
      ∃ n : BitVec 32, kind = .unary .siToFp (.constI32 n) ∧
        kind' = .unary .identity (.constF64 (wordOfF64 (F64.ofInt n.toInt))) := by
  unfold siToFpConstFold at h
  split at h
  · next n => exact Or.inl ⟨n, rfl, (Option.some.inj h).symm⟩
  · next n => exact Or.inr ⟨n, rfl, (Option.some.inj h).symm⟩
  · cases h

lemma mulPow2ToShl_eq_some (h : mulPow2ToShl kind = some kind') :
    ∃ x, ∃ c : BitVec 64, c.toNat.isPowerOfTwo ∧ kind = .binOp .mul x (.constI64 c) ∧
      kind' = .binOp .shl x (.constI64 (BitVec.ofNat 64 (Rewrite.trailingZeros c.toNat))) := by
  unfold mulPow2ToShl at h
  split at h
  · next x c =>
    split_ifs at h with hcond
    exact ⟨x, c, hcond.2, rfl, (Option.some.inj h).symm⟩
  · cases h

lemma Operand.isTwo_iff {a : Operand} (h : a.isTwo = true) :
    ∃ c, a = .constF64 c ∧ f64OfWord c = F64.ofInt 2 := by
  unfold Operand.isTwo at h
  split at h
  · next c => exact ⟨c, rfl, F64.eq_two_of_partialCmp (eq_of_beq h)⟩
  · cases h

lemma fMulTwoToAdd_eq_some (h : fMulTwoToAdd kind = some kind') :
    ∃ x, ∃ c : BitVec 64, f64OfWord c = F64.ofInt 2 ∧
      (kind = .binOp .fMul x (.constF64 c) ∨ kind = .binOp .fMul (.constF64 c) x) ∧
      kind' = .binOp .fAdd x x := by
  unfold fMulTwoToAdd at h
  split at h
  · next x y =>
    split_ifs at h with hy hx
    · obtain ⟨c, rfl, hc⟩ := Operand.isTwo_iff hy
      exact ⟨x, c, hc, Or.inl rfl, (Option.some.inj h).symm⟩
    · obtain ⟨c, rfl, hc⟩ := Operand.isTwo_iff hx
      exact ⟨y, c, hc, Or.inr rfl, (Option.some.inj h).symm⟩
  · cases h

end Inversion

/-- What holds of each shape of rule holds of what the registry does. -/
lemma applyRewrites_induct {P : InstKind → InstKind → Prop} (hcanon : ∀ op a b,
      Rewrite.commutative op = true → a.isConstI64 = true → P (.binOp op a b) (.binOp op b a))
    (hneutral : ∀ op g c, gprBinOp op = some g → (∀ x, g x c = x) →
      ∀ a, P (.binOp op a (.constI64 c)) (.unary .identity a))
    (habsorbing : ∀ op g c, gprBinOp op = some g → (∀ x, g x c = c) →
      ∀ a, P (.binOp op a (.constI64 c)) (.unary .identity (.constI64 c)))
    (hneg : ∀ b, P (.binOp .sub (.constI64 0) b) (.unary .neg b))
    (hself : ∀ op g, gprBinOp op = some g → (∀ x, g x x = 0) →
      ∀ a, P (.binOp op a a) (.unary .identity (.constI64 0)))
    (hfolds : ∀ rule ∈ [binOpConstFold, cmpConstFold, siToFpConstFold, mulPow2ToShl, fMulTwoToAdd],
      ∀ kind kind', rule kind = some kind' → P kind kind')
    {kind kind' : InstKind} (h : applyRewrites builtinRules kind = some kind') : P kind kind' := by
  have hconst : ∀ {op c g}, gprBinOp op = some g → (∀ x, g x c = x) →
      rightConst op c id kind = some kind' → P kind kind' := by
    intro op c g hg hid hrule
    obtain ⟨a, rfl, rfl⟩ := rightConst_eq_some hrule
    exact hneutral op g c hg hid a
  have hzero : ∀ {op c g}, gprBinOp op = some g → (∀ x, g x c = c) →
      rightConst op c (fun _ => .constI64 c) kind = some kind' → P kind kind' := by
    intro op c g hg habs hrule
    obtain ⟨a, rfl, rfl⟩ := rightConst_eq_some hrule
    exact habsorbing op g c hg habs a
  have hsame : ∀ {op g}, gprBinOp op = some g → (∀ x, g x x = 0) →
      selfFold op kind = some kind' → P kind kind' := by
    intro op g hg hz hrule
    obtain ⟨a, rfl, rfl⟩ := selfFold_eq_some hrule
    exact hself op g hg hz a
  obtain ⟨rule, hrule, h⟩ := List.exists_of_findSome?_eq_some h
  simp only [builtinRules, List.mem_cons, List.not_mem_nil, or_false] at hrule
  rcases hrule with rfl | rfl | rfl | rfl | rfl | rfl | rfl | rfl | rfl | rfl | rfl | rfl | rfl |
    hrule
  · obtain ⟨op, a, b, hop, ha, rfl, rfl⟩ := commutativeCanon_eq_some h
    exact hcanon op a b hop ha
  · exact hconst rfl (fun x => BitVec.add_zero x) h
  · exact hconst rfl (fun x => BitVec.mul_one x) h
  · exact hzero rfl (fun x => BitVec.mul_zero) h
  · exact hconst rfl (fun x => BitVec.sub_zero x) h
  · obtain ⟨b, rfl, rfl⟩ := subNegate_eq_some h
    exact hneg b
  · exact hconst rfl (fun x => BitVec.xor_zero) h
  · exact hconst rfl (fun x => BitVec.or_zero) h
  · exact hconst rfl (fun x => BitVec.and_allOnes) h
  · exact hzero rfl (fun x => BitVec.and_zero) h
  · exact hzero rfl (fun x => BitVec.or_allOnes) h
  · exact hsame rfl (fun x => BitVec.sub_self x) h
  · exact hsame rfl (fun x => BitVec.xor_self) h
  · exact hfolds rule (by simpa using hrule) kind kind' h

/-- What holds of one rule holds of a chain of them. -/
lemma applyRewritesRecursive_induct {P : InstKind → InstKind → Prop} (hrefl : ∀ kind, P kind kind)
    (hstep : ∀ {kind next kind'}, applyRewrites builtinRules kind = some next → P next kind' →
      P kind kind') (kind : InstKind) : P kind (applyRewritesRecursive builtinRules kind) := by
  have hloop : ∀ (left : ℕ) (kind : InstKind),
      P kind (applyRewritesLoop builtinRules left kind) := by
    intro left
    induction left with
    | zero => exact hrefl
    | succ left ih =>
      intro kind
      rw [applyRewritesLoop]
      cases hnext : applyRewrites builtinRules kind with
      | none => exact hrefl kind
      | some next => exact hstep hnext (ih next)
  exact hloop Rewrite.rewriteLimit kind

/-! ### Operands -/

/-- A constant that is not a 32-bit one. -/
def Operand.isWide : Operand → Bool
  | .value _ | .constI32 _ => false
  | _ => true

/-- **A rule invents wide constants only.** -/
lemma mem_operands_of_applyRewrites {kind kind' : InstKind}
    (h : applyRewrites builtinRules kind = some kind') :
    ∀ a ∈ kind'.operands, a ∈ kind.operands ∨ a.isWide = true := by
  refine applyRewrites_induct (P := fun kind kind' =>
    ∀ a ∈ kind'.operands, a ∈ kind.operands ∨ a.isWide = true) ?_ ?_ ?_ ?_ ?_ ?_ h
  · intro op a b _ _ x hx
    simp only [InstKind.operands, List.mem_cons, List.not_mem_nil, or_false] at hx ⊢
    exact Or.inl hx.symm
  · intro op g c _ _ a x hx
    simp only [InstKind.operands, List.mem_cons, List.not_mem_nil, or_false] at hx ⊢
    exact Or.inl (Or.inl hx)
  · intro op g c _ _ a x hx
    simp only [InstKind.operands, List.mem_cons, List.not_mem_nil, or_false] at hx ⊢
    exact Or.inl (Or.inr hx)
  · intro b x hx
    simp only [InstKind.operands, List.mem_cons, List.not_mem_nil, or_false] at hx ⊢
    exact Or.inl (Or.inr hx)
  · intro op g _ _ a x hx
    simp only [InstKind.operands, List.mem_cons, List.not_mem_nil, or_false] at hx
    exact Or.inr (hx ▸ rfl)
  · intro rule hrule kind kind' h x hx
    simp only [List.mem_cons, List.not_mem_nil, or_false] at hrule
    rcases hrule with rfl | rfl | rfl | rfl | rfl
    · rcases binOpConstFold_eq_some h with ⟨_, _, _, _, _, rfl, rfl⟩ | ⟨_, _, _, _, _, rfl, rfl⟩ <;>
        exact Or.inr (List.mem_singleton.mp hx ▸ rfl)
    · rcases cmpConstFold_eq_some h with ⟨_, _, _, rfl, rfl⟩ | ⟨_, _, _, rfl, rfl⟩ <;>
        exact Or.inr (List.mem_singleton.mp hx ▸ rfl)
    · rcases siToFpConstFold_eq_some h with ⟨_, rfl, rfl⟩ | ⟨_, rfl, rfl⟩ <;>
        exact Or.inr (List.mem_singleton.mp hx ▸ rfl)
    · obtain ⟨y, c, _, rfl, rfl⟩ := mulPow2ToShl_eq_some h
      simp only [InstKind.operands, List.mem_cons, List.not_mem_nil, or_false] at hx ⊢
      rcases hx with rfl | rfl
      · exact Or.inl (Or.inl rfl)
      · exact Or.inr rfl
    · obtain ⟨y, c, _, hkind, rfl⟩ := fMulTwoToAdd_eq_some h
      simp only [InstKind.operands, List.mem_cons, List.not_mem_nil, or_false, or_self] at hx
      subst hx
      rcases hkind with rfl | rfl
      · exact Or.inl List.mem_cons_self
      · exact Or.inl (List.mem_cons_of_mem _ List.mem_cons_self)

lemma mem_operands_of_recursive {kind : InstKind} :
    ∀ a ∈ (applyRewritesRecursive builtinRules kind).operands,
      a ∈ kind.operands ∨ a.isWide = true := by
  refine applyRewritesRecursive_induct (P := fun kind kind' =>
    ∀ a ∈ kind'.operands, a ∈ kind.operands ∨ a.isWide = true) (fun kind a ha => Or.inl ha) ?_ kind
  intro kind next kind' hnext ih a ha
  exact (ih a ha).elim (mem_operands_of_applyRewrites hnext a) Or.inr

/-- An operation with a 32-bit constant on its right. -/
def InstKind.isNarrowOp : InstKind → Bool
  | .binOp _ (.value _) (.constI32 _) => true
  | _ => false

/-- **No rule matches an operation with a 32-bit constant.** -/
lemma applyRewrites_of_isNarrowOp {kind : InstKind} (h : kind.isNarrowOp = true) :
    applyRewrites builtinRules kind = none := by
  rw [← Option.not_isSome_iff_eq_none, Option.isSome_iff_exists]
  rintro ⟨kind', hkind'⟩
  refine applyRewrites_induct (P := fun kind _ => kind.isNarrowOp ≠ true) ?_ ?_ ?_ ?_ ?_ ?_ hkind' h
  · intro op a b _ ha hnarrow
    cases a <;> simp_all [Operand.isConstI64, InstKind.isNarrowOp]
  · intro op g c _ _ a hnarrow
    cases a <;> cases hnarrow
  · intro op g c _ _ a hnarrow
    cases a <;> cases hnarrow
  · exact fun b => Bool.false_ne_true
  · intro op g _ _ a hnarrow
    cases a <;> cases hnarrow
  · intro rule hrule kind kind' h hnarrow
    simp only [List.mem_cons, List.not_mem_nil, or_false] at hrule
    rcases hrule with rfl | rfl | rfl | rfl | rfl
    · rcases binOpConstFold_eq_some h with ⟨_, _, _, _, _, rfl, _⟩ | ⟨_, _, _, _, _, rfl, _⟩ <;>
        cases hnarrow
    · rcases cmpConstFold_eq_some h with ⟨_, _, _, rfl, _⟩ | ⟨_, _, _, rfl, _⟩ <;> cases hnarrow
    · rcases siToFpConstFold_eq_some h with ⟨_, rfl, _⟩ | ⟨_, rfl, _⟩ <;> cases hnarrow
    · obtain ⟨y, c, _, rfl, _⟩ := mulPow2ToShl_eq_some h
      cases y <;> cases hnarrow
    · obtain ⟨y, c, _, rfl | rfl, _⟩ := fMulTwoToAdd_eq_some h
      · cases y <;> cases hnarrow
      · cases hnarrow

/-- The rules look at arithmetic, comparisons and conversions; only arithmetic is replaced by one
of its operands. -/
lemma binOp_or_wide_of_applyRewrites {kind kind' : InstKind}
    (h : applyRewrites builtinRules kind = some kind') :
    (∃ op a b, kind = .binOp op a b) ∨ ∃ a : Operand, a.isWide = true ∧
      kind' = .unary .identity a ∧ ((∃ p x y, kind = .iCmp p x y) ∨ (∃ p x y, kind = .fCmp p x y) ∨
        ∃ x, kind = .unary .siToFp x) := by
  refine applyRewrites_induct (P := fun kind kind' => (∃ op a b, kind = .binOp op a b) ∨
    ∃ a : Operand, a.isWide = true ∧ kind' = .unary .identity a ∧ ((∃ p x y, kind = .iCmp p x y) ∨
      (∃ p x y, kind = .fCmp p x y) ∨ ∃ x, kind = .unary .siToFp x)) ?_ ?_ ?_ ?_ ?_ ?_ h
  · exact fun op a b _ _ => Or.inl ⟨op, a, b, rfl⟩
  · exact fun op g c _ _ a => Or.inl ⟨op, a, _, rfl⟩
  · exact fun op g c _ _ a => Or.inl ⟨op, a, _, rfl⟩
  · exact fun b => Or.inl ⟨.sub, _, b, rfl⟩
  · exact fun op g _ _ a => Or.inl ⟨op, a, a, rfl⟩
  · intro rule hrule kind kind' h
    simp only [List.mem_cons, List.not_mem_nil, or_false] at hrule
    rcases hrule with rfl | rfl | rfl | rfl | rfl
    · rcases binOpConstFold_eq_some h with ⟨op, _, _, _, _, rfl, _⟩ | ⟨op, _, _, _, _, rfl, _⟩ <;>
        exact Or.inl ⟨op, _, _, rfl⟩
    · rcases cmpConstFold_eq_some h with ⟨p, _, _, rfl, rfl⟩ | ⟨p, _, _, rfl, rfl⟩
      · exact Or.inr ⟨_, rfl, rfl, Or.inl ⟨p, _, _, rfl⟩⟩
      · exact Or.inr ⟨_, rfl, rfl, Or.inr (Or.inl ⟨p, _, _, rfl⟩)⟩
    · rcases siToFpConstFold_eq_some h with ⟨_, rfl, rfl⟩ | ⟨_, rfl, rfl⟩ <;>
        exact Or.inr ⟨_, rfl, rfl, Or.inr (Or.inr ⟨_, rfl⟩)⟩
    · obtain ⟨y, c, _, rfl, _⟩ := mulPow2ToShl_eq_some h
      exact Or.inl ⟨.mul, _, _, rfl⟩
    · obtain ⟨y, c, _, rfl | rfl, _⟩ := fMulTwoToAdd_eq_some h <;> exact Or.inl ⟨.fMul, _, _, rfl⟩

/-! ### Words -/

/-- The float unit computes what the constants are folded to. -/
structure External.Ieee {World : Type} (ext : External World) : Prop where
  fBin : ∀ op x y r, Rewrite.floatOp op (f64OfWord x) (f64OfWord y) = some r →
    ext.fBin op x y = wordOfF64 r
  fCmp : ∀ p x y, ext.fCmp p x y = Rewrite.fcmp p.rewrite (f64OfWord x) (f64OfWord y)
  siToFp : ∀ x, ext.convert .siToFp x = wordOfF64 (F64.ofInt x.toInt)

section Words

variable {World : Type} {ext : External World}

/-- An integer operator on words. -/
lemma intOp_of_gprBinOp {op : BinOp} {g : Word → Word → Word} (h : gprBinOp op = some g)
    (x y : Word) : Rewrite.intOp op x y = some (g x y) := by
  cases op with
  | sRem =>
    obtain rfl := Option.some.inj h
    exact congrArg some (Rewrite.sub_sdiv_mul x y)
  | fAdd | fSub | fMul | fDiv | fRem => cases h
  | _ =>
    obtain rfl := Option.some.inj h
    rfl

/-- An operator of the integer unit. -/
lemma wordInterp_gpr {op : BinOp} {g : Word → Word → Word} (h : gprBinOp op = some g) (x y : Word) :
    (wordInterp ext).binOp op x y = g x y := by
  change ((gprBinOp op).map fun g => g x y).getD _ = _
  rw [h]
  rfl

/-- An operator of the float unit. -/
lemma wordInterp_fpr (hext : ext.Ieee) {op : BinOp} {x y : Word} {r : F64}
    (h : Rewrite.floatOp op (f64OfWord x) (f64OfWord y) = some r) :
    (wordInterp ext).binOp op x y = wordOfF64 r := by
  have hnone : gprBinOp op = none := by
    cases op <;> first | rfl | cases h
  change ((gprBinOp op).map fun g => g x y).getD _ = _
  rw [hnone]
  exact hext.fBin op x y r h

/-- The folded comparison of words is the machine's. -/
lemma icmp_rewrite (p : IPred) (x y : Word) : Rewrite.icmp p.rewrite x y = p.holds x y := by
  cases p <;> simp [IPred.rewrite, Rewrite.icmp, IPred.holds, BitVec.slt, BitVec.sle, BitVec.ult,
    BitVec.ule, beq_eq_decide, bne]

/-- **On words a rule computes what the instruction did.** -/
theorem pureValue_of_applyRewrites (hext : ext.Ieee) {kind kind' : InstKind}
    (h : applyRewrites builtinRules kind = some kind') (ρ : ValueId → Word) :
    kind'.pureValue (wordInterp ext) ρ = kind.pureValue (wordInterp ext) ρ := by
  refine applyRewrites_induct (P := fun kind kind' =>
    kind'.pureValue (wordInterp ext) ρ = kind.pureValue (wordInterp ext) ρ) ?_ ?_ ?_ ?_ ?_ ?_ h
  · intro op a b hop _
    have hgpr : (gprBinOp op).isSome := by
      cases op <;> first | rfl | cases hop
    obtain ⟨g, hg⟩ := Option.isSome_iff_exists.mp hgpr
    have hcomm := Rewrite.intOp_comm hop (b.eval (wordInterp ext) ρ) (a.eval (wordInterp ext) ρ)
    rw [intOp_of_gprBinOp hg, intOp_of_gprBinOp hg] at hcomm
    rw [InstKind.pureValue, InstKind.pureValue, wordInterp_gpr hg, wordInterp_gpr hg]
    exact hcomm
  · intro op g c hg hid a
    rw [InstKind.pureValue, InstKind.pureValue, wordInterp_gpr hg]
    exact congrArg some (hid _).symm
  · intro op g c hg habs a
    rw [InstKind.pureValue, InstKind.pureValue, wordInterp_gpr hg]
    exact congrArg some (habs _).symm
  · intro b
    have hsub : gprBinOp .sub = some fun (x y : Word) => x - y := rfl
    rw [InstKind.pureValue, InstKind.pureValue, wordInterp_gpr hsub]
    exact congrArg some (BitVec.zero_sub _).symm
  · intro op g hg hz a
    rw [InstKind.pureValue, InstKind.pureValue, wordInterp_gpr hg]
    exact congrArg some (hz _).symm
  · intro rule hrule kind kind' h
    simp only [List.mem_cons, List.not_mem_nil, or_false] at hrule
    rcases hrule with rfl | rfl | rfl | rfl | rfl
    · rcases binOpConstFold_eq_some h with ⟨op, a, b, x, hx, rfl, rfl⟩ | ⟨op, a, b, x, hx, rfl, rfl⟩
      · have hfloat : Rewrite.floatOp op (f64OfWord a) (f64OfWord b) = some x := by
          cases op <;> exact hx
        rw [InstKind.pureValue, InstKind.pureValue]
        exact congrArg some (wordInterp_fpr hext hfloat).symm
      · have hint := Rewrite.intOp_of_foldI64 hx
        have hgpr : (gprBinOp op).isSome := by
          cases op <;> first | rfl | cases hx
        obtain ⟨g, hg⟩ := Option.isSome_iff_exists.mp hgpr
        rw [intOp_of_gprBinOp hg] at hint
        rw [InstKind.pureValue, InstKind.pureValue, wordInterp_gpr hg]
        exact hint.symm
    · rcases cmpConstFold_eq_some h with ⟨p, a, b, rfl, rfl⟩ | ⟨p, a, b, rfl, rfl⟩
      · rw [InstKind.pureValue, InstKind.pureValue, icmp_rewrite]
        rfl
      · rw [InstKind.pureValue, InstKind.pureValue, ← hext.fCmp]
        rfl
    · rcases siToFpConstFold_eq_some h with ⟨n, rfl, rfl⟩ | ⟨n, rfl, rfl⟩
      · rw [InstKind.pureValue, InstKind.pureValue]
        exact congrArg some (hext.siToFp n).symm
      · have hval : (n.signExtend 64).toInt = n.toInt :=
          BitVec.toInt_signExtend_of_le (by norm_num)
        have hconv := hext.siToFp (n.signExtend 64)
        rw [hval] at hconv
        rw [InstKind.pureValue, InstKind.pureValue]
        exact congrArg some hconv.symm
    · obtain ⟨x, c, ⟨k, hk⟩, rfl, rfl⟩ := mulPow2ToShl_eq_some h
      have hlt : k < 64 := by
        have hc64 : 2 ^ k < 2 ^ 64 := hk ▸ c.isLt
        exact (Nat.pow_lt_pow_iff_right (by norm_num)).mp hc64
      have hcount : (BitVec.ofNat 64 k).toNat % 64 = k := by
        rw [BitVec.toNat_ofNat]
        omega
      have hpow : c = BitVec.twoPow 64 k := by
        apply BitVec.eq_of_toNat_eq
        rw [hk, BitVec.toNat_twoPow, Nat.mod_eq_of_lt (hk ▸ c.isLt)]
      have hmul : gprBinOp .mul = some fun (x y : Word) => x * y := rfl
      have hshl : gprBinOp .shl = some fun (x y : Word) => x <<< (y.toNat % 64) := rfl
      rw [hk, Rewrite.trailingZeros_two_pow hlt, InstKind.pureValue, InstKind.pureValue,
        wordInterp_gpr hmul, wordInterp_gpr hshl]
      have hshift : ∀ w : Word, w <<< ((BitVec.ofNat 64 k).toNat % 64) = w * c := by
        intro w
        rw [hcount, hpow, BitVec.mul_twoPow_eq_shiftLeft]
      exact congrArg some (hshift _)
    · obtain ⟨x, c, hc, rfl | rfl, rfl⟩ := fMulTwoToAdd_eq_some h
      · rw [InstKind.pureValue, InstKind.pureValue]
        refine congrArg some ((wordInterp_fpr hext rfl).trans ?_)
        rw [← F64.mul_two, ← hc]
        exact (wordInterp_fpr hext rfl).symm
      · rw [InstKind.pureValue, InstKind.pureValue]
        refine congrArg some ((wordInterp_fpr hext rfl).trans ?_)
        rw [← F64.two_mul, ← hc]
        exact (wordInterp_fpr hext rfl).symm

end Words

end Torajs.Egraph
