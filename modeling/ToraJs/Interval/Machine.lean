import ToraJs.Interval.Transfer

/-!
# What the machine computes, and what a fact claims

`Runs` relates an instruction, under a valuation of the SSA values, to each result the
emitted code can leave in the destination register: wrapping two's-complement
arithmetic in the general registers and IEEE 754 arithmetic in the float registers.
Where the result depends on memory, on a callee or on a double that is not
integer-valued, every value of the register class is a possible result.

`AbsVal.Contains` is the meaning of a fact.
-/

namespace Torajs

/-! ### Integer instructions -/

/-- The integer operations of `binop.rs` on 64-bit registers.  The register forms of
the shifts take the amount modulo the width; a remainder is the dividend less the
divisor times the quotient. -/
def gprBinOp : BinOp → Option (BitVec 64 → BitVec 64 → BitVec 64)
  | .add => some fun x y => x + y
  | .sub => some fun x y => x - y
  | .mul => some fun x y => x * y
  | .sDiv => some fun x y => x.sdiv y
  | .sRem => some fun x y => x.srem y
  | .and => some fun x y => x &&& y
  | .or => some fun x y => x ||| y
  | .xor => some fun x y => x ^^^ y
  | .shl => some fun x y => x <<< (y.toNat % 64)
  | .aShr => some fun x y => x.sshiftRight (y.toNat % 64)
  | .lShr => some fun x y => x >>> (y.toNat % 64)
  | .fAdd | .fSub | .fMul | .fDiv | .fRem => none

/-- `CNT` and `ADDV`: the number of set bits. -/
def popCount (x : BitVec 64) : ℕ := (List.range 64).countP fun i => x.getLsbD i

/-- `RBIT` and `CLZ`: the index of the lowest set bit, the width if there is none. -/
def trailingZeros (x : BitVec 64) : ℕ := (List.range 64).findIdx fun i => x.getLsbD i

/-- `FCVTZS` on an integer-valued double: saturating at both ends. -/
def fcvtzs (n : ℤ) : BitVec 64 := BitVec.ofInt 64 (max I64_MIN (min I64_MAX n))

/-! ### Float instructions -/

/-- The IEEE 754 result of a float operation.  On integer-valued operands the result
is the exact one, rounded; `FDiv` keeps it when the division is exact, and `fmod` is
always exact. -/
inductive FprBinOp : BinOp → Double → Double → Double → Prop where
  | fAdd (m n : IntDouble) : FprBinOp .fAdd (.int m) (.int n) (.ofExact (m.val + n.val))
  | fSub (m n : IntDouble) : FprBinOp .fSub (.int m) (.int n) (.ofExact (m.val - n.val))
  | fMul (m n : IntDouble) : FprBinOp .fMul (.int m) (.int n) (.ofExact (m.val * n.val))
  | fDiv (m n : IntDouble) (hn : n.val ≠ 0) (hdvd : n.val ∣ m.val) :
      FprBinOp .fDiv (.int m) (.int n) (.ofExact (m.val / n.val))
  | fDivInexact (m n : IntDouble) (h : n.val = 0 ∨ ¬ n.val ∣ m.val) (d : Double) :
      FprBinOp .fDiv (.int m) (.int n) d
  | fRem (m n : IntDouble) (hn : n.val ≠ 0) :
      FprBinOp .fRem (.int m) (.int n) (.ofExact (m.val.tmod n.val))
  | fRemZero (m n : IntDouble) (hn : n.val = 0) : FprBinOp .fRem (.int m) (.int n) .other
  | nonIntLeft (op : BinOp) (x d : Double) : FprBinOp op .other x d
  | nonIntRight (op : BinOp) (x d : Double) : FprBinOp op x .other d

/-! ### One instruction -/

/-- `Computes ρ kind r`: under the valuation `ρ` the code of the instruction can leave
`r` in its destination. -/
inductive Computes (ρ : ValueId → Val) : InstKind → Val → Prop where
  | gprBin {op f a b x y} (hf : gprBinOp op = some f) (ha : a.eval ρ = .gpr x)
      (hb : b.eval ρ = .gpr y) : Computes ρ (.binOp op a b) (.gpr (f x y))
  | fprBin {op a b x y d} (hop : gprBinOp op = none) (ha : a.eval ρ = .fpr x)
      (hb : b.eval ρ = .fpr y) (hd : FprBinOp op x y d) : Computes ρ (.binOp op a b) (.fpr d)
  | copy {ty a} : Computes ρ (.copy ty a) (a.eval ρ)
  | identity {a} : Computes ρ (.identity a) (a.eval ρ)
  | neg {a x} (ha : a.eval ρ = .gpr x) : Computes ρ (.neg a) (.gpr (-x))
  | siToFp {a x} (ha : a.eval ρ = .gpr x) : Computes ρ (.siToFp a) (.fpr (.ofExact x.toInt))
  | fpToSi {a n} (ha : a.eval ρ = .fpr (.int n)) : Computes ρ (.fpToSi a) (.gpr (fcvtzs n.val))
  | fpToSiNonInt {a} (ha : a.eval ρ = .fpr .other) (x : BitVec 64) :
      Computes ρ (.fpToSi a) (.gpr x)
  | fpToInt32 {a n} (ha : a.eval ρ = .fpr (.int n)) :
      Computes ρ (.fpToInt32 a) (.gpr ((BitVec.ofInt 32 n.val).signExtend 64))
  | fpToInt32NonInt {a} (ha : a.eval ρ = .fpr .other) (x : BitVec 32) :
      Computes ρ (.fpToInt32 a) (.gpr (x.signExtend 64))
  | zExtBoolToI64 {a} (b : Bool) (ha : a.eval ρ = .gpr (if b then 1 else 0)) :
      Computes ρ (.zExtBoolToI64 a) (.gpr (if b then 1 else 0))
  | zExtI32ToI64 {a x} (ha : a.eval ρ = .gpr x) :
      Computes ρ (.zExtI32ToI64 a) (.gpr ((x.setWidth 32).setWidth 64))
  | loadU8Dyn {base idx} (x : BitVec 8) : Computes ρ (.loadU8Dyn base idx) (.gpr (x.setWidth 64))
  | loadU16Dyn {base idx} (x : BitVec 16) :
      Computes ρ (.loadU16Dyn base idx) (.gpr (x.setWidth 64))
  | ctpop {a x} (ha : a.eval ρ = .gpr x) :
      Computes ρ (.ctpop a) (.gpr (BitVec.ofNat 64 (popCount x)))
  | cttz {a x} (ha : a.eval ρ = .gpr x) :
      Computes ρ (.cttz a) (.gpr (BitVec.ofNat 64 (trailingZeros x)))
  | other {args} (r : Val) : Computes ρ (.other args) r

/-- An instruction of type `ty` runs with result `r`. -/
def Runs (ρ : ValueId → Val) (kind : InstKind) (ty : SsaType) (r : Val) : Prop :=
  Computes ρ kind r ∧ ty.Holds r

/-! ### What a fact claims -/

/-- The integers a fact allows: a sentinel bound leaves its side open. -/
def NumFact.Contains (f : NumFact) (n : ℤ) : Prop :=
  (f.lo ≤ NEG_INF ∨ f.lo ≤ n) ∧ (POS_INF ≤ f.hi ∨ n ≤ f.hi)

/-- The run-time values an abstract value allows: `bottom` none, `top` all, a fact the
integer-valued ones inside its bounds. -/
def AbsVal.Contains : AbsVal → Val → Prop
  | .bottom, _ => False
  | .fact f, r => ∃ n, r.toInt? = some n ∧ f.Contains n
  | .top, _ => True

/-- The operand environment contains the run-time values of the operands. -/
def EnvContains (ρ : ValueId → Val) (env : Operand → AbsVal) (kind : InstKind) : Prop :=
  ∀ o ∈ kind.operands, (env o).Contains (o.eval ρ)

/-- The evenness oracle answers only for operands with an even value. -/
def EvenSound (ρ : ValueId → Val) (isEven : Operand → Bool) (kind : InstKind) : Prop :=
  ∀ o ∈ kind.operands, isEven o = true → ∃ n, (o.eval ρ).toInt? = some n ∧ 2 ∣ n

/-! ### Basic facts -/

/-- A 64-bit register holds a machine integer. -/
lemma i64_bounds (x : BitVec 64) : I64_MIN ≤ x.toInt ∧ x.toInt ≤ I64_MAX := by
  have h₁ := BitVec.le_toInt x
  have h₂ := BitVec.toInt_lt (x := x)
  unfold I64_MIN I64_MAX
  norm_num at h₁ h₂ ⊢
  omega

/-- For a machine integer the sentinels are ordinary bounds. -/
lemma contains_gpr_iff (f : NumFact) (x : BitVec 64) :
    (AbsVal.fact f).Contains (.gpr x) ↔ f.lo ≤ x.toInt ∧ x.toInt ≤ f.hi := by
  have hx := i64_bounds x
  unfold I64_MIN I64_MAX at hx
  simp only [AbsVal.Contains, Val.toInt?, Option.some.injEq, exists_eq_left', NumFact.Contains,
    NEG_INF, POS_INF]
  omega

/-- For a machine integer clamping the bounds changes nothing. -/
lemma contains_clampFact_iff (f : NumFact) (x : BitVec 64) :
    (AbsVal.fact (clampFact f)).Contains (.gpr x) ↔ f.lo ≤ x.toInt ∧ x.toInt ≤ f.hi := by
  obtain ⟨h₁, h₂⟩ := i64_bounds x
  rw [contains_gpr_iff]
  exact and_congr (clamp_le_iff h₁ h₂) (le_clamp_iff h₁ h₂)

/-- A result of the full machine range is always allowed. -/
lemma contains_fullI64 (x : BitVec 64) : (AbsVal.fact .fullI64).Contains (.gpr x) :=
  (contains_gpr_iff _ x).mpr (i64_bounds x)

/-- An opaque result is right for every value of its type. -/
lemma contains_opaqueResult {ty : SsaType} {r : Val} (h : ty.Holds r) :
    (opaqueResult ty).Contains r := by
  cases ty with
  | i64 =>
    cases r with
    | gpr x => exact contains_fullI64 x
    | fpr d => exact h.elim
    | lanes x => exact h.elim
  | _ => exact trivial

/-- A constant operand has the value the analysis reads off it. -/
lemma toInt?_eval_of_opConstInt {ρ : ValueId → Val} {o : Operand} {d : ℤ}
    (h : opConstInt o = some d) : (o.eval ρ).toInt? = some d := by
  match o, h with
  | .constI64 c, h => exact h
  | .constI32 c, h =>
    have : (c.signExtend 64).toInt = c.toInt := BitVec.toInt_signExtend_of_le (by norm_num)
    exact (congrArg some this).trans h
  | .constF64 (.int n), h =>
    simp only [opConstInt] at h
    split at h
    · exact h
    · cases h

end Torajs
