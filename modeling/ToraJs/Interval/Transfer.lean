import ToraJs.Ssa

/-!
# Interval transfer functions

`egraph::interval::transfer`: one `evalInst` per instruction, mapping the facts of
the operands to a fact of the result.  Bounds are kept in a type wide enough for
every intermediate value, with two sentinels far outside the machine range standing
for an open end.
-/

namespace Torajs

/-- Lower sentinel. -/
def NEG_INF : ℤ := -2 ^ 70

/-- Upper sentinel. -/
def POS_INF : ℤ := 2 ^ 70

/-- `i64::MIN`. -/
def I64_MIN : ℤ := -2 ^ 63

/-- `i64::MAX`. -/
def I64_MAX : ℤ := 2 ^ 63 - 1

/-- Integers of smaller magnitude are exact in a double, and so are their sums. -/
def F64_EXACT : ℤ := 2 ^ 53

/-- An integer-valued fact: the value is an integer in `[lo, hi]`, a sentinel bound
leaving its side open. -/
structure NumFact where
  lo : ℤ
  hi : ℤ
  deriving DecidableEq, Repr

namespace NumFact

/-- `NumFact::point`. -/
def point (v : ℤ) : NumFact := ⟨v, v⟩

/-- `NumFact::full_i64`. -/
def fullI64 : NumFact := ⟨I64_MIN, I64_MAX⟩

end NumFact

/-- The three-point lattice around `NumFact`. -/
inductive AbsVal where
  | bottom
  | fact (f : NumFact)
  | top
  deriving DecidableEq, Repr

/-! ### Arithmetic on bounds -/

/-- A bound outside the machine range becomes the sentinel of its side. -/
def clamp (v : ℤ) : ℤ :=
  if v < I64_MIN then NEG_INF else if v > I64_MAX then POS_INF else v

/-- `clamp` on both ends. -/
def clampFact (f : NumFact) : NumFact := ⟨clamp f.lo, clamp f.hi⟩

/-- The widening of a double's bounds: a lower end at or below `-2^53` and an upper
end at or above `2^53` open up. -/
def clamp53 (f : NumFact) : NumFact where
  lo := if f.lo ≤ -F64_EXACT then NEG_INF else f.lo
  hi := if f.hi ≥ F64_EXACT then POS_INF else f.hi

/-- `add_iv`. -/
def addIv (a b : NumFact) : NumFact := clampFact ⟨a.lo + b.lo, a.hi + b.hi⟩

/-- `sub_iv`. -/
def subIv (a b : NumFact) : NumFact := clampFact ⟨a.lo - b.hi, a.hi - b.lo⟩

/-- `i128::checked_mul`. -/
def checkedMul (a b : ℤ) : Option ℤ :=
  if -2 ^ 127 ≤ a * b ∧ a * b < 2 ^ 127 then some (a * b) else none

/-- `mul_corner`. -/
def mulCorner (a b : ℤ) : ℤ :=
  match checkedMul a b with
  | some v => clamp v
  | none => if decide (a > 0) = decide (b > 0) then POS_INF else NEG_INF

/-- `mul_iv`: the least and the greatest of the four corner products. -/
def mulIv (a b : NumFact) : NumFact where
  lo := min (min (min (mulCorner a.lo b.lo) (mulCorner a.lo b.hi)) (mulCorner a.hi b.lo))
    (mulCorner a.hi b.hi)
  hi := max (max (max (mulCorner a.lo b.lo) (mulCorner a.lo b.hi)) (mulCorner a.hi b.lo))
    (mulCorner a.hi b.hi)

/-- `div_iv`: truncating division by a nonzero constant. -/
def divIv (a : NumFact) (d : ℤ) : NumFact :=
  clampFact ⟨min (a.lo.tdiv d) (a.hi.tdiv d), max (a.lo.tdiv d) (a.hi.tdiv d)⟩

/-- `rem_iv`: the truncated remainder by a constant. -/
def remIv (a : NumFact) (d : ℤ) : NumFact :=
  let m := (d.natAbs : ℤ) - 1
  ⟨if a.lo ≥ 0 then 0 else -m, if a.hi ≤ 0 then 0 else m⟩

/-- `shl_iv`: exact when neither shifted end leaves the machine range. -/
def shlIv (a : NumFact) (k : ℤ) : NumFact :=
  if ¬(0 ≤ k ∧ k < 64) then .fullI64
  else if k = 0 then a
  else if a.lo < I64_MIN >>> k.toNat ∨ a.hi > I64_MAX >>> k.toNat then .fullI64
  else mulIv a (.point (2 ^ k.toNat))

/-- `ashr_iv`. -/
def ashrIv (a : NumFact) (k : ℤ) : NumFact :=
  if ¬(0 ≤ k ∧ k < 64) then .fullI64
  else clampFact ⟨a.lo >>> k.toNat, a.hi >>> k.toNat⟩

/-- `op_const_int`: the integer value of a constant operand, when it has one. -/
def opConstInt : Operand → Option ℤ
  | .constI64 c => some c.toInt
  | .constI32 c => some c.toInt
  | .constF64 (.int n) => if n.val.natAbs < 2 ^ 63 then some n.val else none
  | _ => none

/-! ### One instruction -/

/-- The result of an opaque producer: an `i64` is a machine integer, anything else is
unknown. -/
def opaqueResult : SsaType → AbsVal
  | .i64 => .fact .fullI64
  | _ => .top

/-- A transfer of two facts. -/
def binary (ty : SsaType) (f : NumFact → NumFact → NumFact) : AbsVal → AbsVal → AbsVal
  | .bottom, _ => .bottom
  | _, .bottom => .bottom
  | .fact fa, .fact fb => .fact (f fa fb)
  | _, _ => opaqueResult ty

/-- The upper end of a fact that excludes the negative integers. -/
def nonnegHi : AbsVal → Option ℤ
  | .fact f => if f.lo ≥ 0 then some f.hi else none
  | _ => none

/-- A conjunction only clears bits: any non-negative operand bounds it. -/
def andBound : Option ℤ → Option ℤ → NumFact
  | some x, some y => ⟨0, min x y⟩
  | some x, none => ⟨0, x⟩
  | none, some x => ⟨0, x⟩
  | none, none => .fullI64

/-- `BinOp::And`. -/
def evalAnd : AbsVal → AbsVal → AbsVal
  | .bottom, _ => .bottom
  | _, .bottom => .bottom
  | av, bv => .fact (andBound (nonnegHi av) (nonnegHi bv))

/-- The all-ones number that covers `m`. -/
def orBound (m : ℤ) : ℤ := if m ≤ 0 then 0 else 2 ^ (m.toNat.log2 + 1) - 1

/-- `BinOp::Or` and `BinOp::Xor`. -/
def evalOrXor : AbsVal → AbsVal → AbsVal
  | .bottom, _ => .bottom
  | _, .bottom => .bottom
  | .fact fa, .fact fb =>
    if fa.lo ≥ 0 ∧ fb.lo ≥ 0 then .fact (clampFact ⟨0, orBound (max fa.hi fb.hi)⟩)
    else .fact .fullI64
  | _, _ => .fact .fullI64

/-- The arms that need a fact of the first operand and a constant second operand. -/
def withConst (a : AbsVal) (k : Option ℤ) (f : NumFact → ℤ → Option NumFact)
    (dflt : AbsVal) : AbsVal :=
  match a, k with
  | .bottom, _ => .bottom
  | .fact fa, some k => match f fa k with
    | some r => .fact r
    | none => dflt
  | _, _ => dflt

/-- `BinOp::FRem`: a constant divisor, or a bounded one that excludes zero under a
non-negative dividend. -/
def evalFRem (a b : AbsVal) (k : Option ℤ) : AbsVal :=
  match a, k with
  | .bottom, _ => .bottom
  | .fact fa, some d => if d ≠ 0 then .fact (remIv fa d) else .top
  | .fact fa, none =>
    if fa.lo ≥ 0 then
      match b with
      | .fact fb =>
        if (fb.lo ≥ 1 ∨ fb.hi ≤ -1) ∧ fb.lo > NEG_INF ∧ fb.hi < POS_INF then
          .fact ⟨0, (max fb.lo.natAbs fb.hi.natAbs : ℕ) - 1⟩
        else .top
      | _ => .top
    else .top
  | .top, _ => .top

/-- The `BinOp` arm of `eval_inst`. -/
def evalBinOp (op : BinOp) (ty : SsaType) (env : Operand → AbsVal) (isEven : Operand → Bool)
    (a b : Operand) : AbsVal :=
  match op with
  | .add => binary ty addIv (env a) (env b)
  | .sub => binary ty subIv (env a) (env b)
  | .mul => binary ty mulIv (env a) (env b)
  | .sDiv => withConst (env a) (opConstInt b)
      (fun fa d => if d ≠ 0 then some (divIv fa d) else none) (opaqueResult ty)
  | .sRem => withConst (env a) (opConstInt b)
      (fun fa d => if d ≠ 0 then some (remIv fa d) else none) (opaqueResult ty)
  | .and => evalAnd (env a) (env b)
  | .or => evalOrXor (env a) (env b)
  | .xor => evalOrXor (env a) (env b)
  | .shl => withConst (env a) (opConstInt b) (fun fa k => some (shlIv fa k)) (opaqueResult ty)
  | .aShr => withConst (env a) (opConstInt b) (fun fa k => some (ashrIv fa k)) (opaqueResult ty)
  | .lShr => withConst (env a) (opConstInt b)
      (fun fa k => if fa.lo ≥ 0 ∧ 0 ≤ k ∧ k < 64 then some (ashrIv fa k) else none)
      (opaqueResult ty)
  | .fAdd => binary ty (fun x y => clamp53 (addIv x y)) (env a) (env b)
  | .fSub => binary ty (fun x y => clamp53 (subIv x y)) (env a) (env b)
  | .fMul => binary ty (fun x y => clamp53 (mulIv x y)) (env a) (env b)
  | .fDiv => withConst (env a) (opConstInt b)
      (fun fa d => if d = 2 ∧ isEven a then some (divIv fa 2) else none) .top
  | .fRem => evalFRem (env a) (env b) (opConstInt b)

/-- `eval_inst`.  `env` gives the fact of an operand, constants included; `isEven` says
that an operand is provably even where the instruction stands. -/
def evalInst (kind : InstKind) (ty : SsaType) (env : Operand → AbsVal)
    (isEven : Operand → Bool) : AbsVal :=
  match kind with
  | .binOp op a b => evalBinOp op ty env isEven a b
  | .copy _ a => env a
  | .identity a => env a
  | .neg a =>
    match env a with
    | .bottom => .bottom
    | .fact f => if f.lo > I64_MIN then .fact (subIv (.point 0) f) else opaqueResult ty
    | .top => opaqueResult ty
  | .siToFp a =>
    match env a with
    | .fact f => .fact (clamp53 f)
    | x => x
  | .fpToSi a =>
    match env a with
    | .fact f => if f.lo > I64_MIN ∧ f.hi < I64_MAX then .fact f else opaqueResult ty
    | .bottom => .bottom
    | .top => opaqueResult ty
  | .fpToInt32 a =>
    match env a with
    | .bottom => .bottom
    | _ => .fact ⟨-2 ^ 31, 2 ^ 31 - 1⟩
  | .zExtBoolToI64 _ => .fact ⟨0, 1⟩
  | .zExtI32ToI64 _ => .fact ⟨0, 2 ^ 32 - 1⟩
  | .loadU8Dyn _ _ => .fact ⟨0, 2 ^ 8 - 1⟩
  | .loadU16Dyn _ _ => .fact ⟨0, 2 ^ 16 - 1⟩
  | .ctpop _ => .fact ⟨0, 64⟩
  | .cttz _ => .fact ⟨0, 64⟩
  | .other _ => opaqueResult ty

/-! ### Lemmas on clamped bounds -/

/-- The corner product is the clamped product, also where `i128` would overflow. -/
lemma mulCorner_eq (a b : ℤ) : mulCorner a b = clamp (a * b) := by
  unfold mulCorner checkedMul
  split
  · next v h =>
    split at h
    · rw [← Option.some.inj h]
    · cases h
  · next h =>
    split at h
    · cases h
    · next hbig =>
      rw [not_and_or, not_le, not_lt] at hbig
      unfold clamp I64_MIN I64_MAX
      rcases hbig with hneg | hpos
      · have hab : a * b < 0 := by omega
        rw [if_pos (show a * b < -2 ^ 63 by omega), if_neg]
        rcases mul_neg_iff.mp hab with ⟨ha, hb⟩ | ⟨ha, hb⟩
        · simp [ha, hb.le]
        · simp [hb, ha.le]
      · have hab : 0 < a * b := by omega
        rw [if_neg (show ¬ a * b < -2 ^ 63 by omega),
          if_pos (show a * b > 2 ^ 63 - 1 by omega), if_pos]
        rcases mul_pos_iff.mp hab with ⟨ha, hb⟩ | ⟨ha, hb⟩
        · simp [ha, hb]
        · simp [ha.not_gt, hb.not_gt]

/-- Clamping is monotone. -/
lemma clamp_mono {a b : ℤ} (h : a ≤ b) : clamp a ≤ clamp b := by
  unfold clamp I64_MIN I64_MAX NEG_INF POS_INF
  split_ifs <;> omega

/-- Below a machine integer, clamping a lower bound changes nothing. -/
lemma clamp_le_iff {l n : ℤ} (h₁ : I64_MIN ≤ n) (h₂ : n ≤ I64_MAX) : clamp l ≤ n ↔ l ≤ n := by
  unfold I64_MIN I64_MAX at *
  unfold clamp I64_MIN I64_MAX NEG_INF POS_INF
  split_ifs <;> omega

/-- Above a machine integer, clamping an upper bound changes nothing. -/
lemma le_clamp_iff {u n : ℤ} (h₁ : I64_MIN ≤ n) (h₂ : n ≤ I64_MAX) : n ≤ clamp u ↔ n ≤ u := by
  unfold I64_MIN I64_MAX at *
  unfold clamp I64_MIN I64_MAX NEG_INF POS_INF
  split_ifs <;> omega

end Torajs
