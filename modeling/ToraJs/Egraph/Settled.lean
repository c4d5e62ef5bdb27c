import ToraJs.Egraph.Canonical

/-!
# What the first phase says of a value

The rewrite rules keep the value of an instruction, and the width of a store where 32-bit
arithmetic is what the lowering makes.  What the e-graph then says of a value it has seen:
the canonical value is there where the value is and holds the same, a literal is what the
value is, and a rewritten instruction computes what the instruction did.

Such facts stay when one more value is seen, because what a value is computed from was
seen before it.
-/

namespace Torajs.Egraph

/-! ### What the rules keep -/

/-- The pure kinds but the encodings. -/
def InstKind.isArith : InstKind → Bool
  | .binOp _ _ _ | .iCmp _ _ _ | .fCmp _ _ _ => true
  | .unary op _ => op.isPure
  | .addr _ | .copy _ _ | .select _ _ _ _ | .alloca _ | .allocaBytes _ | .load _ _ _
  | .store _ _ _ | .other _ _ => false

section Rules

variable {kind kind' : InstKind}

lemma InstKind.isPure_of_isArith (h : kind.isArith = true) : kind.isPure = true := by
  cases kind <;> first | exact h | rfl | cases h

lemma InstKind.isKeyed_of_isArith (h : kind.isArith = true) : kind.isKeyed = true := by
  cases kind <;> first | exact h | rfl | cases h

lemma InstKind.isLate_of_isArith (h : kind.isArith = true) : kind.isLate = false := by
  cases kind <;> first | rfl | cases h

/-- A pure kind of the first phase is arithmetic or an encoding, whose operands are not looked
at. -/
lemma InstKind.isArith_or_canonical (h : kind.isPure = true) (hlate : kind.isLate = false) :
    kind.isArith = true ∨ (∃ k args, kind = .other k args) ∧
      ∀ canon, kind.canonical canon = kind := by
  cases kind with
  | binOp op a b | iCmp op a b | fCmp op a b => exact Or.inl rfl
  | unary op a => exact Or.inl h
  | select ty c t e => cases hlate
  | other k args =>
    refine Or.inr ⟨⟨k, args, rfl⟩, fun canon => ?_⟩
    cases k <;> first | rfl | cases h
  | addr a | copy ty a | alloca ty | allocaBytes n | load ty p off | store x p off => cases h

/-- The rules lead from arithmetic to arithmetic. -/
lemma isArith_of_applyRewrites (h : applyRewrites builtinRules kind = some kind') :
    kind.isArith = true ∧ kind'.isArith = true := by
  refine applyRewrites_induct (P := fun kind kind' => kind.isArith = true ∧ kind'.isArith = true)
    (fun _ _ _ _ _ => ⟨rfl, rfl⟩) (fun _ _ _ _ _ _ => ⟨rfl, rfl⟩) (fun _ _ _ _ _ _ => ⟨rfl, rfl⟩)
    (fun _ => ⟨rfl, rfl⟩) (fun _ _ _ _ _ => ⟨rfl, rfl⟩) ?_ h
  intro rule hrule kind kind' h
  simp only [List.mem_cons, List.not_mem_nil, or_false] at hrule
  rcases hrule with rfl | rfl | rfl | rfl | rfl
  · rcases binOpConstFold_eq_some h with ⟨_, _, _, _, _, rfl, rfl⟩ | ⟨_, _, _, _, _, rfl, rfl⟩ <;>
      exact ⟨rfl, rfl⟩
  · rcases cmpConstFold_eq_some h with ⟨_, _, _, rfl, rfl⟩ | ⟨_, _, _, rfl, rfl⟩ <;>
      exact ⟨rfl, rfl⟩
  · rcases siToFpConstFold_eq_some h with ⟨_, rfl, rfl⟩ | ⟨_, rfl, rfl⟩ <;> exact ⟨rfl, rfl⟩
  · obtain ⟨_, _, _, rfl, rfl⟩ := mulPow2ToShl_eq_some h
    exact ⟨rfl, rfl⟩
  · obtain ⟨_, _, _, rfl | rfl, rfl⟩ := fMulTwoToAdd_eq_some h <;> exact ⟨rfl, rfl⟩

/-- What the rules make of an instruction. -/
def InstKind.rewrite (kind : InstKind) : InstKind := applyRewritesRecursive builtinRules kind

lemma rewrite_eq_or_isArith (kind : InstKind) :
    kind.rewrite = kind ∨ kind.isArith = true ∧ kind.rewrite.isArith = true := by
  refine applyRewritesRecursive_induct
    (P := fun kind kind' => kind' = kind ∨ kind.isArith = true ∧ kind'.isArith = true)
    (fun _ => Or.inl rfl) ?_ kind
  intro kind next kind' hnext ih
  obtain ⟨hkind, hnext⟩ := isArith_of_applyRewrites hnext
  refine Or.inr ⟨hkind, ?_⟩
  rcases ih with rfl | ⟨_, hkind'⟩
  · exact hnext
  · exact hkind'

/-- A chain of rules ends in a copy only from a copy, from an operation of two operands, or of a
wide constant. -/
lemma identity_of_rewrite {a : Operand} (h : kind.rewrite = .unary .identity a) :
    kind = .unary .identity a ∨ (∃ op x y, kind = .binOp op x y) ∨ a.isWide = true ∧
      ((∃ p x y, kind = .iCmp p x y) ∨ (∃ p x y, kind = .fCmp p x y) ∨
        ∃ x, kind = .unary .siToFp x) := by
  refine applyRewritesRecursive_induct (P := fun kind kind' => kind' = .unary .identity a →
    kind = .unary .identity a ∨ (∃ op x y, kind = .binOp op x y) ∨ a.isWide = true ∧
      ((∃ p x y, kind = .iCmp p x y) ∨ (∃ p x y, kind = .fCmp p x y) ∨
        ∃ x, kind = .unary .siToFp x)) (fun _ h => Or.inl h) ?_ kind h
  intro kind next kind' hnext ih hkind'
  rcases binOp_or_wide_of_applyRewrites hnext with hbin | ⟨x, hx, rfl, hkind⟩
  · exact Or.inr (Or.inl hbin)
  · rcases ih hkind' with heq | ⟨_, _, _, heq⟩ | ⟨ha, _⟩
    · obtain ⟨_, rfl⟩ := InstKind.unary.inj heq
      exact Or.inr (Or.inr ⟨hx, hkind⟩)
    · cases heq
    · exact Or.inr (Or.inr ⟨ha, hkind⟩)

/-- The rules read no other values. -/
lemma visitValueOperands_rewrite :
    ∀ v ∈ visitValueOperands kind.rewrite, v ∈ visitValueOperands kind := by
  intro v hv
  obtain ⟨a, ha, hav⟩ := List.mem_filterMap.mp hv
  rcases mem_operands_of_recursive a ha with hmem | hwide
  · exact mem_visitValueOperands hmem hav
  · cases a with
    | value w | constI32 c => cases hwide
    | constI64 c | constF64 c | constBool b | constPtrNull => cases hav

variable {V World : Type} {I : Interp V World} {enc : OtherKind → List V → V}

/-- **The rules keep the value.** -/
lemma value_rewrite (hI : I.Lawful enc) (kind : InstKind) (ρ : ValueId → V) :
    kind.rewrite.value I enc ρ = kind.value I enc ρ := by
  refine applyRewritesRecursive_induct
    (P := fun kind kind' => kind'.value I enc ρ = kind.value I enc ρ) (fun _ => rfl) ?_ kind
  intro kind next kind' hnext ih
  have hvalue : ∀ {kind : InstKind}, kind.isArith = true →
      kind.value I enc ρ = kind.pureValue I ρ := by
    intro kind hkind
    cases kind <;> first | rfl | cases hkind
  obtain ⟨hkind, hnextArith⟩ := isArith_of_applyRewrites hnext
  rw [ih, hvalue hkind, hvalue hnextArith, hI.rewrite hnext]

end Rules

/-! ### Widths -/

/-- **No rule can change the width of a store**: 32-bit arithmetic has a 32-bit constant on its
right, which no rule matches, and a copy is as wide as what it copies. -/
def Inst.fixedWidth (values : List SsaType) (inst : Inst) : Bool :=
  match inst.kind with
  | .binOp op a b =>
    (InstKind.binOp op a b).isNarrowOp ||
      inst.result.all (fun r => !isI32 values (.value r)) && !isI32 values a && !isI32 values b
  | .iCmp _ _ _ | .fCmp _ _ _ | .unary .siToFp _ =>
    inst.result.all fun r => !isI32 values (.value r)
  | .unary .identity a => inst.result.all fun r => isI32 values a = isI32 values (.value r)
  | _ => true

lemma isI32_of_isWide {values : List SsaType} {a : Operand} (h : a.isWide = true) :
    isI32 values a = false := by
  cases a <;> first | rfl | cases h

lemma isI32_canonical {values : List SsaType} {canon : ValueId → ValueId} {a : Operand}
    (h : ∀ v, a.value? = some v →
      isI32 values (.value (canon v)) = isI32 values (.value v)) :
    isI32 values (a.canonical canon) = isI32 values a := by
  cases a with
  | value v => exact h v rfl
  | _ => rfl

/-- **What an instruction is copied from is as wide as its result.** -/
lemma isI32_of_rewrite {values : List SsaType} {canon : ValueId → ValueId} {inst : Inst}
    {r : ValueId} {a : Operand} (hres : inst.result = some r)
    (hfixed : inst.fixedWidth values = true)
    (hcanon : ∀ v ∈ visitValueOperands inst.kind,
      isI32 values (.value (canon v)) = isI32 values (.value v))
    (h : (inst.kind.canonical canon).rewrite = .unary .identity a) :
    isI32 values a = isI32 values (.value r) := by
  have hoperand : ∀ x ∈ inst.kind.operands, isI32 values (x.canonical canon) = isI32 values x :=
    fun x hx => isI32_canonical fun v hv => hcanon v (mem_visitValueOperands hx hv)
  have hin : a ∈ (inst.kind.canonical canon).rewrite.operands := by
    rw [h]
    exact List.mem_singleton_self a
  have hmem := mem_operands_of_recursive a hin
  have hcases := identity_of_rewrite h
  rw [Inst.fixedWidth, hres] at hfixed
  cases hkind : inst.kind with
  | binOp op x y =>
    rw [hkind] at hfixed hoperand hmem h
    rw [Bool.or_eq_true, Bool.and_eq_true, Bool.and_eq_true] at hfixed
    rcases hfixed with hnarrow | ⟨⟨hr, hx⟩, hy⟩
    · -- no rule matches
      have hnone : applyRewrites builtinRules ((InstKind.binOp op x y).canonical canon) = none := by
        apply applyRewrites_of_isNarrowOp
        cases x <;> cases y <;> first | rfl | cases hnarrow
      rw [InstKind.rewrite, applyRewritesRecursive, Rewrite.rewriteLimit, applyRewritesLoop,
        hnone] at h
      cases h
    · rw [Option.all_some, Bool.not_eq_true'] at hr
      rw [Bool.not_eq_true'] at hx hy
      rw [hr]
      rcases hmem with hmem | hwide
      · rcases List.mem_cons.mp hmem with rfl | hmem
        · exact (hoperand x List.mem_cons_self).trans hx
        · obtain rfl := List.mem_singleton.mp hmem
          exact (hoperand y (List.mem_cons_of_mem _ List.mem_cons_self)).trans hy
      · exact isI32_of_isWide hwide
  | iCmp p x y | fCmp p x y =>
    rw [hkind] at hfixed hcases
    rcases hcases with heq | ⟨_, _, _, heq⟩ | ⟨hwide, _⟩
    · cases heq
    · cases heq
    · rw [isI32_of_isWide hwide]
      simpa using hfixed
  | unary op x =>
    rw [hkind] at hfixed hoperand hcases
    have hx := hoperand x List.mem_cons_self
    have hcanonical : (InstKind.unary op x).canonical canon = .unary op (x.canonical canon) ∨
        op.isPure = false ∧ (InstKind.unary op x).canonical canon = .unary op x := by
      rw [InstKind.canonical]
      split
      · exact Or.inl rfl
      · next hop => exact Or.inr ⟨Bool.eq_false_iff.mpr hop, rfl⟩
    rcases hcanonical with heq | ⟨hop, heq⟩
    · rw [heq] at hcases
      rcases hcases with
        heq' | ⟨_, _, _, heq'⟩ | ⟨hwide, ⟨_, _, _, heq'⟩ | ⟨_, _, _, heq'⟩ | ⟨_, heq'⟩⟩
      · obtain ⟨rfl, rfl⟩ := InstKind.unary.inj heq'
        exact hx.trans (by simpa using hfixed)
      · cases heq'
      · cases heq'
      · cases heq'
      · obtain ⟨rfl, _⟩ := InstKind.unary.inj heq'
        rw [isI32_of_isWide hwide]
        simpa using hfixed
    · rw [heq] at hcases
      rcases hcases with heq' | ⟨_, _, _, heq'⟩ | ⟨_, ⟨_, _, _, heq'⟩ | ⟨_, _, _, heq'⟩ | ⟨_, heq'⟩⟩
      · obtain ⟨rfl, _⟩ := InstKind.unary.inj heq'
        cases hop
      · cases heq'
      · cases heq'
      · cases heq'
      · obtain ⟨rfl, _⟩ := InstKind.unary.inj heq'
        cases hop
  | addr x | copy ty x | select ty c t x | alloca ty | allocaBytes n | load ty ptr off
  | store val ptr off | other k args =>
    rw [hkind, InstKind.canonical] at hcases
    rcases hcases with heq | ⟨_, _, _, heq⟩ | ⟨_, ⟨_, _, _, heq⟩ | ⟨_, _, _, heq⟩ | ⟨_, heq⟩⟩ <;>
      split at heq <;> cases heq

/-! ### What is recorded of a value -/

/-- What the passes of this module are given: a well-formed function in single assignment,
before the kinds of later passes. -/
structure Func.Lowered (f : Func) : Prop where
  wellFormed : f.WellFormed
  ssa : f.Ssa
  early : ∀ b inst, f.HasInst b inst → inst.kind.isLate = false
  fixedWidth : ∀ b inst, f.HasInst b inst → inst.fixedWidth f.values = true

/-- The kind an instruction is written with. -/
def Graph.baseKind (e : Graph) (inst : Inst) : InstKind :=
  (inst.result.bind e.rewrittenKind).getD inst.kind

variable {V World : Type}

/-- **What the e-graph says of the value `r`**, which the instruction at a point defines. -/
structure Known (f : Func) (I : Interp V World) (enc : OtherKind → List V → V) (e : Graph)
    (canon : ValueId → ValueId) (d j : ℕ) (inst : Inst) (r : ValueId) : Prop where
  /-- The canonical value is there, and holds the same behind the instruction. -/
  avail : canon r = r ∨ f.Avail (canon r) d j
  pure : canon r ≠ r → inst.kind.isPure = true
  eq : ∀ ρ, f.Sat I enc ρ d (j + 1) → ρ r = ρ (canon r)
  width : isI32 f.values (.value (canon r)) = isI32 f.values (.value r)
  /-- A copy is an alias or a literal. -/
  copied : ∀ a, inst.kind = .unary .identity a →
    (∃ v, a = .value v ∧ canon r = canon v ∧ canon r ≠ r) ∨ e.valueToConst r = some a
  const : ∀ op, e.valueToConst r = some op → inst.kind.isPure = true ∧ canon r = r ∧
    op.value? = none ∧ isI32 f.values op = isI32 f.values (.value r) ∧
    ∀ ρ, f.Sat I enc ρ d (j + 1) → ρ r = op.eval I ρ
  rewritten : ∀ kind, e.rewrittenKind r = some kind → inst.kind.isArith = true ∧
    kind.isArith = true ∧ (∀ a, kind ≠ .unary .identity a) ∧
    (∀ v ∈ visitValueOperands kind, f.Avail v d j) ∧
    ∀ ρ, f.Sat I enc ρ d j → kind.value I enc ρ = inst.kind.value I enc ρ

/-- What the walk leaves of a value; `key` is what the value was looked up as. -/
structure Settled (f : Func) (I : Interp V World) (enc : OtherKind → List V → V) (e : Graph)
    (canon : ValueId → ValueId) (key : ValueId → InstKind) (d j : ℕ) (inst : Inst) (r : ValueId) :
    Prop extends Known f I enc e canon d j inst r where
  /-- The values its class was looked up with are among the instruction's. -/
  inputs : inst.kind.isArith = true →
    (∃ v ∈ visitValueOperands inst.kind, canon v = canon r) ∨ (key (canon r)).isArith = true ∧
      ∀ w ∈ visitValueOperands (key (canon r)), ∃ v ∈ visitValueOperands inst.kind, canon v = w
  base : inst.kind.isPure = true → canon r = r → (key r).isArith = true →
    ∀ v ∈ visitValueOperands (e.baseKind inst), canon v ∈ visitValueOperands (key r)
  available : ∀ t, e.availableBlock r = some t → t = d ∧ canon r = r ∧
    e.valueToConst r = none ∧ inst.kind.isPure = true

/-- The walk has seen the points `reg`, which are closed upwards. -/
structure Walked (f : Func) (I : Interp V World) (enc : OtherKind → List V → V)
    (reg : ℕ → ℕ → Prop) (e : Graph) (canon : ValueId → ValueId) (key : ValueId → InstKind) :
    Prop where
  len : e.len = f.values.length
  flat : e.Flat canon
  reached : ∀ d j inst, f.InstAt d j inst → reg d j → f.Reached d
  closed : ∀ d j inst c k inst', f.InstAt d j inst → f.InstAt c k inst' → reg c k →
    f.Precedes d (j + 1) c k → reg d j
  untouched : ∀ v < e.len, (∀ d j, f.DefAt v d j → ¬ reg d j) → canon v = v ∧
    e.valueToConst v = none ∧ e.rewrittenKind v = none ∧ e.availableBlock v = none
  settled : ∀ d j inst r, f.InstAt d j inst → inst.result = some r → reg d j →
    Settled f I enc e canon key d j inst r

section Step

variable {f : Func} {I : Interp V World} {enc : OtherKind → List V → V} {reg : ℕ → ℕ → Prop}
  {e : Graph} {canon : ValueId → ValueId} {key : ValueId → InstKind}

lemma Func.InstAt.hasInst {b k : ℕ} {inst : Inst} (h : f.InstAt b k inst) : f.HasInst b inst := by
  obtain ⟨blk, hblk, hinst⟩ := h
  exact ⟨blk, hblk, List.mem_of_getElem? hinst⟩

/-- What an instruction reads is there. -/
lemma Func.Lowered.avail (hf : f.Lowered) {b k : ℕ} {inst : Inst} (hb : f.Reached b)
    (hinst : f.InstAt b k inst) {v : ValueId} (hv : v ∈ visitValueOperands inst.kind) :
    f.Avail v b k := by
  obtain ⟨blk, hblk, hk⟩ := hinst
  refine hf.wellFormed.avail_of_read hf.ssa hb hblk (List.getElem?_eq_some_iff.mp hk).1.le ?_
  rwa [Block.readsAt_inst hk]

/-- What is there has an entry in the value table. -/
lemma Func.Avail.lt (hf : f.Lowered) {v b k : ℕ} (h : f.Avail v b k) : v < f.values.length := by
  rcases h with hparam | ⟨d, j, ⟨inst, hinst, hres⟩, _⟩
  · exact hf.wellFormed.param_lt v hparam
  · exact hf.wellFormed.result_lt d inst hinst.hasInst v hres

/-- **A value that is there at a point, and its canonical value.** -/
structure Resolved (f : Func) (I : Interp V World) (enc : OtherKind → List V → V)
    (canon : ValueId → ValueId) (v : ValueId) (b k : ℕ) : Prop where
  avail : f.Avail (canon v) b k
  idem : canon (canon v) = canon v
  width : isI32 f.values (.value (canon v)) = isI32 f.values (.value v)
  eq : ∀ ρ, f.Sat I enc ρ b k → ρ v = ρ (canon v)

/-- The points ahead of one are seen. -/
def Ahead (f : Func) (reg : ℕ → ℕ → Prop) (b k : ℕ) : Prop :=
  ∀ d j inst, f.InstAt d j inst → f.Precedes d (j + 1) b k → reg d j

lemma Walked.resolved (hf : f.Lowered) (h : Walked f I enc reg e canon key) {v b k : ℕ}
    (hb : f.Reached b) (hahead : Ahead f reg b k) (hv : f.Avail v b k) :
    Resolved f I enc canon v b k := by
  have hlt : v < e.len := h.len ▸ hv.lt hf
  rcases hv with hparam | ⟨d, j, ⟨inst, hinst, hres⟩, hd⟩
  · have hself : canon v = v :=
      (h.untouched v hlt fun d j hdef => absurd hdef (hf.ssa.param hparam)).1
    refine ⟨?_, ?_, ?_, fun ρ _ => ?_⟩
    · rw [hself]
      exact Or.inl hparam
    · rw [hself, hself]
    · rw [hself]
    · rw [hself]
  · have hs := h.settled d j inst v hinst hres (hahead d j inst hinst hd)
    refine ⟨?_, h.flat.idem hlt, hs.width, fun ρ hρ => hs.eq ρ (hρ.mono hd hb)⟩
    rcases hs.avail with hself | havail
    · rw [hself]
      exact Or.inr ⟨d, j, ⟨inst, hinst, hres⟩, hd⟩
    · exact havail.mono ((Func.Precedes.within (Nat.le_succ j)).trans hd hb) hb

/-- A value seen or a parameter is not the one to be seen next. -/
lemma Walked.ne_of_avail (h : Walked f I enc reg e canon key) (hf : f.Lowered) {v r d j b k : ℕ}
    {inst inst' : Inst} (hinst : f.InstAt d j inst) (hreg : reg d j) (hv : f.Avail v d j)
    (hinst' : f.InstAt b k inst') (hres : inst'.result = some r) (hnew : ¬ reg b k) : v ≠ r := by
  rintro rfl
  rcases hv with hparam | ⟨c, i, ⟨inst₁, hinst₁, hres₁⟩, hc⟩
  · exact hf.ssa.param hparam ⟨inst', hinst', hres⟩
  · obtain ⟨rfl, rfl⟩ := hf.ssa.unique ⟨inst₁, hinst₁, hres₁⟩ ⟨inst', hinst', hres⟩
    exact hnew (h.closed c i inst₁ d j inst hinst₁ hinst hreg hc)

/-- No other value stands for a value that is to be seen. -/
lemma Walked.alone (h : Walked f I enc reg e canon key) (hf : f.Lowered) {r b k : ℕ} {inst : Inst}
    (hinst : f.InstAt b k inst) (hres : inst.result = some r) (hnew : ¬ reg b k) :
    ∀ w < e.len, canon w = r → w = r := by
  intro w hw hwr
  by_cases hreg : ∃ d j inst', f.InstAt d j inst' ∧ inst'.result = some w ∧ reg d j
  · obtain ⟨d, j, inst', hinst', hres', hreg⟩ := hreg
    rcases (h.settled d j inst' w hinst' hres' hreg).avail with hself | havail
    · rw [← hself, hwr]
    · exact absurd hwr (h.ne_of_avail hf hinst' hreg havail hinst hres hnew)
  · have hself := (h.untouched w hw fun d j ⟨inst', hinst', hres'⟩ hreg' =>
      hreg ⟨d, j, inst', hinst', hres', hreg'⟩).1
    rw [← hself, hwr]

/-- A value that is to be seen. -/
lemma Walked.unseen (h : Walked f I enc reg e canon key) (hf : f.Lowered) {r b k : ℕ} {inst : Inst}
    (hinst : f.InstAt b k inst) (hres : inst.result = some r) (hnew : ¬ reg b k) :
    r < e.len ∧ canon r = r ∧ e.valueToConst r = none ∧ e.rewrittenKind r = none ∧
      e.availableBlock r = none := by
  have hlt : r < e.len := h.len ▸ hf.wellFormed.result_lt b inst hinst.hasInst r hres
  refine ⟨hlt, h.untouched r hlt fun d j hdef hreg => hnew ?_⟩
  obtain ⟨rfl, rfl⟩ := hf.ssa.unique hdef ⟨inst, hinst, hres⟩
  exact hreg

/-- **One more point**: everything stays as it was but at the result. -/
lemma Walked.extend (h : Walked f I enc reg e canon key) (hf : f.Lowered) {b k : ℕ} {inst : Inst}
    {r : ValueId} {reg' : ℕ → ℕ → Prop} {e' : Graph} {canon' : ValueId → ValueId}
    {key' : ValueId → InstKind} (hb : f.Reached b) (hinst : f.InstAt b k inst)
    (hres : inst.result = some r) (hnew : ¬ reg b k) (hahead : Ahead f reg b k)
    (hreg' : ∀ d j, reg' d j ↔ reg d j ∨ d = b ∧ j = k) (hlen : e'.len = e.len)
    (hflat : e'.Flat canon')
    (hsame : ∀ v, v ≠ r → canon' v = canon v ∧ key' v = key v ∧
      e'.valueToConst v = e.valueToConst v ∧ e'.rewrittenKind v = e.rewrittenKind v ∧
      e'.availableBlock v = e.availableBlock v)
    (hsettled : Settled f I enc e' canon' key' b k inst r) :
    Walked f I enc reg' e' canon' key' where
  len := hlen.trans h.len
  flat := hflat
  reached d j inst' hinst' hreg := by
    rcases (hreg' d j).mp hreg with hreg | ⟨rfl, _⟩
    · exact h.reached d j inst' hinst' hreg
    · exact hb
  closed d j inst₁ c i inst₂ hinst₁ hinst₂ hreg hd := by
    rw [hreg']
    rcases (hreg' c i).mp hreg with hreg | ⟨rfl, rfl⟩
    · exact Or.inl (h.closed d j inst₁ c i inst₂ hinst₁ hinst₂ hreg hd)
    · exact Or.inl (hahead d j inst₁ hinst₁ hd)
  untouched v hv hunseen := by
    have hne : v ≠ r := by
      rintro rfl
      exact hunseen b k ⟨inst, hinst, hres⟩ ((hreg' b k).mpr (Or.inr ⟨rfl, rfl⟩))
    obtain ⟨hc, _, hconst, hrew, havail⟩ := hsame v hne
    rw [hc, hconst, hrew, havail]
    exact h.untouched v (hlen ▸ hv) fun d j hdef hreg =>
      hunseen d j hdef ((hreg' d j).mpr (Or.inl hreg))
  settled d j inst' w hinst' hres' hreg := by
    by_cases hpoint : d = b ∧ j = k
    · obtain ⟨rfl, rfl⟩ := hpoint
      obtain rfl := hinst.unique hinst'
      obtain rfl : r = w := Option.some.inj (hres.symm.trans hres')
      exact hsettled
    · have hreg := ((hreg' d j).mp hreg).resolve_right hpoint
      have hs := h.settled d j inst' w hinst' hres' hreg
      have hd := h.reached d j inst' hinst' hreg
      -- what the point sees is not the new value
      have hold : ∀ v, f.Avail v d j → v ≠ r := fun v hv =>
        h.ne_of_avail hf hinst' hreg hv hinst hres hnew
      have hwr : w ≠ r := by
        rintro rfl
        obtain ⟨rfl, rfl⟩ := hf.ssa.unique ⟨inst', hinst', hres'⟩ ⟨inst, hinst, hres⟩
        exact hnew hreg
      obtain ⟨hc, hk, hconst, hrew, havail⟩ := hsame w hwr
      have hcanonw : canon w ≠ r := by
        rcases hs.avail with hself | hav
        · rwa [hself]
        · exact hold _ hav
      have hoperand : ∀ v ∈ visitValueOperands inst'.kind, canon' v = canon v := fun v hv =>
        (hsame v (hold v (hf.avail hd hinst' hv))).1
      have hbase : e'.baseKind inst' = e.baseKind inst' := by
        rw [Graph.baseKind, Graph.baseKind, hres', Option.bind_some, Option.bind_some, hrew]
      refine ⟨⟨?_, ?_, ?_, ?_, ?_, ?_, ?_⟩, ?_, ?_, ?_⟩
      · rw [hc]
        exact hs.avail
      · rw [hc]
        exact hs.pure
      · rw [hc]
        exact hs.eq
      · rw [hc]
        exact hs.width
      · intro a ha
        rw [hc, hconst]
        refine (hs.copied a ha).imp_left fun ⟨v, hav, hcv, hne⟩ => ⟨v, hav, ?_, hne⟩
        rw [hoperand v (by rw [ha, hav]; exact List.mem_singleton_self v), hcv]
      · rw [hc, hconst]
        exact hs.const
      · rw [hrew]
        exact hs.rewritten
      · intro harith
        rw [hc, (hsame _ hcanonw).2.1]
        rcases hs.inputs harith with ⟨v, hv, hcv⟩ | ⟨hkarith, hinputs⟩
        · exact Or.inl ⟨v, hv, by rw [hoperand v hv, hcv]⟩
        · refine Or.inr ⟨hkarith, fun u hu => ?_⟩
          obtain ⟨v, hv, hcv⟩ := hinputs u hu
          exact ⟨v, hv, by rw [hoperand v hv, hcv]⟩
      · intro hpure hself hkarith v hv
        rw [hc] at hself
        rw [hk] at hkarith
        rw [hbase] at hv
        have hvd : f.Avail v d j := by
          rw [Graph.baseKind, hres', Option.bind_some] at hv
          cases hkind : e.rewrittenKind w with
          | none =>
            rw [hkind] at hv
            exact hf.avail hd hinst' hv
          | some kind =>
            rw [hkind] at hv
            exact (hs.rewritten kind hkind).2.2.2.1 v hv
        rw [(hsame v (hold v hvd)).1, hk]
        exact hs.base hpure hself hkarith v hv
      · rw [hc, hconst, havail]
        exact hs.available

end Step

end Torajs.Egraph
