import ToraJs.Egraph.Classes
import ToraJs.Egraph.Loops
import ToraJs.Egraph.Rules
import ToraJs.Lib.TreeWalk

/-!
# The first phase: canonical operands and common values

`optimize.rs` and `optimize_licm.rs`.  A walk over the dominator tree reads every
instruction with canonical operands, applies the rewrite rules, and looks it up in a table
of the values of the open blocks: a value that is there already joins that class, a new
one enters the table.  A second pass goes over the loops and notes for invariant values the
block they may move to.

Nothing is changed but the e-graph.  The statistics are left out.
-/

namespace Torajs.Egraph

/-- A computation on the e-graph; nothing where it panics. -/
abbrev GraphM := StateT Graph Option

/-! ### Operands -/

/-- An instruction with other operands. -/
def InstKind.remap (h : Operand → Operand) : InstKind → InstKind
  | .binOp op a b => .binOp op (h a) (h b)
  | .iCmp p a b => .iCmp p (h a) (h b)
  | .fCmp p a b => .fCmp p (h a) (h b)
  | .unary op a => .unary op (h a)
  | .addr a => .addr a
  | .copy ty a => .copy ty (h a)
  | .select ty c t e => .select ty (h c) (h t) (h e)
  | .alloca ty => .alloca ty
  | .allocaBytes n => .allocaBytes n
  | .load ty ptr off => .load ty (h ptr) off
  | .store val ptr off => .store (h val) (h ptr) off
  | .other kind args => .other kind (args.map h)

/-- An instruction with its operands mapped one after the other. -/
def InstKind.mapOperands (g : Operand → GraphM Operand) : InstKind → GraphM InstKind
  | .binOp op a b => return .binOp op (← g a) (← g b)
  | .iCmp p a b => return .iCmp p (← g a) (← g b)
  | .fCmp p a b => return .fCmp p (← g a) (← g b)
  | .unary op a => return .unary op (← g a)
  | .addr a => return .addr a
  | .copy ty a => return .copy ty (← g a)
  | .select ty c t e => return .select ty (← g c) (← g t) (← g e)
  | .alloca ty => return .alloca ty
  | .allocaBytes n => return .allocaBytes n
  | .load ty ptr off => return .load ty (← g ptr) off
  | .store val ptr off => return .store (← g val) (← g ptr) off
  | .other kind args => return .other kind (← args.mapM g)

@[simp]
lemma InstKind.operands_remap (h : Operand → Operand) (kind : InstKind) :
    (kind.remap h).operands = kind.operands.map h := by
  cases kind <;> rfl

/-- Mapping operands one after the other where none changes the e-graph. -/
lemma InstKind.mapOperands_eq {g : Operand → GraphM Operand} {h : Operand → Operand} {e : Graph}
    {kind : InstKind} (hg : ∀ a ∈ kind.operands, g a e = some (h a, e)) :
    kind.mapOperands g e = some (kind.remap h, e) := by
  have hmapM : ∀ args : List Operand, (∀ a ∈ args, g a e = some (h a, e)) →
      args.mapM g e = some (args.map h, e) := by
    intro args
    induction args with
    | nil => exact fun _ => rfl
    | cons a args ih =>
      intro hargs
      rw [List.mapM_cons]
      change (g a e).bind _ = _
      rw [hargs a List.mem_cons_self, Option.bind_some]
      change (args.mapM g e).bind _ = _
      rw [ih fun b hb => hargs b (List.mem_cons_of_mem _ hb)]
      rfl
  cases kind with
  | addr a => rfl
  | alloca ty => rfl
  | allocaBytes n => rfl
  | unary op a | copy op a =>
    change (g a e).bind _ = _
    rw [hg a List.mem_cons_self]
    rfl
  | load ty ptr off =>
    change (g ptr e).bind _ = _
    rw [hg ptr List.mem_cons_self]
    rfl
  | binOp op a b | iCmp op a b | fCmp op a b | store a b off =>
    change (g a e).bind _ = _
    rw [hg a List.mem_cons_self, Option.bind_some]
    change (g b e).bind _ = _
    rw [hg b (List.mem_cons_of_mem _ List.mem_cons_self)]
    rfl
  | select ty c t d =>
    change (g c e).bind _ = _
    rw [hg c List.mem_cons_self, Option.bind_some]
    change (g t e).bind _ = _
    rw [hg t (List.mem_cons_of_mem _ List.mem_cons_self), Option.bind_some]
    change (g d e).bind _ = _
    rw [hg d (List.mem_cons_of_mem _ (List.mem_cons_of_mem _ List.mem_cons_self))]
    rfl
  | other kind args =>
    change (args.mapM g e).bind _ = _
    rw [hmapM args hg]
    rfl

/-! ### Instructions -/

/-- The one-operand kinds among the pure ones. -/
def UnOp.isPure : UnOp → Bool
  | .siToFp | .fpToSi | .fpToInt32 | .zExtBoolToI64 | .zExtI32ToI64 | .identity | .neg | .ctpop
  | .cttz => true
  | .bitCastF64ToI64 | .bitCastI64ToF64 | .intToPtr | .ptrToInt | .truncI64ToBool => false

/-- The encodings of a tagged value among the pure kinds. -/
def OtherKind.isEncode : OtherKind → Bool
  | .boxAny _ | .anyIsNumber | .anyIsInt32 | .anyToInt32 | .anyToF64 | .boxInt32 | .boxF64 => true
  | .call _ | .callIndirect _ | .loadDyn _ | .storeDyn | .loadDynScaled8 _ | .storeDynScaled8
  | .loadU8Dyn | .loadU16Dyn | .ctpopRangeSum | .rcInc | .rcIncAny | .rcDecAny | .vec _
  | .throwSignal | .pinned _ | .pinSet _ | .suspend _ => false

/-- `is_pure`. -/
def InstKind.isPure : InstKind → Bool
  | .binOp _ _ _ | .iCmp _ _ _ | .fCmp _ _ _ | .select _ _ _ _ => true
  | .unary op _ => op.isPure
  | .other kind _ => kind.isEncode
  | .addr _ | .copy _ _ | .alloca _ | .allocaBytes _ | .load _ _ _ | .store _ _ _ => false

/-- A value in place of itself, as the e-graph has it now. -/
def optOperand : Operand → GraphM Operand
  | .value v => fun e => (e.optValue v).map fun r => (.value r.1, r.2)
  | a => pure a

/-- The kinds whose operands `optimize::canonicalize_operands` looks at. -/
def InstKind.isKeyed : InstKind → Bool
  | .binOp _ _ _ | .iCmp _ _ _ | .fCmp _ _ _ | .load _ _ _ | .other (.loadDyn _) _ => true
  | .unary op _ => op.isPure
  | .addr _ | .copy _ _ | .select _ _ _ _ | .alloca _ | .allocaBytes _ | .store _ _ _
  | .other _ _ => false

/-- `optimize::canonicalize_operands`. -/
def optCanonicalize (kind : InstKind) : GraphM InstKind :=
  if kind.isKeyed then kind.mapOperands optOperand else pure kind

/-- A rewritten instruction joins the class of an equal value, or enters the table. -/
def lookUp (f : Func) (b : BlockId) (result : ValueId) (rewritten : InstKind) (e : Graph) :
    Option Graph :=
  let key : GvnKey := ((f.values[result]?).getD .void, rewritten)
  match e.gvnMap.get key with
  | some existing => (e.unionInto result existing).map Prod.snd
  | none =>
    some ({ e with gvnMap := (e.gvnMap.insert key result).1 }.setAvailableBlock result b)

/-- The second half of `process_inst`: what the rules made of a pure instruction is an alias, a
constant, or something to look up. -/
def record (f : Func) (b : BlockId) (result : ValueId) (canonKind : InstKind) (e : Graph) :
    Option Graph :=
  match applyRewritesRecursive builtinRules canonKind with
  | .unary .identity (.value target) => e.setOptValue result target
  | .unary .identity op => e.setConst result op
  | rewritten =>
    lookUp f b result rewritten
      (if rewritten ≠ canonKind then e.setRewrittenKind result rewritten else e)

/-- `process_inst`. -/
def processInst (f : Func) (b : BlockId) (e : Graph) (inst : Inst) : Option Graph :=
  match inst.result with
  | none => some e
  | some result =>
    (optCanonicalize inst.kind e).bind fun r =>
      if r.1.isPure then record f b result r.1 r.2 else some r.2

/-! ### The walk -/

/-- `visit_dom_nested` on entering a block. -/
def enterBlock (f : Func) (b : BlockId) (e : Graph) : Option Graph :=
  let e := { e with gvnMap := e.gvnMap.pushScope }
  match f.blocks[b]? with
  | some blk => blk.insts.foldlM (processInst f b) e
  | none => some e

/-- `visit_dom_nested` on leaving a block. -/
def leaveBlock (e : Graph) : Option Graph :=
  e.gvnMap.popScope.map fun m => { e with gvnMap := m }

/-- `visit_dom_nested`; the tree is no deeper than it has blocks. -/
def visitDomNested (f : Func) (dom : Dominator.Tree) (entry : BlockId) (e : Graph) :
    Option Graph :=
  TreeWalk.visit dom.children (enterBlock f) leaveBlock dom.rpo.length entry e

/-! ### Loop-invariant values -/

/-- An operand that `operands_loop_invariant` lets pass. -/
def operandInvariant (lp : NaturalLoop) (params : List ValueId) : Operand → GraphM Bool
  | .value v => fun e => (e.optValue v).map fun r =>
    (match r.2.availableBlock r.1 with
      | none => decide (r.1 ∈ params)
      | some b => !lp.contains b, r.2)
  | _ => pure true

/-- `operands_loop_invariant`. -/
def operandsLoopInvariant (lp : NaturalLoop) (params : List ValueId) : InstKind → GraphM Bool
  | .binOp _ a b | .iCmp _ a b | .fCmp _ a b => do
    if ← operandInvariant lp params a then operandInvariant lp params b else pure false
  | .unary op a => if op.isPure then operandInvariant lp params a else pure false
  | .addr _ | .copy _ _ | .select _ _ _ _ | .alloca _ | .allocaBytes _ | .load _ _ _
  | .store _ _ _ | .other _ _ => pure false

/-- The body of the innermost loop of `licm_hoist`. -/
def hoistInst (f : Func) (lp : NaturalLoop) (target : BlockId) (e : Graph) (inst : Inst) :
    Option Graph :=
  match inst.result with
  | none => some e
  | some result =>
    if inst.kind.isPure then
      (e.optValue result).bind fun r =>
        if (r.2.availableBlock r.1).any lp.contains then
          (operandsLoopInvariant lp f.params inst.kind r.2).map fun i =>
            if i.1 then i.2.setAvailableBlock r.1 target else i.2
        else some r.2
    else some e

/-- The instructions of a block of a loop. -/
def hoistBlock (f : Func) (lp : NaturalLoop) (target : BlockId) (e : Graph) (b : BlockId) :
    Option Graph :=
  match f.blocks[b]? with
  | some blk => blk.insts.foldlM (hoistInst f lp target) e
  | none => some e

/-- One loop of `licm_hoist`. -/
def hoistLoop (f : Func) (dom : Dominator.Tree) (e : Graph) (lp : NaturalLoop) : Option Graph :=
  match dom.immediateDominator lp.header with
  | none => some e
  | some target =>
    if lp.contains target then some e else lp.body.foldlM (hoistBlock f lp target) e

/-- `licm_hoist`: inner loops first. -/
def licmHoist (f : Func) (dom : Dominator.Tree) (loops : List NaturalLoop) (e : Graph) :
    Option Graph :=
  (loops.insertionSort fun a b => a.body.length ≤ b.body.length).foldlM (hoistLoop f dom) e

/-- `remove_pure_and_optimize`. -/
def removePureAndOptimize (f : Func) (dom : Dominator.Tree) (loops : List NaturalLoop)
    (e : Graph) : Option Graph :=
  match dom.rpo with
  | [] => some e
  | entry :: _ => (visitDomNested f dom entry e).bind (licmHoist f dom loops)

end Torajs.Egraph
