import ToraJs.Egraph.Optimize

/-!
# The second phase: elaboration

`elaborate.rs`, `elaborate/operands.rs` and `egraph_pass.rs`.  The dominator tree is walked
again, with a stack, and a new function is written: operands are canonical or literal, a
value whose class is already there is dropped, an invariant value goes to the end of the
block it was noted for, and a branch on a literal becomes plain.  Blocks that the entry then
no longer reaches are emptied.

The statistics are left out.
-/

namespace Torajs.Egraph

/-! ### Operands -/

/-- `map_operand`. -/
def mapOperand : Operand → GraphM Operand
  | .value v => fun e =>
    (e.optValue v).bind fun r => (r.2.constOf r.1).map fun c => (c.1.getD (.value r.1), c.2)
  | a => pure a

/-- The kinds that only later passes make. -/
def InstKind.isLate : InstKind → Bool
  | .copy _ _ | .select _ _ _ _ | .other .ctpopRangeSum _ | .other (.vec _) _ => true
  | .binOp _ _ _ | .iCmp _ _ _ | .fCmp _ _ _ | .unary _ _ | .addr _ | .alloca _ | .allocaBytes _
  | .load _ _ _ | .store _ _ _ | .other _ _ => false

/-- `operands::canonicalize_operands`; a late kind is unreachable there. -/
def canonicalizeOperands (kind : InstKind) : GraphM InstKind :=
  if kind.isLate then failure else kind.mapOperands mapOperand

/-- `rewrite_terminator`. -/
def rewriteTerminator : Terminator → GraphM Terminator
  | .br b => pure (.br b)
  | .condBr cond thenBlk elseBlk => do
    match ← mapOperand cond with
    | .constBool true => pure (.br thenBlk)
    | .constBool false => pure (.br elseBlk)
    | cond => pure (if thenBlk = elseBlk then .br thenBlk else .condBr cond thenBlk elseBlk)
  | .ret (some op) => return .ret (some (← mapOperand op))
  | .ret none => pure (.ret none)
  | .unreachable => pure .unreachable

/-! ### Blocks -/

/-- The state of the walk: the e-graph, the values that are there, the blocks written. -/
structure Elaboration where
  graph : Graph
  elaborated : ScopedHashMap ValueId BlockId
  blocks : List Block

/-- The block an instruction goes to. -/
def emitBlock (dom : Dominator.Tree) (b : BlockId) (available : Option BlockId) : BlockId :=
  match available with
  | some target => if target ≠ b ∧ dom.dominates target b then target else b
  | none => b

/-- An instruction behind the ones of a block. -/
def pushInst (blocks : List Block) (target : BlockId) (inst : Inst) : List Block :=
  blocks.modify target fun blk => { blk with insts := blk.insts ++ [inst] }

/-- What becomes of an instruction with a result, other than an alias: nothing, where uses read a
literal or the value is there; else it is written, here or further up. -/
def emitInst (dom : Dominator.Tree) (b : BlockId) (res : ValueId) (kind : InstKind)
    (s : Elaboration × List Inst) : Option (Elaboration × List Inst) := do
  let c ← s.1.graph.optValue res
  let literal ← c.2.constOf c.1
  if literal.1.isSome then some ({ s.1 with graph := literal.2 }, s.2)
  else
    let c ← literal.2.optValue res
    if c.1 ≠ res ∧ s.1.elaborated.containsKey c.1 then some ({ s.1 with graph := c.2 }, s.2)
    else
      let target := emitBlock dom b (c.2.availableBlock c.1)
      let elaborated := (s.1.elaborated.insert c.1 target).1
      if target = b ∨ s.1.blocks.length ≤ target then
        some (⟨c.2, elaborated, s.1.blocks⟩, s.2 ++ [⟨some res, kind⟩])
      else some (⟨c.2, elaborated, pushInst s.1.blocks target ⟨some res, kind⟩⟩, s.2)

/-- One instruction of a block, with the ones written for the block so far. -/
def elaborateInst (dom : Dominator.Tree) (b : BlockId) (s : Elaboration × List Inst)
    (inst : Inst) : Option (Elaboration × List Inst) := do
  let base := (inst.result.bind s.1.graph.rewrittenKind).getD inst.kind
  let k ← canonicalizeOperands base s.1.graph
  match k.1, inst.result with
  | .unary .identity (.value target), some res =>
    (k.2.setOptValue res target).map fun e => ({ s.1 with graph := e }, s.2)
  | .unary .identity _, _ => some ({ s.1 with graph := k.2 }, s.2)
  | kind, some res => emitInst dom b res kind ({ s.1 with graph := k.2 }, s.2)
  | kind, none => some ({ s.1 with graph := k.2 }, s.2 ++ [⟨none, kind⟩])

/-- The visit of a block. -/
def elaborateBlock (f : Func) (dom : Dominator.Tree) (b : BlockId) (s : Elaboration) :
    Option Elaboration :=
  match f.blocks[b]? with
  | none => some s
  | some src => do
    let opened := { s with elaborated := s.elaborated.pushScope }
    let r ← src.insts.foldlM (elaborateInst dom b) (opened, [])
    let t ← rewriteTerminator src.term r.1.graph
    let blocks := r.1.blocks.modify b fun blk => { blk with insts := r.2, term := t.1 }
    some ⟨t.2, r.1.elaborated, blocks⟩

/-- The exit of a block. -/
def closeBlock (s : Elaboration) : Option Elaboration :=
  s.elaborated.popScope.map fun m => { s with elaborated := m }

/-- The children of a block in the dominator tree, by id. -/
def treeChildren (dom : Dominator.Tree) (n : ℕ) (p : BlockId) : List BlockId :=
  (List.range n).filter fun b => dom.immediateDominator b = some p ∧ p < n

/-! ### Unreached blocks -/

/-- The loop of `detach_unreached`: the blocks seen. -/
def seenLoop (blocks : List Block) : ℕ → List BlockId → List BlockId → Option (List BlockId)
  | _, [], seen => some seen
  | 0, _ :: _, _ => none
  | fuel + 1, b :: stack, seen =>
    match blocks[b]? with
    | none => seenLoop blocks fuel stack seen
    | some blk =>
      if b ∈ seen then seenLoop blocks fuel stack seen
      else seenLoop blocks fuel ((successors blk.term).reverse ++ stack) (b :: seen)

/-- `detach_unreached`: a block is seen once and leads to at most two others. -/
def detachUnreached (blocks : List Block) : Option (List Block) :=
  (seenLoop blocks (2 * blocks.length + 1) [0] []).map fun seen =>
    blocks.mapIdx fun b blk =>
      if b = 0 ∨ b ∈ seen then blk else { blk with insts := [], term := .unreachable }

/-! ### The pass -/

/-- `elaborate`. -/
def elaborate (f : Func) (dom : Dominator.Tree) (e : Graph) : Option Func :=
  if f.blocks = [] then some f
  else
    let n := f.blocks.length
    let start : Elaboration :=
      ⟨e, ScopedHashMap.new, f.blocks.map fun blk => { blk with insts := [] }⟩
    (TreeWalk.run (treeChildren dom n) (fun b => decide (b < n)) (elaborateBlock f dom) closeBlock
      (2 * n) [.enter 0] start).bind fun s =>
        (detachUnreached s.blocks).map fun blocks => { f with blocks := blocks }

/-- `EgraphPass::run`. -/
def egraphPass (f : Func) : Option Func :=
  if f.blocks = [] then some f
  else
    (Dominator.build f.cfg).bind fun dom =>
      (buildLoops f.cfg dom).bind fun loops =>
        (removePureAndOptimize f dom loops (Graph.new f.values.length)).bind (elaborate f dom)

end Torajs.Egraph
