import ToraJs.Egraph.Exec
import ToraJs.Egraph.Loops

/-!
# The population count idiom

`ctpop_idiom.rs`: the loop that `while (n !== 0) { n = n & (n - 1); count = count + 1; }`
becomes, a header with the test and a body with the five instructions in any order, is
replaced by a `ctpop` in the header.

A match is described by where its instructions stand and what its four intermediate values
are.
-/

namespace Torajs.Egraph

/-! ### The matcher -/

/-- `MatchedLoop`. -/
structure MatchedLoop where
  header : BlockId
  body : BlockId
  exit : BlockId
  nCell : ValueId
  cCell : ValueId
  nUsedAfter : Bool
  deriving DecidableEq, Repr

/-- `def_counts`, of one value. -/
def defCounts (f : Func) (v : ValueId) : ℕ :=
  (f.blocks.map fun block => block.insts.countP fun inst => inst.result = some v).sum

/-- The values a block reads. -/
def Block.reads (block : Block) : List ValueId :=
  (block.insts.flatMap fun inst => visitValueOperands inst.kind) ++ visitTerminatorValues block.term

/-- What the blocks other than the loop's two read. -/
def readsOutside (f : Func) (header body : BlockId) : List ValueId :=
  (f.blocks.filter fun block => block.id ≠ header && block.id ≠ body).flatMap Block.reads

/-- `InstKind::Copy(Type::I64, Operand::Value(src))`. -/
def InstKind.copyI64? : InstKind → Option ValueId
  | .copy .i64 (.value src) => some src
  | _ => none

/-- The header's part of `match_loop`: the test's value, `n`, and the exit. -/
def matchHeader (hb : Block) (header body : BlockId) : Option (ValueId × ValueId × BlockId) :=
  match hb.insts, hb.term with
  | [⟨some cmp, .iCmp .ne (.value nCell) (.constI64 c)⟩], .condBr (.value cond) thenBlk elseBlk =>
    if c = 0 ∧ cond = cmp ∧ thenBlk = body ∧ elseBlk ≠ header ∧ elseBlk ≠ body then
      some (cmp, nCell, elseBlk)
    else none
  | _, _ => none

/-- The first copy of a value into `n`, with its position. -/
def findCopy (insts : List Inst) (nCell : ValueId) : Option (ℕ × ValueId) :=
  insts.zipIdx.findSome? fun e =>
    if e.1.result = some nCell then e.1.kind.copyI64?.map fun src => (e.2, src) else none

/-- The first definition of a value, with its position. -/
def findDef (insts : List Inst) (v : ValueId) : Option (ℕ × Inst) :=
  insts.zipIdx.findSome? fun e => if e.1.result = some v then some (e.2, e.1) else none

/-- The other side of an `and` with `n`, in either operand order. -/
def andOther (nCell : ValueId) : InstKind → Option ValueId
  | .binOp .and (.value x) (.value y) =>
    if x = nCell ∧ y ≠ nCell then some y else if y = nCell ∧ x ≠ nCell then some x else none
  | _ => none

/-- `count_up`. -/
def countUp (cCell : ValueId) (kind : InstKind) : Bool :=
  kind = .binOp .add (.value cCell) (.constI64 1) ||
    kind = .binOp .add (.constI64 1) (.value cCell)

/-- The body's part of `match_loop`: the `sub`, the `and`, the `add` and `c`. -/
def matchBody (bb : Block) (header : BlockId) (nCell : ValueId) :
    Option (ValueId × ValueId × ValueId × ValueId) :=
  if bb.term = .br header ∧ bb.insts.length = 5 then do
    let copyN ← findCopy bb.insts nCell
    let andDef ← findDef bb.insts copyN.2
    let t ← andOther nCell andDef.2.kind
    let subDef ← findDef bb.insts t
    let rest := (List.range 5).filter fun i => i ∉ [copyN.1, andDef.1, subDef.1]
    let r0 ← rest[0]?
    let r1 ← rest[1]?
    let inst0 ← bb.insts[r0]?
    let inst1 ← bb.insts[r1]?
    let addInst := if inst0.kind.isCopy then inst1 else inst0
    let copyC := if inst0.kind.isCopy then inst0 else inst1
    let c2 ← addInst.result
    let cCell ← copyC.result
    if subDef.2.kind = .binOp .sub (.value nCell) (.constI64 1) ∧ copyC.kind.copyI64? = some c2 ∧
        countUp cCell addInst.kind ∧ cCell ≠ nCell then
      some (t, copyN.2, c2, cCell)
    else none
  else none

/-- `match_loop`. -/
def matchLoop (f : Func) (header body : BlockId) : Option MatchedLoop := do
  let hb ← f.blocks.find? fun b => b.id = header
  let bb ← f.blocks.find? fun b => b.id = body
  let (cmp, nCell, exit) ← matchHeader hb header body
  let (t, m, c2, cCell) ← matchBody bb header nCell
  if [cmp, t, m, c2].all fun v => defCounts f v = 1 && v ∉ readsOutside f header body then
    some ⟨header, body, exit, nCell, cCell, nCell ∈ readsOutside f header body⟩
  else none

/-- One loop in `recognize_in_function`. -/
def matchNaturalLoop (f : Func) (l : NaturalLoop) : Option MatchedLoop :=
  match l.backEdgeSources with
  | [body] =>
    if l.body.length = 2 ∧ body ≠ l.header ∧ l.contains body then matchLoop f l.header body
    else none
  | _ => none

/-- The loops that `recognize_in_function` matches, before it rewrites one. -/
def matchedLoops (f : Func) : Option (List MatchedLoop) := do
  let dom ← Dominator.build f.cfg
  let loops ← buildLoops f.cfg dom
  pure (loops.filterMap (matchNaturalLoop f))

/-! ### The rewrite -/

/-- The instructions the header gets. -/
def MatchedLoop.countInsts (m : MatchedLoop) (pc sum : ValueId) : List Inst :=
  [⟨some pc, .unary .ctpop (.value m.nCell)⟩,
    ⟨some sum, .binOp .add (.value m.cCell) (.value pc)⟩,
    ⟨some m.cCell, .copy .i64 (.value sum)⟩] ++
  if m.nUsedAfter then [⟨some m.nCell, .copy .i64 (.constI64 0)⟩] else []

/-- What becomes of a block. -/
def MatchedLoop.rewriteBlock (m : MatchedLoop) (pc sum : ValueId) (block : Block) : Block :=
  if block.id = m.header then { block with insts := m.countInsts pc sum, term := .br m.exit }
  else if block.id = m.body then { block with insts := [], term := .unreachable }
  else block

/-- `rewrite_loop`. -/
def rewriteLoop (f : Func) (m : MatchedLoop) : Func :=
  { f with
    values := f.values ++ [.i64, .i64]
    blocks := f.blocks.map (m.rewriteBlock f.values.length (f.values.length + 1)) }

/-- `recognize_in_function`. -/
def recognizeInFunction (f : Func) : Option Func :=
  if f.blocks = [] then some f else (matchedLoops f).map fun ms => ms.foldl rewriteLoop f

end Torajs.Egraph
