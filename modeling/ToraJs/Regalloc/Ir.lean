import Mathlib.Logic.Relation
import ToraJs.Ssa

/-!
# Functions as the register allocator reads them

`ssa::Function` with its instruction kinds and their operands, the two operand visitors,
and the control flow at the allocator's precision: every instruction and every terminator
owns a slot, a slot reads in its first half and writes in its second.

Path liveness is the specification of the analyses: a value is live at a point when some
path from there reads it before writing it.
-/

namespace Torajs.Regalloc

/-- `ssa::BlockId`. -/
abbrev BlockId := ℕ

/-- `ssa::VecShape`. -/
inductive VecShape where
  | i64x2 | f64x2
  deriving DecidableEq, Repr

/-- `ssa::VecInst`, without the lane operations. -/
inductive VecInst where
  | splat (shape : VecShape) (a : Operand)
  | pair (shape : VecShape) (lo hi : Operand)
  | binOp (a b : Operand)
  | select (mask a b : Operand)
  | ext (a b : Operand)
  | anyLane (a : Operand)
  | fpToSi (a : Operand)
  | fRintZ (a : Operand)
  | lane (k : ℕ) (a : Operand)
  | reduce (a : Operand)

/-- `VecInst::operands`. -/
def VecInst.operands : VecInst → List Operand
  | .splat _ a | .fpToSi a | .fRintZ a | .lane _ a | .anyLane a | .reduce a => [a]
  | .pair _ a b | .binOp a b | .ext a b => [a, b]
  | .select m a b => [m, a, b]

/-- `ssa::PinWord`. -/
inductive PinWord where
  | len | data | scalar (k : ℕ)
  deriving DecidableEq, Repr

/-- `ssa::InstKind`; payloads that the allocator does not read are left out. -/
inductive InstKind where
  | binOp (op : BinOp) (a b : Operand)
  | iCmp (a b : Operand)
  | fCmp (a b : Operand)
  | call (f : ℕ) (args : List Operand)
  | alloca (ty : SsaType)
  | allocaBytes (n : ℕ)
  | load (ty : SsaType) (ptr : Operand) (off : ℕ)
  | store (val ptr : Operand) (off : ℕ)
  | loadDyn (ty : SsaType) (base off : Operand)
  | storeDyn (val base off : Operand)
  | loadDynScaled8 (ty : SsaType) (base idx : Operand)
  | storeDynScaled8 (val base idx : Operand)
  | loadU8Dyn (base idx : Operand)
  | loadU16Dyn (base idx : Operand)
  | siToFp (a : Operand)
  | fpToSi (a : Operand)
  | fpToInt32 (a : Operand)
  | zExtBoolToI64 (a : Operand)
  | zExtI32ToI64 (a : Operand)
  | bitCastF64ToI64 (a : Operand)
  | bitCastI64ToF64 (a : Operand)
  | intToPtr (a : Operand)
  | ptrToInt (a : Operand)
  | truncI64ToBool (a : Operand)
  | stringRef (s : ℕ)
  | staticStrRef (s : ℕ)
  | globalRef (name : String)
  | fnAddr (f : ℕ)
  | boxedEntryAddr (f : ℕ)
  | callIndirect (sig : ℕ) (fp : Operand) (args : List Operand)
  | identity (a : Operand)
  | neg (a : Operand)
  | ctpop (a : Operand)
  | cttz (a : Operand)
  | copy (ty : SsaType) (a : Operand)
  | select (ty : SsaType) (c t e : Operand)
  | ctpopRangeSum (start bound acc : Operand)
  | rcInc (ptr : Operand)
  | rcIncAny (ptr : Operand)
  | rcDecAny (ptr : Operand)
  | boxAny (tag : ℤ) (ptr : Operand)
  | anyIsNumber (ptr : Operand)
  | anyIsInt32 (ptr : Operand)
  | anyToInt32 (ptr : Operand)
  | anyToF64 (val flag : Operand)
  | boxInt32 (ptr : Operand)
  | boxF64 (ptr : Operand)
  | vec (vi : VecInst)
  | throwSignal
  | pinned (word : PinWord)
  | pinSet (word : PinWord) (v : Operand)
  | suspend (a : Operand) (held : List Operand)

/-- The value an operand names. -/
def operandValue : Operand → Option ValueId
  | .value v => some v
  | _ => none

/-- The values a list of operands names, in order. -/
def operandValues (ops : List Operand) : List ValueId := ops.filterMap operandValue

/-- `liveness::visit_inst_operands`.  On `identity` the source panics: see
`Func.visitable`. -/
def visitInstOperands : InstKind → List ValueId
  | .binOp _ a b | .iCmp a b | .fCmp a b => operandValues [a, b]
  | .bitCastF64ToI64 a | .bitCastI64ToF64 a | .siToFp a | .fpToSi a | .fpToInt32 a
  | .zExtBoolToI64 a | .zExtI32ToI64 a | .truncI64ToBool a | .ptrToInt a | .intToPtr a | .neg a
  | .ctpop a | .cttz a | .copy _ a => operandValues [a]
  | .suspend a held => operandValues (a :: held)
  | .select _ c t e => operandValues [c, t, e]
  | .ctpopRangeSum s b a => operandValues [s, b, a]
  | .vec vi => operandValues vi.operands
  | .alloca _ | .allocaBytes _ => []
  | .load _ ptr _ | .rcInc ptr | .rcIncAny ptr | .rcDecAny ptr | .boxAny _ ptr | .anyIsNumber ptr
  | .anyIsInt32 ptr | .anyToInt32 ptr | .boxInt32 ptr | .boxF64 ptr => operandValues [ptr]
  | .anyToF64 val flag => operandValues [val, flag]
  | .store val ptr _ => operandValues [val, ptr]
  | .loadDyn _ base off => operandValues [base, off]
  | .storeDyn val base off => operandValues [val, base, off]
  | .loadDynScaled8 _ base idx | .loadU8Dyn base idx | .loadU16Dyn base idx =>
    operandValues [base, idx]
  | .storeDynScaled8 val base idx => operandValues [val, base, idx]
  | .call _ args => operandValues args
  | .callIndirect _ fp args => operandValues (fp :: args)
  | .globalRef _ | .stringRef _ | .staticStrRef _ | .fnAddr _ | .boxedEntryAddr _ | .pinned _ => []
  | .pinSet _ v => operandValues [v]
  | .throwSignal => []
  | .identity _ => []

/-- `ssa::visit_value_operands`. -/
def visitValueOperands : InstKind → List ValueId
  | .binOp _ a b | .iCmp a b | .fCmp a b => operandValues [a, b]
  | .call _ args => operandValues args
  | .callIndirect _ ptr args => operandValues (ptr :: args)
  | .load _ ptr _ | .rcInc ptr | .rcIncAny ptr | .rcDecAny ptr | .boxAny _ ptr | .anyIsNumber ptr
  | .anyIsInt32 ptr | .anyToInt32 ptr | .boxInt32 ptr | .boxF64 ptr => operandValues [ptr]
  | .anyToF64 val flag => operandValues [val, flag]
  | .store val ptr _ => operandValues [val, ptr]
  | .loadDyn _ ptr off => operandValues [ptr, off]
  | .storeDyn val ptr off => operandValues [val, ptr, off]
  | .loadDynScaled8 _ ptr idx => operandValues [ptr, idx]
  | .loadU8Dyn ptr idx | .loadU16Dyn ptr idx => operandValues [ptr, idx]
  | .storeDynScaled8 val ptr idx => operandValues [val, ptr, idx]
  | .select _ cond t e => operandValues [cond, t, e]
  | .ctpopRangeSum start bound acc => operandValues [start, bound, acc]
  | .siToFp o | .fpToSi o | .fpToInt32 o | .zExtBoolToI64 o | .zExtI32ToI64 o | .bitCastF64ToI64 o
  | .bitCastI64ToF64 o | .intToPtr o | .ptrToInt o | .truncI64ToBool o | .identity o | .neg o
  | .ctpop o | .cttz o | .copy _ o | .pinSet _ o => operandValues [o]
  | .suspend o held => operandValues (o :: held)
  | .vec vi => operandValues vi.operands
  | .alloca _ | .allocaBytes _ | .stringRef _ | .staticStrRef _ | .globalRef _ | .fnAddr _
  | .boxedEntryAddr _ | .pinned _ | .throwSignal => []

/-- The kind that never reaches liveness. -/
def InstKind.isIdentity : InstKind → Bool
  | .identity _ => true
  | _ => false

/-- Where the first visitor does not panic, the two agree. -/
lemma visitInstOperands_eq {kind : InstKind} (h : kind.isIdentity = false) :
    visitInstOperands kind = visitValueOperands kind := by
  cases kind with
  | identity a => cases h
  | _ => rfl

/-- `ssa::lowers_to_call`, which `regalloc::inst_emits_bl` is. -/
def lowersToCall : InstKind → Bool
  | .call .. | .callIndirect .. | .binOp .fRem .. | .ctpopRangeSum .. | .rcDecAny _ | .suspend .. =>
    true
  | _ => false

/-- Stack slots: `Alloca` and `AllocaBytes`. -/
def InstKind.isAlloca : InstKind → Bool
  | .alloca _ | .allocaBytes _ => true
  | _ => false

/-- `ssa::Inst`. -/
structure Inst where
  result : Option ValueId
  kind : InstKind

/-- `ssa::Terminator`. -/
inductive Terminator where
  | br (b : BlockId)
  | condBr (cond : Operand) (thenBlk elseBlk : BlockId)
  | ret (op : Option Operand)
  | unreachable

/-- `liveness::visit_terminator_operands`, which `ssa::visit_terminator_values` agrees
with. -/
def visitTerminatorOperands : Terminator → List ValueId
  | .ret (some op) => operandValues [op]
  | .condBr cond _ _ => operandValues [cond]
  | .ret none | .br _ | .unreachable => []

/-- The blocks a terminator branches to, `then` before `else`. -/
def successors : Terminator → List BlockId
  | .br b => [b]
  | .condBr _ thenBlk elseBlk => [thenBlk, elseBlk]
  | .ret _ | .unreachable => []

/-- `ssa::Block`. -/
structure Block where
  id : BlockId
  insts : List Inst
  term : Terminator

/-- `ssa::Function`: of a value only its type is kept. -/
structure Func where
  name : String
  params : List ValueId
  blocks : List Block
  values : List SsaType

/-! ### Slots -/

/-- What a slot reads and, unless it is a terminator's, defines. -/
structure Slot where
  reads : List ValueId
  result : Option ValueId

/-- An instruction's slot. -/
def Inst.slot (inst : Inst) : Slot := ⟨visitInstOperands inst.kind, inst.result⟩

/-- The slots of a block: one per instruction, then the terminator's. -/
def Block.slots (b : Block) : List Slot :=
  b.insts.map Inst.slot ++ [⟨visitTerminatorOperands b.term, none⟩]

/-- All slots in layout order. -/
def Func.slots (f : Func) : List Slot := f.blocks.flatMap Block.slots

/-- The global slot of a block's first instruction. -/
def Func.start (f : Func) (i : ℕ) : ℕ := ((f.blocks.take i).flatMap Block.slots).length

/-- The global slot of a block's terminator. -/
def Func.stop (f : Func) (i : ℕ) : ℕ :=
  f.start i + ((f.blocks[i]?).map fun b => b.insts.length).getD 0

/-- A function the visitors accept: no `identity` is left and every value has an entry in
the value table.  Anywhere else the source panics. -/
def Func.visitable (f : Func) : Bool :=
  (f.blocks.all fun b => b.insts.all fun i => !i.kind.isIdentity) &&
    (f.params ++ f.slots.flatMap fun s => s.reads ++ s.result.toList).all (· < f.values.length)

lemma Block.length_slots (b : Block) : b.slots.length = b.insts.length + 1 := by
  simp [Block.slots]

/-! ### Points and paths -/

/-- `pos`: the position of a block by its id, the last one if ids repeat. -/
def Func.pos (f : Func) (id : BlockId) : Option ℕ :=
  ((f.blocks.zipIdx.filter fun bi => bi.1.id = id).getLast?).map Prod.snd

/-- A program point: a slot of a block, where it reads or, the result just written, where it
writes. -/
structure Point where
  block : ℕ
  slot : ℕ
  write : Bool
  deriving DecidableEq, Repr

/-- The half-slot of a point: reads at `2p`, writes at `2p + 1`. -/
def Func.halfSlot (f : Func) (x : Point) : ℕ :=
  2 * (f.start x.block + x.slot) + if x.write then 1 else 0

/-- The slot at a point. -/
def Func.slotAt (f : Func) (x : Point) : Option Slot :=
  (f.blocks[x.block]?).bind fun b => b.slots[x.slot]?

/-- One step of control: from the read to the write of a slot, to the next slot, and from
a terminator to the start of a target. -/
inductive Func.Step (f : Func) : Point → Point → Prop
  | write {i k : ℕ} {b : Block} : f.blocks[i]? = some b → k ≤ b.insts.length →
      Func.Step f ⟨i, k, false⟩ ⟨i, k, true⟩
  | next {i k : ℕ} {b : Block} : f.blocks[i]? = some b → k < b.insts.length →
      Func.Step f ⟨i, k, true⟩ ⟨i, k + 1, false⟩
  | branch {i j : ℕ} {b : Block} {t : BlockId} : f.blocks[i]? = some b → t ∈ successors b.term →
      f.pos t = some j → Func.Step f ⟨i, b.insts.length, true⟩ ⟨j, 0, false⟩

/-- The slot at the point reads the value. -/
def Func.UsesAt (f : Func) (v : ValueId) (x : Point) : Prop :=
  x.write = false ∧ ∃ s, f.slotAt x = some s ∧ v ∈ s.reads

/-- The slot at the point defines the value. -/
def Func.DefsAt (f : Func) (v : ValueId) (x : Point) : Prop :=
  x.write = true ∧ ∃ s, f.slotAt x = some s ∧ s.result = some v

/-- **Path liveness**: some path from the point reaches a read of the value and passes no
definition of it on the way. -/
inductive Func.LiveAt (f : Func) (v : ValueId) : Point → Prop
  | use {x : Point} : f.UsesAt v x → Func.LiveAt f v x
  | step {x y : Point} : f.Step x y → ¬ f.DefsAt v y → Func.LiveAt f v y → Func.LiveAt f v x

/-- The entry point. -/
def entryPoint : Point := ⟨0, 0, false⟩

/-- A definition of the value: of a parameter also the entry. -/
def Func.DefinedAt (f : Func) (v : ValueId) (x : Point) : Prop :=
  f.DefsAt v x ∨ v ∈ f.params ∧ x = entryPoint

/-- Some definition of the value reaches the point. -/
def Func.ReachedBy (f : Func) (v : ValueId) (x : Point) : Prop :=
  ∃ d, f.DefinedAt v d ∧ Relation.ReflTransGen f.Step d x

end Torajs.Regalloc
