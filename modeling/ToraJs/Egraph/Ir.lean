import Mathlib.Data.List.Basic
import ToraJs.Ssa

/-!
# Functions as the passes behind the e-graph read them

`ssa::Function` after φ destruction: there are no φs, a loop value is a cell that several
`copy` instructions define, and a block's id is its position.

The instruction kinds that no modelled pass looks into are one constructor with their kind
and operands.  A function is well formed when its branches and values stay in its tables,
no parameter is defined by anything but a copy, and on every path from the entry a value
is defined before it is read.
-/

namespace Torajs.Egraph

/-- `ssa::BlockId`. -/
abbrev BlockId := ℕ

/-- The word of a register. -/
abbrev Word := BitVec 64

/-! ### Instructions -/

/-- `ssa::Operand`, doubles by their bits, as its equality compares them. -/
inductive Operand where
  | value (v : ValueId)
  | constI64 (c : BitVec 64)
  | constI32 (c : BitVec 32)
  | constF64 (bits : BitVec 64)
  | constBool (b : Bool)
  | constPtrNull
  deriving DecidableEq, Repr

/-- `ssa::IPred`. -/
inductive IPred where
  | eq | ne | slt | sgt | sle | sge | ult | uge
  deriving DecidableEq, Repr

/-- `ssa::FPred`. -/
inductive FPred where
  | oeq | one | olt | ogt | ole | oge | une
  deriving DecidableEq, Repr

/-- The kinds of `ssa::InstKind` with one operand that neither read nor write memory. -/
inductive UnOp where
  | siToFp | fpToSi | fpToInt32 | zExtBoolToI64 | zExtI32ToI64 | bitCastF64ToI64
  | bitCastI64ToF64 | intToPtr | ptrToInt | truncI64ToBool | identity | neg | ctpop | cttz
  deriving DecidableEq, Repr

/-- The kinds of `ssa::InstKind` that name an address. -/
inductive AddrKind where
  | stringRef (s : ℕ)
  | staticStrRef (s : ℕ)
  | globalRef (name : String)
  | fnAddr (f : ℕ)
  | boxedEntryAddr (f : ℕ)
  deriving DecidableEq, Repr

/-- `ssa::VecShape`. -/
inductive VecShape where
  | i64x2 | f64x2
  deriving DecidableEq, Repr

/-- `ssa::VecOp`. -/
inductive VecOp where
  | add | sub | and | andNot | or | fAdd | fSub | fMul | fDiv | fCmEq | fCmGt | fCmGe
  | cmEq | cmGt | cmGe
  deriving DecidableEq, Repr

/-- `ssa::VecInst` without its operands. -/
inductive VecKind where
  | splat (shape : VecShape)
  | pair (shape : VecShape)
  | binOp (op : VecOp)
  | select | ext | anyLane | fpToSi | fRintZ
  | lane (k : ℕ)
  | reduce (op : VecOp)
  deriving DecidableEq, Repr

/-- `ssa::PinWord`. -/
inductive PinWord where
  | len | data | scalar (k : ℕ)
  deriving DecidableEq, Repr

/-- The remaining kinds of `ssa::InstKind`, without their operands. -/
inductive OtherKind where
  | call (f : ℕ)
  | callIndirect (sig : ℕ)
  | loadDyn (ty : SsaType)
  | storeDyn
  | loadDynScaled8 (ty : SsaType)
  | storeDynScaled8
  | loadU8Dyn | loadU16Dyn
  | ctpopRangeSum
  | rcInc | rcIncAny | rcDecAny
  | boxAny (tag : ℤ)
  | anyIsNumber | anyIsInt32 | anyToInt32 | anyToF64
  | boxInt32 | boxF64
  | vec (vi : VecKind)
  | throwSignal
  | pinned (word : PinWord)
  | pinSet (word : PinWord)
  | suspend (lane : Option SsaType)
  deriving DecidableEq, Repr

/-- `ssa::InstKind`. -/
inductive InstKind where
  | binOp (op : BinOp) (a b : Operand)
  | iCmp (p : IPred) (a b : Operand)
  | fCmp (p : FPred) (a b : Operand)
  | unary (op : UnOp) (a : Operand)
  | addr (a : AddrKind)
  | copy (ty : SsaType) (a : Operand)
  | select (ty : SsaType) (c t e : Operand)
  | alloca (ty : SsaType)
  | allocaBytes (n : ℕ)
  | load (ty : SsaType) (ptr : Operand) (off : ℕ)
  | store (val ptr : Operand) (off : ℕ)
  | other (kind : OtherKind) (args : List Operand)
  deriving DecidableEq, Repr

/-- The operands an instruction reads, in order. -/
def InstKind.operands : InstKind → List Operand
  | .binOp _ a b | .iCmp _ a b | .fCmp _ a b => [a, b]
  | .unary _ a | .copy _ a => [a]
  | .addr _ | .alloca _ | .allocaBytes _ => []
  | .select _ c t e => [c, t, e]
  | .load _ ptr _ => [ptr]
  | .store val ptr _ => [val, ptr]
  | .other _ args => args

/-- The value an operand names. -/
def Operand.value? : Operand → Option ValueId
  | .value v => some v
  | _ => none

/-- `ssa::visit_value_operands`. -/
def visitValueOperands (kind : InstKind) : List ValueId := kind.operands.filterMap Operand.value?

/-- `ssa::Inst`. -/
structure Inst where
  result : Option ValueId
  kind : InstKind
  deriving DecidableEq, Repr

/-- `ssa::Terminator`. -/
inductive Terminator where
  | br (b : BlockId)
  | condBr (cond : Operand) (thenBlk elseBlk : BlockId)
  | ret (op : Option Operand)
  | unreachable
  deriving DecidableEq, Repr

/-- `ssa::visit_terminator_values`. -/
def visitTerminatorValues : Terminator → List ValueId
  | .condBr cond _ _ => cond.value?.toList
  | .ret (some op) => op.value?.toList
  | .ret none | .br _ | .unreachable => []

/-- `point_eval::successors`. -/
def successors : Terminator → List BlockId
  | .br b => [b]
  | .condBr _ thenBlk elseBlk => [thenBlk, elseBlk]
  | .ret _ | .unreachable => []

/-- `ssa::Block`. -/
structure Block where
  id : BlockId
  insts : List Inst
  term : Terminator
  deriving DecidableEq, Repr

/-- `ssa::Function`: of a value only its type is kept. -/
structure Func where
  name : String
  params : List ValueId
  blocks : List Block
  values : List SsaType
  deriving DecidableEq, Repr

/-! ### Well-formed functions -/

/-- A block at its position. -/
def Func.BlockAt (f : Func) (b : BlockId) (blk : Block) : Prop := f.blocks[b]? = some blk

/-- An instruction of the function. -/
def Func.HasInst (f : Func) (b : BlockId) (inst : Inst) : Prop :=
  ∃ blk, f.BlockAt b blk ∧ inst ∈ blk.insts

/-- The paths of control from the entry, with the values defined on the way. -/
inductive Func.Walk (f : Func) : BlockId → ℕ → List ValueId → Prop
  | entry : Func.Walk f 0 0 f.params
  | next {b k : ℕ} {defs : List ValueId} {blk : Block} {inst : Inst} : Func.Walk f b k defs →
      f.BlockAt b blk → blk.insts[k]? = some inst →
      Func.Walk f b (k + 1) (inst.result.toList ++ defs)
  | branch {b t : ℕ} {defs : List ValueId} {blk : Block} : Func.Walk f b blk.insts.length defs →
      f.BlockAt b blk → t ∈ successors blk.term → Func.Walk f t 0 defs

/-- The values read at a point: by an instruction, or behind the last one by the
terminator. -/
def Block.readsAt (blk : Block) (k : ℕ) : List ValueId :=
  match blk.insts[k]? with
  | some inst => visitValueOperands inst.kind
  | none => if k = blk.insts.length then visitTerminatorValues blk.term else []

/-- **Every use is reached only after a definition of the value it reads**, whichever way
the branches go. -/
def Func.DefinedBeforeUse (f : Func) : Prop :=
  ∀ b k defs, f.Walk b k defs → ∀ blk, f.BlockAt b blk → ∀ v ∈ blk.readsAt k, v ∈ defs

/-- `InstKind::Copy`. -/
def InstKind.isCopy : InstKind → Bool
  | .copy _ _ => true
  | _ => false

/-- What the lowering and the passes keep. -/
structure Func.WellFormed (f : Func) : Prop where
  /-- Block ids are positions. -/
  id_eq : ∀ b blk, f.BlockAt b blk → blk.id = b
  nonempty : f.blocks ≠ []
  target : ∀ b blk, f.BlockAt b blk → ∀ t ∈ successors blk.term, t < f.blocks.length
  /-- Every value has an entry in the value table. -/
  read_lt : ∀ b blk, f.BlockAt b blk → ∀ k, ∀ v ∈ blk.readsAt k, v < f.values.length
  result_lt : ∀ b inst, f.HasInst b inst → ∀ v, inst.result = some v → v < f.values.length
  param_lt : ∀ v ∈ f.params, v < f.values.length
  /-- `copy` is the one kind that may define a value again; a parameter is defined. -/
  param_copy : ∀ b inst, f.HasInst b inst → ∀ v ∈ f.params, inst.result = some v →
    inst.kind.isCopy = true
  defined : f.DefinedBeforeUse

variable {f : Func}

lemma Func.BlockAt.unique {b : BlockId} {blk blk' : Block} (h : f.BlockAt b blk)
    (h' : f.BlockAt b blk') : blk = blk' :=
  Option.some.inj (h.symm.trans h')

lemma Func.BlockAt.lt {b : BlockId} {blk : Block} (h : f.BlockAt b blk) : b < f.blocks.length :=
  (List.getElem?_eq_some_iff.mp h).1

lemma Func.BlockAt.mem {b : BlockId} {blk : Block} (h : f.BlockAt b blk) : blk ∈ f.blocks :=
  List.mem_of_getElem? h

lemma Func.exists_blockAt {blk : Block} (h : blk ∈ f.blocks) : ∃ b, f.BlockAt b blk := by
  obtain ⟨b, hb⟩ := List.mem_iff_getElem?.mp h
  exact ⟨b, hb⟩

lemma Func.exists_blockAt_of_lt {b : BlockId} (h : b < f.blocks.length) :
    ∃ blk, f.BlockAt b blk :=
  ⟨_, List.getElem?_eq_getElem h⟩

/-- In a well-formed function a block is at its id. -/
lemma Func.WellFormed.blockAt_id (h : f.WellFormed) {blk : Block} (hblk : blk ∈ f.blocks) :
    f.BlockAt blk.id blk := by
  obtain ⟨b, hb⟩ := Func.exists_blockAt hblk
  rwa [h.id_eq b blk hb]

lemma Block.readsAt_inst {blk : Block} {k : ℕ} {inst : Inst} (h : blk.insts[k]? = some inst) :
    blk.readsAt k = visitValueOperands inst.kind := by
  rw [Block.readsAt, h]

lemma Block.readsAt_term (blk : Block) :
    blk.readsAt blk.insts.length = visitTerminatorValues blk.term := by
  rw [Block.readsAt, List.getElem?_eq_none (Nat.le_refl _)]
  exact if_pos rfl

/-- A point of a walk is in its block or right behind it. -/
lemma Func.Walk.le_length {b k : ℕ} {defs : List ValueId} (h : f.Walk b k defs) {blk : Block}
    (hblk : f.BlockAt b blk) : k ≤ blk.insts.length := by
  induction h with
  | entry => exact Nat.zero_le _
  | next _ hb hinst _ =>
    obtain rfl := hb.unique hblk
    exact (List.getElem?_eq_some_iff.mp hinst).1
  | branch _ _ _ _ => exact Nat.zero_le _

/-- Parameters stay defined. -/
lemma Func.Walk.param_mem {b k : ℕ} {defs : List ValueId} (h : f.Walk b k defs) {v : ValueId}
    (hv : v ∈ f.params) : v ∈ defs := by
  induction h with
  | entry => exact hv
  | next _ _ _ ih => exact List.mem_append_right _ ih
  | branch _ _ _ ih => exact ih

/-- A walk is at a block. -/
lemma Func.WellFormed.blockAt_of_walk (h : f.WellFormed) {b k : ℕ} {defs : List ValueId}
    (hwalk : f.Walk b k defs) : ∃ blk, f.BlockAt b blk := by
  cases hwalk with
  | entry => exact Func.exists_blockAt_of_lt (List.length_pos_iff.mpr h.nonempty)
  | next _ hblk _ => exact ⟨_, hblk⟩
  | branch _ hblk ht => exact Func.exists_blockAt_of_lt (h.target _ _ hblk _ ht)

/-- A walk at a block's start goes on to each of its points. -/
lemma Func.Walk.within {b : BlockId} {blk : Block} (hblk : f.BlockAt b blk) {defs : List ValueId}
    (h : f.Walk b 0 defs) : ∀ k, k ≤ blk.insts.length → ∃ defs', f.Walk b k defs' := by
  intro k
  induction k with
  | zero => exact fun _ => ⟨defs, h⟩
  | succ k ih =>
    intro hk
    obtain ⟨defs', hwalk⟩ := ih (Nat.le_of_succ_le hk)
    exact ⟨_, hwalk.next hblk (List.getElem?_eq_getElem hk)⟩

/-! ### The order of a definition and its uses -/

section Order

variable {v : ValueId} {B j : ℕ}

/-- The value has one definition, the instruction at a position of a block. -/
def Func.OnlyDef (f : Func) (v : ValueId) (B j : ℕ) : Prop :=
  v ∉ f.params ∧ ∀ b i blk inst, f.BlockAt b blk → blk.insts[i]? = some inst →
    inst.result = some v → b = B ∧ i = j

/-- The block of the one definition is first reached without it. -/
lemma Func.OnlyDef.exists_first (h : f.OnlyDef v B j) {b k : ℕ} {defs : List ValueId}
    (hwalk : f.Walk b k defs) :
    (∃ defs', f.Walk B 0 defs' ∧ v ∉ defs') ∨ b ≠ B ∧ v ∉ defs := by
  induction hwalk with
  | entry =>
    by_cases hB : 0 = B
    · exact Or.inl ⟨f.params, hB ▸ Func.Walk.entry, h.1⟩
    · exact Or.inr ⟨hB, h.1⟩
  | @next b k defs blk inst _ hblk hinst ih =>
    refine ih.imp_right fun ⟨hne, hv⟩ => ⟨hne, fun hmem => ?_⟩
    rcases List.mem_append.mp hmem with hres | hmem
    · exact hne (h.2 b k blk inst hblk hinst (Option.mem_toList.mp hres)).1
    · exact hv hmem
  | @branch b t defs blk hwalk hblk ht ih =>
    rcases ih with hfirst | ⟨_, hv⟩
    · exact Or.inl hfirst
    · by_cases hB : t = B
      · exact Or.inl ⟨defs, hB ▸ Func.Walk.branch hwalk hblk ht, hv⟩
      · exact Or.inr ⟨hB, hv⟩

/-- **A value with one definition is read behind it** in the definition's own block. -/
lemma Func.WellFormed.lt_of_read (hwf : f.WellFormed) (h : f.OnlyDef v B j) {k : ℕ}
    {defs : List ValueId} (hwalk : f.Walk B k defs) {blk : Block} (hblk : f.BlockAt B blk)
    (hread : v ∈ blk.readsAt k) : j < k := by
  by_contra hlt
  obtain ⟨defs₀, hwalk₀, hv₀⟩ := (h.exists_first hwalk).resolve_right fun hne => hne.1 rfl
  -- nothing on the way from the block's start defines the value
  have hreach : ∀ i, i ≤ k → ∃ defs', f.Walk B i defs' ∧ v ∉ defs' := by
    intro i
    induction i with
    | zero => exact fun _ => ⟨defs₀, hwalk₀, hv₀⟩
    | succ i ih =>
      intro hi
      obtain ⟨defs', hwalk', hv'⟩ := ih (by omega)
      have hlen := hwalk.le_length hblk
      have hinst : blk.insts[i]? = some blk.insts[i] := List.getElem?_eq_getElem (by omega)
      refine ⟨_, hwalk'.next hblk hinst, fun hmem => ?_⟩
      rcases List.mem_append.mp hmem with hres | hmem
      · have := (h.2 B i blk _ hblk hinst (Option.mem_toList.mp hres)).2
        omega
      · exact hv' hmem
  obtain ⟨defs', hwalk', hv'⟩ := hreach k le_rfl
  exact hv' (hwf.defined B k defs' hwalk' blk hblk v hread)

end Order

/-! ### Checking a function -/

/-- The values defined ahead of a point, given those ahead of its block. -/
def Block.definedAhead (blk : Block) (ahead : List ValueId) (k : ℕ) : List ValueId :=
  (blk.insts.take k).filterMap Inst.result ++ ahead

/-- The test of one block at its position, by what is defined ahead of each block. -/
def Func.checkBlock (f : Func) (ahead : List (List ValueId)) (b : BlockId) (blk : Block) : Bool :=
  blk.id = b &&
  ((successors blk.term).all fun t => t < f.blocks.length &&
    (ahead.getD t []).all (· ∈ blk.definedAhead (ahead.getD b []) blk.insts.length)) &&
  ((List.range (blk.insts.length + 1)).all fun k => (blk.readsAt k).all fun v =>
    v < f.values.length && v ∈ blk.definedAhead (ahead.getD b []) k) &&
  blk.insts.all fun inst => inst.result.all fun v =>
    v < f.values.length && (v ∉ f.params || inst.kind.isCopy)

/-- A test of well-formedness, by a certificate: for each block values that are defined on
every way to it. -/
def Func.check (f : Func) (ahead : List (List ValueId)) : Bool :=
  f.blocks ≠ [] && f.params.all (· < f.values.length) &&
  (ahead.getD 0 []).all (· ∈ f.params) &&
  f.blocks.zipIdx.all fun bi => f.checkBlock ahead bi.2 bi.1

/-- What the certificate says ahead of a point is defined there. -/
lemma Func.mem_of_definedAhead {ahead : List (List ValueId)}
    (hentry : ∀ v ∈ ahead.getD 0 [], v ∈ f.params)
    (hblocks : ∀ b blk, f.BlockAt b blk → f.checkBlock ahead b blk = true) {b k : ℕ}
    {defs : List ValueId} (hwalk : f.Walk b k defs) {blk : Block} (hblk : f.BlockAt b blk) :
    ∀ v ∈ blk.definedAhead (ahead.getD b []) k, v ∈ defs := by
  induction hwalk generalizing blk with
  | entry => exact fun v hv => hentry v (by simpa [Block.definedAhead] using hv)
  | @next b k defs blk' inst _ hblk' hinst ih =>
    obtain rfl := hblk.unique hblk'
    intro v hv
    rw [Block.definedAhead, List.take_add_one, hinst, List.filterMap_append, List.append_assoc,
      List.mem_append, List.mem_append] at hv
    rcases hv with hv | hv | hv
    · exact List.mem_append_right _ (ih hblk' v (List.mem_append_left _ hv))
    · refine List.mem_append_left _ ?_
      simpa using hv
    · exact List.mem_append_right _ (ih hblk' v (List.mem_append_right _ hv))
  | @branch b t defs blk' _ hblk' ht ih =>
    intro v hv
    have hcheck := hblocks b blk' hblk'
    simp only [Func.checkBlock, Bool.and_eq_true, List.all_eq_true, decide_eq_true_eq] at hcheck
    exact ih hblk' v ((hcheck.1.1.2 t ht).2 v (by simpa [Block.definedAhead] using hv))

/-- **A function that passes the test is well formed.** -/
theorem Func.wellFormed_of_check {ahead : List (List ValueId)} (h : f.check ahead = true) :
    f.WellFormed := by
  simp only [Func.check, Bool.and_eq_true, List.all_eq_true, decide_eq_true_eq] at h
  obtain ⟨⟨⟨hne, hparams⟩, hentry⟩, hall⟩ := h
  have hblocks : ∀ b blk, f.BlockAt b blk → f.checkBlock ahead b blk = true := fun b blk hblk =>
    hall (blk, b) (List.mem_zipIdx_iff_getElem?.mpr hblk)
  have hblock := hblocks
  simp only [Func.checkBlock, Bool.and_eq_true, Bool.or_eq_true, List.all_eq_true,
    decide_eq_true_eq, Option.all_eq_true] at hblock
  have hreads : ∀ b blk, f.BlockAt b blk → ∀ k, ∀ v ∈ blk.readsAt k,
      v < f.values.length ∧ v ∈ blk.definedAhead (ahead.getD b []) k := by
    intro b blk hblk k v hv
    refine (hblock b blk hblk).1.2 k ?_ v hv
    rw [List.mem_range]
    by_contra hlt
    rw [Block.readsAt, List.getElem?_eq_none (by omega), if_neg (by omega)] at hv
    cases hv
  refine ⟨fun b blk hblk => (hblock b blk hblk).1.1.1, hne,
    fun b blk hblk t ht => ((hblock b blk hblk).1.1.2 t ht).1,
    fun b blk hblk k v hv => (hreads b blk hblk k v hv).1, ?_, hparams, ?_, ?_⟩
  · rintro b inst ⟨blk, hblk, hinst⟩ v hv
    exact ((hblock b blk hblk).2 inst hinst v hv).1
  · rintro b inst ⟨blk, hblk, hinst⟩ v hv hres
    exact ((hblock b blk hblk).2 inst hinst v hres).2.resolve_left fun hnot => hnot hv
  · exact fun b k defs hwalk blk hblk v hv =>
      Func.mem_of_definedAhead hentry hblocks hwalk hblk v (hreads b blk hblk k v hv).2

end Torajs.Egraph
