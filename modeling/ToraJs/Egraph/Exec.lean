import Mathlib.Logic.Function.Basic
import ToraJs.Egraph.Ir
import ToraJs.Interval.Machine
import ToraJs.Lib.Simulation

/-!
# Executions

A run of a function moves over its points, with a register per value and a world for
everything outside the registers.  What the instructions compute is an interpretation:
the kinds without effects are functions of their operands, every other kind acts on the
world and may trap there.  `wordInterp` is the interpretation by 64-bit words, with the
integer instructions as the machine computes them.

Two functions are equivalent when from every register file and every world their runs
visit the same worlds and end the same way.
-/

namespace Torajs.Egraph

open Simulation

/-- An instruction that touches the world, without its operands. -/
inductive Action where
  | load (ty : SsaType) (off : ℕ)
  | store (w32 : Bool) (off : ℕ)
  | alloca (slot : Option ValueId) (ty : SsaType)
  | allocaBytes (slot : Option ValueId) (n : ℕ)
  | other (kind : OtherKind)
  deriving DecidableEq, Repr

/-- What the instructions mean: the operands' constants, the kinds without effects, the
branch on a condition, and the actions, which may trap. -/
structure Interp (V World : Type) where
  constI64 : BitVec 64 → V
  constI32 : BitVec 32 → V
  constF64 : BitVec 64 → V
  constBool : Bool → V
  constPtrNull : V
  binOp : BinOp → V → V → V
  iCmp : IPred → V → V → V
  fCmp : FPred → V → V → V
  unary : UnOp → V → V
  addr : AddrKind → V
  copy : SsaType → V → V
  select : SsaType → V → V → V → V
  truth : V → Bool
  act : Action → List V → World → Option (V × World)

variable {V World : Type}

/-- What an operand holds. -/
def Operand.eval (I : Interp V World) (ρ : ValueId → V) : Operand → V
  | .value v => ρ v
  | .constI64 c => I.constI64 c
  | .constI32 c => I.constI32 c
  | .constF64 bits => I.constF64 bits
  | .constBool b => I.constBool b
  | .constPtrNull => I.constPtrNull

/-- What an instruction without effects computes. -/
def InstKind.pureValue (I : Interp V World) (ρ : ValueId → V) : InstKind → Option V
  | .binOp op a b => some (I.binOp op (a.eval I ρ) (b.eval I ρ))
  | .iCmp p a b => some (I.iCmp p (a.eval I ρ) (b.eval I ρ))
  | .fCmp p a b => some (I.fCmp p (a.eval I ρ) (b.eval I ρ))
  | .unary op a => some (I.unary op (a.eval I ρ))
  | .addr a => some (I.addr a)
  | .copy ty a => some (I.copy ty (a.eval I ρ))
  | .select ty c t e => some (I.select ty (c.eval I ρ) (t.eval I ρ) (e.eval I ρ))
  | .alloca _ | .allocaBytes _ | .load _ _ _ | .store _ _ _ | .other _ _ => none

/-- A store is four bytes wide when its value is an `I32`. -/
def isI32 (values : List SsaType) : Operand → Bool
  | .value v => values[v]? = some .i32
  | .constI32 _ => true
  | _ => false

/-- The action of an instruction with effects. -/
def Inst.action? (values : List SsaType) (inst : Inst) : Option Action :=
  match inst.kind with
  | .alloca ty => some (.alloca inst.result ty)
  | .allocaBytes n => some (.allocaBytes inst.result n)
  | .load ty _ off => some (.load ty off)
  | .store val _ off => some (.store (isI32 values val) off)
  | .other kind _ => some (.other kind)
  | _ => none

/-- The value and the world an instruction leaves; nothing where it traps. -/
def Inst.run (I : Interp V World) (values : List SsaType) (ρ : ValueId → V) (w : World)
    (inst : Inst) : Option (V × World) :=
  match inst.kind.pureValue I ρ with
  | some v => some (v, w)
  | none => (inst.action? values).bind fun a => I.act a (inst.kind.operands.map (·.eval I ρ)) w

/-- The registers behind an instruction. -/
def Inst.write (inst : Inst) (ρ : ValueId → V) (v : V) : ValueId → V :=
  match inst.result with
  | some r => Function.update ρ r v
  | none => ρ

/-! ### Runs -/

/-- Where control is: before an instruction or a terminator, back at the caller, or
stopped by a trap. -/
inductive Control (V : Type) where
  | point (b k : ℕ)
  | returned (v : Option V)
  | stopped

/-- A state of a run. -/
structure Config (V World : Type) where
  control : Control V
  regs : ValueId → V
  world : World

/-- How a run stands. -/
inductive Outcome (V : Type) where
  | running
  | returned (v : Option V)
  | stopped

/-- How control stands. -/
def Control.outcome : Control V → Outcome V
  | .point _ _ => .running
  | .returned v => .returned v
  | .stopped => .stopped

/-- What is seen of a state: the world, and the result if there is one. -/
def obs (c : Config V World) : World × Outcome V := (c.world, c.control.outcome)

/-- Where a terminator leads. -/
def Terminator.target (I : Interp V World) (ρ : ValueId → V) : Terminator → Control V
  | .br b => .point b 0
  | .condBr cond thenBlk elseBlk =>
    .point (if I.truth (cond.eval I ρ) then thenBlk else elseBlk) 0
  | .ret op => .returned (op.map (·.eval I ρ))
  | .unreachable => .stopped

/-- One step inside a block. -/
def Block.next (I : Interp V World) (values : List SsaType) (blk : Block) (b k : ℕ)
    (ρ : ValueId → V) (w : World) : Config V World :=
  match blk.insts[k]? with
  | some inst =>
    match inst.run I values ρ w with
    | some (v, w') => ⟨.point b (k + 1), inst.write ρ v, w'⟩
    | none => ⟨.stopped, ρ, w⟩
  | none => ⟨blk.term.target I ρ, ρ, w⟩

/-- One step of a run; none behind its end. -/
def Func.next (f : Func) (I : Interp V World) (c : Config V World) : Option (Config V World) :=
  match c.control with
  | .point b k => (f.blocks[b]?).map fun blk => blk.next I f.values b k c.regs c.world
  | .returned _ | .stopped => none

/-- A run starts at the entry block. -/
def start (ρ : ValueId → V) (w : World) : Config V World := ⟨.point 0 0, ρ, w⟩

/-- **The functions have the same behaviour**: for every register file, the parameters'
registers among them, and every world. -/
def Equivalent (I : Interp V World) (f g : Func) : Prop :=
  ∀ ρ w o, (Visits (f.next I) obs (start ρ w) o ↔ Visits (g.next I) obs (start ρ w) o) ∧
    (Halts (f.next I) obs (start ρ w) o ↔ Halts (g.next I) obs (start ρ w) o)

lemma Equivalent.refl (I : Interp V World) (f : Func) : Equivalent I f f :=
  fun _ _ _ => ⟨Iff.rfl, Iff.rfl⟩

lemma Equivalent.trans {I : Interp V World} {f g h : Func} (hfg : Equivalent I f g)
    (hgh : Equivalent I g h) : Equivalent I f h :=
  fun ρ w o => ⟨(hfg ρ w o).1.trans (hgh ρ w o).1, (hfg ρ w o).2.trans (hgh ρ w o).2⟩

/-- Functions whose entries a simulation relates are equivalent. -/
lemma equivalent_of_simulates {I : Interp V World} {f g : Func}
    {R : Config V World → Config V World → Prop}
    (hsim : Simulates (f.next I) obs (g.next I) obs R) (hstart : ∀ ρ w, R (start ρ w) (start ρ w)) :
    Equivalent I f g :=
  fun ρ w o => ⟨hsim.visits_iff (hstart ρ w) o, hsim.halts_iff (hstart ρ w) o⟩

/-! ### Registers that are read -/

variable {I : Interp V World} {f : Func}

lemma Operand.eval_congr {ρ ρ' : ValueId → V} {a : Operand}
    (h : ∀ v, a.value? = some v → ρ v = ρ' v) : a.eval I ρ = a.eval I ρ' := by
  cases a with
  | value v => exact h v rfl
  | _ => rfl

/-- An operand of the instruction is among the values it reads. -/
lemma mem_visitValueOperands {kind : InstKind} {a : Operand} {v : ValueId}
    (ha : a ∈ kind.operands) (hv : a.value? = some v) : v ∈ visitValueOperands kind :=
  List.mem_filterMap.mpr ⟨a, ha, hv⟩

lemma InstKind.pureValue_congr {ρ ρ' : ValueId → V} {kind : InstKind}
    (h : ∀ v ∈ visitValueOperands kind, ρ v = ρ' v) :
    kind.pureValue I ρ = kind.pureValue I ρ' := by
  have heval : ∀ a ∈ kind.operands, a.eval I ρ = a.eval I ρ' := fun a ha =>
    Operand.eval_congr fun v hv => h v (mem_visitValueOperands ha hv)
  cases kind <;> simp_all [InstKind.pureValue, InstKind.operands]

/-- What an instruction does depends on the values it reads. -/
lemma Inst.run_congr {values : List SsaType} {ρ ρ' : ValueId → V} {w : World} {inst : Inst}
    (h : ∀ v ∈ visitValueOperands inst.kind, ρ v = ρ' v) :
    inst.run I values ρ w = inst.run I values ρ' w := by
  have hargs : inst.kind.operands.map (·.eval I ρ) = inst.kind.operands.map (·.eval I ρ') :=
    List.map_congr_left fun a ha =>
      Operand.eval_congr fun v hv => h v (mem_visitValueOperands ha hv)
  rw [Inst.run, Inst.run, InstKind.pureValue_congr h, hargs]

lemma isI32_of_values {values values' : List SsaType} (hp : values <+: values') {a : Operand}
    (h : ∀ v, a.value? = some v → v < values.length) : isI32 values a = isI32 values' a := by
  cases a with
  | value v =>
    obtain ⟨rest, rfl⟩ := hp
    rw [isI32, isI32, List.getElem?_append_left (h v rfl)]
  | _ => rfl

/-- A longer value table says the same of the values an instruction reads. -/
lemma Inst.run_of_values {values values' : List SsaType} (hp : values <+: values')
    {ρ : ValueId → V} {w : World} {inst : Inst}
    (h : ∀ v ∈ visitValueOperands inst.kind, v < values.length) :
    inst.run I values ρ w = inst.run I values' ρ w := by
  have haction : inst.action? values = inst.action? values' := by
    rw [Inst.action?, Inst.action?]
    split
    case h_4 val ptr off hkind =>
      rw [isI32_of_values hp fun v hv => h v ?_]
      rw [hkind]
      have hval : val ∈ (InstKind.store val ptr off).operands := List.mem_cons_self
      exact mem_visitValueOperands hval hv
    all_goals rfl
  rw [Inst.run, Inst.run, haction]

/-- An instruction without effects leaves the world. -/
lemma Inst.run_of_pureValue {values : List SsaType} {ρ : ValueId → V} {w : World} {inst : Inst}
    {x : V} (h : inst.kind.pureValue I ρ = some x) : inst.run I values ρ w = some (x, w) := by
  rw [Inst.run, h]

/-- Where a terminator leads depends on the value it reads. -/
lemma Terminator.target_congr {ρ ρ' : ValueId → V} {term : Terminator}
    (h : ∀ v ∈ visitTerminatorValues term, ρ v = ρ' v) :
    term.target I ρ = term.target I ρ' := by
  cases term with
  | br b => rfl
  | unreachable => rfl
  | condBr cond t e =>
    have heval : cond.eval I ρ = cond.eval I ρ' :=
      Operand.eval_congr fun v hv => h v (by rw [visitTerminatorValues, hv]; exact List.mem_singleton_self v)
    rw [Terminator.target, Terminator.target, heval]
  | ret op =>
    cases op with
    | none => rfl
    | some a =>
      have heval : a.eval I ρ = a.eval I ρ' :=
        Operand.eval_congr fun v hv => h v (by rw [visitTerminatorValues, hv]; exact List.mem_singleton_self v)
      rw [Terminator.target, Terminator.target, Option.map_some, Option.map_some, heval]

lemma Inst.write_ne {inst : Inst} {v : ValueId} (h : inst.result ≠ some v) (ρ : ValueId → V)
    (x : V) : inst.write ρ x v = ρ v := by
  cases hr : inst.result with
  | none => rw [Inst.write, hr]
  | some r =>
    rw [Inst.write, hr]
    exact Function.update_of_ne (fun heq => h (hr.trans (congrArg some heq.symm))) _ _

lemma Inst.write_self {inst : Inst} {v : ValueId} (h : inst.result = some v) (ρ : ValueId → V)
    (x : V) : inst.write ρ x v = x := by
  rw [Inst.write, h]
  exact Function.update_self _ _ _

/-- Behind the same instruction the registers agree where they did, and on its result. -/
lemma Inst.write_congr {inst : Inst} {ρ ρ' : ValueId → V} {v : ValueId}
    (h : inst.result ≠ some v → ρ v = ρ' v) (x : V) : inst.write ρ x v = inst.write ρ' x v := by
  by_cases hv : inst.result = some v
  · rw [Inst.write_self hv, Inst.write_self hv]
  · rw [Inst.write_ne hv, Inst.write_ne hv, h hv]

/-! ### Steps -/

lemma Func.next_point {b k : ℕ} {ρ : ValueId → V} {w : World} {blk : Block}
    (hblk : f.BlockAt b blk) :
    f.next I ⟨.point b k, ρ, w⟩ = some (blk.next I f.values b k ρ w) := by
  change (f.blocks[b]?).map _ = _
  exact congrArg (Option.map _) hblk

lemma Block.next_inst {values : List SsaType} {blk : Block} {b k : ℕ} {ρ : ValueId → V} {w : World}
    {inst : Inst} (hinst : blk.insts[k]? = some inst) {v : V} {w' : World}
    (hrun : inst.run I values ρ w = some (v, w')) :
    blk.next I values b k ρ w = ⟨.point b (k + 1), inst.write ρ v, w'⟩ := by
  rw [Block.next, hinst]
  dsimp only
  rw [hrun]

lemma Block.next_trap {values : List SsaType} {blk : Block} {b k : ℕ} {ρ : ValueId → V} {w : World}
    {inst : Inst} (hinst : blk.insts[k]? = some inst) (hrun : inst.run I values ρ w = none) :
    blk.next I values b k ρ w = ⟨.stopped, ρ, w⟩ := by
  rw [Block.next, hinst]
  dsimp only
  rw [hrun]

lemma Block.next_term {values : List SsaType} {blk : Block} {b k : ℕ} {ρ : ValueId → V} {w : World}
    (hk : blk.insts[k]? = none) : blk.next I values b k ρ w = ⟨blk.term.target I ρ, ρ, w⟩ := by
  rw [Block.next, hk]

/-! ### Runs inside a block -/

/-- Control is at a block's start. -/
def Control.isStart {V : Type} (e : BlockId) : Control V → Bool
  | .point b k => b = e && k = 0
  | .returned _ | .stopped => false

/-- What is seen of a state, and whether it is at a block's start. -/
def obsAt {V World : Type} (e : BlockId) (s : Config V World) : (World × Outcome V) × Bool :=
  (obs s, s.control.isStart e)

/-- A step inside a block is silent. -/
lemma obsAt_point {V World : Type} {e b k b' k' : ℕ} {ρ ρ' : ValueId → V} {w : World} (hb : b ≠ e)
    (hb' : b' ≠ e) : obsAt e ⟨.point b k, ρ, w⟩ = obsAt e ⟨.point b' k', ρ', w⟩ := by
  simp [obsAt, obs, Control.isStart, Control.outcome, hb, hb']

/-- The registers behind instructions without effects; nothing where one has an effect. -/
def runPure (I : Interp V World) : List Inst → (ValueId → V) → Option (ValueId → V)
  | [], ρ => some ρ
  | inst :: insts, ρ => (inst.kind.pureValue I ρ).bind fun x => runPure I insts (inst.write ρ x)

/-- **A block without effects runs silently.** -/
lemma silent_of_runPure {b e : BlockId} {blk : Block} (hblk : f.BlockAt b blk) (hb : b ≠ e)
    {ρ ρ' : ValueId → V} (hrun : runPure I blk.insts ρ = some ρ') (w : World) :
    Silent (f.next I) (obsAt e) ⟨.point b 0, ρ, w⟩ ⟨.point b blk.insts.length, ρ', w⟩ := by
  have hfrom : ∀ (insts : List Inst) (k : ℕ) (ρ : ValueId → V), blk.insts.drop k = insts →
      runPure I insts ρ = some ρ' → k ≤ blk.insts.length →
      Silent (f.next I) (obsAt e) ⟨.point b k, ρ, w⟩ ⟨.point b blk.insts.length, ρ', w⟩ := by
    intro insts
    induction insts with
    | nil =>
      intro k ρ hdrop hrun hk
      obtain rfl : k = blk.insts.length := by
        have := List.drop_eq_nil_iff.mp hdrop
        omega
      obtain rfl := Option.some.inj hrun
      exact Silent.refl _
    | cons inst insts ih =>
      intro k ρ hdrop hrun hk
      have hinst : blk.insts[k]? = some inst := by
        rw [← List.head?_drop, hdrop]
        rfl
      obtain ⟨x, hx, hrest⟩ := Option.bind_eq_some_iff.mp hrun
      have hstep := Func.next_point (I := I) (k := k) (ρ := ρ) (w := w) hblk
      rw [Block.next_inst hinst (Inst.run_of_pureValue hx)] at hstep
      refine Silent.cons hstep (obsAt_point hb hb) (ih (k + 1) _ ?_ hrest ?_)
      · rw [← List.tail_drop, hdrop]
        rfl
      · exact (List.getElem?_eq_some_iff.mp hinst).1
  exact hfrom blk.insts 0 ρ rfl hrun (Nat.zero_le _)

/-- The run gets to a block's start, the first time after it set out. -/
def FirstReaches (f : Func) (I : Interp V World) (e : BlockId) (s s' : Config V World) : Prop :=
  s'.control = .point e 0 ∧ ∃ n, iter (f.next I) (n + 1) s = some s' ∧
    ∀ k ≤ n, ∀ u, iter (f.next I) k s = some u → u.control ≠ .point e 0

lemma firstReaches_of_segment {e b : BlockId} (hb : b ≠ e) {ρ ρ' : ValueId → V} {w w' : World}
    (h : Segment (f.next I) (obsAt e) ⟨.point b 0, ρ, w⟩ ⟨.point e 0, ρ', w'⟩) :
    FirstReaches f I e ⟨.point b 0, ρ, w⟩ ⟨.point e 0, ρ', w'⟩ := by
  obtain ⟨n, hn, hsilent⟩ := h
  refine ⟨rfl, n, hn, fun k hk u hu hat => ?_⟩
  have hobs := congrArg Prod.snd (hsilent k hk u hu)
  rw [obsAt, obsAt, hat] at hobs
  simp [Control.isStart, hb] at hobs

/-! ### Live values -/

/-- **Path liveness**: some path from the point reads the value before it is defined
again. -/
inductive Func.LiveAt (f : Func) (v : ValueId) : BlockId → ℕ → Prop
  | use {b k : ℕ} {blk : Block} : f.BlockAt b blk → v ∈ blk.readsAt k → Func.LiveAt f v b k
  | next {b k : ℕ} {blk : Block} {inst : Inst} : f.BlockAt b blk → blk.insts[k]? = some inst →
      inst.result ≠ some v → Func.LiveAt f v b (k + 1) → Func.LiveAt f v b k
  | branch {b t : ℕ} {blk : Block} : f.BlockAt b blk → t ∈ successors blk.term →
      Func.LiveAt f v t 0 → Func.LiveAt f v b blk.insts.length

/-- A live value has an entry in the value table. -/
lemma Func.LiveAt.lt (hwf : f.WellFormed) {v b k : ℕ} (h : f.LiveAt v b k) :
    v < f.values.length := by
  induction h with
  | use hblk hv => exact hwf.read_lt _ _ hblk _ v hv
  | next _ _ _ _ ih => exact ih
  | branch _ _ _ ih => exact ih

/-- A value that only one block reads, the one of its one definition, is live behind that
definition only. -/
lemma Func.LiveAt.behind (hwf : f.WellFormed) {v B j : ℕ} {blk : Block} {inst : Inst}
    (hdef : f.OnlyDef v B j) (hblk : f.BlockAt B blk) (hj : blk.insts[j]? = some inst)
    (hres : inst.result = some v) {defs : List ValueId} (hwalk : f.Walk B 0 defs)
    (hread : ∀ b blk k, f.BlockAt b blk → v ∈ blk.readsAt k → b = B) {b k : ℕ}
    (h : f.LiveAt v b k) : b = B ∧ j < k := by
  induction h with
  | @use b k blk' hblk' hv =>
    obtain rfl := hread b blk' k hblk' hv
    obtain rfl := hblk'.unique hblk
    have hle : k ≤ blk'.insts.length := by
      by_contra hlt
      rw [Block.readsAt, List.getElem?_eq_none (by omega), if_neg (by omega)] at hv
      cases hv
    obtain ⟨_, hwalk'⟩ := hwalk.within hblk k hle
    exact ⟨rfl, hwf.lt_of_read hdef hwalk' hblk hv⟩
  | @next b k blk' inst' hblk' hinst hne _ ih =>
    obtain ⟨rfl, hlt⟩ := ih
    refine ⟨rfl, lt_of_le_of_ne (Nat.le_of_lt_succ hlt) ?_⟩
    rintro rfl
    obtain rfl := hblk'.unique hblk
    exact hne (Option.some.inj (hinst.symm.trans hj) ▸ hres)
  | branch _ _ _ ih => exact absurd ih.2 (Nat.not_lt_zero j)

/-- Where a terminator leads: to one of its blocks, to the caller, or nowhere. -/
lemma Terminator.target_cases (I : Interp V World) (ρ : ValueId → V) (term : Terminator) :
    (∃ t ∈ successors term, term.target I ρ = .point t 0) ∨
      (∃ v, term.target I ρ = .returned v) ∨ term.target I ρ = .stopped := by
  cases term with
  | br b => exact Or.inl ⟨b, List.mem_singleton_self b, rfl⟩
  | unreachable => exact Or.inr (Or.inr rfl)
  | ret op => exact Or.inr (Or.inl ⟨_, rfl⟩)
  | condBr cond t e =>
    refine Or.inl ⟨if I.truth (cond.eval I ρ) then t else e, ?_, rfl⟩
    split <;> simp [successors]

/-- **One step inside a block that two functions share**, on registers that agree where the
value is live: control goes the same way, and the registers agree there again. -/
lemma live_step {f g : Func} (hwf : f.WellFormed) {b k : ℕ} {blk : Block} (hblk : f.BlockAt b blk)
    (hblk' : g.BlockAt b blk) (hvalues : f.values <+: g.values) (hk : k ≤ blk.insts.length)
    {ρ ρ' : ValueId → V} {w : World} (hagree : ∀ v, f.LiveAt v b k → ρ v = ρ' v) :
    ∃ ctl ρ₁ ρ₁' w₁, f.next I ⟨.point b k, ρ, w⟩ = some ⟨ctl, ρ₁, w₁⟩ ∧
      g.next I ⟨.point b k, ρ', w⟩ = some ⟨ctl, ρ₁', w₁⟩ ∧
      ((ctl = .point b (k + 1) ∧ k < blk.insts.length) ∨
        (∃ t ∈ successors blk.term, ctl = .point t 0) ∨ ∀ b' k', ctl ≠ .point b' k') ∧
      ∀ b' k', ctl = .point b' k' → ∀ v, f.LiveAt v b' k' → ρ₁ v = ρ₁' v := by
  have hread : ∀ v ∈ blk.readsAt k, ρ v = ρ' v := fun v hv => hagree v (.use hblk hv)
  rw [Func.next_point hblk, Func.next_point hblk']
  rcases Nat.lt_or_eq_of_le hk with hlt | rfl
  · have hinst : blk.insts[k]? = some blk.insts[k] := List.getElem?_eq_getElem hlt
    rw [Block.readsAt_inst hinst] at hread
    have hrun : blk.insts[k].run I f.values ρ w = blk.insts[k].run I g.values ρ' w := by
      rw [Inst.run_congr hread]
      refine Inst.run_of_values hvalues fun v hv => hwf.read_lt b blk hblk k v ?_
      rwa [Block.readsAt_inst hinst]
    cases hres : blk.insts[k].run I f.values ρ w with
    | none =>
      rw [Block.next_trap hinst hres, Block.next_trap hinst (hrun ▸ hres)]
      exact ⟨_, _, _, _, rfl, rfl, Or.inr (Or.inr nofun), nofun⟩
    | some r =>
      obtain ⟨x, w₁⟩ := r
      rw [Block.next_inst hinst hres, Block.next_inst hinst (hrun ▸ hres)]
      refine ⟨_, _, _, _, rfl, rfl, Or.inl ⟨rfl, hlt⟩, ?_⟩
      rintro b' k' ⟨⟩ v hv
      exact Inst.write_congr (fun hne => hagree v (.next hblk hinst hne hv)) x
  · rw [Block.readsAt_term] at hread
    have hend : blk.insts[blk.insts.length]? = none := List.getElem?_eq_none le_rfl
    rw [Block.next_term hend, Block.next_term hend, Terminator.target_congr hread]
    refine ⟨_, _, _, _, rfl, rfl, ?_, ?_⟩
    · rcases Terminator.target_cases I ρ' blk.term with ⟨t, ht, heq⟩ | ⟨v, heq⟩ | heq
      · exact Or.inr (Or.inl ⟨t, ht, heq⟩)
      · exact Or.inr (Or.inr fun b' k' h => nomatch heq.symm.trans h)
      · exact Or.inr (Or.inr fun b' k' h => nomatch heq.symm.trans h)
    · intro b' k' htarget v hv
      rcases Terminator.target_cases I ρ' blk.term with ⟨t, ht, heq⟩ | ⟨v, heq⟩ | heq
      · obtain ⟨rfl, rfl⟩ := Control.point.inj (heq.symm.trans htarget)
        exact hagree v (.branch hblk ht hv)
      · exact nomatch heq.symm.trans htarget
      · exact nomatch heq.symm.trans htarget

/-! ### Words -/

/-- What the words leave open: the float unit, the addresses, and the actions. -/
structure External (World : Type) where
  fBin : BinOp → Word → Word → Word
  fCmp : FPred → Word → Word → Bool
  convert : UnOp → Word → Word
  addr : AddrKind → Word
  act : Action → List Word → World → Option (Word × World)

/-- The conditions `CMP` leaves for `CSET`. -/
def IPred.holds (p : IPred) (x y : Word) : Bool :=
  match p with
  | .eq => x = y
  | .ne => x ≠ y
  | .slt => x.toInt < y.toInt
  | .sgt => y.toInt < x.toInt
  | .sle => x.toInt ≤ y.toInt
  | .sge => y.toInt ≤ x.toInt
  | .ult => x.toNat < y.toNat
  | .uge => y.toNat ≤ x.toNat

/-- The word of a truth value. -/
def wordOfBool (b : Bool) : Word := if b then 1 else 0

/-- The one-operand kinds on words. -/
def UnOp.word (ext : External World) (op : UnOp) (x : Word) : Word :=
  match op with
  | .siToFp | .fpToSi | .fpToInt32 => ext.convert op x
  | .bitCastF64ToI64 | .bitCastI64ToF64 | .intToPtr | .ptrToInt | .identity => x
  | .zExtBoolToI64 | .truncI64ToBool => x &&& 1
  | .zExtI32ToI64 => x &&& 0xFFFFFFFF
  | .neg => -x
  | .ctpop => BitVec.ofNat 64 (popCount x)
  | .cttz => BitVec.ofNat 64 (trailingZeros x)

/-- The interpretation by words: the integer instructions as the machine computes them. -/
def wordInterp (ext : External World) : Interp Word World where
  constI64 c := c
  constI32 c := c.signExtend 64
  constF64 bits := bits
  constBool b := wordOfBool b
  constPtrNull := 0
  binOp op x y := ((gprBinOp op).map fun g => g x y).getD (ext.fBin op x y)
  iCmp p x y := wordOfBool (p.holds x y)
  fCmp p x y := wordOfBool (ext.fCmp p x y)
  unary op x := op.word ext x
  addr := ext.addr
  copy _ x := x
  select _ c t e := if c ≠ 0 then t else e
  truth x := x ≠ 0
  act := ext.act

end Torajs.Egraph
