import Mathlib.Data.List.Nodup
import ToraJs.Ssa
import ToraJs.Lib.ParallelCopy
import ToraJs.Codegen.Operand

/-!
# Passing call arguments

`compile/call_args.rs`: the stack lanes of a call first, then its register lanes as one
parallel copy.  The register lanes instantiate the loop of `Lib/ParallelCopy`.  The result
`passArgs_spec` says that the emitted instructions leave in every lane the value that the
operand had before them, converted when the lane has the other class.
-/

namespace Torajs.Codegen

open ParallelCopy (Move)

/-! ### Lanes -/

/-- `linear_scan_lanes::ArgLane`: an argument register, or a stack slot index. -/
inductive ArgLane where
  | reg (r : Reg)
  | stack (j : ℕ)
  deriving DecidableEq, Repr

/-- `classify_lanes`, with its three counters. -/
def classifyLanesFrom : (gprIdx fprIdx stackSlot : ℕ) → List Bool → List ArgLane
  | _, _, _, [] => []
  | g, f, j, true :: rest =>
    match fpArgRet[f]? with
    | none => .stack j :: classifyLanesFrom g f (j + 1) rest
    | some r => .reg (.fpr r) :: classifyLanesFrom g (f + 1) j rest
  | g, f, j, false :: rest =>
    match argRet[g]? with
    | none => .stack j :: classifyLanesFrom g f (j + 1) rest
    | some r => .reg (.gpr r) :: classifyLanesFrom (g + 1) f j rest

/-- `classify_lanes`. -/
def classifyLanes (isFp : List Bool) : List ArgLane := classifyLanesFrom 0 0 0 isFp

/-- `expected_f64`. -/
def expectedF64 (i : ℕ) (arg : Operand) (alloc : Assignment) (paramTypes : Option (List SsaType)) :
    Option Bool :=
  match paramTypes.bind (·[i]?) with
  | some ty => some (ty = .f64)
  | none => operandIsF64 arg alloc

/-- The arguments with their expected classes and lanes: `arg_lanes`, zipped with the
arguments as `pass_args` walks them. -/
def argLanes (args : List Operand) (alloc : Assignment) (paramTypes : Option (List SsaType)) :
    Option (List (Operand × Bool × ArgLane)) := do
  let isFp ← args.zipIdx.mapM fun p => expectedF64 p.2 p.1 alloc paramTypes
  return args.zip (isFp.zip (classifyLanes isFp))

/-! ### Emission -/

/-- An argument's value in a float register, converted when it is an integer. -/
def stackSourceFpr (arg : Operand) (alloc : Assignment) : Option (List Inst × Fpr) := do
  let actualIsF64 ← operandIsF64 arg alloc
  if actualIsF64 then materializeOperandFpr arg fpScratchLhs opScratchLhs alloc
  else do
    let (code, g) ← materializeOperandGpr arg opScratchLhs alloc
    return (code ++ [.scvtfDX fpScratchLhs g], fpScratchLhs)

/-- An argument's value in a general register, converted when it is a double. -/
def stackSourceGpr (arg : Operand) (alloc : Assignment) : Option (List Inst × Gpr) := do
  let actualIsF64 ← operandIsF64 arg alloc
  if actualIsF64 then do
    let (code, f) ← materializeOperandFpr arg fpScratchLhs opScratchLhs alloc
    return (code ++ [.fcvtzsXD opScratchLhs f], opScratchLhs)
  else materializeOperandGpr arg opScratchLhs alloc

/-- The body of the loop over the stack lanes. -/
def emitStackLane (arg : Operand) (expected : Bool) (j : ℕ) (alloc : Assignment) :
    Option (List Inst) :=
  if expected then do
    let (code, src) ← stackSourceFpr arg alloc
    let store ← spStrD src (j * 8)
    return code ++ store
  else do
    let (code, src) ← stackSourceGpr arg alloc
    let store ← spStrX src (j * 8)
    return code ++ store

/-- The loop over the stack lanes. -/
def emitStackLanes (alloc : Assignment) : List (Operand × Bool × ArgLane) → Option (List Inst)
  | [] => some []
  | (arg, expected, .stack j) :: rest => do
    let code ← emitStackLane arg expected j alloc
    let codes ← emitStackLanes alloc rest
    return code ++ codes
  | (_, _, .reg _) :: rest => emitStackLanes alloc rest

/-- The pending register-lane moves. -/
def laneMoves (alloc : Assignment) (lanes : List (Operand × Bool × ArgLane)) :
    List (Move Reg Operand) :=
  lanes.filterMap fun
    | (arg, _, .reg dst) => some ⟨dst, registerHome arg alloc, arg⟩
    | (_, _, .stack _) => none

/-- `emit_reg_copy`. -/
def emitRegCopy (dst src : Reg) : Option (List Inst) :=
  match dst, src with
  | .gpr d, .gpr s => some [.movXReg d s]
  | .fpr d, .fpr s => some [.movDReg d s]
  | _, _ => none

/-- `emit_lane_move`. -/
def emitLaneMove (alloc : Assignment) (m : Move Reg Operand) : Option (List Inst) :=
  match m.dst, m.src with
  | .gpr d, some (.gpr s) => some (if d ≠ s then [.movXReg d s] else [])
  | .fpr d, some (.fpr s) => some (if d ≠ s then [.movDReg d s] else [])
  | .gpr d, some (.fpr s) => some [.fcvtzsXD d s]
  | .fpr d, some (.gpr s) => some [.scvtfDX d s]
  | .gpr d, none => do
    let isF64 ← operandIsF64 m.arg alloc
    if isF64 then do
      let (code, f) ← materializeOperandFpr m.arg fpScratchLhs opScratchLhs alloc
      return code ++ [.fcvtzsXD d f]
    else do
      let (code, g) ← materializeOperandGpr m.arg d alloc
      return code ++ if g ≠ d then [.movXReg d g] else []
  | .fpr d, none => do
    let isF64 ← operandIsF64 m.arg alloc
    if isF64 then do
      let (code, f) ← materializeOperandFpr m.arg d opScratchLhs alloc
      return code ++ if f ≠ d then [.movDReg d f] else []
    else do
      let (code, g) ← materializeOperandGpr m.arg opScratchLhs alloc
      return code ++ [.scvtfDX d g]
  | _, _ => none

/-- The copy that breaks a cycle: the scratch register of the destination's class. -/
def parkLane (parked : Reg) : Option (Reg × List Inst) :=
  let scratch := match parked with
    | .gpr _ => Reg.gpr opScratchTmp
    | _ => Reg.fpr fpScratchRhs
  (emitRegCopy scratch parked).map (scratch, ·)

/-- `pass_args`. -/
def passArgs (args : List Operand) (alloc : Assignment) (paramTypes : Option (List SsaType)) :
    Option (List Inst) := do
  let lanes ← argLanes args alloc paramTypes
  let stack ← emitStackLanes alloc lanes
  let moves := laneMoves alloc lanes
  let regs ← ParallelCopy.sequentialize (emitLaneMove alloc) parkLane (2 * moves.length) moves
  return stack ++ regs

/-! ### What the lanes are to receive -/

/-- The bits that an operand passes in a lane of the given class: its own, or converted
when the operand has the other class. -/
def passedBits (fp : FpUnit) (alloc : Assignment) (s : Cpu) (arg : Operand) (asF64 : Bool) :
    BitVec 64 :=
  match asF64, operandIsF64 arg alloc with
  | true, some false => fp.scvtf (operandBits alloc s arg)
  | false, some true => fp.fcvtzs (operandBits alloc s arg)
  | _, _ => operandBits alloc s arg

lemma passedBits_same (fp : FpUnit) {alloc : Assignment} {arg : Operand} {e : Bool}
    (h : operandIsF64 arg alloc = some e) (s : Cpu) :
    passedBits fp alloc s arg e = operandBits alloc s arg := by
  cases e <;> simp only [passedBits, h]

lemma passedBits_scvtf (fp : FpUnit) {alloc : Assignment} {arg : Operand}
    (h : operandIsF64 arg alloc = some false) (s : Cpu) :
    passedBits fp alloc s arg true = fp.scvtf (operandBits alloc s arg) := by
  simp only [passedBits, h]

lemma passedBits_fcvtzs (fp : FpUnit) {alloc : Assignment} {arg : Operand}
    (h : operandIsF64 arg alloc = some true) (s : Cpu) :
    passedBits fp alloc s arg false = fp.fcvtzs (operandBits alloc s arg) := by
  simp only [passedBits, h]

/-- The contents of a lane. -/
def laneBits (s : Cpu) : ArgLane → BitVec 64
  | .reg r => s.readReg r
  | .stack j => load64 s.mem (s.sp + BitVec.ofNat 64 (j * 8))

/-- The scratch registers of the argument code. -/
def argScratch : Set Reg :=
  {.gpr opScratchLhs, .gpr opScratchTmp, .gpr slotBase, .fpr fpScratchLhs, .fpr fpScratchRhs}

/-- The bytes of the stack lanes of a call. -/
def stackLaneBytes (s : Cpu) (lanes : List (Operand × Bool × ArgLane)) : Set (BitVec 64) :=
  {b | ∃ arg e j, (arg, e, ArgLane.stack j) ∈ lanes ∧ b ∈ bytesAt (s.sp + BitVec.ofNat 64 (j * 8))}

/-- The registers of the register lanes of a call. -/
def laneRegs (lanes : List (Operand × Bool × ArgLane)) : Set Reg :=
  {r | ∃ arg e, (arg, e, ArgLane.reg r) ∈ lanes}

/-! ### Where the lanes are -/

/-- The lanes that `classify_lanes` may still hand out at given counters, for `n` more
arguments. -/
def LaneInRange (g f j n : ℕ) : Bool → ArgLane → Prop
  | false, .reg (.gpr r) => ∃ k, g ≤ k ∧ argRet[k]? = some r
  | true, .reg (.fpr r) => ∃ k, f ≤ k ∧ fpArgRet[k]? = some r
  | _, .stack k => j ≤ k ∧ k + 9 ≤ n + g + f + j
  | _, _ => False

lemma LaneInRange.mono {g f j n g' f' j' n' : ℕ} {e : Bool} {lane : ArgLane}
    (h : LaneInRange g' f' j' n' e lane) (hg : g ≤ g') (hf : f ≤ f') (hj : j ≤ j')
    (hn : n' + g' + f' + j' ≤ n + g + f + j) : LaneInRange g f j n e lane := by
  cases lane with
  | stack k => cases e <;> exact ⟨hj.trans h.1, h.2.trans hn⟩
  | reg r =>
    cases e <;> cases r <;> try exact h
    · exact h.imp fun k hk => ⟨hg.trans hk.1, hk.2⟩
    · exact h.imp fun k hk => ⟨hf.trans hk.1, hk.2⟩

lemma length_classifyLanesFrom (g f j : ℕ) (isFp : List Bool) :
    (classifyLanesFrom g f j isFp).length = isFp.length := by
  induction isFp generalizing g f j with
  | nil => rfl
  | cons e rest ih =>
    cases e with
    | true =>
      rw [classifyLanesFrom]
      split <;> rw [List.length_cons, List.length_cons, ih]
    | false =>
      rw [classifyLanesFrom]
      split <;> rw [List.length_cons, List.length_cons, ih]

/-- One argument takes the next lane of its class, or the next stack slot when the
class is exhausted. -/
lemma classifyLanesFrom_cons (g f j : ℕ) (e : Bool) (rest : List Bool) :
    ∃ lane g' f' j', classifyLanesFrom g f j (e :: rest) = lane :: classifyLanesFrom g' f' j' rest ∧
      g ≤ g' ∧ f ≤ f' ∧ j ≤ j' ∧ g' + f' + j' = g + f + j + 1 ∧
      LaneInRange g f j (rest.length + 1) e lane ∧
      ∀ e' n, ¬ LaneInRange g' f' j' n e' lane := by
  have hgpr : ∀ {a b : ℕ} {r : Gpr}, argRet[a]? = some r → argRet[b]? = some r → a = b :=
    fun ha hb => (List.getElem?_inj (List.getElem?_eq_some_iff.mp ha).1 (by decide)).mp (ha.trans hb.symm)
  have hfpr : ∀ {a b : ℕ} {r : Fpr}, fpArgRet[a]? = some r → fpArgRet[b]? = some r → a = b :=
    fun ha hb => (List.getElem?_inj (List.getElem?_eq_some_iff.mp ha).1 (by decide)).mp (ha.trans hb.symm)
  cases e with
  | true =>
    cases hr : fpArgRet[f]? with
    | none =>
      have hlen : 8 ≤ f := List.getElem?_eq_none_iff.mp hr
      refine ⟨.stack j, g, f, j + 1, by simp only [classifyLanesFrom, hr], le_rfl, le_rfl,
        by omega, by omega, ⟨le_rfl, by omega⟩, fun e' n h => ?_⟩
      have : j + 1 ≤ j := by cases e' <;> exact h.1
      omega
    | some r =>
      refine ⟨.reg (.fpr r), g, f + 1, j, by simp only [classifyLanesFrom, hr], le_rfl, by omega,
        le_rfl, by omega, ⟨f, le_rfl, hr⟩, fun e' n h => ?_⟩
      cases e' with
      | true =>
        obtain ⟨k, hk, hkr⟩ := h
        have := hfpr hr hkr
        omega
      | false => exact h
  | false =>
    cases hr : argRet[g]? with
    | none =>
      have hlen : 8 ≤ g := List.getElem?_eq_none_iff.mp hr
      refine ⟨.stack j, g, f, j + 1, by simp only [classifyLanesFrom, hr], le_rfl, le_rfl,
        by omega, by omega, ⟨le_rfl, by omega⟩, fun e' n h => ?_⟩
      have : j + 1 ≤ j := by cases e' <;> exact h.1
      omega
    | some r =>
      refine ⟨.reg (.gpr r), g + 1, f, j, by simp only [classifyLanesFrom, hr], by omega, le_rfl,
        le_rfl, by omega, ⟨g, le_rfl, hr⟩, fun e' n h => ?_⟩
      cases e' with
      | true => exact h
      | false =>
        obtain ⟨k, hk, hkr⟩ := h
        have := hgpr hr hkr
        omega

lemma laneInRange_of_mem {isFp : List Bool} : ∀ {g f j : ℕ} {p : Bool × ArgLane},
    p ∈ isFp.zip (classifyLanesFrom g f j isFp) → LaneInRange g f j isFp.length p.1 p.2 := by
  induction isFp with
  | nil => simp
  | cons e rest ih =>
    intro g f j p hp
    obtain ⟨lane, g', f', j', heq, hg, hf, hj, hsum, hlane, _⟩ := classifyLanesFrom_cons g f j e rest
    rw [heq, List.zip_cons_cons, List.mem_cons] at hp
    rcases hp with rfl | hp
    · exact hlane
    · exact (ih hp).mono hg hf hj (by rw [List.length_cons]; omega)

/-- No lane is handed out twice. -/
lemma nodup_classifyLanesFrom (g f j : ℕ) (isFp : List Bool) :
    (classifyLanesFrom g f j isFp).Nodup := by
  induction isFp generalizing g f j with
  | nil => exact List.nodup_nil
  | cons e rest ih =>
    obtain ⟨lane, g', f', j', heq, _, _, _, _, _, hfresh⟩ := classifyLanesFrom_cons g f j e rest
    rw [heq, List.nodup_cons]
    refine ⟨fun hmem => ?_, ih _ _ _⟩
    have hsnd : (rest.zip (classifyLanesFrom g' f' j' rest)).map Prod.snd =
        classifyLanesFrom g' f' j' rest :=
      List.map_snd_zip (length_classifyLanesFrom g' f' j' rest).le
    rw [← hsnd, List.mem_map] at hmem
    obtain ⟨p, hp, rfl⟩ := hmem
    exact hfresh _ _ (laneInRange_of_mem hp)

/-! ### Stack lanes -/

section Passing

variable (fp : FpUnit) {alloc : Assignment} {outgoing : ℕ}

/-- The scratch registers that placing one argument uses. -/
def placeScratch : Set Reg := {.fpr fpScratchLhs, .gpr opScratchLhs, .gpr slotBase}

/-- The bytes at the bottom of the frame that belong to stack lanes. -/
def outgoingArea (s : Cpu) (outgoing : ℕ) : Set (BitVec 64) :=
  {b | ∃ j, 8 * (j + 1) ≤ outgoing ∧ b ∈ bytesAt (s.sp + BitVec.ofNat 64 (j * 8))}

/-- The allocator homed the operand. -/
def Allocated (alloc : Assignment) (arg : Operand) : Prop :=
  ∀ v, arg = .value v → (alloc.byValue v).isSome

lemma exists_operandIsF64 {arg : Operand} (h : Allocated alloc arg) :
    ∃ actual, operandIsF64 arg alloc = some actual := by
  cases arg with
  | value v =>
    obtain ⟨r, hr⟩ := Option.isSome_iff_exists.mp (h v rfl)
    cases r <;> exact ⟨_, by simp only [operandIsF64, hr]; rfl⟩
  | _ => exact ⟨_, rfl⟩

lemma registerHome_isHome (hwf : alloc.WellFormed outgoing) {arg : Operand} {r : Reg}
    (h : registerHome arg alloc = some r) : r.IsHome := by
  cases arg with
  | value v =>
    simp only [registerHome] at h
    cases hv : alloc.byValue v with
    | none => simp [hv] at h
    | some r' =>
      have hr' := hwf.home v r' hv
      cases r' <;> simp only [hv, Option.some.injEq, reduceCtorEq] at h
      · exact h ▸ hr'
      · exact h ▸ hr'
  | _ => simp [registerHome] at h

/-- A home is none of the scratch registers. -/
lemma Reg.IsHome.notMem_argScratch {r : Reg} (h : r.IsHome) : r ∉ argScratch := by
  rintro (rfl | rfl | rfl | rfl | rfl)
  · exact h.ne_scratch.1 rfl
  · exact h.ne_scratch.2.1 rfl
  · exact h.ne_scratch.2.2 rfl
  · exact h.fpr_ne_scratch.1 rfl
  · exact h.fpr_ne_scratch.2 rfl

lemma placeScratch_subset : placeScratch ⊆ argScratch := by
  rintro r (rfl | rfl | rfl) <;> simp [argScratch]

/-- Writing scratch registers and stack lanes changes no operand. -/
lemma operandBits_of_keeps_scratch (hwf : alloc.WellFormed outgoing) {X : Set Reg}
    {M : Set (BitVec 64)} {s t : Cpu} (h : Cpu.Keeps X M s t) (hX : X ⊆ argScratch)
    (hM : M ⊆ outgoingArea s outgoing) (arg : Operand) :
    operandBits alloc t arg = operandBits alloc s arg := by
  refine operandBits_of_keeps h ?_ ?_
  · exact fun r hr hrX => (registerHome_isHome hwf hr).notMem_argScratch (hX hrX)
  · intro v off _ hv b hb hbM
    obtain ⟨j, hj, hbj⟩ := hM hbM
    obtain ⟨_, hout, hbound⟩ := hwf.spill v off hv
    have hlt : off + 8 ≤ 16777216 := hbound
    exact bytesAt_disjoint (by omega) (by omega) (Or.inr (by omega)) hb hbj

lemma passedBits_congr {s t : Cpu} {arg : Operand}
    (h : operandBits alloc t arg = operandBits alloc s arg) (e : Bool) :
    passedBits fp alloc t arg e = passedBits fp alloc s arg e := by
  simp only [passedBits, h]

lemma stackSourceFpr_spec (hwf : alloc.WellFormed outgoing) {arg : Operand}
    (harg : Allocated alloc arg) :
    ∃ code f, stackSourceFpr arg alloc = some (code, f) ∧ ∀ s : Cpu,
      (s.run fp code).readD f = passedBits fp alloc s arg true ∧
      Cpu.Keeps placeScratch ∅ s (s.run fp code) := by
  obtain ⟨actual, hactual⟩ := exists_operandIsF64 harg
  cases actual with
  | true =>
    obtain ⟨code, f, hcode, hspec⟩ := materializeOperandFpr_spec fp hwf hactual fpScratchLhs 9
    refine ⟨code, f, ?_, fun s => ⟨?_, (hspec s).2⟩⟩
    · simp only [stackSourceFpr, hactual]
      exact hcode
    · rw [(hspec s).1, passedBits_same fp hactual]
  | false =>
    obtain ⟨code, g, hcode, _, hspec⟩ :=
      materializeOperandGpr_spec fp hwf hactual (d := 9) (by decide)
    have hcode' : materializeOperandGpr arg opScratchLhs alloc = some (code, g) := hcode
    refine ⟨_, fpScratchLhs, by simp only [stackSourceFpr, hactual, hcode']; rfl, fun s => ?_⟩
    rw [Cpu.run_append, Cpu.run_cons, Cpu.run_nil, Cpu.step, (hspec s).1,
      passedBits_scvtf fp hactual]
    refine ⟨Cpu.readD_writeD_self _ _ _, ((hspec s).2.mono ?_ le_rfl).trans ?_⟩
    · exact fun r hr => Or.inr hr
    · exact Cpu.Keeps.writeD _ (Or.inl rfl) _

lemma stackSourceGpr_spec (hwf : alloc.WellFormed outgoing) {arg : Operand}
    (harg : Allocated alloc arg) :
    ∃ code g, stackSourceGpr arg alloc = some (code, g) ∧ g ≠ slotBase ∧ ∀ s : Cpu,
      (s.run fp code).readX g = passedBits fp alloc s arg false ∧
      Cpu.Keeps placeScratch ∅ s (s.run fp code) := by
  obtain ⟨actual, hactual⟩ := exists_operandIsF64 harg
  cases actual with
  | true =>
    obtain ⟨code, f, hcode, hspec⟩ := materializeOperandFpr_spec fp hwf hactual fpScratchLhs 9
    have hcode' : materializeOperandFpr arg fpScratchLhs opScratchLhs alloc = some (code, f) := hcode
    refine ⟨_, opScratchLhs, by simp only [stackSourceGpr, hactual, hcode']; rfl, by decide,
      fun s => ?_⟩
    rw [Cpu.run_append, Cpu.run_cons, Cpu.run_nil, Cpu.step, (hspec s).1,
      passedBits_fcvtzs fp hactual]
    refine ⟨Cpu.readX_writeX_self _ 9 _, (hspec s).2.trans ?_⟩
    exact Cpu.Keeps.writeX _ (Or.inr (Or.inl rfl)) _
  | false =>
    obtain ⟨code, g, hcode, hg, hspec⟩ :=
      materializeOperandGpr_spec fp hwf hactual (d := 9) (by decide)
    refine ⟨code, g, ?_, hg, fun s => ⟨?_, (hspec s).2.mono (fun r hr => Or.inr hr) le_rfl⟩⟩
    · simp only [stackSourceGpr, hactual]
      exact hcode
    · rw [(hspec s).1, passedBits_same fp hactual]

/-- One stack lane receives its argument. -/
lemma emitStackLane_spec (hwf : alloc.WellFormed outgoing) {arg : Operand}
    (harg : Allocated alloc arg) (e : Bool) {j : ℕ} (hj : 8 * (j + 1) ≤ frameBytesMax) :
    ∃ code, emitStackLane arg e j alloc = some code ∧ ∀ s : Cpu,
      load64 (s.run fp code).mem (s.sp + BitVec.ofNat 64 (j * 8)) = passedBits fp alloc s arg e ∧
      Cpu.Keeps placeScratch (bytesAt (s.sp + BitVec.ofNat 64 (j * 8))) s (s.run fp code) := by
  have hbase : ({.gpr slotBase} : Set Reg) ⊆ placeScratch := fun r hr => Or.inr (Or.inr hr)
  have hlt : j * 8 < frameBytesMax := by omega
  have h8 : j * 8 % 8 = 0 := by omega
  cases e with
  | true =>
    obtain ⟨code, f, hcode, hspec⟩ := stackSourceFpr_spec fp hwf harg
    obtain ⟨store, hstore, hstored⟩ := Cpu.spStrD_spec fp hlt h8 f
    refine ⟨code ++ store, by simp [emitStackLane, hcode, hstore], fun s => ?_⟩
    obtain ⟨hval, hkeeps⟩ := hspec s
    obtain ⟨hload, hkeeps'⟩ := hstored (s.run fp code)
    rw [hkeeps.sp] at hload hkeeps'
    rw [Cpu.run_append, hload, hval]
    exact ⟨rfl, (hkeeps.mono le_rfl (Set.empty_subset _)).trans (hkeeps'.mono hbase le_rfl)⟩
  | false =>
    obtain ⟨code, g, hcode, hg, hspec⟩ := stackSourceGpr_spec fp hwf harg
    obtain ⟨store, hstore, hstored⟩ := Cpu.spStrX_spec fp hlt h8 hg
    refine ⟨code ++ store, by simp [emitStackLane, hcode, hstore], fun s => ?_⟩
    obtain ⟨hval, hkeeps⟩ := hspec s
    obtain ⟨hload, hkeeps'⟩ := hstored (s.run fp code)
    rw [hkeeps.sp] at hload hkeeps'
    rw [Cpu.run_append, hload, hval]
    exact ⟨rfl, (hkeeps.mono le_rfl (Set.empty_subset _)).trans (hkeeps'.mono hbase le_rfl)⟩

/-- **Every stack lane receives its argument**, and the operands keep their values for
the register lanes. -/
lemma emitStackLanes_spec (hwf : alloc.WellFormed outgoing) (hframe : outgoing ≤ frameBytesMax) :
    ∀ {lanes : List (Operand × Bool × ArgLane)}, (∀ p ∈ lanes, Allocated alloc p.1) →
      (∀ p ∈ lanes, ∀ j, p.2.2 = .stack j → 8 * (j + 1) ≤ outgoing) →
      (lanes.map fun p => p.2.2).Nodup →
      ∃ code, emitStackLanes alloc lanes = some code ∧ ∀ s : Cpu,
        (∀ arg e j, (arg, e, ArgLane.stack j) ∈ lanes →
          load64 (s.run fp code).mem (s.sp + BitVec.ofNat 64 (j * 8)) =
            passedBits fp alloc s arg e) ∧
        Cpu.Keeps placeScratch (stackLaneBytes s lanes) s (s.run fp code)
  | [], _, _, _ => ⟨[], rfl, fun s => ⟨by simp, Cpu.Keeps.refl _ _ _⟩⟩
  | (arg, e, .reg r) :: rest, harg, hj, hnd => by
    obtain ⟨code, hcode, hspec⟩ := emitStackLanes_spec hwf hframe
      (fun p hp => harg p (List.mem_cons_of_mem _ hp))
      (fun p hp => hj p (List.mem_cons_of_mem _ hp)) (List.nodup_cons.mp hnd).2
    refine ⟨code, hcode, fun s => ⟨fun arg' e' j' hmem => ?_, ?_⟩⟩
    · rcases List.mem_cons.mp hmem with heq | hmem
      · simp at heq
      · exact (hspec s).1 arg' e' j' hmem
    · refine (hspec s).2.mono le_rfl ?_
      rintro b ⟨arg', e', j', hmem, hb⟩
      exact ⟨arg', e', j', List.mem_cons_of_mem _ hmem, hb⟩
  | (arg, e, .stack j) :: rest, harg, hj, hnd => by
    have hjout := hj _ List.mem_cons_self j rfl
    have hjrest : ∀ p ∈ rest, ∀ k, p.2.2 = .stack k → 8 * (k + 1) ≤ outgoing :=
      fun p hp => hj p (List.mem_cons_of_mem _ hp)
    obtain ⟨hfresh, hnd'⟩ := List.nodup_cons.mp hnd
    obtain ⟨head, hhead, hheadspec⟩ := emitStackLane_spec fp hwf
      (harg _ List.mem_cons_self) e (hjout.trans hframe)
    obtain ⟨code, hcode, hspec⟩ := emitStackLanes_spec hwf hframe
      (fun p hp => harg p (List.mem_cons_of_mem _ hp)) hjrest hnd'
    refine ⟨head ++ code, by simp [emitStackLanes, hhead, hcode], fun s => ?_⟩
    obtain ⟨hload, hkeeps⟩ := hheadspec s
    obtain ⟨hloads, hkeeps'⟩ := hspec (s.run fp head)
    have hlanes : stackLaneBytes (s.run fp head) rest = stackLaneBytes s rest := by
      rw [stackLaneBytes, stackLaneBytes, hkeeps.sp]
    rw [hkeeps.sp] at hloads
    rw [hlanes] at hkeeps'
    have hbits : ∀ arg', operandBits alloc (s.run fp head) arg' = operandBits alloc s arg' :=
      operandBits_of_keeps_scratch hwf hkeeps placeScratch_subset fun b hb => ⟨j, hjout, hb⟩
    have hframe' : outgoing ≤ 16777216 := hframe
    rw [Cpu.run_append]
    constructor
    · intro arg' e' j' hmem
      rcases List.mem_cons.mp hmem with heq | hmem
      · obtain ⟨rfl, rfl, rfl⟩ : arg' = arg ∧ e' = e ∧ j' = j := by simpa using heq
        rw [← hload]
        -- the other lanes' stores do not reach this slot
        refine load64_congr fun b hb => hkeeps'.mem b ?_
        rintro ⟨arg₂, e₂, k, hk, hbk⟩
        have hne : k ≠ j' := by
          rintro rfl
          exact hfresh (List.mem_map.mpr ⟨_, hk, rfl⟩)
        have hkout := hjrest _ hk k rfl
        exact bytesAt_disjoint (by omega) (by omega) (by omega) hb hbk
      · rw [hloads arg' e' j' hmem, passedBits_congr fp (hbits arg')]
    · refine (hkeeps.mono le_rfl ?_).trans (hkeeps'.mono le_rfl ?_)
      · exact fun b hb => ⟨arg, e, j, List.mem_cons_self, hb⟩
      · rintro b ⟨arg', e', j', hmem, hb⟩
        exact ⟨arg', e', j', List.mem_cons_of_mem _ hmem, hb⟩

/-! ### Register lanes -/

/-- The machine as a backend of the parallel copy: memory is never written. -/
def backend : ParallelCopy.Backend Cpu Reg (BitVec 64) Inst where
  run code s := s.run fp code
  run_nil _ := rfl
  run_append := Cpu.run_append fp
  read := Cpu.readReg
  Keeps X := Cpu.Keeps X ∅
  keeps_refl X := Cpu.Keeps.refl X ∅
  keeps_trans := Cpu.Keeps.trans
  keeps_mono hXY := Cpu.Keeps.mono hXY le_rfl
  keeps_read := by
    intro X s t l h hl
    have hload : ∀ off, load64 t.mem (t.sp + BitVec.ofNat 64 off) =
        load64 s.mem (s.sp + BitVec.ofNat 64 off) := by
      intro off
      rw [h.sp]
      exact load64_congr fun b _ => h.mem b (Set.notMem_empty b)
    cases l with
    | gpr g => exact h.readX hl
    | fpr f => exact h.readD hl
    | spillGpr off => exact hload off
    | spillFpr off => exact hload off

/-- The argument registers of both classes. -/
def argRegs : Set Reg := {r | r ∈ argRet.map Reg.gpr ∨ r ∈ fpArgRet.map Reg.fpr}

/-- A pending argument in the state `s`, for the values of the state `s₀`: it is in the
register its move reads, or it never was in a register. -/
def Sits (alloc : Assignment) (s₀ s : Cpu) (src : Option Reg) (arg : Operand) : Prop :=
  match src with
  | some (.gpr g) =>
    operandIsF64 arg alloc = some false ∧ s.readX g = operandBits alloc s₀ arg
  | some (.fpr f) =>
    operandIsF64 arg alloc = some true ∧ s.readD f = operandBits alloc s₀ arg
  | some _ => False
  | none => Allocated alloc arg ∧ registerHome arg alloc = none ∧
      operandBits alloc s arg = operandBits alloc s₀ arg

/-- What a register lane is to receive. -/
def laneWant (alloc : Assignment) (s₀ : Cpu) (dst : Reg) (arg : Operand) : BitVec 64 :=
  match dst with
  | .gpr _ => passedBits fp alloc s₀ arg false
  | _ => passedBits fp alloc s₀ arg true

lemma mem_argRegs {r : Reg} (h : r ∈ argRegs) :
    (∃ n : Fin 31, r = .gpr (.x n) ∧ n.val < 8) ∨ ∃ f : Fpr, r = .fpr f ∧ f.val < 8 := by
  rcases h with h | h
  · obtain ⟨g, hg, rfl⟩ := List.mem_map.mp h
    simp only [argRet, List.mem_cons, List.not_mem_nil, or_false] at hg
    rcases hg with rfl | rfl | rfl | rfl | rfl | rfl | rfl | rfl <;>
      exact Or.inl ⟨_, rfl, by decide⟩
  · obtain ⟨f, hf, rfl⟩ := List.mem_map.mp h
    refine Or.inr ⟨f, rfl, ?_⟩
    revert f
    decide

lemma argRegs_notMem_argScratch {r : Reg} (h : r ∈ argRegs) : r ∉ argScratch := by
  rcases mem_argRegs h with ⟨n, rfl, hn⟩ | ⟨f, rfl, hf⟩
  · have hne : n ≠ 9 ∧ n ≠ 11 ∧ n ≠ 16 := by
      refine ⟨?_, ?_, ?_⟩ <;> rintro rfl <;> exact absurd hn (by decide)
    simp [argScratch, opScratchLhs, opScratchTmp, slotBase, hne]
  · have hne : f ≠ 16 ∧ f ≠ 17 := by
      refine ⟨?_, ?_⟩ <;> rintro rfl <;> exact absurd hf (by decide)
    simp [argScratch, fpScratchLhs, fpScratchRhs, hne]

/-- A pending argument survives writes to other registers. -/
lemma Sits.of_keeps {X : Set Reg} {s₀ s t : Cpu} {src : Option Reg} {arg : Operand}
    (h : Sits alloc s₀ s src arg) (hkeeps : Cpu.Keeps X ∅ s t)
    (hsrc : ∀ r, src = some r → r ∉ X) : Sits alloc s₀ t src arg := by
  match src, h with
  | some (.gpr g), h => exact ⟨h.1, (hkeeps.readX (hsrc _ rfl)).trans h.2⟩
  | some (.fpr f), h => exact ⟨h.1, (hkeeps.readD (hsrc _ rfl)).trans h.2⟩
  | none, h =>
    refine ⟨h.1, h.2.1, Eq.trans ?_ h.2.2⟩
    refine operandBits_of_keeps hkeeps ?_ fun _ _ _ _ b _ => Set.notMem_empty b
    intro r hr
    rw [h.2.1] at hr
    cases hr

/-- A general-register lane receives an argument that is in a register. -/
lemma emitLaneMove_gpr_some (s₀ s : Cpu) (n : Fin 31) {src : Reg} {arg : Operand}
    (hsits : Sits alloc s₀ s (some src) arg) :
    ∃ code, emitLaneMove alloc ⟨.gpr (.x n), some src, arg⟩ = some code ∧
      (s.run fp code).readReg (.gpr (.x n)) = passedBits fp alloc s₀ arg false ∧
      Cpu.Keeps {.gpr (.x n)} ∅ s (s.run fp code) := by
  match src, hsits with
  | .gpr g, hsits =>
    obtain ⟨hclass, hval⟩ := hsits
    simp only [emitLaneMove, passedBits_same fp hclass]
    by_cases hne : Gpr.x n ≠ g
    · rw [if_pos hne]
      refine ⟨_, rfl, ?_, Cpu.Keeps.writeX s (Set.mem_singleton _) (s.readX g)⟩
      exact (Cpu.readX_writeX_self s n _).trans hval
    · rw [if_neg hne]
      obtain rfl := not_not.mp hne
      exact ⟨[], rfl, hval, Cpu.Keeps.refl _ _ _⟩
  | .fpr f, hsits =>
    obtain ⟨hclass, hval⟩ := hsits
    simp only [emitLaneMove, passedBits_fcvtzs fp hclass]
    refine ⟨_, rfl, ?_, Cpu.Keeps.writeX s (Set.mem_singleton _) (fp.fcvtzs (s.readD f))⟩
    rw [← hval]
    exact Cpu.readX_writeX_self s n _

/-- A float-register lane receives an argument that is in a register. -/
lemma emitLaneMove_fpr_some (s₀ s : Cpu) (d : Fpr) {src : Reg} {arg : Operand}
    (hsits : Sits alloc s₀ s (some src) arg) :
    ∃ code, emitLaneMove alloc ⟨.fpr d, some src, arg⟩ = some code ∧
      (s.run fp code).readReg (.fpr d) = passedBits fp alloc s₀ arg true ∧
      Cpu.Keeps {.fpr d} ∅ s (s.run fp code) := by
  match src, hsits with
  | .fpr f, hsits =>
    obtain ⟨hclass, hval⟩ := hsits
    simp only [emitLaneMove, passedBits_same fp hclass]
    by_cases hne : d ≠ f
    · rw [if_pos hne]
      refine ⟨_, rfl, ?_, Cpu.Keeps.writeV s (Set.mem_singleton _) (s.v f)⟩
      exact (Cpu.readD_writeV_self s d _).trans hval
    · rw [if_neg hne]
      obtain rfl := not_not.mp hne
      exact ⟨[], rfl, hval, Cpu.Keeps.refl _ _ _⟩
  | .gpr g, hsits =>
    obtain ⟨hclass, hval⟩ := hsits
    simp only [emitLaneMove, passedBits_scvtf fp hclass]
    refine ⟨_, rfl, ?_, Cpu.Keeps.writeD s (Set.mem_singleton _) (fp.scvtf (s.readX g))⟩
    rw [← hval]
    exact Cpu.readD_writeD_self s d _

/-- A general-register lane receives a constant, a spilled value or a slot address. -/
lemma emitLaneMove_gpr_none (hwf : alloc.WellFormed outgoing) {arg : Operand}
    (harg : Allocated alloc arg) {n : Fin 31} (hn : Gpr.x n ≠ slotBase) (s : Cpu) :
    ∃ code, emitLaneMove alloc ⟨.gpr (.x n), none, arg⟩ = some code ∧
      (s.run fp code).readReg (.gpr (.x n)) = passedBits fp alloc s arg false ∧
      Cpu.Keeps (insert (.gpr (.x n)) placeScratch) ∅ s (s.run fp code) := by
  obtain ⟨actual, hactual⟩ := exists_operandIsF64 harg
  cases actual with
  | true =>
    obtain ⟨code, f, hcode, hspec⟩ := materializeOperandFpr_spec fp hwf hactual fpScratchLhs 9
    have hcode' : materializeOperandFpr arg fpScratchLhs opScratchLhs alloc = some (code, f) := hcode
    refine ⟨code ++ [.fcvtzsXD (.x n) f], by simp [emitLaneMove, hactual, hcode'], ?_, ?_⟩
    · rw [Cpu.run_append, passedBits_fcvtzs fp hactual, ← (hspec s).1]
      exact Cpu.readX_writeX_self _ n _
    · rw [Cpu.run_append]
      exact ((hspec s).2.mono (Set.subset_insert _ _) le_rfl).trans
        (Cpu.Keeps.writeX _ (Set.mem_insert _ _) (fp.fcvtzs ((s.run fp code).readD f)))
  | false =>
    obtain ⟨code, g, hcode, _, hspec⟩ := materializeOperandGpr_spec fp hwf hactual hn
    have hkeeps : Cpu.Keeps (insert (.gpr (.x n)) placeScratch) ∅ s (s.run fp code) := by
      refine (hspec s).2.mono ?_ le_rfl
      rintro r (rfl | rfl)
      · exact Set.mem_insert _ _
      · exact Or.inr (Or.inr (Or.inr rfl))
    rw [passedBits_same fp hactual, ← (hspec s).1]
    by_cases hne : g ≠ .x n
    · refine ⟨code ++ [.movXReg (.x n) g], by simp [emitLaneMove, hactual, hcode, hne], ?_, ?_⟩
      · rw [Cpu.run_append]
        exact Cpu.readX_writeX_self _ n _
      · rw [Cpu.run_append]
        exact hkeeps.trans
          (Cpu.Keeps.writeX _ (Set.mem_insert _ _) ((s.run fp code).readX g))
    · obtain rfl := not_not.mp hne
      exact ⟨code, by simp [emitLaneMove, hactual, hcode], rfl, hkeeps⟩

/-- A float-register lane receives a constant or a spilled value. -/
lemma emitLaneMove_fpr_none (hwf : alloc.WellFormed outgoing) {arg : Operand}
    (harg : Allocated alloc arg) (d : Fpr) (s : Cpu) :
    ∃ code, emitLaneMove alloc ⟨.fpr d, none, arg⟩ = some code ∧
      (s.run fp code).readReg (.fpr d) = passedBits fp alloc s arg true ∧
      Cpu.Keeps (insert (.fpr d) placeScratch) ∅ s (s.run fp code) := by
  obtain ⟨actual, hactual⟩ := exists_operandIsF64 harg
  cases actual with
  | false =>
    obtain ⟨code, g, hcode, _, hspec⟩ :=
      materializeOperandGpr_spec fp hwf hactual (d := 9) (by decide)
    have hcode' : materializeOperandGpr arg opScratchLhs alloc = some (code, g) := hcode
    refine ⟨code ++ [.scvtfDX d g], by simp [emitLaneMove, hactual, hcode'], ?_, ?_⟩
    · rw [Cpu.run_append, passedBits_scvtf fp hactual, ← (hspec s).1]
      exact Cpu.readD_writeD_self _ d _
    · rw [Cpu.run_append]
      exact ((hspec s).2.mono (fun r hr => Or.inr (Or.inr hr)) le_rfl).trans
        (Cpu.Keeps.writeD _ (Set.mem_insert _ _) (fp.scvtf ((s.run fp code).readX g)))
  | true =>
    obtain ⟨code, f, hcode, hspec⟩ := materializeOperandFpr_spec fp hwf hactual d 9
    have hcode' : materializeOperandFpr arg d opScratchLhs alloc = some (code, f) := hcode
    have hkeeps : Cpu.Keeps (insert (.fpr d) placeScratch) ∅ s (s.run fp code) := by
      refine (hspec s).2.mono ?_ le_rfl
      rintro r (rfl | hr)
      · exact Set.mem_insert _ _
      · exact Or.inr (Or.inr hr)
    rw [passedBits_same fp hactual, ← (hspec s).1]
    by_cases hne : f ≠ d
    · refine ⟨code ++ [.movDReg d f], by simp [emitLaneMove, hactual, hcode', hne], ?_, ?_⟩
      · rw [Cpu.run_append]
        exact Cpu.readD_writeV_self _ d _
      · rw [Cpu.run_append]
        exact hkeeps.trans (Cpu.Keeps.writeV _ (Set.mem_insert _ _) ((s.run fp code).v f))
    · obtain rfl := not_not.mp hne
      exact ⟨code, by simp [emitLaneMove, hactual, hcode'], rfl, hkeeps⟩

/-- One register lane receives its argument. -/
lemma emitLaneMove_spec (hwf : alloc.WellFormed outgoing) (s₀ : Cpu) (m : Move Reg Operand)
    (s : Cpu) (hdst : m.dst ∈ argRegs) (hsits : Sits alloc s₀ s m.src m.arg) :
    ∃ code, emitLaneMove alloc m = some code ∧
      (s.run fp code).readReg m.dst = laneWant fp alloc s₀ m.dst m.arg ∧
      Cpu.Keeps (insert m.dst placeScratch) ∅ s (s.run fp code) := by
  obtain ⟨dst, src, arg⟩ := m
  dsimp only at hdst hsits ⊢
  have hsub : ∀ r : Reg, ({r} : Set Reg) ⊆ insert r placeScratch :=
    fun r r' hr' => Or.inl hr'
  rcases mem_argRegs hdst with ⟨n, rfl, hn⟩ | ⟨f, rfl, _⟩
  · cases src with
    | some r =>
      obtain ⟨code, hcode, hval, hkeeps⟩ := emitLaneMove_gpr_some fp s₀ s n hsits
      exact ⟨code, hcode, hval, hkeeps.mono (hsub _) le_rfl⟩
    | none =>
      have hne : Gpr.x n ≠ slotBase := by
        rintro h
        obtain rfl : n = 16 := Gpr.x.inj h
        exact absurd hn (by decide)
      obtain ⟨code, hcode, hval, hkeeps⟩ := emitLaneMove_gpr_none fp hwf hsits.1 hne s
      exact ⟨code, hcode, hval.trans (passedBits_congr fp hsits.2.2 false), hkeeps⟩
  · cases src with
    | some r =>
      obtain ⟨code, hcode, hval, hkeeps⟩ := emitLaneMove_fpr_some fp s₀ s f hsits
      exact ⟨code, hcode, hval, hkeeps.mono (hsub _) le_rfl⟩
    | none =>
      obtain ⟨code, hcode, hval, hkeeps⟩ := emitLaneMove_fpr_none fp hwf hsits.1 f s
      exact ⟨code, hcode, hval.trans (passedBits_congr fp hsits.2.2 true), hkeeps⟩

/-- Parking copies the destination's value to the scratch register of its class. -/
lemma parkLane_spec (s₀ : Cpu) {r : Reg} (s : Cpu) (hr : r ∈ argRegs) :
    ∃ y code, parkLane r = some (y, code) ∧
      y ∈ ({.gpr opScratchTmp, .fpr fpScratchRhs} : Set Reg) ∧
      Cpu.Keeps {y} ∅ s (s.run fp code) ∧
      ∀ arg, Sits alloc s₀ s (some r) arg → Sits alloc s₀ (s.run fp code) (some y) arg := by
  rcases mem_argRegs hr with ⟨n, rfl, _⟩ | ⟨f, rfl, _⟩
  · refine ⟨_, _, rfl, Or.inl rfl,
      Cpu.Keeps.writeX s (Set.mem_singleton _) (s.readX (.x n)), fun arg h => ⟨h.1, ?_⟩⟩
    exact (Cpu.readX_writeX_self s 11 _).trans h.2
  · refine ⟨_, _, rfl, Or.inr rfl,
      Cpu.Keeps.writeV s (Set.mem_singleton _) (s.v f), fun arg h => ⟨h.1, ?_⟩⟩
    exact (Cpu.readD_writeV_self s 17 _).trans h.2

/-- The register lanes of a call as an instance of the parallel copy. -/
def laneShuffle (hwf : alloc.WellFormed outgoing) (s₀ : Cpu) :
    ParallelCopy.Shuffle (backend fp) Operand where
  lanes := argRegs
  scratch := placeScratch
  temps := {.gpr opScratchTmp, .fpr fpScratchRhs}
  lanes_scratch _ hr hs := argRegs_notMem_argScratch hr (placeScratch_subset hs)
  lanes_temps := by
    rintro r hr (rfl | rfl) <;> exact argRegs_notMem_argScratch hr (by simp [argScratch])
  temps_scratch := by
    rintro r (rfl | rfl) <;>
      simp [placeScratch, fpScratchLhs, fpScratchRhs, opScratchLhs, opScratchTmp, slotBase]
  Sits := Sits alloc s₀
  want := laneWant fp alloc s₀
  sits_keeps h hkeeps _ hsrc := h.of_keeps hkeeps hsrc
  emit := emitLaneMove alloc
  emit_spec m s hdst hsits := emitLaneMove_spec fp hwf s₀ m s hdst hsits
  park := parkLane
  park_spec r s hr := parkLane_spec fp s₀ s hr

/-! ### The whole sequence -/

lemma exists_mapM {α β : Type} {f : α → Option β} :
    ∀ {l : List α}, (∀ a ∈ l, ∃ b, f a = some b) →
      ∃ bs, l.mapM f = some bs ∧ bs.length = l.length
  | [], _ => ⟨[], rfl, rfl⟩
  | a :: l, h => by
    obtain ⟨b, hb⟩ := h a List.mem_cons_self
    obtain ⟨bs, hbs, hlen⟩ := exists_mapM (l := l) fun a' ha' => h a' (List.mem_cons_of_mem _ ha')
    exact ⟨b :: bs, by simp [List.mapM_cons, hb, hbs], by rw [List.length_cons, hlen, List.length_cons]⟩

/-- The facts about the lanes of a call that its code depends on. -/
structure LanesOk (args : List Operand) (lanes : List (Operand × Bool × ArgLane)) : Prop where
  fst : lanes.map Prod.fst = args
  range : ∀ p ∈ lanes, LaneInRange 0 0 0 args.length p.2.1 p.2.2
  nodup : (lanes.map fun p => p.2.2).Nodup

lemma argLanes_spec {args : List Operand} (hargs : ∀ arg ∈ args, Allocated alloc arg)
    (paramTypes : Option (List SsaType)) :
    ∃ lanes, argLanes args alloc paramTypes = some lanes ∧ LanesOk args lanes := by
  have hexpected : ∀ p ∈ args.zipIdx, ∃ e, expectedF64 p.2 p.1 alloc paramTypes = some e := by
    intro p hp
    rw [expectedF64]
    split
    · exact ⟨_, rfl⟩
    · exact exists_operandIsF64 (hargs _ (List.fst_mem_of_mem_zipIdx hp))
  obtain ⟨isFp, hisFp, hlen⟩ := exists_mapM hexpected
  rw [List.length_zipIdx] at hlen
  have hlanes : (classifyLanes isFp).length = isFp.length := length_classifyLanesFrom 0 0 0 isFp
  have hzip : (isFp.zip (classifyLanes isFp)).length = args.length := by
    rw [List.length_zip, hlanes, min_self, hlen]
  refine ⟨_, by simp only [argLanes, hisFp]; rfl, ?_, ?_, ?_⟩
  · exact List.map_fst_zip hzip.ge
  · intro p hp
    have hmem : p.2 ∈ isFp.zip (classifyLanes isFp) := (List.of_mem_zip hp).2
    rw [← hlen]
    exact laneInRange_of_mem hmem
  · have hsnd : (args.zip (isFp.zip (classifyLanes isFp))).map (fun p => p.2.2) =
        classifyLanes isFp := by
      rw [show (fun p : Operand × Bool × ArgLane => p.2.2) = Prod.snd ∘ Prod.snd from rfl,
        ← List.map_map, List.map_snd_zip hzip.le, List.map_snd_zip hlanes.le]
    rw [hsnd]
    exact nodup_classifyLanesFrom 0 0 0 isFp

lemma mem_laneMoves {lanes : List (Operand × Bool × ArgLane)} {m : Move Reg Operand} :
    m ∈ laneMoves alloc lanes ↔ ∃ arg e dst, (arg, e, ArgLane.reg dst) ∈ lanes ∧
      m = ⟨dst, registerHome arg alloc, arg⟩ := by
  rw [laneMoves, List.mem_filterMap]
  constructor
  · rintro ⟨⟨arg, e, lane⟩, hp, hm⟩
    cases lane with
    | reg dst => exact ⟨arg, e, dst, hp, (Option.some.inj hm).symm⟩
    | stack j => cases hm
  · rintro ⟨arg, e, dst, hp, rfl⟩
    exact ⟨_, hp, rfl⟩

lemma nodup_laneMoves {lanes : List (Operand × Bool × ArgLane)}
    (hnd : (lanes.map fun p => p.2.2).Nodup) : ((laneMoves alloc lanes).map Move.dst).Nodup := by
  have hdst : (laneMoves alloc lanes).map Move.dst =
      (lanes.map fun p => p.2.2).filterMap fun
        | .reg r => some r
        | .stack _ => none := by
    rw [laneMoves, List.map_filterMap, List.filterMap_map]
    apply List.filterMap_congr
    rintro ⟨arg, e, lane⟩ _
    cases lane <;> rfl
  rw [hdst]
  refine hnd.filterMap ?_
  intro a a' r ha ha'
  cases a <;> cases a' <;> simp_all

/-- A register lane is an argument register. -/
lemma LaneInRange.reg_mem {n : ℕ} {e : Bool} {r : Reg} (h : LaneInRange 0 0 0 n e (.reg r)) :
    r ∈ argRegs := by
  cases e with
  | false =>
    cases r with
    | gpr g =>
      obtain ⟨k, _, hk⟩ := h
      exact Or.inl (List.mem_map.mpr ⟨g, List.mem_of_getElem? hk, rfl⟩)
    | _ => exact h.elim
  | true =>
    cases r with
    | fpr f =>
      obtain ⟨k, _, hk⟩ := h
      exact Or.inr (List.mem_map.mpr ⟨f, List.mem_of_getElem? hk, rfl⟩)
    | _ => exact h.elim

/-- A register lane has the class of the argument's expected type. -/
lemma LaneInRange.laneWant_eq {n : ℕ} {e : Bool} {r : Reg}
    (h : LaneInRange 0 0 0 n e (.reg r)) (s₀ : Cpu) (arg : Operand) :
    laneWant fp alloc s₀ r arg = passedBits fp alloc s₀ arg e := by
  cases e <;> cases r <;> first | rfl | exact h.elim

/-- Before the first move, every argument is in its home. -/
lemma pending_laneMoves (hwf : alloc.WellFormed outgoing) {args : List Operand}
    {lanes : List (Operand × Bool × ArgLane)} (hok : LanesOk args lanes)
    (hargs : ∀ arg ∈ args, Allocated alloc arg) (s : Cpu) :
    (laneShuffle fp hwf s).Pending s (laneMoves alloc lanes) := by
  have harg : ∀ p ∈ lanes, Allocated alloc p.1 := by
    intro p hp
    apply hargs
    rw [← hok.fst]
    exact List.mem_map.mpr ⟨p, hp, rfl⟩
  refine ⟨nodup_laneMoves hok.nodup, ?_, ?_, ?_⟩
  · intro m hm
    obtain ⟨arg, e, dst, hp, rfl⟩ := mem_laneMoves.mp hm
    exact (hok.range _ hp).reg_mem
  · intro m hm r hr hscratch
    obtain ⟨arg, e, dst, hp, rfl⟩ := mem_laneMoves.mp hm
    exact (registerHome_isHome hwf hr).notMem_argScratch (placeScratch_subset hscratch)
  · intro m hm
    obtain ⟨arg, e, dst, hp, rfl⟩ := mem_laneMoves.mp hm
    change Sits alloc s s (registerHome arg alloc) arg
    cases hhome : registerHome arg alloc with
    | none => exact ⟨harg _ hp, hhome, rfl⟩
    | some r =>
      cases arg with
      | value v =>
        simp only [registerHome] at hhome
        cases hv : alloc.byValue v with
        | none => simp [hv] at hhome
        | some r' =>
          cases r' <;> simp only [hv, Option.some.injEq, reduceCtorEq] at hhome <;> subst hhome <;>
            exact ⟨by simp only [operandIsF64, hv], by simp only [operandBits, hv, Cpu.readReg]⟩
      | _ => simp [registerHome] at hhome

end Passing

/-- **Argument passing is a correct parallel copy.** For any operands that the allocator
homed, any parameter types and any machine state, the code exists, and after it every
lane holds the value its operand had before, converted where the classes differ; nothing
else changes but the lanes and the scratch registers. -/
theorem passArgs_correct (fp : FpUnit) {alloc : Assignment} {args : List Operand}
    (hwf : alloc.WellFormed (8 * (args.length - 8)))
    (hframe : 8 * (args.length - 8) ≤ frameBytesMax)
    (hargs : ∀ arg ∈ args, Allocated alloc arg) (paramTypes : Option (List SsaType)) :
    ∃ lanes code, argLanes args alloc paramTypes = some lanes ∧ lanes.map Prod.fst = args ∧
      passArgs args alloc paramTypes = some code ∧ ∀ s : Cpu,
        (∀ arg e lane, (arg, e, lane) ∈ lanes →
          laneBits (s.run fp code) lane = passedBits fp alloc s arg e) ∧
        Cpu.Keeps (laneRegs lanes ∪ argScratch) (stackLaneBytes s lanes) s (s.run fp code) := by
  obtain ⟨lanes, hlanes, hok⟩ := argLanes_spec hargs paramTypes
  have harg : ∀ p ∈ lanes, Allocated alloc p.1 := by
    intro p hp
    apply hargs
    rw [← hok.fst]
    exact List.mem_map.mpr ⟨p, hp, rfl⟩
  have hstackLane : ∀ p ∈ lanes, ∀ j, p.2.2 = .stack j → 8 * (j + 1) ≤ 8 * (args.length - 8) := by
    rintro ⟨arg, e, lane⟩ hp j rfl
    have hrange : LaneInRange 0 0 0 args.length e (.stack j) := hok.range _ hp
    have : j + 9 ≤ args.length + 0 + 0 + 0 := by cases e <;> exact hrange.2
    omega
  obtain ⟨stack, hstack, hstackSpec⟩ := emitStackLanes_spec fp hwf hframe harg hstackLane hok.nodup
  -- the moves do not depend on the state, so the code of one run is that of every run
  have hregs : ∃ regs, ParallelCopy.sequentialize (emitLaneMove alloc) parkLane
      (2 * (laneMoves alloc lanes).length) (laneMoves alloc lanes) = some regs ∧
      ∀ s : Cpu, (laneShuffle fp hwf s).Copies (laneMoves alloc lanes) s (s.run fp regs) := by
    have hrun : ∀ s : Cpu, _ := fun s => (laneShuffle fp hwf s).sequentialize_spec _ rfl le_rfl
      (pending_laneMoves fp hwf hok hargs s)
    obtain ⟨regs, hregs, _⟩ := hrun ⟨fun _ => 0, 0, fun _ => 0, fun _ => 0⟩
    refine ⟨regs, hregs, fun s => ?_⟩
    obtain ⟨regs', hregs', hcopies⟩ := hrun s
    obtain rfl : regs = regs' := Option.some.inj (hregs.symm.trans hregs')
    exact hcopies
  obtain ⟨regs, hregs, hregsSpec⟩ := hregs
  refine ⟨lanes, stack ++ regs, hlanes, hok.fst, by simp [passArgs, hlanes, hstack, hregs],
    fun s => ?_⟩
  obtain ⟨hloads, hkeeps⟩ := hstackSpec s
  obtain ⟨hreads, hkeeps'⟩ := hregsSpec (s.run fp stack)
  have hstackBytes : stackLaneBytes s lanes ⊆ outgoingArea s (8 * (args.length - 8)) := by
    rintro b ⟨arg, e, j, hp, hb⟩
    exact ⟨j, hstackLane _ hp j rfl, hb⟩
  have hbits : ∀ arg e, passedBits fp alloc (s.run fp stack) arg e = passedBits fp alloc s arg e :=
    fun arg e => passedBits_congr fp (operandBits_of_keeps_scratch hwf hkeeps placeScratch_subset
      hstackBytes arg) e
  rw [Cpu.run_append]
  constructor
  · intro arg e lane hp
    cases lane with
    | reg r =>
      have hread := hreads _ (mem_laneMoves.mpr ⟨arg, e, r, hp, rfl⟩)
      have hclass : laneWant fp alloc (s.run fp stack) r arg =
          passedBits fp alloc (s.run fp stack) arg e := (hok.range _ hp).laneWant_eq fp _ arg
      exact hread.trans (hclass.trans (hbits arg e))
    | stack j =>
      have hmem : ((s.run fp stack).run fp regs).mem = (s.run fp stack).mem :=
        funext fun b => hkeeps'.mem b (Set.notMem_empty b)
      rw [laneBits, hkeeps'.sp, hmem, hkeeps.sp]
      exact hloads arg e j hp
  · refine (hkeeps.mono ?_ le_rfl).trans (hkeeps'.mono ?_ (Set.empty_subset _))
    · exact fun r hr => Or.inr (placeScratch_subset hr)
    · rintro r ((⟨m, hm, rfl⟩ | hr) | hr)
      · obtain ⟨arg, e, dst, hp, rfl⟩ := mem_laneMoves.mp hm
        exact Or.inl ⟨arg, e, hp⟩
      · exact Or.inr (placeScratch_subset hr)
      · right
        rcases hr with rfl | rfl <;> simp [argScratch]

/-- Two values, each homed in the other's argument register. -/
def swappedHomes : Assignment where
  byValue v := if v = 0 then some (.gpr (.x 1)) else if v = 1 then some (.gpr (.x 0)) else none
  allocaOffsets _ := none

lemma swappedHomes_wellFormed : swappedHomes.WellFormed 0 := by
  have hhome : ∀ v r, swappedHomes.byValue v = some r → r = .gpr (.x 1) ∨ r = .gpr (.x 0) := by
    intro v r h
    simp only [swappedHomes] at h
    split_ifs at h
    · exact Or.inl (Option.some.inj h).symm
    · exact Or.inr (Option.some.inj h).symm
  refine ⟨fun v r h => ?_, fun v off h => ?_, fun v slot h => ?_⟩
  · rcases hhome v r h with rfl | rfl <;> simp [Reg.IsHome, argRet]
  · rcases h with h | h <;> rcases hhome _ _ h with h' | h' <;> cases h'
  · cases h

/-- The cycle of two registers, with conversions that never run. -/
theorem passArgs_correct_swap :
    ∃ lanes code, argLanes [.value 0, .value 1] swappedHomes none = some lanes ∧
      lanes.map Prod.fst = [.value 0, .value 1] ∧
      passArgs [.value 0, .value 1] swappedHomes none = some code ∧ ∀ s : Cpu,
        (∀ arg e lane, (arg, e, lane) ∈ lanes →
          laneBits (s.run ⟨id, id⟩ code) lane = passedBits ⟨id, id⟩ swappedHomes s arg e) ∧
        Cpu.Keeps (laneRegs lanes ∪ argScratch) (stackLaneBytes s lanes) s
          (s.run ⟨id, id⟩ code) :=
  passArgs_correct ⟨id, id⟩ swappedHomes_wellFormed (Nat.zero_le _)
    (by
      intro arg harg v hv
      subst hv
      have hv : v = 0 ∨ v = 1 := by simpa using harg
      rcases hv with rfl | rfl <;> rfl) none

/-- The emitted exchange goes through the scratch register. -/
example : passArgs [.value 0, .value 1] swappedHomes none =
    some [.movXReg (.x 11) (.x 0), .movXReg (.x 0) (.x 1), .movXReg (.x 1) (.x 11)] := by
  decide

end Torajs.Codegen
