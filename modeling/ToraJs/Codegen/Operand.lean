import ToraJs.Codegen.Constant

/-!
# Operands in registers

Slot addressing below the stack pointer (`compile/slot.rs`) and the placement of an
operand in a register (`compile/operand.rs`), over the allocator's assignment of values
to registers and spill slots.  A panic of the source is a failure (`none`) here; the
results say that none happens for the operands the callers pass.
-/

namespace Torajs.Codegen

/-! ### Slots -/

/-- `slot::FRAME_BYTES_MAX`. -/
def frameBytesMax : ℕ := 1 <<< 24

/-- `slot::base_for`: the instructions before the access, its base and its offset. -/
def baseFor (off : ℕ) : Option (List Inst × Gpr × ℕ) :=
  if off < 1 <<< 15 then some ([], .sp, off)
  else if off < frameBytesMax then do
    let add ← encAddImmLsl12 slotBase .sp (off >>> 12)
    return ([add], slotBase, off &&& 0xFFF)
  else none

/-- A load or store at an offset below the stack pointer. -/
def spAccess (off : ℕ) (access : Gpr → ℕ → Inst) : Option (List Inst) := do
  let (code, base, imm) ← baseFor off
  let imm12 ← scaledImm12 imm
  return code ++ [access base imm12]

/-- `slot::sp_ldr_x`. -/
def spLdrX (rt : Gpr) (off : ℕ) : Option (List Inst) := spAccess off (.ldrX rt)

/-- `slot::sp_str_x`. -/
def spStrX (rt : Gpr) (off : ℕ) : Option (List Inst) := spAccess off (.strX rt)

/-- `slot::sp_ldr_d`. -/
def spLdrD (rt : Fpr) (off : ℕ) : Option (List Inst) := spAccess off (.ldrD rt)

/-- `slot::sp_str_d`. -/
def spStrD (rt : Fpr) (off : ℕ) : Option (List Inst) := spAccess off (.strD rt)

/-- `slot::sp_add`. -/
def spAdd (rd : Gpr) (off : ℕ) : Option (List Inst) :=
  if off < 4096 then do
    let add ← encAddImm rd .sp off
    return [add]
  else if off < frameBytesMax then do
    let high ← encAddImmLsl12 rd .sp (off >>> 12)
    if off &&& 0xFFF > 0 then
      let low ← encAddImm rd rd (off &&& 0xFFF)
      return [high, low]
    else return [high]
  else none

/-! ### Assignments and operands -/

/-- `ssa::Operand`; a double constant is its bits. -/
inductive Operand where
  | value (v : ℕ)
  | constI64 (c : BitVec 64)
  | constI32 (c : BitVec 32)
  | constF64 (bits : BitVec 64)
  | constBool (b : Bool)
  | constPtrNull
  deriving DecidableEq, Repr

/-- `regalloc::Assignment`: the homes of the values, and the frame offsets of the slots
of `alloca` results. -/
structure Assignment where
  byValue : ℕ → Option Reg
  allocaOffsets : ℕ → Option ℕ

/-- What the allocator guarantees of the frame: homes are allocatable registers, and
every spill slot is an aligned eight bytes above the outgoing argument area and within
the frame bound. -/
structure Assignment.WellFormed (alloc : Assignment) (outgoing : ℕ) : Prop where
  home : ∀ v r, alloc.byValue v = some r → r.IsHome
  spill : ∀ v off, alloc.byValue v = some (.spillGpr off) ∨ alloc.byValue v = some (.spillFpr off) →
    off % 8 = 0 ∧ outgoing ≤ off ∧ off + 8 ≤ frameBytesMax
  alloca : ∀ v slot, alloc.allocaOffsets v = some slot → slot < frameBytesMax

/-- `operand_is_f64`. -/
def operandIsF64 (op : Operand) (alloc : Assignment) : Option Bool :=
  match op with
  | .constF64 _ => some true
  | .value v =>
    match alloc.byValue v with
    | none => none
    | some (.fpr _) | some (.spillFpr _) => some true
    | some (.gpr _) | some (.spillGpr _) => some false
  | _ => some false

/-- `materialize_operand_gpr`: the instructions, and the register that then holds the
operand. -/
def materializeOperandGpr (op : Operand) (scratch : Gpr) (alloc : Assignment) :
    Option (List Inst × Gpr) :=
  match op with
  | .value v =>
    match alloc.byValue v with
    | some (.gpr g) => some ([], g)
    | some (.spillGpr off) =>
      match alloc.allocaOffsets v with
      | some slot => (spAdd scratch slot).map (·, scratch)
      | none => (spLdrX scratch off).map (·, scratch)
    | _ => none
  | .constI64 c => some (materializeConstI64 scratch c, scratch)
  | .constI32 c => some (materializeConstI64 scratch (c.signExtend 64), scratch)
  | .constBool b => some (materializeConstI64 scratch (if b then 1 else 0), scratch)
  | .constPtrNull => some (materializeConstI64 scratch 0, scratch)
  | .constF64 _ => none

/-- `materialize_operand_fpr`. -/
def materializeOperandFpr (op : Operand) (fprScratch : Fpr) (gprScratch : Gpr)
    (alloc : Assignment) : Option (List Inst × Fpr) :=
  match op with
  | .value v =>
    match alloc.byValue v with
    | some (.fpr f) => some ([], f)
    | some (.spillFpr off) => (spLdrD fprScratch off).map (·, fprScratch)
    | _ => none
  | .constF64 bits =>
    if bits = 0 then some ([.fmovDFromX fprScratch .xzr], fprScratch)
    else some (materializeConstI64 gprScratch bits ++ [.fmovDFromX fprScratch gprScratch],
      fprScratch)
  | _ => none

/-- The 64 bits that an operand denotes in a machine state: a constant, the contents of
the value's register or spill slot, or the address of an `alloca`'s slot. -/
def operandBits (alloc : Assignment) (s : Cpu) : Operand → BitVec 64
  | .value v =>
    match alloc.byValue v with
    | none => 0
    | some (.spillGpr off) =>
      match alloc.allocaOffsets v with
      | some slot => s.sp + BitVec.ofNat 64 slot
      | none => s.readReg (.spillGpr off)
    | some r => s.readReg r
  | .constI64 c => c
  | .constI32 c => c.signExtend 64
  | .constF64 bits => bits
  | .constBool b => if b then 1 else 0
  | .constPtrNull => 0

/-- `call_args::register_home`. -/
def registerHome (arg : Operand) (alloc : Assignment) : Option Reg :=
  match arg with
  | .value v =>
    match alloc.byValue v with
    | some (.gpr g) => some (.gpr g)
    | some (.fpr f) => some (.fpr f)
    | _ => none
  | _ => none

/-! ### Slot accesses compute the slot's address -/

namespace Cpu

variable (fp : FpUnit)

lemma baseFor_spec {off : ℕ} (h : off < frameBytesMax) (h8 : off % 8 = 0) :
    ∃ code base imm, baseFor off = some (code, base, imm) ∧ imm % 8 = 0 ∧ imm / 8 < 4096 ∧
      ∀ s : Cpu, Keeps {.gpr slotBase} ∅ s (s.run fp code) ∧
        (s.run fp code).readBase base + BitVec.ofNat 64 imm = s.sp + BitVec.ofNat 64 off := by
  unfold baseFor
  by_cases hnear : off < 1 <<< 15
  · rw [if_pos hnear]
    have hlt : off < 32768 := hnear
    exact ⟨[], .sp, off, rfl, h8, by omega, fun s => ⟨Keeps.refl _ _ _, rfl⟩⟩
  · rw [if_neg hnear, if_pos h]
    have hlt : off < 16777216 := h
    have hlow : off &&& 0xFFF = off % 4096 := Nat.and_two_pow_sub_one_eq_mod off 12
    have hhigh : off >>> 12 = off / 4096 := Nat.shiftRight_eq_div_pow off 12
    rw [hlow, hhigh, encAddImmLsl12, if_pos (by omega)]
    refine ⟨_, _, _, rfl, by omega, by omega, fun s =>
      ⟨Keeps.writeBase (n := 16) s (Set.mem_singleton _) _, ?_⟩⟩
    have hbase : (s.run fp [.addImmLsl12 slotBase .sp (off / 4096)]).readBase slotBase =
        s.sp + BitVec.ofNat 64 (off / 4096 * 4096) := readBase_writeBase_self s 16 _
    rw [hbase, BitVec.add_assoc, ← BitVec.ofNat_add, Nat.div_add_mod']

lemma spAccess_spec {off : ℕ} (h : off < frameBytesMax) (h8 : off % 8 = 0)
    (access : Gpr → ℕ → Inst) :
    ∃ code base imm12, spAccess off access = some (code ++ [access base imm12]) ∧
      ∀ s : Cpu, Keeps {.gpr slotBase} ∅ s (s.run fp code) ∧
        (s.run fp code).readBase base + BitVec.ofNat 64 (imm12 * 8) =
          s.sp + BitVec.ofNat 64 off := by
  obtain ⟨code, base, imm, hbase, himm8, himm, hspec⟩ := baseFor_spec fp h h8
  refine ⟨code, base, imm / 8, ?_, fun s => ⟨(hspec s).1, ?_⟩⟩
  · simp [spAccess, hbase, scaledImm12, himm8, himm]
  · rw [Nat.div_mul_cancel (Nat.dvd_of_mod_eq_zero himm8)]
    exact (hspec s).2

/-- A slot load into a general register. -/
lemma spLdrX_spec {off : ℕ} (h : off < frameBytesMax) (h8 : off % 8 = 0) (d : Fin 31) :
    ∃ code, spLdrX (.x d) off = some code ∧ ∀ s : Cpu,
      (s.run fp code).readX (.x d) = s.readReg (.spillGpr off) ∧
      Keeps {.gpr (.x d), .gpr slotBase} ∅ s (s.run fp code) := by
  obtain ⟨pre, base, imm12, hcode, hspec⟩ := spAccess_spec fp h h8 (.ldrX (.x d))
  refine ⟨_, hcode, fun s => ?_⟩
  obtain ⟨hkeeps, haddr⟩ := hspec s
  have hmem : (s.run fp pre).mem = s.mem := funext fun b => hkeeps.mem b (Set.notMem_empty b)
  rw [run_append, run_cons, run_nil, step, haddr, hmem, readX_writeX_self]
  refine ⟨rfl, (hkeeps.mono ?_ le_rfl).trans (Keeps.writeX _ (Or.inl rfl) _)⟩
  exact fun r hr => Or.inr hr

/-- A slot load into a float register. -/
lemma spLdrD_spec {off : ℕ} (h : off < frameBytesMax) (h8 : off % 8 = 0) (f : Fpr) :
    ∃ code, spLdrD f off = some code ∧ ∀ s : Cpu,
      (s.run fp code).readD f = s.readReg (.spillFpr off) ∧
      Keeps {.fpr f, .gpr slotBase} ∅ s (s.run fp code) := by
  obtain ⟨pre, base, imm12, hcode, hspec⟩ := spAccess_spec fp h h8 (.ldrD f)
  refine ⟨_, hcode, fun s => ?_⟩
  obtain ⟨hkeeps, haddr⟩ := hspec s
  have hmem : (s.run fp pre).mem = s.mem := funext fun b => hkeeps.mem b (Set.notMem_empty b)
  rw [run_append, run_cons, run_nil, step, haddr, hmem, readD_writeD_self]
  refine ⟨rfl, (hkeeps.mono ?_ le_rfl).trans (Keeps.writeD _ (Or.inl rfl) _)⟩
  exact fun r hr => Or.inr hr

/-- A slot store from a general register other than the slot base. -/
lemma spStrX_spec {off : ℕ} (h : off < frameBytesMax) (h8 : off % 8 = 0) {g : Gpr}
    (hg : g ≠ slotBase) :
    ∃ code, spStrX g off = some code ∧ ∀ s : Cpu,
      load64 (s.run fp code).mem (s.sp + BitVec.ofNat 64 off) = s.readX g ∧
      Keeps {.gpr slotBase} (bytesAt (s.sp + BitVec.ofNat 64 off)) s (s.run fp code) := by
  obtain ⟨pre, base, imm12, hcode, hspec⟩ := spAccess_spec fp h h8 (.strX g)
  refine ⟨_, hcode, fun s => ?_⟩
  obtain ⟨hkeeps, haddr⟩ := hspec s
  have hread : (s.run fp pre).readX g = s.readX g := hkeeps.readX (by simpa using hg)
  rw [run_append, run_cons, run_nil, step, haddr, hread]
  refine ⟨load64_store64 _ _ _, (hkeeps.mono le_rfl (Set.empty_subset _)).trans ?_⟩
  exact Keeps.store _ _ le_rfl

/-- A slot store from a float register. -/
lemma spStrD_spec {off : ℕ} (h : off < frameBytesMax) (h8 : off % 8 = 0) (f : Fpr) :
    ∃ code, spStrD f off = some code ∧ ∀ s : Cpu,
      load64 (s.run fp code).mem (s.sp + BitVec.ofNat 64 off) = s.readD f ∧
      Keeps {.gpr slotBase} (bytesAt (s.sp + BitVec.ofNat 64 off)) s (s.run fp code) := by
  obtain ⟨pre, base, imm12, hcode, hspec⟩ := spAccess_spec fp h h8 (.strD f)
  refine ⟨_, hcode, fun s => ?_⟩
  obtain ⟨hkeeps, haddr⟩ := hspec s
  have hread : (s.run fp pre).readD f = s.readD f := hkeeps.readD (by simp)
  rw [run_append, run_cons, run_nil, step, haddr, hread]
  refine ⟨load64_store64 _ _ _, (hkeeps.mono le_rfl (Set.empty_subset _)).trans ?_⟩
  exact Keeps.store _ _ le_rfl

/-- The address of a slot. -/
lemma spAdd_spec {off : ℕ} (h : off < frameBytesMax) (d : Fin 31) :
    ∃ code, spAdd (.x d) off = some code ∧ ∀ s : Cpu,
      (s.run fp code).readX (.x d) = s.sp + BitVec.ofNat 64 off ∧
      Keeps {.gpr (.x d)} ∅ s (s.run fp code) := by
  unfold spAdd
  by_cases hnear : off < 4096
  · rw [if_pos hnear, encAddImm, if_pos hnear]
    exact ⟨_, rfl, fun s => ⟨readX_writeBase_self _ _ _, Keeps.writeBase s (Set.mem_singleton _) _⟩⟩
  · rw [if_neg hnear, if_pos h]
    have hlt : off < 16777216 := h
    have hlow : off &&& 0xFFF = off % 4096 := Nat.and_two_pow_sub_one_eq_mod off 12
    have hhigh : off >>> 12 = off / 4096 := Nat.shiftRight_eq_div_pow off 12
    rw [hlow, hhigh, encAddImmLsl12, if_pos (by omega), encAddImm, if_pos (by omega)]
    have hstep : ∀ s : Cpu, (s.step fp (.addImmLsl12 (.x d) .sp (off / 4096))).readX (.x d) =
        s.sp + BitVec.ofNat 64 (off / 4096 * 4096) := fun s => readX_writeBase_self _ _ _
    by_cases hzero : off % 4096 > 0
    · refine ⟨[_, _], by simp [hzero]; exact ⟨rfl, rfl⟩, fun s => ⟨?_, ?_⟩⟩
      · rw [run_cons, run_cons, run_nil]
        have := readX_writeBase_self (s.step fp (.addImmLsl12 (.x d) .sp (off / 4096))) d
          ((s.step fp (.addImmLsl12 (.x d) .sp (off / 4096))).readX (.x d) +
            BitVec.ofNat 64 (off % 4096))
        refine this.trans ?_
        rw [hstep, BitVec.add_assoc, ← BitVec.ofNat_add, Nat.div_add_mod']
      · exact (Keeps.writeBase s (Set.mem_singleton _) _).trans (Keeps.writeBase _ (Set.mem_singleton _) _)
    · refine ⟨[_], by simp [hzero]; rfl, fun s => ⟨?_, Keeps.writeBase s (Set.mem_singleton _) _⟩⟩
      rw [run_cons, run_nil, hstep, Nat.div_mul_cancel (Nat.dvd_of_mod_eq_zero (by omega))]

end Cpu

/-! ### Placing an operand -/

/-- No home is a scratch register of the argument code. -/
lemma Reg.IsHome.ne_scratch {g : Gpr} (h : (Reg.gpr g).IsHome) :
    g ≠ opScratchLhs ∧ g ≠ opScratchTmp ∧ g ≠ slotBase := by
  simp only [Reg.IsHome, argRet, callerSavedScratch, calleeSavedScratch, List.mem_cons,
    List.not_mem_nil, or_false] at h
  simp only [opScratchLhs, opScratchTmp, slotBase]
  refine ⟨?_, ?_, ?_⟩ <;> rintro rfl <;> simp at h

lemma Reg.IsHome.fpr_ne_scratch {f : Fpr} (h : (Reg.fpr f).IsHome) :
    f ≠ fpScratchLhs ∧ f ≠ fpScratchRhs := by
  refine ⟨?_, ?_⟩ <;> rintro rfl <;> exact h (by decide)

section Placing

variable (fp : FpUnit) {alloc : Assignment} {outgoing : ℕ}

/-- An operand keeps its bits while its home and its spill slot do. -/
lemma operandBits_of_keeps {X : Set Reg} {M : Set (BitVec 64)} {s t : Cpu} {op : Operand}
    (h : Cpu.Keeps X M s t) (hreg : ∀ r, registerHome op alloc = some r → r ∉ X)
    (hmem : ∀ v off, op = .value v →
      alloc.byValue v = some (.spillGpr off) ∨ alloc.byValue v = some (.spillFpr off) →
        ∀ b ∈ bytesAt (s.sp + BitVec.ofNat 64 off), b ∉ M) :
    operandBits alloc t op = operandBits alloc s op := by
  cases op with
  | value v =>
    simp only [operandBits]
    simp only [registerHome] at hreg
    have hload : ∀ off, (alloc.byValue v = some (.spillGpr off) ∨
        alloc.byValue v = some (.spillFpr off)) →
        load64 t.mem (t.sp + BitVec.ofNat 64 off) = load64 s.mem (s.sp + BitVec.ofNat 64 off) := by
      intro off hoff
      rw [h.sp]
      exact load64_congr fun b hb => h.mem b (hmem v off rfl hoff b hb)
    cases hv : alloc.byValue v with
    | none => rfl
    | some r =>
      rw [hv] at hreg hload
      cases r with
      | gpr g => exact h.readX (hreg _ rfl)
      | fpr f => exact h.readD (hreg _ rfl)
      | spillGpr off =>
        dsimp only
        cases alloc.allocaOffsets v with
        | none => exact hload off (Or.inl rfl)
        | some slot => rw [h.sp]
      | spillFpr off => exact hload off (Or.inr rfl)
  | _ => rfl

/-- **An integer-class operand is placed in a general register.** -/
lemma materializeOperandGpr_spec (hwf : alloc.WellFormed outgoing) {op : Operand}
    (hop : operandIsF64 op alloc = some false) {d : Fin 31} (hd : Gpr.x d ≠ slotBase) :
    ∃ code g, materializeOperandGpr op (.x d) alloc = some (code, g) ∧ g ≠ slotBase ∧
      ∀ s : Cpu, (s.run fp code).readX g = operandBits alloc s op ∧
        Cpu.Keeps {.gpr (.x d), .gpr slotBase} ∅ s (s.run fp code) := by
  have hconst : ∀ c : BitVec 64, ∃ code g,
      some (materializeConstI64 (.x d) c, Gpr.x d) = some (code, g) ∧ g ≠ slotBase ∧
      ∀ s : Cpu, (s.run fp code).readX g = c ∧
        Cpu.Keeps {.gpr (.x d), .gpr slotBase} ∅ s (s.run fp code) := fun c =>
    ⟨_, _, rfl, hd, fun s => ⟨Cpu.readX_run_materializeConstI64 fp s d c,
      Cpu.keeps_run_materializeConstI64 fp s (Or.inl rfl) c⟩⟩
  cases op with
  | value v =>
    simp only [operandIsF64] at hop
    cases hv : alloc.byValue v with
    | none => simp [hv] at hop
    | some r =>
      simp only [materializeOperandGpr, operandBits, hv]
      cases r with
      | gpr g =>
        exact ⟨[], g, rfl, (hwf.home v _ hv).ne_scratch.2.2, fun s => ⟨rfl, Cpu.Keeps.refl _ _ _⟩⟩
      | fpr f => simp [hv] at hop
      | spillFpr off => simp [hv] at hop
      | spillGpr off =>
        dsimp only
        cases hslot : alloc.allocaOffsets v with
        | some slot =>
          obtain ⟨code, hcode, hspec⟩ := Cpu.spAdd_spec fp (hwf.alloca v slot hslot) d
          refine ⟨code, .x d, by simp only [hcode, Option.map_some], hd, fun s => ⟨(hspec s).1, ?_⟩⟩
          exact (hspec s).2.mono (fun r hr => Or.inl hr) le_rfl
        | none =>
          obtain ⟨h8, _, hbound⟩ := hwf.spill v off (Or.inl hv)
          obtain ⟨code, hcode, hspec⟩ := Cpu.spLdrX_spec fp (by omega) h8 d
          exact ⟨code, .x d, by simp only [hcode, Option.map_some], hd, hspec⟩
  | constI64 c => exact hconst c
  | constI32 c => exact hconst _
  | constBool b => exact hconst _
  | constPtrNull => exact hconst 0
  | constF64 bits => simp [operandIsF64] at hop

/-- **A double-class operand is placed in a float register.** -/
lemma materializeOperandFpr_spec (hwf : alloc.WellFormed outgoing) {op : Operand}
    (hop : operandIsF64 op alloc = some true) (f : Fpr) (d : Fin 31) :
    ∃ code g, materializeOperandFpr op f (.x d) alloc = some (code, g) ∧
      ∀ s : Cpu, (s.run fp code).readD g = operandBits alloc s op ∧
        Cpu.Keeps {.fpr f, .gpr (.x d), .gpr slotBase} ∅ s (s.run fp code) := by
  cases op with
  | value v =>
    simp only [operandIsF64] at hop
    cases hv : alloc.byValue v with
    | none => simp [hv] at hop
    | some r =>
      simp only [materializeOperandFpr, operandBits, hv]
      cases r with
      | gpr g => simp [hv] at hop
      | spillGpr off => simp [hv] at hop
      | fpr f' => exact ⟨[], f', rfl, fun s => ⟨rfl, Cpu.Keeps.refl _ _ _⟩⟩
      | spillFpr off =>
        obtain ⟨h8, _, hbound⟩ := hwf.spill v off (Or.inr hv)
        obtain ⟨code, hcode, hspec⟩ := Cpu.spLdrD_spec fp (by omega) h8 f
        refine ⟨code, f, by simp only [hcode, Option.map_some], fun s => ⟨(hspec s).1, (hspec s).2.mono ?_ le_rfl⟩⟩
        rintro r (rfl | rfl)
        · exact Or.inl rfl
        · exact Or.inr (Or.inr rfl)
  | constF64 bits =>
    simp only [materializeOperandFpr, operandBits]
    split_ifs with h0
    · refine ⟨_, f, rfl, fun s => ⟨?_, Cpu.Keeps.writeD s (Or.inl rfl) _⟩⟩
      exact (Cpu.readD_writeD_self s f 0).trans h0.symm
    · refine ⟨_, f, rfl, fun s => ?_⟩
      rw [Cpu.run_append, Cpu.run_cons, Cpu.run_nil, Cpu.step,
        Cpu.readX_run_materializeConstI64]
      refine ⟨Cpu.readD_writeD_self _ _ _, ?_⟩
      exact (Cpu.keeps_run_materializeConstI64 fp s (Or.inr (Or.inl rfl)) bits).trans
        (Cpu.Keeps.writeD _ (Or.inl rfl) _)
  | constI64 c => simp [operandIsF64] at hop
  | constI32 c => simp [operandIsF64] at hop
  | constBool b => simp [operandIsF64] at hop
  | constPtrNull => simp [operandIsF64] at hop

end Placing

end Torajs.Codegen
