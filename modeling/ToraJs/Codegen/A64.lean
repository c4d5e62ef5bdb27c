import Mathlib.Logic.Function.Basic
import Mathlib.Data.Set.Insert
import Mathlib.Tactic.IntervalCases

/-!
# The AArch64 instructions of argument passing

The register file of `reg.rs` and the instructions that the argument code emits, under
the names of their encoders in `enc/`.  Encoding index 31 is `SP` or `XZR` by the
instruction's context: `readX` and `writeX` are the zero-register context, `readBase`
and `writeBase` the stack-pointer context.

An instruction's immediate is the field the encoder writes.  The encoders carry debug
assertions on their fields; the `enc` functions below fail where those do.

The two conversions between integers and doubles are the hardware's and are parameters.
-/

namespace Torajs.Codegen

/-! ### Registers -/

instance neZero_gprCount : NeZero 31 := ⟨by decide⟩

/-- `reg::Gpr`. -/
inductive Gpr where
  | x (n : Fin 31)
  | sp
  | xzr
  deriving DecidableEq, Repr

/-- `reg::Fpr`: the index of a SIMD/FP register. -/
abbrev Fpr := Fin 32

/-- `reg::Reg`: a register, or a spill slot at an offset from the stack pointer. -/
inductive Reg where
  | gpr (g : Gpr)
  | fpr (f : Fpr)
  | spillGpr (off : ℕ)
  | spillFpr (off : ℕ)
  deriving DecidableEq, Repr

/-- `reg::aapcs64::ARG_RET`. -/
def argRet : List Gpr := [.x 0, .x 1, .x 2, .x 3, .x 4, .x 5, .x 6, .x 7]

/-- `reg::aapcs64::FP_ARG_RET`. -/
def fpArgRet : List Fpr := [0, 1, 2, 3, 4, 5, 6, 7]

/-- `reg::aapcs64::RESERVED_OP_SCRATCH`. -/
def reservedOpScratch : List Gpr := [.x 9, .x 10, .x 11, .x 12]

/-- `reg::aapcs64::FP_RESERVED_OP_SCRATCH`. -/
def fpReservedOpScratch : List Fpr := [16, 17, 18]

/-- `reg::aapcs64::CALLER_SAVED_SCRATCH`. -/
def callerSavedScratch : List Gpr :=
  [.x 13, .x 14, .x 15, .x 8, .x 7, .x 6, .x 5, .x 4, .x 3, .x 2, .x 1]

/-- `reg::aapcs64::CALLEE_SAVED_SCRATCH`. -/
def calleeSavedScratch : List Gpr :=
  [.x 19, .x 20, .x 21, .x 22, .x 23, .x 24, .x 25, .x 26, .x 27, .x 28]

/-- `compile::OP_SCRATCH_LHS`. -/
def opScratchLhs : Gpr := .x 9

/-- `compile::OP_SCRATCH_TMP`. -/
def opScratchTmp : Gpr := .x 11

/-- `compile::slot::SLOT_BASE`. -/
def slotBase : Gpr := .x 16

/-- `compile::FP_SCRATCH_LHS`. -/
def fpScratchLhs : Fpr := 16

/-- `compile::FP_SCRATCH_RHS`. -/
def fpScratchRhs : Fpr := 17

/-- The registers that may home a value: the allocator's pools, the return lane and the
pinned registers leave out the operand scratches, the intra-procedure-call registers, the
platform register, the frame and link registers and `SP`/`XZR`. -/
def Reg.IsHome : Reg → Prop
  | .gpr g => g ∈ argRet ∨ g ∈ callerSavedScratch ∨ g ∈ calleeSavedScratch
  | .fpr f => f ∉ fpReservedOpScratch
  | .spillGpr _ | .spillFpr _ => True

/-! ### Memory -/

/-- Little-endian eight-byte load. -/
def load64 (m : BitVec 64 → BitVec 8) (a : BitVec 64) : BitVec 64 :=
  m (a + 7) ++ m (a + 6) ++ m (a + 5) ++ m (a + 4) ++ m (a + 3) ++ m (a + 2) ++ m (a + 1) ++ m a

/-- Little-endian eight-byte store. -/
def store64 (m : BitVec 64 → BitVec 8) (a w : BitVec 64) : BitVec 64 → BitVec 8 := fun b =>
  if (b - a).toNat < 8 then w.extractLsb' (8 * (b - a).toNat) 8 else m b

/-- The bytes of an eight-byte access. -/
def bytesAt (a : BitVec 64) : Set (BitVec 64) := {b | (b - a).toNat < 8}

lemma store64_of_notMem {m : BitVec 64 → BitVec 8} {a w b : BitVec 64} (h : b ∉ bytesAt a) :
    store64 m a w b = m b :=
  if_neg h

/-- The bytes of a word, put back together. -/
lemma append_bytes (w : BitVec 64) :
    w.extractLsb' 56 8 ++ w.extractLsb' 48 8 ++ w.extractLsb' 40 8 ++ w.extractLsb' 32 8 ++
      w.extractLsb' 24 8 ++ w.extractLsb' 16 8 ++ w.extractLsb' 8 8 ++ w.extractLsb' 0 8 = w := by
  apply BitVec.eq_of_getLsbD_eq
  intro i hi
  simp only [BitVec.getLsbD_append, BitVec.getLsbD_extractLsb']
  interval_cases i <;> simp

lemma add_mem_bytesAt {a k : BitVec 64} : a + k ∈ bytesAt a ↔ k.toNat < 8 := by
  have : a + k - a = k := by rw [BitVec.add_comm, BitVec.add_sub_cancel]
  rw [bytesAt, Set.mem_ofPred_eq, this]

/-- What a store wrote, a load at the same address reads. -/
lemma load64_store64 (m : BitVec 64 → BitVec 8) (a w : BitVec 64) :
    load64 (store64 m a w) a = w := by
  have hb : ∀ k : BitVec 64, k.toNat < 8 →
      store64 m a w (a + k) = w.extractLsb' (8 * k.toNat) 8 := by
    intro k hk
    have : a + k - a = k := by rw [BitVec.add_comm, BitVec.add_sub_cancel]
    rw [store64, this, if_pos hk]
  have h0 := hb 0 (by decide)
  rw [show a + (0 : BitVec 64) = a from BitVec.add_zero a] at h0
  rw [load64, hb 7 (by decide), hb 6 (by decide), hb 5 (by decide), hb 4 (by decide),
    hb 3 (by decide), hb 2 (by decide), hb 1 (by decide), h0]
  exact append_bytes w

/-- A load sees only the bytes it reads. -/
lemma load64_congr {m m' : BitVec 64 → BitVec 8} {a : BitVec 64}
    (h : ∀ b ∈ bytesAt a, m b = m' b) : load64 m a = load64 m' a := by
  have hb : ∀ k : BitVec 64, k.toNat < 8 → m (a + k) = m' (a + k) :=
    fun k hk => h _ (add_mem_bytesAt.mpr hk)
  have h0 := hb 0 (by decide)
  rw [show a + (0 : BitVec 64) = a from BitVec.add_zero a] at h0
  rw [load64, load64, hb 7 (by decide), hb 6 (by decide), hb 5 (by decide), hb 4 (by decide),
    hb 3 (by decide), hb 2 (by decide), hb 1 (by decide), h0]

/-- Eight-byte accesses at nearby offsets from one base that do not overlap. -/
lemma bytesAt_disjoint {a : BitVec 64} {o o' : ℕ} (ho : o < 2 ^ 32) (ho' : o' < 2 ^ 32)
    (h : o + 8 ≤ o' ∨ o' + 8 ≤ o) {b : BitVec 64} (hb : b ∈ bytesAt (a + BitVec.ofNat 64 o)) :
    b ∉ bytesAt (a + BitVec.ofNat 64 o') := by
  rw [bytesAt, Set.mem_ofPred_eq] at hb ⊢
  rw [← BitVec.sub_sub, BitVec.toNat_sub, BitVec.toNat_ofNat] at hb ⊢
  have := (b - a).isLt
  omega

/-! ### Instructions -/

/-- The emitted instructions, one constructor for each encoder. -/
inductive Inst where
  | movXReg (rd rm : Gpr)
  | movDReg (rd rn : Fpr)
  | movzImm (rd : Gpr) (imm16 : BitVec 16) (hw : Fin 4)
  | movnImm (rd : Gpr) (imm16 : BitVec 16) (hw : Fin 4)
  | movkImm (rd : Gpr) (imm16 : BitVec 16) (hw : Fin 4)
  | orrImm (rd rn : Gpr) (n immr imms : ℕ)
  | addImm (rd rn : Gpr) (imm12 : ℕ)
  | addImmLsl12 (rd rn : Gpr) (imm12 : ℕ)
  | fmovDFromX (rd : Fpr) (rn : Gpr)
  | scvtfDX (rd : Fpr) (rn : Gpr)
  | fcvtzsXD (rd : Gpr) (rn : Fpr)
  | ldrX (rt rn : Gpr) (imm12 : ℕ)
  | strX (rt rn : Gpr) (imm12 : ℕ)
  | ldrD (rt : Fpr) (rn : Gpr) (imm12 : ℕ)
  | strD (rt : Fpr) (rn : Gpr) (imm12 : ℕ)
  deriving DecidableEq, Repr

/-- `enc::add_imm`. -/
def encAddImm (rd rn : Gpr) (imm12 : ℕ) : Option Inst :=
  if imm12 < 4096 then some (.addImm rd rn imm12) else none

/-- `enc::add_imm_lsl12`. -/
def encAddImmLsl12 (rd rn : Gpr) (imm12 : ℕ) : Option Inst :=
  if imm12 < 4096 then some (.addImmLsl12 rd rn imm12) else none

/-- The scaled offset field that the eight-byte loads and stores share: the offset is a
multiple of eight and below 4096 units. -/
def scaledImm12 (byteOffset : ℕ) : Option ℕ :=
  if byteOffset % 8 = 0 ∧ byteOffset / 8 < 4096 then some (byteOffset / 8) else none

lemma scaledImm12_of_lt {off : ℕ} (h8 : off % 8 = 0) (h : off < 2 ^ 15) :
    scaledImm12 off = some (off / 8) :=
  if_pos ⟨h8, by omega⟩

/-- ARM's `DecodeBitMasks` at 64 bits: `imms + 1` ones in an element whose size the
leading bits of `n : NOT(imms)` give, rotated right by `immr` and replicated. -/
def decodeBitMasks (n immr imms : ℕ) : BitVec 64 :=
  let esize := 2 ^ (64 * n + (63 - imms)).log2
  let welem := BitVec.ofNat esize (2 ^ (imms % esize + 1) - 1)
  ((welem.rotateRight (immr % esize)).replicate (64 / esize)).setWidth 64

/-- The 16 bits at quadrant `hw` replaced. -/
def setQuad (w : BitVec 64) (hw : Fin 4) (q : BitVec 16) : BitVec 64 :=
  (w &&& ~~~((0xFFFF : BitVec 64) <<< (16 * hw.val))) ||| (q.setWidth 64 <<< (16 * hw.val))

/-! ### Machine states -/

/-- The registers and memory.  Scalar doubles are the low halves of `v`. -/
structure Cpu where
  x : Fin 31 → BitVec 64
  sp : BitVec 64
  v : Fin 32 → BitVec 128
  mem : BitVec 64 → BitVec 8

/-- The hardware's conversions between doubles and signed 64-bit integers. -/
structure FpUnit where
  fcvtzs : BitVec 64 → BitVec 64
  scvtf : BitVec 64 → BitVec 64

namespace Cpu

/-- A general register where index 31 is the zero register. -/
def readX (s : Cpu) : Gpr → BitVec 64
  | .x n => s.x n
  | .sp | .xzr => 0

/-- A general register where index 31 is the stack pointer. -/
def readBase (s : Cpu) : Gpr → BitVec 64
  | .x n => s.x n
  | .sp | .xzr => s.sp

/-- Write where index 31 is the zero register. -/
def writeX (s : Cpu) (g : Gpr) (w : BitVec 64) : Cpu :=
  match g with
  | .x n => { s with x := Function.update s.x n w }
  | .sp | .xzr => s

/-- Write where index 31 is the stack pointer. -/
def writeBase (s : Cpu) (g : Gpr) (w : BitVec 64) : Cpu :=
  match g with
  | .x n => { s with x := Function.update s.x n w }
  | .sp | .xzr => { s with sp := w }

/-- The double in a register. -/
def readD (s : Cpu) (f : Fpr) : BitVec 64 := (s.v f).setWidth 64

/-- A write of the whole register. -/
def writeV (s : Cpu) (f : Fpr) (w : BitVec 128) : Cpu :=
  { s with v := Function.update s.v f w }

/-- A write of the double, which clears the upper half. -/
def writeD (s : Cpu) (f : Fpr) (w : BitVec 64) : Cpu := s.writeV f (w.setWidth 128)

/-- One instruction. -/
def step (fp : FpUnit) (s : Cpu) : Inst → Cpu
  | .movXReg rd rm => s.writeX rd (s.readX rm)
  | .movDReg rd rn => s.writeV rd (s.v rn)
  | .movzImm rd imm hw => s.writeX rd (setQuad 0 hw imm)
  | .movnImm rd imm hw => s.writeX rd (~~~(setQuad 0 hw imm))
  | .movkImm rd imm hw => s.writeX rd (setQuad (s.readX rd) hw imm)
  | .orrImm rd rn n immr imms => s.writeBase rd (s.readX rn ||| decodeBitMasks n immr imms)
  | .addImm rd rn imm => s.writeBase rd (s.readBase rn + BitVec.ofNat 64 imm)
  | .addImmLsl12 rd rn imm => s.writeBase rd (s.readBase rn + BitVec.ofNat 64 (imm * 4096))
  | .fmovDFromX rd rn => s.writeD rd (s.readX rn)
  | .scvtfDX rd rn => s.writeD rd (fp.scvtf (s.readX rn))
  | .fcvtzsXD rd rn => s.writeX rd (fp.fcvtzs (s.readD rn))
  | .ldrX rt rn imm => s.writeX rt (load64 s.mem (s.readBase rn + BitVec.ofNat 64 (imm * 8)))
  | .strX rt rn imm =>
    { s with mem := store64 s.mem (s.readBase rn + BitVec.ofNat 64 (imm * 8)) (s.readX rt) }
  | .ldrD rt rn imm => s.writeD rt (load64 s.mem (s.readBase rn + BitVec.ofNat 64 (imm * 8)))
  | .strD rt rn imm =>
    { s with mem := store64 s.mem (s.readBase rn + BitVec.ofNat 64 (imm * 8)) (s.readD rt) }

/-- Execution of a straight-line instruction sequence. -/
def run (fp : FpUnit) (code : List Inst) (s : Cpu) : Cpu := code.foldl (step fp) s

@[simp] lemma run_nil (fp : FpUnit) (s : Cpu) : run fp [] s = s := rfl

@[simp] lemma run_cons (fp : FpUnit) (i : Inst) (code : List Inst) (s : Cpu) :
    run fp (i :: code) s = run fp code (step fp s i) := rfl

lemma run_append (fp : FpUnit) (a b : List Inst) (s : Cpu) :
    run fp (a ++ b) s = run fp b (run fp a s) := List.foldl_append ..

/-! ### What a write leaves -/

@[simp] lemma readX_writeX_self (s : Cpu) (n : Fin 31) (w : BitVec 64) :
    (s.writeX (.x n) w).readX (.x n) = w := Function.update_self ..

@[simp] lemma readX_writeBase_self (s : Cpu) (n : Fin 31) (w : BitVec 64) :
    (s.writeBase (.x n) w).readX (.x n) = w := Function.update_self ..

@[simp] lemma readBase_writeBase_self (s : Cpu) (n : Fin 31) (w : BitVec 64) :
    (s.writeBase (.x n) w).readBase (.x n) = w := Function.update_self ..

@[simp] lemma readD_writeD_self (s : Cpu) (f : Fpr) (w : BitVec 64) :
    (s.writeD f w).readD f = w := by
  simp [readD, writeD, writeV]

@[simp] lemma readD_writeV_self (s : Cpu) (f : Fpr) (w : BitVec 128) :
    (s.writeV f w).readD f = w.setWidth 64 := by
  simp [readD, writeV]

/-- The bits of a register, read as an operand: an integer register or a double. -/
def readReg (s : Cpu) : Reg → BitVec 64
  | .gpr g => s.readX g
  | .fpr f => s.readD f
  | .spillGpr off | .spillFpr off => load64 s.mem (s.sp + BitVec.ofNat 64 off)

/-- `t` agrees with `s` except for the registers of `X` and the bytes of `M`. -/
structure Keeps (X : Set Reg) (M : Set (BitVec 64)) (s t : Cpu) : Prop where
  sp : t.sp = s.sp
  x : ∀ n, Reg.gpr (.x n) ∉ X → t.x n = s.x n
  v : ∀ f, Reg.fpr f ∉ X → t.v f = s.v f
  mem : ∀ b, b ∉ M → t.mem b = s.mem b

namespace Keeps

variable {X Y : Set Reg} {M N : Set (BitVec 64)} {s t u : Cpu}

lemma refl (X : Set Reg) (M : Set (BitVec 64)) (s : Cpu) : Keeps X M s s :=
  ⟨rfl, fun _ _ => rfl, fun _ _ => rfl, fun _ _ => rfl⟩

lemma trans (h : Keeps X M s t) (h' : Keeps X M t u) : Keeps X M s u :=
  ⟨h'.sp.trans h.sp, fun n hn => (h'.x n hn).trans (h.x n hn),
    fun f hf => (h'.v f hf).trans (h.v f hf), fun b hb => (h'.mem b hb).trans (h.mem b hb)⟩

lemma mono (hX : X ⊆ Y) (hM : M ⊆ N) (h : Keeps X M s t) : Keeps Y N s t :=
  ⟨h.sp, fun n hn => h.x n fun hX' => hn (hX hX'), fun f hf => h.v f fun hX' => hf (hX hX'),
    fun b hb => h.mem b fun hM' => hb (hM hM')⟩

lemma readX (h : Keeps X M s t) {g : Gpr} (hg : Reg.gpr g ∉ X) : t.readX g = s.readX g := by
  cases g with
  | x n => exact h.x n hg
  | sp => rfl
  | xzr => rfl

lemma readD (h : Keeps X M s t) {f : Fpr} (hf : Reg.fpr f ∉ X) : t.readD f = s.readD f :=
  congrArg _ (h.v f hf)

lemma writeX (s : Cpu) {g : Gpr} (hg : Reg.gpr g ∈ X) (w : BitVec 64) :
    Keeps X M s (s.writeX g w) := by
  cases g with
  | x n =>
    refine ⟨rfl, fun m hm => ?_, fun _ _ => rfl, fun _ _ => rfl⟩
    have hne : m ≠ n := by
      rintro rfl
      exact hm hg
    exact Function.update_of_ne hne _ _
  | sp => exact refl X M s
  | xzr => exact refl X M s

lemma writeBase (s : Cpu) {n : Fin 31} (hn : Reg.gpr (.x n) ∈ X) (w : BitVec 64) :
    Keeps X M s (s.writeBase (.x n) w) :=
  writeX s hn w

lemma writeV (s : Cpu) {f : Fpr} (hf : Reg.fpr f ∈ X) (w : BitVec 128) :
    Keeps X M s (s.writeV f w) := by
  refine ⟨rfl, fun _ _ => rfl, fun m hm => ?_, fun _ _ => rfl⟩
  have hne : m ≠ f := by
    rintro rfl
    exact hm hf
  exact Function.update_of_ne hne _ _

lemma writeD (s : Cpu) {f : Fpr} (hf : Reg.fpr f ∈ X) (w : BitVec 64) :
    Keeps X M s (s.writeD f w) :=
  writeV s hf _

lemma store (s : Cpu) {a : BitVec 64} (w : BitVec 64) (h : bytesAt a ⊆ M) :
    Keeps X M s { s with mem := store64 s.mem a w } :=
  ⟨rfl, fun _ _ => rfl, fun _ _ => rfl, fun _ hb => store64_of_notMem fun hb' => hb (h hb')⟩

end Keeps

end Cpu

end Torajs.Codegen
