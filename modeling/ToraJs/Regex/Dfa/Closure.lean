import ToraJs.Regex.Program
import Mathlib.Data.List.Sort
import Mathlib.Algebra.Group.Nat.Defs

/-!
# Epsilon closures and byte steps

`dfa::ctx`, `dfa::build_helpers` and `dfa::step`: the sets of program counters that the
subset construction walks.  A set is the list of its members; the closure keeps them in
the order it met them, and the keys of the construction are sorted.
-/

namespace Torajs.Regex.Dfa

/-- A program with the fields that the DFA and the search drivers read beside its
instructions and classes. -/
structure SearchProgram extends Program where
  /-- the instructions of the lookaround bodies -/
  subInsts : List (List Inst)
  prefixByte : Option UInt8
  hasMlAnchorB : Bool

/-! ### Contexts -/

/-- `LeftByteAttr`. -/
inductive LeftByteAttr where
  | textStart
  | word
  | nonWord
  deriving DecidableEq, Repr

/-- `PositionCtx`. -/
structure PositionCtx where
  leftByte : Option UInt8
  isTextStart : Bool
  isTextEnd : Bool
  deriving DecidableEq, Repr

/-- `PositionCtx::at_word_boundary`. -/
def PositionCtx.atWordBoundary (ctx : PositionCtx) (rightByte : Option UInt8) : Bool :=
  ctx.leftByte.any isWordByte != rightByte.any isWordByte

/-- `attr_of_byte`. -/
def attrOfByte (b : UInt8) : LeftByteAttr := if isWordByte b then .word else .nonWord

/-- `attr_to_left_byte`: a representative of the class. -/
def attrToLeftByte : LeftByteAttr → Option UInt8
  | .textStart => none
  | .word => some 0x61
  | .nonWord => some 0x20

/-- `ctx_for`. -/
def ctxFor (attr : LeftByteAttr) : PositionCtx :=
  ⟨attrToLeftByte attr, decide (attr = .textStart), false⟩

/-- `anchor_b_advances`. -/
def anchorBAdvances (ctx : PositionCtx) (pad : UInt8) : Bool :=
  ctx.isTextStart || (hasFlag pad RE_FLAG_M && ctx.leftByte == some 0x0A)

/-- `prog_uses_word_boundary`. -/
def progUsesWordBoundary (prog : SearchProgram) : Bool :=
  let scan (insts : List Inst) := insts.any fun ins => ins == .wBound || ins == .nwBound
  scan prog.insts || prog.subInsts.any scan

/-! ### The closure -/

section Closure

variable (prog : Program)

/-- Where the closure goes on from a program counter.  `wbound` is `none` where the word
boundaries stay terminal. -/
def epsTargets (ctx : PositionCtx) (wbound : Option Bool) (pc : ℕ) : List ℕ :=
  match prog.insts[pc]? with
  | some (.jmp target) => [target]
  | some (.split a b) => [a, b]
  | some (.anchorB pad) => if anchorBAdvances ctx pad then [pc + 1] else []
  | some (.anchorE _) => if ctx.isTextEnd then [pc + 1] else []
  | some .wBound => if wbound = some true then [pc + 1] else []
  | some .nwBound => if wbound = some false then [pc + 1] else []
  | some (.save _) | some (.saveReset _ _) | some .iterStart | some (.iterCheck _) => [pc + 1]
  | some (.char _ _) | some (.anyChar _) | some (.cls _ _) | some .accept | some (.look _ _)
  | some (.backref _ _) | none => []

/-- Insert a program counter that is new and in the program, and push it on the stack. -/
def pushPc (acc : List ℕ × List ℕ) (pc : ℕ) : List ℕ × List ℕ :=
  if pc < prog.len ∧ pc ∉ acc.1 then (acc.1 ++ [pc], pc :: acc.2) else acc

/-- The loop of `closure_into`.  Every program counter is pushed once, so the length of the
program bounds the turns. -/
def closureLoop (ctx : PositionCtx) (wbound : Option Bool) : ℕ → List ℕ × List ℕ → List ℕ
  | 0, acc => acc.1
  | _ + 1, (closed, []) => closed
  | n + 1, (closed, pc :: work) =>
    closureLoop ctx wbound n ((epsTargets prog ctx wbound pc).foldl (pushPc prog) (closed, work))

/-- `closure_into`, from an empty set. -/
def closureInto (seeds : List ℕ) (ctx : PositionCtx) (wbound : Option Bool) : List ℕ :=
  closureLoop prog ctx wbound prog.len (seeds.foldl (pushPc prog) ([], []))

/-- `Pool::closure_sorted`. -/
def closureSorted (seeds : List ℕ) (ctx : PositionCtx) : List ℕ :=
  (closureInto prog seeds ctx none).insertionSort (· ≤ ·)

/-- `pc_set_is_accept`. -/
def pcSetIsAccept (set : List ℕ) : Bool := set.any fun pc => prog.insts[pc]? == some .accept

/-- `pc_set_is_accept_at_end`. -/
def pcSetIsAcceptAtEnd (set : List ℕ) (attr : LeftByteAttr) : Bool :=
  let ctx := { ctxFor attr with isTextEnd := true }
  pcSetIsAccept prog (closureInto prog set ctx (some (ctx.atWordBoundary none)))

end Closure

/-! ### The byte step -/

/-- `LT_PENDING`: the tag of a program counter that a `.` without `s` parked behind an `E2`
lead. -/
def LT_PENDING : ℕ := 2 ^ 30

/-- Program counters behind the tail of a character: ready in one, two or three
continuation bytes. -/
structure Deferred where
  one : List ℕ := []
  two : List ℕ := []
  three : List ℕ := []
  deriving DecidableEq, Repr

/-- All three lists are empty. -/
def Deferred.isEmpty (d : Deferred) : Bool := d.one.isEmpty && d.two.isEmpty && d.three.isEmpty

section ByteStep

variable (prog : Program)

/-- One program counter of `byte_step_into`. -/
def byteStepOne (byte : UInt8) (acc : List ℕ × Deferred) (pc : ℕ) : List ℕ × Deferred :=
  match prog.insts[pc]? with
  | some (.char lit pad) =>
    if charEq (Inst.byte lit) byte pad ∧ pc + 1 < prog.len then (acc.1 ++ [pc + 1], acc.2) else acc
  | some (.anyChar pad) =>
    let sFlag := hasFlag pad RE_FLAG_S
    if sFlag = false ∧ (byte = 0x0A ∨ byte = 0x0D) then acc
    else if pc + 1 ≥ prog.len then acc
    else if 0xC2 ≤ byte ∧ byte ≤ 0xDF then
      (acc.1, { acc.2 with one := acc.2.one ++ [pc + 1] })
    else if byte = 0xE2 ∧ sFlag = false then
      -- U+2028 and U+2029 lead with E2 80: the tail decides
      (acc.1, { acc.2 with two := acc.2.two ++ [pc + 1 + LT_PENDING] })
    else if 0xE0 ≤ byte ∧ byte ≤ 0xEF then
      (acc.1, { acc.2 with two := acc.2.two ++ [pc + 1] })
    else if 0xF0 ≤ byte ∧ byte ≤ 0xF4 then
      (acc.1, { acc.2 with three := acc.2.three ++ [pc + 1] })
    else (acc.1 ++ [pc + 1], acc.2)
  | some (.cls idx pad) =>
    match prog.classes[idx]? with
    | some cls =>
      if cls.testFold byte (hasFlag pad RE_FLAG_I) ∧ pc + 1 < prog.len then
        (acc.1 ++ [pc + 1], acc.2)
      else acc
    | none => acc
  | some (.anchorB _) | some (.anchorE _) | some .wBound | some .nwBound | some (.jmp _)
  | some (.split _ _) | some .accept | some (.save _) | some (.look _ _) | some (.backref _ _)
  | some (.saveReset _ _) | some .iterStart | some (.iterCheck _) | none => acc

/-- `byte_step_into`, from empty lists. -/
def byteStepInto (states : List ℕ) (byte : UInt8) : List ℕ × Deferred :=
  states.foldl (byteStepOne prog byte) ([], {})

/-- A parked program counter may still be a line terminator's. -/
def ltPending (pc : ℕ) : Bool := LT_PENDING ≤ pc

/-- A parked program counter without the tag. -/
def clearLtPending (pc : ℕ) : ℕ := if ltPending pc then pc - LT_PENDING else pc

/-- Sorted and without repetition. -/
def sortDedup (pcs : List ℕ) : List ℕ := (pcs.insertionSort (· ≤ ·)).dedup

/-- `second_of_e2`: only `E2 80` can still be a line terminator. -/
def secondOfE2 (parked : List ℕ) (byte : UInt8) : List ℕ :=
  if byte = 0x80 ∨ parked.all (fun pc => !ltPending pc) = true then parked
  else sortDedup (parked.map clearLtPending)

/-- Join the fresh deferred program counters to those carried forward. -/
def joinDeferred (carried fresh : List ℕ) : List ℕ :=
  if fresh.isEmpty then carried else sortDedup (carried ++ fresh)

/-- `advance_deferred`: the ready set and the deferred sets after `byte`. -/
def advanceDeferred (byte : UInt8) (cur : Deferred) (readyFromStep : List ℕ)
    (deferredFromStep : Deferred) : List ℕ × Deferred :=
  let isContinuation : Bool := 0x80 ≤ byte && byte ≤ 0xBF
  let carried : Deferred := if isContinuation then ⟨secondOfE2 cur.two byte, cur.three, []⟩ else {}
  let nextDeferred : Deferred :=
    ⟨joinDeferred carried.one deferredFromStep.one, joinDeferred carried.two deferredFromStep.two,
      joinDeferred carried.three deferredFromStep.three⟩
  let mergedSeeds :=
    if isContinuation then
      let lineTerminator : Bool := byte == 0xA8 || byte == 0xA9
      let promoted := (cur.one.filter fun pc => !(ltPending pc && lineTerminator)).map clearLtPending
      sortDedup (readyFromStep ++ promoted)
    else readyFromStep
  let nextReady :=
    if mergedSeeds.isEmpty then []
    else closureSorted prog mergedSeeds ⟨some byte, false, false⟩
  (nextReady, nextDeferred)

end ByteStep

end Torajs.Regex.Dfa
