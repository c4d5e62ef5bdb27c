import Mathlib.Logic.Function.Basic
import ToraJs.Regex.Pike

/-!
# The bounded backtracker

`vm::backtrack`: the captures of a match over a known window `[st, end]`.  One row is
changed in place, a stack of jobs holds the alternatives and what undoes the changes, and
a bit for each program counter and offset bounds the work.

The bit array and the table of iteration starts are functions on their indices, so that
what an earlier call left in them is part of the state.  A step of `run` is one turn of
the loop of `Walker::walk`, or of the loop of `captures_at` between two walks.
-/

namespace Torajs.Regex

/-! ### Eligibility -/

/-- `can_backtrack`: every instruction is one this pass executes, and every transfer of
control stays in the program. -/
def canBacktrack (prog : Program) : Bool :=
  let n := prog.len
  (List.range n).all fun i =>
    let fallsThrough : Bool := i + 1 < n
    match prog.insts[i]? with
    | some (.char _ _) | some (.anyChar _) | some (.anchorB _) | some (.anchorE _)
    | some .wBound | some .nwBound => fallsThrough
    | some (.cls idx _) => fallsThrough && idx < prog.classes.length
    | some (.save _) => fallsThrough
    | some (.saveReset first stop) => fallsThrough && first ≤ stop
    | some .iterStart => fallsThrough
    | some (.iterCheck start) => fallsThrough && start < n && prog.insts[start]? == some .iterStart
    | some (.jmp target) => target < n
    | some (.split a b) => a < n && b < n
    | some .accept => true
    | some (.look _ _) | some (.backref _ _) | none => false

/-! ### State -/

/-- `Job`. -/
inductive Job where
  /-- resume at `pc`, `off` bytes into the window -/
  | step (pc off : ℕ)
  /-- undo a capture write made on an abandoned path -/
  | restore (slot : ℕ) (old : Option ℕ)
  /-- undo the start position an abandoned path gave an iteration -/
  | restoreIter (pc : ℕ) (old : Option ℕ)
  deriving DecidableEq, Repr

/-- `Outcome`. -/
inductive Outcome where
  | found
  | noMatch
  | wideStep
  deriving DecidableEq, Repr

/-- `Backtrack`: the buffers that calls share.  An iteration that never began has no
start position. -/
structure Backtrack where
  stack : List Job
  visited : ℕ → Bool
  iterPos : ℕ → Option ℕ

namespace Backtrack

/-- `Backtrack::for_program`. -/
def forProgram : Backtrack := ⟨[], fun _ => false, fun _ => none⟩

end Backtrack

/-- `Walker`. -/
structure Walker where
  prog : Program
  s : List UInt8
  st : ℕ
  stop : ℕ
  width : ℕ
  unicode : Bool

namespace Walker

/-! ### One instruction -/

/-- `Walker::consume`: the bytes the consuming instruction advances at `pos`. -/
def consume (w : Walker) (ins : Inst) (pos : ℕ) : Option ℕ :=
  if pos ≥ w.stop then none
  else
    let b := byteAt w.s pos
    let ul := utf8LenFor b
    let wholeChar : Bool := ul ≥ 1 ∧ pos + ul ≤ w.s.length
    match ins with
    | .char lit pad => if charEq (Inst.byte lit) b pad then some 1 else none
    | .anyChar pad =>
      if hasFlag pad RE_FLAG_S = false ∧ LineTerminator.atPos w.s pos = true then none
      else some (if wholeChar then ul else 1)
    | .cls idx pad =>
      let cc := w.prog.classAt idx
      let ci := hasFlag pad RE_FLAG_I
      if cc.byteOnly = false ∧ w.unicode = true ∧ wholeChar = true then
        let (cp, decLen) := utf8DecodeCp w.s pos
        let adv := if decLen > 0 then decLen else ul
        if cc.testCpFold cp ci then some adv else none
      else if cc.testFold b ci then some 1 else none
    | _ => none

/-- `Walker::assertion_holds`. -/
def assertionHolds (w : Walker) (ins : Inst) (pos : ℕ) : Bool :=
  match ins with
  | .anchorB pad => atLineStart pad w.s pos
  | .anchorE pad => atLineEnd pad w.s pos
  | ins => (wordBefore w.s pos != wordAfter w.s pos) == (ins == .wBound)

/-- Where a turn of the loop of `Walker::walk` goes: on to a program counter and a
position, or out of the walk. -/
inductive Turn where
  | goto (pc pos : ℕ)
  | done (o : Outcome)
  deriving DecidableEq, Repr

/-- The loop of the `SaveReset` arm over the slots from `slot` on: the row without the
slots `first..stop`, and the jobs that bring the set ones back, last one first. -/
def resetLoop (first stop : ℕ) : ℕ → Row → Row × List Job
  | _, [] => ([], [])
  | slot, cell :: cells =>
    let (row, jobs) := resetLoop first stop (slot + 1) cells
    if first ≤ slot ∧ slot < stop ∧ cell.isSome then
      (none :: row, jobs ++ [.restore slot cell])
    else (cell :: row, jobs)

/-- One turn of the loop of `Walker::walk`. -/
def turn (w : Walker) (pc pos : ℕ) (bt : Backtrack) (row : Row) : Turn × Backtrack × Row :=
  let bit := pc * w.width + (pos - w.st)
  if bt.visited bit then (.done .noMatch, bt, row)
  else
    let bt := { bt with visited := Function.update bt.visited bit true }
    match w.prog.insts[pc]? with
    | some (.jmp target) => (.goto target pos, bt, row)
    | some (.split a b) =>
      (.goto a pos, { bt with stack := .step b (pos - w.st) :: bt.stack }, row)
    | some (.save slot) =>
      (.goto (pc + 1) pos, { bt with stack := .restore slot (readSlot row slot) :: bt.stack },
        row.set slot (some pos))
    | some (.saveReset first stop) =>
      let (row, jobs) := resetLoop first stop 0 row
      (.goto (pc + 1) pos, { bt with stack := jobs ++ bt.stack }, row)
    | some .iterStart =>
      (.goto (pc + 1) pos,
        { bt with
          stack := .restoreIter pc (bt.iterPos pc) :: bt.stack
          iterPos := Function.update bt.iterPos pc (some pos) }, row)
    | some (.iterCheck start) =>
      if bt.iterPos start = some pos then (.done .noMatch, bt, row) else (.goto (pc + 1) pos, bt, row)
    | some .accept =>
      if pos = w.stop then (.done .found, bt, row) else (.done .noMatch, bt, row)
    | some ins@(.char _ _) | some ins@(.anyChar _) | some ins@(.cls _ _) =>
      match w.consume ins pos with
      | some 1 => (.goto (pc + 1) (pos + 1), bt, row)
      | some _ => (.done .wideStep, bt, row)
      | none => (.done .noMatch, bt, row)
    | some ins =>
      if w.assertionHolds ins pos then (.goto (pc + 1) pos, bt, row) else (.done .noMatch, bt, row)
    | none => (.done .noMatch, bt, row)

/-! ### The loops -/

/-- The loop of `captures_at`, with the walk that is under way, if any: a walk takes its
next turn, and between two walks the top job is popped.  `none` when the bound on the
turns is reached. -/
def run (w : Walker) : ℕ → Option (ℕ × ℕ) → Backtrack → Row → Option (Outcome × Backtrack × Row)
  | 0, _, _, _ => none
  | n + 1, some (pc, pos), bt, row =>
    match w.turn pc pos bt row with
    | (.goto pc' pos', bt', row') => w.run n (some (pc', pos')) bt' row'
    | (.done .noMatch, bt', row') => w.run n none bt' row'
    | (.done o, bt', row') => some (o, bt', row')
  | n + 1, none, bt, row =>
    match bt.stack with
    | [] => some (.noMatch, bt, row)
    | .restore slot old :: jobs => w.run n none { bt with stack := jobs } (row.set slot old)
    | .restoreIter pc old :: jobs =>
      w.run n none { bt with stack := jobs, iterPos := Function.update bt.iterPos pc old } row
    | .step pc off :: jobs => w.run n (some (pc, w.st + off)) { bt with stack := jobs } row

end Walker

/-- The turns that a window can take: each bit is marked once, and a mark pushes at most
one job for each slot of the row and one more. -/
def turnBound (prog : Program) (row : Row) (width : ℕ) : ℕ :=
  prog.len * width * (2 * row.length + 4) + 4

/-- `captures_at`: the captures of the match of `prog` over exactly `[st, stop]`.  The bits
of this window are cleared, and what lies past them is kept. -/
def capturesAt (prog : Program) (s : List UInt8) (st stop : ℕ) (flags : UInt8) (bt : Backtrack)
    (row : Row) : Option (Outcome × Backtrack × Row) :=
  let width := stop - st + 1
  let words := (prog.len * width + 63) / 64
  let bt := { bt with
    visited := fun i => if i < 64 * words then false else bt.visited i
    stack := [.step 0 0] }
  let walker : Walker := ⟨prog, s, st, stop, width, unicodeMode flags⟩
  walker.run (turnBound prog row width) none bt row

end Torajs.Regex
