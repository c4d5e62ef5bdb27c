import Mathlib.Data.Finset.Insert
import Mathlib.Data.List.Basic
import ToraJs.Regex.Program

/-!
# The Pike VM

`vm::dispatch::add_thread` and `vm::match_at::vm_match_at`: the threads that wait at a
position, in priority order, and the loop that moves them one byte at a time.

A capture row is carried by value, where the source keeps it in an arena behind a
handle.  The visited stamps of a step are the set of the keys seen in that step; a
program without back references has the bare program counter as its key.  The answers
of the lookaround bodies come from the parameter `look`.
-/

namespace Torajs.Regex

/-- A row of capture slots; an unset slot is `none`, the `-1` of the source. -/
abbrev Row := List (Option ℕ)

/-- The outcome of a lookaround body at a position: the row its captures leave on
success. -/
abbrev LookProbe := LookKind → ℕ → ℕ → Option Row

/-- `Thread`. -/
structure Thread where
  pc : ℕ
  brOffset : ℕ
  uSkip : ℕ
  saves : Row
  deriving DecidableEq, Repr

/-- A `ThreadList` together with the `VisitedTable` of its step. -/
structure ThreadList where
  list : List Thread
  seen : Finset (ℕ × List (Option ℕ))
  deriving DecidableEq

namespace ThreadList

/-- A cleared list at the start of a step. -/
def empty : ThreadList := ⟨[], ∅⟩

/-- `ThreadList::push`. -/
def push (tl : ThreadList) (t : Thread) : ThreadList := { tl with list := tl.list ++ [t] }

end ThreadList

/-! ### Zero-width assertions -/

/-- `^` holds at `pos`. -/
def atLineStart (pad : UInt8) (s : List UInt8) (pos : ℕ) : Bool :=
  pos == 0 || (hasFlag pad RE_FLAG_M && LineTerminator.before s pos)

/-- `$` holds at `pos`. -/
def atLineEnd (pad : UInt8) (s : List UInt8) (pos : ℕ) : Bool :=
  pos == s.length || (hasFlag pad RE_FLAG_M && LineTerminator.atPos s pos)

/-- A word byte ends at `pos`. -/
def wordBefore (s : List UInt8) (pos : ℕ) : Bool := decide (0 < pos) && isWordByte (byteAt s (pos - 1))

/-- A word byte begins at `pos`. -/
def wordAfter (s : List UInt8) (pos : ℕ) : Bool := decide (pos < s.length) && isWordByte (byteAt s pos)

/-! ### Rows -/

/-- A slot of a row; a slot past the row is unset. -/
def readSlot (row : Row) (slot : ℕ) : Option ℕ := row.getD slot none

/-- `reset_slots`: the slots `first..stop` unset. -/
def resetSlots (row : Row) (first stop : ℕ) : Row :=
  row.mapIdx fun i v => if first ≤ i ∧ i < stop then none else v

/-- `backref_is_empty`: the group is unset, or captured the empty string. -/
def backrefIsEmpty (row : Row) (cap : ℕ) : Bool :=
  if 2 * cap + 1 < row.length then
    match readSlot row (2 * cap), readSlot row (2 * cap + 1) with
    | some cs, some ce => cap < 1 || ce ≤ cs
    | some _, none => true
    | none, _ => true
  else true

/-- `merge_sub_saves`: the set slots of a lookaround body, over the thread's row. -/
def mergeSubSaves (row sub : Row) : Row :=
  row.mapIdx fun i v => match readSlot sub i with
    | some x => some x
    | none => v

/-! ### Epsilon expansion -/

/-- The key a thread is deduplicated by: the program counter, and in a program with back
references also the spans they read and the iterations begun on the path. -/
def threadKey (prog : Program) (pc : ℕ) (row : Row) (iters : List ℕ) : ℕ × List (Option ℕ) :=
  if prog.backrefCaps.isEmpty then (pc, [])
  else (pc, (prog.backrefCaps.flatMap fun g => [readSlot row (2 * g), readSlot row (2 * g + 1)]) ++
    iters.map some)

/-- `add_thread`: follow the zero-width instructions from `pc` and park the threads that
wait for input.  `iters` are the `IterStart` counters on the path; the source pushes and
pops them on the visited table.  `fuel` bounds the recursion, which the keys already do. -/
def addThread (look : LookProbe) (prog : Program) (s : List UInt8) (pos : ℕ) :
    ℕ → ℕ → Row → List ℕ → ThreadList → ThreadList
  | 0, _, _, _, tl => tl
  | fuel + 1, pc, row, iters, tl =>
    match prog.insts[pc]? with
    | none => tl
    | some ins =>
      let key := threadKey prog pc row iters
      if key ∈ tl.seen then tl
      else
        let tl := { tl with seen := insert key tl.seen }
        let next (row : Row) (iters : List ℕ) : ThreadList :=
          addThread look prog s pos fuel (pc + 1) row iters tl
        let park : ThreadList := tl.push ⟨pc, 0, 0, row⟩
        match ins with
        | .jmp target => addThread look prog s pos fuel target row iters tl
        | .split a b =>
          addThread look prog s pos fuel b row iters
            (addThread look prog s pos fuel a row iters tl)
        | .save slot => next (row.set slot (some pos)) iters
        | .saveReset first stop => next (resetSlots row first stop) iters
        | .iterStart => next row (iters ++ [pc])
        | .iterCheck start => if start ∈ iters then tl else next row iters
        | .backref cap _ => if backrefIsEmpty row cap then next row iters else park
        | .anchorB pad => if atLineStart pad s pos then next row iters else tl
        | .anchorE pad => if atLineEnd pad s pos then next row iters else tl
        | .wBound => if wordBefore s pos != wordAfter s pos then next row iters else tl
        | .nwBound => if wordBefore s pos == wordAfter s pos then next row iters else tl
        | .look .ahead sub => match look .ahead sub pos with
          | some saves => next (mergeSubSaves row saves) iters
          | none => tl
        | .look .behind sub => match look .behind sub pos with
          | some saves => next (mergeSubSaves row saves) iters
          | none => tl
        | .look .negAhead sub => if (look .negAhead sub pos).isNone then next row iters else tl
        | .look .negBehind sub => if (look .negBehind sub pos).isNone then next row iters else tl
        | .char _ _ => park
        | .anyChar _ => park
        | .cls _ _ => park
        | .accept => park

/-! ### Consuming instructions -/

/-- The bytes `.` advances at `pos`: one character, in either mode. -/
def anyCharAdv (s : List UInt8) (pos : ℕ) (pad : UInt8) : Option ℕ :=
  if pos < s.length ∧ (hasFlag pad RE_FLAG_S ∨ ¬ LineTerminator.atPos s pos) then
    let ul := utf8LenFor (byteAt s pos)
    some (if ul ≥ 1 ∧ pos + ul ≤ s.length then ul else 1)
  else none

/-- The bytes a class advances at `pos`: a byte-only class one byte, any other one a code
point in unicode mode and a byte elsewhere. -/
def classAdv (prog : Program) (s : List UInt8) (pos : ℕ) (flags : UInt8) (idx : ℕ)
    (pad : UInt8) : Option ℕ :=
  if pos < s.length then
    let cc := prog.classAt idx
    let ci := hasFlag pad RE_FLAG_I
    if cc.byteOnly then
      if cc.testFold (byteAt s pos) ci then some 1 else none
    else if unicodeMode flags then
      let ul := utf8LenFor (byteAt s pos)
      if ul ≥ 1 ∧ pos + ul ≤ s.length then
        let (cp, decLen) := utf8DecodeCp s pos
        if cc.testCpFold cp ci then some (if decLen > 0 then decLen else ul) else none
      else if cc.testFold (byteAt s pos) ci then some 1 else none
    else if cc.testFold (byteAt s pos) ci then some 1 else none
  else none

/-- `add_thread_adv`: a step over `adv` bytes parks its threads `adv - 1` steps back. -/
def addThreadAdv (look : LookProbe) (prog : Program) (s : List UInt8) (fuel pc pos adv : ℕ)
    (row : Row) (nxt : ThreadList) : ThreadList :=
  let nBefore := nxt.list.length
  let nxt := addThread look prog s (pos + adv) fuel pc row [] nxt
  if adv > 1 then
    { nxt with list := nxt.list.take nBefore ++
        (nxt.list.drop nBefore).map fun th => { th with uSkip := adv - 1 } }
  else nxt

/-- `handle_backref`: match one byte of the captured string. -/
def handleBackref (look : LookProbe) (prog : Program) (s : List UInt8) (fuel pos : ℕ) (t : Thread)
    (cap : ℕ) (pad : UInt8) (nxt : ThreadList) : ThreadList :=
  let span := if cap ≥ 1 then
      match readSlot t.saves (2 * cap), readSlot t.saves (2 * cap + 1) with
      | some cs, some ce => some (cs, ce - cs)
      | _, _ => none
    else none
  match span with
  | some (cs, capLen) =>
    if pos < s.length ∧ charEq (byteAt s (cs + t.brOffset)) (byteAt s pos) pad then
      if t.brOffset + 1 = capLen then
        addThread look prog s (pos + 1) fuel (t.pc + 1) t.saves [] nxt
      else nxt.push ⟨t.pc, t.brOffset + 1, 0, t.saves⟩
    else nxt
  | none => nxt

/-! ### The loop -/

/-- The inner loop of one step: the threads of `cur` in order, up to a match that commits. -/
def runThreads (look : LookProbe) (prog : Program) (s : List UInt8) (flags : UInt8)
    (fuel pos : ℕ) (endTarget : Option ℕ) :
    List Thread → ThreadList → Option Row × ThreadList
  | [], nxt => (none, nxt)
  | t :: ts, nxt =>
    if t.uSkip > 0 then
      runThreads look prog s flags fuel pos endTarget ts
        (nxt.push { t with uSkip := t.uSkip - 1 })
    else
      let continueWith := runThreads look prog s flags fuel pos endTarget ts
      match prog.insts[t.pc]? with
      | some (.char lit pad) =>
        if pos < s.length ∧ charEq (Inst.byte lit) (byteAt s pos) pad then
          continueWith (addThread look prog s (pos + 1) fuel (t.pc + 1) t.saves [] nxt)
        else continueWith nxt
      | some (.anyChar pad) =>
        match anyCharAdv s pos pad with
        | some adv => continueWith (addThreadAdv look prog s fuel (t.pc + 1) pos adv t.saves nxt)
        | none => continueWith nxt
      | some (.cls idx pad) =>
        match classAdv prog s pos flags idx pad with
        | some adv => continueWith (addThreadAdv look prog s fuel (t.pc + 1) pos adv t.saves nxt)
        | none => continueWith nxt
      | some (.backref cap pad) =>
        continueWith (handleBackref look prog s fuel pos t cap pad nxt)
      | some .accept =>
        if endTarget = none ∨ endTarget = some pos then (some t.saves, nxt) else continueWith nxt
      | some (.anchorB _) | some (.anchorE _) | some .wBound | some .nwBound | some (.jmp _)
      | some (.split _ _) | some (.save _) | some (.look _ _) | some (.saveReset _ _)
      | some .iterStart | some (.iterCheck _) | none => continueWith nxt

/-- The outer loop: `steps` positions from `pos` are left.  `best` is the last match, its
end and its row. -/
def vmLoop (look : LookProbe) (prog : Program) (s : List UInt8) (flags : UInt8) (fuel : ℕ)
    (endTarget : Option ℕ) :
    ℕ → ℕ → List Thread → Option (ℕ × Row) → List Thread × Option (ℕ × Row)
  | 0, _, cur, best => (cur, best)
  | steps + 1, pos, cur, best =>
    if endTarget.any (· < pos) then (cur, best)
    else
      let (found, nxt) := runThreads look prog s flags fuel pos endTarget cur .empty
      let best := match found with
        | some row => some (pos, row)
        | none => best
      if nxt.list.isEmpty then ([], best)
      else vmLoop look prog s flags fuel endTarget steps (pos + 1) nxt.list best

/-- `match_at_eoi`: a thread on `Match` after the loop accepts at the end of the input. -/
def matchAtEoi (prog : Program) (slen : ℕ) (endTarget : Option ℕ) (cur : List Thread) :
    Option (ℕ × Row) :=
  if endTarget = none ∨ endTarget = some slen then
    (cur.find? fun t => prog.insts[t.pc]? = some .accept ∧ t.uSkip = 0).map fun t => (slen, t.saves)
  else none

/-- `vm_match_at`: the end of the match at `startPos` and its row, `none` for the `-1` of a
miss.  With `endTarget` only a match that ends there commits. -/
def vmMatchAt (look : LookProbe) (fuel : ℕ) (prog : Program) (s : List UInt8) (startPos : ℕ)
    (flags : UInt8) (endTarget : Option ℕ) : Option (ℕ × Row) :=
  let seed := addThread look prog s startPos fuel 0 (List.replicate prog.detectStride none) []
    .empty
  let (cur, best) := vmLoop look prog s flags fuel endTarget (s.length + 1 - startPos) startPos
    seed.list none
  match matchAtEoi prog s.length endTarget cur with
  | some m => some m
  | none => best

end Torajs.Regex
