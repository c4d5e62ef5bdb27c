import ToraJs.Regex.Dfa.Closure

/-!
# Interning states

`dfa::pool`, `dfa::pending_class`, `dfa::intern` and `dfa::expand`: a state of the DFA is
a set of ready program counters, the sets parked behind a character's tail and the class of
the byte before the cursor.  A state is interned by its key, with the rows of all states in
one pool.

The flattened key of the source separates the lists by a word that is no program counter,
so it is the triple itself here, and the hash map from keys to indices is a search for the
key.  A packed transition word is the record of its index and its two flag bits.
-/

namespace Torajs.Regex.Dfa

/-! ### States -/

/-- `StateItem`. -/
@[ext]
structure StateItem where
  ready : List ℕ := []
  deferred : Deferred := {}
  attr : LeftByteAttr := .textStart
  deriving DecidableEq, Repr

/-- Nothing is ready and nothing is parked. -/
def StateItem.isEmpty (item : StateItem) : Bool := item.ready.isEmpty && item.deferred.isEmpty

/-- `PendingClass`. -/
structure PendingClass where
  active : Bool
  classIdx : ℕ
  yesTarget : ℕ
  noTarget : ℕ
  deriving DecidableEq, Repr

/-- `PendingClass::INERT`. -/
def PendingClass.inert : PendingClass := ⟨false, 0, 0, 0⟩

/-- A packed transition word: the index of the destination, its `is_accept` and its
`monotone_accept`. -/
structure TxWord where
  state : ℕ
  accept : Bool
  monotone : Bool
  deriving DecidableEq, Repr

/-- The word of a plain index. -/
def TxWord.plain (state : ℕ) : TxWord := ⟨state, false, false⟩

/-- `DfaState`. -/
structure DfaState where
  transitions : UInt8 → TxWord := fun _ => .plain 0
  isAccept : Bool := false
  isAcceptAtEnd : Bool := false
  monotoneAccept : Bool := false
  acceptBeforeByte : UInt8 → Bool := fun _ => false
  pendingClass : PendingClass := .inert

/-- `Pool`. -/
structure Pool where
  states : List DfaState
  keys : List StateItem
  items : List StateItem
  work : List ℕ
  poisoned : Bool

/-- `Pool::new`. -/
def Pool.new : Pool := ⟨[], [], [], [], false⟩

/-- `Pool::reset`: only the dead state is left.  The poison flag stays. -/
def Pool.reset (pool : Pool) : Pool :=
  { pool with states := [{}], keys := [{}], items := [{}], work := [] }

/-- `flatten_key`, of the effective attribute: without word boundaries the attributes fold
onto one. -/
def flattenKey (split : Bool) (item : StateItem) : StateItem :=
  if split then item else { item with attr := .textStart }

/-- `KeyMap::find`.  The key of the dead state is never entered. -/
def Pool.find (pool : Pool) (key : StateItem) : Option ℕ :=
  (pool.keys.tail.findIdx? (· == key)).map (· + 1)

/-! ### Pending classes -/

/-- `CharClass::is_uflag_property_only`. -/
def isUflagPropertyOnly (cc : CharClass) : Bool :=
  (!cc.uPropTables.isEmpty || !cc.ownedRanges.isEmpty) && !cc.negate && cc.bits >>> 128 == 0

/-- `CharClass::test_cp`. -/
def testCp (cc : CharClass) (cp : ℕ) : Bool := if cc.negate then !cc.rawTestCp cp else cc.rawTestCp cp

section Pending

variable (prog : Program)

/-- `kproperty_pc_for`. -/
def kpropertyPcFor (pc : ℕ) (flags : UInt8) : Option ℕ :=
  if unicodeMode flags then
    match prog.insts[pc]? with
    | some (.cls idx _) =>
      match prog.classes[idx]? with
      | some cls => if isUflagPropertyOnly cls then some idx else none
      | none => none
    | some _ | none => none
  else none

/-- `KPropertyVerdict`. -/
inductive KPropertyVerdict where
  | noKProperty
  | shape (classIdx : ℕ) (yesSeeds : List ℕ)
  | unserveable
  deriving DecidableEq, Repr

/-- The first loop of `classify_kproperty_shape`: the first class index and the program
counters of the property classes, unless two of them differ. -/
def collectKProperty (flags : UInt8) : List ℕ → Option ℕ → List ℕ → Option (Option ℕ × List ℕ)
  | [], classIdx, pcs => some (classIdx, pcs)
  | pc :: ready, classIdx, pcs =>
    match kpropertyPcFor prog pc flags with
    | none => collectKProperty flags ready classIdx pcs
    | some cidx =>
      match classIdx with
      | none => collectKProperty flags ready (some cidx) (pcs ++ [pc])
      | some existing =>
        if existing ≠ cidx ∧ prog.classAt existing ≠ prog.classAt cidx then none
        else collectKProperty flags ready classIdx (pcs ++ [pc])

/-- The second loop of `classify_kproperty_shape`: another consumer that can eat a byte of
a character's lead. -/
def stealsLead (flags : UInt8) (pc : ℕ) : Bool :=
  (kpropertyPcFor prog pc flags).isNone &&
    match prog.insts[pc]? with
    | some (.char lit _) => 0x80 ≤ Inst.byte lit
    | some (.anyChar _) => true
    | some (.cls idx _) =>
      match prog.classes[idx]? with
      | some cc => cc.negate || cc.bits >>> 128 != 0
      | none => false
    | some _ | none => false

/-- `classify_kproperty_shape`. -/
def classifyKpropertyShape (ready : List ℕ) (deferred : Deferred) (flags : UInt8) :
    KPropertyVerdict :=
  match collectKProperty prog flags ready none [] with
  | none => .unserveable
  | some (none, _) => .noKProperty
  | some (some classIdx, pcs) =>
    if deferred.isEmpty = false then .unserveable
    else if ready.any (stealsLead prog flags) then .unserveable
    else .shape (classIdx % 2 ^ 16) (pcs.map (· + 1))

/-- The item of the `yes_target` of a pending class. -/
def yesItem (yesSeeds : List ℕ) (attr : LeftByteAttr) : StateItem :=
  ⟨closureSorted prog yesSeeds (ctxFor attr), {}, attr⟩

/-- `fresh_row`. -/
def freshRow (ready : List ℕ) (attr : LeftByteAttr) : DfaState :=
  { isAccept := pcSetIsAccept prog ready
    isAcceptAtEnd := pcSetIsAcceptAtEnd prog ready attr }

end Pending

/-! ### Interning -/

section Intern

variable (prog : Program) (split : Bool) (flags : UInt8)

/-- Reserve the slot of a new state. -/
def Pool.reserve (pool : Pool) (row : DfaState) (key : StateItem) : Pool :=
  { pool with
    states := pool.states ++ [row]
    keys := pool.keys ++ [key]
    items := pool.items ++ [{}] }

/-- Finish the slot `i`: its pending class, its item and its place in the queue. -/
def Pool.complete (pool : Pool) (i : ℕ) (pending : PendingClass) (item : StateItem) : Pool :=
  { pool with
    states := pool.states.modify i fun row => { row with pendingClass := pending }
    items := pool.items.set i item
    work := i :: pool.work }

/-- `intern_state`, with `compute_pending_class_for` in place.  The recursion goes through
new ready sets, so a bound above their number is never reached. -/
def internState : ℕ → StateItem → Pool → ℕ × Pool
  | 0, _, pool => (0, { pool with poisoned := true })
  | fuel + 1, item, pool =>
    if item.isEmpty then (0, pool)
    else
      match pool.find (flattenKey split item) with
      | some i => (i, pool)
      | none =>
        let i := pool.states.length
        let pool := pool.reserve (freshRow prog item.ready item.attr) (flattenKey split item)
        match classifyKpropertyShape prog item.ready item.deferred flags with
        | .noKProperty => (i, pool.complete i .inert item)
        | .unserveable => (i, { pool with poisoned := true }.complete i .inert item)
        | .shape classIdx yesSeeds =>
          let (yesTarget, pool) := internState fuel (yesItem prog yesSeeds item.attr) pool
          (i, pool.complete i ⟨true, classIdx, yesTarget, 0⟩ item)

/-- More than the sets of program counters. -/
def internFuel : ℕ := 2 ^ prog.len + 2

/-- `Starts`: the entry states at the text start, after a word byte and after another. -/
structure Starts where
  start : ℕ
  midWord : ℕ
  midNonword : ℕ
  deriving DecidableEq, Repr

/-- The item of an entry state. -/
def startItem (attr : LeftByteAttr) : StateItem := ⟨closureSorted prog [0] (ctxFor attr), {}, attr⟩

/-- `seed_start`. -/
def seedStart (attr : LeftByteAttr) (pool : Pool) : ℕ × Pool :=
  internState prog split flags (internFuel prog) (startItem prog attr) pool

/-- `seed_starts`. -/
def seedStarts (pool : Pool) : Starts × Pool :=
  let (start, pool) := seedStart prog split flags .textStart pool
  let (midWord, pool) := seedStart prog split flags .word pool
  let (midNonword, pool) := seedStart prog split flags .nonWord pool
  (⟨start, midWord, midNonword⟩, pool)

end Intern

/-! ### Expanding -/

/-- `Expander`: the closure that the bytes of a row share, and its verdict. -/
structure Expander where
  closedWithRight : List ℕ
  wholeAccept : Bool

namespace Expander

/-- `Expander::new`. -/
def new : Expander := ⟨[], false⟩

section Step

variable (prog : Program) (split : Bool) (flags : UInt8)

/-- `Expander::close`. -/
def close (exp : Expander) (item : StateItem) (ctx : PositionCtx) (atWb : Bool) : Expander :=
  { exp with closedWithRight := closureInto prog item.ready ctx (some atWb) }

/-- `Expander::prepare`. -/
def prepare (exp : Expander) (item : StateItem) : Expander :=
  if split then exp
  else
    let ctx := ctxFor item.attr
    let exp := exp.close prog item ctx (ctx.atWordBoundary none)
    { exp with wholeAccept := pcSetIsAccept prog exp.closedWithRight }

/-- The closure before `byte`, and whether a zero-width accept sits there. -/
def beforeByte (exp : Expander) (item : StateItem) (byte : UInt8) : Expander × Bool :=
  if split then
    let ctx := ctxFor item.attr
    let exp := exp.close prog item ctx (ctx.atWordBoundary (some byte))
    (exp, pcSetIsAccept prog exp.closedWithRight)
  else (exp, exp.wholeAccept)

/-- The item after `byte`. -/
def nextItem (exp : Expander) (item : StateItem) (byte : UInt8) : StateItem :=
  let (readyFromStep, deferredFromStep) := byteStepInto prog exp.closedWithRight byte
  let (nextReady, nextDeferred) :=
    advanceDeferred prog byte item.deferred readyFromStep deferredFromStep
  ⟨nextReady, nextDeferred, attrOfByte byte⟩

/-- `Expander::step`: the target and whether a zero-width accept sits before `byte`. -/
def step (exp : Expander) (item : StateItem) (byte : UInt8) (pool : Pool) :
    (ℕ × Bool) × Expander × Pool :=
  let (exp, acceptBefore) := exp.beforeByte prog split item byte
  let (next, pool) :=
    internState prog split flags (internFuel prog) (exp.nextItem prog item byte) pool
  ((next, acceptBefore), exp, pool)

end Step

end Expander

end Torajs.Regex.Dfa
