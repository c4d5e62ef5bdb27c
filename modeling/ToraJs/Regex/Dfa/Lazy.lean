import ToraJs.Regex.Dfa.Search

/-!
# The lazily filled table

`dfa::lazy`: the pool of a capped build, carried on one transition at a time.  An unfilled
transition reads as dead and its `known` bit is clear.

The bytes that a table holds depend on the capacities of its vectors, which the allocator
chooses, so `mem` is a parameter that may be any function of the table.  The counters that
only `mem` reads are left out, and so is the reservation of rows.
-/

namespace Torajs.Regex.Dfa

/-- `LazyDfa`.  The rows are in `dfa` at rest and in `pool` during a fill. -/
structure LazyDfa where
  dfa : DfaProgram
  pool : Pool
  known : List (UInt8 → Bool)
  exp : Expander
  prepared : Option ℕ
  budget : ℕ
  disabled : Bool
  clears : ℕ
  walked : ℕ
  walkedAtClear : ℕ
  gaveUp : Bool
  gaveUpAt : Option ℕ

/-- `MIN_CLEARS`. -/
def minClears : ℕ := 3

/-- `MIN_BYTES_PER_STATE`. -/
def minBytesPerState : ℕ := 10

/-- `table_view`. -/
def tableView (states : List DfaState) (starts : Starts) : DfaProgram where
  states := states
  starts := starts
  allStartsEqual := starts.allEqual
  anyAcceptBeforeByte := true
  poisoned := false

/-- The known bits of the rows of a capped build: those of the queued states are clear. -/
def adoptKnown (pool : Pool) : List (UInt8 → Bool) :=
  (List.range pool.states.length).map fun i _ => decide (i ∉ pool.work)

/-- The row of a complete state with the accept bits of its destinations. -/
def adoptRow (states : List DfaState) (row : DfaState) : DfaState :=
  { row with
    transitions := fun b =>
      ⟨(row.transitions b).state, (rowAt states (row.transitions b).state).isAccept, false⟩ }

/-- `adopt_rows`. -/
def adoptRows (pool : Pool) : Pool :=
  { pool with
    states := pool.states.mapIdx fun i row => if i ∈ pool.work then row else adoptRow pool.states row
    work := [] }

namespace LazyDfa

/-! ### Filling -/

/-- `take_rows`. -/
def takeRows (l : LazyDfa) : LazyDfa :=
  { l with pool := { l.pool with states := l.dfa.states }, dfa := { l.dfa with states := [] } }

/-- `store_rows`. -/
def storeRows (l : LazyDfa) : LazyDfa :=
  { l with dfa := { l.dfa with states := l.pool.states }, pool := { l.pool with states := [] } }

/-- The known bit of `(s, b)`. -/
def isKnown (l : LazyDfa) (s : ℕ) (b : UInt8) : Bool := l.known.getD s (fun _ => false) b

/-- A row with the transition on `b` filled. -/
def fillRow (b : UInt8) (word : TxWord) (acceptBefore : Bool) (row : DfaState) : DfaState :=
  { row with
    transitions := Function.update row.transitions b word
    acceptBeforeByte := if acceptBefore && !row.isAccept then Function.update row.acceptBeforeByte b true
      else row.acceptBeforeByte }

/-- Vec::resize of the known bits. -/
def resizeKnown (known : List (UInt8 → Bool)) (n : ℕ) : List (UInt8 → Bool) :=
  known.take n ++ List.replicate (n - known.length) fun _ => false

section Fill

variable (prog : Program) (split : Bool) (flags : UInt8)

/-- `fill_one`. -/
def fillOne (l : LazyDfa) (s : ℕ) (b : UInt8) : LazyDfa :=
  let l := l.takeRows
  let item := l.pool.items.getD s {}
  let pool := { l.pool with items := l.pool.items.set s {} }
  let exp := if l.prepared ≠ some s then l.exp.prepare prog split item else l.exp
  let ((next, acceptBefore), exp, pool) := exp.step prog split flags item b pool
  let word : TxWord := ⟨next, (rowAt pool.states next).isAccept, false⟩
  let known := resizeKnown l.known pool.states.length
  let pool := { pool with
    items := pool.items.set s item
    work := []
    states := pool.states.modify s (fillRow b word acceptBefore) }
  { l with
    pool := pool
    exp := exp
    prepared := some s
    known := known.modify s fun k => Function.update k b true }.storeRows

/-- The loop of `fill_entries` over the bytes of one row: whether nothing was poisoned. -/
def fillEntry (s : ℕ) : List UInt8 → LazyDfa → Bool × LazyDfa
  | [], l => (true, l)
  | b :: bytes, l =>
    let l := if l.isKnown s b then l else l.fillOne prog split flags s b
    if l.pool.poisoned then (false, { l with disabled := true }) else fillEntry s bytes l

/-- The loop of `fill_entries` over the entry states. -/
def fillRows : List ℕ → LazyDfa → Bool × LazyDfa
  | [], l => (true, l)
  | s :: starts, l =>
    match fillEntry prog split flags s allBytes l with
    | (false, l) => (false, l)
    | (true, l) => fillRows starts l

variable (mem : LazyDfa → ℕ)

/-- `fill_entries`. -/
def fillEntries (l : LazyDfa) : Bool × LazyDfa :=
  let starts := [l.dfa.starts.start, l.dfa.starts.midWord, l.dfa.starts.midNonword]
  match fillRows prog split flags starts l with
  | (false, l) => (false, l)
  | (true, l) =>
    let l := if mem l > l.budget then { l with disabled := true } else l
    (!l.disabled, l)

/-- `clear`: drop every state, reseed the entry states and intern state `s` again. -/
def clear (l : LazyDfa) (s : ℕ) : Option ℕ × LazyDfa :=
  let item := l.pool.items.getD s {}
  let (starts, pool) := seedStarts prog split flags l.pool.reset
  let (s, pool) := internState prog split flags (internFuel prog) item pool
  let pool := { pool with work := [] }
  let l := { l with
    pool := pool
    known := List.replicate pool.states.length fun _ => false
    prepared := none
    dfa := tableView [] starts }
  match l.storeRows.fillEntries prog split flags mem with
  | (false, l) => (none, l)
  | (true, l) => (some s, l)

/-- The part of `try_fill` after a clear, if there was one. -/
def fillAt (l : LazyDfa) (s : ℕ) (b : UInt8) : Option ℕ × LazyDfa :=
  let l := l.fillOne prog split flags s b
  if l.pool.poisoned then (none, { l with disabled := true }) else (some s, l)

/-- `try_fill`. -/
def tryFill (l : LazyDfa) (s : ℕ) (b : UInt8) (cursor : ℕ) : Option ℕ × LazyDfa :=
  if mem l > l.budget then
    let walked := l.walked + cursor
    if l.clears ≥ minClears ∧ walked - l.walkedAtClear < minBytesPerState * l.known.length then
      (none, l)
    else
      match l.clear prog split flags mem s with
      | (none, l) => (none, l)
      | (some s, l) =>
        fillAt prog split flags { l with clears := l.clears + 1, walkedAtClear := walked } s b
  else fillAt prog split flags l s b

/-- `fill`. -/
def fill (l : LazyDfa) (s : ℕ) (b : UInt8) (cursor : ℕ) : Option ℕ × LazyDfa :=
  let (r, l) := l.tryFill prog split flags mem s b cursor
  (r, { l with gaveUp := l.gaveUp || r.isNone })

/-- `LazyDfa::new`: none where the entry rows poison the program or overrun the budget. -/
def new (part : PartialDfa) (budget : ℕ) : Option LazyDfa :=
  let pool := adoptRows part.pool
  let l : LazyDfa :=
    { dfa := tableView [] part.starts
      pool := pool
      known := adoptKnown part.pool
      exp := .new
      prepared := none
      budget := budget
      disabled := false
      clears := 0
      walked := 0
      walkedAtClear := 0
      gaveUp := false
      gaveUpAt := none }
  match l.storeRows.fillEntries prog split flags mem with
  | (false, _) => none
  | (true, l) => some l

end Fill

/-! ### Searching -/

/-- `begin_search`: whether the table serves the search. -/
def beginSearch (l : LazyDfa) : Bool × LazyDfa :=
  (!l.disabled,
    { l with clears := 0, walked := 0, walkedAtClear := 0, gaveUp := false, gaveUpAt := none })

/-- `stop_at`. -/
def stopAt (l : LazyDfa) (st : ℕ) : Bool × LazyDfa :=
  (l.gaveUp, if l.gaveUp then { l with gaveUpAt := some st } else l)

/-- `LazyTable`. -/
def table (prog : Program) (split : Bool) (flags : UInt8) (mem : LazyDfa → ℕ) : Table LazyDfa where
  lazy := true
  dfa := LazyDfa.dfa
  known := isKnown
  fill := fill prog split flags mem
  noteWalked l bytes := { l with walked := l.walked + bytes }
  stopAt := stopAt

/-- What the lazy half of `search_from_with_ws` comes to. -/
inductive Outcome where
  | hit (st stop : ℕ)
  | miss
  /-- the Pike VM takes over at `st` -/
  | resumeAt (st : ℕ)
  deriving DecidableEq, Repr

/-- The lazy half of `search_from_with_ws`. -/
def search (prog : SearchProgram) (mem : LazyDfa → ℕ) (l : LazyDfa) (s : List UInt8)
    (fromPos : ℕ) (flags : UInt8) (haystackIsAscii : Bool) : Outcome × LazyDfa :=
  match l.beginSearch with
  | (false, l) => (.resumeAt fromPos, l)
  | (true, l) =>
    let T := table prog.toProgram (progUsesWordBoundary prog) flags mem
    match dfaFindFrom T prog l s fromPos flags haystackIsAscii with
    | (some (st, stop), l) => (.hit st stop, l)
    | (none, l) =>
      match l.gaveUpAt with
      | some st => (.resumeAt st, l)
      | none => (.miss, l)

end LazyDfa

end Torajs.Regex.Dfa
