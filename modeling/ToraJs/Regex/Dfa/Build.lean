import ToraJs.Regex.Dfa.Intern

/-!
# The eager table

`dfa::build`: the subset construction with a cap on the states.  A build that outgrows the
cap hands its pool on.
-/

namespace Torajs.Regex.Dfa

/-- All bytes, in order. -/
def allBytes : List UInt8 := (List.range 256).map UInt8.ofNat

lemma mem_allBytes (b : UInt8) : b ∈ allBytes :=
  List.mem_map.mpr ⟨b.toNat, List.mem_range.mpr b.toNat_lt, UInt8.ofNat_toNat⟩

/-- `DfaProgram`. -/
structure DfaProgram where
  states : List DfaState
  starts : Starts
  allStartsEqual : Bool
  anyAcceptBeforeByte : Bool
  poisoned : Bool

/-- The row of a state. -/
def rowAt (states : List DfaState) (i : ℕ) : DfaState := states.getD i {}

/-- `PartialDfa`, without the bit that `prog_uses_word_boundary` answers. -/
structure PartialDfa where
  pool : Pool
  starts : Starts

/-- `CappedDfa`. -/
inductive CappedDfa where
  | table (dfa : DfaProgram)
  | over (part : PartialDfa)

/-! ### Finishing -/

/-- `compute_monotone_accept`, of one state. -/
def computeMonotone (states : List DfaState) (row : DfaState) : Bool :=
  let accepts (target : ℕ) : Bool := target == 0 || (rowAt states target).isAccept
  row.isAccept && allBytes.all (fun b => accepts (row.transitions b).state) &&
    (!row.pendingClass.active ||
      (accepts row.pendingClass.yesTarget && accepts row.pendingClass.noTarget))

/-- `compute_monotone_accept`.  The dead state does not accept. -/
def computeMonotoneAccept (states : List DfaState) : List DfaState :=
  states.map fun row => { row with monotoneAccept := computeMonotone states row }

/-- The word of a destination with its flag bits. -/
def foldWord (states : List DfaState) (word : TxWord) : TxWord :=
  ⟨word.state, (rowAt states word.state).isAccept, (rowAt states word.state).monotoneAccept⟩

/-- `fold_accept_bits`. -/
def foldAcceptBits (states : List DfaState) : List DfaState :=
  states.map fun row => { row with transitions := fun b => foldWord states (row.transitions b) }

/-- The three entry states are one. -/
def Starts.allEqual (starts : Starts) : Bool :=
  starts.start == starts.midWord && starts.start == starts.midNonword

/-- `finish_dfa`. -/
def finishDfa (states : List DfaState) (starts : Starts) (poisoned : Bool) : DfaProgram where
  states := foldAcceptBits (computeMonotoneAccept states)
  starts := starts
  allStartsEqual := starts.allEqual
  anyAcceptBeforeByte := states.any fun row => allBytes.any row.acceptBeforeByte
  poisoned := poisoned

/-! ### Building -/

section Build

variable (prog : Program) (split : Bool) (flags : UInt8)

/-- The loop of `expand_row` over `bytes`, with the transitions and the accept mask filled
so far.  The row is lost when an intern poisons the pool. -/
def expandBytes (item : StateItem) :
    List UInt8 → Expander → Pool → (UInt8 → TxWord) × (UInt8 → Bool) →
      Option ((UInt8 → TxWord) × (UInt8 → Bool)) × Expander × Pool
  | [], exp, pool, row => (some row, exp, pool)
  | byte :: bytes, exp, pool, row =>
    let ((next, acceptBefore), exp, pool) := exp.step prog split flags item byte pool
    let row := (Function.update row.1 byte (.plain next),
      if acceptBefore then Function.update row.2 byte true else row.2)
    if pool.poisoned then (none, exp, pool) else expandBytes item bytes exp pool row

/-- `expand_row`.  Only states that do not accept carry a mask. -/
def expandRow (i : ℕ) (pool : Pool) (exp : Expander) : Expander × Pool :=
  let item := pool.items.getD i {}
  let pool := { pool with items := pool.items.set i {} }
  let exp := exp.prepare prog split item
  let (row, exp, pool) :=
    expandBytes prog split flags item allBytes exp pool (fun _ => .plain 0, fun _ => false)
  let pool := { pool with items := pool.items.set i item }
  match row with
  | none => (exp, pool)
  | some (transitions, acceptBeforeByte) =>
    (exp, { pool with
      states := pool.states.modify i fun row =>
        { row with
          transitions := transitions
          acceptBeforeByte := if row.isAccept then row.acceptBeforeByte else acceptBeforeByte } })

/-- The loop of `build`, with `n` turns left; `cap` is `none` for `usize::MAX`. -/
def buildLoop (cap : Option ℕ) (starts : Starts) : ℕ → Pool → Expander → Option CappedDfa
  | 0, _, _ => none
  | n + 1, pool, exp =>
    match pool.work with
    | [] => some (.table (finishDfa pool.states starts pool.poisoned))
    | i :: work =>
      if cap.any (· < pool.states.length) then some (.over ⟨pool, starts⟩)
      else
        let (exp, pool) := expandRow prog split flags i { pool with work := work } exp
        if pool.poisoned then some (.table (finishDfa pool.states starts pool.poisoned))
        else buildLoop cap starts n pool exp

end Build

/-- `build`, with a bound on the turns of its loop. -/
def build (prog : SearchProgram) (flags : UInt8) (cap : Option ℕ) (n : ℕ) : Option CappedDfa :=
  let split := progUsesWordBoundary prog
  let (starts, pool) := seedStarts prog.toProgram split flags Pool.new.reset
  if pool.poisoned then some (.table (finishDfa pool.states starts pool.poisoned))
  else buildLoop prog.toProgram split flags cap starts n pool .new

end Torajs.Regex.Dfa
