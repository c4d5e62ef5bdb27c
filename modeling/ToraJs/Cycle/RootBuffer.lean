import Mathlib.Logic.Relation
import Mathlib.Logic.Function.Basic
import ToraJs.Lib.HoledList

/-!
# The root buffer of the cycle collector

The buffer of candidate roots, the flag by which a block knows that it is in the buffer, and the
steps that change them: a block is pushed, scrubbed, freed or parked by the program, and a
collection marks from the buffered blocks, scans them, sweeps them one slot after the other and
compacts what was pushed meanwhile.  The program goes on between two collections, and during a
collection wherever a sweep calls a drop.  What the walks of the first two passes do to colours
and counts is left open: they may change them for every cell.
-/

namespace Torajs.Cycle

open HoledList

/-- The colour of a cell. -/
inductive Color where
  | black
  | gray
  | purple
  | white
deriving DecidableEq, Repr

/-- The header of a cell: its reference count, the flag that says that it is in the root buffer,
the flag of a static literal, and its colour; and whether it has children to walk to. -/
structure Header where
  refcount : ℕ
  buffered : Bool
  literal : Bool
  color : Color
  walkable : Bool
deriving DecidableEq, Repr

/-- Where a collection is.  The passes know how many entries the buffer had when the collection
began and how many slots they have passed; the sweep has a stack of cells, those marked `true`
to be closed after the cells above them. -/
inductive Pass (B : Type*) where
  | idle
  | mark (processed i : ℕ)
  | scan (processed i : ℕ)
  | sweep (processed i : ℕ) (stack : List (B × Bool))
  | free (processed : ℕ)

/-- The slots of the buffer, the headers of the cells, the cells that are allocated, the length at
which a push begins a collection, the state of the collection, and the swept cells whose free is
deferred. -/
structure State (B : Type*) where
  slots : List (Option B)
  header : B → Header
  allocated : B → Bool
  threshold : ℕ
  pass : Pass B
  deferred : List B

variable {B : Type*}

namespace State

/-- Is a collection running? -/
def inCollect (s : State B) : Bool :=
  match s.pass with
  | .idle => false
  | _ => true

/-- The stack of the sweep. -/
def stack (s : State B) : List (B × Bool) :=
  match s.pass with
  | .sweep _ _ st => st
  | _ => []

/-- Does the program run: between collections, within the sweep of a cell, and while the swept
cells are freed. -/
def CallsOut (s : State B) : Prop :=
  match s.pass with
  | .idle => True
  | .mark _ _ => False
  | .scan _ _ => False
  | .sweep _ _ st => st ≠ []
  | .free _ => True

/-- A cell that this collection has swept and not yet freed. -/
def Corpse (s : State B) (p : B) : Prop := p ∈ s.deferred ∨ (p, true) ∈ s.stack

/-- A cell of the program: it is allocated, and the collection has not condemned it. -/
def Held (s : State B) (p : B) : Prop :=
  s.allocated p = true ∧ (s.header p).color ≠ .white ∧ ¬ s.Corpse p

variable [DecidableEq B]

instance (s : State B) : Decidable s.CallsOut := by
  unfold CallsOut
  split <;> infer_instance

instance (s : State B) (p : B) : Decidable (s.Corpse p) := inferInstanceAs (Decidable (_ ∨ _))

instance (s : State B) (p : B) : Decidable (s.Held p) := inferInstanceAs (Decidable (_ ∧ _))

/-- The header of a cell is changed. -/
def setHeader (s : State B) (p : B) (h : Header) : State B :=
  { s with header := Function.update s.header p h }

/-- `cycle_collect`: a collection begins, unless one runs or the buffer is empty. -/
def cycleCollect (s : State B) : State B :=
  if s.slots = [] ∨ s.inCollect = true then s
  else { s with pass := .mark s.slots.length 0 }

/-- `cycle_buffer`: a cell with children that is not in the buffer is coloured, flagged and
pushed; at the threshold a collection begins. -/
def cycleBuffer (s : State B) (p : B) : State B :=
  if (s.header p).buffered then s
  else if !(s.header p).walkable then s
  else
    let s := s.setHeader p { s.header p with color := .purple, buffered := true }
    let s := { s with slots := s.slots ++ [some p] }
    if s.threshold ≤ s.slots.length then s.cycleCollect else s

/-- `cycle_unbuffer`: a flagged cell loses its flag and its slot, the last one that holds it; the
empty slots at the end are trimmed, unless a collection runs. -/
def cycleUnbuffer (s : State B) (p : B) : State B :=
  if !(s.header p).buffered then s
  else
    let s := s.setHeader p { s.header p with buffered := false }
    if some p ∈ s.slots then
      { s with slots :=
          if s.inCollect then clearLast p s.slots else trimTail (clearLast p s.slots) }
    else s

/-- `compact_from`: the entries that were there when the collection began are discarded. -/
def compactFrom (s : State B) (processed : ℕ) : State B :=
  { s with slots := (s.slots.drop processed).filter Option.isSome }

/-- A cell goes back to the allocator. -/
def release (s : State B) (p : B) : State B :=
  { s with allocated := Function.update s.allocated p false }

/-- A walk of the first two passes: it changes counts and colours. -/
structure Walked (s s' : State B) : Prop where
  slots : s'.slots = s.slots
  allocated : s'.allocated = s.allocated
  threshold : s'.threshold = s.threshold
  pass : s'.pass = s.pass
  deferred : s'.deferred = s.deferred
  flags : ∀ p, (s'.header p).buffered = (s.header p).buffered

/-- What one slot of the mark pass leaves alone: it is empty, or it holds a literal, a cell that
is still being dismantled, or a cell that another root has reached. -/
def MarkSkips (s : State B) : Option B → Prop
  | none => True
  | some p =>
    (s.header p).literal = true ∨
      ((s.header p).refcount = 0 ∧ (s.header p).color ≠ .black) ∨
      ((s.header p).refcount ≠ 0 ∧ (s.header p).color ≠ .purple)

/-- One step of the program or of the collector. -/
inductive Step : State B → State B → Prop where
  /-- The program allocates a cell. -/
  | alloc {s : State B} (p : B) (h : Header) : s.CallsOut → s.allocated p = false →
      h.buffered = false → h.color = .black →
      Step s { s.setHeader p h with allocated := Function.update s.allocated p true }
  /-- The program moves a count or writes to a cell. -/
  | touch {s : State B} (p : B) (h : Header) : s.CallsOut → s.allocated p = true →
      h.buffered = (s.header p).buffered → h.color = (s.header p).color →
      Step s (s.setHeader p h)
  /-- A release leaves a cell referenced. -/
  | push {s : State B} (p : B) : s.CallsOut → s.Held p → (s.header p).refcount ≠ 0 →
      Step s (s.cycleBuffer p)
  /-- A cell is scrubbed before it is freed. -/
  | unbuffer {s : State B} (p : B) : s.CallsOut → s.allocated p = true →
      Step s (s.cycleUnbuffer p)
  /-- A drop ends with the free of a cell that is not flagged. -/
  | drop {s : State B} (p : B) : s.CallsOut → s.Held p → (s.header p).buffered = false →
      Step s (s.release p)
  /-- A drop ends with a flagged cell, which stays allocated. -/
  | park {s : State B} (p : B) : s.CallsOut → s.Held p → (s.header p).buffered = true →
      (s.header p).refcount = 0 → Step s (s.setHeader p { s.header p with color := .black })
  /-- The program calls for a collection. -/
  | collect {s : State B} : s.CallsOut → Step s s.cycleCollect
  | markNext {s : State B} {n i : ℕ} {x : Option B} : s.pass = .mark n i → i < n →
      s.slots[i]? = some x → s.MarkSkips x → Step s { s with pass := .mark n (i + 1) }
  /-- A parked cell is freed. -/
  | markFree {s : State B} {n i : ℕ} {p : B} : s.pass = .mark n i → i < n →
      s.slots[i]? = some (some p) → (s.header p).literal = false →
      (s.header p).refcount = 0 → (s.header p).color = .black →
      Step s { s.release p with slots := s.slots.set i none, pass := .mark n (i + 1) }
  | markRoot {s s' : State B} {n i : ℕ} {p : B} : s.pass = .mark n i → i < n →
      s.slots[i]? = some (some p) → (s.header p).literal = false →
      (s.header p).refcount ≠ 0 → (s.header p).color = .purple → s.Walked s' →
      Step s { s' with pass := .mark n (i + 1) }
  | markDone {s : State B} {n : ℕ} : s.pass = .mark n n → Step s { s with pass := .scan n 0 }
  | scanNext {s : State B} {n i : ℕ} : s.pass = .scan n i → i < n →
      s.slots[i]? = some none → Step s { s with pass := .scan n (i + 1) }
  | scanRoot {s s' : State B} {n i : ℕ} {p : B} : s.pass = .scan n i → i < n →
      s.slots[i]? = some (some p) → s.Walked s' → Step s { s' with pass := .scan n (i + 1) }
  | scanDone {s : State B} {n : ℕ} : s.pass = .scan n n →
      Step s { s with pass := .sweep n 0 [] }
  | sweepNext {s : State B} {n i : ℕ} : s.pass = .sweep n i [] → i < n →
      s.slots[i]? = some none → Step s { s with pass := .sweep n (i + 1) [] }
  /-- The flag of an entry is cleared; a white cell is swept. -/
  | sweepRoot {s : State B} {n i : ℕ} {p : B} : s.pass = .sweep n i [] → i < n →
      s.slots[i]? = some (some p) →
      Step s { s.setHeader p { s.header p with buffered := false } with
        pass := .sweep n (i + 1)
          (if (s.header p).color = .white ∧ (s.header p).walkable = true then [(p, false)]
            else []) }
  | sweepSkip {s : State B} {n i : ℕ} {p : B} {st : List (B × Bool)} :
      s.pass = .sweep n i ((p, false) :: st) → (s.header p).color ≠ .white →
      Step s { s with pass := .sweep n i st }
  /-- A white cell is opened; its white children come before its closing entry. -/
  | sweepOpen {s : State B} {n i : ℕ} {p : B} {st : List (B × Bool)} (kids : List B) :
      s.pass = .sweep n i ((p, false) :: st) → (s.header p).color = .white →
      (∀ q ∈ kids, q ≠ p ∧ s.allocated q = true ∧ (s.header q).color = .white) →
      Step s { s.setHeader p { s.header p with color := .black, buffered := false } with
        pass := .sweep n i (kids.map (fun q => (q, false)) ++ (p, true) :: st) }
  /-- A cell is closed; its free is deferred. -/
  | sweepClose {s : State B} {n i : ℕ} {p : B} {st : List (B × Bool)} :
      s.pass = .sweep n i ((p, true) :: st) →
      Step s { s with pass := .sweep n i st, deferred := s.deferred ++ [p] }
  | sweepDone {s : State B} {n : ℕ} : s.pass = .sweep n n [] → Step s { s with pass := .free n }
  /-- A swept cell is freed. -/
  | freeCorpse {s : State B} {n : ℕ} {p : B} {ds : List B} : s.pass = .free n →
      s.deferred = p :: ds → Step s { s.release p with deferred := ds }
  /-- The collection ends. -/
  | freeDone {s : State B} {n : ℕ} (threshold : ℕ) : s.pass = .free n → s.deferred = [] →
      1024 ≤ threshold →
      Step s { s.compactFrom n with threshold := threshold, pass := .idle }

end State

end Torajs.Cycle
