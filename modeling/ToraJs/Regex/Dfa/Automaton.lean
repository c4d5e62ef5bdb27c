import ToraJs.Regex.Dfa.Search

/-!
# The automaton behind a table

What a table of the DFA stands for: an automaton whose states need no indices, are never
filled and never dropped.  `run` walks it, and `probe` answers the longest match at a start.
`Serves` says that a table represents the automaton: what its rows say where they are
filled, and that a fill keeps the representation.  A table that serves an automaton gives
its answers, or gives up.
-/

namespace Torajs.Regex.Dfa

/-- A byte automaton with property classes.  The dead state is `none`. -/
structure Automaton (σ : Type) where
  step : σ → UInt8 → Option σ
  /-- a zero-width accept before the byte, in a state that does not accept -/
  acceptBefore : σ → UInt8 → Bool
  accept : σ → Bool
  acceptAtEnd : σ → Bool
  /-- the class that serves the bytes without a transition, and where it leads -/
  pending : σ → Option (ℕ × Option σ)
  start : Option σ
  startMidWord : Option σ
  startMidNonword : Option σ

namespace Automaton

variable {σ : Type}

section Walk

variable (A : Automaton σ) (prog : Program) (hay : List UInt8)

/-- The last accept after arriving in `q` at `cursor`. -/
def arrive (q : σ) (cursor : ℕ) (last : Option ℕ) : Option ℕ :=
  if A.accept q then some cursor else last

/-- The walk from `cursor`, with `n` turns left: whether it is alive, its state, and the
last accept. -/
def walk : ℕ → Option σ → ℕ → Option ℕ → Bool × Option σ × Option ℕ
  | 0, q, _, last => (true, q, last)
  | n + 1, q, cursor, last =>
    if hay.length ≤ cursor then (true, q, last)
    else
      match q with
      | none => (false, none, last)
      | some k =>
        let last := if A.acceptBefore k (byteAt hay cursor) then some cursor else last
        match A.step k (byteAt hay cursor) with
        | some k' => walk n (some k') (cursor + 1) (A.arrive k' (cursor + 1) last)
        | none =>
          match A.pending k with
          | none => (false, none, last)
          | some (classIdx, target) =>
            let (hit, cursor, atEnd) := pendingMove prog classIdx hay cursor
            let next := if hit then target else none
            if atEnd then (next.isSome, next, last)
            else
              match next with
              | none => (false, none, last)
              | some k' => walk n (some k') cursor (A.arrive k' cursor last)

variable {A prog hay} in
/-- A walk at the end of the haystack is over. -/
lemma walk_of_le {cursor : ℕ} (h : hay.length ≤ cursor) (n : ℕ) (q : Option σ) (last : Option ℕ) :
    A.walk prog hay n q cursor last = (true, q, last) := by
  cases n with
  | zero => rfl
  | succ n => simp [walk, h]

/-- The walk to its end. -/
def run (q : Option σ) (cursor : ℕ) (last : Option ℕ) : Bool × Option σ × Option ℕ :=
  A.walk prog hay (hay.length + 1 - cursor) q cursor last

/-- The length of the longest accepted prefix. -/
def search (q : Option σ) : Option ℕ :=
  let (alive, q', last) := A.run prog hay q 0 (if q.any A.accept then some 0 else none)
  if alive && q'.any A.acceptAtEnd then some hay.length else last

end Walk

section Find

variable [DecidableEq σ] (A : Automaton σ) (prog : SearchProgram)

/-- The three entry states are one. -/
def startsEqual : Bool := A.start = A.startMidWord ∧ A.start = A.startMidNonword

/-- The entry state at `st`. -/
def probeStart (s : List UInt8) (st : ℕ) : Option σ :=
  if A.startsEqual then A.start
  else if st = 0 ∨ (prog.hasMlAnchorB = true ∧ LineTerminator.before s st = true) then A.start
  else if isWordByte (byteAt s (st - 1)) then A.startMidWord
  else A.startMidNonword

/-- The length of the longest match at `st`. -/
def probe (s : List UInt8) (st : ℕ) : Option ℕ :=
  A.search prog.toProgram (s.drop st) (A.probeStart prog s st)

end Find

end Automaton

/-! ### Tables that serve an automaton -/

/-- The transition of `(i, b)` is filled. -/
def Table.Filled {τ : Type} (T : Table τ) (t : τ) (i : ℕ) (b : UInt8) : Prop :=
  T.lazy = false ∨ T.known t i b = true

/-- What a fill of a transition of `q` on `b` comes to. -/
def Table.FillAgrees {τ σ : Type} (T : Table τ) (Ok GaveUp : τ → Prop)
    (Rep : τ → ℕ → Option σ → Prop) (anyAab : Bool) (q : Option σ) (b : UInt8) :
    Option ℕ × τ → Prop
  | (none, t') => GaveUp t'
  | (some i', t') => Ok t' ∧ Rep t' i' q ∧ T.Filled t' i' b ∧
      (T.dfa t').anyAcceptBeforeByte = anyAab

/-- A pending class stands for the class of a state and its target. -/
def PendingClass.Agrees {σ : Type} (pc : PendingClass) (Rep : ℕ → Option σ → Prop) :
    Option (ℕ × Option σ) → Prop
  | none => pc.active = false
  | some (classIdx, target) =>
    pc.active = true ∧ pc.classIdx = classIdx ∧ pc.noTarget = 0 ∧ Rep pc.yesTarget target

/-- A pending class agrees through any representation that says more. -/
lemma PendingClass.Agrees.mono {σ : Type} {pc : PendingClass} {Rep Rep' : ℕ → Option σ → Prop}
    {target : Option (ℕ × Option σ)} (h : pc.Agrees Rep target)
    (hrep : ∀ {i q}, Rep i q → Rep' i q) : pc.Agrees Rep' target := by
  cases target with
  | none => exact h
  | some p => exact ⟨h.1, h.2.1, h.2.2.1, hrep h.2.2.2⟩

/-- The table `T` represents the automaton in the states `Ok`, where `Rep t i q` says that
index `i` stands for state `q`.  A fill that gives up leaves a state of `GaveUp`. -/
structure Serves {τ σ : Type} (T : Table τ) (A : Automaton σ) (Ok GaveUp : τ → Prop)
    (Rep : τ → ℕ → Option σ → Prop) : Prop where
  zero : ∀ {t}, Ok t → Rep t 0 none
  rep_left : ∀ {t i q q'}, Ok t → Rep t i q → Rep t i q' → q = q'
  rep_right : ∀ {t i j q}, Ok t → Rep t i q → Rep t j q → i = j
  start : ∀ {t}, Ok t → Rep t (T.dfa t).starts.start A.start
  startMidWord : ∀ {t}, Ok t → Rep t (T.dfa t).starts.midWord A.startMidWord
  startMidNonword : ∀ {t}, Ok t → Rep t (T.dfa t).starts.midNonword A.startMidNonword
  allStartsEqual : ∀ {t}, Ok t → (T.dfa t).allStartsEqual = (T.dfa t).starts.allEqual
  entries : ∀ {t}, Ok t → ∀ b, T.Filled t (T.dfa t).starts.start b ∧
    T.Filled t (T.dfa t).starts.midWord b ∧ T.Filled t (T.dfa t).starts.midNonword b
  accept : ∀ {t i q}, Ok t → Rep t i q → (rowAt (T.dfa t).states i).isAccept = q.any A.accept
  acceptAtEnd : ∀ {t i q}, Ok t → Rep t i q →
    (rowAt (T.dfa t).states i).isAcceptAtEnd = q.any A.acceptAtEnd
  step : ∀ {t i q}, Ok t → Rep t i q → ∀ b, T.Filled t i b →
    Rep t ((rowAt (T.dfa t).states i).transitions b).state (q.bind fun k => A.step k b)
  word_accept : ∀ {t i q}, Ok t → Rep t i q → ∀ b, T.Filled t i b →
    ((rowAt (T.dfa t).states i).transitions b).accept =
      (q.bind fun k => A.step k b).any A.accept
  word_monotone : ∀ {t i q}, Ok t → Rep t i q → ∀ b,
    ((rowAt (T.dfa t).states i).transitions b).monotone = true →
      ((rowAt (T.dfa t).states i).transitions b).accept = true
  unfilled : ∀ {t i q}, Ok t → Rep t i q → ∀ b, ¬ T.Filled t i b →
    (rowAt (T.dfa t).states i).transitions b = .plain 0
  acceptBefore : ∀ {t i q}, Ok t → Rep t i q → ∀ b, T.Filled t i b →
    ((T.dfa t).anyAcceptBeforeByte && (rowAt (T.dfa t).states i).acceptBeforeByte b) =
      q.any fun k => A.acceptBefore k b
  acceptBefore_accept : ∀ k b, A.accept k = true → A.acceptBefore k b = false
  pending : ∀ {t i q}, Ok t → Rep t i q →
    (rowAt (T.dfa t).states i).pendingClass.Agrees (Rep t) (q.bind A.pending)
  fill : ∀ {t i q}, Ok t → Rep t i q → ∀ b cursor, ¬ T.Filled t i b →
    T.FillAgrees Ok GaveUp Rep (T.dfa t).anyAcceptBeforeByte q b (T.fill t i b cursor)
  noteWalked : ∀ {t}, T.lazy = true → Ok t → ∀ bytes, Ok (T.noteWalked t bytes)
  stopAt_ok : ∀ {t}, T.lazy = true → Ok t → ∀ st, T.stopAt t st = (false, t)
  stopAt_gaveUp : ∀ {t}, GaveUp t → T.lazy = true ∧ ∀ st, (T.stopAt t st).1 = true

end Torajs.Regex.Dfa
