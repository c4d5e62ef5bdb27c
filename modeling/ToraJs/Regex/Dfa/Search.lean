import ToraJs.Regex.Dfa.Build

/-!
# Walking a table

`dfa::search`, `dfa::start_scan` and the DFA half of `vm::search`: the byte walk over an
eager table or a lazily filled one, and the loop over the starts.  The trait `Table` is a
record of its methods over the state of the table; a method that changes the table answers
the new state.
-/

namespace Torajs.Regex.Dfa

/-- `Table`. -/
structure Table (τ : Type) where
  lazy : Bool
  dfa : τ → DfaProgram
  known : τ → ℕ → UInt8 → Bool
  fill : τ → ℕ → UInt8 → ℕ → Option ℕ × τ
  noteWalked : τ → ℕ → τ
  stopAt : τ → ℕ → Bool × τ

/-- The table of an eager build.  Nothing is ever filled. -/
def eagerTable : Table DfaProgram where
  lazy := false
  dfa := id
  known _ _ _ := true
  fill dfa _ _ _ := (none, dfa)
  noteWalked dfa _ := dfa
  stopAt dfa _ := (false, dfa)

/-! ### The byte walk -/

/-- `run_self_loop`: the end of the run of bytes from `cursor` on that read `selfPacked`. -/
def runSelfLoop (hay : List UInt8) (tx : UInt8 → TxWord) (selfPacked : TxWord) (cursor : ℕ) : ℕ :=
  cursor + ((hay.drop cursor).takeWhile fun b => tx b == selfPacked).length

/-- `abb_is_empty`. -/
def abbIsEmpty (mask : UInt8 → Bool) : Bool := allBytes.all fun b => !mask b

/-- The length that `pending_class_step` reads off a lead byte; `none` for an invalid one. -/
def pendingLen (byte : UInt8) : Option ℕ :=
  if byte < 0x80 then some 1
  else if 0xC2 ≤ byte ∧ byte ≤ 0xDF then some 2
  else if 0xE0 ≤ byte ∧ byte ≤ 0xEF then some 3
  else if 0xF0 ≤ byte ∧ byte ≤ 0xF4 then some 4
  else none

/-- The code point that `pending_class_step` decodes. -/
def pendingCp (hay : List UInt8) (cursor len : ℕ) : ℕ :=
  let byte := byteAt hay cursor
  let cont (i : ℕ) : ℕ := (byteAt hay (cursor + i) &&& 0x3F).toNat
  match len with
  | 2 => (byte &&& 0x1F).toNat <<< 6 ||| cont 1
  | 3 => (byte &&& 0x0F).toNat <<< 12 ||| cont 1 <<< 6 ||| cont 2
  | 4 => (byte &&& 0x07).toNat <<< 18 ||| cont 1 <<< 12 ||| cont 2 <<< 6 ||| cont 3
  | _ => byte.toNat

/-- Where `pending_class_step` goes: whether to `yes_target`, the new cursor, and whether
the character is cut off by the end of the haystack. -/
def pendingMove (prog : Program) (classIdx : ℕ) (hay : List UInt8) (cursor : ℕ) :
    Bool × ℕ × Bool :=
  match pendingLen (byteAt hay cursor) with
  | none => (false, cursor + 1, false)
  | some len =>
    if cursor + len > hay.length then (false, cursor, true)
    else if (List.range' 1 (len - 1)).any fun i => byteAt hay (cursor + i) &&& 0xC0 != 0x80 then
      (false, cursor + 1, false)
    else
      let hit := match prog.classes[classIdx]? with
        | some cls => testCp cls (pendingCp hay cursor len)
        | none => false
      (hit, cursor + len, false)

/-- `pending_class_step`. -/
def pendingClassStep (prog : Program) (pc : PendingClass) (hay : List UInt8) (cursor : ℕ) :
    ℕ × ℕ × Bool :=
  let (hit, cursor, atEnd) := pendingMove prog pc.classIdx hay cursor
  (if hit then pc.yesTarget else pc.noTarget, cursor, atEnd)

/-- What a turn of the loop of `dfa_search_from` comes to. -/
inductive Turn where
  /-- the loop goes on in a state, from a cursor and with a last accept -/
  | go (state cursor : ℕ) (last : Option ℕ)
  /-- the loop is over: whether the walk is alive, its state, its cursor and the last accept -/
  | stop (alive : Bool) (state cursor : ℕ) (last : Option ℕ)

/-- A turn of the loop of `dfa_search_from`, over a transition that is filled. -/
def walkTurn (dfa : DfaProgram) (prog : Program) (hay : List UInt8) (anyAab : Bool)
    (state cursor : ℕ) (last : Option ℕ) : Turn :=
  let byte := byteAt hay cursor
  let st := rowAt dfa.states state
  let last := if anyAab && st.acceptBeforeByte byte then some cursor else last
  let packed := st.transitions byte
  if packed ≠ .plain 0 then
    let cursor := cursor + 1
    if packed.accept then
      if packed.monotone then
        let cursor := runSelfLoop hay (rowAt dfa.states packed.state).transitions packed cursor
        .go packed.state cursor (some cursor)
      else .go packed.state cursor (some cursor)
    else if packed ≠ .plain state then .go packed.state cursor last
    else if !anyAab || abbIsEmpty st.acceptBeforeByte then
      .go state (runSelfLoop hay st.transitions packed cursor) last
    else .go state cursor last
  else if st.pendingClass.active = false then .stop false 0 cursor last
  else
    let (next, cursor, atEnd) := pendingClassStep prog st.pendingClass hay cursor
    if atEnd then .stop (decide (next ≠ 0)) next cursor last
    else if next = 0 then .stop false next cursor last
    else if (rowAt dfa.states next).isAccept then .go next cursor (some cursor)
    else .go next cursor last

section Walk

variable {τ : Type} (T : Table τ) (prog : Program) (hay : List UInt8)

/-- The loop of `dfa_search_from`, with `n` turns left.  Answers whether the walk is alive,
its state, its cursor and the last accept, or `none` where a fill gave up. -/
def walkLoop (anyAab : Bool) :
    ℕ → τ → ℕ → ℕ → Option ℕ → Option (Bool × ℕ × ℕ × Option ℕ) × τ
  | 0, t, state, cursor, last => (some (true, state, cursor, last), t)
  | n + 1, t, state, cursor, last =>
    if hay.length ≤ cursor then (some (true, state, cursor, last), t)
    else
      match if T.lazy && !T.known t state (byteAt hay cursor) then
          T.fill t state (byteAt hay cursor) cursor
        else (some state, t) with
      | (none, t) => (none, t)
      | (some state, t) =>
        match walkTurn (T.dfa t) prog hay anyAab state cursor last with
        | .go state cursor last => walkLoop anyAab n t state cursor last
        | .stop alive state cursor last => (some (alive, state, cursor, last), t)

/-- `dfa_search_from`: the length of the longest accepted prefix. -/
def dfaSearchFrom (t : τ) (start : ℕ) : Option ℕ × τ :=
  let dfa := T.dfa t
  let last := if (rowAt dfa.states start).isAccept then some 0 else none
  match walkLoop T prog hay dfa.anyAcceptBeforeByte (hay.length + 1) t start 0 last with
  | (none, t) => (none, t)
  | (some (alive, state, cursor, last), t) =>
    let last := if alive && (rowAt (T.dfa t).states state).isAcceptAtEnd then some hay.length
      else last
    (last, if T.lazy then T.noteWalked t cursor else t)

end Walk

/-! ### Where a match could begin -/

/-- The first index from `from_` on whose byte satisfies `p`, or the end. -/
def scanFrom (hay : List UInt8) (p : UInt8 → Bool) (from_ : ℕ) : ℕ :=
  from_ + ((hay.drop from_).takeWhile fun b => !p b).length

/-- An entry row admits a byte. -/
def rowAdmits (dfa : DfaProgram) (i : ℕ) (b : UInt8) : Bool :=
  let st := rowAt dfa.states i
  decide (st.transitions b ≠ .plain 0) || (dfa.anyAcceptBeforeByte && st.acceptBeforeByte b)

/-- `pending_first_viable`. -/
def pendingFirstViable (dfa : DfaProgram) (prog : Program) (hay : List UInt8) (from_ : ℕ) : ℕ :=
  let pc := (rowAt dfa.states dfa.starts.start).pendingClass
  if pc.noTarget ≠ 0 then from_
  else
    match prog.classes[pc.classIdx]? with
    | none => from_
    | some cls =>
      scanFrom hay (fun b => 0x80 ≤ b || testCp cls b.toNat || rowAdmits dfa dfa.starts.start b) from_

/-- `first_viable_start`. -/
def firstViableStart (dfa : DfaProgram) (prog : Program) (hay : List UInt8) (from_ : ℕ) : ℕ :=
  if hay.length ≤ from_ then hay.length
  else if dfa.allStartsEqual then
    let st := rowAt dfa.states dfa.starts.start
    if st.isAccept then from_
    else if st.pendingClass.active then pendingFirstViable dfa prog hay from_
    else scanFrom hay (rowAdmits dfa dfa.starts.start) from_
  else
    let entries := [dfa.starts.start, dfa.starts.midWord, dfa.starts.midNonword]
    if entries.any fun e => (rowAt dfa.states e).isAccept || (rowAt dfa.states e).pendingClass.active then
      from_
    else scanFrom hay (fun b => entries.any fun e => rowAdmits dfa e b) from_

/-! ### The loop over the starts -/

section Find

variable {τ : Type} (T : Table τ) (prog : SearchProgram)

/-- The entry state that `dfa_probe` selects at `st`. -/
def probeStart (dfa : DfaProgram) (s : List UInt8) (st : ℕ) : ℕ :=
  if dfa.allStartsEqual then dfa.starts.start
  else if st = 0 ∨ (prog.hasMlAnchorB = true ∧ LineTerminator.before s st = true) then
    dfa.starts.start
  else if isWordByte (byteAt s (st - 1)) then dfa.starts.midWord
  else dfa.starts.midNonword

/-- `dfa_probe`. -/
def dfaProbe (t : τ) (s : List UInt8) (st : ℕ) : Option ℕ × τ :=
  dfaSearchFrom T prog.toProgram (s.drop st) t (probeStart prog (T.dfa t) s st)

/-- `skips_continuation_byte`. -/
def skipsContinuationByte (s : List UInt8) (st : ℕ) (flags : UInt8) (haystackIsAscii : Bool) : Bool :=
  !haystackIsAscii && unicodeMode flags && decide (st < s.length) && byteAt s st &&& 0xC0 == 0x80

/-- The first index from `st` on that holds `b`. -/
def findByte (s : List UInt8) (b : UInt8) (st : ℕ) : Option ℕ :=
  ((s.drop st).findIdx? (· == b)).map (st + ·)

/-- The start that a turn of `dfa_find_from` settles on: `none` where the search is over,
and otherwise the start with whether it is to be probed. -/
def nextStart (dfa : DfaProgram) (s : List UInt8) (flags : UInt8) (haystackIsAscii : Bool)
    (st : ℕ) : Option (ℕ × Bool) :=
  match prog.prefixByte with
  | some b =>
    if s.length ≤ st then none
    else (findByte s b st).map fun st => (st, !skipsContinuationByte s st flags haystackIsAscii)
  | none =>
    if s.length < st then none
    else if skipsContinuationByte s st flags haystackIsAscii then some (st, false)
    else if haystackIsAscii || !unicodeMode flags then
      some (firstViableStart dfa prog.toProgram s st, true)
    else some (st, true)

/-- The loop of `dfa_find_from`, with `n` turns left. -/
def findLoop (s : List UInt8) (flags : UInt8) (haystackIsAscii : Bool) :
    ℕ → τ → ℕ → Option (ℕ × ℕ) × τ
  | 0, t, _ => (none, t)
  | n + 1, t, st =>
    match nextStart prog (T.dfa t) s flags haystackIsAscii st with
    | none => (none, t)
    | some (st, false) => findLoop s flags haystackIsAscii n t (st + 1)
    | some (st, true) =>
      match dfaProbe T prog t s st with
      | (some len, t) => (some (st, st + len), t)
      | (none, t) =>
        match if T.lazy then T.stopAt t st else (false, t) with
        | (true, t) => (none, t)
        | (false, t) => findLoop s flags haystackIsAscii n t (st + 1)

/-- `dfa_find_from`: the next hit at or after `fromPos`.  Each turn moves the start past a
position of the haystack. -/
def dfaFindFrom (t : τ) (s : List UInt8) (fromPos : ℕ) (flags : UInt8) (haystackIsAscii : Bool) :
    Option (ℕ × ℕ) × τ :=
  findLoop T prog s flags haystackIsAscii (s.length + 2) t fromPos

end Find

end Torajs.Regex.Dfa
