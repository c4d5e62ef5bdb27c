import ToraJs.Regex.BacktrackExplore

/-!
# The captures of a window

`search::window_captures`: the capture row of a match whose start and end are known, from
the bounded backtracker where it is eligible and the window fits its budget, and from the
Pike VM elsewhere.  Over one window the two give the same answer.
-/

namespace Torajs.Regex

/-- `VISITED_BITS_MAX`. -/
def visitedBitsMax : ℕ := 8 * 256 * 1024

/-- `fits`: the window fits the budget of the visited bits.  The program counters and the
offsets of the jobs are then far below `2 ^ 32`. -/
def fits (prog : Program) (st stop : ℕ) : Bool := prog.len * (stop - st + 1) ≤ visitedBitsMax

/-- The row of a fresh search. -/
def unsetRow (prog : Program) : Row := List.replicate prog.detectStride none

/-- The walker of a call of `captures_at`. -/
def windowWalker (prog : Program) (s : List UInt8) (st stop : ℕ) (flags : UInt8) : Walker :=
  ⟨prog, s, st, stop, stop - st + 1, unicodeMode flags⟩

/-- `window_captures`. -/
def windowCaptures (look : LookProbe) (fuel : ℕ) (prog : Program) (s : List UInt8)
    (st stop : ℕ) (flags : UInt8) (bt : Backtrack) (row : Row) : Option (Row × Backtrack) :=
  let unset := row.map fun _ => none
  let pike := match vmMatchAt look fuel prog s st flags (some stop) with
    | some (_, row) => row
    | none => unset
  if canBacktrack prog && fits prog st stop then
    match capturesAt prog s st stop flags bt row with
    | some (.found, bt, row) | some (.noMatch, bt, row) => some (row, bt)
    | some (.wideStep, bt, _) => some (pike, bt)
    | none => none
  else some (pike, bt)

/-! ### Agreement -/

section Agreement

variable {prog : Program} {s : List UInt8} {st stop : ℕ} {flags : UInt8} {bt : Backtrack}

/-- Nothing is visited at first. -/
lemma not_seenAt_replicate (n lvl pc : ℕ) : ¬ SeenAt ∅ (List.replicate n ∅) lvl pc := by
  induction n generalizing lvl with
  | zero => cases lvl <;> simp [SeenAt]
  | succ n ih =>
    cases lvl with
    | zero => simp
    | succ lvl => exact ih lvl

/-- The bits of the window are cleared. -/
lemma bitsMatch_cleared (visited : ℕ → Bool) : BitsMatch (windowWalker prog s st stop flags)
    (fun i => if i < 64 * ((prog.len * (stop - st + 1) + 63) / 64) then false else visited i) ∅
    (List.replicate (stop - st) ∅) := by
  intro pc hpc lvl hlvl
  change lvl < stop - st + 1 at hlvl
  change pc < prog.len at hpc
  have hbit : pc * (stop - st + 1) + lvl < prog.len * (stop - st + 1) :=
    calc pc * (stop - st + 1) + lvl < (pc + 1) * (stop - st + 1) := by rw [Nat.succ_mul]; omega
      _ ≤ prog.len * (stop - st + 1) := Nat.mul_le_mul_right _ hpc
  have hwords : pc * (stop - st + 1) + lvl <
      64 * ((prog.len * (stop - st + 1) + 63) / 64) := by omega
  have hnot := not_seenAt_replicate (stop - st) lvl pc
  simp [windowWalker, hwords, hnot]

variable (flags) in
/-- `captures_at` ends, with the answer of the exploration. -/
theorem capturesAt_answers (hb : canBacktrack prog = true) (hlen : 0 < prog.len)
    (hst : st ≤ stop) (hstop : stop ≤ s.length) (hstale : NoStaleStart prog bt.iterPos st stop) :
    ∃ o bt' row', capturesAt prog s st stop flags bt (unsetRow prog) = some (o, bt', row') ∧
      Answers (windowWalker prog s st stop flags) (unsetRow prog)
        (exploreWindow prog s flags st stop) o row' := by
  have hwin : Window (windowWalker prog s st stop flags) flags bt.iterPos :=
    ⟨hb, rfl, rfl, hst, hstop, hstale⟩
  have hstart : Stands prog bt.iterPos (st + 0) ⟨0, unsetRow prog, []⟩ (unsetRow prog)
      bt.iterPos :=
    ⟨rfl, hlen, ∅, .start, nofun, fun k _ => ⟨List.not_mem_nil, rfl⟩⟩
  have hpends : Pends (windowWalker prog s st stop flags) bt.iterPos [.step 0 0] (unsetRow prog)
      bt.iterPos [(0, ⟨0, unsetRow prog, []⟩)] (unsetRow prog) :=
    .step (c := ⟨0, unsetRow prog, []⟩) hstart (Nat.zero_le _) (.nil _ _)
  refine run_answers hwin nofun ⟨∅, List.replicate (stop - st) ∅, _, hpends,
    bitsMatch_cleared bt.visited, List.length_replicate, ?_⟩ ?_
  · simp only [exploreAll, Explored.andThen_none]
    rfl
  · have hfree : ∀ visited, (freeBits (windowWalker prog s st stop flags) visited).card ≤
        prog.len * (stop - st + 1) := by
      intro visited
      refine (Finset.card_filter_le _ _).trans ?_
      rw [Finset.card_range]
      rfl
    have := Nat.mul_le_mul_right (2 * (unsetRow prog).length + 4) (hfree fun i =>
      if i < 64 * ((prog.len * (stop - st + 1) + 63) / 64) then false else bt.visited i)
    simp only [work, turnBound, Option.isSome_none, Bool.false_eq_true, if_false,
      List.length_singleton]
    omega

variable {look : LookProbe} {fuel : ℕ}

/-- What a call of `captures_at` says about the Pike VM over the same window. -/
def WindowAgrees (look : LookProbe) (fuel : ℕ) (prog : Program) (s : List UInt8) (st stop : ℕ)
    (flags : UInt8) (bt : Backtrack) : Prop :=
  ∃ o bt' row, capturesAt prog s st stop flags bt (unsetRow prog) = some (o, bt', row) ∧
    match o with
    | .found => vmMatchAt look fuel prog s st flags (some stop) = some (stop, row)
    | .noMatch => (∀ row', vmMatchAt look fuel prog s st flags (some stop) ≠ some (stop, row')) ∧
        row = unsetRow prog
    | .wideStep => WideConsume (windowWalker prog s st stop flags)

variable (look fuel flags) in
/-- The backtracker agrees with the Pike VM over every window, whatever earlier calls left
in its buffers, where no `IterCheck` reads a start that its path did not set. -/
theorem capturesAt_agrees (hb : canBacktrack prog = true) (hlen : 0 < prog.len)
    (hstale : NoStaleStart prog bt.iterPos st stop) (hst : st ≤ stop) (hstop : stop ≤ s.length)
    (hfuel : prog.len < fuel) : WindowAgrees look fuel prog s st stop flags bt := by
  obtain ⟨o, bt', row, hcall, hans⟩ := capturesAt_answers flags hb hlen hst hstop hstale
  refine ⟨o, bt', row, hcall, ?_⟩
  have hplain := plain_of_canBacktrack hb
  cases hexp : exploreWindow prog s flags st stop with
  | found row' =>
    rw [hexp] at hans
    obtain ⟨rfl, rfl⟩ := hans
    exact vmMatchAt_of_found hplain hfuel hst hstop hexp
  | wide =>
    rw [hexp] at hans
    obtain ⟨rfl, hwide⟩ := hans
    exact hwide
  | none v vs =>
    rw [hexp] at hans
    obtain ⟨rfl, rfl⟩ := hans
    refine ⟨fun row' h => ?_, rfl⟩
    rw [vmMatchAt_of_none hplain hfuel hst hstop hexp] at h
    cases h

/-- With an end target, a step commits only there. -/
lemma runThreads_some_end {pos : ℕ} {ts : List Thread} {nxt tl : ThreadList} {row : Row}
    (h : runThreads look prog s flags fuel pos (some stop) ts nxt = (some row, tl)) :
    pos = stop := by
  induction ts generalizing nxt with
  | nil => cases h
  | cons t ts ih =>
    rw [runThreads] at h
    by_cases hskip : t.uSkip > 0
    · rw [if_pos hskip] at h
      exact ih h
    · rw [if_neg hskip] at h
      simp only at h
      split at h
      · split at h <;> exact ih h
      · split at h <;> exact ih h
      · split at h <;> exact ih h
      · exact ih h
      · by_cases hend : (some stop : Option ℕ) = none ∨ some stop = some pos
        · simpa [eq_comm] using hend
        · rw [if_neg hend] at h
          exact ih h
      all_goals exact ih h

/-- With an end target, every match of the loop ends there. -/
lemma vmLoop_end {steps pos : ℕ} {cur : List Thread} {best : Option (ℕ × Row)}
    (hbest : ∀ m, best = some m → m.1 = stop) {m : ℕ × Row}
    (h : (vmLoop look prog s flags fuel (some stop) steps pos cur best).2 = some m) :
    m.1 = stop := by
  induction steps generalizing pos cur best with
  | zero => exact hbest m h
  | succ steps ih =>
    rw [vmLoop] at h
    split_ifs at h with hpast
    · exact hbest m h
    · rcases hrun : runThreads look prog s flags fuel pos (some stop) cur .empty with ⟨found, tl⟩
      have hbest' : ∀ m, commit pos found best = some m → m.1 = stop := by
        intro m hm
        cases found with
        | none => exact hbest m hm
        | some row =>
          obtain rfl := Option.some.inj hm
          exact runThreads_some_end hrun
      rw [hrun] at h
      cases found <;> simp only at h <;> split_ifs at h
      · exact hbest' m h
      · exact ih hbest' h
      · exact hbest' m h
      · exact ih hbest' h

/-- With an end target, the Pike VM only returns that end. -/
lemma vmMatchAt_end {m : ℕ × Row}
    (h : vmMatchAt look fuel prog s st flags (some stop) = some m) : m.1 = stop := by
  unfold vmMatchAt at h
  simp only at h
  split at h
  · next m' heoi =>
    obtain rfl := Option.some.inj h
    unfold matchAtEoi at heoi
    by_cases hend : (some stop : Option ℕ) = none ∨ some stop = some s.length
    · rw [if_pos hend] at heoi
      obtain ⟨t, -, rfl⟩ := Option.map_eq_some_iff.mp heoi
      simpa [eq_comm] using hend
    · rw [if_neg hend] at heoi
      cases heoi
  · exact vmLoop_end (fun m hm => by cases hm) h

/-- The captures of a window are those of the Pike VM, on every path through
`window_captures`. -/
theorem windowCaptures_eq_pike (hlen : 0 < prog.len)
    (hstale : NoStaleStart prog bt.iterPos st stop) (hst : st ≤ stop) (hstop : stop ≤ s.length)
    (hfuel : prog.len < fuel) :
    ∃ bt', windowCaptures look fuel prog s st stop flags bt (unsetRow prog) =
      some (((vmMatchAt look fuel prog s st flags (some stop)).map Prod.snd).getD (unsetRow prog),
        bt') := by
  have hunset : (unsetRow prog).map (fun _ => (none : Option ℕ)) = unsetRow prog := by
    simp [unsetRow]
  have hpike : (match vmMatchAt look fuel prog s st flags (some stop) with
      | some (_, row) => row
      | none => unsetRow prog) =
      ((vmMatchAt look fuel prog s st flags (some stop)).map Prod.snd).getD (unsetRow prog) := by
    cases vmMatchAt look fuel prog s st flags (some stop) <;> rfl
  unfold windowCaptures
  simp only [hunset, hpike]
  split_ifs with helig
  · rw [Bool.and_eq_true] at helig
    obtain ⟨o, bt', row, hcall, hagree⟩ := capturesAt_agrees flags look fuel
      helig.1 hlen hstale hst hstop hfuel
    rw [hcall]
    cases o with
    | found =>
      rw [show vmMatchAt look fuel prog s st flags (some stop) = some (stop, row) from hagree]
      exact ⟨bt', rfl⟩
    | noMatch =>
      obtain ⟨hmiss, rfl⟩ := hagree
      cases hvm : vmMatchAt look fuel prog s st flags (some stop) with
      | none => exact ⟨bt', rfl⟩
      | some m => exact absurd (by rw [hvm, ← vmMatchAt_end hvm]) (hmiss m.2)
    | wideStep => exact ⟨bt', rfl⟩
  · exact ⟨bt, rfl⟩

end Agreement

/-- The greedy loop over `a`. -/
def loopProgram : Program :=
  ⟨[.split 1 5, .iterStart, .char 97 0, .iterCheck 1, .jmp 0, .accept], []⟩

/-- The loop over a window of two bytes. -/
theorem capturesAt_agrees_loop :
    WindowAgrees (fun _ _ _ => none) 7 loopProgram [97, 97, 98] 0 2 0 .forProgram :=
  capturesAt_agrees _ _ _ (by decide) (by decide) (fun _ _ _ _ _ _ _ _ _ => nofun) (by decide)
    (by decide) (by decide)

/-! ### Stale starts -/

/-- The states that calls of `captures_at` leave behind. -/
inductive Served (prog : Program) : Backtrack → Prop where
  | forProgram : Served prog .forProgram
  | capturesAt {bt bt' : Backtrack} {s : List UInt8} {st stop : ℕ} {flags : UInt8} {o : Outcome}
      {row : Row} (h : Served prog bt) (hst : st ≤ stop) (hstop : stop ≤ s.length)
      (hcall : capturesAt prog s st stop flags bt (unsetRow prog) = some (o, bt', row)) :
      Served prog bt'

/-- A program with a path to the `IterCheck` that goes around the `IterStart`. -/
def staleProgram : Program :=
  ⟨[.split 1 4, .iterStart, .char 97 0, .accept, .iterCheck 1, .accept], []⟩

/-- The state that a first call over `a` leaves behind: the loop began at `0`. -/
def staleState : Backtrack :=
  match capturesAt staleProgram [97] 0 1 0 .forProgram (unsetRow staleProgram) with
  | some (_, bt, _) => bt
  | none => .forProgram

lemma served_staleState : Served staleProgram staleState :=
  .capturesAt .forProgram (by decide) (by decide)
    (rfl : capturesAt staleProgram [97] 0 1 0 .forProgram (unsetRow staleProgram) =
      some (.found, staleState, _))

/-- A second call, over the empty window at `0`, reads the start that the first one left
behind. -/
theorem not_capturesAt_agrees :
    ¬ ∀ (prog : Program) (bt : Backtrack), canBacktrack prog = true → 0 < prog.len →
      Served prog bt → ∀ (look : LookProbe) (fuel : ℕ) (s : List UInt8) (st stop : ℕ)
        (flags : UInt8), st ≤ stop → stop ≤ s.length → fits prog st stop = true →
        prog.len < fuel → WindowAgrees look fuel prog s st stop flags bt := by
  intro h
  obtain ⟨o, bt, row, hcall, hagree⟩ := h staleProgram staleState (by decide) (by decide)
    served_staleState (fun _ _ _ => none) 7 [98] 0 0 0 (by decide) (by decide) (by decide) (by decide)
  have hmiss : (capturesAt staleProgram [98] 0 0 0 staleState (unsetRow staleProgram)).map
      Prod.fst = some .noMatch := by decide
  rw [hcall] at hmiss
  obtain rfl : o = .noMatch := Option.some.inj hmiss
  have hpike : vmMatchAt (fun _ _ _ => none) 7 staleProgram [98] 0 0 (some 0) =
      some (0, unsetRow staleProgram) := by decide +kernel
  exact hagree.1 _ hpike

end Torajs.Regex
