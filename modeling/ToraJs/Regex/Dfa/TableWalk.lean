import ToraJs.Regex.Dfa.Automaton
import Mathlib.Data.List.GetD

/-!
# A table gives the answers of its automaton

The byte walk and the loop over the starts, over a table that serves an automaton.  A turn
of the byte walk may take a whole run of bytes at once; the automaton takes them one by
one.
-/

namespace Torajs.Regex.Dfa

/-- A character that is not cut off moves the cursor. -/
lemma pendingMove_lt {prog : Program} {classIdx : ℕ} {hay : List UInt8} {cursor c' : ℕ} {hit : Bool}
    (h : pendingMove prog classIdx hay cursor = (hit, c', false)) : cursor < c' := by
  have hlen : ∀ len, pendingLen (byteAt hay cursor) = some len → 0 < len := by
    intro len hl
    unfold pendingLen at hl
    split_ifs at hl <;> simp only [Option.some.injEq] at hl <;> omega
  unfold pendingMove at h
  cases hl : pendingLen (byteAt hay cursor) with
  | none =>
    simp only [hl, Prod.mk.injEq] at h
    omega
  | some len =>
    have := hlen len hl
    simp only [hl] at h
    split_ifs at h with hcut hcont <;> simp only [Prod.mk.injEq] at h
    · exact absurd h.2.2 (by decide)
    all_goals omega

/-- The run ends at a byte that leaves it. -/
lemma runSelfLoop_of_ne {hay : List UInt8} {tx : UInt8 → TxWord} {word : TxWord} {cursor : ℕ}
    (h : cursor < hay.length → tx (byteAt hay cursor) ≠ word) :
    runSelfLoop hay tx word cursor = cursor := by
  unfold runSelfLoop
  by_cases hc : cursor < hay.length
  · have hne := h hc
    rw [byteAt, List.getD_eq_getElem _ _ hc] at hne
    rw [List.drop_eq_getElem_cons hc, List.takeWhile_cons_of_neg (by simpa using hne)]
    rfl
  · rw [List.drop_eq_nil_of_le (not_lt.mp hc)]
    rfl

/-- The run goes on over a byte that stays in it. -/
lemma runSelfLoop_of_eq {hay : List UInt8} {tx : UInt8 → TxWord} {word : TxWord} {cursor : ℕ}
    (hc : cursor < hay.length) (h : tx (byteAt hay cursor) = word) :
    runSelfLoop hay tx word cursor = runSelfLoop hay tx word (cursor + 1) := by
  unfold runSelfLoop
  rw [byteAt, List.getD_eq_getElem _ _ hc] at h
  rw [List.drop_eq_getElem_cons hc, List.takeWhile_cons_of_pos (by simpa using h),
    List.length_cons]
  omega

lemma le_runSelfLoop (hay : List UInt8) (tx : UInt8 → TxWord) (word : TxWord) (cursor : ℕ) :
    cursor ≤ runSelfLoop hay tx word cursor := Nat.le_add_right _ _

namespace Automaton

variable {σ : Type} {A : Automaton σ} {prog : Program} {hay : List UInt8} {k : σ} {cursor : ℕ}
  {last : Option ℕ}

/-! ### Turns of the automaton -/

/-- Enough turns are enough. -/
lemma walk_congr {n m : ℕ} (hn : hay.length + 1 - cursor ≤ n) (hm : hay.length + 1 - cursor ≤ m)
    (q : Option σ) : A.walk prog hay n q cursor last = A.walk prog hay m q cursor last := by
  induction n generalizing m cursor last q with
  | zero => rw [walk_of_le (by omega), walk_of_le (by omega)]
  | succ n ih =>
    by_cases hle : hay.length ≤ cursor
    · rw [walk_of_le hle, walk_of_le hle]
    · obtain ⟨m, rfl⟩ : ∃ m', m = m' + 1 := ⟨m - 1, by omega⟩
      cases q with
      | none => simp [walk, hle]
      | some k =>
        simp only [walk, if_neg hle]
        cases hstep : A.step k (byteAt hay cursor) with
        | some k' => exact ih (by omega) (by omega) _
        | none =>
          cases A.pending k with
          | none => rfl
          | some p =>
            obtain ⟨classIdx, target⟩ := p
            rcases hmove : pendingMove prog classIdx hay cursor with ⟨hit, c', atEnd⟩
            simp only [hmove]
            cases atEnd with
            | true => rfl
            | false =>
              have hlt := pendingMove_lt hmove
              simp only [Bool.false_eq_true, if_false]
              split
              · rfl
              · exact ih (by omega) (by omega) _

/-- A walk with enough turns is a run. -/
lemma walk_eq_run {n : ℕ} (hn : hay.length + 1 - cursor ≤ n) (q : Option σ) :
    A.walk prog hay n q cursor last = A.run prog hay q cursor last :=
  walk_congr hn le_rfl q

/-- A run at the end of the haystack is over. -/
lemma run_of_le (h : hay.length ≤ cursor) (q : Option σ) :
    A.run prog hay q cursor last = (true, q, last) := walk_of_le h _ q last

/-- A dead run is over. -/
lemma run_none (h : cursor < hay.length) :
    A.run prog hay none cursor last = (false, none, last) := by
  rw [← walk_eq_run (n := hay.length + 1) (by omega)]
  simp [walk, h]

/-- The last accept once the byte at `cursor` is seen. -/
def before (A : Automaton σ) (hay : List UInt8) (k : σ) (cursor : ℕ) (last : Option ℕ) :
    Option ℕ :=
  if A.acceptBefore k (byteAt hay cursor) then some cursor else last

variable (prog last) in
/-- A run takes a transition. -/
lemma run_step (h : cursor < hay.length) {k' : σ} (hstep : A.step k (byteAt hay cursor) = some k') :
    A.run prog hay (some k) cursor last =
      A.run prog hay (some k') (cursor + 1)
        (A.arrive k' (cursor + 1) (A.before hay k cursor last)) := by
  rw [← walk_eq_run (n := hay.length + 1) (by omega), walk, if_neg (by omega)]
  simp only [hstep]
  exact walk_eq_run (by omega) _

/-- A run dies where nothing serves the byte. -/
lemma run_stuck (h : cursor < hay.length) (hstep : A.step k (byteAt hay cursor) = none)
    (hpend : A.pending k = none) :
    A.run prog hay (some k) cursor last = (false, none, A.before hay k cursor last) := by
  rw [← walk_eq_run (n := hay.length + 1) (by omega), walk, if_neg (by omega)]
  simp only [hstep, hpend, before]

variable (last) in
/-- A run that a class serves goes on from its target. -/
lemma run_pending (h : cursor < hay.length) (hstep : A.step k (byteAt hay cursor) = none)
    {classIdx : ℕ} {target : Option σ} (hpend : A.pending k = some (classIdx, target))
    {hit : Bool} {c' : ℕ} (hmove : pendingMove prog classIdx hay cursor = (hit, c', false))
    {k' : σ} (hk' : (if hit then target else none) = some k') :
    A.run prog hay (some k) cursor last =
      A.run prog hay (some k') c' (A.arrive k' c' (A.before hay k cursor last)) := by
  have hlt := pendingMove_lt hmove
  rw [← walk_eq_run (n := hay.length + 1) (by omega), walk, if_neg (by omega)]
  simp only [hstep, hpend, hmove, hk', Bool.false_eq_true, if_false]
  exact walk_eq_run (by omega) _

/-- A run whose class rejects the character is over. -/
lemma run_pending_dead (h : cursor < hay.length) (hstep : A.step k (byteAt hay cursor) = none)
    {classIdx : ℕ} {target : Option σ} (hpend : A.pending k = some (classIdx, target))
    {hit : Bool} {c' : ℕ} (hmove : pendingMove prog classIdx hay cursor = (hit, c', false))
    (hk' : (if hit then target else none) = none) :
    A.run prog hay (some k) cursor last = (false, none, A.before hay k cursor last) := by
  rw [← walk_eq_run (n := hay.length + 1) (by omega), walk, if_neg (by omega)]
  simp only [hstep, hpend, hmove, hk', Bool.false_eq_true, if_false, before]

/-- A run whose class meets a cut-off character is over. -/
lemma run_pending_cut (h : cursor < hay.length) (hstep : A.step k (byteAt hay cursor) = none)
    {classIdx : ℕ} {target : Option σ} (hpend : A.pending k = some (classIdx, target))
    {hit : Bool} {c' : ℕ} (hmove : pendingMove prog classIdx hay cursor = (hit, c', true)) :
    A.run prog hay (some k) cursor last =
      ((if hit then target else none).isSome, if hit then target else none,
        A.before hay k cursor last) := by
  rw [← walk_eq_run (n := hay.length + 1) (by omega), walk, if_neg (by omega)]
  simp only [hstep, hpend, hmove, if_true, before]

variable (prog hay cursor last) in
/-- A run over bytes that all lead back into a state. -/
lemma run_selfLoop {tx : UInt8 → TxWord} {word : TxWord}
    (htx : ∀ b, tx b = word → A.step k b = some k ∧ A.acceptBefore k b = false)
    (hlast : A.arrive k cursor last = last) :
    A.run prog hay (some k) cursor last =
      A.run prog hay (some k) (runSelfLoop hay tx word cursor)
        (A.arrive k (runSelfLoop hay tx word cursor) last) := by
  induction hd : hay.length - cursor generalizing cursor last with
  | zero => rw [runSelfLoop_of_ne (fun h => absurd h (by omega)), hlast]
  | succ d ih =>
    have hc : cursor < hay.length := by omega
    by_cases hword : tx (byteAt hay cursor) = word
    · obtain ⟨hstep, hbefore⟩ := htx _ hword
      have hb : A.before hay k cursor last = last := by simp [before, hbefore]
      have harrive : ∀ c c', A.arrive k c (A.arrive k c' last) = A.arrive k c last := by
        intro c c'
        unfold arrive
        split <;> rfl
      rw [runSelfLoop_of_eq hc hword, run_step prog last hc hstep, hb,
        ih _ _ (harrive _ _) (by omega), harrive]
    · rw [runSelfLoop_of_ne (fun _ => hword), hlast]

end Automaton

/-! ### The byte walk -/

section Walk

variable {τ σ : Type} {T : Table τ} {A : Automaton σ} {Ok GaveUp : τ → Prop}
  {Rep : τ → ℕ → Option σ → Prop} {prog : Program} {hay : List UInt8}

/-- What a turn of the byte walk says of the run of the automaton. -/
def TurnAgrees (A : Automaton σ) (Rep : ℕ → Option σ → Prop) (prog : Program) (hay : List UInt8)
    (q : Option σ) (cursor : ℕ) (last : Option ℕ) : Turn → Prop
  | .go i' cursor' last' => ∃ q', Rep i' q' ∧ cursor < cursor' ∧
      A.run prog hay q cursor last = A.run prog hay q' cursor' last'
  | .stop alive i' _ last' => ∃ q', A.run prog hay q cursor last = (alive, q', last') ∧
      (alive = true → Rep i' q')

/-- The index 0 is the dead state. -/
lemma Serves.zero_iff (S : Serves T A Ok GaveUp Rep) {t : τ} {i : ℕ} {q : Option σ} (hok : Ok t)
    (hrep : Rep t i q) : i = 0 ↔ q = none := by
  constructor
  · rintro rfl
    exact S.rep_left hok hrep (S.zero hok)
  · rintro rfl
    exact S.rep_right hok hrep (S.zero hok)

/-- The word of a filled transition reads as dead exactly where the automaton stops. -/
lemma Serves.word_eq_zero (S : Serves T A Ok GaveUp Rep) {t : τ} {i : ℕ} {q : Option σ} {b : UInt8}
    (hok : Ok t) (hrep : Rep t i q) (hfill : T.Filled t i b) :
    (rowAt (T.dfa t).states i).transitions b = .plain 0 ↔ (q.bind fun k => A.step k b) = none := by
  have hstate := S.zero_iff hok (S.step hok hrep b hfill)
  have haccept := S.word_accept hok hrep b hfill
  have hmono := S.word_monotone hok hrep b
  constructor
  · intro h
    exact hstate.mp (by rw [h]; rfl)
  · intro h
    rw [h] at haccept
    rcases hw : (rowAt (T.dfa t).states i).transitions b with ⟨state, accept, monotone⟩
    rw [hw] at haccept hmono hstate
    obtain rfl : accept = false := haccept
    obtain rfl : state = 0 := hstate.mpr h
    cases monotone with
    | false => rfl
    | true => exact absurd (hmono rfl) (by decide)

/-- A dead row has no transition and no class. -/
lemma Serves.walkTurn_dead (S : Serves T A Ok GaveUp Rep) {t : τ} {i cursor : ℕ}
    {last : Option ℕ} (hok : Ok t) (hrep : Rep t i none) (hcur : cursor < hay.length)
    (hfill : T.Filled t i (byteAt hay cursor)) :
    TurnAgrees A (Rep t) prog hay none cursor last
      (walkTurn (T.dfa t) prog hay (T.dfa t).anyAcceptBeforeByte i cursor last) := by
  have hword := (S.word_eq_zero hok hrep hfill).mpr rfl
  have hpend : (rowAt (T.dfa t).states i).pendingClass.active = false := S.pending hok hrep
  have hbefore := S.acceptBefore hok hrep _ hfill
  simp only [walkTurn, hword, hpend, hbefore, ne_eq, not_true, if_false, if_true, Option.any_none,
    Bool.false_eq_true]
  exact ⟨none, Automaton.run_none hcur, fun h => absurd h (by decide)⟩

/-- A turn that takes no transition. -/
lemma Serves.walkTurn_pending (S : Serves T A Ok GaveUp Rep) {t : τ} {i cursor : ℕ} {k : σ}
    {last : Option ℕ} (hok : Ok t) (hrep : Rep t i (some k)) (hcur : cursor < hay.length)
    (hfill : T.Filled t i (byteAt hay cursor)) (hstep : A.step k (byteAt hay cursor) = none) :
    TurnAgrees A (Rep t) prog hay (some k) cursor last
      (walkTurn (T.dfa t) prog hay (T.dfa t).anyAcceptBeforeByte i cursor last) := by
  have hword := (S.word_eq_zero hok hrep hfill).mpr hstep
  have hbefore : ((T.dfa t).anyAcceptBeforeByte &&
      (rowAt (T.dfa t).states i).acceptBeforeByte (byteAt hay cursor)) =
        A.acceptBefore k (byteAt hay cursor) := S.acceptBefore hok hrep _ hfill
  have hlast : (if A.acceptBefore k (byteAt hay cursor) = true then some cursor else last) =
    A.before hay k cursor last := rfl
  have hpend := S.pending hok hrep
  simp only [Option.bind_some] at hpend
  simp only [walkTurn, hword, hbefore, ne_eq, not_true, if_false, hlast]
  cases hp : A.pending k with
  | none =>
    rw [hp] at hpend
    have hinert : (rowAt (T.dfa t).states i).pendingClass.active = false := hpend
    simp only [hinert, if_true]
    exact ⟨none, Automaton.run_stuck hcur hstep hp, fun h => absurd h (by decide)⟩
  | some p =>
    obtain ⟨classIdx, target⟩ := p
    rw [hp] at hpend
    obtain ⟨hactive, hclass, hno, hyes⟩ := hpend
    rcases hmove : pendingMove prog classIdx hay cursor with ⟨hit, c', atEnd⟩
    have hnext : Rep t (if hit then (rowAt (T.dfa t).states i).pendingClass.yesTarget else 0)
        (if hit then target else none) := by
      cases hit with
      | true => exact hyes
      | false => exact S.zero hok
    simp only [hactive, pendingClassStep, hclass, hno, hmove, Bool.true_eq_false, if_false]
    have hiff := S.zero_iff hok hnext
    have haccept := S.accept hok hnext
    revert hnext hiff haccept
    generalize (if hit then (rowAt (T.dfa t).states i).pendingClass.yesTarget else 0) = next
    intro hnext hiff haccept
    cases atEnd with
    | true =>
      refine ⟨_, ?_, fun _ => hnext⟩
      rw [Automaton.run_pending_cut hcur hstep hp hmove]
      cases hq : (if hit then target else none) <;> simp [hq] at hiff ⊢ <;> simp [hiff]
    | false =>
      cases hq : (if hit then target else none) with
      | none =>
        obtain rfl := hiff.mpr hq
        exact ⟨none, Automaton.run_pending_dead hcur hstep hp hmove hq, fun h => absurd h (by decide)⟩
      | some k' =>
        rw [hq] at hnext hiff haccept
        have hne : next ≠ 0 := fun h => absurd (hiff.mp h) (by simp)
        have hrun := Automaton.run_pending last hcur hstep hp hmove hq
        simp only [Bool.false_eq_true, if_false, hne, haccept, Option.any_some]
        unfold Automaton.arrive at hrun
        split_ifs with hacc
        · rw [if_pos hacc] at hrun
          exact ⟨_, hnext, pendingMove_lt hmove, hrun⟩
        · rw [if_neg hacc] at hrun
          exact ⟨_, hnext, pendingMove_lt hmove, hrun⟩

/-- A word that leads back into its own live state is filled there, and leaves no mark. -/
lemma Serves.selfLoop (S : Serves T A Ok GaveUp Rep) {t : τ} {i : ℕ} {k : σ} {word : TxWord}
    (hok : Ok t) (hrep : Rep t i (some k)) (hword : word.state = i)
    (hquiet : A.accept k = true ∨ (T.dfa t).anyAcceptBeforeByte = false ∨
      abbIsEmpty (rowAt (T.dfa t).states i).acceptBeforeByte = true) (b : UInt8)
    (hb : (rowAt (T.dfa t).states i).transitions b = word) :
    A.step k b = some k ∧ A.acceptBefore k b = false := by
  have hi : i ≠ 0 := fun h => absurd ((S.zero_iff hok hrep).mp h) (by simp)
  have hfill : T.Filled t i b := by
    by_contra hfill
    have hplain := S.unfilled hok hrep b hfill
    rw [hb] at hplain
    exact hi (by rw [← hword, hplain]; rfl)
  refine ⟨?_, ?_⟩
  · have hstep := S.step hok hrep b hfill
    rw [hb, hword] at hstep
    exact S.rep_left hok hstep hrep
  · rcases hquiet with haccept | hany | hempty
    · exact S.acceptBefore_accept k b haccept
    · have hbefore := S.acceptBefore hok hrep b hfill
      rw [hany] at hbefore
      exact hbefore.symm
    · have hbefore := S.acceptBefore hok hrep b hfill
      have hclear : (rowAt (T.dfa t).states i).acceptBeforeByte b = false := by
        have hall := List.all_eq_true.mp hempty b (mem_allBytes b)
        simpa using hall
      rw [hclear, Bool.and_false] at hbefore
      exact hbefore.symm

/-- A turn that takes a transition. -/
lemma Serves.walkTurn_step (S : Serves T A Ok GaveUp Rep) {t : τ} {i cursor : ℕ} {k k' : σ}
    {last : Option ℕ} (hok : Ok t) (hrep : Rep t i (some k)) (hcur : cursor < hay.length)
    (hfill : T.Filled t i (byteAt hay cursor)) (hstep : A.step k (byteAt hay cursor) = some k') :
    TurnAgrees A (Rep t) prog hay (some k) cursor last
      (walkTurn (T.dfa t) prog hay (T.dfa t).anyAcceptBeforeByte i cursor last) := by
  have hne : (rowAt (T.dfa t).states i).transitions (byteAt hay cursor) ≠ .plain 0 := by
    intro h
    have hnone := (S.word_eq_zero hok hrep hfill).mp h
    rw [Option.bind_some, hstep] at hnone
    exact absurd hnone (by simp)
  have hbefore : ((T.dfa t).anyAcceptBeforeByte &&
      (rowAt (T.dfa t).states i).acceptBeforeByte (byteAt hay cursor)) =
        A.acceptBefore k (byteAt hay cursor) := S.acceptBefore hok hrep _ hfill
  have hlast : (if A.acceptBefore k (byteAt hay cursor) = true then some cursor else last) =
    A.before hay k cursor last := rfl
  have hnext := S.step hok hrep _ hfill
  have haccept := S.word_accept hok hrep _ hfill
  rw [Option.bind_some, hstep] at hnext haccept
  rw [Option.any_some] at haccept
  have hrun := Automaton.run_step prog last hcur hstep
  simp only [walkTurn, hbefore, hlast, ne_eq, hne, not_false_iff, if_true]
  revert hne hnext haccept
  generalize (rowAt (T.dfa t).states i).transitions (byteAt hay cursor) = word
  intro hne hnext haccept
  by_cases hacc : A.accept k' = true
  · simp only [Automaton.arrive, if_pos hacc] at hrun
    simp only [haccept, hacc, if_true]
    by_cases hm : word.monotone = true
    · simp only [hm, if_true]
      have hloop := S.selfLoop hok hnext rfl (.inl hacc)
      have hself := Automaton.run_selfLoop prog hay (cursor + 1) (some (cursor + 1)) hloop
        (if_pos hacc)
      rw [Automaton.arrive, if_pos hacc] at hself
      exact ⟨_, hnext, lt_of_lt_of_le cursor.lt_succ_self (le_runSelfLoop _ _ _ _),
        hrun.trans hself⟩
    · rw [if_neg hm]
      exact ⟨_, hnext, cursor.lt_succ_self, hrun⟩
  · simp only [Automaton.arrive, if_neg hacc] at hrun
    have hwacc : word.accept = false := by rw [haccept]; simpa using hacc
    simp only [hwacc, Bool.false_eq_true, if_false]
    by_cases hself : word = .plain i
    · have hk : k' = k := by
        rw [hself] at hnext
        exact Option.some.inj (S.rep_left hok hnext hrep)
      subst hk
      simp only [hself, not_true, if_false]
      by_cases hquiet : (!(T.dfa t).anyAcceptBeforeByte ||
          abbIsEmpty (rowAt (T.dfa t).states i).acceptBeforeByte) = true
      · rw [if_pos hquiet]
        rw [Bool.or_eq_true, Bool.not_eq_true'] at hquiet
        have hloop := S.selfLoop hok hrep (show (TxWord.plain i).state = i from rfl) (.inr hquiet)
        have hrest := Automaton.run_selfLoop prog hay (cursor + 1)
          (A.before hay k' cursor last) hloop (if_neg hacc)
        rw [Automaton.arrive, if_neg hacc] at hrest
        exact ⟨_, hrep, lt_of_lt_of_le cursor.lt_succ_self (le_runSelfLoop _ _ _ _),
          hrun.trans hrest⟩
      · rw [if_neg hquiet]
        exact ⟨_, hrep, cursor.lt_succ_self, hrun⟩
    · simp only [hself, not_false_iff, if_true]
      exact ⟨_, hnext, cursor.lt_succ_self, hrun⟩

variable (prog) in
/-- A turn of the byte walk is one or more turns of the automaton. -/
lemma Serves.walkTurn_agrees (S : Serves T A Ok GaveUp Rep) {t : τ} {i cursor : ℕ} {q : Option σ}
    (last : Option ℕ) (hok : Ok t) (hrep : Rep t i q) (hcur : cursor < hay.length)
    (hfill : T.Filled t i (byteAt hay cursor)) :
    TurnAgrees A (Rep t) prog hay q cursor last
      (walkTurn (T.dfa t) prog hay (T.dfa t).anyAcceptBeforeByte i cursor last) := by
  cases q with
  | none => exact S.walkTurn_dead hok hrep hcur hfill
  | some k =>
    cases hstep : A.step k (byteAt hay cursor) with
    | none => exact S.walkTurn_pending hok hrep hcur hfill hstep
    | some k' => exact S.walkTurn_step hok hrep hcur hfill hstep

variable (prog hay) in
/-- The byte walk takes the run of the automaton, or gives up. -/
lemma Serves.walkLoop_agrees (S : Serves T A Ok GaveUp Rep) {n : ℕ} {t : τ} {i : ℕ} (cursor : ℕ)
    {q : Option σ} (last : Option ℕ) (hok : Ok t) (hrep : Rep t i q)
    (hn : hay.length - cursor < n) :
    match walkLoop T prog hay (T.dfa t).anyAcceptBeforeByte n t i cursor last with
    | (none, t') => GaveUp t'
    | (some (alive, i', _, last'), t') => Ok t' ∧
        ∃ q', A.run prog hay q cursor last = (alive, q', last') ∧ (alive = true → Rep t' i' q') := by
  induction n generalizing t i cursor q last with
  | zero => omega
  | succ n ih =>
    by_cases hcur : hay.length ≤ cursor
    · simp only [walkLoop, if_pos hcur]
      exact ⟨hok, q, Automaton.run_of_le hcur q, fun _ => hrep⟩
    · have hcur' : cursor < hay.length := by omega
      have hgo : ∀ {t' i'}, Ok t' → Rep t' i' q → T.Filled t' i' (byteAt hay cursor) →
          (T.dfa t').anyAcceptBeforeByte = (T.dfa t).anyAcceptBeforeByte →
          match (match walkTurn (T.dfa t') prog hay (T.dfa t).anyAcceptBeforeByte i' cursor last with
            | .go state cursor last =>
              walkLoop T prog hay (T.dfa t).anyAcceptBeforeByte n t' state cursor last
            | .stop alive state cursor last => (some (alive, state, cursor, last), t')) with
          | (none, t') => GaveUp t'
          | (some (alive, i', _, last'), t') => Ok t' ∧ ∃ q',
              A.run prog hay q cursor last = (alive, q', last') ∧ (alive = true → Rep t' i' q') := by
        intro t' i' hok' hrep' hfill' hany
        have hturn := Serves.walkTurn_agrees prog S last hok' hrep' hcur' hfill'
        rw [← hany]
        cases hw : walkTurn (T.dfa t') prog hay (T.dfa t').anyAcceptBeforeByte i' cursor last with
        | go i'' c'' last'' =>
          rw [hw] at hturn
          obtain ⟨q'', hrep'', hlt, hrun⟩ := hturn
          rw [hrun]
          exact ih _ _ hok' hrep'' (by omega)
        | stop alive i'' c'' last'' =>
          rw [hw] at hturn
          obtain ⟨q'', hrun, hrep''⟩ := hturn
          exact ⟨hok', q'', hrun, hrep''⟩
      simp only [walkLoop, if_neg hcur]
      by_cases hfill : T.Filled t i (byteAt hay cursor)
      · have hread : (T.lazy && !T.known t i (byteAt hay cursor)) = false := by
          rcases hfill with h | h <;> simp [h]
        rw [hread]
        exact hgo hok hrep hfill rfl
      · have hread : (T.lazy && !T.known t i (byteAt hay cursor)) = true := by
          simp only [Table.Filled, not_or, Bool.not_eq_false] at hfill
          simp [hfill.1, hfill.2]
        rw [hread, if_pos rfl]
        have hfilled := S.fill hok hrep _ cursor hfill
        rcases hf : T.fill t i (byteAt hay cursor) cursor with ⟨_ | i', t'⟩
        · rw [hf] at hfilled
          exact hfilled
        · rw [hf] at hfilled
          obtain ⟨hok', hrep', hfill', hany⟩ := hfilled
          exact hgo hok' hrep' hfill' hany

/-- The search of a table is that of the automaton, or gives up. -/
lemma Serves.dfaSearchFrom_agrees (S : Serves T A Ok GaveUp Rep) {t : τ} {i : ℕ} {q : Option σ}
    (hok : Ok t) (hrep : Rep t i q) :
    match dfaSearchFrom T prog hay t i with
    | (r, t') => (r = none ∧ GaveUp t') ∨ (r = A.search prog hay q ∧ Ok t') := by
  have hinit : (if (rowAt (T.dfa t).states i).isAccept = true then some 0 else none : Option ℕ) =
      if q.any A.accept = true then some 0 else none := by rw [S.accept hok hrep]
  have hwalk := S.walkLoop_agrees prog hay (n := hay.length + 1) 0
    (if q.any A.accept = true then some 0 else none) hok hrep (by omega)
  simp only [dfaSearchFrom, hinit]
  rcases hw : walkLoop T prog hay (T.dfa t).anyAcceptBeforeByte (hay.length + 1) t i 0
    (if q.any A.accept = true then some 0 else none) with ⟨_ | ⟨alive, i', c', last'⟩, t'⟩
  · rw [hw] at hwalk
    exact .inl ⟨rfl, hwalk⟩
  · rw [hw] at hwalk
    obtain ⟨hok', q', hrun, hrep'⟩ := hwalk
    refine .inr ⟨?_, ?_⟩
    · simp only [Automaton.search, hrun]
      cases alive with
      | false => rfl
      | true => rw [S.acceptAtEnd hok' (hrep' rfl)]
    · simp only
      split_ifs with hlazy
      · exact S.noteWalked hlazy hok' c'
      · exact hok'

/-- A search whose first byte leads nowhere finds nothing. -/
lemma Automaton.search_eq_none {q : Option σ}
    (hlen : 0 < hay.length) (hacc : q.any A.accept = false)
    (hstep : (q.bind fun k => A.step k (byteAt hay 0)) = none)
    (hbefore : (q.any fun k => A.acceptBefore k (byteAt hay 0)) = false)
    (hpend : ∀ classIdx target, q.bind A.pending = some (classIdx, target) →
      byteAt hay 0 < 0x80 ∧ ∃ cls, prog.classes[classIdx]? = some cls ∧
        testCp cls (byteAt hay 0).toNat = false) :
    A.search prog hay q = none := by
  have hrun : A.run prog hay q 0 none = (false, none, none) := by
    cases q with
    | none => exact run_none hlen
    | some k =>
      have hb : A.before hay k 0 none = none := by
        have hk : A.acceptBefore k (byteAt hay 0) = false := hbefore
        simp [before, hk]
      cases hp : A.pending k with
      | none => rw [run_stuck hlen hstep hp, hb]
      | some p =>
        obtain ⟨classIdx, target⟩ := p
        obtain ⟨hascii, cls, hcls, htest⟩ := hpend classIdx target hp
        have hmove : pendingMove prog classIdx hay 0 = (false, 1, false) := by
          have hone : pendingLen (byteAt hay 0) = some 1 := if_pos hascii
          have hcp : pendingCp hay 0 1 = (byteAt hay 0).toNat := rfl
          simp only [pendingMove, hone, hcls, hcp, htest]
          rw [if_neg (by omega), if_neg (by simp)]
        rw [run_pending_dead hlen hstep hp hmove rfl, hb]
  unfold search
  rw [hacc]
  simp only [Bool.false_eq_true, if_false, hrun, Bool.false_and]

/-- A row that does not admit a byte has neither transition nor mark there. -/
lemma Serves.not_admits (S : Serves T A Ok GaveUp Rep) {t : τ} {i : ℕ} {q : Option σ} {b : UInt8}
    (hok : Ok t) (hrep : Rep t i q) (hfill : T.Filled t i b)
    (h : rowAdmits (T.dfa t) i b = false) :
    (q.bind fun k => A.step k b) = none ∧ (q.any fun k => A.acceptBefore k b) = false := by
  have hbefore := S.acceptBefore hok hrep b hfill
  simp only [rowAdmits, Bool.or_eq_false_iff, decide_eq_false_iff_not, not_not] at h
  exact ⟨(S.word_eq_zero hok hrep hfill).mp h.1, hbefore ▸ h.2⟩

end Walk

/-! ### The loop over the starts -/

/-- A scan stops in the haystack, and its test fails before. -/
lemma scanFrom_spec {hay : List UInt8} (test : UInt8 → Bool) {p : ℕ} (h : p ≤ hay.length) :
    p ≤ scanFrom hay test p ∧ scanFrom hay test p ≤ hay.length ∧
      ∀ i, p ≤ i → i < scanFrom hay test p → test (byteAt hay i) = false := by
  have hpre := List.takeWhile_prefix (l := hay.drop p) fun b => !test b
  have hlen := hpre.length_le
  rw [List.length_drop] at hlen
  refine ⟨Nat.le_add_right _ _, by unfold scanFrom; omega, ?_⟩
  intro i hpi hi
  obtain ⟨j, rfl⟩ := Nat.exists_eq_add_of_le hpi
  have hj : j < ((hay.drop p).takeWhile fun b => !test b).length := by
    unfold scanFrom at hi
    omega
  have htest := List.all_eq_true.mp List.all_takeWhile _ (List.getElem_mem hj)
  rw [hpre.getElem hj, List.getElem_drop] at htest
  rw [byteAt, List.getD_eq_getElem _ _ (by omega)]
  simpa using htest


/-- A start that the search may settle on. -/
def Admissible (prog : SearchProgram) (s : List UInt8) (flags : UInt8) (haystackIsAscii : Bool)
    (p : ℕ) : Prop :=
  p ≤ s.length ∧ skipsContinuationByte s p flags haystackIsAscii = false ∧
    ∀ b, prog.prefixByte = some b → p < s.length ∧ byteAt s p = b

/-- The byte that a search finds is the first of its kind. -/
lemma findByte_eq_some {s : List UInt8} {b : UInt8} {p st : ℕ} (h : findByte s b p = some st) :
    p ≤ st ∧ st < s.length ∧ byteAt s st = b ∧ ∀ i, p ≤ i → i < st → byteAt s i ≠ b := by
  obtain ⟨j, hj, rfl⟩ := Option.map_eq_some_iff.mp h
  obtain ⟨hlt, hhit, hbefore⟩ := List.findIdx?_eq_some_iff_getElem.mp hj
  rw [List.length_drop] at hlt
  refine ⟨Nat.le_add_right _ _, by omega, ?_, ?_⟩
  · rw [byteAt, List.getD_eq_getElem _ _ (by omega)]
    rw [List.getElem_drop] at hhit
    exact beq_iff_eq.mp hhit
  · intro i hpi hi
    obtain ⟨k, rfl⟩ := Nat.exists_eq_add_of_le hpi
    have hk := hbefore k (by omega)
    rw [List.getElem_drop] at hk
    rw [byteAt, List.getD_eq_getElem _ _ (by omega)]
    simpa using hk

/-- A search that fails meets no byte of its kind. -/
lemma findByte_eq_none {s : List UInt8} {b : UInt8} {p : ℕ} (h : findByte s b p = none) :
    ∀ i, p ≤ i → i < s.length → byteAt s i ≠ b := by
  intro i hpi hi
  have hnone := List.findIdx?_eq_none_iff.mp (Option.map_eq_none_iff.mp h)
  have hmem : byteAt s i ∈ s.drop p := by
    rw [byteAt, List.getD_eq_getElem _ _ hi]
    exact List.mem_drop_iff_getElem.mpr ⟨i - p, by omega, by congr 1; omega⟩
  simpa using hnone _ hmem

section Find

variable {τ σ : Type} [DecidableEq σ] {T : Table τ} {A : Automaton σ} {Ok GaveUp : τ → Prop}
  {Rep : τ → ℕ → Option σ → Prop} {prog : SearchProgram} {s : List UInt8} {flags : UInt8}
  {haystackIsAscii : Bool}

/-- The entry states coincide in the table as in the automaton. -/
lemma Serves.startsEqual_iff (S : Serves T A Ok GaveUp Rep) {t : τ} (hok : Ok t) :
    (T.dfa t).allStartsEqual = A.startsEqual := by
  have hstart := S.start hok
  have hword := S.startMidWord hok
  have hnonword := S.startMidNonword hok
  have hiff : ∀ {i j q r}, Rep t i q → Rep t j r → (i = j ↔ q = r) := by
    intro i j q r hi hj
    constructor
    · rintro rfl
      exact S.rep_left hok hi hj
    · rintro rfl
      exact S.rep_right hok hi hj
  rw [S.allStartsEqual hok, Bool.eq_iff_iff]
  simp only [Starts.allEqual, Bool.and_eq_true, beq_iff_eq, Automaton.startsEqual,
    decide_eq_true_eq, hiff hstart hword, hiff hstart hnonword]

/-- The entry state that a probe selects. -/
lemma Serves.probeStart_rep (S : Serves T A Ok GaveUp Rep) {t : τ} (hok : Ok t) (p : ℕ) :
    Rep t (Dfa.probeStart prog (T.dfa t) s p) (A.probeStart prog s p) := by
  unfold Dfa.probeStart Automaton.probeStart
  rw [S.startsEqual_iff hok]
  split_ifs
  · exact S.start hok
  · exact S.start hok
  · exact S.startMidWord hok
  · exact S.startMidNonword hok

variable (prog s) in
/-- A probe of a table is that of the automaton, or gives up. -/
lemma Serves.dfaProbe_agrees (S : Serves T A Ok GaveUp Rep) {t : τ} (hok : Ok t) (p : ℕ) :
    match dfaProbe T prog t s p with
    | (r, t') => (r = none ∧ GaveUp t') ∨ (r = A.probe prog s p ∧ Ok t') :=
  S.dfaSearchFrom_agrees hok (S.probeStart_rep hok p)

/-- A probe from an entry row that gets off on no byte of the start finds nothing. -/
lemma Serves.probe_eq_none (S : Serves T A Ok GaveUp Rep) {t : τ} (hok : Ok t) {i p : ℕ}
    (hp : p < s.length) (hstart : Dfa.probeStart prog (T.dfa t) s p = i)
    (hfill : ∀ b, T.Filled t i b) (hacc : (rowAt (T.dfa t).states i).isAccept = false)
    (hgets : rowAdmits (T.dfa t) i (byteAt s p) = false)
    (hpend : (rowAt (T.dfa t).states i).pendingClass.active = true → byteAt s p < 0x80 ∧
      ∃ cls, prog.classes[(rowAt (T.dfa t).states i).pendingClass.classIdx]? = some cls ∧
        testCp cls (byteAt s p).toNat = false) :
    A.probe prog s p = none := by
  have hrep : Rep t i (A.probeStart prog s p) := hstart ▸ S.probeStart_rep hok p
  have hfirst : byteAt (s.drop p) 0 = byteAt s p := by
    rw [byteAt, byteAt, List.getD_eq_getElem _ _ (by rw [List.length_drop]; omega),
      List.getD_eq_getElem _ _ hp, List.getElem_drop]
    rfl
  obtain ⟨hstep, hbefore⟩ := S.not_admits hok hrep (hfill _) hgets
  unfold Automaton.probe
  apply Automaton.search_eq_none
  · rw [List.length_drop]
    omega
  · rw [← S.accept hok hrep, hacc]
  · rw [hfirst, hstep]
  · rw [hfirst, hbefore]
  · intro classIdx target htarget
    have hrow := S.pending hok hrep
    rw [htarget] at hrow
    obtain ⟨hactive, hclass, -⟩ := hrow
    rw [hfirst, ← hclass]
    exact hpend hactive

/-- From `p` a search may go on at `r`: every probe between fails. -/
def SkipsTo (A : Automaton σ) (prog : SearchProgram) (s : List UInt8) (p r : ℕ) : Prop :=
  p ≤ r ∧ r ≤ s.length ∧ ∀ i, p ≤ i → i < r → A.probe prog s i = none

lemma skipsTo_self {p : ℕ} (h : p ≤ s.length) : SkipsTo A prog s p p :=
  ⟨le_rfl, h, fun i hi hlt => absurd hlt (by omega)⟩

/-- A scan skips the starts where its test fails. -/
lemma skipsTo_scanFrom {p : ℕ} (h : p ≤ s.length) {test : UInt8 → Bool}
    (htest : ∀ i, i < s.length → test (byteAt s i) = false → A.probe prog s i = none) :
    SkipsTo A prog s p (scanFrom s test p) := by
  obtain ⟨hge, hle, hfail⟩ := scanFrom_spec test h
  exact ⟨hge, hle, fun i hi hlt => htest i (by omega) (hfail i hi hlt)⟩

variable (prog s) in
/-- Before the first viable start no probe succeeds. -/
lemma Serves.firstViableStart_skips (S : Serves T A Ok GaveUp Rep) {t : τ} (hok : Ok t) {p : ℕ}
    (hp : p ≤ s.length) :
    SkipsTo A prog s p (firstViableStart (T.dfa t) prog.toProgram s p) := by
  have hentries := S.entries hok
  unfold firstViableStart
  dsimp only
  split_ifs with hend heq hacc hpend hany
  · rw [show s.length = p by omega]
    exact skipsTo_self hp
  · exact skipsTo_self hp
  · have hstart : ∀ i, Dfa.probeStart prog (T.dfa t) s i = (T.dfa t).starts.start :=
      fun i => if_pos heq
    unfold pendingFirstViable
    dsimp only
    split_ifs with hno
    · exact skipsTo_self hp
    · cases hcls : prog.classes[(rowAt (T.dfa t).states
        (T.dfa t).starts.start).pendingClass.classIdx]? with
      | none => exact skipsTo_self hp
      | some cls =>
        refine skipsTo_scanFrom hp fun i hi htest => ?_
        simp only [Bool.or_eq_false_iff, decide_eq_false_iff_not] at htest
        exact S.probe_eq_none hok hi (hstart i) (fun b => (hentries b).1) (by simpa using hacc)
          htest.2 fun _ => ⟨UInt8.not_le.mp htest.1.1, cls, hcls, htest.1.2⟩
  · have hstart : ∀ i, Dfa.probeStart prog (T.dfa t) s i = (T.dfa t).starts.start :=
      fun i => if_pos heq
    refine skipsTo_scanFrom hp fun i hi htest => ?_
    exact S.probe_eq_none hok hi (hstart i) (fun b => (hentries b).1) (by simpa using hacc) htest
      fun h => absurd h hpend
  · exact skipsTo_self hp
  · refine skipsTo_scanFrom hp fun i hi htest => ?_
    simp only [List.any_cons, List.any_nil, Bool.or_false, Bool.or_eq_true, not_or,
      Bool.not_eq_true, Bool.or_eq_false_iff] at hany htest
    obtain ⟨hs, hw, hn⟩ := hany
    obtain ⟨hts, htw, htn⟩ := htest
    have hcases : Dfa.probeStart prog (T.dfa t) s i = (T.dfa t).starts.start ∨
        Dfa.probeStart prog (T.dfa t) s i = (T.dfa t).starts.midWord ∨
        Dfa.probeStart prog (T.dfa t) s i = (T.dfa t).starts.midNonword := by
      unfold Dfa.probeStart
      split_ifs <;> simp
    rcases hcases with h | h | h
    · exact S.probe_eq_none hok hi h (fun b => (hentries b).1) hs.1 hts fun h => absurd h (by simp [hs.2])
    · exact S.probe_eq_none hok hi h (fun b => (hentries b).2.1) hw.1 htw
        fun h => absurd h (by simp [hw.2])
    · exact S.probe_eq_none hok hi h (fun b => (hentries b).2.2) hn.1 htn
        fun h => absurd h (by simp [hn.2])

/-- No admissible start in `[p, r)` has a match. -/
def NoneBefore (A : Automaton σ) (prog : SearchProgram) (s : List UInt8) (flags : UInt8)
    (haystackIsAscii : Bool) (p r : ℕ) : Prop :=
  ∀ i, p ≤ i → i < r → Admissible prog s flags haystackIsAscii i → A.probe prog s i = none

/-- The first hit from `p` on. -/
def FirstHit (A : Automaton σ) (prog : SearchProgram) (s : List UInt8) (flags : UInt8)
    (haystackIsAscii : Bool) (p st stop : ℕ) : Prop :=
  p ≤ st ∧ Admissible prog s flags haystackIsAscii st ∧
    (∃ len, A.probe prog s st = some len ∧ stop = st + len) ∧
    NoneBefore A prog s flags haystackIsAscii p st

variable (prog s flags haystackIsAscii) in
/-- What the start that a turn settles on says of the starts from `p` on. -/
lemma Serves.nextStart_spec (S : Serves T A Ok GaveUp Rep) {t : τ} (hok : Ok t) (p : ℕ) :
    match nextStart prog (T.dfa t) s flags haystackIsAscii p with
    | none => ∀ r, NoneBefore A prog s flags haystackIsAscii p r
    | some (st, probed) => p ≤ st ∧ st ≤ s.length ∧
        NoneBefore A prog s flags haystackIsAscii p st ∧
        (Admissible prog s flags haystackIsAscii st ↔ probed = true) := by
  unfold nextStart
  cases hpre : prog.prefixByte with
  | some b =>
    simp only
    split_ifs with hend
    · intro r i hi _ hadm
      have := (hadm.2.2 b hpre).1
      omega
    · cases hfind : findByte s b p with
      | none =>
        intro r i hi _ hadm
        obtain ⟨hlt, hb⟩ := hadm.2.2 b hpre
        exact absurd hb (findByte_eq_none hfind i hi hlt)
      | some st =>
        obtain ⟨hge, hlt, hb, hbefore⟩ := findByte_eq_some hfind
        refine ⟨hge, hlt.le, ?_, ?_⟩
        · intro i hi hist hadm
          exact absurd (hadm.2.2 b hpre).2 (hbefore i hi hist)
        · simp [Admissible, hpre, hlt, hlt.le, hb]
  | none =>
    simp only
    split_ifs with hend hskip hall
    · intro r i hi _ hadm
      have := hadm.1
      omega
    · exact ⟨le_rfl, by omega, fun i hi hlt => absurd hlt (by omega), by simp [Admissible, hskip]⟩
    · obtain ⟨hge, hle, hfail⟩ := S.firstViableStart_skips prog s (p := p) hok (by omega)
      refine ⟨hge, hle, fun i hi hlt _ => hfail i hi hlt, ?_⟩
      have hnoskip : ∀ i, skipsContinuationByte s i flags haystackIsAscii = false := by
        intro i
        unfold skipsContinuationByte
        rcases Bool.or_eq_true _ _ ▸ hall with h | h <;> simp_all
      simp [Admissible, hnoskip, hle, hpre]
    · refine ⟨le_rfl, by omega, fun i hi hlt => absurd hlt (by omega), ?_⟩
      simp only [Bool.not_eq_true] at hskip
      simp [Admissible, hskip, hpre]
      omega

/-- Starts without a match, then another. -/
lemma NoneBefore.append {p r u : ℕ} (h₁ : NoneBefore A prog s flags haystackIsAscii p r)
    (h₂ : NoneBefore A prog s flags haystackIsAscii r u) :
    NoneBefore A prog s flags haystackIsAscii p u := by
  intro i hi hiu hadm
  rcases lt_or_ge i r with hir | hri
  · exact h₁ i hi hir hadm
  · exact h₂ i hri hiu hadm

/-- One more start without a match. -/
lemma NoneBefore.succ {p r : ℕ} (h : NoneBefore A prog s flags haystackIsAscii p r)
    (hr : Admissible prog s flags haystackIsAscii r → A.probe prog s r = none) :
    NoneBefore A prog s flags haystackIsAscii p (r + 1) := by
  intro i hi hir hadm
  rcases Nat.lt_succ_iff_lt_or_eq.mp hir with hlt | rfl
  · exact h i hi hlt hadm
  · exact hr hadm

/-- What the search of a table that serves an automaton comes to. -/
def FindAgrees (T : Table τ) (A : Automaton σ) (Ok GaveUp : τ → Prop) (prog : SearchProgram)
    (s : List UInt8) (flags : UInt8) (haystackIsAscii : Bool) (p : ℕ) :
    Option (ℕ × ℕ) × τ → Prop
  | (some (st, stop), t') => Ok t' ∧ FirstHit A prog s flags haystackIsAscii p st stop
  | (none, t') =>
    (Ok t' ∧ ∀ r, NoneBefore A prog s flags haystackIsAscii p r) ∨
      ∃ t'' st, GaveUp t'' ∧ t' = (T.stopAt t'' st).2 ∧ p ≤ st ∧
        Admissible prog s flags haystackIsAscii st ∧
        NoneBefore A prog s flags haystackIsAscii p st

/-- A search may begin behind starts without a match. -/
lemma FindAgrees.of_le {p r : ℕ} {out : Option (ℕ × ℕ) × τ} (hpr : p ≤ r)
    (hnone : NoneBefore A prog s flags haystackIsAscii p r)
    (h : FindAgrees T A Ok GaveUp prog s flags haystackIsAscii r out) :
    FindAgrees T A Ok GaveUp prog s flags haystackIsAscii p out := by
  rcases out with ⟨_ | ⟨st, stop⟩, t'⟩
  · rcases h with ⟨hok, hall⟩ | ⟨t'', st, hgave, ht, hle, hadm, hbefore⟩
    · exact .inl ⟨hok, fun u => hnone.append (hall u)⟩
    · exact .inr ⟨t'', st, hgave, ht, hpr.trans hle, hadm, hnone.append hbefore⟩
  · obtain ⟨hok, hle, hadm, hlen, hbefore⟩ := h
    exact ⟨hok, hpr.trans hle, hadm, hlen, hnone.append hbefore⟩

/-- The loop over the starts finds the first hit of the automaton, or gives up. -/
lemma Serves.findLoop_agrees (S : Serves T A Ok GaveUp Rep) {n : ℕ} {t : τ} {p : ℕ} (hok : Ok t)
    (hn : s.length + 1 - p < n) :
    FindAgrees T A Ok GaveUp prog s flags haystackIsAscii p
      (findLoop T prog s flags haystackIsAscii n t p) := by
  induction n generalizing t p with
  | zero => omega
  | succ n ih =>
    have hnext := S.nextStart_spec prog s flags haystackIsAscii hok p
    unfold findLoop
    rcases hstart : nextStart prog (T.dfa t) s flags haystackIsAscii p with _ | ⟨st, _ | _⟩
    · rw [hstart] at hnext
      exact .inl ⟨hok, hnext⟩
    · rw [hstart] at hnext
      obtain ⟨hle, hlen, hbefore, hadm⟩ := hnext
      refine FindAgrees.of_le (r := st + 1) (by omega) ?_ (ih hok (by omega))
      exact hbefore.succ fun h => absurd (hadm.mp h) (by decide)
    · rw [hstart] at hnext
      obtain ⟨hle, hlen, hbefore, hadm⟩ := hnext
      have hprobe := S.dfaProbe_agrees prog s hok st
      simp only
      rcases hp : dfaProbe T prog t s st with ⟨_ | len, t'⟩
      · rw [hp] at hprobe
        simp only
        rcases hprobe with ⟨-, hgave⟩ | ⟨hnone, hok'⟩
        · obtain ⟨hlazy, hstop⟩ := S.stopAt_gaveUp hgave
          rw [if_pos hlazy]
          rcases hs : T.stopAt t' st with ⟨stopped, t''⟩
          have hstopped := hstop st
          rw [hs] at hstopped
          obtain rfl : stopped = true := hstopped
          exact .inr ⟨t', st, hgave, by rw [hs], hle, hadm.mpr rfl, hbefore⟩
        · have hstop : (if T.lazy then T.stopAt t' st else (false, t')) = (false, t') := by
            split_ifs with hlazy
            · exact S.stopAt_ok hlazy hok' st
            · rfl
          rw [hstop]
          refine FindAgrees.of_le (r := st + 1) (by omega) ?_ (ih hok' (by omega))
          exact hbefore.succ fun _ => hnone.symm
      · rw [hp] at hprobe
        rcases hprobe with ⟨habs, -⟩ | ⟨hsome, hok'⟩
        · exact absurd habs (by simp)
        · exact ⟨hok', hle, hadm.mpr rfl, ⟨len, hsome.symm, rfl⟩, hbefore⟩

variable (prog s flags haystackIsAscii) in
/-- A table that serves an automaton finds its first hit, or gives up. -/
lemma Serves.dfaFindFrom_agrees (S : Serves T A Ok GaveUp Rep) {t : τ} (hok : Ok t) (p : ℕ) :
    FindAgrees T A Ok GaveUp prog s flags haystackIsAscii p
      (dfaFindFrom T prog t s p flags haystackIsAscii) :=
  S.findLoop_agrees hok (by omega)

/-- There is one first hit. -/
lemma FirstHit.unique {p st stop st' stop' : ℕ}
    (h : FirstHit A prog s flags haystackIsAscii p st stop)
    (h' : FirstHit A prog s flags haystackIsAscii p st' stop') : st = st' ∧ stop = stop' := by
  obtain ⟨hle, hadm, ⟨len, hlen, rfl⟩, hbefore⟩ := h
  obtain ⟨hle', hadm', ⟨len', hlen', rfl⟩, hbefore'⟩ := h'
  rcases lt_trichotomy st st' with hlt | rfl | hlt
  · exact absurd (hbefore' st hle hlt hadm) (by rw [hlen]; simp)
  · rw [hlen] at hlen'
    exact ⟨rfl, by rw [Option.some.inj hlen']⟩
  · exact absurd (hbefore st' hle' hlt hadm') (by rw [hlen']; simp)

end Find

end Torajs.Regex.Dfa
