import ToraJs.Regex.Dfa.Lazy
import ToraJs.Regex.Dfa.BuildEnds

/-!
# The lazily filled table serves the automaton

A transition that is known leads where the automaton steps to; one that is not known reads
as dead and leaves no mark.  Filling a transition, filling the entry rows and dropping
every state keep this, so it holds in every state a sequence of searches reaches, unless a
fill has disabled the table.
-/

namespace Torajs.Regex.Dfa

/-! ### The empty item -/

@[simp] lemma closureInto_nil (prog : Program) (ctx : PositionCtx) (wb : Option Bool) :
    closureInto prog [] ctx wb = [] := by
  unfold closureInto
  cases prog.len <;> rfl

@[simp] lemma closedBefore_empty (prog : Program) (split : Bool) (b : UInt8) :
    closedBefore prog split {} b = [] := closureInto_nil ..

@[simp] lemma sortDedup_nil : sortDedup [] = [] := rfl

/-- The empty item leads to the dead state. -/
lemma keyOf_itemAfter_empty (prog : Program) (split : Bool) (b : UInt8) :
    keyOf split (itemAfter prog split {} b) = none := by
  have hempty : (itemAfter prog split {} b).isEmpty = true := by
    simp [itemAfter, byteStepInto, advanceDeferred, StateItem.isEmpty, Deferred.isEmpty,
      joinDeferred, secondOfE2]
  exact if_pos hempty

section Lazy

variable {prog : Program} {split : Bool} {flags : UInt8}

/-! ### Cells -/

variable (prog split flags) in
/-- The transition of a row on a byte, where it is known and where it is not. -/
def CellOk (Rep : ℕ → Option StateItem → Prop) (row : DfaState) (q : Option StateItem)
    (b : UInt8) : Bool → Prop
  | true =>
    Rep (row.transitions b).state (q.bind fun key => (subsetAutomaton prog split flags).step key b) ∧
    (row.transitions b).accept = (q.bind fun key => (subsetAutomaton prog split flags).step key b).any
      (subsetAutomaton prog split flags).accept ∧
    (row.transitions b).monotone = false ∧
    row.acceptBeforeByte b = q.any fun key => (subsetAutomaton prog split flags).acceptBefore key b
  | false => row.transitions b = .plain 0 ∧ row.acceptBeforeByte b = false

lemma CellOk.mono {Rep Rep' : ℕ → Option StateItem → Prop} {row : DfaState}
    {q : Option StateItem} {b : UInt8} {filled : Bool}
    (h : CellOk prog split flags Rep row q b filled) (hrep : ∀ {i q}, Rep i q → Rep' i q) :
    CellOk prog split flags Rep' row q b filled := by
  cases filled with
  | true => exact ⟨hrep h.1, h.2⟩
  | false => exact h

lemma CellOk.fresh {Rep : ℕ → Option StateItem → Prop} {row : DfaState} {q : Option StateItem}
    (h : FreshRow row) (b : UInt8) : CellOk prog split flags Rep row q b false := by
  obtain ⟨htx, hmask⟩ := h
  exact ⟨by rw [htx], by rw [hmask]⟩

/-- The pool with its rows, which rest in the table. -/
def LazyDfa.full (l : LazyDfa) : Pool := l.takeRows.pool

variable (prog split flags) in
/-- The invariant of a table at rest, its entry rows apart. -/
structure LazyDfa.Sound (l : LazyDfa) : Prop where
  valid : l.full.Valid prog split flags
  starts : l.full.StartsOk prog split flags l.dfa.starts
  allStartsEqual : l.dfa.allStartsEqual = l.dfa.starts.allEqual
  anyAcceptBeforeByte : l.dfa.anyAcceptBeforeByte = true
  known : l.known.length = l.full.keys.length
  cells : ∀ i q, l.full.Rep i q → ∀ b,
    CellOk prog split flags l.full.Rep (rowAt l.dfa.states i) q b (l.isKnown i b)
  prepared : ∀ s, l.prepared = some s → l.exp.Ready prog split (l.full.items.getD s {})

/-- The row `s` is filled. -/
def LazyDfa.RowKnown (l : LazyDfa) (s : ℕ) : Prop := ∀ b, l.isKnown s b = true

variable (prog split flags) in
/-- The invariant of a table that serves searches. -/
structure LazyDfa.Inv (l : LazyDfa) : Prop where
  sound : l.Sound prog split flags
  start : l.RowKnown l.dfa.starts.start
  midWord : l.RowKnown l.dfa.starts.midWord
  midNonword : l.RowKnown l.dfa.starts.midNonword
  enabled : l.disabled = false

/-- A step of filling: the states stay and no transition is forgotten. -/
structure LazyDfa.Fills (l l' : LazyDfa) : Prop where
  keys : l.full.keys <+: l'.full.keys
  starts : l'.dfa.starts = l.dfa.starts
  known : ∀ i b, l.isKnown i b = true → l'.isKnown i b = true
  budget : l'.budget = l.budget
  gaveUp : l'.gaveUp = l.gaveUp
  gaveUpAt : l'.gaveUpAt = l.gaveUpAt

lemma LazyDfa.Fills.refl (l : LazyDfa) : l.Fills l :=
  ⟨List.prefix_rfl, rfl, fun _ _ h => h, rfl, rfl, rfl⟩

lemma LazyDfa.Fills.trans {l l' l'' : LazyDfa} (h : l.Fills l') (h' : l'.Fills l'') :
    l.Fills l'' :=
  ⟨h.keys.trans h'.keys, h'.starts.trans h.starts, fun i b hk => h'.known i b (h.known i b hk),
    h'.budget.trans h.budget, h'.gaveUp.trans h.gaveUp, h'.gaveUpAt.trans h.gaveUpAt⟩

/-! ### Filling a transition -/

lemma isKnown_resize {known : List (UInt8 → Bool)} {n i : ℕ} (hn : known.length ≤ n) (b : UInt8) :
    (LazyDfa.resizeKnown known n).getD i (fun _ => false) b = known.getD i (fun _ => false) b := by
  unfold LazyDfa.resizeKnown
  rw [List.take_of_length_le hn]
  rcases lt_or_ge i known.length with hlt | hge
  · rw [List.getD_append _ _ _ _ hlt]
  · rw [List.getD_append_right _ _ _ _ hge, List.getD_eq_default known _ hge]
    rcases lt_or_ge (i - known.length) (n - known.length) with hlt' | hge'
    · rw [List.getD_eq_getElem _ _ (by rwa [List.length_replicate]), List.getElem_replicate]
    · rw [List.getD_eq_default _ _ (by rwa [List.length_replicate])]

lemma length_resizeKnown {known : List (UInt8 → Bool)} {n : ℕ} (hn : known.length ≤ n) :
    (LazyDfa.resizeKnown known n).length = n := by
  unfold LazyDfa.resizeKnown
  rw [List.take_of_length_le hn, List.length_append, List.length_replicate]
  omega

/-- The known bits after a bit is set. -/
lemma isKnown_modify {known : List (UInt8 → Bool)} {s i : ℕ} (hs : s < known.length) (b b' : UInt8) :
    (known.modify s fun k => Function.update k b true).getD i (fun _ => false) b' =
      (known.getD i (fun _ => false) b' || decide (i = s ∧ b' = b)) := by
  rw [List.getD_eq_getElem?_getD, List.getD_eq_getElem?_getD]
  rcases eq_or_ne i s with rfl | hne
  · rw [List.getElem?_modify_eq, List.getElem?_eq_getElem hs]
    by_cases hb : b' = b
    · simp [hb]
    · simp [hb, Function.update_of_ne]
  · rw [List.getElem?_modify_ne _ _ (Ne.symm hne)]
    simp [hne]

/-- A filled row keeps its verdicts. -/
lemma fillRow_verdicts (b : UInt8) (word : TxWord) (acceptBefore : Bool) (row : DfaState) :
    (LazyDfa.fillRow b word acceptBefore row).isAccept = row.isAccept ∧
      (LazyDfa.fillRow b word acceptBefore row).isAcceptAtEnd = row.isAcceptAtEnd ∧
      (LazyDfa.fillRow b word acceptBefore row).pendingClass = row.pendingClass :=
  ⟨rfl, rfl, rfl⟩

/-- The cells of a filled row. -/
lemma CellOk.fillRow {Rep : ℕ → Option StateItem → Prop} {row : DfaState} {q : Option StateItem}
    {word : TxWord} {acceptBefore : Bool} {known : UInt8 → Bool} {b : UInt8}
    (h : ∀ b, CellOk prog split flags Rep row q b (known b))
    (hword : Rep word.state (q.bind fun key => (subsetAutomaton prog split flags).step key b) ∧
      word.accept = (q.bind fun key => (subsetAutomaton prog split flags).step key b).any
        (subsetAutomaton prog split flags).accept ∧ word.monotone = false)
    (hbefore : (acceptBefore && !row.isAccept) =
      q.any fun key => (subsetAutomaton prog split flags).acceptBefore key b) (b' : UInt8) :
    CellOk prog split flags Rep (LazyDfa.fillRow b word acceptBefore row) q b'
      (known b' || decide (b' = b)) := by
  have hmask : ∀ b', (LazyDfa.fillRow b word acceptBefore row).acceptBeforeByte b' =
      if b' = b ∧ (acceptBefore && !row.isAccept) = true then true else row.acceptBeforeByte b' := by
    intro b'
    unfold LazyDfa.fillRow
    dsimp only
    by_cases hb : b' = b
    · subst hb
      cases (acceptBefore && !row.isAccept) <;> simp
    · cases (acceptBefore && !row.isAccept) <;> simp [hb, Function.update_of_ne]
  by_cases hb : b' = b
  · subst hb
    have htx : (LazyDfa.fillRow b' word acceptBefore row).transitions b' = word :=
      Function.update_self ..
    simp only [decide_true, Bool.or_true]
    refine ⟨by rw [htx]; exact hword.1, by rw [htx]; exact hword.2.1, by rw [htx]; exact hword.2.2,
      ?_⟩
    rw [hmask, ← hbefore]
    have hold := h b'
    cases hacc : (acceptBefore && !row.isAccept) with
    | true => simp
    | false =>
      simp only [Bool.false_eq_true, and_false, if_false]
      cases hk : known b' with
      | true =>
        rw [hk] at hold
        rw [hold.2.2.2, ← hbefore, hacc]
      | false =>
        rw [hk] at hold
        exact hold.2
  · have htx : (LazyDfa.fillRow b word acceptBefore row).transitions b' = row.transitions b' :=
      Function.update_of_ne hb ..
    have hm : (LazyDfa.fillRow b word acceptBefore row).acceptBeforeByte b' =
        row.acceptBeforeByte b' := by rw [hmask, if_neg (fun h => hb h.1)]
    have hold := h b'
    simp only [hb, decide_false, Bool.or_false]
    cases hk : known b' with
    | true =>
      rw [hk] at hold
      exact ⟨by rw [htx]; exact hold.1, by rw [htx]; exact hold.2.1, by rw [htx]; exact hold.2.2.1,
        by rw [hm]; exact hold.2.2.2⟩
    | false =>
      rw [hk] at hold
      exact ⟨by rw [htx]; exact hold.1, by rw [hm]; exact hold.2⟩

/-- What the item of a slot leads to is what the automaton steps to. -/
lemma Pool.Valid.itemAfter (hno : split = false → NoWordBoundary prog) {pool : Pool}
    (h : pool.Valid prog split flags) {s : ℕ} {q : Option StateItem} (hrep : pool.Rep s q)
    (b : UInt8) :
    keyOf split (itemAfter prog split (pool.items.getD s {}) b) =
        (q.bind fun key => (subsetAutomaton prog split flags).step key b) ∧
      (pcSetIsAccept prog (closedBefore prog split (pool.items.getD s {}) b) &&
        !(rowAt pool.states s).isAccept) =
          q.any fun key => (subsetAutomaton prog split flags).acceptBefore key b := by
  cases q with
  | none =>
    obtain rfl : s = 0 := hrep
    rw [h.zero_item, closedBefore_empty]
    exact ⟨keyOf_itemAfter_empty prog split b, rfl⟩
  | some key =>
    have hslot := h.slots s key hrep.1 hrep.2
    rw [hslot.item.itemAfter hno, hslot.item.closedBefore hno, hslot.accept]
    exact ⟨rfl, Bool.and_comm ..⟩

/-- The table after a fill: the pool that the step leaves, with the row put back. -/
def LazyDfa.filled (l : LazyDfa) (s : ℕ) (b : UInt8) (pool : Pool) (exp : Expander)
    (word : TxWord) (acceptBefore : Bool) : LazyDfa :=
  LazyDfa.storeRows { l with
    pool := pool.putBack s (l.full.items.getD s {}) (LazyDfa.fillRow b word acceptBefore) []
    exp := exp
    prepared := some s
    known := (LazyDfa.resizeKnown l.known pool.states.length).modify s fun k =>
      Function.update k b true }

variable (flags) in
/-- What `fill_one` computes. -/
lemma LazyDfa.fillOne_eq {l : LazyDfa} {s : ℕ}
    (hprepared : l.prepared = some s → l.exp.Ready prog split (l.full.items.getD s {})) (b : UInt8) :
    ∃ exp', exp'.Ready prog split (l.full.items.getD s {}) ∧
      let item := l.full.items.getD s {}
      let r := internState prog split flags (internFuel prog) (Dfa.itemAfter prog split item b)
        (l.full.taken s l.full.work)
      l.fillOne prog split flags s b = l.filled s b r.2 exp'
        ⟨r.1, (rowAt r.2.states r.1).isAccept, false⟩
        (pcSetIsAccept prog (closedBefore prog split item b)) := by
  have hready : (if l.prepared ≠ some s then l.exp.prepare prog split (l.full.items.getD s {})
      else l.exp).Ready prog split (l.full.items.getD s {}) := by
    split_ifs with hp
    · exact Expander.prepare_ready _ _
    · exact hprepared (not_not.mp hp)
  obtain ⟨exp', hstep, hready'⟩ := Expander.step_spec flags hready b
    (l.full.taken s l.full.work)
  refine ⟨exp', hready', ?_⟩
  have hrun : (if l.takeRows.prepared ≠ some s then
      l.takeRows.exp.prepare prog split (l.takeRows.pool.items.getD s {}) else l.takeRows.exp).step
        prog split flags (l.takeRows.pool.items.getD s {}) b
        { l.takeRows.pool with items := l.takeRows.pool.items.set s {} } = _ := hstep
  unfold LazyDfa.fillOne
  dsimp only
  rw [hrun]
  rfl

/-- Filling a transition. -/
lemma LazyDfa.fillOne_spec (hno : split = false → NoWordBoundary prog) {l : LazyDfa} {s : ℕ}
    {q : Option StateItem} (h : l.Sound prog split flags) (hrep : l.full.Rep s q) (b : UInt8)
    (hpoison : (l.fillOne prog split flags s b).pool.poisoned = false) :
    (l.fillOne prog split flags s b).Sound prog split flags ∧
      l.Fills (l.fillOne prog split flags s b) ∧
      (l.fillOne prog split flags s b).isKnown s b = true ∧
      (l.fillOne prog split flags s b).disabled = l.disabled := by
  have hvalid := h.valid
  have hs := hrep.lt hvalid.wellKeyed
  obtain ⟨exp', hready, hrun⟩ := l.fillOne_eq flags (h.prepared s) b
  dsimp only at hrun
  rcases hintern : internState prog split flags (internFuel prog)
    (Dfa.itemAfter prog split (l.full.items.getD s {}) b) (l.full.taken s l.full.work) with ⟨n, pool'⟩
  rw [hintern] at hrun
  dsimp only at hrun
  rw [hrun] at hpoison ⊢
  have hpoison' : pool'.poisoned = false := hpoison
  obtain ⟨hext, hn⟩ := internState_itemAfter hno (hvalid.wellKeyed.taken s l.full.work) hvalid.first
    hintern hpoison'
  obtain ⟨hstep, hbefore⟩ := hvalid.itemAfter hno hrep b
  rw [hstep] at hn
  have hpre : l.full.keys <+: pool'.keys := hext.grows.keys
  have hle : l.full.keys.length ≤ pool'.keys.length := hpre.length_le
  have hstates : pool'.states.length = pool'.keys.length := hext.wellKeyed.states
  have hknown : l.known.length ≤ pool'.states.length := by rw [h.known]; omega
  have hrows : ∀ i < l.full.keys.length, rowAt pool'.states i = rowAt l.dfa.states i :=
    hext.grows.rows
  have haccept : (rowAt pool'.states n).isAccept =
      (q.bind fun key => (subsetAutomaton prog split flags).step key b).any
        (subsetAutomaton prog split flags).accept := by
    have hvalidId := hvalid.putBack hs hext hpoison' (f := id) (fun _ => ⟨rfl, rfl, rfl⟩)
      (fun _ => rfl) []
    have hrow : rowAt (pool'.putBack s (l.full.items.getD s {}) id []).states n =
        rowAt pool'.states n := by rw [Pool.putBack, List.modify_id]
    rw [← hrow]
    exact hvalidId.accept (hn.of_keys List.prefix_rfl)
  have hzero : s = 0 → LazyDfa.fillRow b ⟨n, (rowAt pool'.states n).isAccept, false⟩
      (pcSetIsAccept prog (closedBefore prog split (l.full.items.getD s {}) b)) {} = {} := by
    rintro rfl
    obtain rfl : q = none := hrep.left_unique rfl
    obtain rfl : n = 0 := hn
    have hitem := hvalid.zero_item
    rw [hitem, closedBefore_empty, haccept]
    simp [LazyDfa.fillRow, pcSetIsAccept, TxWord.plain]
  have hvalid' := hvalid.putBack hs hext hpoison' (fillRow_verdicts b _ _) hzero []
  have hbits : ∀ i b', (l.filled s b pool' exp' ⟨n, (rowAt pool'.states n).isAccept, false⟩
      (pcSetIsAccept prog (closedBefore prog split (l.full.items.getD s {}) b))).isKnown i b' =
        (l.isKnown i b' || decide (i = s ∧ b' = b)) := by
    intro i b'
    refine (isKnown_modify (by rw [length_resizeKnown hknown]; omega) b b').trans ?_
    rw [isKnown_resize hknown]
    rfl
  refine ⟨⟨hvalid', h.starts.of_keys hpre, h.allStartsEqual, h.anyAcceptBeforeByte, ?_, ?_, ?_⟩,
    ⟨hpre, rfl, ?_, rfl, rfl, rfl⟩, ?_, rfl⟩
  · exact (List.length_modify ..).trans ((length_resizeKnown hknown).trans hstates)
  · intro i q' hrep' b'
    have hrep'' : pool'.Rep i q' := hrep'.of_keys List.prefix_rfl
    rw [hbits]
    rcases eq_or_ne i s with rfl | hne
    · obtain rfl : q' = q := hrep''.left_unique (hrep.of_keys hpre)
      have hrow : rowAt (l.filled i b pool' exp' ⟨n, (rowAt pool'.states n).isAccept, false⟩
          (pcSetIsAccept prog (closedBefore prog split (l.full.items.getD i {}) b))).dfa.states i =
          LazyDfa.fillRow b ⟨n, (rowAt pool'.states n).isAccept, false⟩
            (pcSetIsAccept prog (closedBefore prog split (l.full.items.getD i {}) b))
            (rowAt l.dfa.states i) := by
        refine (rowAt_modify_self (by omega)).trans ?_
        rw [hrows i hs]
      rw [hrow]
      have hcells : ∀ b', CellOk prog split flags pool'.Rep (rowAt l.dfa.states i) q' b'
          (l.isKnown i b') :=
        fun b' => (h.cells i q' hrep b').mono fun hrep => hrep.of_keys hpre
      rw [show decide (i = i ∧ b' = b) = decide (b' = b) by simp]
      exact CellOk.fillRow hcells ⟨hn, haccept, rfl⟩ hbefore b'
    · have hrow : rowAt (l.filled s b pool' exp' ⟨n, (rowAt pool'.states n).isAccept, false⟩
          (pcSetIsAccept prog (closedBefore prog split (l.full.items.getD s {}) b))).dfa.states i =
          rowAt pool'.states i := rowAt_modify_of_ne hne
      rw [hrow]
      simp only [hne, false_and, decide_false, Bool.or_false]
      rcases lt_or_ge i l.full.keys.length with hlt | hge
      · rw [hrows i hlt]
        exact (h.cells i q' (hrep''.of_lt hpre hlt) b').mono fun hrep => hrep.of_keys hpre
      · have hbit : l.isKnown i b' = false := by
          unfold LazyDfa.isKnown
          rw [List.getD_eq_default _ _ (by rw [h.known]; exact hge)]
        obtain ⟨key, hkey⟩ : ∃ key, pool'.keys[i]? = some key :=
          ⟨_, List.getElem?_eq_getElem (hrep''.lt hext.wellKeyed)⟩
        rw [hbit]
        exact CellOk.fresh (hext.slots i key hge hkey).2 b'
  · intro s' hs'
    obtain rfl : s = s' := Option.some.inj hs'
    have hitem : (l.filled s b pool' exp' ⟨n, (rowAt pool'.states n).isAccept, false⟩
        (pcSetIsAccept prog (closedBefore prog split (l.full.items.getD s {}) b))).full.items.getD
          s {} = l.full.items.getD s {} := item_set_self (by rw [hext.wellKeyed.items]; omega)
    rw [hitem]
    exact hready
  · intro i b' hk
    rw [hbits, hk]
    rfl
  · rw [hbits]
    simp

/-! ### Filling the entry rows -/

/-- The loop over the bytes of an entry row. -/
lemma LazyDfa.fillEntry_spec (hno : split = false → NoWordBoundary prog) {s : ℕ}
    {q : Option StateItem} (bytes : List UInt8) {l : LazyDfa} (h : l.Sound prog split flags)
    (hrep : l.full.Rep s q) :
    match l.fillEntry prog split flags s bytes with
    | (false, l') => l'.disabled = true
    | (true, l') => l'.Sound prog split flags ∧ l.Fills l' ∧ l'.disabled = l.disabled ∧
        ∀ b ∈ bytes, l'.isKnown s b = true := by
  induction bytes generalizing l with
  | nil => exact ⟨h, Fills.refl l, rfl, by simp⟩
  | cons b bytes ih =>
    unfold fillEntry
    dsimp only
    by_cases hk : l.isKnown s b = true
    · rw [if_pos hk, if_neg (by rw [show l.pool.poisoned = false from h.valid.poisoned]; decide)]
      have hih := ih h hrep
      rcases hrest : l.fillEntry prog split flags s bytes with ⟨_ | _, l'⟩
      · rw [hrest] at hih
        exact hih
      · rw [hrest] at hih
        obtain ⟨hsound, hfills, hdis, hbytes⟩ := hih
        refine ⟨hsound, hfills, hdis, fun b' hb' => ?_⟩
        rcases List.mem_cons.mp hb' with rfl | hb'
        · exact hfills.known s b' hk
        · exact hbytes b' hb'
    · rw [if_neg hk]
      split_ifs with hpoison
      · rfl
      · obtain ⟨hsound, hfills, hknown, hdis⟩ := l.fillOne_spec hno h hrep b (by simpa using hpoison)
        have hih := ih hsound (hrep.of_keys hfills.keys)
        rcases hrest : (l.fillOne prog split flags s b).fillEntry prog split flags s bytes with
          ⟨_ | _, l'⟩
        · rw [hrest] at hih
          exact hih
        · rw [hrest] at hih
          obtain ⟨hsound', hfills', hdis', hbytes⟩ := hih
          refine ⟨hsound', hfills.trans hfills', hdis'.trans hdis, fun b' hb' => ?_⟩
          rcases List.mem_cons.mp hb' with rfl | hb'
          · exact hfills'.known s b' hknown
          · exact hbytes b' hb'

/-- The loop over the entry rows. -/
lemma LazyDfa.fillRows_spec (hno : split = false → NoWordBoundary prog) (starts : List ℕ)
    {l : LazyDfa} (h : l.Sound prog split flags) (hrep : ∀ s ∈ starts, ∃ q, l.full.Rep s q) :
    match l.fillRows prog split flags starts with
    | (false, l') => l'.disabled = true
    | (true, l') => l'.Sound prog split flags ∧ l.Fills l' ∧ l'.disabled = l.disabled ∧
        ∀ s ∈ starts, l'.RowKnown s := by
  induction starts generalizing l with
  | nil => exact ⟨h, Fills.refl l, rfl, by simp⟩
  | cons s starts ih =>
    obtain ⟨q, hq⟩ := hrep s List.mem_cons_self
    have hentry := l.fillEntry_spec hno allBytes h hq
    unfold fillRows
    rcases hrow : l.fillEntry prog split flags s allBytes with ⟨_ | _, l₁⟩
    · rw [hrow] at hentry
      exact hentry
    · rw [hrow] at hentry
      obtain ⟨hsound, hfills, hdis, hbytes⟩ := hentry
      have hih := ih hsound fun s' hs' => by
        obtain ⟨q', hq'⟩ := hrep s' (List.mem_cons_of_mem s hs')
        exact ⟨q', hq'.of_keys hfills.keys⟩
      dsimp only
      rcases hrest : l₁.fillRows prog split flags starts with ⟨_ | _, l'⟩
      · rw [hrest] at hih
        exact hih
      · rw [hrest] at hih
        obtain ⟨hsound', hfills', hdis', hrows⟩ := hih
        refine ⟨hsound', hfills.trans hfills', hdis'.trans hdis, fun s' hs' => ?_⟩
        rcases List.mem_cons.mp hs' with rfl | hs'
        · exact fun b => hfills'.known s' b (hbytes b (mem_allBytes b))
        · exact hrows s' hs'

/-- Filling the entry rows makes a table that serves searches, or disables it. -/
lemma LazyDfa.fillEntries_spec (hno : split = false → NoWordBoundary prog) (mem : LazyDfa → ℕ)
    {l : LazyDfa} (h : l.Sound prog split flags) (hdis : l.disabled = false) :
    match l.fillEntries prog split flags mem with
    | (false, l') => l'.disabled = true
    | (true, l') => l'.Inv prog split flags ∧ l.Fills l' := by
  have hrows := l.fillRows_spec hno [l.dfa.starts.start, l.dfa.starts.midWord,
    l.dfa.starts.midNonword] h (by
      intro s hs
      simp only [List.mem_cons, List.not_mem_nil, or_false] at hs
      rcases hs with rfl | rfl | rfl
      · exact ⟨_, h.starts.start⟩
      · exact ⟨_, h.starts.midWord⟩
      · exact ⟨_, h.starts.midNonword⟩)
  unfold fillEntries
  dsimp only
  rcases hrun : l.fillRows prog split flags [l.dfa.starts.start, l.dfa.starts.midWord,
    l.dfa.starts.midNonword] with ⟨_ | _, l'⟩
  · rw [hrun] at hrows
    exact hrows
  · rw [hrun] at hrows
    obtain ⟨hsound, hfills, hdis', hknown⟩ := hrows
    dsimp only
    by_cases hmem : mem l' > l'.budget
    · rw [if_pos hmem]
      rfl
    · rw [if_neg hmem, hdis', hdis]
      refine ⟨⟨hsound, ?_, ?_, ?_, hdis'.trans hdis⟩, hfills⟩
      · rw [hfills.starts]
        exact hknown _ (by simp)
      · rw [hfills.starts]
        exact hknown _ (by simp)
      · rw [hfills.starts]
        exact hknown _ (by simp)

/-- A poisoned pool disables the table. -/
lemma LazyDfa.fillEntries_poisoned (mem : LazyDfa → ℕ) {l : LazyDfa}
    (hs : l.full.states.length = l.full.keys.length) (hi : l.full.items.length = l.full.keys.length)
    (hprepared : l.prepared = none) (h : l.full.poisoned = true) :
    ∃ l', l.fillEntries prog split flags mem = (false, l') ∧ l'.disabled = true := by
  have hentry : ∀ s, ∃ l', l.fillEntry prog split flags s allBytes = (false, l') ∧
      l'.disabled = true := by
    intro s
    cases hbytes : allBytes with
    | nil => exact absurd (hbytes ▸ mem_allBytes 0) List.not_mem_nil
    | cons b bytes =>
      have hpoison : (if l.isKnown s b = true then l
          else l.fillOne prog split flags s b).pool.poisoned = true := by
        split_ifs
        · exact h
        · have hready : l.prepared = some s →
              l.exp.Ready prog split (l.full.items.getD s {}) :=
            fun habs => absurd (hprepared.symm.trans habs) (by simp)
          obtain ⟨exp', -, hrun⟩ := l.fillOne_eq flags hready b
          dsimp only at hrun
          rw [hrun]
          exact (internState_grows prog split flags _ _ (l.full.taken s l.full.work) hs
            ((List.length_set ..).trans hi)).poisoned h
      unfold fillEntry
      dsimp only
      rw [if_pos hpoison]
      exact ⟨_, rfl, rfl⟩
  obtain ⟨l', hrun, hdis⟩ := hentry l.dfa.starts.start
  exact ⟨l', by simp [fillEntries, fillRows, hrun], hdis⟩

/-! ### Dropping every state -/

/-- Interning an item of another valid pool. -/
lemma Pool.Valid.intern (hno : split = false → NoWordBoundary prog) {pool old : Pool}
    (h : pool.Valid prog split flags) (hold : old.Valid prog split flags) {s : ℕ}
    {q : Option StateItem} (hrep : old.Rep s q) {i : ℕ} {pool' : Pool}
    (hrun : internState prog split flags (internFuel prog) (old.items.getD s {}) pool = (i, pool'))
    (hpoison : pool'.poisoned = false) :
    pool.Extends prog split flags pool' ∧ pool'.Rep i q := by
  cases q with
  | none =>
    obtain rfl : s = 0 := hrep
    rw [hold.zero_item] at hrun
    obtain ⟨rfl, rfl⟩ := Prod.mk.inj hrun
    exact ⟨Pool.Extends.refl h.wellKeyed, rfl⟩
  | some key =>
    have hslot := hold.slots s key hrep.1 hrep.2
    have hlive : key.isEmpty = false := by
      refine hold.wellKeyed.live key (List.mem_iff_getElem?.mpr ⟨s - 1, ?_⟩)
      rw [List.getElem?_tail, Nat.sub_add_cancel hrep.1, hrep.2]
    have hkey := hslot.keyOf_item hlive
    have hspec : TextStartFirst prog split flags pool pool' (old.items.getD s {}) →
        pool.Extends prog split flags pool' ∧ pool'.Rep i (some key) := by
      intro hfirst
      have hspec := @internState_spec prog split flags hno (internFuel prog)
        (old.items.getD s {}) pool h.wellKeyed
      rw [hrun, hkey] at hspec
      exact hspec hfirst hpoison
    by_cases hts : split = false ∧ (old.items.getD s {}).attr = .textStart
    · -- the key is one of the text start's, so it is in the pool already
      obtain ⟨rfl, hattr⟩ := hts
      have hitem : (itemOf prog false flags key).attr = .textStart := by
        rcases hslot.item.attr with heq | ⟨-, hne, -⟩
        · rw [← heq, hattr]
        · exact absurd hattr hne
      have hmem : key ∈ textStartKeys prog false flags := by
        by_contra hmem
        simp [itemOf, hmem] at hitem
      have hempty : (old.items.getD s {}).isEmpty = false := by
        by_contra hempty
        rw [keyOf, if_pos (by simpa using hempty)] at hkey
        exact absurd hkey (by simp)
      have hflat : flattenKey false (old.items.getD s {}) = key := by
        rw [keyOf, hempty, if_neg (by decide)] at hkey
        exact Option.some.inj hkey
      obtain ⟨j, hfound, hj⟩ := @internState_of_mem prog false flags (2 ^ prog.len + 1)
        (old.items.getD s {}) pool hempty (hflat ▸ h.first rfl hmem)
      rw [show internFuel prog = 2 ^ prog.len + 1 + 1 from rfl, hfound] at hrun
      obtain ⟨rfl, rfl⟩ := Prod.mk.inj hrun
      exact ⟨Pool.Extends.refl h.wellKeyed, hkey ▸ hj⟩
    · refine hspec fun hsplit => .inl ⟨fun hattr => hts ⟨hsplit, hattr⟩, h.first hsplit⟩

/-- A pool without states has fresh rows. -/
lemma FreshRow.of_reset {pool : Pool} (h : Pool.new.reset.Extends prog split flags pool) {i : ℕ}
    {q : Option StateItem} (hrep : pool.Rep i q) : FreshRow (rowAt pool.states i) := by
  cases q with
  | none =>
    obtain rfl : i = 0 := hrep
    rw [h.grows.rows 0 Nat.one_pos]
    exact ⟨rfl, rfl⟩
  | some key => exact (h.slots i key hrep.1 hrep.2).2

/-- The table that `clear` leaves before it fills the entry rows. -/
def LazyDfa.cleared (l : LazyDfa) (pool : Pool) (starts : Starts) : LazyDfa :=
  LazyDfa.storeRows { l with
    pool := { pool with work := [] }
    known := List.replicate pool.states.length fun _ => false
    prepared := none
    dfa := tableView [] starts }

/-- A cleared table is sound. -/
lemma LazyDfa.cleared_sound {l : LazyDfa} {pool : Pool} {starts : Starts}
    (hvalid : pool.Valid prog split flags) (hext : Pool.new.reset.Extends prog split flags pool)
    (hstarts : pool.StartsOk prog split flags starts) :
    (l.cleared pool starts).Sound prog split flags where
  valid := ⟨⟨hvalid.wellKeyed.states, hvalid.wellKeyed.items, hvalid.wellKeyed.pos,
    hvalid.wellKeyed.nodup, hvalid.wellKeyed.live⟩, hvalid.first, hvalid.zero_item, hvalid.zero_row,
    fun i key hi hkey => (hvalid.slots i key hi hkey).of_eq List.prefix_rfl rfl rfl, hvalid.poisoned⟩
  starts := hstarts.of_keys List.prefix_rfl
  allStartsEqual := rfl
  anyAcceptBeforeByte := rfl
  known := (List.length_replicate ..).trans hvalid.wellKeyed.states
  cells i q hrep b := by
    have hbit : (l.cleared pool starts).isKnown i b = false := by
      show (List.replicate pool.states.length fun _ => false).getD i (fun _ => false) b = false
      rw [List.getD_eq_getElem?_getD, List.getElem?_replicate]
      split_ifs <;> rfl
    rw [hbit]
    have hrep' : pool.Rep i q := hrep.of_keys List.prefix_rfl
    exact CellOk.fresh (FreshRow.of_reset hext hrep') b
  prepared s hs := absurd hs (by simp [LazyDfa.cleared, LazyDfa.storeRows])

/-- Dropping every state keeps the state the walk is in. -/
lemma LazyDfa.clear_spec (hno : split = false → NoWordBoundary prog) (mem : LazyDfa → ℕ)
    {l : LazyDfa} (h : l.Inv prog split flags) {s : ℕ} {q : Option StateItem}
    (hrep : l.full.Rep s q) :
    match l.clear prog split flags mem s with
    | (none, l') => l'.disabled = true
    | (some s', l') => l'.Inv prog split flags ∧ l'.full.Rep s' q ∧ l'.budget = l.budget ∧
        l'.gaveUp = l.gaveUp ∧ l'.gaveUpAt = l.gaveUpAt := by
  have hvalid := h.sound.valid
  have hreset : l.pool.reset = Pool.new.reset := Pool.reset_eq hvalid.poisoned
  rcases hseed : seedStarts prog split flags Pool.new.reset with ⟨starts, pool₁⟩
  rcases hintern : internState prog split flags (internFuel prog) (l.full.items.getD s {}) pool₁ with
    ⟨s', pool₂⟩
  have hclear : l.clear prog split flags mem s =
      match (l.cleared pool₂ starts).fillEntries prog split flags mem with
      | (false, l) => (none, l)
      | (true, l) => (some s', l) := by
    unfold LazyDfa.clear
    dsimp only
    rw [hreset, hseed]
    dsimp only
    rw [show internState prog split flags (internFuel prog) (l.pool.items.getD s {}) pool₁ = _ from
      hintern]
    rfl
  rw [hclear]
  cases hpoison : pool₂.poisoned with
  | true =>
    have hgrows₁ := seedStarts_grows hseed
    have hgrows₂ := internState_grows prog split flags (internFuel prog) (l.full.items.getD s {})
      pool₁ hgrows₁.states_len hgrows₁.items_len
    rw [hintern] at hgrows₂
    obtain ⟨l', hrun, hdis⟩ := @LazyDfa.fillEntries_poisoned prog split flags mem
      (l.cleared pool₂ starts) hgrows₂.states_len hgrows₂.items_len rfl hpoison
    rw [hrun]
    exact hdis
  | false =>
    have hgrows₁ := seedStarts_grows hseed
    have hgrows₂ := internState_grows prog split flags (internFuel prog) (l.full.items.getD s {})
      pool₁ hgrows₁.states_len hgrows₁.items_len
    rw [hintern] at hgrows₂
    have hpoison₁ := hgrows₂.not_poisoned hpoison
    obtain ⟨hvalid₁, hext₁, hstart, hword, hnonword⟩ := seedStarts_spec hno hseed hpoison₁
    obtain ⟨hext₂, hrep₂⟩ := hvalid₁.intern hno hvalid hrep hintern hpoison
    have hvalid₂ := hvalid₁.extends hext₂ hpoison
    have hstarts : pool₂.StartsOk prog split flags starts :=
      Pool.StartsOk.of_keys ⟨hstart, hword, hnonword⟩ hext₂.grows.keys
    have hsound := LazyDfa.cleared_sound (l := l) hvalid₂ (hext₁.trans hext₂) hstarts
    have hfill := (l.cleared pool₂ starts).fillEntries_spec hno mem hsound h.enabled
    rcases hrun : (l.cleared pool₂ starts).fillEntries prog split flags mem with ⟨_ | _, l'⟩
    · rw [hrun] at hfill
      exact hfill
    · rw [hrun] at hfill
      obtain ⟨hinv, hfills⟩ := hfill
      exact ⟨hinv, (hrep₂.of_keys List.prefix_rfl).of_keys hfills.keys, hfills.budget,
        hfills.gaveUp, hfills.gaveUpAt⟩

/-! ### Filling on demand -/

variable (prog split flags) in
/-- What a fill of a transition of `q` on `b` comes to: the table serves on, or it gives up. -/
def LazyDfa.FillOk (l : LazyDfa) (q : Option StateItem) (b : UInt8) :
    Option ℕ × LazyDfa → Prop
  | (none, l') => l'.disabled = true ∨ l'.Inv prog split flags
  | (some s', l') => l'.Inv prog split flags ∧ l'.full.Rep s' q ∧ l'.isKnown s' b = true ∧
      l'.gaveUp = l.gaveUp ∧ l'.gaveUpAt = l.gaveUpAt

/-- The fill after a clear, if there was one. -/
lemma LazyDfa.fillAt_spec (hno : split = false → NoWordBoundary prog) {l : LazyDfa} {s : ℕ}
    {q : Option StateItem} (h : l.Inv prog split flags) (hrep : l.full.Rep s q) (b : UInt8) :
    l.FillOk prog split flags q b (l.fillAt prog split flags s b) := by
  unfold LazyDfa.fillAt
  dsimp only
  split_ifs with hpoison
  · exact .inl rfl
  · obtain ⟨hsound, hfills, hknown, hdis⟩ :=
      l.fillOne_spec hno h.sound hrep b (by simpa using hpoison)
    refine ⟨⟨hsound, ?_, ?_, ?_, hdis.trans h.enabled⟩, hrep.of_keys hfills.keys, hknown,
      hfills.gaveUp, hfills.gaveUpAt⟩
    · rw [hfills.starts]
      exact fun b => hfills.known _ b (h.start b)
    · rw [hfills.starts]
      exact fun b => hfills.known _ b (h.midWord b)
    · rw [hfills.starts]
      exact fun b => hfills.known _ b (h.midNonword b)

/-- The counters and the marks of a search are no part of the invariant. -/
lemma LazyDfa.Inv.of_eq {l l' : LazyDfa} (h : l.Inv prog split flags) (hdfa : l'.dfa = l.dfa)
    (hpool : l'.pool = l.pool) (hknown : l'.known = l.known) (hexp : l'.exp = l.exp)
    (hprepared : l'.prepared = l.prepared) (hdis : l'.disabled = l.disabled) :
    l'.Inv prog split flags := by
  obtain ⟨dfa, pool, known, exp, prepared, budget, disabled, clears, walked, walkedAtClear, gaveUp,
    gaveUpAt⟩ := l'
  obtain rfl := hdfa
  obtain rfl := hpool
  obtain rfl := hknown
  obtain rfl := hexp
  obtain rfl := hprepared
  obtain rfl := hdis
  exact ⟨⟨h.sound.valid, h.sound.starts, h.sound.allStartsEqual, h.sound.anyAcceptBeforeByte,
    h.sound.known, h.sound.cells, h.sound.prepared⟩, h.start, h.midWord, h.midNonword, h.enabled⟩

/-- A fill serves the walk, or gives up. -/
lemma LazyDfa.tryFill_spec (hno : split = false → NoWordBoundary prog) (mem : LazyDfa → ℕ)
    {l : LazyDfa} (h : l.Inv prog split flags) {s : ℕ} {q : Option StateItem}
    (hrep : l.full.Rep s q) (b : UInt8) (cursor : ℕ) :
    l.FillOk prog split flags q b (l.tryFill prog split flags mem s b cursor) := by
  unfold LazyDfa.tryFill
  dsimp only
  split_ifs
  · exact .inr h
  · have hclear := l.clear_spec hno mem h hrep
    rcases hrun : l.clear prog split flags mem s with ⟨_ | s', l'⟩
    · rw [hrun] at hclear
      exact .inl hclear
    · rw [hrun] at hclear
      obtain ⟨hinv, hrep', -, hgave, hgaveAt⟩ := hclear
      have hinv' : ({ l' with clears := l'.clears + 1, walkedAtClear := l.walked + cursor } :
          LazyDfa).Inv prog split flags := hinv.of_eq rfl rfl rfl rfl rfl rfl
      have hfill := LazyDfa.fillAt_spec hno hinv' (s := s') hrep' b
      show l.FillOk prog split flags q b (LazyDfa.fillAt prog split flags
        { l' with clears := l'.clears + 1, walkedAtClear := l.walked + cursor } s' b)
      rcases hrun' : LazyDfa.fillAt prog split flags
        { l' with clears := l'.clears + 1, walkedAtClear := l.walked + cursor } s' b with
        ⟨_ | s'', l''⟩
      · rw [hrun'] at hfill
        exact hfill
      · rw [hrun'] at hfill
        exact ⟨hfill.1, hfill.2.1, hfill.2.2.1, hfill.2.2.2.1.trans hgave,
          hfill.2.2.2.2.trans hgaveAt⟩
  · exact l.fillAt_spec hno h hrep b

/-! ### The table -/

variable (prog split flags) in
/-- A table in the middle of a search. -/
def LazyDfa.Searching (l : LazyDfa) : Prop :=
  l.Inv prog split flags ∧ l.gaveUp = false ∧ l.gaveUpAt = none

variable (prog split flags) in
/-- A table whose search gave up. -/
def LazyDfa.Stopped (l : LazyDfa) : Prop :=
  l.gaveUp = true ∧ (l.disabled = true ∨ l.Inv prog split flags)

/-- A lazily filled table serves the automaton. -/
lemma LazyDfa.table_serves (hno : split = false → NoWordBoundary prog) (mem : LazyDfa → ℕ) :
    Serves (LazyDfa.table prog split flags mem) (subsetAutomaton prog split flags)
      (LazyDfa.Searching prog split flags) (LazyDfa.Stopped prog split flags)
      fun l i q => l.full.Rep i q := by
  have hcell : ∀ {l : LazyDfa} {i q}, l.Searching prog split flags → l.full.Rep i q → ∀ b,
      (LazyDfa.table prog split flags mem).Filled l i b →
        CellOk prog split flags l.full.Rep (rowAt l.dfa.states i) q b true := by
    intro l i q hok hrep b hfill
    have hcell := hok.1.sound.cells i q hrep b
    rwa [show l.isKnown i b = true from hfill.resolve_left (by simp [LazyDfa.table])] at hcell
  constructor
  · exact fun _ => rfl
  · exact fun _ hrep hrep' => hrep.left_unique hrep'
  · exact fun hok hi hj => hi.right_unique hok.1.sound.valid.wellKeyed hj
  · exact fun hok => hok.1.sound.starts.start
  · exact fun hok => hok.1.sound.starts.midWord
  · exact fun hok => hok.1.sound.starts.midNonword
  · exact fun hok => hok.1.sound.allStartsEqual
  · exact fun hok b => ⟨.inr (hok.1.start b), .inr (hok.1.midWord b), .inr (hok.1.midNonword b)⟩
  · exact fun hok hrep => hok.1.sound.valid.accept hrep
  · exact fun hok hrep => hok.1.sound.valid.acceptAtEnd hrep
  · exact fun hok hrep b hfill => (hcell hok hrep b hfill).1
  · exact fun hok hrep b hfill => (hcell hok hrep b hfill).2.1
  · intro l i q hok hrep b hmono
    exfalso
    have hcell := hok.1.sound.cells i q hrep b
    have hfalse : ((rowAt l.dfa.states i).transitions b).monotone = false := by
      cases hk : l.isKnown i b with
      | true =>
        rw [hk] at hcell
        exact hcell.2.2.1
      | false =>
        rw [hk] at hcell
        rw [hcell.1]
        rfl
    exact absurd (hmono.symm.trans hfalse) (by decide)
  · intro l i q hok hrep b hfill
    have hcell := hok.1.sound.cells i q hrep b
    have hk : l.isKnown i b = false := by
      by_contra hk
      exact hfill (.inr (Bool.not_eq_false _ ▸ hk))
    rw [hk] at hcell
    exact hcell.1
  · intro l i q hok hrep b hfill
    show (l.dfa.anyAcceptBeforeByte && _) = _
    rw [hok.1.sound.anyAcceptBeforeByte, Bool.true_and]
    exact (hcell hok hrep b hfill).2.2.2
  · intro key b hacc
    show (!pcSetIsAccept prog key.ready && _) = false
    rw [show pcSetIsAccept prog key.ready = true from hacc]
    rfl
  · exact fun hok hrep => hok.1.sound.valid.pending hrep
  · intro l i q hok hrep b cursor _
    have hfill := l.tryFill_spec hno mem hok.1 hrep b cursor
    show (LazyDfa.table prog split flags mem).FillAgrees _ _ _ _ _ _
      (l.fill prog split flags mem i b cursor)
    unfold LazyDfa.fill
    rcases hrun : l.tryFill prog split flags mem i b cursor with ⟨_ | i', l'⟩
    · rw [hrun] at hfill
      refine ⟨by simp, hfill.imp id fun h => h.of_eq rfl rfl rfl rfl rfl rfl⟩
    · rw [hrun] at hfill
      obtain ⟨hinv, hrep', hknown, hgave, hgaveAt⟩ := hfill
      refine ⟨⟨hinv.of_eq rfl rfl rfl rfl rfl rfl, ?_, hgaveAt.trans hok.2.2⟩, hrep', .inr hknown, ?_⟩
      · simp [hgave, hok.2.1]
      · exact hinv.sound.anyAcceptBeforeByte.trans hok.1.sound.anyAcceptBeforeByte.symm
  · intro l _ hok bytes
    exact ⟨hok.1.of_eq rfl rfl rfl rfl rfl rfl, hok.2⟩
  · intro l _ hok st
    show (l.gaveUp, if l.gaveUp then { l with gaveUpAt := some st } else l) = (false, l)
    rw [hok.2.1]
    rfl
  · exact fun h => ⟨rfl, fun st => h.1⟩

/-! ### Adopting a capped build -/

lemma rowAt_adoptRows {pool : Pool} {i : ℕ} (h : i < pool.states.length) :
    rowAt (adoptRows pool).states i =
      if i ∈ pool.work then rowAt pool.states i else adoptRow pool.states (rowAt pool.states i) := by
  show rowAt (pool.states.mapIdx _) i = _
  rw [rowAt, List.getD_eq_getElem _ _ (by rwa [List.length_mapIdx]), List.getElem_mapIdx, rowAt,
    List.getD_eq_getElem _ _ h]

/-- An adopted row keeps its verdicts. -/
lemma rowAt_adoptRows_verdicts {pool : Pool} {i : ℕ} (h : i < pool.states.length) :
    (rowAt (adoptRows pool).states i).isAccept = (rowAt pool.states i).isAccept ∧
      (rowAt (adoptRows pool).states i).isAcceptAtEnd = (rowAt pool.states i).isAcceptAtEnd ∧
      (rowAt (adoptRows pool).states i).pendingClass = (rowAt pool.states i).pendingClass := by
  rw [rowAt_adoptRows h]
  split_ifs <;> exact ⟨rfl, rfl, rfl⟩

/-- The adopted pool of a capped build is valid. -/
lemma adoptRows_valid {pool : Pool} (h : pool.Queued prog split flags) :
    (adoptRows pool).Valid prog split flags := by
  have hvalid := h.valid
  have hwk := hvalid.wellKeyed
  have hzero : 0 ∉ pool.work := fun hmem => absurd (h.work_pos 0 hmem).1 (by omega)
  refine ⟨⟨(List.length_mapIdx ..).trans hwk.states, hwk.items, hwk.pos, hwk.nodup, hwk.live⟩,
    hvalid.first, hvalid.zero_item, ?_, fun i key hi hkey => ?_, hvalid.poisoned⟩
  · rw [rowAt_adoptRows (by rw [hwk.states]; exact hwk.pos), if_neg hzero, hvalid.zero_row]
    simp [adoptRow, TxWord.plain, hvalid.zero_row]
  · have hkey' : pool.keys[i]? = some key := hkey
    obtain ⟨hlt, -⟩ := List.getElem?_eq_some_iff.mp hkey'
    have hslot := hvalid.slots i key hi hkey'
    obtain ⟨hacc, hend, hpend⟩ := @rowAt_adoptRows_verdicts pool i
      (by rw [hwk.states]; exact hlt)
    exact ⟨hslot.folded, hslot.item, hacc.trans hslot.accept, hend.trans hslot.acceptAtEnd,
      by rw [hpend]; exact hslot.pending.mono fun hrep => hrep.of_keys List.prefix_rfl⟩

/-- The table that `new` fills the entry rows of. -/
def LazyDfa.adopted (part : PartialDfa) (budget : ℕ) : LazyDfa :=
  LazyDfa.storeRows
    { dfa := tableView [] part.starts
      pool := adoptRows part.pool
      known := adoptKnown part.pool
      exp := .new
      prepared := none
      budget := budget
      disabled := false
      clears := 0
      walked := 0
      walkedAtClear := 0
      gaveUp := false
      gaveUpAt := none }

/-- An adopted table is sound. -/
lemma LazyDfa.adopted_sound {part : PartialDfa} (h : part.pool.Queued prog split flags)
    (hstarts : part.pool.StartsOk prog split flags part.starts) (budget : ℕ) :
    (LazyDfa.adopted part budget).Sound prog split flags where
  valid := adoptRows_valid h
  starts := hstarts.of_keys List.prefix_rfl
  allStartsEqual := rfl
  anyAcceptBeforeByte := rfl
  known := by
    show (List.map _ _).length = part.pool.keys.length
    rw [List.length_map, List.length_range, h.valid.wellKeyed.states]
  cells i q hrep b := by
    have hrep' : part.pool.Rep i q := hrep.of_keys List.prefix_rfl
    have hlt : i < part.pool.states.length := by
      rw [h.valid.wellKeyed.states]
      exact hrep'.lt h.valid.wellKeyed
    have hbit : (LazyDfa.adopted part budget).isKnown i b = decide (i ∉ part.pool.work) := by
      show (List.map _ _).getD i (fun _ => false) b = _
      rw [List.getD_eq_getElem _ _ (by rwa [List.length_map, List.length_range]),
        List.getElem_map, List.getElem_range]
    have hrow : rowAt (LazyDfa.adopted part budget).dfa.states i = _ := rowAt_adoptRows hlt
    rw [hbit, hrow]
    by_cases hmem : i ∈ part.pool.work
    · rw [if_pos hmem, decide_eq_false (not_not.mpr hmem)]
      exact CellOk.fresh (h.fresh i hmem) b
    · obtain ⟨⟨n, htx, hn⟩, hmask⟩ := h.row hrep' hmem b
      rw [if_neg hmem, decide_eq_true hmem]
      have hword : (adoptRow part.pool.states (rowAt part.pool.states i)).transitions b =
          ⟨n, (rowAt part.pool.states n).isAccept, false⟩ := by
        simp only [adoptRow, htx, TxWord.plain]
      refine ⟨by rw [hword]; exact hn.of_keys List.prefix_rfl, ?_, by rw [hword], hmask⟩
      rw [hword]
      exact h.valid.accept hn
  prepared s hs := absurd hs (by simp [LazyDfa.adopted, LazyDfa.storeRows])

/-- A new table serves searches. -/
lemma LazyDfa.new_spec (hno : split = false → NoWordBoundary prog) (mem : LazyDfa → ℕ)
    {part : PartialDfa} (h : part.pool.Queued prog split flags)
    (hstarts : part.pool.StartsOk prog split flags part.starts) {budget : ℕ} {l : LazyDfa}
    (hnew : LazyDfa.new prog split flags mem part budget = some l) : l.Inv prog split flags := by
  have hfill := (LazyDfa.adopted part budget).fillEntries_spec hno mem
    (LazyDfa.adopted_sound h hstarts budget) rfl
  have hrun : LazyDfa.new prog split flags mem part budget =
      match (LazyDfa.adopted part budget).fillEntries prog split flags mem with
      | (false, _) => none
      | (true, l) => some l := rfl
  rw [hrun] at hnew
  rcases hf : (LazyDfa.adopted part budget).fillEntries prog split flags mem with ⟨_ | _, l'⟩
  · rw [hf] at hnew
    exact absurd hnew (by simp)
  · rw [hf] at hnew hfill
    obtain rfl := Option.some.inj hnew
    exact hfill.1

section Serving

/-- Filling a transition keeps the pool in the range. -/
lemma LazyDfa.fillOne_inRange (hprop : NoPropertyClass prog) {l : LazyDfa} {s : ℕ} {q : Option StateItem}
    (h : l.Sound prog split flags) (hr : l.full.Sound prog) (hrep : l.full.Rep s q) (b : UInt8) :
    (l.fillOne prog split flags s b).full.Sound prog := by
  obtain ⟨exp', -, hrun⟩ := l.fillOne_eq flags (h.prepared s) b
  have hitem := hr.item h.valid (hrep.lt h.valid.wellKeyed)
  have htaken : (l.full.taken s l.full.work).Sound prog := ⟨hr.inRange, hr.poisoned⟩
  have hsound := htaken.internState split flags hprop (h.valid.wellKeyed.taken s _)
    (hitem.itemAfter split b)
  rw [hrun]
  exact ⟨hsound.inRange, hsound.poisoned⟩

variable (hprop : NoPropertyClass prog) (hno : split = false → NoWordBoundary prog)
include hprop hno

/-- Without property classes the loop over a row poisons nothing. -/
lemma LazyDfa.fillEntry_serves {s : ℕ} {q : Option StateItem} (bytes : List UInt8) {l : LazyDfa}
    (h : l.Sound prog split flags) (hr : l.full.Sound prog) (hrep : l.full.Rep s q) :
    ∃ l', l.fillEntry prog split flags s bytes = (true, l') ∧ l'.full.Sound prog := by
  induction bytes generalizing l with
  | nil => exact ⟨l, rfl, hr⟩
  | cons b bytes ih =>
    unfold fillEntry
    dsimp only
    by_cases hk : l.isKnown s b = true
    · have hpoison : l.pool.poisoned = false := hr.poisoned
      rw [if_pos hk, if_neg (by rw [hpoison]; decide)]
      exact ih h hr hrep
    · have hr' := l.fillOne_inRange hprop h hr hrep b
      have hpoison : (l.fillOne prog split flags s b).pool.poisoned = false := hr'.poisoned
      obtain ⟨hsound, hfills, -, -⟩ := l.fillOne_spec hno h hrep b hpoison
      rw [if_neg hk, if_neg (by rw [hpoison]; decide)]
      exact ih hsound hr' (hrep.of_keys hfills.keys)

/-- Without property classes the loop over the entry rows poisons nothing. -/
lemma LazyDfa.fillRows_serves (starts : List ℕ) {l : LazyDfa} (h : l.Sound prog split flags)
    (hr : l.full.Sound prog) (hrep : ∀ s ∈ starts, ∃ q, l.full.Rep s q) :
    ∃ l', l.fillRows prog split flags starts = (true, l') := by
  induction starts generalizing l with
  | nil => exact ⟨l, rfl⟩
  | cons s starts ih =>
    obtain ⟨q, hq⟩ := hrep s List.mem_cons_self
    obtain ⟨l₁, hrow, hr₁⟩ := l.fillEntry_serves hprop hno allBytes h hr hq
    have hspec := l.fillEntry_spec hno allBytes h hq
    rw [hrow] at hspec
    obtain ⟨hsound, hfills, -, -⟩ := hspec
    unfold fillRows
    rw [hrow]
    refine ih hsound hr₁ fun s' hs' => ?_
    obtain ⟨q', hq'⟩ := hrep s' (List.mem_cons_of_mem s hs')
    exact ⟨q', hq'.of_keys hfills.keys⟩

/-- Without property classes a capped build is adopted wherever the budget covers its entry rows. -/
lemma LazyDfa.new_serves (mem : LazyDfa → ℕ) {part : PartialDfa}
    (h : part.pool.Queued prog split flags) (hr : part.pool.Sound prog)
    (hstarts : part.pool.StartsOk prog split flags part.starts) {budget : ℕ}
    (hmem : ∀ l : LazyDfa, mem l ≤ l.budget) :
    ∃ l, LazyDfa.new prog split flags mem part budget = some l := by
  have hadopted := LazyDfa.adopted_sound h hstarts budget
  have hreps : ∀ s ∈ [part.starts.start, part.starts.midWord, part.starts.midNonword],
      ∃ q, (LazyDfa.adopted part budget).full.Rep s q := by
    intro s hs
    simp only [List.mem_cons, List.not_mem_nil, or_false] at hs
    rcases hs with rfl | rfl | rfl
    · exact ⟨_, hadopted.starts.start⟩
    · exact ⟨_, hadopted.starts.midWord⟩
    · exact ⟨_, hadopted.starts.midNonword⟩
  obtain ⟨l, hrows⟩ := (LazyDfa.adopted part budget).fillRows_serves hprop hno _ hadopted
    ⟨hr.inRange, hr.poisoned⟩ hreps
  have hspec := (LazyDfa.adopted part budget).fillRows_spec hno _ hadopted hreps
  rw [hrows] at hspec
  have hdis : l.disabled = false := hspec.2.2.1
  have hfill : (LazyDfa.adopted part budget).fillEntries prog split flags mem = (true, l) := by
    have hstart : (LazyDfa.adopted part budget).dfa.starts = part.starts := rfl
    unfold fillEntries
    dsimp only
    rw [hstart, hrows]
    dsimp only
    rw [if_neg (Nat.not_lt.mpr (hmem l)), hdis]
    rfl
  refine ⟨l, ?_⟩
  unfold LazyDfa.new
  dsimp only
  change (match (LazyDfa.adopted part budget).fillEntries prog split flags mem with
    | (false, _) => none
    | (true, l) => some l) = some l
  rw [hfill]
end Serving

end Lazy

/-! ### Searches -/

section Search

variable {prog : SearchProgram} {mem : LazyDfa → ℕ} {flags : UInt8}

variable (prog flags) in
/-- A table between two searches: its invariant holds, or a fill has disabled it. -/
def LazyDfa.Idle (l : LazyDfa) : Prop :=
  l.disabled = true ∨ l.Inv prog.toProgram (progUsesWordBoundary prog) flags

/-- The automaton of a program. -/
abbrev programAutomaton (prog : SearchProgram) (flags : UInt8) : Automaton StateItem :=
  subsetAutomaton prog.toProgram (progUsesWordBoundary prog) flags

/-- What the outcome of a search from `p` says of the starts. -/
def LazyDfa.Outcome.Agrees (prog : SearchProgram) (s : List UInt8) (flags : UInt8)
    (haystackIsAscii : Bool) (p : ℕ) : LazyDfa.Outcome → Prop
  | .hit st stop => FirstHit (programAutomaton prog flags) prog s flags haystackIsAscii p st stop
  | .miss => ∀ r, NoneBefore (programAutomaton prog flags) prog s flags haystackIsAscii p r
  | .resumeAt st => p ≤ st ∧
      NoneBefore (programAutomaton prog flags) prog s flags haystackIsAscii p st

/-- The table at the beginning of a search. -/
def LazyDfa.begun (l : LazyDfa) : LazyDfa :=
  { l with clears := 0, walked := 0, walkedAtClear := 0, gaveUp := false, gaveUpAt := none }

/-- What a search on a disabled table computes. -/
lemma LazyDfa.search_of_disabled {l : LazyDfa} (h : l.disabled = true) (s : List UInt8) (p : ℕ)
    (haystackIsAscii : Bool) :
    l.search prog mem s p flags haystackIsAscii = (.resumeAt p, l.begun) := by
  have hbegin : l.beginSearch = (false, l.begun) := by
    unfold LazyDfa.beginSearch LazyDfa.begun
    rw [h]
    rfl
  unfold LazyDfa.search
  rw [hbegin]

/-- What a search on a table that serves computes. -/
lemma LazyDfa.search_of_enabled {l : LazyDfa} (h : l.disabled = false) (s : List UInt8) (p : ℕ)
    (haystackIsAscii : Bool) :
    l.search prog mem s p flags haystackIsAscii =
      match dfaFindFrom (LazyDfa.table prog.toProgram (progUsesWordBoundary prog) flags mem) prog
        l.begun s p flags haystackIsAscii with
      | (some (st, stop), l) => (.hit st stop, l)
      | (none, l) =>
        match l.gaveUpAt with
        | some st => (.resumeAt st, l)
        | none => (.miss, l) := by
  have hbegin : l.beginSearch = (true, l.begun) := by
    unfold LazyDfa.beginSearch LazyDfa.begun
    rw [h]
    rfl
  simp only [LazyDfa.search, hbegin] <;> rfl

variable (mem) in
/-- A search on an idle table leaves an idle table, and finds the first hit of the automaton,
or hands over at a start before which there is none. -/
lemma LazyDfa.search_spec {l : LazyDfa} (h : l.Idle prog flags) (s : List UInt8) (p : ℕ)
    (haystackIsAscii : Bool) :
    (l.search prog mem s p flags haystackIsAscii).2.Idle prog flags ∧
      (l.search prog mem s p flags haystackIsAscii).1.Agrees prog s flags haystackIsAscii p := by
  have hno : progUsesWordBoundary prog = false → NoWordBoundary prog.toProgram :=
    noWordBoundary_of prog
  cases hdis : l.disabled with
  | true =>
    rw [LazyDfa.search_of_disabled hdis]
    exact ⟨.inl hdis, le_rfl, fun i hi hlt => absurd hlt (by omega)⟩
  | false =>
    have hinv : l.Inv prog.toProgram (progUsesWordBoundary prog) flags :=
      h.resolve_left (by simp [hdis])
    have hbegun : l.begun.Searching prog.toProgram (progUsesWordBoundary prog) flags :=
      ⟨hinv.of_eq rfl rfl rfl rfl rfl rfl, rfl, rfl⟩
    have hfind := Serves.dfaFindFrom_agrees prog s flags haystackIsAscii
      (LazyDfa.table_serves hno mem) hbegun p
    rw [LazyDfa.search_of_enabled hdis]
    rcases hrun : dfaFindFrom (LazyDfa.table prog.toProgram (progUsesWordBoundary prog) flags mem)
      prog l.begun s p flags haystackIsAscii with ⟨_ | ⟨st, stop⟩, l'⟩
    · rw [hrun] at hfind
      rcases hfind with ⟨hok, hnone⟩ | ⟨l'', st, ⟨hgave, hstate⟩, rfl, hle, -, hnone⟩
      · dsimp only
        rw [hok.2.2]
        exact ⟨.inr hok.1, hnone⟩
      · have hstop : ((LazyDfa.table prog.toProgram (progUsesWordBoundary prog) flags mem).stopAt
            l'' st).2 = { l'' with gaveUpAt := some st } := by
          show (if l''.gaveUp then { l'' with gaveUpAt := some st } else l'') = _
          rw [hgave]
          rfl
        rw [hstop]
        exact ⟨hstate.imp id fun h => h.of_eq rfl rfl rfl rfl rfl rfl, hle, hnone⟩
    · rw [hrun] at hfind
      exact ⟨.inr hfind.1.1, hfind.2⟩

/-- A search of a lazily filled table: the haystack, the start and whether the haystack is
ASCII. -/
structure Query where
  s : List UInt8
  fromPos : ℕ
  haystackIsAscii : Bool

/-- The table after a sequence of searches. -/
def LazyDfa.after (prog : SearchProgram) (mem : LazyDfa → ℕ) (flags : UInt8) (l : LazyDfa)
    (queries : List Query) : LazyDfa :=
  queries.foldl (fun l q => (l.search prog mem q.s q.fromPos flags q.haystackIsAscii).2) l

variable (mem) in
/-- Searches leave an idle table. -/
lemma LazyDfa.after_idle (queries : List Query) {l : LazyDfa} (h : l.Idle prog flags) :
    (l.after prog mem flags queries).Idle prog flags := by
  induction queries generalizing l with
  | nil => exact h
  | cons q queries ih =>
    exact ih (LazyDfa.search_spec mem h q.s q.fromPos q.haystackIsAscii).1

/-- A fully built table serves the automaton. -/
lemma eager_serves {m : ℕ} {eager : DfaProgram} (h : build prog flags none m = some (.table eager))
    (hpoison : eager.poisoned = false) :
    ∃ Rep : DfaProgram → ℕ → Option StateItem → Prop,
      Serves eagerTable (programAutomaton prog flags) (· = eager) (fun _ => False) Rep := by
  obtain ⟨pool, hqueued, hwork, hstarts, heq⟩ := build_spec h hpoison
  have hserves := finishDfa_serves hqueued hwork hstarts
  rw [← heq] at hserves
  exact ⟨_, hserves⟩

/-- The probe of a fully built table is that of the automaton. -/
lemma eager_probe {m : ℕ} {eager : DfaProgram} (h : build prog flags none m = some (.table eager))
    (hpoison : eager.poisoned = false) (s : List UInt8) (r : ℕ) :
    (dfaProbe eagerTable prog eager s r).1 = (programAutomaton prog flags).probe prog s r := by
  obtain ⟨Rep, hserves⟩ := eager_serves h hpoison
  have hprobe := hserves.dfaProbe_agrees prog s rfl r
  rcases hrun : dfaProbe eagerTable prog eager s r with ⟨out, t⟩
  rw [hrun] at hprobe
  exact (hprobe.resolve_left fun habs => habs.2).1

/-- The loop over the starts of a fully built table finds the first hit of the automaton. -/
lemma eager_find {m : ℕ} {eager : DfaProgram} (h : build prog flags none m = some (.table eager))
    (hpoison : eager.poisoned = false) (s : List UInt8) (p : ℕ) (haystackIsAscii : Bool) :
    (∃ st stop, (dfaFindFrom eagerTable prog eager s p flags haystackIsAscii).1 = some (st, stop) ∧
      FirstHit (programAutomaton prog flags) prog s flags haystackIsAscii p st stop) ∨
    (dfaFindFrom eagerTable prog eager s p flags haystackIsAscii).1 = none ∧
      ∀ r, NoneBefore (programAutomaton prog flags) prog s flags haystackIsAscii p r := by
  obtain ⟨Rep, hserves⟩ := eager_serves h hpoison
  have hfind := Serves.dfaFindFrom_agrees prog s flags haystackIsAscii hserves rfl p
  rcases hrun : dfaFindFrom eagerTable prog eager s p flags haystackIsAscii with ⟨_ | ⟨st, stop⟩, t⟩
  · rw [hrun] at hfind
    rcases hfind with ⟨-, hnone⟩ | ⟨-, -, habs, -⟩
    · exact .inr ⟨rfl, hnone⟩
    · exact absurd habs id
  · rw [hrun] at hfind
    exact .inl ⟨st, stop, rfl, hfind.2⟩

/-- No hit and a first hit exclude each other. -/
lemma FirstHit.not_none {A : Automaton StateItem} {s : List UInt8} {haystackIsAscii : Bool}
    {p st stop : ℕ} (h : FirstHit A prog s flags haystackIsAscii p st stop) :
    ¬ ∀ r, NoneBefore A prog s flags haystackIsAscii p r := by
  intro hnone
  obtain ⟨hle, hadm, ⟨len, hlen, -⟩, -⟩ := h
  have hprobe := hnone (st + 1) st hle (Nat.lt_succ_self st) hadm
  rw [hlen] at hprobe
  exact absurd hprobe (by simp)

/-- A search may begin behind starts without a match. -/
lemma FirstHit.of_le {A : Automaton StateItem} {s : List UInt8} {haystackIsAscii : Bool}
    {p r st stop : ℕ} (h : FirstHit A prog s flags haystackIsAscii r st stop) (hpr : p ≤ r)
    (hnone : NoneBefore A prog s flags haystackIsAscii p r) :
    FirstHit A prog s flags haystackIsAscii p st stop :=
  ⟨hpr.trans h.1, h.2.1, h.2.2.1, hnone.append h.2.2.2⟩

/-- The table of a build. -/
def CappedDfa.table? : CappedDfa → Option DfaProgram
  | .table dfa => some dfa
  | .over _ => none

/-- The program of the pattern `a`. -/
def loneA : SearchProgram where
  insts := [.char 0x61 0, .accept]
  classes := []
  subInsts := []
  prefixByte := none
  hasMlAnchorB := false

end Search

end Torajs.Regex.Dfa
