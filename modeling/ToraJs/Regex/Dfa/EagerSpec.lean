import ToraJs.Regex.Dfa.PoolSpec
import ToraJs.Regex.Dfa.TableWalk

/-!
# The eager table serves the automaton

Expanding a row fills each of its transitions with the state the automaton steps to.  The
queue holds the rows that are not filled, so a build that empties its queue has filled them
all; a build that outgrew its cap hands on a pool whose queue is what is left to fill.
-/

namespace Torajs.Regex.Dfa

section Expand

variable {prog : Program} {split : Bool} {flags : UInt8}

/-! ### Expanding -/

variable (prog split) in
/-- The closure that the bytes of a row share is that of `item`. -/
def Expander.Ready (exp : Expander) (item : StateItem) : Prop :=
  split = false → (∀ b, exp.closedWithRight = closedBefore prog split item b) ∧
    exp.wholeAccept = pcSetIsAccept prog exp.closedWithRight

lemma Expander.prepare_ready (exp : Expander) (item : StateItem) :
    (exp.prepare prog split item).Ready prog split item := by
  rintro rfl
  exact ⟨fun _ => rfl, rfl⟩

variable (flags) in
/-- A step interns the item after the byte. -/
lemma Expander.step_spec {exp : Expander} {item : StateItem} (h : exp.Ready prog split item)
    (b : UInt8) (pool : Pool) : ∃ exp', exp.step prog split flags item b pool =
      (((internState prog split flags (internFuel prog) (itemAfter prog split item b) pool).1,
        pcSetIsAccept prog (closedBefore prog split item b)), exp',
        (internState prog split flags (internFuel prog) (itemAfter prog split item b) pool).2) ∧
      exp'.Ready prog split item := by
  cases split with
  | true => exact ⟨_, rfl, fun habs => absurd habs (by decide)⟩
  | false =>
    obtain ⟨hclosed, hwhole⟩ := h rfl
    refine ⟨exp, ?_, h⟩
    have hitem : exp.nextItem prog item b = itemAfter prog false item b := by
      simp only [Expander.nextItem, itemAfter, hclosed b]
    simp only [Expander.step, Expander.beforeByte, Bool.false_eq_true, if_false, hitem, hwhole,
      hclosed b]

lemma itemAfter_attr_ne (item : StateItem) (b : UInt8) :
    (itemAfter prog split item b).attr ≠ .textStart := by
  show attrOfByte b ≠ _
  unfold attrOfByte
  split_ifs <;> exact LeftByteAttr.noConfusion

/-- Interning the item after a byte. -/
lemma internState_itemAfter (hno : split = false → NoWordBoundary prog) {pool : Pool}
    (hwk : pool.WellKeyed) (hfirst : split = false → textStartKeys prog split flags ⊆ pool.keys.tail)
    {item : StateItem} {b : UInt8} {i : ℕ} {pool' : Pool}
    (h : internState prog split flags (internFuel prog) (itemAfter prog split item b) pool =
      (i, pool')) (hpoison : pool'.poisoned = false) :
    pool.Extends prog split flags pool' ∧ pool'.Rep i (keyOf split (itemAfter prog split item b)) := by
  have hspec := @internState_spec prog split flags hno (internFuel prog)
    (itemAfter prog split item b) pool hwk
  rw [h] at hspec
  exact hspec (fun hsplit => .inl ⟨itemAfter_attr_ne item b, hfirst hsplit⟩) hpoison

/-- The keys of the text start stay in a pool that grows. -/
lemma Pool.Grows.first {pool pool' : Pool} (h : pool.Grows pool') (hwk : pool.WellKeyed)
    (hfirst : split = false → textStartKeys prog split flags ⊆ pool.keys.tail) :
    split = false → textStartKeys prog split flags ⊆ pool'.keys.tail := by
  intro hsplit k hk
  obtain ⟨new, hnew⟩ := h.keys
  rw [← hnew, List.tail_append_of_ne_nil (List.ne_nil_of_length_pos hwk.pos)]
  exact List.mem_append_left _ (hfirst hsplit hk)

/-- The loop over the bytes of a row fills them, or poisons the pool. -/
lemma expandBytes_spec (hno : split = false → NoWordBoundary prog) (item : StateItem)
    (bytes : List UInt8) (exp : Expander) (pool : Pool)
    (row : (UInt8 → TxWord) × (UInt8 → Bool)) (hready : exp.Ready prog split item)
    (hwk : pool.WellKeyed) (hfirst : split = false → textStartKeys prog split flags ⊆ pool.keys.tail)
    (hpoison : pool.poisoned = false) :
    match expandBytes prog split flags item bytes exp pool row with
    | (none, _, pool') => pool'.poisoned = true
    | (some row', _, pool') => pool'.poisoned = false ∧ pool.Extends prog split flags pool' ∧
        (∀ b ∈ bytes, ∃ n, row'.1 b = .plain n ∧
          pool'.Rep n (keyOf split (itemAfter prog split item b))) ∧
        (∀ b ∉ bytes, row'.1 b = row.1 b) ∧
        ∀ b, row'.2 b =
          (row.2 b || decide (b ∈ bytes) && pcSetIsAccept prog (closedBefore prog split item b)) := by
  induction bytes generalizing exp pool row with
  | nil => exact ⟨hpoison, Pool.Extends.refl hwk, by simp, by simp, by simp⟩
  | cons byte bytes ih =>
    obtain ⟨exp', hstep, hready'⟩ := Expander.step_spec flags hready byte pool
    rcases hintern : internState prog split flags (internFuel prog)
      (itemAfter prog split item byte) pool with ⟨n, pool₁⟩
    rw [hintern] at hstep
    simp only [expandBytes, hstep]
    cases hpoison₁ : pool₁.poisoned with
    | true =>
      rw [if_pos rfl]
      exact hpoison₁
    | false =>
      obtain ⟨hext, hrep⟩ := internState_itemAfter hno hwk hfirst hintern hpoison₁
      rw [if_neg (by decide)]
      have hih := ih exp' pool₁ (Function.update row.1 byte (.plain n),
        if pcSetIsAccept prog (closedBefore prog split item byte) = true then
          Function.update row.2 byte true else row.2) hready' hext.wellKeyed
        (hext.grows.first hwk hfirst) hpoison₁
      rcases hrest : expandBytes prog split flags item bytes exp' pool₁
        (Function.update row.1 byte (.plain n),
          if pcSetIsAccept prog (closedBefore prog split item byte) = true then
            Function.update row.2 byte true else row.2) with ⟨_ | row', exp'', pool'⟩
      · rw [hrest] at hih
        exact hih
      · rw [hrest] at hih
        obtain ⟨hpois, hext', htx, hkeep, hmask⟩ := hih
        refine ⟨hpois, hext.trans hext', fun b hb => ?_, fun b hb => ?_, fun b => ?_⟩
        · by_cases hin : b ∈ bytes
          · exact htx b hin
          · obtain rfl : b = byte := (List.mem_cons.mp hb).resolve_right hin
            exact ⟨n, (hkeep b hin).trans (Function.update_self ..), hrep.of_keys hext'.grows.keys⟩
        · rw [List.mem_cons, not_or] at hb
          exact (hkeep b hb.2).trans (Function.update_of_ne hb.1 ..)
        · rw [hmask b]
          by_cases hb : b = byte
          · subst hb
            cases pcSetIsAccept prog (closedBefore prog split item b) <;> simp
          · split_ifs <;> simp [hb, Function.update_of_ne]

/-! ### The queue -/

variable (prog split flags) in
/-- Every transition of the row `i` is filled with what the automaton says of `key`. -/
def Pool.RowDone (pool : Pool) (i : ℕ) (key : StateItem) : Prop :=
  ∀ b, (∃ n, (rowAt pool.states i).transitions b = .plain n ∧
      pool.Rep n ((subsetAutomaton prog split flags).step key b)) ∧
    (rowAt pool.states i).acceptBeforeByte b = (subsetAutomaton prog split flags).acceptBefore key b

variable (prog split flags) in
/-- The pool of a build between two rows. -/
structure Pool.Queued (pool : Pool) : Prop where
  valid : pool.Valid prog split flags
  work_nodup : pool.work.Nodup
  work_pos : ∀ i ∈ pool.work, 0 < i ∧ i < pool.keys.length
  fresh : ∀ i ∈ pool.work, FreshRow (rowAt pool.states i)
  done : ∀ i key, pool.keys[i]? = some key → 0 < i → i ∉ pool.work →
    pool.RowDone prog split flags i key

lemma Pool.RowDone.of_eq {pool pool' : Pool} {i : ℕ} {key : StateItem}
    (h : pool.RowDone prog split flags i key) (hkeys : pool.keys <+: pool'.keys)
    (hrow : rowAt pool'.states i = rowAt pool.states i) :
    pool'.RowDone prog split flags i key := by
  intro b
  obtain ⟨⟨n, htx, hrep⟩, hmask⟩ := h b
  rw [hrow]
  exact ⟨⟨n, htx, hrep.of_keys hkeys⟩, hmask⟩

/-- The pool with the item of slot `i` taken out. -/
def Pool.taken (pool : Pool) (i : ℕ) (work : List ℕ) : Pool :=
  { pool with work := work, items := pool.items.set i {} }

/-- The pool with the item of slot `i` put back and its row changed. -/
def Pool.putBack (pool : Pool) (i : ℕ) (item : StateItem) (f : DfaState → DfaState)
    (work : List ℕ) : Pool :=
  { pool with items := pool.items.set i item, states := pool.states.modify i f, work := work }

lemma Pool.WellKeyed.taken {pool : Pool} (h : pool.WellKeyed) (i : ℕ) (work : List ℕ) :
    (pool.taken i work).WellKeyed :=
  ⟨h.states, (List.length_set ..).trans h.items, h.pos, h.nodup, h.live⟩

/-- Taking an item out, extending the pool and putting the item back keeps a pool valid, if
the row keeps its verdicts. -/
lemma Pool.Valid.putBack {pool pool' : Pool} (h : pool.Valid prog split flags) {i : ℕ}
    {work : List ℕ} (hi : i < pool.keys.length)
    (hext : (pool.taken i work).Extends prog split flags pool') (hpoison : pool'.poisoned = false)
    {f : DfaState → DfaState} (hf : ∀ row, (f row).isAccept = row.isAccept ∧
      (f row).isAcceptAtEnd = row.isAcceptAtEnd ∧ (f row).pendingClass = row.pendingClass)
    (hzero : i = 0 → f {} = {}) (work' : List ℕ) :
    (pool'.putBack i (pool.items.getD i {}) f work').Valid prog split flags := by
  have hwk' := hext.wellKeyed
  have hle : pool.keys.length ≤ pool'.keys.length := hext.grows.keys.length_le
  have hrows : ∀ j < pool.keys.length, rowAt pool'.states j = rowAt pool.states j :=
    hext.grows.rows
  have hitems : ∀ j < pool.keys.length, j ≠ i →
      pool'.items.getD j {} = pool.items.getD j {} := by
    intro j hj hne
    rw [hext.grows.items j hj]
    exact item_set_of_ne hne
  have hstates : pool'.states.length = pool'.keys.length := hwk'.states
  have hitemsLen : pool'.items.length = pool'.keys.length := hwk'.items
  refine ⟨⟨?_, ?_, hwk'.pos, hwk'.nodup, hwk'.live⟩, ?_, ?_, ?_, fun j key hj hkey => ?_, hpoison⟩
  · exact (List.length_modify ..).trans hwk'.states
  · exact (List.length_set ..).trans hwk'.items
  · exact hext.grows.first (h.wellKeyed.taken i work) h.first
  · show (pool'.items.set _ _).getD 0 {} = {}
    rcases eq_or_ne 0 i with rfl | hne
    · rw [item_set_self (by omega), h.zero_item]
    · rw [item_set_of_ne hne, hitems 0 h.wellKeyed.pos hne, h.zero_item]
  · show rowAt (pool'.states.modify _ _) 0 = {}
    rcases eq_or_ne 0 i with rfl | hne
    · rw [rowAt_modify_self (by omega), hrows 0 hi, h.zero_row, hzero rfl]
    · rw [rowAt_modify_of_ne hne, hrows 0 h.wellKeyed.pos, h.zero_row]
  · have hkey' : pool'.keys[j]? = some key := hkey
    rcases lt_or_ge j pool.keys.length with hlt | hge
    · obtain ⟨new, hnew⟩ := hext.grows.keys
      have hold : pool.keys[j]? = some key := by
        have hget := hkey'
        rw [← hnew] at hget
        rwa [List.getElem?_append_left (show j < (pool.taken i work).keys.length from hlt)] at hget
      have hslot := h.slots j key hj hold
      have hpre : pool.keys <+: pool'.keys := hext.grows.keys
      rcases eq_or_ne j i with rfl | hne
      · have hrow : rowAt (pool'.putBack j (pool.items.getD j {}) f work').states j =
            f (rowAt pool.states j) := by
          show rowAt (pool'.states.modify _ _) j = _
          rw [rowAt_modify_self (by omega), hrows j hlt]
        have hitem : (pool'.putBack j (pool.items.getD j {}) f work').items.getD j {} =
            pool.items.getD j {} := item_set_self (by omega)
        obtain ⟨hacc, hend, hpend⟩ := hf (rowAt pool.states j)
        refine ⟨hslot.folded, by rw [hitem]; exact hslot.item, by rw [hrow, hacc, hslot.accept],
          by rw [hrow, hend, hslot.acceptAtEnd], ?_⟩
        rw [hrow, hpend]
        exact hslot.pending.mono fun hrep => hrep.of_keys hpre
      · refine hslot.of_eq hpre ?_ ?_
        · exact (rowAt_modify_of_ne hne).trans (hrows j hlt)
        · exact (item_set_of_ne hne).trans (hitems j hlt hne)
    · obtain ⟨hslot, -⟩ := hext.slots j key hge hkey'
      have hne : j ≠ i := by omega
      exact hslot.of_eq List.prefix_rfl (rowAt_modify_of_ne hne) (item_set_of_ne hne)

/-- Expanding the row in front of the queue fills it, or poisons the pool. -/
lemma expandRow_spec (hno : split = false → NoWordBoundary prog) {pool : Pool} {i : ℕ}
    {work : List ℕ} (h : pool.Queued prog split flags) (hwork : pool.work = i :: work)
    (exp : Expander) :
    match expandRow prog split flags i { pool with work := work } exp with
    | (_, pool') => pool'.poisoned = true ∨
        pool'.Queued prog split flags ∧ pool.keys <+: pool'.keys := by
  have hmem : i ∈ pool.work := by rw [hwork]; exact List.mem_cons_self
  have hi := h.work_pos i hmem
  have hnodup : i ∉ work ∧ work.Nodup := by
    have hnodup := h.work_nodup
    rw [hwork] at hnodup
    exact List.nodup_cons.mp hnodup
  have hsub : ∀ j ∈ work, j ∈ pool.work := fun j hj => by rw [hwork]; exact List.mem_cons_of_mem i hj
  have hvalid := h.valid
  have hspec := @expandBytes_spec prog split flags hno (pool.items.getD i {}) allBytes
    (exp.prepare prog split (pool.items.getD i {})) (pool.taken i work)
    (fun _ => .plain 0, fun _ => false) (Expander.prepare_ready _ _)
    (hvalid.wellKeyed.taken i work) hvalid.first hvalid.poisoned
  unfold expandRow
  dsimp only
  rcases hrun : expandBytes prog split flags (pool.items.getD i {}) allBytes
    (exp.prepare prog split (pool.items.getD i {})) (pool.taken i work)
    (fun _ => .plain 0, fun _ => false) with ⟨_ | row', exp', pool'⟩
  · rw [hrun] at hspec
    unfold Pool.taken at hrun
    rw [hrun]
    exact .inl hspec
  · rw [hrun] at hspec
    unfold Pool.taken at hrun
    rw [hrun]
    obtain ⟨hpois, hext, htx, -, hmask⟩ := hspec
    right
    have hvalid' := hvalid.putBack hi.2 hext hpois
      (f := fun row => { row with
        transitions := row'.1
        acceptBeforeByte := if row.isAccept then row.acceptBeforeByte else row'.2 })
      (fun row => ⟨rfl, rfl, rfl⟩) (fun h => absurd hi.1 (by omega)) pool'.work
    have hpre : pool.keys <+: pool'.keys := hext.grows.keys
    have hlen : pool'.states.length = pool'.keys.length := hext.wellKeyed.states
    have hle : pool.keys.length ≤ pool'.keys.length := hpre.length_le
    obtain ⟨new, hnew, hnewNodup, hnewMem⟩ : ∃ new, pool'.work = new ++ work ∧ new.Nodup ∧
        ∀ j, j ∈ new ↔ pool.keys.length ≤ j ∧ j < pool'.keys.length := hext.grows.work
    have hrows : ∀ j < pool.keys.length, rowAt pool'.states j = rowAt pool.states j :=
      hext.grows.rows
    refine ⟨⟨hvalid', ?_, ?_, ?_, ?_⟩, hpre⟩
    · show pool'.work.Nodup
      rw [hnew, List.nodup_append]
      refine ⟨hnewNodup, hnodup.2, fun j hj k hk => ?_⟩
      have := (hnewMem j).mp hj
      have := h.work_pos k (hsub k hk)
      omega
    · intro j hj
      have hj' : j ∈ pool'.work := hj
      rw [hnew, List.mem_append, hnewMem] at hj'
      show 0 < j ∧ j < pool'.keys.length
      rcases hj' with hj' | hj'
      · omega
      · have := h.work_pos j (hsub j hj')
        omega
    · intro j hj
      have hj' : j ∈ pool'.work := hj
      have hne : j ≠ i := by
        rintro rfl
        rw [hnew, List.mem_append] at hj'
        rcases hj' with hj' | hj'
        · have := (hnewMem j).mp hj'
          omega
        · exact hnodup.1 hj'
      show FreshRow (rowAt (pool'.states.modify _ _) j)
      rw [rowAt_modify_of_ne hne]
      rw [hnew, List.mem_append] at hj'
      rcases hj' with hj' | hj'
      · obtain ⟨hge, hlt⟩ := (hnewMem j).mp hj'
        exact (hext.slots j _ hge (List.getElem?_eq_getElem hlt)).2
      · rw [hrows j (h.work_pos j (hsub j hj')).2]
        exact h.fresh j (hsub j hj')
    · intro j key hkey hj hjwork
      have hkey' : pool'.keys[j]? = some key := hkey
      have hjwork' : j ∉ new ∧ j ∉ work := by
        have hjwork' : j ∉ pool'.work := hjwork
        rwa [hnew, List.mem_append, not_or] at hjwork'
      have hlt : j < pool.keys.length := by
        by_contra hge
        obtain ⟨hlt', -⟩ := List.getElem?_eq_some_iff.mp hkey'
        exact hjwork'.1 ((hnewMem j).mpr ⟨by omega, hlt'⟩)
      have hold : pool.keys[j]? = some key := by
        obtain ⟨tail, htail⟩ := hpre
        rwa [← htail, List.getElem?_append_left hlt] at hkey'
      rcases eq_or_ne j i with rfl | hne
      · have hslot := hvalid.slots j key hj hold
        have hrow : rowAt (pool'.states.modify j fun row => { row with
            transitions := row'.1
            acceptBeforeByte := if row.isAccept then row.acceptBeforeByte else row'.2 }) j =
            { rowAt pool.states j with
              transitions := row'.1
              acceptBeforeByte := if (rowAt pool.states j).isAccept then
                (rowAt pool.states j).acceptBeforeByte else row'.2 } := by
          rw [rowAt_modify_self (by omega), hrows j hlt]
        intro b
        refine ⟨?_, ?_⟩
        · obtain ⟨n, hn, hrep⟩ := htx b (mem_allBytes b)
          rw [hslot.item.itemAfter hno] at hrep
          exact ⟨n, by rw [← hn]; exact congrArg (fun row => row.transitions b) hrow, hrep⟩
        · refine (congrArg (fun row => row.acceptBeforeByte b) hrow).trans ?_
          dsimp only
          rw [hslot.accept, (h.fresh j hmem).2]
          show _ = (!pcSetIsAccept prog key.ready &&
            pcSetIsAccept prog (closedBefore prog split (itemOf prog split flags key) b))
          rw [← hslot.item.closedBefore hno]
          cases pcSetIsAccept prog key.ready with
          | true => rfl
          | false => simpa [mem_allBytes] using hmask b
      · have hjold : j ∉ pool.work := by
          rw [hwork, List.mem_cons, not_or]
          exact ⟨hne, hjwork'.2⟩
        exact (h.done j key hold hj hjold).of_eq hpre
          ((rowAt_modify_of_ne hne).trans (hrows j hlt))

/-! ### The build -/

variable (prog split flags) in
/-- The entry indices stand for the entry states. -/
structure Pool.StartsOk (pool : Pool) (starts : Starts) : Prop where
  start : pool.Rep starts.start (subsetAutomaton prog split flags).start
  midWord : pool.Rep starts.midWord (subsetAutomaton prog split flags).startMidWord
  midNonword : pool.Rep starts.midNonword (subsetAutomaton prog split flags).startMidNonword

lemma Pool.StartsOk.of_keys {pool pool' : Pool} {starts : Starts}
    (h : pool.StartsOk prog split flags starts) (hkeys : pool.keys <+: pool'.keys) :
    pool'.StartsOk prog split flags starts :=
  ⟨h.start.of_keys hkeys, h.midWord.of_keys hkeys, h.midNonword.of_keys hkeys⟩

variable (prog split flags) in
/-- What a build comes to, unless it is poisoned. -/
def CappedDfa.Ok : CappedDfa → Prop
  | .over part => part.pool.Queued prog split flags ∧
      part.pool.StartsOk prog split flags part.starts
  | .table dfa => dfa.poisoned = false → ∃ pool : Pool, pool.Queued prog split flags ∧
      pool.work = [] ∧ pool.StartsOk prog split flags dfa.starts ∧
      dfa = finishDfa pool.states dfa.starts false

/-- The loop of the build. -/
lemma buildLoop_spec (hno : split = false → NoWordBoundary prog) {cap : Option ℕ} {starts : Starts}
    {n : ℕ} {pool : Pool} {exp : Expander} {out : CappedDfa} (h : pool.Queued prog split flags)
    (hstarts : pool.StartsOk prog split flags starts)
    (hrun : buildLoop prog split flags cap starts n pool exp = some out) :
    out.Ok prog split flags := by
  induction n generalizing pool exp with
  | zero => exact absurd hrun (by simp [buildLoop])
  | succ n ih =>
    unfold buildLoop at hrun
    cases hwork : pool.work with
    | nil =>
      rw [hwork] at hrun
      obtain rfl := Option.some.inj hrun
      intro _
      exact ⟨pool, h, hwork, hstarts, by rw [h.valid.poisoned]; rfl⟩
    | cons i work =>
      rw [hwork] at hrun
      dsimp only at hrun
      split_ifs at hrun with hcap hpoison
      · obtain rfl := Option.some.inj hrun
        exact ⟨h, hstarts⟩
      · obtain rfl := Option.some.inj hrun
        intro habs
        exact absurd (habs.symm.trans hpoison) (by decide)
      · have hspec := expandRow_spec hno h hwork exp
        rcases hexp : expandRow prog split flags i { pool with work := work } exp with ⟨exp', pool'⟩
        rw [hexp] at hspec hrun hpoison
        obtain ⟨hqueued, hkeys⟩ := hspec.resolve_left hpoison
        exact ih hqueued (hstarts.of_keys hkeys) hrun

/-- The seeds of the build. -/
lemma seedStarts_queued (hno : split = false → NoWordBoundary prog) {starts : Starts} {pool : Pool}
    (h : seedStarts prog split flags Pool.new.reset = (starts, pool))
    (hpoison : pool.poisoned = false) :
    pool.Queued prog split flags ∧ pool.StartsOk prog split flags starts := by
  obtain ⟨hvalid, hext, hstart, hword, hnonword⟩ := seedStarts_spec hno h hpoison
  refine ⟨⟨hvalid, ?_, ?_, ?_, ?_⟩, hstart, hword, hnonword⟩
  all_goals
    obtain ⟨new, hnew, hnodup, hmem⟩ : ∃ new, pool.work = new ++ [] ∧ new.Nodup ∧
      ∀ j, j ∈ new ↔ 1 ≤ j ∧ j < pool.keys.length := hext.grows.work
    rw [List.append_nil] at hnew
    rw [hnew]
  · exact hnodup
  · exact fun i hi => (hmem i).mp hi
  · intro i hi
    obtain ⟨hge, hlt⟩ := (hmem i).mp hi
    exact (hext.slots i _ hge (List.getElem?_eq_getElem hlt)).2
  · intro i key hkey hpos hi
    obtain ⟨hlt, -⟩ := List.getElem?_eq_some_iff.mp hkey
    exact absurd ((hmem i).mpr ⟨hpos, hlt⟩) hi

end Expand

/-- A build hands on what it has filled, and what is left is queued. -/
lemma build_spec {prog : SearchProgram} {flags : UInt8} {cap : Option ℕ} {n : ℕ} {out : CappedDfa}
    (h : build prog flags cap n = some out) :
    out.Ok prog.toProgram (progUsesWordBoundary prog) flags := by
  have hno : progUsesWordBoundary prog = false → NoWordBoundary prog.toProgram :=
    noWordBoundary_of prog
  unfold build at h
  rcases hseed : seedStarts prog.toProgram (progUsesWordBoundary prog) flags Pool.new.reset with
    ⟨starts, pool⟩
  dsimp only at h
  rw [hseed] at h
  dsimp only at h
  split_ifs at h with hpoison
  · obtain rfl := Option.some.inj h
    intro habs
    exact absurd (habs.symm.trans hpoison) (by decide)
  · obtain ⟨hqueued, hstarts⟩ := seedStarts_queued hno hseed (by simpa using hpoison)
    exact buildLoop_spec hno hqueued hstarts h

/-! ### The table -/

section Table

variable {prog : Program} {split : Bool} {flags : UInt8} {pool : Pool} {starts : Starts}

lemma rowAt_map {states : List DfaState} {f : DfaState → DfaState} {i : ℕ}
    (h : i < states.length) : rowAt (states.map f) i = f (rowAt states i) := by
  rw [rowAt, rowAt, List.getD_eq_getElem _ _ (by rwa [List.length_map]),
    List.getD_eq_getElem _ _ h, List.getElem_map]

/-- A row of the finished table. -/
lemma rowAt_finishDfa {i : ℕ} {poisoned : Bool} (h : i < pool.states.length) :
    rowAt (finishDfa pool.states starts poisoned).states i =
      { rowAt pool.states i with
        monotoneAccept := computeMonotone pool.states (rowAt pool.states i)
        transitions := fun b =>
          foldWord (computeMonotoneAccept pool.states) ((rowAt pool.states i).transitions b) } := by
  unfold finishDfa foldAcceptBits
  dsimp only
  rw [rowAt_map (by rwa [computeMonotoneAccept, List.length_map])]
  rw [show rowAt (computeMonotoneAccept pool.states) i = _ from rowAt_map h]

/-- The accept bit of a valid pool. -/
lemma Pool.Valid.accept (h : pool.Valid prog split flags) {i : ℕ} {q : Option StateItem}
    (hrep : pool.Rep i q) :
    (rowAt pool.states i).isAccept = q.any (subsetAutomaton prog split flags).accept := by
  cases q with
  | none =>
    obtain rfl : i = 0 := hrep
    rw [h.zero_row]
    rfl
  | some key => exact (h.slots i key hrep.1 hrep.2).accept

/-- The accept bit at the end. -/
lemma Pool.Valid.acceptAtEnd (h : pool.Valid prog split flags) {i : ℕ} {q : Option StateItem}
    (hrep : pool.Rep i q) :
    (rowAt pool.states i).isAcceptAtEnd = q.any (subsetAutomaton prog split flags).acceptAtEnd := by
  cases q with
  | none =>
    obtain rfl : i = 0 := hrep
    rw [h.zero_row]
    rfl
  | some key => exact (h.slots i key hrep.1 hrep.2).acceptAtEnd

/-- The pending class. -/
lemma Pool.Valid.pending (h : pool.Valid prog split flags) {i : ℕ} {q : Option StateItem}
    (hrep : pool.Rep i q) :
    (rowAt pool.states i).pendingClass.Agrees pool.Rep
      (q.bind (subsetAutomaton prog split flags).pending) := by
  cases q with
  | none =>
    obtain rfl : i = 0 := hrep
    rw [h.zero_row]
    rfl
  | some key => exact (h.slots i key hrep.1 hrep.2).pending

/-- The transitions of a row that is not queued. -/
lemma Pool.Queued.row (h : pool.Queued prog split flags) {i : ℕ} {q : Option StateItem}
    (hrep : pool.Rep i q) (hi : i ∉ pool.work) (b : UInt8) :
    (∃ n, (rowAt pool.states i).transitions b = .plain n ∧
      pool.Rep n (q.bind fun key => (subsetAutomaton prog split flags).step key b)) ∧
    (rowAt pool.states i).acceptBeforeByte b =
      q.any fun key => (subsetAutomaton prog split flags).acceptBefore key b := by
  cases q with
  | none =>
    obtain rfl : i = 0 := hrep
    rw [h.valid.zero_row]
    exact ⟨⟨0, rfl, rfl⟩, rfl⟩
  | some key => exact h.done i key hrep.2 hrep.1 hi b

/-- The table of a build that emptied its queue serves the automaton. -/
lemma finishDfa_serves (h : pool.Queued prog split flags) (hwork : pool.work = [])
    (hstarts : pool.StartsOk prog split flags starts) :
    Serves eagerTable (subsetAutomaton prog split flags)
      (fun dfa => dfa = finishDfa pool.states starts false) (fun _ => False)
      fun _ i q => pool.Rep i q := by
  have hvalid := h.valid
  have hlt : ∀ {i q}, pool.Rep i q → i < pool.states.length := by
    intro i q hrep
    rw [hvalid.wellKeyed.states]
    exact hrep.lt hvalid.wellKeyed
  have hdone : ∀ {i q}, pool.Rep i q → ∀ b, _ :=
    fun hrep b => h.row hrep (by rw [hwork]; exact List.not_mem_nil) b
  have hword : ∀ {i q}, pool.Rep i q → ∀ b, ∃ n,
      (rowAt (finishDfa pool.states starts false).states i).transitions b =
        foldWord (computeMonotoneAccept pool.states) (.plain n) ∧
      pool.Rep n (q.bind fun key => (subsetAutomaton prog split flags).step key b) := by
    intro i q hrep b
    obtain ⟨⟨n, htx, hn⟩, -⟩ := hdone hrep b
    refine ⟨n, ?_, hn⟩
    rw [rowAt_finishDfa (hlt hrep)]
    dsimp only
    rw [htx]
  have hrow : ∀ {i q}, pool.Rep i q → rowAt (computeMonotoneAccept pool.states) i =
      { rowAt pool.states i with
        monotoneAccept := computeMonotone pool.states (rowAt pool.states i) } :=
    fun hrep => rowAt_map (hlt hrep)
  constructor
  · exact fun _ => rfl
  · exact fun _ hrep hrep' => hrep.left_unique hrep'
  · exact fun _ hi hj => hi.right_unique hvalid.wellKeyed hj
  · rintro t rfl
    exact hstarts.start
  · rintro t rfl
    exact hstarts.midWord
  · rintro t rfl
    exact hstarts.midNonword
  · rintro t rfl
    rfl
  · exact fun _ b => ⟨.inl rfl, .inl rfl, .inl rfl⟩
  · rintro t i q rfl hrep
    show (rowAt (finishDfa pool.states starts false).states i).isAccept = _
    rw [rowAt_finishDfa (hlt hrep)]
    exact hvalid.accept hrep
  · rintro t i q rfl hrep
    show (rowAt (finishDfa pool.states starts false).states i).isAcceptAtEnd = _
    rw [rowAt_finishDfa (hlt hrep)]
    exact hvalid.acceptAtEnd hrep
  · rintro t i q rfl hrep b -
    obtain ⟨n, htx, hn⟩ := hword hrep b
    show pool.Rep ((rowAt (finishDfa pool.states starts false).states i).transitions b).state _
    rw [htx]
    exact hn
  · rintro t i q rfl hrep b -
    obtain ⟨n, htx, hn⟩ := hword hrep b
    show ((rowAt (finishDfa pool.states starts false).states i).transitions b).accept = _
    rw [htx, foldWord]
    dsimp only [TxWord.plain]
    rw [hrow hn]
    exact hvalid.accept hn
  · rintro t i q rfl hrep b
    obtain ⟨n, htx, hn⟩ := hword hrep b
    show ((rowAt (finishDfa pool.states starts false).states i).transitions b).monotone = true →
      ((rowAt (finishDfa pool.states starts false).states i).transitions b).accept = true
    rw [htx, foldWord]
    dsimp only [TxWord.plain]
    rw [hrow hn]
    intro hmono
    dsimp only [computeMonotone] at hmono ⊢
    rw [Bool.and_eq_true, Bool.and_eq_true] at hmono
    exact hmono.1.1
  · exact fun _ _ b hfill => absurd (.inl rfl) hfill
  · rintro t i q rfl hrep b -
    obtain ⟨-, hmask⟩ := hdone hrep b
    show ((finishDfa pool.states starts false).anyAcceptBeforeByte &&
      (rowAt (finishDfa pool.states starts false).states i).acceptBeforeByte b) = _
    rw [rowAt_finishDfa (hlt hrep), ← hmask]
    dsimp only
    cases hb : (rowAt pool.states i).acceptBeforeByte b with
    | false => exact Bool.and_false _
    | true =>
      rw [Bool.and_true]
      refine List.any_eq_true.mpr ⟨rowAt pool.states i, ?_, ?_⟩
      · rw [rowAt, List.getD_eq_getElem _ _ (hlt hrep)]
        exact List.getElem_mem _
      · exact List.any_eq_true.mpr ⟨b, mem_allBytes b, hb⟩
  · intro key b hacc
    show (!pcSetIsAccept prog key.ready && _) = false
    rw [show pcSetIsAccept prog key.ready = true from hacc]
    rfl
  · rintro t i q rfl hrep
    show (rowAt (finishDfa pool.states starts false).states i).pendingClass.Agrees _ _
    rw [rowAt_finishDfa (hlt hrep)]
    exact hvalid.pending hrep
  · exact fun _ _ b _ hfill => absurd (.inl rfl) hfill
  · exact fun hlazy => absurd hlazy (by decide)
  · exact fun hlazy => absurd hlazy (by decide)
  · exact fun habs => absurd habs id

end Table

end Torajs.Regex.Dfa
