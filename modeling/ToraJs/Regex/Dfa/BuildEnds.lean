import ToraJs.Regex.Dfa.Longest
import Mathlib.Data.Finset.Prod
import Mathlib.Order.Interval.Finset.Nat

/-!
# The build ends

Without property classes nothing poisons a pool, and all states have their lists in a range that
the length of the program gives.  A turn of the build takes a state from the queue and adds the
new ones, so it ends once every state has been taken.
-/

namespace Torajs.Regex.Dfa

variable {prog : Program} {split : Bool} {flags : UInt8}

/-! ### The range of the states -/

/-- More than the program counters of a parked list, with the tag. -/
def parkedBound (prog : Program) : ℕ := prog.len + LT_PENDING

/-- A parked list in the range. -/
def ParkedIn (prog : Program) (xs : List ℕ) : Prop := Canonical xs ∧ ∀ x ∈ xs, x < parkedBound prog

/-- An item in the range. -/
structure InRange (prog : Program) (item : StateItem) : Prop where
  ready : item.ready ∈ readySets prog
  one : ParkedIn prog item.deferred.one
  two : ParkedIn prog item.deferred.two
  three : ParkedIn prog item.deferred.three

/-- The parked lists in the range. -/
def parkedSets (prog : Program) : Finset (List ℕ) :=
  (Finset.range (parkedBound prog)).powerset.image fun s => s.sort (· ≤ ·)

/-- The items in the range. -/
def itemsInRange (prog : Program) : Finset StateItem :=
  (readySets prog ×ˢ parkedSets prog ×ˢ parkedSets prog ×ˢ parkedSets prog ×ˢ
    {.textStart, .word, .nonWord}).image
      fun p : List ℕ × List ℕ × List ℕ × List ℕ × LeftByteAttr =>
        ⟨p.1, ⟨p.2.1, p.2.2.1, p.2.2.2.1⟩, p.2.2.2.2⟩

/-- A list in the range is one of the parked lists. -/
lemma ParkedIn.mem {xs : List ℕ} (h : ParkedIn prog xs) : xs ∈ parkedSets prog := by
  refine Finset.mem_image.mpr ⟨xs.toFinset, ?_, (List.toFinset_sort (· ≤ ·) h.1.2).mpr h.1.1⟩
  rw [Finset.mem_powerset]
  exact fun x hx => Finset.mem_range.mpr (h.2 x (List.mem_toFinset.mp hx))

/-- An item in the range is one of finitely many. -/
lemma InRange.mem {item : StateItem} (h : InRange prog item) : item ∈ itemsInRange prog := by
  obtain ⟨ready, ⟨one, two, three⟩, attr⟩ := item
  refine Finset.mem_image.mpr ⟨(ready, one, two, three, attr), ?_, rfl⟩
  simp only [Finset.mem_product]
  refine ⟨h.ready, h.one.mem, h.two.mem, h.three.mem, ?_⟩
  cases attr <;> simp

/-- The range does not depend on the class of the byte in front. -/
lemma InRange.flattenKey {item : StateItem} (h : InRange prog item) :
    InRange prog (flattenKey split item) := by
  unfold Dfa.flattenKey
  split
  · exact h
  · exact ⟨h.ready, h.one, h.two, h.three⟩

/-- No seeds, no program counters. -/
lemma nil_mem_readySets (prog : Program) : [] ∈ readySets prog := by
  refine Finset.mem_image.mpr ⟨∅, Finset.empty_mem_powerset _, ?_⟩
  simp

/-- An entry item is in the range. -/
lemma inRange_startItem (attr : LeftByteAttr) : InRange prog (startItem prog attr) := by
  have hnil : ParkedIn prog [] := ⟨canonical_nil, by simp⟩
  exact ⟨closureSorted_mem _ _, hnil, hnil, hnil⟩

/-- What the byte step parks is in the range. -/
lemma byteStepInto_lt {states : List ℕ} {byte : UInt8} {x : ℕ}
    (hx : x ∈ (byteStepInto prog states byte).2.one ∨ x ∈ (byteStepInto prog states byte).2.two ∨
      x ∈ (byteStepInto prog states byte).2.three) : x < parkedBound prog := by
  have hone : ∀ pc, (x ∈ (byteStepOf prog byte pc).2.one ∨ x ∈ (byteStepOf prog byte pc).2.two ∨
      x ∈ (byteStepOf prog byte pc).2.three) → x < parkedBound prog := by
    intro pc h
    unfold byteStepOf byteStepOne at h
    unfold parkedBound
    cases hins : prog.insts[pc]? with
    | none => simp [hins] at h
    | some ins =>
      rw [hins] at h
      cases ins <;> dsimp only at h <;> try simp at h
      case char => split_ifs at h <;> simp at h
      case anyChar =>
        split_ifs at h <;> simp at h <;> omega
      case cls idx pad =>
        cases hcls : prog.classes[idx]? with
        | none => simp [hcls] at h
        | some cls =>
          rw [hcls] at h
          dsimp only at h
          split_ifs at h <;> simp at h
  rw [byteStepInto_eq] at hx
  simp only [List.mem_flatMap] at hx
  rcases hx with ⟨pc, -, h⟩ | ⟨pc, -, h⟩ | ⟨pc, -, h⟩
  · exact hone pc (Or.inl h)
  · exact hone pc (Or.inr (Or.inl h))
  · exact hone pc (Or.inr (Or.inr h))

/-- Joining stays in the range. -/
lemma ParkedIn.join {carried fresh : List ℕ} (h : ParkedIn prog carried)
    (hfresh : ∀ x ∈ fresh, x < parkedBound prog) : ParkedIn prog (joinDeferred carried fresh) := by
  refine ⟨canonical_joinDeferred h.1 fresh, fun x hx => ?_⟩
  rcases mem_joinDeferred.mp hx with hx | hx
  · exact h.2 x hx
  · exact hfresh x hx

/-- Clearing the tag stays in the range. -/
lemma ParkedIn.secondOfE2 {parked : List ℕ} (h : ParkedIn prog parked) (byte : UInt8) :
    ParkedIn prog (secondOfE2 parked byte) := by
  refine ⟨canonical_secondOfE2 h.1 byte, fun x hx => ?_⟩
  rw [mem_secondOfE2] at hx
  split_ifs at hx
  · exact h.2 x hx
  · obtain ⟨y, hy, rfl⟩ := List.mem_map.mp hx
    have hlt := h.2 y hy
    unfold clearLtPending
    split_ifs <;> omega

variable (split) in
/-- A step stays in the range. -/
lemma InRange.itemAfter {item : StateItem} (h : InRange prog item) (b : UInt8) :
    InRange prog (itemAfter prog split item b) := by
  have hnil : ParkedIn prog [] := ⟨canonical_nil, by simp⟩
  have hfresh := fun x => @byteStepInto_lt prog (closedBefore prog split item b) b x
  have h1 := fun x hx => hfresh x (Or.inl hx)
  have h2 := fun x hx => hfresh x (Or.inr (Or.inl hx))
  have h3 := fun x hx => hfresh x (Or.inr (Or.inr hx))
  have hready : ∀ seeds : List ℕ, (if seeds.isEmpty then []
      else closureSorted prog seeds ⟨some b, false, false⟩) ∈ readySets prog := by
    intro seeds
    split_ifs
    · exact nil_mem_readySets prog
    · exact closureSorted_mem _ _
  unfold Dfa.itemAfter advanceDeferred
  simp only [isContinuation_iff]
  by_cases hcont : 0x80 ≤ b ∧ b ≤ 0xBF
  · simp only [hcont, and_self, decide_true, if_true]
    exact ⟨hready _, (h.two.secondOfE2 b).join h1, h.three.join h2, hnil.join h3⟩
  · simp only [hcont, decide_false, Bool.false_eq_true, if_false]
    exact ⟨hready _, hnil.join h1, hnil.join h2, hnil.join h3⟩

/-! ### Pools in the range -/

/-- All states of a pool are in the range, and it is not poisoned. -/
structure Pool.Sound (prog : Program) (pool : Pool) : Prop where
  inRange : ∀ key ∈ pool.keys.tail, InRange prog key
  poisoned : pool.poisoned = false

/-- A pool with distinct states in the range has few. -/
lemma Pool.Sound.length_le {pool : Pool} (h : pool.Sound prog) (hwk : pool.WellKeyed) :
    pool.keys.length ≤ (itemsInRange prog).card + 1 := by
  have hsub : pool.keys.tail.toFinset ⊆ itemsInRange prog :=
    fun key hkey => (h.inRange key (List.mem_toFinset.mp hkey)).mem
  have hcard := Finset.card_le_card hsub
  rw [List.toFinset_card_of_nodup hwk.nodup, List.length_tail] at hcard
  omega

variable (split flags) in
/-- Interning an item in the range keeps a pool sound. -/
lemma Pool.Sound.internState (hprop : NoPropertyClass prog) {pool : Pool} (h : pool.Sound prog)
    (hwk : pool.WellKeyed) {item : StateItem} (hitem : InRange prog item) :
    (internState prog split flags (internFuel prog) item pool).2.Sound prog := by
  unfold internFuel
  rw [Dfa.internState]
  split_ifs with hempty
  · exact h
  · cases hfind : pool.find (Dfa.flattenKey split item) with
    | some i => exact h
    | none =>
      dsimp only
      rw [classify_eq_noKProperty hprop]
      refine ⟨fun key hkey => ?_, h.poisoned⟩
      have htail : (pool.keys ++ [Dfa.flattenKey split item]).tail =
          pool.keys.tail ++ [Dfa.flattenKey split item] :=
        List.tail_append_of_ne_nil (List.ne_nil_of_length_pos hwk.pos)
      have hkey' : key ∈ (pool.keys ++ [Dfa.flattenKey split item]).tail := hkey
      rw [htail, List.mem_append, List.mem_singleton] at hkey'
      rcases hkey' with hkey' | rfl
      · exact h.inRange key hkey'
      · exact hitem.flattenKey

/-- The item of a state is in the range. -/
lemma Pool.Sound.item {pool : Pool} (h : pool.Sound prog) (hv : pool.Valid prog split flags) {i : ℕ}
    (hi : i < pool.keys.length) : InRange prog (pool.items.getD i {}) := by
  rcases Nat.eq_zero_or_pos i with rfl | hpos
  · rw [hv.zero_item]
    have hnil : ParkedIn prog [] := ⟨canonical_nil, by simp⟩
    exact ⟨nil_mem_readySets prog, hnil, hnil, hnil⟩
  · obtain ⟨key, hkey⟩ : ∃ key, pool.keys[i]? = some key := ⟨_, List.getElem?_eq_getElem hi⟩
    have hslot := hv.slots i key hpos hkey
    have hmem : key ∈ pool.keys.tail := by
      obtain ⟨j, rfl⟩ : ∃ j, i = j + 1 := ⟨i - 1, by omega⟩
      rw [← List.getElem?_tail] at hkey
      exact List.mem_of_getElem? hkey
    have hk := h.inRange key hmem
    have hr : (pool.items.getD i {}).ready = key.ready := hslot.item.ready.trans (itemOf_ready key)
    have hd : (pool.items.getD i {}).deferred = key.deferred :=
      hslot.item.deferred.trans (itemOf_deferred key)
    exact ⟨hr ▸ hk.ready, hd ▸ hk.one, hd ▸ hk.two, hd ▸ hk.three⟩

section Build

variable (hprop : NoPropertyClass prog) (hno : split = false → NoWordBoundary prog)
include hprop hno

/-- Filling a row keeps a pool sound. -/
lemma Pool.Sound.expandBytes {pool : Pool} (h : pool.Sound prog) {item : StateItem}
    (hitem : InRange prog item) (bytes : List UInt8) {exp : Expander}
    (row : (UInt8 → TxWord) × (UInt8 → Bool)) (hready : exp.Ready prog split item)
    (hwk : pool.WellKeyed)
    (hfirst : split = false → textStartKeys prog split flags ⊆ pool.keys.tail) :
    (expandBytes prog split flags item bytes exp pool row).2.2.Sound prog := by
  induction bytes generalizing exp pool row with
  | nil => exact h
  | cons byte bytes ih =>
    obtain ⟨exp', hstep, hready'⟩ := Expander.step_spec flags hready byte pool
    have hsound := h.internState split flags hprop hwk (hitem.itemAfter split byte)
    rcases hintern : Dfa.internState prog split flags (internFuel prog)
      (itemAfter prog split item byte) pool with ⟨n, pool₁⟩
    rw [hintern] at hstep hsound
    obtain ⟨hext, -⟩ := internState_itemAfter hno hwk hfirst hintern hsound.poisoned
    simp only [Dfa.expandBytes, hstep]
    rw [if_neg (by rw [hsound.poisoned]; decide)]
    exact ih hsound _ hready' hext.wellKeyed (hext.grows.first hwk hfirst)

/-- Expanding a row keeps a pool sound, and puts the new states on the queue. -/
lemma Pool.Sound.expandRow {pool : Pool} {i : ℕ} {work : List ℕ} (h : pool.Sound prog)
    (hq : pool.Queued prog split flags) (hwork : pool.work = i :: work) (exp : Expander) :
    ∃ exp' pool', expandRow prog split flags i { pool with work := work } exp = (exp', pool') ∧
      pool'.Sound prog ∧ pool'.keys.length + work.length = pool.keys.length + pool'.work.length := by
  have hi := hq.work_pos i (by rw [hwork]; exact List.mem_cons_self)
  have hwk := hq.valid.wellKeyed.taken i work
  have hready : (exp.prepare prog split (pool.items.getD i {})).Ready prog split
      (pool.items.getD i {}) := Expander.prepare_ready exp _
  have hitem := h.item hq.valid hi.2
  have htaken : (pool.taken i work).Sound prog := ⟨h.inRange, h.poisoned⟩
  have hsound := htaken.expandBytes hprop hno hitem allBytes (fun _ => .plain 0, fun _ => false)
    hready hwk hq.valid.first
  have hspec := expandBytes_spec hno (pool.items.getD i {}) allBytes
    (exp.prepare prog split (pool.items.getD i {})) (pool.taken i work)
    (fun _ => .plain 0, fun _ => false) hready hwk hq.valid.first h.poisoned
  rcases hrun : Dfa.expandBytes prog split flags (pool.items.getD i {}) allBytes
    (exp.prepare prog split (pool.items.getD i {})) (pool.taken i work)
    (fun _ => .plain 0, fun _ => false) with ⟨_ | row', exp', pool'⟩
  · rw [hrun] at hspec hsound
    exact absurd (hsound.poisoned.symm.trans hspec) (by decide)
  · rw [hrun] at hspec hsound
    obtain ⟨-, hext, -⟩ := hspec
    obtain ⟨new, hnew, hnodup, hmemNew⟩ : ∃ new, pool'.work = new ++ work ∧ new.Nodup ∧
        ∀ j, j ∈ new ↔ pool.keys.length ≤ j ∧ j < pool'.keys.length := hext.grows.work
    have hlen : new.length = pool'.keys.length - pool.keys.length := by
      have hset : new.toFinset = Finset.Ico pool.keys.length pool'.keys.length := by
        ext j
        rw [List.mem_toFinset, hmemNew, Finset.mem_Ico]
      rw [← List.toFinset_card_of_nodup hnodup, hset, Nat.card_Ico]
    have hle : pool.keys.length ≤ pool'.keys.length := hext.grows.keys.length_le
    unfold Pool.taken at hrun
    unfold Dfa.expandRow
    dsimp only
    rw [hrun]
    refine ⟨_, _, rfl, ⟨hsound.inRange, hsound.poisoned⟩, ?_⟩
    show pool'.keys.length + work.length = pool.keys.length + pool'.work.length
    rw [hnew, List.length_append, hlen]
    omega

/-- The loop of the build ends with a table that is not poisoned. -/
lemma buildLoop_ends {starts : Starts} {n : ℕ} {pool : Pool} (exp : Expander)
    (hq : pool.Queued prog split flags) (hstarts : pool.StartsOk prog split flags starts)
    (h : pool.Sound prog)
    (hn : (itemsInRange prog).card + 1 - pool.keys.length + pool.work.length < n) :
    ∃ dfa, buildLoop prog split flags none starts n pool exp = some (.table dfa) ∧
      dfa.poisoned = false := by
  induction n generalizing pool exp with
  | zero => omega
  | succ n ih =>
    unfold buildLoop
    cases hwork : pool.work with
    | nil =>
      refine ⟨_, rfl, ?_⟩
      exact h.poisoned
    | cons i work =>
      obtain ⟨exp', pool', hrow, hsound, hlen⟩ := h.expandRow hprop hno hq hwork exp
      have hspec := expandRow_spec hno hq hwork exp
      rw [hrow] at hspec
      obtain ⟨hqueued, hkeys⟩ := hspec.resolve_left (by rw [hsound.poisoned]; decide)
      have hle := hsound.length_le hqueued.valid.wellKeyed
      rw [hwork, List.length_cons] at hn
      dsimp only
      rw [Option.any_none, if_neg (by decide), hrow]
      dsimp only
      rw [if_neg (by rw [hsound.poisoned]; decide)]
      exact ih exp' hqueued (hstarts.of_keys hkeys) hsound (by have := hkeys.length_le; omega)

end Build

variable (split flags) in
/-- Interning keeps the keys of a pool distinct. -/
lemma Pool.WellKeyed.internState (hprop : NoPropertyClass prog) {pool : Pool}
    (hwk : pool.WellKeyed) (item : StateItem) :
    (internState prog split flags (internFuel prog) item pool).2.WellKeyed := by
  unfold internFuel
  rw [Dfa.internState]
  split_ifs with hempty
  · exact hwk
  · cases hfind : pool.find (flattenKey split item) with
    | some i => exact hwk
    | none =>
      dsimp only
      rw [classify_eq_noKProperty hprop]
      have hlive : (flattenKey split item).isEmpty = false := by
        simpa [StateItem.isEmpty] using hempty
      obtain ⟨hstates, hitems, hpos, hnodup, hall⟩ :=
        @Pool.WellKeyed.reserve pool hwk (freshRow prog item.ready item.attr) _
          (Pool.find_eq_none hfind) hlive
      exact ⟨(List.length_modify ..).trans hstates, (List.length_set ..).trans hitems, hpos, hnodup,
        hall⟩

/-- Seeding the entry states makes a sound pool. -/
lemma seedStarts_sound (hprop : NoPropertyClass prog) {starts : Starts} {pool : Pool}
    (h : seedStarts prog split flags Pool.new.reset = (starts, pool)) : pool.Sound prog := by
  unfold seedStarts seedStart at h
  have hzero : Pool.new.reset.Sound prog := ⟨fun key hkey => absurd hkey List.not_mem_nil, rfl⟩
  have hwk₁ := wellKeyed_reset.internState split flags hprop (startItem prog .textStart)
  have hwk₂ := hwk₁.internState split flags hprop (startItem prog .word)
  have h₁ := hzero.internState split flags hprop wellKeyed_reset (inRange_startItem .textStart)
  have h₂ := h₁.internState split flags hprop hwk₁ (inRange_startItem .word)
  have h₃ := h₂.internState split flags hprop hwk₂ (inRange_startItem .nonWord)
  obtain ⟨-, rfl⟩ := Prod.mk.inj h
  exact h₃

/-- More turns than the build needs change nothing. -/
lemma buildLoop_mono {starts : Starts} {n m : ℕ} (hnm : n ≤ m) {pool : Pool} {exp : Expander}
    {out : CappedDfa} (h : buildLoop prog split flags none starts n pool exp = some out) :
    buildLoop prog split flags none starts m pool exp = some out := by
  induction n generalizing m pool exp with
  | zero => exact absurd h (by simp [buildLoop])
  | succ n ih =>
    obtain ⟨m, rfl⟩ : ∃ m', m = m' + 1 := ⟨m - 1, by omega⟩
    unfold buildLoop at h ⊢
    cases hwork : pool.work with
    | nil =>
      rw [hwork] at h
      exact h
    | cons i work =>
      rw [hwork] at h
      dsimp only at h ⊢
      rw [Option.any_none, if_neg (by decide)] at h ⊢
      split_ifs at h ⊢ with hpoison
      · exact h
      · exact ih (by omega) h

/-- More turns than the build needs change nothing. -/
lemma build_mono {prog : SearchProgram} {n m : ℕ} (hnm : n ≤ m) {out : CappedDfa}
    (h : build prog flags none n = some out) : build prog flags none m = some out := by
  unfold build at h ⊢
  dsimp only at h ⊢
  split_ifs at h ⊢ with hpoison
  · exact h
  · exact buildLoop_mono hnm h

/-- Without property classes the build ends, with a table that is not poisoned. -/
theorem build_ends {prog : SearchProgram} (hprop : NoPropertyClass prog.toProgram) (flags : UInt8) :
    ∃ n dfa, build prog flags none n = some (.table dfa) ∧ dfa.poisoned = false := by
  have hno : progUsesWordBoundary prog = false → NoWordBoundary prog.toProgram :=
    noWordBoundary_of prog
  rcases hseed : seedStarts prog.toProgram (progUsesWordBoundary prog) flags Pool.new.reset with
    ⟨starts, pool⟩
  have hsound := seedStarts_sound hprop hseed
  obtain ⟨hqueued, hstarts⟩ := seedStarts_queued hno hseed hsound.poisoned
  obtain ⟨dfa, hrun, hpoison⟩ := buildLoop_ends hprop hno .new hqueued hstarts hsound
    (Nat.lt_succ_self _)
  refine ⟨((itemsInRange prog.toProgram).card + 1 - pool.keys.length + pool.work.length).succ, dfa,
    ?_, hpoison⟩
  unfold build
  dsimp only
  rw [hseed]
  dsimp only
  rw [if_neg (by rw [hsound.poisoned]; decide)]
  exact hrun

end Torajs.Regex.Dfa
