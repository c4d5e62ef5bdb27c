import ToraJs.Regex.Dfa.Build
import ToraJs.Regex.Dfa.Subset
import Mathlib.Data.List.GetD
import Mathlib.Data.Finset.Sort
import Mathlib.Data.Finset.Powerset

/-!
# Pools represent the automaton

What interning keeps: a pool grows at its end, its keys stay distinct, and a slot that is
complete says of its state what the automaton says.  Nothing here depends on the slots that
were there before, so the facts hold while a slot is under construction.
-/

namespace Torajs.Regex.Dfa

/-! ### Indices and states -/

/-- Index `i` of a pool stands for state `q`. -/
def Pool.Rep (pool : Pool) (i : ℕ) : Option StateItem → Prop
  | none => i = 0
  | some key => 0 < i ∧ pool.keys[i]? = some key

/-- The vectors of a pool are of one length, and the keys behind the dead state are
distinct and not empty. -/
structure Pool.WellKeyed (pool : Pool) : Prop where
  states : pool.states.length = pool.keys.length
  items : pool.items.length = pool.keys.length
  pos : 0 < pool.keys.length
  nodup : pool.keys.tail.Nodup
  live : ∀ key ∈ pool.keys.tail, key.isEmpty = false

/-- A pool of the same keys represents the same states. -/
lemma Pool.Rep.of_keys {pool pool' : Pool} {i : ℕ} {q : Option StateItem} (h : pool.Rep i q)
    (hkeys : pool.keys <+: pool'.keys) : pool'.Rep i q := by
  cases q with
  | none => exact h
  | some key =>
    obtain ⟨hlt, -⟩ := List.getElem?_eq_some_iff.mp h.2
    obtain ⟨new, hnew⟩ := hkeys
    exact ⟨h.1, by rw [← hnew, List.getElem?_append_left hlt, h.2]⟩

/-- A smaller pool represents the states of its indices. -/
lemma Pool.Rep.of_lt {pool pool' : Pool} {i : ℕ} {q : Option StateItem} (h : pool'.Rep i q)
    (hkeys : pool.keys <+: pool'.keys) (hi : i < pool.keys.length) : pool.Rep i q := by
  cases q with
  | none => exact h
  | some key =>
    obtain ⟨new, hnew⟩ := hkeys
    have hget := h.2
    rw [← hnew, List.getElem?_append_left hi] at hget
    exact ⟨h.1, hget⟩

lemma Pool.Rep.lt {pool : Pool} (hwk : pool.WellKeyed) {i : ℕ} {q : Option StateItem}
    (h : pool.Rep i q) : i < pool.keys.length := by
  cases q with
  | none =>
    obtain rfl : i = 0 := h
    exact hwk.pos
  | some key => exact (List.getElem?_eq_some_iff.mp h.2).choose

/-- An index stands for one state. -/
lemma Pool.Rep.left_unique {pool : Pool} {i : ℕ} {q q' : Option StateItem} (h : pool.Rep i q)
    (h' : pool.Rep i q') : q = q' := by
  cases q with
  | none =>
    obtain rfl : i = 0 := h
    cases q' with
    | none => rfl
    | some key => exact absurd h'.1 (lt_irrefl 0)
  | some key =>
    cases q' with
    | none =>
      obtain rfl : i = 0 := h'
      exact absurd h.1 (lt_irrefl 0)
    | some key' => rw [← h.2, ← h'.2]

/-- A state has one index. -/
lemma Pool.Rep.right_unique {pool : Pool} (hwk : pool.WellKeyed) {i j : ℕ} {q : Option StateItem}
    (hi : pool.Rep i q) (hj : pool.Rep j q) : i = j := by
  cases q with
  | none =>
    obtain rfl : i = 0 := hi
    obtain rfl : j = 0 := hj
    rfl
  | some key =>
    obtain ⟨i, rfl⟩ := Nat.exists_eq_add_one.mpr hi.1
    obtain ⟨j, rfl⟩ := Nat.exists_eq_add_one.mpr hj.1
    have hlt := hi.lt hwk
    have heq : pool.keys.tail[i]? = pool.keys.tail[j]? := by
      rw [List.getElem?_tail, List.getElem?_tail, hi.2, hj.2]
    have hij := (List.getElem?_inj (i := i) (by rw [List.length_tail]; omega) hwk.nodup).mp heq
    rw [hij]

/-- A key that is found stands at the index. -/
lemma Pool.find_eq_some {pool : Pool} {key : StateItem} {i : ℕ} (h : pool.find key = some i) :
    0 < i ∧ pool.keys[i]? = some key := by
  obtain ⟨j, hj, rfl⟩ := Option.map_eq_some_iff.mp h
  obtain ⟨hlt, hhit, -⟩ := List.findIdx?_eq_some_iff_getElem.mp hj
  refine ⟨Nat.succ_pos j, ?_⟩
  rw [← List.getElem?_tail, List.getElem?_eq_getElem hlt, beq_iff_eq.mp hhit]

/-- A key that is not found is new. -/
lemma Pool.find_eq_none {pool : Pool} {key : StateItem} (h : pool.find key = none) :
    key ∉ pool.keys.tail := by
  intro hmem
  have hnone := List.findIdx?_eq_none_iff.mp (Option.map_eq_none_iff.mp h) key hmem
  simp at hnone

/-- A key behind the dead state is found. -/
lemma Pool.find_isSome {pool : Pool} {key : StateItem} (h : key ∈ pool.keys.tail) :
    ∃ i, pool.find key = some i := by
  cases hf : pool.find key with
  | some i => exact ⟨i, rfl⟩
  | none => exact absurd h (Pool.find_eq_none hf)

/-! ### Growth -/

/-- `pool'` has the slots of `pool`, unchanged, and new ones that are queued. -/
structure Pool.Grows (pool pool' : Pool) : Prop where
  keys : pool.keys <+: pool'.keys
  states_len : pool'.states.length = pool'.keys.length
  items_len : pool'.items.length = pool'.keys.length
  rows : ∀ i < pool.keys.length, rowAt pool'.states i = rowAt pool.states i
  items : ∀ i < pool.keys.length, pool'.items.getD i {} = pool.items.getD i {}
  work : ∃ new, pool'.work = new ++ pool.work ∧ new.Nodup ∧
    ∀ i, i ∈ new ↔ pool.keys.length ≤ i ∧ i < pool'.keys.length
  poisoned : pool.poisoned = true → pool'.poisoned = true

lemma Pool.Grows.refl {pool : Pool} (hs : pool.states.length = pool.keys.length)
    (hi : pool.items.length = pool.keys.length) : pool.Grows pool where
  keys := List.prefix_rfl
  states_len := hs
  items_len := hi
  rows _ _ := rfl
  items _ _ := rfl
  work := ⟨[], rfl, List.nodup_nil, fun i => by simp⟩
  poisoned := id

/-- A poisoned pool has not shrunk. -/
lemma Pool.Grows.poison {pool pool' : Pool} (h : pool.Grows pool') :
    pool.Grows { pool' with poisoned := true } :=
  ⟨h.keys, h.states_len, h.items_len, h.rows, h.items, h.work, fun _ => rfl⟩

lemma Pool.Grows.trans {p p' p'' : Pool} (h : p.Grows p') (h' : p'.Grows p'') : p.Grows p'' where
  keys := h.keys.trans h'.keys
  states_len := h'.states_len
  items_len := h'.items_len
  rows i hi := by rw [h'.rows i (hi.trans_le h.keys.length_le), h.rows i hi]
  items i hi := by rw [h'.items i (hi.trans_le h.keys.length_le), h.items i hi]
  work := by
    obtain ⟨new, hnew, hnodup, hmem⟩ := h.work
    obtain ⟨new', hnew', hnodup', hmem'⟩ := h'.work
    have hle := h.keys.length_le
    have hle' := h'.keys.length_le
    refine ⟨new' ++ new, by rw [hnew', hnew, List.append_assoc], ?_, fun i => ?_⟩
    · rw [List.nodup_append]
      refine ⟨hnodup', hnodup, fun i hi j hj => ?_⟩
      have := (hmem' i).mp hi
      have := (hmem j).mp hj
      omega
    · rw [List.mem_append, hmem', hmem]
      omega
  poisoned := fun hp => h'.poisoned (h.poisoned hp)

lemma rowAt_append_left {states : List DfaState} {new : List DfaState} {i : ℕ}
    (h : i < states.length) : rowAt (states ++ new) i = rowAt states i :=
  List.getD_append _ _ _ _ h

/-- A row that is not the modified one. -/
lemma rowAt_modify_of_ne {states : List DfaState} {f : DfaState → DfaState} {i j : ℕ} (h : j ≠ i) :
    rowAt (states.modify i f) j = rowAt states j := by
  rw [rowAt, rowAt, List.getD_eq_getElem?_getD, List.getD_eq_getElem?_getD,
    List.getElem?_modify_ne _ _ (Ne.symm h)]

/-- The modified row. -/
lemma rowAt_modify_self {states : List DfaState} {f : DfaState → DfaState} {i : ℕ}
    (h : i < states.length) : rowAt (states.modify i f) i = f (rowAt states i) := by
  rw [rowAt, rowAt, List.getD_eq_getElem _ _ (by rwa [List.length_modify]),
    List.getD_eq_getElem _ _ h, List.getElem_modify_eq]

lemma item_set_of_ne {items : List StateItem} {item : StateItem} {i j : ℕ} (h : j ≠ i) :
    (items.set i item).getD j {} = items.getD j {} := by
  rw [List.getD_eq_getElem?_getD, List.getD_eq_getElem?_getD, List.getElem?_set_ne (Ne.symm h)]

lemma item_set_self {items : List StateItem} {item : StateItem} {i : ℕ} (h : i < items.length) :
    (items.set i item).getD i {} = item := by
  rw [List.getD_eq_getElem _ _ (by rwa [List.length_set]), List.getElem_set_self]

/-- A pool grows by a slot that is reserved, then by others, and then the slot is complete. -/
lemma Pool.Grows.complete {pool pool' : Pool} {row : DfaState} {key : StateItem}
    (hs : pool.states.length = pool.keys.length) (hi : pool.items.length = pool.keys.length)
    (h : (pool.reserve row key).Grows pool') (pending : PendingClass) (item : StateItem) :
    pool.Grows (pool'.complete pool.states.length pending item) := by
  have hkeys : (pool.reserve row key).keys = pool.keys ++ [key] := rfl
  have hlen : (pool.reserve row key).keys.length = pool.keys.length + 1 := by simp [hkeys]
  have hle := h.keys.length_le
  refine ⟨?_, ?_, ?_, ?_, ?_, ?_, ?_⟩
  · exact (List.prefix_append pool.keys [key]).trans h.keys
  · show (pool'.states.modify _ _).length = pool'.keys.length
    rw [List.length_modify, h.states_len]
  · show (pool'.items.set _ _).length = pool'.keys.length
    rw [List.length_set, h.items_len]
  · intro i hlt
    show rowAt (pool'.states.modify _ _) i = _
    rw [rowAt_modify_of_ne (by omega), h.rows i (by omega)]
    exact rowAt_append_left (by omega)
  · intro i hlt
    show (pool'.items.set _ _).getD i {} = _
    rw [item_set_of_ne (by omega), h.items i (by omega)]
    exact List.getD_append _ _ _ _ (by omega)
  · obtain ⟨new, hnew, hnodup, hmem⟩ := h.work
    refine ⟨pool.states.length :: new, by simp [Pool.complete, hnew, Pool.reserve], ?_, fun i => ?_⟩
    · refine List.nodup_cons.mpr ⟨fun hin => ?_, hnodup⟩
      have := (hmem _).mp hin
      omega
    · show _ ↔ pool.keys.length ≤ i ∧ i < pool'.keys.length
      rw [List.mem_cons, hmem]
      omega
  · exact fun hp => h.poisoned hp

section Intern

variable (prog : Program) (split : Bool) (flags : UInt8)

/-- Interning makes a pool grow. -/
lemma internState_grows (fuel : ℕ) (item : StateItem) (pool : Pool)
    (hs : pool.states.length = pool.keys.length) (hi : pool.items.length = pool.keys.length) :
    pool.Grows (internState prog split flags fuel item pool).2 := by
  induction fuel generalizing item pool with
  | zero => exact (Pool.Grows.refl hs hi).poison
  | succ fuel ih =>
    unfold internState
    split_ifs with hempty
    · exact Pool.Grows.refl hs hi
    · cases hfind : pool.find (flattenKey split item) with
      | some i => exact Pool.Grows.refl hs hi
      | none =>
        have hrs : ∀ row key, (pool.reserve row key).states.length =
            (pool.reserve row key).keys.length := by simp [Pool.reserve, hs]
        have hri : ∀ row key, (pool.reserve row key).items.length =
            (pool.reserve row key).keys.length := by simp [Pool.reserve, hi]
        dsimp only
        cases hclass : classifyKpropertyShape prog item.ready item.deferred flags with
        | noKProperty => exact (Pool.Grows.refl (hrs _ _) (hri _ _)).complete hs hi _ _
        | unserveable =>
          have hgrows := (Pool.Grows.refl (hrs (freshRow prog item.ready item.attr)
            (flattenKey split item)) (hri _ _)).poison
          exact hgrows.complete hs hi _ _
        | shape classIdx yesSeeds => exact (ih _ _ (hrs _ _) (hri _ _)).complete hs hi _ _

/-! ### Complete slots -/

/-- The slot `i` says of the state `key` what the automaton says, its transitions apart. -/
structure Pool.SlotOk (pool : Pool) (i : ℕ) (key : StateItem) : Prop where
  folded : split = false → key.attr = .textStart
  item : Alike split (pool.items.getD i {}) (itemOf prog split flags key)
  accept : (rowAt pool.states i).isAccept = pcSetIsAccept prog key.ready
  acceptAtEnd : (rowAt pool.states i).isAcceptAtEnd =
    (subsetAutomaton prog split flags).acceptAtEnd key
  pending : (rowAt pool.states i).pendingClass.Agrees pool.Rep (pendingOf prog split flags key)

/-- No transition of the row is filled. -/
def FreshRow (row : DfaState) : Prop :=
  row.transitions = (fun _ => .plain 0) ∧ row.acceptBeforeByte = fun _ => false

/-- The keys of the text start are in the pool, or the item is one of theirs. -/
def TextStartFirst (pool final : Pool) (item : StateItem) : Prop :=
  split = false →
    item.attr ≠ .textStart ∧ textStartKeys prog split flags ⊆ pool.keys.tail ∨
    item.attr = .textStart ∧ final.keys.tail ⊆ textStartKeys prog split flags

/-- A pool that grows by complete slots with fresh rows. -/
structure Pool.Extends (pool pool' : Pool) : Prop where
  grows : pool.Grows pool'
  wellKeyed : pool'.WellKeyed
  slots : ∀ i key, pool.keys.length ≤ i → pool'.keys[i]? = some key →
    pool'.SlotOk prog split flags i key ∧ FreshRow (rowAt pool'.states i)

variable {prog split flags}

/-- A slot is complete in a pool with its row and its item. -/
lemma Pool.SlotOk.of_eq {pool pool' : Pool} {i : ℕ} {key : StateItem}
    (h : pool.SlotOk prog split flags i key) (hkeys : pool.keys <+: pool'.keys)
    (hrow : rowAt pool'.states i = rowAt pool.states i)
    (hitem : pool'.items.getD i {} = pool.items.getD i {}) :
    pool'.SlotOk prog split flags i key := by
  refine ⟨h.folded, by rw [hitem]; exact h.item, by rw [hrow]; exact h.accept,
    by rw [hrow]; exact h.acceptAtEnd, ?_⟩
  rw [hrow]
  exact h.pending.mono fun hrep => hrep.of_keys hkeys

lemma Pool.SlotOk.grows {pool pool' : Pool} {i : ℕ} {key : StateItem}
    (h : pool.SlotOk prog split flags i key) (hgrows : pool.Grows pool')
    (hi : i < pool.keys.length) : pool'.SlotOk prog split flags i key :=
  h.of_eq hgrows.keys (hgrows.rows i hi) (hgrows.items i hi)

lemma Pool.Extends.refl {pool : Pool} (h : pool.WellKeyed) :
    pool.Extends prog split flags pool where
  grows := Pool.Grows.refl h.states h.items
  wellKeyed := h
  slots i key hi hkey := by
    obtain ⟨hlt, -⟩ := List.getElem?_eq_some_iff.mp hkey
    omega

lemma Pool.Extends.trans {p p' p'' : Pool} (h : p.Extends prog split flags p')
    (h' : p'.Extends prog split flags p'') : p.Extends prog split flags p'' where
  grows := h.grows.trans h'.grows
  wellKeyed := h'.wellKeyed
  slots i key hi hkey := by
    rcases lt_or_ge i p'.keys.length with hlt | hge
    · obtain ⟨new, hnew⟩ := h'.grows.keys
      rw [← hnew, List.getElem?_append_left hlt] at hkey
      obtain ⟨hslot, hfresh⟩ := h.slots i key hi hkey
      exact ⟨hslot.grows h'.grows hlt, by rw [h'.grows.rows i hlt]; exact hfresh⟩
    · exact h'.slots i key hge hkey

/-- Reserving a slot for a new key. -/
lemma Pool.WellKeyed.reserve {pool : Pool} (h : pool.WellKeyed) {row : DfaState} {key : StateItem}
    (hnew : key ∉ pool.keys.tail) (hlive : key.isEmpty = false) :
    (pool.reserve row key).WellKeyed := by
  have htail : (pool.reserve row key).keys.tail = pool.keys.tail ++ [key] :=
    List.tail_append_of_ne_nil (List.ne_nil_of_length_pos h.pos)
  refine ⟨by simp [Pool.reserve, h.states], by simp [Pool.reserve, h.items],
    by simp [Pool.reserve], ?_, ?_⟩
  · rw [htail, List.nodup_append]
    refine ⟨h.nodup, List.nodup_singleton key, fun k hk k' hk' => ?_⟩
    rintro rfl
    exact hnew (List.mem_singleton.mp hk' ▸ hk)
  · intro k hk
    rw [htail, List.mem_append, List.mem_singleton] at hk
    rcases hk with hk | rfl
    · exact h.live k hk
    · exact hlive

/-- A slot that was reserved for `item`, and completed after other slots. -/
lemma Pool.Extends.complete (hno : split = false → NoWordBoundary prog) {pool pool' : Pool}
    {item : StateItem} (hwk : pool.WellKeyed)
    (h : (pool.reserve (freshRow prog item.ready item.attr)
      (flattenKey split item)).Extends prog split flags pool') {pending : PendingClass}
    (hpend : pending.Agrees pool'.Rep (pendingOf prog split flags (flattenKey split item)))
    (hattr : split = false →
      (item.attr = .textStart ↔ flattenKey split item ∈ textStartKeys prog split flags)) :
    pool.Extends prog split flags (pool'.complete pool.states.length pending item) := by
  have hlen : (pool.reserve (freshRow prog item.ready item.attr)
      (flattenKey split item)).keys.length = pool.keys.length + 1 := by simp [Pool.reserve]
  have hle := h.grows.keys.length_le
  have hstates := h.grows.states_len
  have hitems := h.grows.items_len
  have hwk' := h.wellKeyed
  refine ⟨h.grows.complete hwk.states hwk.items pending item, ⟨?_, ?_, hwk'.pos, hwk'.nodup,
    hwk'.live⟩, fun i key hi hkey => ?_⟩
  · show (pool'.states.modify _ _).length = _
    rw [List.length_modify, hstates]
    rfl
  · show (pool'.items.set _ _).length = _
    rw [List.length_set, hitems]
    rfl
  · have hstart := hwk.states
    rcases eq_or_ne i pool.states.length with rfl | hne
    · have hrow : rowAt (pool'.complete pool.states.length pending item).states pool.states.length =
          { freshRow prog item.ready item.attr with pendingClass := pending } := by
        show rowAt (pool'.states.modify _ _) _ = _
        rw [rowAt_modify_self (by omega), h.grows.rows _ (by omega)]
        show { rowAt (pool.states ++ [_]) _ with pendingClass := pending } = _
        rw [rowAt, List.getD_append_right _ _ _ _ le_rfl, Nat.sub_self]
        rfl
      have hitem : (pool'.complete pool.states.length pending item).items.getD pool.states.length {} =
          item := item_set_self (by omega)
      have hkey' : key = flattenKey split item := by
        obtain ⟨new, hnew⟩ := h.grows.keys
        have hget : pool'.keys[pool.states.length]? = some key := hkey
        rw [← hnew, List.getElem?_append_left (by omega)] at hget
        simpa [Pool.reserve, hstart] using hget.symm
      subst hkey'
      have halike := alike_itemOf hattr
      refine ⟨⟨by rintro rfl; rfl, by rw [hitem]; exact halike, ?_, ?_, ?_⟩, ?_⟩
      · rw [hrow, flattenKey_ready]
        rfl
      · rw [hrow]
        show pcSetIsAcceptAtEnd prog item.ready item.attr = _
        rw [halike.acceptAtEnd hno]
        simp [subsetAutomaton]
      · rw [hrow]
        exact hpend
      · rw [hrow]
        exact ⟨rfl, rfl⟩
    · obtain ⟨hslot, hfresh⟩ := h.slots i key (by omega) hkey
      have hrow : rowAt (pool'.complete pool.states.length pending item).states i =
          rowAt pool'.states i := rowAt_modify_of_ne hne
      refine ⟨hslot.of_eq List.prefix_rfl hrow (item_set_of_ne hne), by rw [hrow]; exact hfresh⟩

/-- A new key is one of the text start's exactly where its item is. -/
lemma TextStartFirst.attr_iff {pool final : Pool} {item : StateItem} {row : DfaState}
    {pending : PendingClass} {i : ℕ} (hwk : pool.WellKeyed)
    (h : TextStartFirst prog split flags pool (final.complete i pending item) item)
    (hnew : flattenKey split item ∉ pool.keys.tail)
    (hpre : (pool.reserve row (flattenKey split item)).keys <+: final.keys) :
    split = false →
      (item.attr = .textStart ↔ flattenKey split item ∈ textStartKeys prog split flags) := by
  intro hsplit
  have hmem : flattenKey split item ∈ final.keys.tail := by
    obtain ⟨new, hnew⟩ := hpre
    have htail : final.keys.tail = pool.keys.tail ++ [flattenKey split item] ++ new := by
      rw [← hnew, ← List.tail_append_of_ne_nil (List.ne_nil_of_length_pos hwk.pos),
        ← List.tail_append_of_ne_nil (by simp)]
      rfl
    rw [htail]
    simp
  rcases h hsplit with ⟨hne, hsub⟩ | ⟨heq, hsub⟩
  · exact iff_of_false hne fun hts => hnew (hsub hts)
  · exact iff_of_true heq (hsub hmem)

/-- A state that is in the pool is found. -/
lemma internState_of_mem {fuel : ℕ} {item : StateItem} {pool : Pool}
    (hempty : item.isEmpty = false) (hmem : flattenKey split item ∈ pool.keys.tail) :
    ∃ i, internState prog split flags (fuel + 1) item pool = (i, pool) ∧
      pool.Rep i (keyOf split item) := by
  obtain ⟨i, hi⟩ := Pool.find_isSome hmem
  have hkey : keyOf split item = some (flattenKey split item) := if_neg (by simp [hempty])
  refine ⟨i, ?_, hkey ▸ Pool.find_eq_some hi⟩
  simp [internState, hempty, hi]

/-- Interning extends a pool by complete slots, and answers the index of the item's state. -/
lemma internState_spec (hno : split = false → NoWordBoundary prog) (fuel : ℕ) (item : StateItem)
    (pool : Pool) (hwk : pool.WellKeyed)
    (hfirst : TextStartFirst prog split flags pool
      (internState prog split flags fuel item pool).2 item)
    (hpoison : (internState prog split flags fuel item pool).2.poisoned = false) :
    pool.Extends prog split flags (internState prog split flags fuel item pool).2 ∧
      (internState prog split flags fuel item pool).2.Rep
        (internState prog split flags fuel item pool).1 (keyOf split item) := by
  induction fuel generalizing item pool with
  | zero => exact absurd hpoison (by simp [internState])
  | succ fuel ih =>
    have hgrows := internState_grows prog split flags (fuel + 1) item pool hwk.states hwk.items
    cases hempty : item.isEmpty with
    | true =>
      simp only [internState, hempty, if_true]
      exact ⟨Pool.Extends.refl hwk, by simp [keyOf, hempty, Pool.Rep]⟩
    | false =>
      have hkeyOf : keyOf split item = some (flattenKey split item) := if_neg (by simp [hempty])
      cases hfind : pool.find (flattenKey split item) with
      | some i =>
        simp only [internState, hempty, hfind, Bool.false_eq_true, if_false]
        exact ⟨Pool.Extends.refl hwk, hkeyOf ▸ Pool.find_eq_some hfind⟩
      | none =>
        have hnew := Pool.find_eq_none hfind
        have hwk₁ : (pool.reserve (freshRow prog item.ready item.attr)
            (flattenKey split item)).WellKeyed :=
          hwk.reserve hnew (by simpa [StateItem.isEmpty] using hempty)
        have htail : (pool.reserve (freshRow prog item.ready item.attr)
            (flattenKey split item)).keys.tail = pool.keys.tail ++ [flattenKey split item] :=
          List.tail_append_of_ne_nil (List.ne_nil_of_length_pos hwk.pos)
        have hrep : ∀ {pool' : Pool}, (pool.reserve (freshRow prog item.ready item.attr)
            (flattenKey split item)).keys <+: pool'.keys →
              pool'.Rep pool.states.length (keyOf split item) := by
          intro pool' hpre
          rw [hkeyOf]
          have hself : (pool.reserve (freshRow prog item.ready item.attr)
              (flattenKey split item)).Rep pool.states.length (some (flattenKey split item)) := by
            refine ⟨by rw [hwk.states]; exact hwk.pos, ?_⟩
            simp [Pool.reserve, hwk.states]
          exact hself.of_keys hpre
        cases hclass : classifyKpropertyShape prog item.ready item.deferred flags with
        | unserveable => exact absurd hpoison (by simp [internState, hempty, hfind, hclass, Pool.complete])
        | noKProperty =>
          have hrun : internState prog split flags (fuel + 1) item pool =
              (pool.states.length, (pool.reserve (freshRow prog item.ready item.attr)
                (flattenKey split item)).complete pool.states.length .inert item) := by
            simp [internState, hempty, hfind, hclass]
          rw [hrun] at hfirst ⊢
          have hpend : PendingClass.inert.Agrees (pool.reserve (freshRow prog item.ready item.attr)
              (flattenKey split item)).Rep (pendingOf prog split flags (flattenKey split item)) := by
            simp [PendingClass.Agrees, pendingOf, hclass, PendingClass.inert]
          exact ⟨(Pool.Extends.refl hwk₁).complete hno hwk hpend
            (hfirst.attr_iff hwk hnew List.prefix_rfl), hrep List.prefix_rfl⟩
        | shape classIdx yesSeeds =>
          rcases hrec : internState prog split flags fuel (yesItem prog yesSeeds item.attr)
            (pool.reserve (freshRow prog item.ready item.attr) (flattenKey split item)) with ⟨y, pool'⟩
          have hrun : internState prog split flags (fuel + 1) item pool = (pool.states.length,
              pool'.complete pool.states.length ⟨true, classIdx, y, 0⟩ item) := by
            simp [internState, hempty, hfind, hclass, hrec]
          rw [hrun] at hfirst hpoison ⊢
          have hfirst' : TextStartFirst prog split flags (pool.reserve
              (freshRow prog item.ready item.attr) (flattenKey split item)) pool'
                (yesItem prog yesSeeds item.attr) := by
            intro hsplit
            rcases hfirst hsplit with ⟨hne, hsub⟩ | h
            · exact .inl ⟨hne, fun k hk => htail ▸ List.mem_append_left _ (hsub hk)⟩
            · exact .inr h
          have hih := ih (yesItem prog yesSeeds item.attr) _ hwk₁ (by rw [hrec]; exact hfirst')
            (by rw [hrec]; exact hpoison)
          rw [hrec] at hih
          obtain ⟨hext, hyes⟩ := hih
          have hattr := hfirst.attr_iff hwk hnew hext.grows.keys
          have hpend : (PendingClass.mk true classIdx y 0).Agrees pool'.Rep
              (pendingOf prog split flags (flattenKey split item)) := by
            simp only [pendingOf, flattenKey_ready, flattenKey_deferred, hclass]
            rw [← (alike_itemOf hattr).keyOf_yesItem hno]
            exact ⟨rfl, rfl, rfl, hyes⟩
          exact ⟨hext.complete hno hwk hpend hattr, hrep hext.grows.keys⟩

/-- The item of a complete slot has the key of the slot. -/
lemma Pool.SlotOk.keyOf_item {pool : Pool} {i : ℕ} {key : StateItem}
    (h : pool.SlotOk prog split flags i key) (hlive : key.isEmpty = false) :
    keyOf split (pool.items.getD i {}) = some key := by
  have hready : (pool.items.getD i {}).ready = key.ready := by
    rw [h.item.ready, itemOf_ready]
  have hdeferred : (pool.items.getD i {}).deferred = key.deferred := by
    rw [h.item.deferred, itemOf_deferred]
  have hempty : (pool.items.getD i {}).isEmpty = false := by
    rw [StateItem.isEmpty, hready, hdeferred]
    exact hlive
  rw [keyOf, hempty, if_neg (by decide)]
  congr 1
  cases hsplit : split with
  | true =>
    subst hsplit
    rcases h.item.attr with hattr | ⟨habs, -⟩
    · exact StateItem.ext hready hdeferred hattr
    · exact absurd habs (by decide)
  | false => exact StateItem.ext hready hdeferred (h.folded hsplit).symm

/-! ### Valid pools -/

variable (prog split flags) in
/-- A pool between two states of the construction: every slot is complete. -/
structure Pool.Valid (pool : Pool) : Prop where
  wellKeyed : pool.WellKeyed
  first : split = false → textStartKeys prog split flags ⊆ pool.keys.tail
  zero_item : pool.items.getD 0 {} = {}
  zero_row : rowAt pool.states 0 = {}
  slots : ∀ i key, 0 < i → pool.keys[i]? = some key → pool.SlotOk prog split flags i key
  poisoned : pool.poisoned = false

lemma Pool.Valid.extends {pool pool' : Pool} (h : pool.Valid prog split flags)
    (hext : pool.Extends prog split flags pool') (hpoison : pool'.poisoned = false) :
    pool'.Valid prog split flags where
  wellKeyed := hext.wellKeyed
  first hsplit k hk := by
    have hmem := h.first hsplit hk
    obtain ⟨new, hnew⟩ := hext.grows.keys
    rw [← hnew, List.tail_append_of_ne_nil (List.ne_nil_of_length_pos h.wellKeyed.pos)]
    exact List.mem_append_left _ hmem
  zero_item := by rw [hext.grows.items 0 h.wellKeyed.pos, h.zero_item]
  zero_row := by rw [hext.grows.rows 0 h.wellKeyed.pos, h.zero_row]
  slots i key hi hkey := by
    rcases lt_or_ge i pool.keys.length with hlt | hge
    · obtain ⟨new, hnew⟩ := hext.grows.keys
      rw [← hnew, List.getElem?_append_left hlt] at hkey
      exact (h.slots i key hi hkey).grows hext.grows hlt
    · exact (hext.slots i key hge hkey).1
  poisoned := hpoison

/-- A pool without states. -/
lemma wellKeyed_reset : Pool.new.reset.WellKeyed :=
  ⟨rfl, rfl, Nat.one_pos, List.nodup_nil, fun _ h => absurd h List.not_mem_nil⟩

lemma Pool.reset_eq {pool : Pool} (h : pool.poisoned = false) : pool.reset = Pool.new.reset := by
  simp [Pool.reset, Pool.new, h]

/-- An earlier pool is not poisoned where a later one is not. -/
lemma Pool.Grows.not_poisoned {pool pool' : Pool} (h : pool.Grows pool')
    (hpoison : pool'.poisoned = false) : pool.poisoned = false := by
  by_contra hp
  rw [h.poisoned (by simpa using hp)] at hpoison
  exact absurd hpoison (by decide)

/-- Seeding the entry states makes a pool grow. -/
lemma seedStarts_grows {starts : Starts} {pool : Pool}
    (h : seedStarts prog split flags Pool.new.reset = (starts, pool)) :
    Pool.new.reset.Grows pool := by
  unfold seedStarts at h
  have hwk := wellKeyed_reset
  have hgrows₁ := internState_grows prog split flags (internFuel prog) (startItem prog .textStart)
    _ hwk.states hwk.items
  have hgrows₂ := internState_grows prog split flags (internFuel prog) (startItem prog .word)
    _ hgrows₁.states_len hgrows₁.items_len
  have hgrows₃ := internState_grows prog split flags (internFuel prog) (startItem prog .nonWord)
    _ hgrows₂.states_len hgrows₂.items_len
  obtain ⟨-, rfl⟩ := Prod.mk.inj h
  exact (hgrows₁.trans hgrows₂).trans hgrows₃

/-- Seeding the entry states makes a valid pool, with fresh rows. -/
lemma seedStarts_spec (hno : split = false → NoWordBoundary prog) {starts : Starts} {pool : Pool}
    (h : seedStarts prog split flags Pool.new.reset = (starts, pool))
    (hpoison : pool.poisoned = false) :
    pool.Valid prog split flags ∧ Pool.new.reset.Extends prog split flags pool ∧
      pool.Rep starts.start (subsetAutomaton prog split flags).start ∧
      pool.Rep starts.midWord (subsetAutomaton prog split flags).startMidWord ∧
      pool.Rep starts.midNonword (subsetAutomaton prog split flags).startMidNonword := by
  unfold seedStarts at h
  rcases h₁ : seedStart prog split flags .textStart Pool.new.reset with ⟨start, pool₁⟩
  rcases h₂ : seedStart prog split flags .word pool₁ with ⟨midWord, pool₂⟩
  rcases h₃ : seedStart prog split flags .nonWord pool₂ with ⟨midNonword, pool₃⟩
  simp only [h₁, h₂, h₃, Prod.mk.injEq] at h
  obtain ⟨rfl, rfl⟩ := h
  have hwk := wellKeyed_reset
  have hgrows₁ := internState_grows prog split flags (internFuel prog) (startItem prog .textStart)
    _ hwk.states hwk.items
  rw [← seedStart, h₁] at hgrows₁
  have hgrows₂ := internState_grows prog split flags (internFuel prog) (startItem prog .word)
    pool₁ hgrows₁.states_len hgrows₁.items_len
  rw [← seedStart, h₂] at hgrows₂
  have hgrows₃ := internState_grows prog split flags (internFuel prog) (startItem prog .nonWord)
    pool₂ hgrows₂.states_len hgrows₂.items_len
  rw [← seedStart, h₃] at hgrows₃
  have hpoison₂ := hgrows₃.not_poisoned hpoison
  have hpoison₁ := hgrows₂.not_poisoned hpoison₂
  have hkeys : pool₁.keys.tail = textStartKeys prog split flags := by rw [textStartKeys, h₁]
  have hsub : textStartKeys prog split flags ⊆ pool₁.keys.tail := fun k hk => hkeys ▸ hk
  have htail : ∀ {p p' : Pool}, p.Grows p' → 0 < p.keys.length → p.keys.tail ⊆ p'.keys.tail := by
    intro p p' hgrows hpos k hk
    obtain ⟨new, hnew⟩ := hgrows.keys
    rw [← hnew, List.tail_append_of_ne_nil (List.ne_nil_of_length_pos hpos)]
    exact List.mem_append_left _ hk
  have hseed : ∀ {attr i p p'}, seedStart prog split flags attr p = (i, p') → p.WellKeyed →
      TextStartFirst prog split flags p p' (startItem prog attr) → p'.poisoned = false →
      p.Extends prog split flags p' ∧ p'.Rep i (keyOf split (startItem prog attr)) := by
    intro attr i p p' hrun hwkp hfirst hpois
    have hspec := @internState_spec prog split flags hno (internFuel prog) (startItem prog attr)
      p hwkp
    rw [← seedStart, hrun] at hspec
    exact hspec hfirst hpois
  obtain ⟨hext₁, hrep₁⟩ := hseed h₁ hwk (fun _ => .inr ⟨rfl, fun k hk => hkeys ▸ hk⟩) hpoison₁
  obtain ⟨hext₂, hrep₂⟩ := hseed h₂ hext₁.wellKeyed
    (fun _ => .inl ⟨LeftByteAttr.noConfusion, hsub⟩) hpoison₂
  obtain ⟨hext₃, hrep₃⟩ := hseed h₃ hext₂.wellKeyed (fun _ => .inl ⟨LeftByteAttr.noConfusion,
    fun k hk => htail hext₂.grows hext₁.wellKeyed.pos (hsub hk)⟩) hpoison
  have hext := (hext₁.trans hext₂).trans hext₃
  refine ⟨⟨hext.wellKeyed, fun _ => ?_, ?_, ?_, ?_, hpoison⟩, hext,
    hrep₁.of_keys (hext₂.trans hext₃).grows.keys, hrep₂.of_keys hext₃.grows.keys, hrep₃⟩
  · exact fun k hk => htail (hext₂.trans hext₃).grows hext₁.wellKeyed.pos (hsub hk)
  · exact hext.grows.items 0 Nat.one_pos
  · exact hext.grows.rows 0 Nat.one_pos
  · exact fun i key hi hkey => (hext.slots i key hi hkey).1

end Intern

/-! ### The recursion of interning ends -/

section Fuel

variable {prog : Program} {split : Bool} {flags : UInt8}

/-- The program counters of a closure are in the program, each once. -/
def ClosedSet (prog : Program) (pcs : List ℕ) : Prop := pcs.Nodup ∧ ∀ pc ∈ pcs, pc < prog.len

lemma pushPc_closed {acc : List ℕ × List ℕ} (h : ClosedSet prog acc.1) (pc : ℕ) :
    ClosedSet prog (pushPc prog acc pc).1 := by
  unfold pushPc
  split_ifs with hpc
  · refine ⟨List.nodup_append.mpr ⟨h.1, List.nodup_singleton pc, fun a ha b hb => ?_⟩, fun a ha => ?_⟩
    · rintro rfl
      exact hpc.2 (List.mem_singleton.mp hb ▸ ha)
    · rcases List.mem_append.mp ha with ha | ha
      · exact h.2 a ha
      · exact List.mem_singleton.mp ha ▸ hpc.1
  · exact h

lemma foldl_pushPc_closed (pcs : List ℕ) {acc : List ℕ × List ℕ} (h : ClosedSet prog acc.1) :
    ClosedSet prog (pcs.foldl (pushPc prog) acc).1 := by
  induction pcs generalizing acc with
  | nil => exact h
  | cons pc pcs ih => exact ih (pushPc_closed h pc)

lemma closureLoop_closed (ctx : PositionCtx) (wb : Option Bool) (n : ℕ) {acc : List ℕ × List ℕ}
    (h : ClosedSet prog acc.1) : ClosedSet prog (closureLoop prog ctx wb n acc) := by
  induction n generalizing acc with
  | zero => exact h
  | succ n ih =>
    obtain ⟨closed, work⟩ := acc
    cases work with
    | nil => exact h
    | cons pc work => exact ih (@foldl_pushPc_closed prog _ (closed, work) h)

/-- The ready sets that a closure can be. -/
def readySets (prog : Program) : Finset (List ℕ) :=
  (Finset.range prog.len).powerset.image fun s => s.sort (· ≤ ·)

lemma card_readySets_le (prog : Program) : (readySets prog).card ≤ 2 ^ prog.len := by
  refine Finset.card_image_le.trans ?_
  rw [Finset.card_powerset, Finset.card_range]

lemma closureSorted_mem (seeds : List ℕ) (ctx : PositionCtx) :
    closureSorted prog seeds ctx ∈ readySets prog := by
  have hclosed : ClosedSet prog (closureInto prog seeds ctx none) :=
    closureLoop_closed _ _ _ (foldl_pushPc_closed seeds ⟨List.nodup_nil, by simp⟩)
  refine Finset.mem_image.mpr ⟨(closureInto prog seeds ctx none).toFinset, ?_, ?_⟩
  · rw [Finset.mem_powerset]
    intro pc hpc
    exact Finset.mem_range.mpr (hclosed.2 pc (List.mem_toFinset.mp hpc))
  · have hperm := List.perm_insertionSort (· ≤ ·) (closureInto prog seeds ctx none)
    have hsorted := List.pairwise_insertionSort (· ≤ ·) (closureInto prog seeds ctx none)
    unfold closureSorted
    rw [← (List.toFinset_sort (· ≤ ·) (hperm.nodup_iff.mpr hclosed.1)).mpr hsorted,
      List.toFinset_eq_of_perm _ _ hperm]

/-- The ready sets whose key at `attr` is not in the pool. -/
def Pool.unseen (prog : Program) (split : Bool) (pool : Pool) (attr : LeftByteAttr) :
    Finset (List ℕ) :=
  (readySets prog).filter fun ready => flattenKey split ⟨ready, {}, attr⟩ ∉ pool.keys.tail

/-- A reserved key is seen. -/
lemma Pool.unseen_reserve_lt {pool : Pool} (hpos : 0 < pool.keys.length) {row : DfaState}
    {ready : List ℕ} {attr : LeftByteAttr} (hmem : ready ∈ readySets prog)
    (hnew : flattenKey split ⟨ready, {}, attr⟩ ∉ pool.keys.tail) :
    ((pool.reserve row (flattenKey split ⟨ready, {}, attr⟩)).unseen prog split attr).card <
      (pool.unseen prog split attr).card := by
  have htail : (pool.reserve row (flattenKey split ⟨ready, {}, attr⟩)).keys.tail =
      pool.keys.tail ++ [flattenKey split ⟨ready, {}, attr⟩] :=
    List.tail_append_of_ne_nil (List.ne_nil_of_length_pos hpos)
  refine Finset.card_lt_card ((Finset.ssubset_iff_of_subset ?_).mpr ⟨ready, ?_, ?_⟩)
  · intro r hr
    rw [unseen, Finset.mem_filter] at hr ⊢
    exact ⟨hr.1, fun h => hr.2 (htail ▸ List.mem_append_left _ h)⟩
  · exact Finset.mem_filter.mpr ⟨hmem, hnew⟩
  · intro hr
    refine (Finset.mem_filter.mp hr).2 ?_
    rw [htail]
    exact List.mem_append_right _ (List.mem_singleton.mpr rfl)

/-- The recursion through the ready sets of the pending classes ends. -/
lemma internState_succ_ready {fuel : ℕ} {ready : List ℕ} {attr : LeftByteAttr} {pool : Pool}
    (hpos : 0 < pool.keys.length) (hmem : ready ∈ readySets prog)
    (hfuel : (pool.unseen prog split attr).card < fuel) :
    internState prog split flags (fuel + 1) ⟨ready, {}, attr⟩ pool =
      internState prog split flags fuel ⟨ready, {}, attr⟩ pool := by
  induction fuel generalizing ready pool with
  | zero => omega
  | succ fuel ih =>
    unfold internState
    split_ifs with hempty
    · rfl
    · cases hfind : pool.find (flattenKey split ⟨ready, {}, attr⟩) with
      | some i => rfl
      | none =>
        dsimp only
        cases hclass : classifyKpropertyShape prog ready {} flags with
        | noKProperty => rfl
        | unserveable => rfl
        | shape classIdx yesSeeds =>
          have hlt := @Pool.unseen_reserve_lt prog split pool hpos (freshRow prog ready attr) ready
            attr hmem (Pool.find_eq_none hfind)
          have hstep := @ih (closureSorted prog yesSeeds (ctxFor attr))
            (pool.reserve (freshRow prog ready attr) (flattenKey split ⟨ready, {}, attr⟩))
            (by simp [Pool.reserve]) (closureSorted_mem _ _) (by omega)
          unfold yesItem
          dsimp only
          rw [hstep]

/-- One more turn than enough changes nothing. -/
lemma internState_succ {fuel : ℕ} (hfuel : internFuel prog ≤ fuel) (item : StateItem) {pool : Pool} :
    internState prog split flags (fuel + 1) item pool = internState prog split flags fuel item pool := by
  obtain ⟨fuel, rfl⟩ : ∃ f, fuel = f + 1 := Nat.exists_eq_add_one.mpr (lt_of_lt_of_le (Nat.succ_pos _) hfuel)
  unfold internState
  split_ifs with hempty
  · rfl
  · cases hfind : pool.find (flattenKey split item) with
    | some i => rfl
    | none =>
      dsimp only
      cases hclass : classifyKpropertyShape prog item.ready item.deferred flags with
      | noKProperty => rfl
      | unserveable => rfl
      | shape classIdx yesSeeds =>
        have hcard : ∀ pool : Pool, (pool.unseen prog split item.attr).card ≤ 2 ^ prog.len :=
          fun pool => (Finset.card_filter_le _ _).trans (card_readySets_le prog)
        have hlt := hcard (pool.reserve (freshRow prog item.ready item.attr) (flattenKey split item))
        have hstep := @internState_succ_ready prog split flags fuel
          (closureSorted prog yesSeeds (ctxFor item.attr)) item.attr
          (pool.reserve (freshRow prog item.ready item.attr) (flattenKey split item))
          (by simp [Pool.reserve]) (closureSorted_mem _ _) (by unfold internFuel at hfuel; omega)
        unfold yesItem
        dsimp only
        rw [hstep]

/-- More fuel than `internFuel` changes nothing: the bound is never what ends the recursion. -/
theorem internState_fuel {fuel : ℕ} (hfuel : internFuel prog ≤ fuel) (item : StateItem)
    (pool : Pool) : internState prog split flags fuel item pool =
      internState prog split flags (internFuel prog) item pool := by
  induction fuel, hfuel using Nat.le_induction with
  | base => rfl
  | succ fuel hle ih => rw [internState_succ hle, ih]

end Fuel

end Torajs.Regex.Dfa
