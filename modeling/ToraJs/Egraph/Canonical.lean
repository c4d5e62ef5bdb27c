import ToraJs.Egraph.Available
import ToraJs.Egraph.Elaborate

/-!
# The canonical value of each value

The walk makes every pointer lead to a root, and every root stand for itself or for a root
that stands for itself.  On such a table following pointers changes nothing, so what the
e-graph says of a value is a function, `canon`.

Each way to record an instruction changes that function at the instruction's result at
most.
-/

namespace Torajs.Egraph

open ParentForest (findLoop compressLoop)

/-- **The table of values is flat**: `canon` is what `opt_value` says. -/
structure Graph.Flat (e : Graph) (canon : ValueId → ValueId) : Prop where
  root : ∀ v < e.len, ∃ r, e.leader v = some r ∧ e.leader r = some r ∧
    e.valueToOptValue r = some (canon v)
  lt : ∀ v < e.len, canon v < e.len
  leader_canon : ∀ v < e.len, e.leader (canon v) = some (canon v)
  opt_canon : ∀ v < e.len, e.valueToOptValue (canon v) = some (canon v)

namespace Graph.Flat

variable {e : Graph} {canon : ValueId → ValueId}

/-- A new table is flat. -/
lemma new (n : ℕ) : (Graph.new n).Flat id where
  root v hv := ⟨v, if_pos hv, if_pos hv, if_pos hv⟩
  lt _ hv := hv
  leader_canon _ hv := if_pos hv
  opt_canon _ hv := if_pos hv

/-- Following a pointer changes nothing. -/
lemma find_eq {v r : ValueId} (hv : v < e.len) (hroot : e.leader v = some r)
    (hself : e.leader r = some r) : e.find v = some (r, e) := by
  obtain ⟨n, hn⟩ : ∃ n, e.len = n + 1 :=
    Nat.exists_eq_succ_of_ne_zero (Nat.ne_of_gt (Nat.zero_lt_of_lt hv))
  have hfind : findLoop e.leader (e.len + 1) v = some r := by
    rw [hn, findLoop, hroot, Option.bind_some]
    split
    · next h => rw [h]
    · rw [findLoop, hself, Option.bind_some, if_pos rfl]
  have hcompress : compressLoop r (e.len + 1) v e.leader = some e.leader := by
    rw [hn, compressLoop]
    split
    · rfl
    · rw [hroot, Option.bind_some, compressLoop, if_pos rfl, ← hroot, Function.update_eq_self]
  rw [Graph.find, hfind]
  change (compressLoop r (e.len + 1) v e.leader).bind _ = _
  rw [hcompress]
  rfl

lemma find_canon (h : e.Flat canon) {v : ValueId} (hv : v < e.len) :
    e.find (canon v) = some (canon v, e) :=
  find_eq (h.lt v hv) (h.leader_canon v hv) (h.leader_canon v hv)

/-- The canonical value stands for itself. -/
lemma idem (h : e.Flat canon) {v : ValueId} (hv : v < e.len) : canon (canon v) = canon v := by
  obtain ⟨r, hr, _, hopt⟩ := h.root _ (h.lt v hv)
  obtain rfl : canon v = r := Option.some.inj ((h.leader_canon v hv).symm.trans hr)
  exact Option.some.inj (hopt.symm.trans (h.opt_canon v hv))

/-- **`opt_value` is `canon`.** -/
lemma optValue_eq (h : e.Flat canon) {v : ValueId} (hv : v < e.len) :
    e.optValue v = some (canon v, e) := by
  obtain ⟨n, hn⟩ : ∃ n, e.len = n + 1 :=
    Nat.exists_eq_succ_of_ne_zero (Nat.ne_of_gt (Nat.zero_lt_of_lt hv))
  obtain ⟨r, hr, hself, hopt⟩ := h.root v hv
  have hloop : ∀ fuel, e.optValueLoop (fuel + 1) (canon v) = some (canon v, e) := by
    intro fuel
    rw [Graph.optValueLoop, h.find_canon hv]
    change (e.valueToOptValue (canon v)).bind _ = _
    rw [h.opt_canon v hv]
    exact if_pos rfl
  rw [Graph.optValue, hn, Graph.optValueLoop, find_eq hv hr hself]
  change (e.valueToOptValue r).bind _ = _
  rw [hopt, Option.bind_some]
  dsimp only
  split
  · next heq => rw [heq]
  · exact hloop n

/-- A literal is kept with the canonical value. -/
lemma constOf_eq (h : e.Flat canon) {v : ValueId} (hv : v < e.len) :
    e.constOf (canon v) = some (e.valueToConst (canon v), e) := by
  rw [Graph.constOf, h.find_canon hv]
  rfl

/-- An alias that is there already. -/
lemma setOptValue_canon (h : e.Flat canon) {v : ValueId} (hv : v < e.len) :
    e.setOptValue v (canon v) = some e := by
  obtain ⟨r, hr, hself, hopt⟩ := h.root v hv
  rw [Graph.setOptValue, find_eq hv hr hself]
  change some { e with valueToOptValue := Function.update e.valueToOptValue r (some (canon v)) } = _
  rw [← hopt, Function.update_eq_self]

/-- A value that stands for itself is its class's root. -/
lemma root_of_canon (h : e.Flat canon) {r : ValueId} (hr : r < e.len) (hself : canon r = r) :
    e.leader r = some r ∧ e.valueToOptValue r = some r := by
  have hlead := h.leader_canon r hr
  have hopt := h.opt_canon r hr
  rw [hself] at hlead hopt
  exact ⟨hlead, hopt⟩

/-- A value that stands for no other value has no other value below it. -/
lemma eq_of_leader (h : e.Flat canon) {r v : ValueId} (hr : r < e.len) (hself : canon r = r)
    (halone : ∀ w < e.len, canon w = r → w = r) (hv : v < e.len) (hlead : e.leader v = some r) :
    v = r := by
  obtain ⟨r', hr', _, hopt⟩ := h.root v hv
  obtain rfl : r = r' := Option.some.inj (hlead.symm.trans hr')
  exact halone v hv (Option.some.inj (hopt.symm.trans (h.root_of_canon hr hself).2))

variable {r t : ValueId}

/-- **An alias**: a value of its own stands for another from now on. -/
lemma setOptValue (h : e.Flat canon) (hr : r < e.len) (hself : canon r = r)
    (halone : ∀ w < e.len, canon w = r → w = r) (ht : t < e.len) (htself : canon t = t)
    (hne : t ≠ r) :
    ∃ e', e.setOptValue r t = some e' ∧ e'.Flat (Function.update canon r t) ∧
      e' = { e with valueToOptValue := Function.update e.valueToOptValue r (some t) } := by
  obtain ⟨hlead, hopt⟩ := h.root_of_canon hr hself
  refine ⟨_, ?_, ⟨fun v hv => ?_, fun v hv => ?_, fun v hv => ?_, fun v hv => ?_⟩, rfl⟩
  · rw [Graph.setOptValue, find_eq hr hlead hlead]
    rfl
  · by_cases hvr : v = r
    · subst hvr
      refine ⟨v, hlead, hlead, ?_⟩
      rw [Function.update_self]
      exact Function.update_self _ _ _
    · obtain ⟨r', hr', hself', hopt'⟩ := h.root v hv
      have hne' : r' ≠ r := fun heq => hvr (h.eq_of_leader hr hself halone hv (heq ▸ hr'))
      refine ⟨r', hr', hself', ?_⟩
      change Function.update e.valueToOptValue r (some t) r' = _
      rw [Function.update_of_ne hne', Function.update_of_ne hvr, hopt']
  · by_cases hvr : v = r
    · rw [hvr, Function.update_self]
      exact ht
    · rw [Function.update_of_ne hvr]
      exact h.lt v hv
  · by_cases hvr : v = r
    · rw [hvr, Function.update_self]
      exact (h.root_of_canon ht htself).1
    · rw [Function.update_of_ne hvr]
      exact h.leader_canon v hv
  · by_cases hvr : v = r
    · rw [hvr, Function.update_self]
      change Function.update e.valueToOptValue r (some t) t = _
      rw [Function.update_of_ne hne]
      exact (h.root_of_canon ht htself).2
    · rw [Function.update_of_ne hvr]
      change Function.update e.valueToOptValue r (some t) (canon v) = _
      rw [Function.update_of_ne fun heq => hvr (halone v hv heq)]
      exact h.opt_canon v hv

/-- **A union into an earlier value**, unless the class is full. -/
lemma unionInto (h : e.Flat canon) (hr : r < e.len) (hself : canon r = r)
    (halone : ∀ w < e.len, canon w = r → w = r) (ht : t < e.len) (htself : canon t = t)
    (hne : t ≠ r) :
    (e.unionInto r t = some (false, e)) ∨
      ∃ e', e.unionInto r t = some (true, e') ∧ e'.Flat (Function.update canon r t) ∧
        e' = { e with leader := e'.leader, eclassSizes := e'.eclassSizes } := by
  obtain ⟨hlead, hopt⟩ := h.root_of_canon hr hself
  obtain ⟨htlead, htopt⟩ := h.root_of_canon ht htself
  have hunion : e.unionInto r t = some (e.mergeRoots r t) := by
    rw [Graph.unionInto, find_eq hr hlead hlead]
    change (e.find t).bind _ = _
    rw [find_eq ht htlead htlead, Option.bind_some]
    exact if_neg (Ne.symm hne)
  rw [hunion, Graph.mergeRoots]
  split
  · exact Or.inl rfl
  · refine Or.inr ⟨_, rfl, ⟨fun v hv => ?_, fun v hv => ?_, fun v hv => ?_, fun v hv => ?_⟩, rfl⟩
    · by_cases hvr : v = r
      · subst hvr
        refine ⟨t, Function.update_self _ _ _, ?_, ?_⟩
        · change Function.update e.leader v (some t) t = _
          rw [Function.update_of_ne hne, htlead]
        · rw [Function.update_self]
          exact htopt
      · obtain ⟨r', hr', hself', hopt'⟩ := h.root v hv
        have hne' : r' ≠ r := fun heq => hvr (h.eq_of_leader hr hself halone hv (heq ▸ hr'))
        refine ⟨r', ?_, ?_, ?_⟩
        · change Function.update e.leader r (some t) v = _
          rw [Function.update_of_ne hvr, hr']
        · change Function.update e.leader r (some t) r' = _
          rw [Function.update_of_ne hne', hself']
        · rw [Function.update_of_ne hvr]
          exact hopt'
    · by_cases hvr : v = r
      · rw [hvr, Function.update_self]
        exact ht
      · rw [Function.update_of_ne hvr]
        exact h.lt v hv
    · by_cases hvr : v = r
      · rw [hvr, Function.update_self]
        change Function.update e.leader r (some t) t = _
        rw [Function.update_of_ne hne, htlead]
      · rw [Function.update_of_ne hvr]
        change Function.update e.leader r (some t) (canon v) = _
        rw [Function.update_of_ne fun heq => hvr (halone v hv heq)]
        exact h.leader_canon v hv
    · by_cases hvr : v = r
      · rw [hvr, Function.update_self]
        exact htopt
      · rw [Function.update_of_ne hvr]
        exact h.opt_canon v hv

/-- A literal for a value of its own. -/
lemma setConst (h : e.Flat canon) (hr : r < e.len) (hself : canon r = r) (op : Operand) :
    e.setConst r op =
      some { e with valueToConst := Function.update e.valueToConst r (some op) } := by
  obtain ⟨hlead, _⟩ := h.root_of_canon hr hself
  rw [Graph.setConst, find_eq hr hlead hlead]
  rfl

/-- The other tables do not matter. -/
lemma congr {e' : Graph} (h : e.Flat canon) (hlen : e'.len = e.len) (hleader : e'.leader = e.leader)
    (hopt : e'.valueToOptValue = e.valueToOptValue) : e'.Flat canon where
  root v hv := by
    rw [hleader, hopt]
    exact h.root v (hlen ▸ hv)
  lt v hv := hlen ▸ h.lt v (hlen ▸ hv)
  leader_canon v hv := by
    rw [hleader]
    exact h.leader_canon v (hlen ▸ hv)
  opt_canon v hv := by
    rw [hopt]
    exact h.opt_canon v (hlen ▸ hv)

end Graph.Flat

/-! ### Operands -/

section Operands

variable {e : Graph} {canon : ValueId → ValueId}

/-- An operand with the canonical value. -/
def Operand.canonical (canon : ValueId → ValueId) : Operand → Operand
  | .value v => .value (canon v)
  | a => a

/-- The canonical operand or its literal. -/
def Graph.resolve (e : Graph) (canon : ValueId → ValueId) : Operand → Operand
  | .value v => (e.valueToConst (canon v)).getD (.value (canon v))
  | a => a

/-- The values of an instruction are in the table. -/
def InstKind.Inside (kind : InstKind) (n : ℕ) : Prop := ∀ v ∈ visitValueOperands kind, v < n

lemma optOperand_eq (h : e.Flat canon) {a : Operand} (ha : ∀ v, a.value? = some v → v < e.len) :
    optOperand a e = some (a.canonical canon, e) := by
  cases a with
  | value v =>
    change (e.optValue v).map _ = _
    rw [h.optValue_eq (ha v rfl)]
    rfl
  | _ => rfl

lemma mapOperand_eq (h : e.Flat canon) {a : Operand} (ha : ∀ v, a.value? = some v → v < e.len) :
    mapOperand a e = some (e.resolve canon a, e) := by
  cases a with
  | value v =>
    change (e.optValue v).bind _ = _
    rw [h.optValue_eq (ha v rfl), Option.bind_some, h.constOf_eq (ha v rfl)]
    rfl
  | _ => rfl

lemma InstKind.Inside.operand {kind : InstKind} {n : ℕ} (h : kind.Inside n) {a : Operand}
    (ha : a ∈ kind.operands) : ∀ v, a.value? = some v → v < n :=
  fun v hv => h v (mem_visitValueOperands ha hv)

/-- The instruction as the first phase reads it. -/
def InstKind.canonical (canon : ValueId → ValueId) (kind : InstKind) : InstKind :=
  if kind.isKeyed then kind.remap (Operand.canonical canon) else kind

lemma optCanonicalize_eq (h : e.Flat canon) {kind : InstKind} (hkind : kind.Inside e.len) :
    optCanonicalize kind e = some (kind.canonical canon, e) := by
  rw [optCanonicalize, InstKind.canonical]
  split
  · exact InstKind.mapOperands_eq fun a ha => optOperand_eq h (hkind.operand ha)
  · rfl

lemma canonicalizeOperands_eq (h : e.Flat canon) {kind : InstKind} (hkind : kind.Inside e.len)
    (hlate : kind.isLate = false) :
    canonicalizeOperands kind e = some (kind.remap (e.resolve canon), e) := by
  rw [canonicalizeOperands, hlate]
  exact InstKind.mapOperands_eq fun a ha => mapOperand_eq h (hkind.operand ha)

end Operands

end Torajs.Egraph
