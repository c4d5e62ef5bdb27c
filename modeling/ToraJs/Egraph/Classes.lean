import ToraJs.Egraph.Ir
import ToraJs.Egraph.ScopeMap
import ToraJs.Lib.ParentForest

/-!
# The classes of the e-graph

The e-graph: the values of a function in classes, by parent pointers with path
compression, and what the optimizer records about them.  A class grows by unions and has
at most five members; a union that would go past that is refused.

Every sequence of operations answers as a plain partition of the values does: `find` always
ends, compression is invisible, and the size kept at a root is the number of the class's
members.
-/

namespace Torajs.Egraph

open ParentForest (IsForest classOf findLoop compressLoop merge mem_classOf)
open DataRefinement (Refines runOps)

/-- `ECLASS_ENODE_LIMIT`. -/
def eclassEnodeLimit : ℕ := 5

/-- `GvnKey`: the type of the result and the instruction. -/
abbrev GvnKey := SsaType × InstKind

/-- `egraph::Egraph`.  Its tables are partial functions: they have an entry for every value below
`len`. -/
structure Graph where
  len : ℕ
  leader : ValueId → Option ValueId
  valueToOptValue : ValueId → Option ValueId
  availableBlock : ValueId → Option BlockId
  eclassSizes : ValueId → Option ℕ
  gvnMap : ScopedHashMap GvnKey ValueId
  valueToConst : ValueId → Option Operand
  rewrittenKind : ValueId → Option InstKind

namespace Graph

/-- `new`: every value is a class of its own. -/
def new (n : ℕ) : Graph where
  len := n
  leader v := if v < n then some v else none
  valueToOptValue v := if v < n then some v else none
  availableBlock _ := none
  eclassSizes _ := none
  gvnMap := ScopedHashMap.new
  valueToConst _ := none
  rewrittenKind _ := none

/-- One more value. -/
def pushValue (e : Graph) : Graph :=
  { e with
    len := e.len + 1
    leader := Function.update e.leader e.len (some e.len)
    valueToOptValue := Function.update e.valueToOptValue e.len (some e.len)
    availableBlock := Function.update e.availableBlock e.len none }

/-- `extend`: the first new id. -/
def extend (e : Graph) (n : ℕ) : ValueId × Graph := (e.len, Nat.iterate pushValue n e)

/-- `find`; a chain of pointers is no longer than the table. -/
def find (e : Graph) (v : ValueId) : Option (ValueId × Graph) := do
  let root ← findLoop e.leader (e.len + 1) v
  let leader ← compressLoop root (e.len + 1) v e.leader
  some (root, { e with leader := leader })

/-- `eclass_size_or_one`. -/
def eclassSizeOrOne (e : Graph) (root : ValueId) : ℕ := (e.eclassSizes root).getD 1

/-- Point one root at another, unless the class would grow too large. -/
def mergeRoots (e : Graph) (child root : ValueId) : Bool × Graph :=
  let size := e.eclassSizeOrOne child + e.eclassSizeOrOne root
  if eclassEnodeLimit < size then (false, e)
  else
    (true, { e with
      leader := Function.update e.leader child (some root)
      eclassSizes := Function.update (Function.update e.eclassSizes root (some size)) child none })

/-- `union`: the smaller id becomes the root. -/
def union (e : Graph) (a b : ValueId) : Option (Bool × Graph) := do
  let fa ← e.find a
  let fb ← fa.2.find b
  if fa.1 = fb.1 then some (false, fb.2)
  else if fa.1 < fb.1 then some (fb.2.mergeRoots fb.1 fa.1)
  else some (fb.2.mergeRoots fa.1 fb.1)

/-- `union_into`: the root of `root` stays one. -/
def unionInto (e : Graph) (child root : ValueId) : Option (Bool × Graph) := do
  let fc ← e.find child
  let fr ← fc.2.find root
  if fc.1 = fr.1 then some (false, fr.2) else some (fr.2.mergeRoots fc.1 fr.1)

/-- `eclass_size`. -/
def eclassSize (e : Graph) (v : ValueId) : Option (ℕ × Graph) := do
  let f ← e.find v
  some (f.2.eclassSizeOrOne f.1, f.2)

/-- `equiv`. -/
def equiv (e : Graph) (a b : ValueId) : Option (Bool × Graph) := do
  let fa ← e.find a
  let fb ← fa.2.find b
  some (fa.1 = fb.1, fb.2)

/-- `opt_value`, along at most as many replacements as there are values. -/
def optValueLoop (e : Graph) : ℕ → ValueId → Option (ValueId × Graph)
  | 0, _ => none
  | fuel + 1, v => do
    let f ← e.find v
    let stored ← f.2.valueToOptValue f.1
    if stored = f.1 then some f else optValueLoop f.2 fuel stored

/-- `opt_value`. -/
def optValue (e : Graph) (v : ValueId) : Option (ValueId × Graph) := e.optValueLoop (e.len + 1) v

/-- `set_const`. -/
def setConst (e : Graph) (v : ValueId) (op : Operand) : Option Graph := do
  let f ← e.find v
  some { f.2 with valueToConst := Function.update f.2.valueToConst f.1 (some op) }

/-- `const_of`. -/
def constOf (e : Graph) (v : ValueId) : Option (Option Operand × Graph) := do
  let f ← e.find v
  some (f.2.valueToConst f.1, f.2)

/-- `set_opt_value`. -/
def setOptValue (e : Graph) (v target : ValueId) : Option Graph := do
  let f ← e.find v
  some { f.2 with valueToOptValue := Function.update f.2.valueToOptValue f.1 (some target) }

/-- `set_available_block`. -/
def setAvailableBlock (e : Graph) (v : ValueId) (b : BlockId) : Graph :=
  if v < e.len then { e with availableBlock := Function.update e.availableBlock v (some b) } else e

/-- `set_rewritten_kind`. -/
def setRewrittenKind (e : Graph) (v : ValueId) (kind : InstKind) : Graph :=
  { e with rewrittenKind := Function.update e.rewrittenKind v (some kind) }

end Graph

/-! ### Partitions -/

/-- A partition of the first values, by a representative for each. -/
structure Partition where
  len : ℕ
  rep : ValueId → ValueId

namespace Partition

/-- The members of a value's class. -/
def members (P : Partition) (v : ValueId) : Finset ValueId := classOf P.len P.rep (P.rep v)

/-- Put two classes together, unless the result would be too large. -/
def join (P : Partition) (child root : ValueId) : Bool × Partition :=
  if eclassEnodeLimit < (P.members child).card + (P.members root).card then (false, P)
  else (true, { P with rep := merge P.rep child root })

/-- One more value, in a class of its own. -/
def pushValue (P : Partition) : Partition := ⟨P.len + 1, Function.update P.rep P.len P.len⟩

end Partition

/-! ### Operations -/

/-- The operations on classes. -/
inductive ClassOp where
  | extend (n : ℕ)
  | find (v : ValueId)
  | union (a b : ValueId)
  | unionInto (child root : ValueId)
  | eclassSize (v : ValueId)
  | equiv (a b : ValueId)

/-- What an operation returns. -/
inductive ClassAnswer where
  | id (v : ValueId)
  | flag (b : Bool)
  | size (n : ℕ)
  deriving DecidableEq

/-- An operation on the e-graph; a value that is not there panics. -/
def ClassOp.onEgraph (e : Graph) : ClassOp → Option (Graph × ClassAnswer)
  | .extend n => some ((e.extend n).2, .id (e.extend n).1)
  | .find v => (e.find v).map fun r => (r.2, .id r.1)
  | .union a b => (e.union a b).map fun r => (r.2, .flag r.1)
  | .unionInto child root => (e.unionInto child root).map fun r => (r.2, .flag r.1)
  | .eclassSize v => (e.eclassSize v).map fun r => (r.2, .size r.1)
  | .equiv a b => (e.equiv a b).map fun r => (r.2, .flag r.1)

/-- An operation on a partition: nothing but unions and new values changes it. -/
def ClassOp.onPartition (P : Partition) : ClassOp → Option (Partition × ClassAnswer)
  | .extend n => some (Nat.iterate Partition.pushValue n P, .id P.len)
  | .find v => if v < P.len then some (P, .id (P.rep v)) else none
  | .union a b =>
    if a < P.len ∧ b < P.len then
      if P.rep a = P.rep b then some (P, .flag false)
      else
        let r := P.join (max (P.rep a) (P.rep b)) (min (P.rep a) (P.rep b))
        some (r.2, .flag r.1)
    else none
  | .unionInto child root =>
    if child < P.len ∧ root < P.len then
      if P.rep child = P.rep root then some (P, .flag false)
      else
        let r := P.join (P.rep child) (P.rep root)
        some (r.2, .flag r.1)
    else none
  | .eclassSize v => if v < P.len then some (P, .size (P.members v).card) else none
  | .equiv a b => if a < P.len ∧ b < P.len then some (P, .flag (P.rep a = P.rep b)) else none

/-- **The partition that an e-graph stands for.** -/
structure Graph.Represents (e : Graph) (P : Partition) : Prop where
  len : e.len = P.len
  forest : ∃ rank, IsForest P.len e.leader P.rep rank
  size : ∀ r < P.len, P.rep r = r → e.eclassSizeOrOne r = (classOf P.len P.rep r).card
  bounded : ∀ r < P.len, P.rep r = r → (classOf P.len P.rep r).card ≤ eclassEnodeLimit
  fresh : ∀ v, P.len ≤ v → e.eclassSizes v = none

namespace Graph.Represents

variable {e : Graph} {P : Partition}

lemma new (n : ℕ) : (Graph.new n).Represents ⟨n, id⟩ where
  len := rfl
  forest := ⟨_, ParentForest.IsForest.discrete n⟩
  size r hr _ := by
    have hclass : classOf n id r = {r} := by
      ext v
      rw [mem_classOf, Finset.mem_singleton, id]
      exact ⟨And.right, fun hv => ⟨hv ▸ hr, hv⟩⟩
    change 1 = (classOf n id r).card
    rw [hclass, Finset.card_singleton]
  bounded r hr _ := by
    have hclass : classOf n id r = {r} := by
      ext v
      rw [mem_classOf, Finset.mem_singleton, id]
      exact ⟨And.right, fun hv => ⟨hv ▸ hr, hv⟩⟩
    change (classOf n id r).card ≤ 5
    rw [hclass, Finset.card_singleton]
    exact Nat.le_add_left 1 4
  fresh _ _ := rfl

lemma rep_lt (h : e.Represents P) {v : ValueId} (hv : v < P.len) : P.rep v < P.len := by
  obtain ⟨rank, hf⟩ := h.forest
  exact hf.rep_lt hv

lemma rep_rep (h : e.Represents P) {v : ValueId} (hv : v < P.len) :
    P.rep (P.rep v) = P.rep v := by
  obtain ⟨rank, hf⟩ := h.forest
  exact hf.rep_rep hv

/-- **`find` finds the representative**, and compression is invisible. -/
lemma find (h : e.Represents P) {v : ValueId} (hv : v < P.len) :
    ∃ e', e.find v = some (P.rep v, e') ∧ e'.Represents P := by
  obtain ⟨rank, hf⟩ := h.forest
  have hfuel : rank v < e.len + 1 := by
    rw [h.len]
    exact Nat.lt_succ_of_lt (hf.rank_lt_card hv)
  obtain ⟨leader, hleader, hf'⟩ := hf.compressLoop_spec (e.len + 1) e.leader v hv hfuel
  refine ⟨{ e with leader := leader }, ?_, ⟨h.len, ⟨rank, hf'⟩, h.size, h.bounded, h.fresh⟩⟩
  rw [Graph.find, hf.findLoop_eq (e.len + 1) v hv hfuel]
  change (compressLoop (P.rep v) (e.len + 1) v e.leader).bind _ = _
  rw [hleader]
  rfl

/-- A value that is not there is not found. -/
lemma find_eq_none (h : e.Represents P) {v : ValueId} (hv : ¬ v < P.len) : e.find v = none := by
  obtain ⟨rank, hf⟩ := h.forest
  have hnone : e.leader v = none := by
    rw [← Option.not_isSome_iff_eq_none, hf.isSome_iff]
    exact hv
  rw [Graph.find, findLoop, hnone]
  rfl

/-- Two values are found one after the other, where both are there. -/
lemma find_find (h : e.Represents P) (a b : ValueId) :
    ((a < P.len ∧ b < P.len) ∧ ∃ e₁ e₂, e.find a = some (P.rep a, e₁) ∧
        e₁.find b = some (P.rep b, e₂) ∧ e₂.Represents P) ∨
      ¬ (a < P.len ∧ b < P.len) ∧ ∀ k : ValueId × Graph → ValueId × Graph → Option (Bool × Graph),
        ((e.find a).bind fun fa => (fa.2.find b).bind (k fa)) = none := by
  by_cases ha : a < P.len
  · obtain ⟨e₁, he₁, h₁⟩ := h.find ha
    by_cases hb : b < P.len
    · obtain ⟨e₂, he₂, h₂⟩ := h₁.find hb
      exact Or.inl ⟨⟨ha, hb⟩, e₁, e₂, he₁, he₂, h₂⟩
    · refine Or.inr ⟨fun hab => hb hab.2, fun k => ?_⟩
      rw [he₁, Option.bind_some, h₁.find_eq_none hb, Option.bind_none]
  · refine Or.inr ⟨fun hab => ha hab.1, fun k => ?_⟩
    rw [h.find_eq_none ha, Option.bind_none]

/-- The size kept at a root. -/
lemma eclassSizeOrOne (h : e.Represents P) {v : ValueId} (hv : v < P.len) :
    e.eclassSizeOrOne (P.rep v) = (P.members v).card :=
  h.size _ (h.rep_lt hv) (h.rep_rep hv)

/-- **Merging two roots joins their classes**, or is refused with them. -/
lemma mergeRoots (h : e.Represents P) {child root : ValueId} (hc : child < P.len)
    (hr : root < P.len) (hcrep : P.rep child = child) (hrrep : P.rep root = root)
    (hne : child ≠ root) :
    (e.mergeRoots child root).1 = (P.join child root).1 ∧
      (e.mergeRoots child root).2.Represents (P.join child root).2 := by
  obtain ⟨rank, hf⟩ := h.forest
  have hsize : ∀ {v}, v < P.len → P.rep v = v → e.eclassSizeOrOne v = (P.members v).card := by
    intro v hv hrep
    rw [h.size v hv hrep, Partition.members, hrep]
  rw [Graph.mergeRoots, Partition.join, hsize hc hcrep, hsize hr hrrep]
  by_cases hlimit : eclassEnodeLimit < (P.members child).card + (P.members root).card
  · rw [if_pos hlimit, if_pos hlimit]
    exact ⟨rfl, h⟩
  · rw [if_neg hlimit, if_neg hlimit]
    have hcard : (classOf P.len (merge P.rep child root) root).card =
        (P.members child).card + (P.members root).card := by
      rw [ParentForest.IsForest.card_classOf_merge hne, Partition.members, Partition.members, hcrep,
        hrrep]
    -- a root behind the union was one before it, and not the child
    have hroot : ∀ {r}, merge P.rep child root r = r → r ≠ root → P.rep r = r ∧ r ≠ child := by
      intro r hr hne'
      by_cases hrc : P.rep r = child
      · rw [ParentForest.IsForest.merge_of_eq hrc] at hr
        exact absurd hr.symm hne'
      · rw [ParentForest.IsForest.merge_of_ne hrc] at hr
        exact ⟨hr, fun heq => hrc (hr.trans heq)⟩
    refine ⟨rfl, ⟨h.len, ⟨_, hf.link hc hr hcrep hrrep hne⟩, fun r hrlt hrep => ?_,
      fun r hrlt hrep => ?_, fun v hv => ?_⟩⟩
    · rw [Graph.eclassSizeOrOne]
      dsimp only
      by_cases hrr : r = root
      · subst hrr
        rw [Function.update_of_ne hne.symm, Function.update_self, Option.getD_some, hcard]
      · obtain ⟨hrep', hrc⟩ := hroot hrep hrr
        rw [Function.update_of_ne hrc, Function.update_of_ne hrr,
          ParentForest.IsForest.classOf_merge_of_ne hrc hrr]
        exact h.size r hrlt hrep'
    · dsimp only
      by_cases hrr : r = root
      · subst hrr
        rw [hcard]
        exact Nat.le_of_not_lt hlimit
      · obtain ⟨hrep', hrc⟩ := hroot hrep hrr
        rw [ParentForest.IsForest.classOf_merge_of_ne hrc hrr]
        exact h.bounded r hrlt hrep'
    · dsimp only at hv ⊢
      have hvc : v ≠ child := Nat.ne_of_gt (Nat.lt_of_lt_of_le hc hv)
      have hvr : v ≠ root := Nat.ne_of_gt (Nat.lt_of_lt_of_le hr hv)
      rw [Function.update_of_ne hvc, Function.update_of_ne hvr]
      exact h.fresh v hv

lemma pushValue (h : e.Represents P) : e.pushValue.Represents P.pushValue := by
  obtain ⟨rank, hf⟩ := h.forest
  -- the old classes are what they were, the new value is a class of its own
  have hclass : ∀ r < P.len, classOf (P.len + 1) (Function.update P.rep P.len P.len) r =
      classOf P.len P.rep r := by
    intro r hr
    ext v
    rw [mem_classOf, mem_classOf]
    by_cases hv : v = P.len
    · subst hv
      rw [Function.update_self]
      omega
    · rw [Function.update_of_ne hv]
      exact and_congr_left fun _ => by omega
  have hnew : classOf (P.len + 1) (Function.update P.rep P.len P.len) P.len = {P.len} := by
    ext v
    rw [mem_classOf, Finset.mem_singleton]
    constructor
    · rintro ⟨hv, hrep⟩
      by_contra hne
      rw [Function.update_of_ne hne] at hrep
      have := hf.rep_lt (v := v) (by omega)
      omega
    · rintro rfl
      exact ⟨Nat.lt_succ_self _, Function.update_self _ _ _⟩
  have hroot : ∀ {r}, r < P.len + 1 → Function.update P.rep P.len P.len r = r →
      r = P.len ∨ r < P.len ∧ P.rep r = r := by
    intro r hr hrep
    by_cases hrn : r = P.len
    · exact Or.inl hrn
    · rw [Function.update_of_ne hrn] at hrep
      exact Or.inr ⟨by omega, hrep⟩
  refine ⟨congrArg (· + 1) h.len, ⟨Function.update rank P.len 0, ?_⟩, fun r hr hrep => ?_,
    fun r hr hrep => ?_, fun v hv => ?_⟩
  · rw [Graph.pushValue, Partition.pushValue, h.len]
    exact hf.extend
  · change (e.eclassSizes r).getD 1 = (classOf (P.len + 1) _ r).card
    rcases hroot hr hrep with rfl | ⟨hr, hrep⟩
    · rw [Partition.pushValue, hnew, Finset.card_singleton, h.fresh _ le_rfl, Option.getD_none]
    · rw [Partition.pushValue, hclass r hr]
      exact h.size r hr hrep
  · change (classOf (P.len + 1) _ r).card ≤ _
    rcases hroot hr hrep with rfl | ⟨hr, hrep⟩
    · rw [Partition.pushValue, hnew, Finset.card_singleton]
      exact Nat.le_add_left 1 4
    · rw [Partition.pushValue, hclass r hr]
      exact h.bounded r hr hrep
  · exact h.fresh v (Nat.le_of_succ_le hv)

lemma extend (h : e.Represents P) (n : ℕ) :
    (Nat.iterate Graph.pushValue n e).Represents (Nat.iterate Partition.pushValue n P) := by
  induction n generalizing e P with
  | zero => exact h
  | succ n ih => exact ih h.pushValue

end Graph.Represents

/-- One operation keeps an e-graph and its partition together. -/
lemma classOp_refines : Refines ClassOp.onEgraph ClassOp.onPartition Graph.Represents := by
  intro e P h op
  cases op with
  | extend n =>
    refine Or.inr ⟨_, _, _, rfl, ?_, h.extend n⟩
    rw [ClassOp.onPartition, Graph.extend, h.len]
  | find v =>
    rw [ClassOp.onEgraph, ClassOp.onPartition]
    by_cases hv : v < P.len
    · obtain ⟨e', he', h'⟩ := h.find hv
      rw [he', if_pos hv]
      exact Or.inr ⟨_, _, _, rfl, rfl, h'⟩
    · rw [h.find_eq_none hv, if_neg hv]
      exact Or.inl ⟨rfl, rfl⟩
  | eclassSize v =>
    rw [ClassOp.onEgraph, ClassOp.onPartition, Graph.eclassSize]
    by_cases hv : v < P.len
    · obtain ⟨e', he', h'⟩ := h.find hv
      rw [he', if_pos hv]
      refine Or.inr ⟨e', P, .size (P.members v).card, ?_, rfl, h'⟩
      rw [← h'.eclassSizeOrOne hv]
      rfl
    · rw [h.find_eq_none hv, if_neg hv]
      exact Or.inl ⟨rfl, rfl⟩
  | equiv a b =>
    rw [ClassOp.onEgraph, ClassOp.onPartition, Graph.equiv]
    rcases h.find_find a b with ⟨hab, e₁, e₂, he₁, he₂, h₂⟩ | ⟨hab, hnone⟩
    · rw [if_pos hab, he₁]
      refine Or.inr ⟨e₂, P, .flag (P.rep a = P.rep b), ?_, rfl, h₂⟩
      change Option.map _ ((e₁.find b).bind _) = _
      rw [he₂]
      rfl
    · rw [if_neg hab]
      exact Or.inl ⟨congrArg _ (hnone _), rfl⟩
  | union a b =>
    rw [ClassOp.onEgraph, ClassOp.onPartition, Graph.union]
    rcases h.find_find a b with ⟨hab, e₁, e₂, he₁, he₂, h₂⟩ | ⟨hab, hnone⟩
    · rw [if_pos hab, he₁]
      change (Option.map _ ((e₁.find b).bind _) = none ∧ _) ∨ ∃ _ _ _,
        Option.map _ ((e₁.find b).bind _) = _ ∧ _
      rw [he₂, Option.bind_some]
      dsimp only
      by_cases heq : P.rep a = P.rep b
      · rw [if_pos heq, if_pos heq]
        exact Or.inr ⟨_, _, _, rfl, rfl, h₂⟩
      · rw [if_neg heq, if_neg heq]
        rcases Nat.lt_or_ge (P.rep a) (P.rep b) with hlt | hge
        · obtain ⟨hflag, hrep⟩ := h₂.mergeRoots (h.rep_lt hab.2) (h.rep_lt hab.1) (h.rep_rep hab.2)
            (h.rep_rep hab.1) (Ne.symm heq)
          rw [if_pos hlt, max_eq_right hlt.le, min_eq_left hlt.le]
          exact Or.inr ⟨_, _, _, rfl, by rw [hflag], hrep⟩
        · obtain ⟨hflag, hrep⟩ := h₂.mergeRoots (h.rep_lt hab.1) (h.rep_lt hab.2) (h.rep_rep hab.1)
            (h.rep_rep hab.2) heq
          rw [if_neg (Nat.not_lt.mpr hge), max_eq_left hge, min_eq_right hge]
          exact Or.inr ⟨_, _, _, rfl, by rw [hflag], hrep⟩
    · rw [if_neg hab]
      exact Or.inl ⟨congrArg _ (hnone _), rfl⟩
  | unionInto child root =>
    rw [ClassOp.onEgraph, ClassOp.onPartition, Graph.unionInto]
    rcases h.find_find child root with ⟨hab, e₁, e₂, he₁, he₂, h₂⟩ | ⟨hab, hnone⟩
    · rw [if_pos hab, he₁]
      change (Option.map _ ((e₁.find root).bind _) = none ∧ _) ∨ ∃ _ _ _,
        Option.map _ ((e₁.find root).bind _) = _ ∧ _
      rw [he₂, Option.bind_some]
      dsimp only
      by_cases heq : P.rep child = P.rep root
      · rw [if_pos heq, if_pos heq]
        exact Or.inr ⟨_, _, _, rfl, rfl, h₂⟩
      · obtain ⟨hflag, hrep⟩ := h₂.mergeRoots (h.rep_lt hab.1) (h.rep_lt hab.2) (h.rep_rep hab.1)
          (h.rep_rep hab.2) heq
        rw [if_neg heq, if_neg heq]
        exact Or.inr ⟨_, _, _, rfl, by rw [hflag], hrep⟩
    · rw [if_neg hab]
      exact Or.inl ⟨congrArg _ (hnone _), rfl⟩

end Torajs.Egraph
