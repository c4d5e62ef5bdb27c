import Mathlib.Data.List.Basic
import Mathlib.Logic.Function.Basic
import ToraJs.Lib.DataRefinement

/-!
# The scoped hash map

`scope_map::ScopedHashMap` keeps one stack of bindings per key and a log of the keys each
open scope has bound.  What it stands for is a stack of scopes, a partial map each, in
which the innermost binding of a key is the one to see.

Every sequence of operations gives on the one what it gives on the other, and the log
always matches the tops of the stacks, as the assertion in `pop_scope` says.
-/

namespace Torajs.Egraph

variable {K V : Type}

/-! ### The map -/

/-- `ScopedHashMap`: of a key the depths and values of its bindings, the top of the stack
first.  The log, a table by depth, is a function. -/
structure ScopedHashMap (K V : Type) where
  depth : ℕ
  entries : K → Option (List (ℕ × V))
  inserted : ℕ → List K

namespace ScopedHashMap

/-- `new`; the root scope is always there. -/
def new : ScopedHashMap K V := ⟨0, fun _ => none, fun _ => []⟩

/-- `push_scope`. -/
def pushScope (m : ScopedHashMap K V) : ScopedHashMap K V :=
  ⟨m.depth + 1, m.entries, Function.update m.inserted (m.depth + 1) []⟩

/-- The body of the loop in `pop_scope`: the key's stack loses its top, and the key its
entry with the last one.  Nothing is left where the assertion fails. -/
def popKey [DecidableEq K] (depth : ℕ) (entries : K → Option (List (ℕ × V))) (key : K) :
    Option (K → Option (List (ℕ × V))) :=
  match entries key with
  | none => some entries
  | some [] => none
  | some ((d, _) :: rest) =>
    if d = depth then
      some (Function.update entries key (if rest.isEmpty then none else some rest))
    else none

/-- `pop_scope`; the root scope cannot be popped. -/
def popScope [DecidableEq K] (m : ScopedHashMap K V) : Option (ScopedHashMap K V) :=
  if 0 < m.depth then
    ((m.inserted m.depth).foldlM (popKey m.depth) m.entries).map fun entries =>
      ⟨m.depth - 1, entries, m.inserted⟩
  else none

/-- `insert`: a binding of the current scope is replaced and returned, else one is pushed and
the key logged. -/
def insert [DecidableEq K] (m : ScopedHashMap K V) (key : K) (value : V) :
    ScopedHashMap K V × Option V :=
  let stack := (m.entries key).getD []
  match stack with
  | (d, prev) :: rest =>
    if d = m.depth then
      ({ m with entries := Function.update m.entries key (some ((m.depth, value) :: rest)) },
        some prev)
    else
      (⟨m.depth, Function.update m.entries key (some ((m.depth, value) :: stack)),
        Function.update m.inserted m.depth (m.inserted m.depth ++ [key])⟩, none)
  | [] =>
    (⟨m.depth, Function.update m.entries key (some [(m.depth, value)]),
      Function.update m.inserted m.depth (m.inserted m.depth ++ [key])⟩, none)

/-- `get`. -/
def get (m : ScopedHashMap K V) (key : K) : Option V :=
  (m.entries key).bind fun stack => stack.head?.map Prod.snd

/-- `contains_key`. -/
def containsKey (m : ScopedHashMap K V) (key : K) : Bool := (m.get key).isSome

/-- `clear`. -/
def clear (_ : ScopedHashMap K V) : ScopedHashMap K V := new

end ScopedHashMap

/-! ### Scopes -/

/-- A stack of scopes, the innermost first. -/
abbrev Scopes (K V : Type) := List (K → Option V)

namespace Scopes

/-- The innermost binding of a key. -/
def lookup (ls : Scopes K V) (key : K) : Option V := ls.findSome? fun layer => layer key

/-- Bind a key in the innermost scope. -/
def assign [DecidableEq K] (ls : Scopes K V) (key : K) (value : V) : Scopes K V :=
  match ls with
  | [] => []
  | layer :: ls => Function.update layer key (some value) :: ls

@[simp]
lemma lookup_cons (layer : K → Option V) (ls : Scopes K V) (key : K) :
    lookup (layer :: ls) key = (layer key).or (lookup ls key) := by
  rw [lookup, List.findSome?_cons]
  cases layer key <;> rfl

/-- The bindings of a key, with the depths of their scopes. -/
def stackOf : Scopes K V → K → List (ℕ × V)
  | [], _ => []
  | layer :: ls, key =>
    match layer key with
    | some v => (ls.length, v) :: stackOf ls key
    | none => stackOf ls key

lemma stackOf_cons_some {layer : K → Option V} {key : K} {v : V} (h : layer key = some v)
    (ls : Scopes K V) : stackOf (layer :: ls) key = (ls.length, v) :: stackOf ls key := by
  rw [stackOf, h]

lemma stackOf_cons_none {layer : K → Option V} {key : K} (h : layer key = none)
    (ls : Scopes K V) : stackOf (layer :: ls) key = stackOf ls key := by
  rw [stackOf, h]

/-- The depths in a stack are those of its scopes. -/
lemma depth_lt_of_mem_stackOf {ls : Scopes K V} {key : K} {d : ℕ} {v : V}
    (h : (d, v) ∈ stackOf ls key) : d < ls.length := by
  induction ls with
  | nil => cases h
  | cons layer ls ih =>
    cases hkey : layer key with
    | none =>
      rw [stackOf_cons_none hkey] at h
      exact Nat.lt_succ_of_lt (ih h)
    | some w =>
      rw [stackOf_cons_some hkey] at h
      rcases List.mem_cons.mp h with heq | h
      · rw [(Prod.mk.inj heq).1]
        exact Nat.lt_succ_self _
      · exact Nat.lt_succ_of_lt (ih h)

/-- The top of the stack is the innermost binding. -/
lemma head?_stackOf (ls : Scopes K V) (key : K) :
    (stackOf ls key).head?.map Prod.snd = lookup ls key := by
  induction ls with
  | nil => rfl
  | cons layer ls ih =>
    rw [lookup_cons]
    cases hkey : layer key with
    | none => rw [stackOf_cons_none hkey, ih, Option.none_or]
    | some v => rw [stackOf_cons_some hkey, Option.some_or]; rfl

end Scopes

/-! ### The map stands for its scopes -/

open Scopes DataRefinement

/-- The entry for a stack; a key without bindings has none. -/
def entryOf (stack : List (ℕ × V)) : Option (List (ℕ × V)) :=
  if stack.isEmpty then none else some stack

@[simp]
lemma entryOf_nil : entryOf ([] : List (ℕ × V)) = none := rfl

@[simp]
lemma entryOf_cons (x : ℕ × V) (stack : List (ℕ × V)) :
    entryOf (x :: stack) = some (x :: stack) := rfl

lemma getD_entryOf (stack : List (ℕ × V)) : (entryOf stack).getD [] = stack := by
  cases stack <;> rfl

/-- The log lists the keys that each scope binds, once each. -/
def Logged (inserted : ℕ → List K) : Scopes K V → Prop
  | [] => True
  | layer :: ls => (inserted ls.length).Nodup ∧
      (∀ key, key ∈ inserted ls.length ↔ (layer key).isSome) ∧ Logged inserted ls

/-- **The scopes that a map stands for.** -/
structure ScopedHashMap.Represents (m : ScopedHashMap K V) (ls : Scopes K V) : Prop where
  depth : ls.length = m.depth + 1
  entries : ∀ key, m.entries key = entryOf (stackOf ls key)
  logged : Logged m.inserted ls

/-- The log of outer scopes does not mention the inner ones. -/
lemma Logged.congr {inserted inserted' : ℕ → List K} {ls : Scopes K V} (h : Logged inserted ls)
    (heq : ∀ d < ls.length, inserted' d = inserted d) : Logged inserted' ls := by
  induction ls with
  | nil => trivial
  | cons layer ls ih =>
    obtain ⟨hnodup, hmem, hrest⟩ := h
    have htop : inserted' ls.length = inserted ls.length := heq _ (Nat.lt_succ_self _)
    refine ⟨htop ▸ hnodup, fun key => ?_, ih hrest fun d hd => heq d (Nat.lt_succ_of_lt hd)⟩
    rw [htop]
    exact hmem key

namespace ScopedHashMap.Represents

variable {m : ScopedHashMap K V} {layer : K → Option V} {ls : Scopes K V}

lemma new : (ScopedHashMap.new : ScopedHashMap K V).Represents [fun _ => none] where
  depth := rfl
  entries _ := rfl
  logged := ⟨List.nodup_nil, fun _ => by simp [ScopedHashMap.new], trivial⟩

/-- A map sees the innermost bindings. -/
lemma get_eq (h : m.Represents ls) (key : K) : m.get key = lookup ls key := by
  rw [ScopedHashMap.get, h.entries, ← head?_stackOf]
  cases stackOf ls key <;> rfl

lemma pushScope (h : m.Represents ls) : m.pushScope.Represents ((fun _ => none) :: ls) where
  depth := congrArg (· + 1) h.depth
  entries key := by
    rw [stackOf_cons_none rfl]
    exact h.entries key
  logged := by
    have htop : m.pushScope.inserted ls.length = [] := by
      rw [h.depth]
      exact Function.update_self _ _ _
    refine ⟨htop ▸ List.nodup_nil, fun key => by simp [htop], h.logged.congr fun d hd => ?_⟩
    exact Function.update_of_ne (by rw [← h.depth]; exact Nat.ne_of_lt hd) _ _

/-- The loop of `pop_scope` takes the innermost scope off every stack it is on. -/
lemma foldlM_popKey [DecidableEq K] (keys : List K) :
    ∀ (entries : K → Option (List (ℕ × V))), keys.Nodup →
    (∀ key ∈ keys, ∃ v, entries key = some ((ls.length, v) :: stackOf ls key)) →
    keys.foldlM (popKey ls.length) entries =
      some fun key => if key ∈ keys then entryOf (stackOf ls key) else entries key := by
  induction keys with
  | nil =>
    intro entries _ _
    simp
  | cons key keys ih =>
    intro entries hnodup htop
    obtain ⟨hkey, hnodup⟩ := List.nodup_cons.mp hnodup
    obtain ⟨v, hv⟩ := htop key List.mem_cons_self
    have hstep : popKey ls.length entries key =
        some (Function.update entries key (entryOf (stackOf ls key))) := by
      rw [popKey, hv]
      exact if_pos rfl
    rw [List.foldlM_cons, hstep]
    refine (ih _ hnodup fun k hk => ?_).trans (congrArg some (funext fun k => ?_))
    · rw [Function.update_of_ne fun heq => hkey (by rwa [heq] at hk)]
      exact htop k (List.mem_cons_of_mem _ hk)
    · by_cases hk : k ∈ keys
      · rw [if_pos hk, if_pos (List.mem_cons_of_mem _ hk)]
      · by_cases heq : k = key
        · subst heq
          rw [if_neg hk, if_pos List.mem_cons_self, Function.update_self]
        · have hnot : k ∉ key :: keys := by
            rw [List.mem_cons, not_or]
            exact ⟨heq, hk⟩
          rw [if_neg hk, if_neg hnot, Function.update_of_ne heq]

/-- **`pop_scope` drops the innermost scope**, and its assertion holds. -/
lemma popScope [DecidableEq K] (h : m.Represents (layer :: ls)) (hne : ls ≠ []) :
    ∃ m', m.popScope = some m' ∧ m'.Represents ls := by
  have hdepth : m.depth = ls.length := by simpa using h.depth.symm
  have hpos : 0 < ls.length := List.length_pos_iff.mpr hne
  obtain ⟨hnodup, hmem, hrest⟩ := h.logged
  have htop : ∀ key ∈ m.inserted ls.length,
      ∃ v, m.entries key = some ((ls.length, v) :: stackOf ls key) := fun key hkey => by
    obtain ⟨v, hv⟩ := Option.isSome_iff_exists.mp ((hmem key).mp hkey)
    exact ⟨v, by rw [h.entries, stackOf_cons_some hv, entryOf_cons]⟩
  have hfold := foldlM_popKey (m.inserted ls.length) m.entries hnodup htop
  rw [ScopedHashMap.popScope, hdepth, if_pos hpos, hfold]
  refine ⟨_, rfl, ⟨?_, fun key => ?_, hrest⟩⟩
  · exact (Nat.succ_pred_eq_of_pos hpos).symm
  · change (if key ∈ m.inserted ls.length then _ else _) = _
    split
    · rfl
    · next hnot =>
      have hnone : layer key = none := by
        rw [hmem key, Option.not_isSome_iff_eq_none] at hnot
        exact hnot
      rw [h.entries, stackOf_cons_none hnone]

/-- **`insert` binds in the innermost scope** and returns what that scope bound before. -/
lemma insert [DecidableEq K] (h : m.Represents (layer :: ls)) (key : K) (value : V) :
    (m.insert key value).1.Represents (assign (layer :: ls) key value) ∧
      (m.insert key value).2 = layer key := by
  have hdepth : m.depth = ls.length := by simpa using h.depth.symm
  obtain ⟨hnodup, hmem, hrest⟩ := h.logged
  have hentry : ∀ stack : List (ℕ × V), stack = (ls.length, value) :: stackOf ls key →
      ∀ key', Function.update m.entries key (some stack) key' =
        entryOf (stackOf (assign (layer :: ls) key value) key') := by
    rintro _ rfl key'
    by_cases heq : key' = key
    · subst heq
      rw [Function.update_self, assign, stackOf_cons_some (Function.update_self _ _ _), entryOf_cons]
    · rw [Function.update_of_ne heq, h.entries, assign, stackOf, stackOf, Function.update_of_ne heq]
  have hisSome : ∀ key', (Function.update layer key (some value) key').isSome ↔
      key' = key ∨ (layer key').isSome := by
    intro key'
    by_cases heq : key' = key
    · simp [heq]
    · simp [heq]
  rw [ScopedHashMap.insert, h.entries, getD_entryOf, hdepth]
  cases hkey : layer key with
  | some prev =>
    -- the current scope binds the key already
    rw [stackOf_cons_some hkey]
    dsimp only
    rw [if_pos rfl]
    refine ⟨⟨rfl, fun key' => hentry _ rfl key', hnodup, fun key' => ?_, hrest⟩, rfl⟩
    rw [hisSome, hmem]
    refine ⟨Or.inr, fun hor => hor.elim (fun heq => ?_) id⟩
    rw [heq, hkey]
    rfl
  | none =>
    rw [stackOf_cons_none hkey]
    have hnot : key ∉ m.inserted ls.length := by
      rw [hmem, hkey]
      exact Bool.false_ne_true
    have hfresh : (⟨ls.length, Function.update m.entries key
          (some ((ls.length, value) :: stackOf ls key)),
        Function.update m.inserted ls.length (m.inserted ls.length ++ [key])⟩ :
          ScopedHashMap K V).Represents (assign (layer :: ls) key value) := by
      refine ⟨rfl, hentry _ rfl, ?_⟩
      rw [assign, Logged]
      dsimp only
      rw [Function.update_self]
      refine ⟨List.nodup_append.mpr ⟨hnodup, List.pairwise_singleton _ _, ?_⟩, fun key' => ?_,
        hrest.congr fun d hd => Function.update_of_ne (Nat.ne_of_lt hd) _ _⟩
      · rintro a ha b hb rfl
        exact hnot (List.mem_singleton.mp hb ▸ ha)
      · rw [hisSome, List.mem_append, List.mem_singleton, hmem, or_comm]
    cases hstack : stackOf ls key with
    | nil =>
      rw [hstack] at hfresh
      exact ⟨hfresh, rfl⟩
    | cons top rest =>
      obtain ⟨d, prev⟩ := top
      have hmemTop : (d, prev) ∈ stackOf ls key := by rw [hstack]; exact List.mem_cons_self
      have hd : d < ls.length := depth_lt_of_mem_stackOf hmemTop
      dsimp only
      rw [if_neg (Nat.ne_of_lt hd), ← hstack]
      exact ⟨hfresh, rfl⟩

end ScopedHashMap.Represents

/-! ### Runs -/

/-- The operations that change a map. -/
inductive ScopeOp (K V : Type) where
  | push
  | pop
  | insert (key : K) (value : V)
  | clear

section Runs

variable [DecidableEq K]

/-- An operation on a map, and what it returns; a run ends where it would panic. -/
def ScopeOp.onMap (m : ScopedHashMap K V) : ScopeOp K V → Option (ScopedHashMap K V × Option V)
  | .push => some (m.pushScope, none)
  | .pop => m.popScope.map fun m' => (m', none)
  | .insert key value => some (m.insert key value)
  | .clear => some (m.clear, none)

/-- An operation on scopes; the outermost one stays. -/
def ScopeOp.onScopes (ls : Scopes K V) : ScopeOp K V → Option (Scopes K V × Option V)
  | .push => some ((fun _ => none) :: ls, none)
  | .pop => if 1 < ls.length then some (ls.tail, none) else none
  | .insert key value => some (assign ls key value, ls.head?.bind fun layer => layer key)
  | .clear => some ([fun _ => none], none)

/-- A map and its scopes, at least the outermost one. -/
def ScopedHashMap.Stands (m : ScopedHashMap K V) (ls : Scopes K V) : Prop :=
  ls ≠ [] ∧ m.Represents ls

/-- One operation keeps the map and its scopes together. -/
lemma scopeOp_refines :
    Refines (ScopeOp.onMap (K := K) (V := V)) ScopeOp.onScopes ScopedHashMap.Stands := by
  rintro m (_ | ⟨layer, ls⟩) ⟨hne, h⟩ op
  · exact absurd rfl hne
  cases op with
  | push => exact Or.inr ⟨_, _, _, rfl, rfl, List.cons_ne_nil _ _, h.pushScope⟩
  | insert key value =>
    obtain ⟨hrep, hout⟩ := h.insert key value
    refine Or.inr ⟨(m.insert key value).1, _, layer key, ?_, rfl, List.cons_ne_nil _ _, hrep⟩
    rw [ScopeOp.onMap, ← hout]
  | clear => exact Or.inr ⟨_, _, _, rfl, rfl, List.cons_ne_nil _ _, .new⟩
  | pop =>
    cases ls with
    | nil =>
      have hzero : m.depth = 0 := by simpa using h.depth.symm
      refine Or.inl ⟨?_, rfl⟩
      rw [ScopeOp.onMap, ScopedHashMap.popScope, hzero]
      rfl
    | cons layer' ls' =>
      obtain ⟨m', hm', hrep⟩ := h.popScope (List.cons_ne_nil _ _)
      refine Or.inr ⟨m', layer' :: ls', none, ?_, ?_, List.cons_ne_nil _ _, hrep⟩
      · rw [ScopeOp.onMap, hm']
        rfl
      · simp [ScopeOp.onScopes]

/-- **A scoped map is a stack of scopes**: whatever operations are run from a new map, it
panics only where the outermost scope would be popped, each `insert` returns what the
current scope bound, and afterwards every key shows its innermost binding. -/
theorem scopedHashMap_refines (ops : List (ScopeOp K V)) :
    ((runOps ScopeOp.onMap ops (ScopedHashMap.new : ScopedHashMap K V)).map fun r =>
        (r.1.depth, r.1.get, r.2)) =
      (runOps ScopeOp.onScopes ops [fun _ => none]).map fun r =>
        (r.1.length - 1, lookup r.1, r.2) := by
  rcases scopeOp_refines.run ops ⟨List.cons_ne_nil _ _, ScopedHashMap.Represents.new⟩ with
    ⟨hm, hls⟩ | ⟨m', ls', outs, hm, hls, _, h⟩
  · rw [hm, hls]
    rfl
  · rw [hm, hls, Option.map_some, Option.map_some, h.depth]
    exact congrArg some (Prod.ext rfl (Prod.ext (funext h.get_eq) rfl))

end Runs

end Torajs.Egraph
