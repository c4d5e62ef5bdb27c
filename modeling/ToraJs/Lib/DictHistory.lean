import Mathlib.Data.List.ReduceOption
import ToraJs.Lib.OrderedDict

/-!
# The history of a dictionary under a cursor

A dictionary that is walked while it changes is given by its history: the list of all the
entries it ever took, in the order they came, where a removed entry leaves an empty position
that is never used again.  A cursor stands between the positions it has passed and those
ahead of it; a step goes to the first entry ahead.

This is what it means to walk a dictionary that is edited underway.  The file proves that
the positions a cursor visits increase, and that a cursor that has reached the end has
visited every entry that is still there.
-/

namespace OrderedDict

variable {K V : Type*} [DecidableEq K]

/-- Give a key another value. -/
def revalue (k : K) (v : V) (e : K × V) : K × V := if e.1 = k then (k, v) else e

/-- An edit of a dictionary. -/
inductive Edit (K V : Type*)
  | put (k : K) (v : V)
  | putAbsent (k : K) (v : V)
  | erase (k : K)
  | clear

/-- An edit as it changes a dictionary. -/
def Edit.apply (d : List (K × V)) : Edit K V → List (K × V)
  | .put k v => OrderedDict.put d k v
  | .putAbsent k v => if k ∈ d.map Prod.fst then d else d ++ [(k, v)]
  | .erase k => OrderedDict.erase d k
  | .clear => []

/-- An edit as it changes the entries on both sides of a cursor; a fresh key comes last. -/
def Edit.applySides (a b : List (K × V)) : Edit K V → List (K × V) × List (K × V)
  | .put k v =>
    if k ∈ (a ++ b).map Prod.fst then (a.map (revalue k v), b.map (revalue k v))
    else (a, b ++ [(k, v)])
  | .putAbsent k v =>
    if k ∈ (a ++ b).map Prod.fst then (a, b) else (a, b ++ [(k, v)])
  | .erase k => (OrderedDict.erase a k, OrderedDict.erase b k)
  | .clear => ([], [])

/-- A history with a cursor: the positions before it and those from it on. -/
structure History (K V : Type*) where
  passed : List (Option (K × V))
  ahead : List (Option (K × V))

namespace History

/-- The cursor at the start of a dictionary. -/
def start (d : List (K × V)) : History K V := ⟨[], d.map some⟩

/-- The positions of a history. -/
def data (h : History K V) : List (Option (K × V)) := h.passed ++ h.ahead

/-- The dictionary that a history has come to. -/
def entries (h : History K V) : List (K × V) :=
  h.passed.reduceOption ++ h.ahead.reduceOption

/-- Change every position. -/
def mapCells (h : History K V) (f : Option (K × V) → Option (K × V)) : History K V :=
  ⟨h.passed.map f, h.ahead.map f⟩

/-- An edit as it changes a history: a fresh key comes last, a removed one leaves its
position empty. -/
def edit (h : History K V) : Edit K V → History K V
  | .put k v =>
    if k ∈ h.entries.map Prod.fst then h.mapCells (Option.map (revalue k v))
    else { h with ahead := h.ahead ++ [some (k, v)] }
  | .putAbsent k v =>
    if k ∈ h.entries.map Prod.fst then h else { h with ahead := h.ahead ++ [some (k, v)] }
  | .erase k => h.mapCells (Option.filter fun e => e.1 ≠ k)
  | .clear => h.mapCells fun _ => none

/-- The first entry ahead, with its position and the history after it. -/
def advanceFrom (passed : List (Option (K × V))) :
    List (Option (K × V)) → Option (ℕ × (K × V) × History K V)
  | [] => none
  | none :: rest => advanceFrom (passed ++ [none]) rest
  | some e :: rest => some (passed.length, e, ⟨passed ++ [some e], rest⟩)

/-- A step of the cursor. -/
def advance (h : History K V) : Option (ℕ × (K × V) × History K V) :=
  advanceFrom h.passed h.ahead

end History

/-- What happens to a dictionary that is walked. -/
inductive WalkEvent (K V : Type*)
  | edit (e : Edit K V)
  | next

/-- The outcome of a walk: the entries visited, each with its position, the history at the
end, and whether the cursor has come to the end of it. -/
structure Visits (K V : Type*) where
  visited : List (ℕ × (K × V))
  last : History K V
  exhausted : Bool

/-- Walk a dictionary through edits, until the end of the history is reached. -/
def History.visits (h : History K V) : List (WalkEvent K V) → Visits K V
  | [] => ⟨[], h, false⟩
  | .edit e :: events => (h.edit e).visits events
  | .next :: events =>
    match h.advance with
    | none => ⟨[], h, true⟩
    | some (p, e, h') =>
      let rest := h'.visits events
      { rest with visited := (p, e) :: rest.visited }

/-! ### Edits -/

omit [DecidableEq K] in
/-- Emptying the positions of some entries. -/
lemma reduceOption_map_filter (q : K × V → Bool) (l : List (Option (K × V))) :
    (l.map (Option.filter q)).reduceOption = l.reduceOption.filter q := by
  induction l with
  | nil => rfl
  | cons o l ih =>
    cases o with
    | none => simpa [List.reduceOption_cons_of_none] using ih
    | some e =>
      cases hq : q e with
      | true => simp [Option.filter, hq, ih, List.reduceOption_cons_of_some]
      | false =>
        simp [Option.filter, hq, ih, List.reduceOption_cons_of_some,
          List.reduceOption_cons_of_none]

/-- The two sides of a cursor make up the dictionary. -/
lemma Edit.applySides_append (e : Edit K V) (a b : List (K × V)) :
    (e.applySides a b).1 ++ (e.applySides a b).2 = e.apply (a ++ b) := by
  cases e with
  | put k v =>
    simp only [applySides, apply]
    split_ifs with hk
    · rw [put_of_mem hk, List.map_append]
      rfl
    · rw [put_of_notMem hk, List.append_assoc]
  | putAbsent k v =>
    simp only [applySides, apply]
    split_ifs with hk
    · rfl
    · rw [List.append_assoc]
  | erase k => simp only [applySides, apply, OrderedDict.erase, List.filter_append]
  | clear => rfl

/-- An edit of the history edits the entries on both sides of the cursor. -/
theorem History.edit_sides (h : History K V) (e : Edit K V) :
    ((h.edit e).passed.reduceOption, (h.edit e).ahead.reduceOption) =
      e.applySides h.passed.reduceOption h.ahead.reduceOption := by
  have hentries : h.passed.reduceOption ++ h.ahead.reduceOption = h.entries := rfl
  cases e with
  | put k v =>
    simp only [History.edit, Edit.applySides, hentries]
    by_cases hk : k ∈ h.entries.map Prod.fst
    · simp only [if_pos hk, History.mapCells, List.reduceOption_map]
    · simp only [if_neg hk, List.reduceOption_append, List.reduceOption_singleton,
        Option.toList_some]
  | putAbsent k v =>
    simp only [History.edit, Edit.applySides, hentries]
    by_cases hk : k ∈ h.entries.map Prod.fst
    · simp only [if_pos hk]
    · simp only [if_neg hk, List.reduceOption_append, List.reduceOption_singleton,
        Option.toList_some]
  | erase k =>
    simp only [History.edit, Edit.applySides, History.mapCells, reduceOption_map_filter,
      OrderedDict.erase]
  | clear =>
    simp only [History.edit, Edit.applySides, History.mapCells, List.map_const',
      List.reduceOption_replicate_none]

/-- An edit of the history edits the dictionary it has come to. -/
theorem History.entries_edit (h : History K V) (e : Edit K V) :
    (h.edit e).entries = e.apply h.entries := by
  have hsides := h.edit_sides e
  have hboth := e.applySides_append h.passed.reduceOption h.ahead.reduceOption
  rw [← hsides] at hboth
  exact hboth

/-- An edit fills no position that the cursor has passed. -/
lemma History.edit_passed (h : History K V) (e : Edit K V) :
    ∃ f : Option (K × V) → Option (K × V), f none = none ∧
      (h.edit e).passed = h.passed.map f := by
  cases e with
  | put k v =>
    simp only [History.edit]
    split_ifs with hk
    · exact ⟨_, rfl, rfl⟩
    · exact ⟨id, rfl, (List.map_id _).symm⟩
  | putAbsent k v =>
    refine ⟨id, rfl, ?_⟩
    simp only [History.edit]
    split_ifs with hk
    · exact (List.map_id _).symm
    · exact (List.map_id _).symm
  | erase k => exact ⟨_, rfl, rfl⟩
  | clear => exact ⟨_, rfl, rfl⟩

/-! ### Steps -/

omit [DecidableEq K] in
/-- A step that finds nothing has only empty positions ahead. -/
lemma History.advanceFrom_eq_none {passed ahead : List (Option (K × V))} :
    advanceFrom passed ahead = none ↔ ahead.reduceOption = [] := by
  induction ahead generalizing passed with
  | nil => simp [advanceFrom, List.reduceOption_nil]
  | cons o rest ih =>
    cases o with
    | none => simp [advanceFrom, ih, List.reduceOption_cons_of_none]
    | some e => simp [advanceFrom, List.reduceOption_cons_of_some]

omit [DecidableEq K] in
/-- A step skips empty positions and stops behind the first entry. -/
lemma History.advanceFrom_eq_some {passed ahead : List (Option (K × V))} {p : ℕ} {e : K × V}
    {h : History K V} (hadv : advanceFrom passed ahead = some (p, e, h)) :
    ∃ n, h.passed = passed ++ List.replicate n none ++ [some e] ∧ p = passed.length + n ∧
      ahead = List.replicate n none ++ some e :: h.ahead := by
  induction ahead generalizing passed with
  | nil => simp [advanceFrom] at hadv
  | cons o rest ih =>
    cases o with
    | none =>
      obtain ⟨n, hpassed, hp, hahead⟩ := ih hadv
      refine ⟨n + 1, ?_, ?_, ?_⟩
      · rw [hpassed, List.replicate_succ, List.append_cons passed none (List.replicate n none)]
      · rw [hp, List.length_append, List.length_singleton]
        omega
      · rw [hahead, List.replicate_succ, List.cons_append]
    | some f =>
      simp only [advanceFrom, Option.some.injEq, Prod.mk.injEq] at hadv
      obtain ⟨rfl, rfl, rfl⟩ := hadv
      exact ⟨0, by simp, rfl, rfl⟩

omit [DecidableEq K] in
/-- What a step does to the entries on both sides of the cursor. -/
theorem History.advance_eq_some {h h' : History K V} {p : ℕ} {e : K × V}
    (hadv : h.advance = some (p, e, h')) :
    h.passed.length ≤ p ∧ h'.passed.length = p + 1 ∧ h.data[p]? = some (some e) ∧
      h'.passed.reduceOption = h.passed.reduceOption ++ [e] ∧
      h.ahead.reduceOption = e :: h'.ahead.reduceOption := by
  obtain ⟨n, hpassed, hp, hahead⟩ := advanceFrom_eq_some hadv
  have hnone : (List.replicate n (none : Option (K × V))).reduceOption = [] := by
    rw [List.reduceOption_replicate_none]
  refine ⟨by omega, ?_, ?_, ?_, ?_⟩
  · rw [hpassed, hp]
    simp [Nat.add_assoc]
  · rw [data, hahead, hp, List.getElem?_append_right (by omega), Nat.add_sub_cancel_left,
      List.getElem?_append_right (by simp)]
    simp
  · rw [hpassed, List.reduceOption_append, List.reduceOption_append, hnone, List.append_nil]
    rfl
  · rw [hahead, List.reduceOption_append, hnone, List.nil_append,
      List.reduceOption_cons_of_some]

/-! ### Walks -/

/-- The positions that a walk visits increase, from the place of the cursor on. -/
theorem History.visits_increasing (h : History K V) (events : List (WalkEvent K V)) :
    ((h.visits events).visited.map Prod.fst).Pairwise (· < ·) ∧
      ∀ p ∈ (h.visits events).visited.map Prod.fst, h.passed.length ≤ p := by
  induction events generalizing h with
  | nil => simp [visits]
  | cons event events ih =>
    cases event with
    | edit e =>
      obtain ⟨f, -, hf⟩ := h.edit_passed e
      obtain ⟨hpair, hge⟩ := ih (h.edit e)
      refine ⟨hpair, fun p hp => ?_⟩
      simpa [hf] using hge p hp
    | next =>
      cases hadv : h.advance with
      | none => simp [visits, hadv]
      | some r =>
        obtain ⟨p, e, h'⟩ := r
        obtain ⟨hle, hlen, -⟩ := advance_eq_some hadv
        obtain ⟨hpair, hge⟩ := ih h'
        rw [hlen] at hge
        simp only [visits, hadv, List.map_cons, List.pairwise_cons, List.mem_cons]
        refine ⟨⟨hge, hpair⟩, ?_⟩
        rintro q (rfl | hq)
        · exact hle
        · have := hge q hq
          omega

/-- An entry that is there when the walk has come to the end was visited, unless the cursor
had passed it at the beginning. -/
theorem History.visits_complete {h : History K V} {events : List (WalkEvent K V)}
    (hex : (h.visits events).exhausted = true) {p : ℕ} {e : K × V}
    (hp : (h.visits events).last.data[p]? = some (some e)) :
    (∃ f, h.passed[p]? = some (some f)) ∨
      p ∈ (h.visits events).visited.map Prod.fst := by
  induction events generalizing h with
  | nil => simp [visits] at hex
  | cons event events ih =>
    cases event with
    | edit e' =>
      obtain ⟨f, hfnone, hf⟩ := h.edit_passed e'
      rcases ih hex hp with ⟨g, hg⟩ | hvis
      · left
        rw [hf, List.getElem?_map] at hg
        cases ho : h.passed[p]? with
        | none => simp [ho] at hg
        | some o =>
          cases o with
          | none => simp [ho, hfnone] at hg
          | some g' => exact ⟨g', rfl⟩
      · exact Or.inr hvis
    | next =>
      cases hadv : h.advance with
      | none =>
        left
        have hahead := advanceFrom_eq_none.mp hadv
        simp only [visits, hadv, data] at hp
        rcases Nat.lt_or_ge p h.passed.length with hlt | hge
        · exact ⟨e, by rwa [List.getElem?_append_left hlt] at hp⟩
        · rw [List.getElem?_append_right hge] at hp
          have hmem := List.reduceOption_mem_iff.mpr (List.mem_of_getElem? hp)
          rw [hahead] at hmem
          exact absurd hmem List.not_mem_nil
      | some r =>
        obtain ⟨q, e', h'⟩ := r
        obtain ⟨n, hpassed, hq, -⟩ := advanceFrom_eq_some hadv
        simp only [visits, hadv] at hex hp ⊢
        rcases ih hex hp with ⟨g, hg⟩ | hvis
        · rw [hpassed, List.append_assoc] at hg
          rcases Nat.lt_or_ge p h.passed.length with hlt | hge
          · left
            exact ⟨g, by rwa [List.getElem?_append_left hlt] at hg⟩
          · right
            rw [List.getElem?_append_right hge] at hg
            rcases Nat.lt_or_ge (p - h.passed.length) n with hlt' | hge'
            · rw [List.getElem?_append_left (by simpa using hlt')] at hg
              simp [List.getElem?_replicate] at hg
            · rw [List.getElem?_append_right (by simpa using hge')] at hg
              have hlast := (List.getElem?_eq_some_iff.mp hg).1
              simp only [List.length_replicate, List.length_singleton] at hlast
              have heq : p = q := by omega
              simp [heq]
        · exact Or.inr (List.mem_cons_of_mem _ hvis)

end OrderedDict
