import ToraJs.Regalloc.Coalesce

/-!
# The ranges the allocator reads

`LiveRanges::compute` merges the ranges that the walk hands out into one list per value,
`LiveRanges::fold` gives a class's leader the ranges of its members, and
`Classes::fold_into` its leader the hull of theirs.

The result is the soundness of both: wherever a value is path-live and some definition
reaches it, its interval and its ranges hold the half-slot, and so do the interval and the
ranges of its class's leader.  A hash map hands out its entries in any order, so the order
of the classes is a parameter.
-/

namespace Torajs.Regalloc

open RangeList

/-- The entries of the class map, in the order it hands them out. -/
abbrev Entries := List (ValueId × Class)

/-- The entries by leader. -/
def Classes.entries (cs : Classes) (n : ℕ) : Entries :=
  (List.range n).filterMap fun l => (cs.classes l).map fun c => (l, c)

/-- `Classes::fold_into`, without the weights. -/
def foldInto (entries : Entries) (ivs : Intervals) : Intervals :=
  entries.foldl (fun ivs e =>
    Function.update (e.2.members.foldl (fun ivs m => Function.update ivs m none) ivs) e.1
      (some e.2.hull)) ivs

/-- The parameters and the alloca results: their only range is the hull. -/
def hullOnly (f : Func) (v : ValueId) : Bool := v ∈ f.params || v ∈ allocaResults f

/-- The members of classes other than the leaders. -/
def follows (entries : Entries) (v : ValueId) : Bool :=
  entries.any fun e => v ∈ e.2.members && v ≠ e.1

/-- The values the walk follows. -/
def keptBy (f : Func) (ivs : Intervals) (entries : Entries) (v : ValueId) : Bool :=
  ((ivs v).isSome || follows entries v) && !hullOnly f v

/-- The range being extended of every value, and the finished ones. -/
structure Pending where
  opened : ValueId → Option (ℕ × ℕ)
  pairs : Emitted

/-- A range handed out by the walk: it extends the value's open range or replaces it. -/
def Pending.extend (p : Pending) (x : ValueId × ℕ × ℕ) : Pending :=
  match p.opened x.1 with
  | some c =>
    if x.2.1 ≤ c.2 + 1 then
      { p with opened := Function.update p.opened x.1 (some (c.1, max c.2 x.2.2)) }
    else ⟨Function.update p.opened x.1 (some x.2), p.pairs ++ [(x.1, c)]⟩
  | none => { p with opened := Function.update p.opened x.1 (some x.2) }

/-- `LiveRanges`: the ranges of every value. -/
abbrev LiveRanges := ValueId → Ranges

/-- `LiveRanges::from_pairs`: each value keeps the order of its pairs. -/
def fromPairs (pairs : Emitted) : LiveRanges := emittedOf pairs

/-- The ranges merged along the walk, blocks in order and each backward. -/
def walkedRanges (f : Func) (bl : BlockLiveness) (keep : ValueId → Bool) : Pending :=
  (walkHalfSlots f bl keep).foldl (fun p block => block.reverse.foldl Pending.extend p)
    ⟨fun _ => none, []⟩

/-- One range at most for each value, in the order of the values. -/
def inOrder (n : ℕ) (range : ValueId → Option (ℕ × ℕ)) : Emitted :=
  (List.range n).filterMap fun v => (range v).map fun c => (v, c)

/-- A hull in half-slots. -/
def hullRange (it : Interval) : ℕ × ℕ := (2 * it.start, 2 * it.stop + 1)

/-- `LiveRanges::compute`. -/
def computeRanges (f : Func) (bl : BlockLiveness) (ivs : Intervals) (entries : Entries) :
    LiveRanges :=
  let walked := walkedRanges f bl (keptBy f ivs entries)
  let hulls := fun v => if hullOnly f v then (ivs v).map hullRange else none
  fromPairs (walked.pairs ++ inOrder f.values.length walked.opened ++
    inOrder f.values.length hulls)

/-- `LiveRanges::fold`: the members' ranges, sorted and merged. -/
def foldRanges (entries : Entries) (r : LiveRanges) : LiveRanges :=
  entries.foldl (fun r e => Function.update r e.1 (gathered (e.2.members.flatMap r))) r

/-- `LiveRanges::within`, for one value. -/
def Within (ranges : Ranges) (it : Interval) : Prop :=
  Proper ranges ∧ Separated ranges ∧ ∀ r ∈ ranges, it.start ≤ r.1 / 2 ∧ r.2 / 2 ≤ it.stop

/-! ### One value's ranges -/

/-- The walk's state seen from one value: the merged ranges, last one first. -/
def Pending.view (p : Pending) (v : ValueId) : Ranges :=
  (p.opened v).toList ++ (emittedOf p.pairs v).reverse

/-- A value with no open range has no finished one. -/
def Pending.Ok (p : Pending) (v : ValueId) : Prop := p.opened v = none → emittedOf p.pairs v = []

lemma Pending.extend_self {p : Pending} {v : ValueId} (hp : p.Ok v) (r : ℕ × ℕ) :
    (p.extend (v, r)).view v = push (p.view v) r ∧ (p.extend (v, r)).Ok v := by
  rw [Pending.extend]
  cases hc : p.opened v with
  | none =>
    simp [Pending.view, Pending.Ok, hc, hp hc, push]
  | some c =>
    dsimp only
    by_cases htouch : r.1 ≤ c.2 + 1
    · rw [if_pos htouch]
      simp [Pending.view, Pending.Ok, hc, push, htouch]
    · rw [if_neg htouch]
      simp [Pending.view, Pending.Ok, hc, push, htouch, emittedOf_append, emittedOf_singleton]

lemma Pending.extend_of_ne {p : Pending} {v w : ValueId} (h : w ≠ v) (r : ℕ × ℕ) :
    (p.extend (w, r)).opened v = p.opened v ∧
      emittedOf (p.extend (w, r)).pairs v = emittedOf p.pairs v := by
  rw [Pending.extend]
  cases p.opened w with
  | none => exact ⟨Function.update_of_ne h.symm _ _, rfl⟩
  | some c =>
    dsimp only
    split_ifs
    · exact ⟨Function.update_of_ne h.symm _ _, rfl⟩
    · refine ⟨Function.update_of_ne h.symm _ _, ?_⟩
      rw [emittedOf_append, emittedOf_singleton, if_neg h, List.append_nil]

/-- Extending by all the ranges of a list merges those of the value. -/
lemma Pending.foldl_extend (v : ValueId) (out : Emitted) : ∀ {p : Pending}, p.Ok v →
    (out.foldl Pending.extend p).view v = (emittedOf out v).foldl push (p.view v) ∧
      (out.foldl Pending.extend p).Ok v := by
  induction out with
  | nil => exact fun hp => ⟨rfl, hp⟩
  | cons x out ih =>
    intro p hp
    obtain ⟨w, r⟩ := x
    have hcons : emittedOf ((w, r) :: out) v = emittedOf [(w, r)] v ++ emittedOf out v :=
      emittedOf_append [(w, r)] out v
    rw [List.foldl_cons, hcons, emittedOf_singleton, List.foldl_append]
    by_cases hwv : w = v
    · subst hwv
      obtain ⟨hview, hok⟩ := Pending.extend_self hp r
      rw [if_pos rfl, List.foldl_cons, List.foldl_nil, ← hview]
      exact ih hok
    · obtain ⟨hopened, hpairs⟩ := p.extend_of_ne hwv r
      rw [if_neg hwv, List.foldl_nil]
      have hview : (p.extend (w, r)).view v = p.view v := by
        rw [Pending.view, hopened, hpairs, ← Pending.view]
      rw [← hview]
      refine ih ?_
      intro hnone
      rw [hpairs]
      exact hp (by rw [← hopened]; exact hnone)

/-- The walk hands out nothing for a value it does not follow. -/
lemma emittedOf_walkBlock_of_not_keep {keep : ValueId → Bool} {v : ValueId} (hv : keep v = false)
    (bl : BlockLiveness) (bi : Block × ℕ) : emittedOf (walkBlock keep bl bi) v = [] := by
  have hopenAll : ∀ (h : ℕ) (vs : List ValueId) (o : Open),
      (openAll keep h o vs).ends v = o.ends v := by
    intro h vs
    induction vs with
    | nil => exact fun _ => rfl
    | cons w vs ih =>
      intro o
      have hcons : openAll keep h o (w :: vs) =
          openAll keep h (if keep w then o.openAt w h else o) vs := rfl
      rw [hcons, ih]
      split_ifs with hw
      · have hwv : v ≠ w := by
          rintro rfl
          rw [hv] at hw
          cases hw
        rw [Open.openAt]
        cases o.ends w with
        | none => exact Function.update_of_ne hwv _ _
        | some _ => rfl
      · rfl
  have hwalk : ∀ (l : List (Slot × ℕ)) (st : Open × Emitted), st.1.ends v = none →
      emittedOf st.2 v = [] → (l.foldl (walkSlot keep) st).1.ends v = none ∧
        emittedOf (l.foldl (walkSlot keep) st).2 v = [] := by
    intro l
    induction l with
    | nil => exact fun _ hends hout => ⟨hends, hout⟩
    | cons s l ih =>
      intro st hends hout
      rw [List.foldl_cons]
      have hmid : ∀ st' : Open × Emitted, st'.1.ends v = none → emittedOf st'.2 v = [] →
          (openAll keep (2 * s.2) st'.1 s.1.reads).ends v = none ∧ emittedOf st'.2 v = [] :=
        fun st' he ho => ⟨by rw [hopenAll, he], ho⟩
      rw [walkSlot]
      cases s.1.result with
      | none => exact ih _ (hmid _ hends hout).1 hout
      | some r =>
        dsimp only
        split_ifs with hr
        · have hrv : r ≠ v := by
            rintro rfl
            rw [hv] at hr
            cases hr
          refine ih _ ?_ ?_
          · change (openAll keep (2 * s.2) (st.1.close r) s.1.reads).ends v = none
            rw [hopenAll, ends_close_of_ne st.1 hrv.symm, hends]
          · change emittedOf (st.2 ++ _) v = []
            rw [emittedOf_append, hout, emittedOf_singleton, if_neg hrv, List.append_nil]
        · exact ih _ (hmid _ hends hout).1 hout
  rw [walkBlock]
  obtain ⟨hends, hout⟩ := hwalk (bi.1.slots.zipIdx (bl.start bi.2)).reverse
    (openAll keep (2 * bl.stop bi.2 + 1) ⟨fun _ => none, []⟩ (bl.liveOut bi.2), [])
    (by rw [hopenAll]) rfl
  rw [emittedOf_closeRest, hout, hends]
  simp

lemma emittedOf_inOrder (n : ℕ) (range : ValueId → Option (ℕ × ℕ)) {v : ValueId} (hv : v < n) :
    emittedOf (inOrder n range) v = (range v).toList := by
  have hkey : ∀ l : List ℕ, l.Nodup → emittedOf (l.filterMap fun v => (range v).map fun c => (v, c)) v =
      if v ∈ l then (range v).toList else [] := by
    intro l
    induction l with
    | nil => exact fun _ => rfl
    | cons u l ih =>
      intro hl
      obtain ⟨hu, hl⟩ := List.nodup_cons.mp hl
      have hsplit : (u :: l).filterMap (fun v => (range v).map fun c => (v, c)) =
          ((range u).map fun c => (u, c)).toList ++
            l.filterMap fun v => (range v).map fun c => (v, c) := by
        rw [List.filterMap_cons]
        cases range u <;> rfl
      rw [hsplit, emittedOf_append, ih hl]
      by_cases huv : u = v
      · subst huv
        rw [if_neg hu, List.append_nil]
        cases range u <;> simp [emittedOf]
      · have hother : emittedOf ((range u).map fun c => (u, c)).toList v = [] := by
          cases range u <;> simp [emittedOf, huv]
        rw [hother, List.nil_append]
        simp [Ne.symm huv]
  rw [inOrder, hkey _ List.nodup_range, if_pos (List.mem_range.mpr hv)]

section Compute

variable {f : Func} {bl : BlockLiveness} {ivs : Intervals} {entries : Entries} {v : ValueId}

/-- What the walk leaves of a value: its ranges merged, or nothing. -/
lemma walkedRanges_view (f : Func) (bl : BlockLiveness) (keep : ValueId → Bool) (v : ValueId) :
    (walkedRanges f bl keep).view v =
        (if keep v then valueRanges f bl v else []).foldl push [] ∧
      (walkedRanges f bl keep).Ok v := by
  have hrun : ∀ (l : List (Block × ℕ)) (p : Pending), p.Ok v →
      let st := (l.map (walkBlock keep bl)).foldl
        (fun p block => block.reverse.foldl Pending.extend p) p
      st.view v = (if keep v then l.flatMap (blockRanges bl v) else []).foldl push (p.view v) ∧
        st.Ok v := by
    intro l
    induction l with
    | nil =>
      intro p hp
      refine ⟨?_, hp⟩
      rw [List.flatMap_nil, ite_self]
      rfl
    | cons bi l ih =>
      intro p hp
      have hblock : emittedOf (walkBlock keep bl bi).reverse v =
          if keep v then blockRanges bl v bi else [] := by
        have hreverse : emittedOf (walkBlock keep bl bi).reverse v =
            (emittedOf (walkBlock keep bl bi) v).reverse := by
          rw [emittedOf, emittedOf, List.filter_reverse, List.map_reverse]
        rw [hreverse]
        cases hk : keep v with
        | true =>
          rw [emittedOf_walkBlock hk, List.reverse_reverse]
          rfl
        | false =>
          rw [emittedOf_walkBlock_of_not_keep hk]
          rfl
      obtain ⟨hview, hok⟩ := Pending.foldl_extend v (walkBlock keep bl bi).reverse hp
      obtain ⟨ihview, ihok⟩ := ih _ hok
      dsimp only at ihview ihok ⊢
      rw [List.map_cons, List.foldl_cons]
      refine ⟨?_, ihok⟩
      rw [ihview, hview, hblock, ← List.foldl_append]
      split_ifs
      · rw [List.flatMap_cons]
      · rfl
  exact hrun f.blocks.zipIdx ⟨fun _ => none, []⟩ fun _ => rfl

/-- A followed value's ranges. -/
lemma computeRanges_of_kept (hv : v < f.values.length) (hkeep : keptBy f ivs entries v = true) :
    computeRanges f bl ivs entries v = merged (valueRanges f bl v) := by
  obtain ⟨hview, _⟩ := walkedRanges_view f bl (keptBy f ivs entries) v
  rw [if_pos hkeep, Pending.view] at hview
  have hhull : hullOnly f v = false := by
    rw [keptBy, Bool.and_eq_true] at hkeep
    simpa using hkeep.2
  rw [computeRanges, fromPairs, emittedOf_append, emittedOf_append, emittedOf_inOrder _ _ hv,
    emittedOf_inOrder _ _ hv, hhull, merged, ← hview]
  cases (walkedRanges f bl (keptBy f ivs entries)).opened v <;> simp

/-- A parameter's or an alloca result's only range. -/
lemma computeRanges_of_hullOnly (hv : v < f.values.length) (hhull : hullOnly f v = true) :
    computeRanges f bl ivs entries v = ((ivs v).map hullRange).toList := by
  obtain ⟨hview, hok⟩ := walkedRanges_view f bl (keptBy f ivs entries) v
  have hkeep : ¬ keptBy f ivs entries v = true := by
    rw [keptBy, hhull]
    simp
  rw [if_neg hkeep, Pending.view, List.foldl_nil, List.append_eq_nil_iff] at hview
  have hopened : (walkedRanges f bl (keptBy f ivs entries)).opened v = none := by
    cases ho : (walkedRanges f bl (keptBy f ivs entries)).opened v with
    | none => rfl
    | some c =>
      rw [ho] at hview
      cases hview.1
  rw [computeRanges, fromPairs, emittedOf_append, emittedOf_append, emittedOf_inOrder _ _ hv,
    emittedOf_inOrder _ _ hv, hok hopened, hopened, if_pos hhull]
  rfl

end Compute

/-! ### Folding classes into their leaders -/

/-- What the entries of the class map satisfy: sound classes that hold their leaders and
share no member. -/
structure EntriesOk (f : Func) (bl : BlockLiveness) (ivs : Intervals) (entries : Entries) :
    Prop where
  ok : ∀ e ∈ entries, ClassOk f bl ivs e.2
  self : ∀ e ∈ entries, e.1 ∈ e.2.members
  disjoint : entries.Pairwise fun e e' => ∀ m ∈ e.2.members, m ∉ e'.2.members

lemma Classes.mem_entries {cs : Classes} {n : ℕ} {l : ValueId} {c : Class} :
    (l, c) ∈ cs.entries n ↔ l < n ∧ cs.classes l = some c := by
  rw [Classes.entries, List.mem_filterMap]
  constructor
  · rintro ⟨l', hl', hc⟩
    obtain ⟨c', hc', heq⟩ := Option.map_eq_some_iff.mp hc
    cases heq
    exact ⟨List.mem_range.mp hl', hc'⟩
  · rintro ⟨hl, hc⟩
    exact ⟨l, List.mem_range.mpr hl, by rw [hc]; rfl⟩

/-- The classes of the map share no member, whatever the order. -/
lemma ClassesOk.entriesOk {f : Func} {bl : BlockLiveness} {ivs : Intervals} {cs : Classes}
    (hcs : ClassesOk f bl ivs cs) {entries : Entries} {n : ℕ}
    (horder : entries.Perm (cs.entries n)) : EntriesOk f bl ivs entries := by
  have hmem : ∀ e ∈ entries, cs.classes e.1 = some e.2 := fun e he =>
    (Classes.mem_entries.mp (horder.mem_iff.mp he)).2
  refine ⟨fun e he => hcs.ok _ _ (hmem e he), fun e he => hcs.self _ _ (hmem e he), ?_⟩
  have hkeys : (cs.entries n).Pairwise fun e e' => e.1 ≠ e'.1 := by
    refine List.pairwise_filterMap.mpr ?_
    refine List.nodup_range.imp fun {l l'} hne e he e' he' => ?_
    obtain ⟨_, _, rfl⟩ := Option.map_eq_some_iff.mp he
    obtain ⟨_, _, rfl⟩ := Option.map_eq_some_iff.mp he'
    exact hne
  have hkeys' := horder.symm.pairwise hkeys fun hne => hne.symm
  refine List.Pairwise.imp_of_mem (fun {e e'} he he' hne m hm hm' => hne ?_) hkeys'
  exact (hcs.root _ _ m (hmem e he) hm).symm.trans (hcs.root _ _ m (hmem e' he') hm')

section Fold

variable {f : Func} {bl : BlockLiveness} {ivs : Intervals} {entries : Entries}

/-- Around an entry, the others share no member with it. -/
lemma EntriesOk.split (h : EntriesOk f bl ivs entries) {e : ValueId × Class} (he : e ∈ entries) :
    ∃ pre post, entries = pre ++ e :: post ∧
      ∀ e', e' ∈ pre ∨ e' ∈ post → ∀ m ∈ e.2.members, m ∉ e'.2.members ∧ m ≠ e'.1 := by
  obtain ⟨pre, post, rfl⟩ := List.append_of_mem he
  refine ⟨pre, post, rfl, fun e' he' m hm => ?_⟩
  obtain ⟨_, hpost, hpre⟩ := List.pairwise_append.mp h.disjoint
  have hmem : m ∉ e'.2.members := by
    rcases he' with he' | he'
    · exact fun hm' => hpre e' he' e List.mem_cons_self m hm' hm
    · exact (List.pairwise_cons.mp hpost).1 e' he' m hm
  have hself : e'.1 ∈ e'.2.members := by
    refine h.self e' (List.mem_append.mpr ?_)
    exact he'.imp id (List.mem_cons_of_mem e)
  refine ⟨hmem, ?_⟩
  rintro rfl
  exact hmem hself

lemma foldInto_of_not_mem {v : ValueId} : ∀ {entries : Entries} {ivs : Intervals},
    (∀ e ∈ entries, v ∉ e.2.members ∧ v ≠ e.1) → foldInto entries ivs v = ivs v := by
  have hclear : ∀ (members : List ValueId) (ivs : Intervals), v ∉ members →
      members.foldl (fun ivs m => Function.update ivs m none) ivs v = ivs v := by
    intro members
    induction members with
    | nil => exact fun _ _ => rfl
    | cons m members ih =>
      intro ivs hv
      rw [List.mem_cons, not_or] at hv
      rw [List.foldl_cons, ih _ hv.2, Function.update_of_ne hv.1]
  intro entries
  induction entries with
  | nil => exact fun _ => rfl
  | cons e entries ih =>
    intro ivs hv
    obtain ⟨hmem, hne⟩ := hv e List.mem_cons_self
    have hcons : foldInto (e :: entries) ivs = foldInto entries (Function.update
      (e.2.members.foldl (fun ivs m => Function.update ivs m none) ivs) e.1 (some e.2.hull)) := rfl
    rw [hcons, ih fun e' he' => hv e' (List.mem_cons_of_mem _ he'), Function.update_of_ne hne,
      hclear _ _ hmem]

/-- A leader's interval is its class's hull, and the other members have none. -/
lemma EntriesOk.foldInto_member (h : EntriesOk f bl ivs entries) {e : ValueId × Class}
    (he : e ∈ entries) {m : ValueId} (hm : m ∈ e.2.members) (ivs' : Intervals) :
    foldInto entries ivs' m = if m = e.1 then some e.2.hull else none := by
  have hclear : ∀ (members : List ValueId) (ivs : Intervals), m ∈ members ∨ ivs m = none →
      members.foldl (fun ivs m => Function.update ivs m none) ivs m = none := by
    intro members
    induction members with
    | nil => exact fun _ hm => hm.resolve_left List.not_mem_nil
    | cons u members ih =>
      intro ivs hm
      rw [List.foldl_cons]
      by_cases hmu : m = u
      · exact ih _ (Or.inr (by rw [hmu, Function.update_self]))
      · refine ih _ ?_
        rw [Function.update_of_ne hmu]
        exact hm.imp (fun hm => (List.mem_cons.mp hm).resolve_left hmu) id
  obtain ⟨pre, post, rfl, hother⟩ := h.split he
  have happend : foldInto (pre ++ e :: post) ivs' = foldInto post (Function.update
      (e.2.members.foldl (fun ivs m => Function.update ivs m none) (foldInto pre ivs')) e.1
      (some e.2.hull)) := by
    rw [foldInto, List.foldl_append]
    rfl
  rw [happend, foldInto_of_not_mem fun e' he' => hother e' (Or.inr he') m hm,
    Function.update_apply, hclear _ _ (Or.inl hm)]

lemma foldRanges_of_ne {v : ValueId} : ∀ {entries : Entries} {r : LiveRanges},
    (∀ e ∈ entries, v ≠ e.1) → foldRanges entries r v = r v := by
  intro entries
  induction entries with
  | nil => exact fun _ => rfl
  | cons e entries ih =>
    intro r hv
    have hcons : foldRanges (e :: entries) r = foldRanges entries
      (Function.update r e.1 (gathered (e.2.members.flatMap r))) := rfl
    rw [hcons, ih fun e' he' => hv e' (List.mem_cons_of_mem _ he'),
      Function.update_of_ne (hv e List.mem_cons_self)]

/-- A leader's ranges are its members' ranges gathered. -/
lemma EntriesOk.foldRanges_leader (h : EntriesOk f bl ivs entries) {e : ValueId × Class}
    (he : e ∈ entries) (r : LiveRanges) :
    foldRanges entries r e.1 = gathered (e.2.members.flatMap r) := by
  have hself := h.self e he
  obtain ⟨pre, post, rfl, hother⟩ := h.split he
  have happend : foldRanges (pre ++ e :: post) r = foldRanges post (Function.update
      (foldRanges pre r) e.1 (gathered (e.2.members.flatMap (foldRanges pre r)))) := by
    rw [foldRanges, List.foldl_append]
    rfl
  have hpre : e.2.members.flatMap (foldRanges pre r) = e.2.members.flatMap r := by
    refine List.flatMap_congr fun m hm => foldRanges_of_ne fun e' he' => ?_
    exact (hother e' (Or.inl he') m hm).2
  rw [happend, foldRanges_of_ne fun e' he' => (hother e' (Or.inr he') e.1 hself).2,
    Function.update_self, hpre]

/-- A value is in a class, or its interval is its own. -/
lemma foldInto_cases (entries : Entries) (hself : ∀ e ∈ entries, e.1 ∈ e.2.members)
    (ivs' : Intervals) (v : ValueId) :
    (∃ e ∈ entries, v ∈ e.2.members) ∨
      (∀ e ∈ entries, v ∉ e.2.members ∧ v ≠ e.1) ∧ foldInto entries ivs' v = ivs' v := by
  by_cases hmem : ∃ e ∈ entries, v ∈ e.2.members
  · exact Or.inl hmem
  · have hnot : ∀ e ∈ entries, v ∉ e.2.members ∧ v ≠ e.1 := by
      intro e he
      have hv : v ∉ e.2.members := fun hv => hmem ⟨e, he, hv⟩
      refine ⟨hv, ?_⟩
      rintro rfl
      exact hv (hself e he)
    exact Or.inr ⟨hnot, foldInto_of_not_mem hnot⟩

end Fold

/-! ### Soundness -/

/-- A point's half-slot lies in its slot. -/
lemma Func.halfSlot_div (f : Func) (x : Point) : f.halfSlot x / 2 = f.start x.block + x.slot := by
  rw [Func.halfSlot]
  split_ifs <;> omega

section Sound

variable {f : Func} {bl : BlockLiveness} {ivs : Intervals} {entries : Entries} {v : ValueId}
  {it : Interval} (h : LiveSets f bl) (hc : Covering f bl ivs) (he : EntriesOk f bl ivs entries)

include hc he

/-- The ranges of a value that has an interval: merged, or its hull. -/
lemma computeRanges_cases (hv : v < f.values.length) (hit : ivs v = some it) :
    hullOnly f v = false ∧
        computeRanges f bl (foldInto entries ivs) entries v = merged (valueRanges f bl v) ∨
      it.start ≤ it.stop ∧
        computeRanges f bl (foldInto entries ivs) entries v = [hullRange it] := by
  cases hhull : hullOnly f v with
  | true =>
    right
    -- a class member is neither a parameter nor an alloca result
    have hown : foldInto entries ivs v = ivs v := by
      rcases foldInto_cases entries he.self ivs v with ⟨e, hmem, hve⟩ | ⟨_, hown⟩
      · obtain ⟨hp, ha, _⟩ := (he.ok e hmem).plain v hve
        simp [hullOnly, hp, ha] at hhull
      · exact hown
    refine ⟨?_, by rw [computeRanges_of_hullOnly hv hhull, hown, hit]; rfl⟩
    rw [hullOnly, Bool.or_eq_true, decide_eq_true_eq, decide_eq_true_eq] at hhull
    rcases hhull with hp | ha
    · obtain ⟨it', hit', hzero⟩ := hc.param v hp
      obtain rfl := Option.some.inj (hit.symm.trans hit')
      omega
    · obtain ⟨b, hb, hmem⟩ := List.mem_flatMap.mp ha
      obtain ⟨inst, hinst, hres⟩ := List.mem_filterMap.mp hmem
      have hslot : inst.slot ∈ f.slots := List.mem_flatMap.mpr
        ⟨b, hb, List.mem_append_left _ (List.mem_map_of_mem (List.mem_filter.mp hinst).1)⟩
      obtain ⟨q, hq⟩ := List.mem_iff_getElem?.mp hslot
      obtain ⟨it', hit', hle, hge⟩ := hc.define q _ v hq hres
      obtain rfl := Option.some.inj (hit.symm.trans hit')
      exact hle.trans hge
  | false =>
    left
    refine ⟨rfl, computeRanges_of_kept hv ?_⟩
    rw [keptBy, hhull, Bool.not_false, Bool.and_true, Bool.or_eq_true]
    rcases foldInto_cases entries he.self ivs v with ⟨e, hmem, hve⟩ | ⟨_, hown⟩
    · rw [he.foldInto_member hmem hve]
      by_cases hve' : v = e.1
      · rw [if_pos hve']
        exact Or.inl rfl
      · right
        exact List.any_eq_true.mpr ⟨e, hmem, by simp [hve, hve']⟩
    · left
      rw [hown, hit]
      rfl

include h

/-- **The ranges are sorted, separated and inside the interval.** -/
theorem computeRanges_within (hv : v < f.values.length) (hit : ivs v = some it) :
    Within (computeRanges f bl (foldInto entries ivs) entries v) it := by
  rcases computeRanges_cases hc he hv hit with ⟨_, hranges⟩ | ⟨hle, hranges⟩
  · have hproper := proper_valueRanges h v
    obtain ⟨hp, hs, _⟩ := merged_spec hproper ((ascending_valueRanges h v).startsAscend hproper)
    rw [hranges]
    refine ⟨hp, hs, merged_bounds (P := fun lo => it.start ≤ lo / 2)
      (Q := fun hi => hi / 2 ≤ it.stop) fun r hr => ?_⟩
    obtain ⟨hlo, hhi⟩ := valueRanges_inside h v hc hit hr
    omega
  · rw [hranges]
    refine ⟨fun r hr => ?_, List.pairwise_singleton _ _, fun r hr => ?_⟩
    · rw [List.mem_singleton.mp hr, hullRange]
      omega
    · rw [List.mem_singleton.mp hr, hullRange]
      omega

/-- **The ranges cover every half-slot where the value is path-live.** -/
theorem covers_computeRanges (hv : v < f.values.length) (hit : ivs v = some it) {x : Point}
    (hx : f.LiveAt v x) :
    Covers (computeRanges f bl (foldInto entries ivs) entries v) (f.halfSlot x) := by
  rcases computeRanges_cases hc he hv hit with ⟨_, hranges⟩ | ⟨_, hranges⟩
  · have hproper := proper_valueRanges h v
    rw [hranges, (merged_spec hproper ((ascending_valueRanges h v).startsAscend hproper)).2.2]
    exact covers_valueRanges h v hx
  · rw [hranges]
    obtain ⟨hlo, hhi⟩ := hc.contains h hit hx
    have hdiv := f.halfSlot_div x
    refine ⟨_, List.mem_singleton_self _, ?_⟩
    rw [hullRange]
    omega

/-- A leader's ranges are inside its class's hull, separated and sorted. -/
theorem foldRanges_within (hv : v < f.values.length) (hit : foldInto entries ivs v = some it) :
    Within (foldRanges entries (computeRanges f bl (foldInto entries ivs) entries) v) it := by
  rcases foldInto_cases entries he.self ivs v with ⟨e, hmem, hve⟩ | ⟨hnot, hown⟩
  · rw [he.foldInto_member hmem hve] at hit
    by_cases hlead : v = e.1
    · subst hlead
      rw [if_pos rfl] at hit
      obtain rfl := Option.some.inj hit
      rw [he.foldRanges_leader hmem]
      have hmember : ∀ m ∈ e.2.members, ∃ itm, ivs m = some itm ∧ e.2.hull.start ≤ itm.start ∧
          itm.stop ≤ e.2.hull.stop ∧
          Within (computeRanges f bl (foldInto entries ivs) entries m) itm := by
        intro m hm
        obtain ⟨itm, hitm, hle, hge⟩ := (he.ok e hmem).hull m hm
        obtain ⟨_, _, hlt⟩ := (he.ok e hmem).plain m hm
        exact ⟨itm, hitm, hle, hge, computeRanges_within h hc he hlt hitm⟩
      obtain ⟨hp, hs, _⟩ := gathered_spec fun r hr => by
        obtain ⟨m, hm, hr⟩ := List.mem_flatMap.mp hr
        obtain ⟨_, _, _, _, hproper, _⟩ := hmember m hm
        exact hproper r hr
      refine ⟨hp, hs, gathered_bounds (P := fun lo => e.2.hull.start ≤ lo / 2)
        (Q := fun hi => hi / 2 ≤ e.2.hull.stop) fun r hr => ?_⟩
      obtain ⟨m, hm, hr⟩ := List.mem_flatMap.mp hr
      obtain ⟨itm, _, hle, hge, _, _, hinside⟩ := hmember m hm
      obtain ⟨hlo, hhi⟩ := hinside r hr
      exact ⟨hle.trans hlo, hhi.trans hge⟩
    · rw [if_neg hlead] at hit
      cases hit
  · rw [foldRanges_of_ne fun e hmem => (hnot e hmem).2]
    rw [hown] at hit
    exact computeRanges_within h hc he hv hit

/-- A leader's ranges and interval hold the half-slots of every value it leads. -/
theorem covers_foldRanges {cs : Classes} {n : ℕ} (hcs : ClassesOk f bl ivs cs)
    (horder : entries.Perm (cs.entries n)) (hlen : n = f.values.length)
    (hv : v < f.values.length) (hit : ivs v = some it) {x : Point} (hx : f.LiveAt v x) :
    (∃ itl, foldInto entries ivs (cs.leader v) = some itl ∧ itl.contains (f.halfSlot x / 2)) ∧
      Covers (foldRanges entries (computeRanges f bl (foldInto entries ivs) entries)
        (cs.leader v)) (f.halfSlot x) := by
  have hown := covers_computeRanges h hc he hv hit hx
  obtain ⟨hlo, hhi⟩ := hc.contains h hit hx
  rw [f.halfSlot_div]
  have hclass : ∀ e ∈ entries, v ∈ e.2.members → cs.leader v = e.1 := fun e hmem hve =>
    hcs.root _ _ v (Classes.mem_entries.mp (horder.mem_iff.mp hmem)).2 hve
  rcases foldInto_cases entries he.self ivs v with ⟨e, hmem, hve⟩ | ⟨hnot, hsame⟩
  · rw [hclass e hmem hve]
    obtain ⟨itv, hitv, hle, hge⟩ := (he.ok e hmem).hull v hve
    obtain rfl := Option.some.inj (hit.symm.trans hitv)
    refine ⟨⟨e.2.hull, ?_, hle.trans hlo, hhi.trans hge⟩, ?_⟩
    · rw [he.foldInto_member hmem (he.self e hmem), if_pos rfl]
    · rw [he.foldRanges_leader hmem]
      obtain ⟨_, _, hcov⟩ := gathered_spec
        (l := e.2.members.flatMap (computeRanges f bl (foldInto entries ivs) entries))
        fun r hr => by
          obtain ⟨m, hm, hr⟩ := List.mem_flatMap.mp hr
          obtain ⟨itm, hitm, _⟩ := (he.ok e hmem).hull m hm
          obtain ⟨_, _, hlt⟩ := (he.ok e hmem).plain m hm
          exact (computeRanges_within h hc he hlt hitm).1 r hr
      rw [hcov]
      obtain ⟨r, hr, hr'⟩ := hown
      exact ⟨r, List.mem_flatMap.mpr ⟨v, hve, hr⟩, hr'⟩
  · -- a value of no class leads itself
    have hlead : cs.leader v = v := by
      cases hl : cs.leaderOf v with
      | none => rw [Classes.leader, hl, Option.getD_none]
      | some l =>
        obtain ⟨c, hcl, hmem⟩ := hcs.led v l hl
        obtain ⟨_, _, hlt⟩ := (hcs.ok l c hcl).plain l (hcs.self l c hcl)
        have hentry : (l, c) ∈ entries :=
          horder.mem_iff.mpr (Classes.mem_entries.mpr ⟨by rw [hlen]; exact hlt, hcl⟩)
        exact absurd hmem (hnot _ hentry).1
    rw [hlead]
    refine ⟨⟨it, hsame.trans hit, hlo, hhi⟩, ?_⟩
    rw [foldRanges_of_ne fun e hmem => (hnot e hmem).2]
    exact hown

omit h hc he in
/-- A live value is read somewhere. -/
lemma Func.LiveAt.lt_values (hvis : f.visitable = true) {x : Point} (hx : f.LiveAt v x) :
    v < f.values.length := by
  induction hx with
  | use hx =>
    obtain ⟨_, s, hs, hv⟩ := hx
    obtain ⟨b, hb, hs⟩ := Option.bind_eq_some_iff.mp hs
    exact Func.lt_values hvis (List.mem_of_getElem? hb) (List.mem_of_getElem? hs) (Or.inl hv)
  | step _ _ _ ih => exact ih

omit h he in
/-- A value that some definition reaches has an interval. -/
lemma Covering.exists_of_reachedBy {x : Point} (hx : f.ReachedBy v x) : ∃ it, ivs v = some it := by
  obtain ⟨d, hdef, _⟩ := hx
  rcases hdef with ⟨_, s, hs, hres⟩ | ⟨hp, _⟩
  · obtain ⟨b, hb, hs⟩ := Option.bind_eq_some_iff.mp hs
    have hk := (List.getElem?_eq_some_iff.mp hs).1
    obtain ⟨it, hit, _⟩ := hc.define _ s v ((Func.slots_getElem? hb hk).trans hs) hres
    exact ⟨it, hit⟩
  · obtain ⟨it, hit, _⟩ := hc.param v hp
    exact ⟨it, hit⟩

end Sound

/-- **Live intervals and ranges cover path liveness.**  At every half-slot where a value is
path-live and some definition reaches, its interval and its ranges hold the half-slot, and so
do those of its class's leader; ranges are sorted, separated and inside the interval. -/
theorem liveness_covers {f : Func} {ivs : Intervals} {bl : BlockLiveness}
    (hlive : computeLiveness f = some (ivs, bl)) (excluded : List ValueId) (callSites : List ℕ)
    (switches : Switches) {entries : Entries}
    (horder : entries.Perm
      ((buildCopyClasses f ivs bl excluded callSites (widenedLoads f) switches).entries
        f.values.length)) :
    let cs := buildCopyClasses f ivs bl excluded callSites (widenedLoads f) switches
    let folded := foldInto entries ivs
    let ranges := computeRanges f bl folded entries
    (∀ v x, f.LiveAt v x → f.ReachedBy v x →
      (∃ it, ivs v = some it ∧ it.contains (f.halfSlot x / 2)) ∧
        Covers (ranges v) (f.halfSlot x) ∧
        (∃ it, folded (cs.leader v) = some it ∧ it.contains (f.halfSlot x / 2)) ∧
        Covers (foldRanges entries ranges (cs.leader v)) (f.halfSlot x)) ∧
      ∀ v it, v < f.values.length → (ivs v = some it → Within (ranges v) it) ∧
        (folded v = some it → Within (foldRanges entries ranges v) it) := by
  intro cs folded ranges
  have hvis : f.visitable = true := by
    by_contra hvis
    rw [computeLiveness, if_neg hvis] at hlive
    cases hlive
  obtain ⟨_, _, hlive', h, hc⟩ := computeLiveness_spec hvis
  cases hlive.symm.trans hlive'
  have hcs : ClassesOk f bl ivs cs := buildCopyClasses_ok hvis h excluded callSites switches
  have he : EntriesOk f bl ivs entries := hcs.entriesOk horder
  refine ⟨fun v x hx hreach => ?_, fun v it hv =>
    ⟨computeRanges_within h hc he hv, foldRanges_within h hc he hv⟩⟩
  obtain ⟨it, hit⟩ := hc.exists_of_reachedBy hreach
  have hv := hx.lt_values hvis
  obtain ⟨hlo, hhi⟩ := hc.contains h hit hx
  have hleader := covers_foldRanges h hc he hcs horder rfl hv hit hx
  refine ⟨⟨it, hit, ?_⟩, covers_computeRanges h hc he hv hit hx, hleader⟩
  rw [f.halfSlot_div]
  exact ⟨hlo, hhi⟩

/-- In the function of `buildCopyClasses_agree_copy` the copy and its source fold into one
leader, whose ranges hold the sum's reading half-slot. -/
theorem liveness_covers_copy :
    Covers (foldRanges (copyClasses.entries 4) (computeRanges copyFn copyLive.2
      (foldInto (copyClasses.entries 4) copyLive.1) (copyClasses.entries 4))
        (copyClasses.leader 1)) 4 := by
  have hlive : copyFn.LiveAt 1 ⟨0, 2, false⟩ := .use ⟨rfl, _, rfl, by decide⟩
  have hreach : copyFn.ReachedBy 1 ⟨0, 2, false⟩ := by
    refine ⟨⟨0, 0, true⟩, Or.inl ⟨rfl, _, rfl, rfl⟩, ?_⟩
    refine .tail (.tail (.tail .refl (.next (k := 0) rfl (by decide))) (.write rfl (by decide))) ?_
    exact .next (k := 1) rfl (by decide)
  have hcopy : computeLiveness copyFn = some (copyLive.1, copyLive.2) := rfl
  exact ((liveness_covers hcopy [] [] ⟨false, false⟩
    (List.Perm.refl (copyClasses.entries 4))).1 1 ⟨0, 2, false⟩ hlive hreach).2.2.2

end Torajs.Regalloc
