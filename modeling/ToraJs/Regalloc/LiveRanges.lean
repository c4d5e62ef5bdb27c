import ToraJs.Lib.RangeList
import ToraJs.Regalloc.Liveness

/-!
# Live ranges

`walk_half_slots` walks every block backwards and hands out the half-slot ranges where a
value is live; `LiveRanges::compute` joins them into one list per value.

For one value the walk is a recursion over the block's slots (`scanRanges`), and the
joining is the merge of neighbours of `Lib/RangeList`.  The result is that the ranges are
separated, stay inside the interval and cover every half-slot at which the value is
path-live.
-/

namespace Torajs.Regalloc

open RangeList

/-! ### The walk -/

/-- `Open`: the values with an open range in the block, and the order they were opened. -/
structure Open where
  ends : ValueId → Option ℕ
  list : List ValueId

/-- `Open::open`. -/
def Open.openAt (o : Open) (v : ValueId) (stop : ℕ) : Open :=
  match o.ends v with
  | none => ⟨Function.update o.ends v (some stop), o.list ++ [v]⟩
  | some _ => o

/-- `Open::close`, the state after it. -/
def Open.close (o : Open) (v : ValueId) : Open := ⟨Function.update o.ends v none, o.list⟩

/-- The ranges handed out: a value, its first and its last half-slot. -/
abbrev Emitted := List (ValueId × ℕ × ℕ)

/-- Open the ranges of the kept values of a list at a half-slot. -/
def openAll (keep : ValueId → Bool) (h : ℕ) (o : Open) (vs : List ValueId) : Open :=
  vs.foldl (fun o v => if keep v then o.openAt v h else o) o

/-- One slot of the backward walk. -/
def walkSlot (keep : ValueId → Bool) (st : Open × Emitted) (s : Slot × ℕ) : Open × Emitted :=
  let st' :=
    match s.1.result with
    | some r =>
      if keep r then
        (st.1.close r, st.2 ++ [(r, 2 * s.2 + 1, (st.1.ends r).getD (2 * s.2 + 1))])
      else st
    | none => st
  (openAll keep (2 * s.2) st'.1 s.1.reads, st'.2)

/-- Closing what is still open at the block's start. -/
def closeRest (lo : ℕ) (st : Open × Emitted) (v : ValueId) : Open × Emitted :=
  match st.1.ends v with
  | some stop => (st.1.close v, st.2 ++ [(v, lo, stop)])
  | none => st

/-- The ranges of one block, in descending order of start. -/
def walkBlock (keep : ValueId → Bool) (bl : BlockLiveness) (bi : Block × ℕ) : Emitted :=
  let start := openAll keep (2 * bl.stop bi.2 + 1) ⟨fun _ => none, []⟩ (bl.liveOut bi.2)
  let st := (bi.1.slots.zipIdx (bl.start bi.2)).reverse.foldl (walkSlot keep) (start, [])
  (st.1.list.foldl (closeRest (2 * bl.start bi.2)) st).2

/-- `walk_half_slots`: what it emits, block by block. -/
def walkHalfSlots (f : Func) (bl : BlockLiveness) (keep : ValueId → Bool) : List Emitted :=
  f.blocks.zipIdx.map (walkBlock keep bl)

/-! ### The walk of one value -/

/-- The walk for one value over a suffix of a block's slots, the first one at `p`: the end
of the range that is open there, and the closed ranges in order. -/
def scanRanges (v : ValueId) : List Slot → ℕ → Option ℕ → Option ℕ × Ranges
  | [], _, stop => (stop, [])
  | s :: rest, p, stop =>
    let st := scanRanges v rest (p + 1) stop
    let st' := if s.result = some v then (none, (2 * p + 1, st.1.getD (2 * p + 1)) :: st.2) else st
    (if v ∈ s.reads then some (st'.1.getD (2 * p)) else st'.1, st'.2)

/-- The emitted ranges of a value, in the order they came. -/
def emittedOf (out : Emitted) (v : ValueId) : Ranges := (out.filter fun x => x.1 = v).map Prod.snd

lemma emittedOf_append (out out' : Emitted) (v : ValueId) :
    emittedOf (out ++ out') v = emittedOf out v ++ emittedOf out' v := by
  simp [emittedOf]

lemma emittedOf_singleton (v w : ValueId) (r : ℕ × ℕ) :
    emittedOf [(w, r)] v = if w = v then [r] else [] := by
  by_cases h : w = v <;> simp [emittedOf, h]

section Walk

variable {keep : ValueId → Bool} {v : ValueId}

lemma ends_openAll (hv : keep v = true) {h : ℕ} (vs : List ValueId) : ∀ {o : Open},
    (openAll keep h o vs).ends v = if v ∈ vs then some ((o.ends v).getD h) else o.ends v := by
  induction vs with
  | nil => simp [openAll]
  | cons w vs ih =>
    intro o
    have hcons : openAll keep h o (w :: vs) =
        openAll keep h (if keep w then o.openAt w h else o) vs := rfl
    rw [hcons, ih]
    by_cases hwv : w = v
    · subst hwv
      rw [if_pos hv, Open.openAt]
      cases hends : o.ends w <;> simp [hends]
    · have hends : (if keep w then o.openAt w h else o).ends v = o.ends v := by
        split_ifs
        · rw [Open.openAt]
          cases o.ends w with
          | none => exact Function.update_of_ne (Ne.symm hwv) _ _
          | some _ => rfl
        · rfl
      rw [hends]
      simp [Ne.symm hwv]

@[simp] lemma ends_close_self (o : Open) (w : ValueId) : (o.close w).ends w = none :=
  Function.update_self ..

lemma ends_close_of_ne (o : Open) {w u : ValueId} (h : u ≠ w) : (o.close w).ends u = o.ends u :=
  Function.update_of_ne h ..

/-- Values with an open range are listed. -/
def Listed (o : Open) : Prop := ∀ v, (o.ends v).isSome → v ∈ o.list

lemma listed_openAll {h : ℕ} (vs : List ValueId) : ∀ {o : Open}, Listed o →
    Listed (openAll keep h o vs) := by
  induction vs with
  | nil => exact fun ho => ho
  | cons w vs ih =>
    intro o ho
    refine ih (o := if keep w then o.openAt w h else o) ?_
    split_ifs
    · rw [Open.openAt]
      cases hends : o.ends w with
      | some _ => exact ho
      | none =>
        intro u hu
        by_cases huw : u = w
        · exact List.mem_append_right _ (List.mem_singleton.mpr huw)
        · dsimp only at hu
          rw [Function.update_of_ne huw] at hu
          exact List.mem_append_left _ (ho u hu)
    · exact ho

lemma listed_close {o : Open} (ho : Listed o) (w : ValueId) : Listed (o.close w) := by
  intro u hu
  by_cases huw : u = w
  · rw [huw, ends_close_self] at hu
    cases hu
  · rw [ends_close_of_ne o huw] at hu
    exact ho u hu

/-- The walk, seen from one value. -/
lemma walk_eq_scanRanges (hv : keep v = true) {o : Open} (ho : Listed o) (slots : List Slot) :
    ∀ p, ∃ o' out, (slots.zipIdx p).reverse.foldl (walkSlot keep) (o, []) = (o', out) ∧ Listed o' ∧
      o'.ends v = (scanRanges v slots p (o.ends v)).1 ∧
      emittedOf out v = (scanRanges v slots p (o.ends v)).2.reverse := by
  induction slots with
  | nil => exact fun p => ⟨o, [], rfl, ho, rfl, rfl⟩
  | cons s slots ih =>
    intro p
    obtain ⟨o', out, hrun, hlisted, hends, hout⟩ := ih (p + 1)
    rw [List.zipIdx_cons, List.reverse_cons, List.foldl_append, hrun, List.foldl_cons,
      List.foldl_nil]
    refine ⟨_, _, rfl, ?_, ?_, ?_⟩
    · refine listed_openAll _ ?_
      cases s.result with
      | none => exact hlisted
      | some r =>
        dsimp only
        split_ifs
        · exact listed_close hlisted r
        · exact hlisted
    · rw [ends_openAll hv, scanRanges]
      dsimp only
      have hmid : (match s.result with
          | some r => if keep r then (o'.close r, out ++ [(r, 2 * p + 1, (o'.ends r).getD (2 * p + 1))])
            else (o', out)
          | none => (o', out)).1.ends v =
          if s.result = some v then none else (scanRanges v slots (p + 1) (o.ends v)).1 := by
        cases hres : s.result with
        | none => simpa using hends
        | some r =>
          dsimp only
          by_cases hrv : r = v
          · subst hrv
            rw [if_pos hv, if_pos rfl]
            exact ends_close_self ..
          · rw [if_neg (fun h => hrv (Option.some.inj h)), ← hends]
            split_ifs
            · exact ends_close_of_ne o' (Ne.symm hrv)
            · rfl
      rw [hmid]
      by_cases hsv : s.result = some v <;> simp [hsv]
    · rw [scanRanges]
      dsimp only
      cases hres : s.result with
      | none => simpa using hout
      | some r =>
        dsimp only
        by_cases hrv : r = v
        · subst hrv
          rw [if_pos hv, if_pos rfl, emittedOf_append, emittedOf_singleton, if_pos rfl, hout, hends,
            List.reverse_cons]
        · rw [if_neg (fun h => hrv (Option.some.inj h))]
          split_ifs
          · rw [emittedOf_append, emittedOf_singleton, if_neg hrv, List.append_nil, hout]
          · exact hout

lemma emittedOf_closeRest {lo : ℕ} (vs : List ValueId) : ∀ {st : Open × Emitted},
    emittedOf (vs.foldl (closeRest lo) st).2 v =
      emittedOf st.2 v ++
        if v ∈ vs then ((st.1.ends v).map fun stop => (lo, stop)).toList else [] := by
  induction vs with
  | nil => simp
  | cons w vs ih =>
    intro st
    rw [List.foldl_cons, ih, closeRest]
    by_cases hwv : w = v
    · subst hwv
      cases hends : st.1.ends w with
      | none => simp [hends]
      | some stop => simp [emittedOf_append, emittedOf_singleton]
    · have hmem : v ∈ w :: vs ↔ v ∈ vs := by simp [Ne.symm hwv]
      cases hends : st.1.ends w with
      | none => simp [hmem]
      | some stop =>
        have hv' := ends_close_of_ne st.1 (Ne.symm hwv)
        simp [emittedOf_append, emittedOf_singleton, hwv, hv', hmem]

/-- A value's ranges in one block, in order. -/
def blockRanges (bl : BlockLiveness) (v : ValueId) (bi : Block × ℕ) : Ranges :=
  let st := scanRanges v bi.1.slots (bl.start bi.2)
    (if v ∈ bl.liveOut bi.2 then some (2 * bl.stop bi.2 + 1) else none)
  (st.1.map fun stop => (2 * bl.start bi.2, stop)).toList ++ st.2

/-- **The walk of a block emits the ranges of every kept value, last one first.** -/
lemma emittedOf_walkBlock (hv : keep v = true) (bl : BlockLiveness) (bi : Block × ℕ) :
    emittedOf (walkBlock keep bl bi) v = (blockRanges bl v bi).reverse := by
  set o := openAll keep (2 * bl.stop bi.2 + 1) ⟨fun _ => none, []⟩ (bl.liveOut bi.2) with ho
  have hlisted : Listed o := listed_openAll _ fun u hu => by cases hu
  have hends : o.ends v = if v ∈ bl.liveOut bi.2 then some (2 * bl.stop bi.2 + 1) else none := by
    rw [ho, ends_openAll hv]
    rfl
  obtain ⟨o', out, hrun, hlisted', hends', hout⟩ :=
    walk_eq_scanRanges hv hlisted bi.1.slots (bl.start bi.2)
  rw [hends] at hends' hout
  rw [walkBlock, ← ho, hrun, emittedOf_closeRest, hout, blockRanges, List.reverse_append, ← hends']
  congr 1
  cases he : o'.ends v with
  | none => simp
  | some stop =>
    rw [if_pos (hlisted' v (by rw [he]; rfl))]
    rfl

end Walk

/-! ### The ranges of one value in one block -/

/-- Where a range may start: at the write of a definition. -/
def IsDefSlot (v : ValueId) (l : List Slot) (p lo : ℕ) : Prop :=
  ∃ j s, l[j]? = some s ∧ s.result = some v ∧ lo = 2 * (p + j) + 1

/-- Where a range may end: at a read, at a dead definition, or at the end of a block the
value is live out of. -/
def IsEnd (v : ValueId) (l : List Slot) (p : ℕ) (out : Prop) (hi : ℕ) : Prop :=
  (∃ j s, l[j]? = some s ∧ v ∈ s.reads ∧ hi = 2 * (p + j)) ∨ IsDefSlot v l p hi ∨
    out ∧ hi + 1 = 2 * (p + l.length)

/-- The ranges of a value over a suffix of a block's slots. -/
structure ScanSpec (v : ValueId) (l : List Slot) (p : ℕ) (out : Prop) (st : Option ℕ × Ranges) :
    Prop where
  isSome_iff : st.1.isSome ↔ LiveBefore v l out
  open_le : ∀ e, st.1 = some e → 2 * p ≤ e + 1 ∧ (0 < l.length → 2 * p ≤ e) ∧ IsEnd v l p out e
  proper : Proper st.2
  ascending : Ascending st.2
  after : ∀ e, st.1 = some e → ∀ r ∈ st.2, e < r.1
  bounds : ∀ r ∈ st.2, IsDefSlot v l p r.1 ∧ IsEnd v l p out r.2
  defs : ∀ lo, IsDefSlot v l p lo → ∃ r ∈ st.2, r.1 = lo
  covers : ∀ k, k < l.length →
    (LiveBefore v (l.drop k) out →
      (∃ e, st.1 = some e ∧ 2 * (p + k) ≤ e) ∨ Covers st.2 (2 * (p + k))) ∧
    (LiveBefore v (l.drop (k + 1)) out →
      (∃ e, st.1 = some e ∧ 2 * (p + k) + 1 ≤ e) ∨ Covers st.2 (2 * (p + k) + 1))

section Scan

variable {v : ValueId} {l : List Slot} {s : Slot} {p : ℕ} {out : Prop}

lemma IsDefSlot.cons {lo : ℕ} (h : IsDefSlot v l (p + 1) lo) : IsDefSlot v (s :: l) p lo := by
  obtain ⟨j, t, ht, hres, rfl⟩ := h
  exact ⟨j + 1, t, ht, hres, by omega⟩

lemma IsDefSlot.of_cons {lo : ℕ} (h : IsDefSlot v (s :: l) p lo) :
    s.result = some v ∧ lo = 2 * p + 1 ∨ IsDefSlot v l (p + 1) lo := by
  obtain ⟨j, t, ht, hres, rfl⟩ := h
  cases j with
  | zero =>
    obtain rfl : s = t := by simpa using ht
    exact Or.inl ⟨hres, rfl⟩
  | succ j => exact Or.inr ⟨j, t, by simpa using ht, hres, by omega⟩

lemma IsEnd.cons {hi : ℕ} (h : IsEnd v l (p + 1) out hi) : IsEnd v (s :: l) p out hi := by
  rcases h with ⟨j, t, ht, hread, rfl⟩ | hdef | ⟨hout, hhi⟩
  · exact Or.inl ⟨j + 1, t, ht, hread, by omega⟩
  · exact Or.inr (Or.inl hdef.cons)
  · exact Or.inr (Or.inr ⟨hout, by rw [List.length_cons]; omega⟩)

lemma IsDefSlot.ge {lo : ℕ} (h : IsDefSlot v l p lo) : 2 * p + 1 ≤ lo := by
  obtain ⟨j, _, _, _, rfl⟩ := h
  omega

/-- After the definition half of a slot: what is open becomes a closed range. -/
lemma ScanSpec.define {st : Option ℕ × Ranges} (h : ScanSpec v l (p + 1) out st)
    (hres : s.result = some v) (hreads : v ∉ s.reads) :
    ScanSpec v (s :: l) p out (none, (2 * p + 1, st.1.getD (2 * p + 1)) :: st.2) := by
  have hself : IsDefSlot v (s :: l) p (2 * p + 1) := ⟨0, s, rfl, hres, rfl⟩
  have hend : IsEnd v (s :: l) p out (st.1.getD (2 * p + 1)) ∧ 2 * p + 1 ≤ st.1.getD (2 * p + 1) := by
    cases he : st.1 with
    | none => exact ⟨Or.inr (Or.inl hself), le_rfl⟩
    | some e =>
      obtain ⟨hle, _, hend⟩ := h.open_le e he
      exact ⟨hend.cons, by rw [Option.getD_some]; omega⟩
  refine ⟨?_, nofun, ?_, ?_, nofun, ?_, ?_, ?_⟩
  · rw [LiveBefore]
    simp [hres, hreads]
  · intro r hr
    rcases List.mem_cons.mp hr with rfl | hr
    · exact hend.2
    · exact h.proper r hr
  · refine List.pairwise_cons.mpr ⟨fun r hr => ?_, h.ascending⟩
    have hr' := (h.bounds r hr).1.ge
    cases he : st.1 with
    | none =>
      rw [Option.getD_none]
      omega
    | some e => exact h.after e he r hr
  · intro r hr
    rcases List.mem_cons.mp hr with rfl | hr
    · exact ⟨hself, hend.1⟩
    · exact ⟨(h.bounds r hr).1.cons, (h.bounds r hr).2.cons⟩
  · intro lo hlo
    rcases hlo.of_cons with ⟨_, rfl⟩ | hlo
    · exact ⟨_, List.mem_cons_self, rfl⟩
    · obtain ⟨r, hr, hrlo⟩ := h.defs lo hlo
      exact ⟨r, List.mem_cons_of_mem _ hr, hrlo⟩
  · -- what was open from the next slot on is covered by the new range
    have hopen : ∀ {x}, 2 * p + 1 ≤ x → (∃ e, st.1 = some e ∧ x ≤ e) ∨ Covers st.2 x →
        Covers ((2 * p + 1, st.1.getD (2 * p + 1)) :: st.2) x := by
      rintro x hx (⟨e, he, hle⟩ | hc)
      · refine covers_cons.mpr (Or.inl ⟨hx, ?_⟩)
        rwa [he, Option.getD_some]
      · exact covers_cons.mpr (Or.inr hc)
    intro k hk
    cases k with
    | zero =>
      refine ⟨fun hlive => ?_, fun hlive => ?_⟩
      · rcases hlive with hread | ⟨hne, _⟩
        · exact absurd hread hreads
        · exact absurd hres hne
      · exact Or.inr (covers_cons.mpr (Or.inl ⟨le_rfl, hend.2⟩))
    | succ k =>
      have hk : k < l.length := by simpa using hk
      obtain ⟨hr, hw⟩ := h.covers k hk
      rw [show p + 1 + k = p + (k + 1) by omega] at hr hw
      rw [List.drop_succ_cons, List.drop_succ_cons]
      exact ⟨fun hlive => Or.inr (hopen (by omega) (hr hlive)),
        fun hlive => Or.inr (hopen (by omega) (hw hlive))⟩

/-- A slot that does not define the value. -/
lemma ScanSpec.skip {st : Option ℕ × Ranges} (h : ScanSpec v l (p + 1) out st)
    (hres : s.result ≠ some v) (hreads : v ∉ s.reads) : ScanSpec v (s :: l) p out st := by
  refine ⟨?_, fun e he => ?_, h.proper, h.ascending, h.after, fun r hr => ?_, fun lo hlo => ?_, ?_⟩
  · rw [LiveBefore, h.isSome_iff]
    simp [hres, hreads]
  · obtain ⟨hle, _, hend⟩ := h.open_le e he
    exact ⟨by omega, fun _ => by omega, hend.cons⟩
  · exact ⟨(h.bounds r hr).1.cons, (h.bounds r hr).2.cons⟩
  · rcases hlo.of_cons with ⟨hbad, _⟩ | hlo
    · exact absurd hbad hres
    · exact h.defs lo hlo
  · intro k hk
    cases k with
    | zero =>
      have hopen : LiveBefore v l out → ∃ e, st.1 = some e ∧ 2 * p + 1 ≤ e := by
        intro hlive
        obtain ⟨e, he⟩ := Option.isSome_iff_exists.mp (h.isSome_iff.mpr hlive)
        have := (h.open_le e he).1
        exact ⟨e, he, by omega⟩
      refine ⟨fun hlive => ?_, fun hlive => Or.inl (hopen hlive)⟩
      rcases hlive with hread | ⟨_, hlive⟩
      · exact absurd hread hreads
      · obtain ⟨e, he, hle⟩ := hopen hlive
        exact Or.inl ⟨e, he, by omega⟩
    | succ k =>
      have hk : k < l.length := by simpa using hk
      have hc := h.covers k hk
      rw [show p + 1 + k = p + (k + 1) by omega] at hc
      rwa [List.drop_succ_cons, List.drop_succ_cons]

/-- Reading the value besides opens a range at the read, unless one is open. -/
lemma ScanSpec.read {st : Option ℕ × Ranges} {reads : List ValueId}
    (h : ScanSpec v (⟨reads, s.result⟩ :: l) p out st) (hread : v ∈ s.reads) (hnot : v ∉ reads) :
    ScanSpec v (s :: l) p out (some (st.1.getD (2 * p)), st.2) := by
  have hdefSlot : ∀ lo, IsDefSlot v (⟨reads, s.result⟩ :: l) p lo ↔ IsDefSlot v (s :: l) p lo := by
    intro lo
    constructor
    · intro hlo
      rcases hlo.of_cons with ⟨hres, rfl⟩ | hlo
      · exact ⟨0, s, rfl, hres, rfl⟩
      · exact hlo.cons
    · intro hlo
      rcases hlo.of_cons with ⟨hres, rfl⟩ | hlo
      · exact ⟨0, _, rfl, hres, rfl⟩
      · exact hlo.cons
  have hends : ∀ hi, IsEnd v (⟨reads, s.result⟩ :: l) p out hi → IsEnd v (s :: l) p out hi := by
    rintro hi (⟨j, t, ht, hr, rfl⟩ | hdef | hout)
    · cases j with
      | zero =>
        obtain rfl : (⟨reads, s.result⟩ : Slot) = t := by simpa using ht
        exact absurd hr hnot
      | succ j => exact Or.inl ⟨j + 1, t, ht, hr, rfl⟩
    · exact Or.inr (Or.inl ((hdefSlot hi).mp hdef))
    · exact Or.inr (Or.inr hout)
  have hself : IsEnd v (s :: l) p out (st.1.getD (2 * p)) ∧ 2 * p ≤ st.1.getD (2 * p) := by
    cases he : st.1 with
    | none => exact ⟨Or.inl ⟨0, s, rfl, hread, rfl⟩, le_rfl⟩
    | some e =>
      obtain ⟨_, hle, hend⟩ := h.open_le e he
      exact ⟨hends e hend, hle (by simp)⟩
  refine ⟨?_, fun e he => ?_, h.proper, h.ascending, fun e he r hr => ?_, fun r hr => ?_,
    fun lo hlo => h.defs lo ((hdefSlot lo).mpr hlo), fun k hk => ?_⟩
  · simp [LiveBefore, hread]
  · obtain rfl := Option.some.inj he
    exact ⟨by omega, fun _ => hself.2, hself.1⟩
  · obtain rfl := Option.some.inj he
    cases ho : st.1 with
    | none =>
      rw [Option.getD_none]
      have := (h.bounds r hr).1.ge
      omega
    | some e => exact h.after e ho r hr
  · exact ⟨(hdefSlot r.1).mp (h.bounds r hr).1, hends r.2 (h.bounds r hr).2⟩
  · have hkeep : ∀ {x}, (∃ e, st.1 = some e ∧ x ≤ e) ∨ Covers st.2 x →
        (∃ e, some (st.1.getD (2 * p)) = some e ∧ x ≤ e) ∨ Covers st.2 x := by
      rintro x (⟨e, he, hle⟩ | hc)
      · exact Or.inl ⟨e, by rw [he, Option.getD_some], hle⟩
      · exact Or.inr hc
    cases k with
    | zero =>
      refine ⟨fun _ => Or.inl ⟨_, rfl, hself.2⟩, fun hlive => hkeep ((h.covers 0 ?_).2 hlive)⟩
      simp
    | succ k =>
      have hc := h.covers (k + 1) (by simpa using hk)
      rw [List.drop_succ_cons, List.drop_succ_cons] at hc ⊢
      exact ⟨fun hlive => hkeep (hc.1 hlive), fun hlive => hkeep (hc.2 hlive)⟩

/-- **The walk of one value over a block's slots.** -/
lemma scanRanges_spec (v : ValueId) (out : Prop) [Decidable out] {top : ℕ} (l : List Slot) :
    ∀ p, top + 1 = 2 * (p + l.length) →
      ScanSpec v l p out (scanRanges v l p (if out then some top else none)) := by
  induction l with
  | nil =>
    intro p htop
    rw [List.length_nil, Nat.add_zero] at htop
    refine ⟨?_, fun e he => ?_, nofun, List.Pairwise.nil, nofun, nofun, ?_, nofun⟩
    · by_cases hout : out <;> simp [scanRanges, LiveBefore, hout]
    · by_cases hout : out
      · rw [scanRanges, if_pos hout] at he
        obtain rfl : top = e := Option.some.inj he
        exact ⟨htop.ge, by simp, Or.inr (Or.inr ⟨hout, by simpa using htop⟩)⟩
      · rw [scanRanges, if_neg hout] at he
        cases he
    · rintro lo ⟨j, s, hs, _⟩
      cases hs
  | cons s l ih =>
    intro p htop
    have hst := ih (p + 1) (by rw [List.length_cons] at htop; omega)
    rw [scanRanges]
    set st := scanRanges v l (p + 1) (if out then some top else none)
    -- the definition half, as if the slot read nothing
    have hmid : ScanSpec v (⟨[], s.result⟩ :: l) p out
        (if s.result = some v then (none, (2 * p + 1, st.1.getD (2 * p + 1)) :: st.2) else st) := by
      by_cases hres : s.result = some v
      · rw [if_pos hres]
        exact hst.define hres (by simp)
      · rw [if_neg hres]
        exact hst.skip hres (by simp)
    by_cases hread : v ∈ s.reads
    · rw [if_pos hread]
      exact hmid.read hread (by simp)
    · rw [if_neg hread]
      by_cases hres : s.result = some v
      · rw [if_pos hres]
        exact hst.define hres hread
      · rw [if_neg hres]
        exact hst.skip hres hread

/-- The ranges of a value in a block, under closed live sets. -/
structure BlockRangesSpec (f : Func) (bl : BlockLiveness) (v : ValueId) (b : Block) (i : ℕ)
    (l : Ranges) : Prop where
  proper : Proper l
  ascending : Ascending l
  inside : ∀ r ∈ l, 2 * f.start i ≤ r.1 ∧ r.2 ≤ 2 * f.stop i + 1
  lo : ∀ r ∈ l, IsDefSlot v b.slots (f.start i) r.1 ∨ v ∈ bl.liveIn i ∧ r.1 = 2 * f.start i
  hi : ∀ r ∈ l, IsEnd v b.slots (f.start i) (v ∈ bl.liveOut i) r.2
  defs : ∀ lo, IsDefSlot v b.slots (f.start i) lo → ∃ r ∈ l, r.1 = lo
  covers : ∀ k, k < b.slots.length →
    (LiveBefore v (b.slots.drop k) (v ∈ bl.liveOut i) → Covers l (2 * (f.start i + k))) ∧
    (LiveBefore v (b.slots.drop (k + 1)) (v ∈ bl.liveOut i) →
      Covers l (2 * (f.start i + k) + 1))

lemma IsEnd.le {hi : ℕ} (h : IsEnd v l p out hi) : hi + 1 ≤ 2 * (p + l.length) := by
  rcases h with ⟨j, t, ht, _, rfl⟩ | ⟨j, t, ht, _, rfl⟩ | ⟨_, hhi⟩
  · have := (List.getElem?_eq_some_iff.mp ht).1
    omega
  · have := (List.getElem?_eq_some_iff.mp ht).1
    omega
  · omega

lemma blockRanges_spec {f : Func} {bl : BlockLiveness} (h : LiveSets f bl) {b : Block} {i : ℕ}
    (hb : f.blocks[i]? = some b) (v : ValueId) :
    BlockRangesSpec f bl v b i (blockRanges bl v (b, i)) := by
  have hstop := Func.stop_eq hb
  have htop : 2 * f.stop i + 1 + 1 = 2 * (f.start i + b.slots.length) := by
    rw [Block.length_slots, hstop]
    omega
  have hspec := scanRanges_spec v (v ∈ bl.liveOut i) b.slots (f.start i) htop
  rw [blockRanges, h.start, h.stop]
  set st := scanRanges v b.slots (f.start i)
    (if v ∈ bl.liveOut i then some (2 * f.stop i + 1) else none)
  have hle : ∀ {hi}, IsEnd v b.slots (f.start i) (v ∈ bl.liveOut i) hi → hi ≤ 2 * f.stop i + 1 := by
    intro hi hhi
    have := hhi.le
    rw [Block.length_slots] at this
    omega
  have hmem : ∀ {r}, r ∈ (st.1.map fun stop => (2 * f.start i, stop)).toList ++ st.2 ↔
      (∃ e, st.1 = some e ∧ r = (2 * f.start i, e)) ∨ r ∈ st.2 := by
    intro r
    rw [List.mem_append, Option.mem_toList, Option.map_eq_some_iff]
    constructor
    · rintro (⟨e, he, heq⟩ | hr)
      · exact Or.inl ⟨e, he, heq.symm⟩
      · exact Or.inr hr
    · rintro (⟨e, he, heq⟩ | hr)
      · exact Or.inl ⟨e, he, heq.symm⟩
      · exact Or.inr hr
  have hcov : ∀ {x}, 2 * f.start i ≤ x → (∃ e, st.1 = some e ∧ x ≤ e) ∨ Covers st.2 x →
      Covers ((st.1.map fun stop => (2 * f.start i, stop)).toList ++ st.2) x := by
    rintro x hx (⟨e, he, hxe⟩ | ⟨r, hr, hlo⟩)
    · exact ⟨(2 * f.start i, e), hmem.mpr (Or.inl ⟨e, he, rfl⟩), hx, hxe⟩
    · exact ⟨r, hmem.mpr (Or.inr hr), hlo⟩
  have hnonempty : 0 < b.slots.length := by
    rw [Block.length_slots]
    omega
  refine ⟨fun r hr => ?_, ?_, fun r hr => ?_, fun r hr => ?_, fun r hr => ?_, fun lo hlo => ?_,
    fun k hk => ?_⟩
  · rcases hmem.mp hr with ⟨e, he, rfl⟩ | hr
    · exact (hspec.open_le e he).2.1 hnonempty
    · exact hspec.proper r hr
  · refine List.pairwise_append.mpr ⟨?_, hspec.ascending, fun r hr r' hr' => ?_⟩
    · cases st.1 with
      | none => exact List.Pairwise.nil
      | some e => exact List.pairwise_singleton _ _
    · obtain ⟨e, he, rfl⟩ := Option.map_eq_some_iff.mp (Option.mem_toList.mp hr)
      exact hspec.after e he r' hr'
  · rcases hmem.mp hr with ⟨e, he, rfl⟩ | hr
    · exact ⟨le_rfl, hle (hspec.open_le e he).2.2⟩
    · have := (hspec.bounds r hr).1.ge
      exact ⟨by omega, hle (hspec.bounds r hr).2⟩
  · rcases hmem.mp hr with ⟨e, he, rfl⟩ | hr
    · have hlive := hspec.isSome_iff.mp (by rw [he]; rfl)
      exact Or.inr ⟨h.mem_liveIn hb hlive, rfl⟩
    · exact Or.inl (hspec.bounds r hr).1
  · rcases hmem.mp hr with ⟨e, he, rfl⟩ | hr
    · exact (hspec.open_le e he).2.2
    · exact (hspec.bounds r hr).2
  · obtain ⟨r, hr, hrlo⟩ := hspec.defs lo hlo
    exact ⟨r, hmem.mpr (Or.inr hr), hrlo⟩
  · obtain ⟨hr, hw⟩ := hspec.covers k hk
    exact ⟨fun hlive => hcov (by omega) (hr hlive), fun hlive => hcov (by omega) (hw hlive)⟩

end Scan

/-! ### The ranges of one value in a function -/

/-- A value's ranges, block after block. -/
def valueRanges (f : Func) (bl : BlockLiveness) (v : ValueId) : Ranges :=
  f.blocks.zipIdx.flatMap (blockRanges bl v)

lemma Func.start_le (f : Func) {i j : ℕ} (h : i ≤ j) : f.start i ≤ f.start j := by
  have htake : f.blocks.take i <+: f.blocks.take j := List.take_prefix_take_left h
  exact (htake.flatMap Block.slots).length_le

lemma Func.start_succ {f : Func} {i : ℕ} {b : Block} (hb : f.blocks[i]? = some b) :
    f.start (i + 1) = f.stop i + 1 := by
  rw [Func.stop_eq hb, Func.start, List.take_add_one, hb, Option.toList_some,
    List.flatMap_append, List.length_append, ← Func.start]
  simp [Block.length_slots, Nat.add_assoc]

lemma mem_valueRanges {f : Func} {bl : BlockLiveness} {v : ValueId} {r : ℕ × ℕ} :
    r ∈ valueRanges f bl v ↔ ∃ i b, f.blocks[i]? = some b ∧ r ∈ blockRanges bl v (b, i) := by
  rw [valueRanges, List.mem_flatMap]
  constructor
  · rintro ⟨⟨b, i⟩, hbi, hr⟩
    exact ⟨i, b, by simpa using List.mem_zipIdx_iff_getElem?.mp hbi, hr⟩
  · rintro ⟨i, b, hb, hr⟩
    exact ⟨(b, i), List.mem_zipIdx_iff_getElem?.mpr (by simpa using hb), hr⟩

section Value

variable {f : Func} {bl : BlockLiveness} (h : LiveSets f bl) (v : ValueId)

include h

lemma proper_valueRanges : Proper (valueRanges f bl v) := by
  intro r hr
  obtain ⟨i, b, hb, hr⟩ := mem_valueRanges.mp hr
  exact (blockRanges_spec h hb v).proper r hr

/-- A block's ranges lie inside its slots, and the blocks' slots ascend. -/
lemma ascending_valueRanges : Ascending (valueRanges f bl v) := by
  refine List.pairwise_flatMap.mpr ⟨?_, ?_⟩
  · rintro ⟨b, i⟩ hbi
    have hb : f.blocks[i]? = some b := by simpa using List.mem_zipIdx_iff_getElem?.mp hbi
    exact (blockRanges_spec h hb v).ascending
  · rw [List.pairwise_iff_getElem]
    intro i j hi hj hij r hr s hs
    rw [List.length_zipIdx] at hi hj
    rw [List.getElem_zipIdx, Nat.zero_add] at hr hs
    have hbi := List.getElem?_eq_getElem hi
    have hbj := List.getElem?_eq_getElem hj
    have hr := ((blockRanges_spec h hbi v).inside r hr).2
    have hs := ((blockRanges_spec h hbj v).inside s hs).1
    have hsucc := Func.start_succ hbi
    have hle : f.start (i + 1) ≤ f.start j := f.start_le hij
    omega

/-- **The ranges cover every half-slot where the value is path-live.** -/
theorem covers_valueRanges {x : Point} (hx : f.LiveAt v x) :
    Covers (valueRanges f bl v) (f.halfSlot x) := by
  obtain ⟨b, hb, hk, hlive⟩ := h.liveHere hx
  obtain ⟨hread, hwrite⟩ := (blockRanges_spec h hb v).covers x.slot hk
  have hblock : Covers (blockRanges bl v (b, x.block)) (f.halfSlot x) := by
    rw [Func.halfSlot]
    cases hw : x.write with
    | false =>
      rw [hw] at hlive
      exact hread hlive
    | true =>
      rw [hw] at hlive
      exact hwrite hlive
  obtain ⟨r, hr, hle⟩ := hblock
  exact ⟨r, mem_valueRanges.mpr ⟨x.block, b, hb, hr⟩, hle⟩

/-- **A range starts at every definition.** -/
theorem exists_range_of_defsAt {x : Point} (hx : f.DefsAt v x) :
    ∃ r ∈ valueRanges f bl v, r.1 = f.halfSlot x := by
  obtain ⟨hw, s, hs, hres⟩ := hx
  obtain ⟨b, hb, hs⟩ := Option.bind_eq_some_iff.mp hs
  obtain ⟨r, hr, hlo⟩ := (blockRanges_spec h hb v).defs (f.halfSlot x)
    ⟨x.slot, s, hs, hres, by rw [Func.halfSlot, hw, if_pos rfl]⟩
  exact ⟨r, mem_valueRanges.mpr ⟨x.block, b, hb, hr⟩, hlo⟩

/-- **A range with an odd start starts at a definition.** -/
theorem defsAt_of_odd {r : ℕ × ℕ} (hr : r ∈ valueRanges f bl v) (hodd : r.1 % 2 = 1) :
    ∃ x, f.DefsAt v x ∧ f.halfSlot x = r.1 := by
  obtain ⟨i, b, hb, hr⟩ := mem_valueRanges.mp hr
  rcases (blockRanges_spec h hb v).lo r hr with ⟨k, s, hs, hres, hlo⟩ | ⟨_, hlo⟩
  · refine ⟨⟨i, k, true⟩, ⟨rfl, s, ?_, hres⟩, ?_⟩
    · rw [Func.slotAt, hb, Option.bind_some, hs]
    · rw [Func.halfSlot, if_pos rfl, hlo]
  · omega

/-- The ranges stay inside the interval: a start is a definition or a block the value is live
into, an end a read, a definition or a block it is live out of. -/
lemma valueRanges_inside {ivs : Intervals} (hc : Covering f bl ivs) {it : Interval}
    (hit : ivs v = some it) {r : ℕ × ℕ} (hr : r ∈ valueRanges f bl v) :
    2 * it.start ≤ r.1 ∧ r.2 ≤ 2 * it.stop + 1 := by
  obtain ⟨i, b, hb, hr⟩ := mem_valueRanges.mp hr
  have hspec := blockRanges_spec h hb v
  have hdefine : ∀ {x}, IsDefSlot v b.slots (f.start i) x →
      2 * it.start ≤ x ∧ x ≤ 2 * it.stop + 1 := by
    rintro x ⟨k, s, hs, hres, rfl⟩
    have hk := (List.getElem?_eq_some_iff.mp hs).1
    obtain ⟨it', hit', hle, hge⟩ := hc.define (f.start i + k) s v
      ((Func.slots_getElem? hb hk).trans hs) hres
    obtain rfl := Option.some.inj (hit.symm.trans hit')
    omega
  constructor
  · rcases hspec.lo r hr with hdef | ⟨hin, hlo⟩
    · exact (hdefine hdef).1
    · have := hc.liveIn i b v it hb hin hit
      omega
  · rcases hspec.hi r hr with ⟨k, s, hs, hread, hhi⟩ | hdef | ⟨hout, hhi⟩
    · have := hc.read i b k s v it hb hs hread hit
      omega
    · exact (hdefine hdef).2
    · have hstop := hc.liveOut i b v it hb hout hit
      rw [Func.stop_eq hb] at hstop
      rw [Block.length_slots] at hhi
      omega

end Value

end Torajs.Regalloc
