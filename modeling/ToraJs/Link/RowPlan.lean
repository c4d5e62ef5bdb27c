import ToraJs.Link.CutTwice

/-!
# Rows through several cuts

`walk_row` moves a row through every pass in order; `RowPlan` shortcuts it by a shift, the remap of
the row's own section and a shift.  The shortcut is right for every row in the address range of
its section.
-/

namespace Torajs.Link.DeadStrip

/-- `DeadRowPlacement`. -/
inductive DeadRowPlacement
  | sectionBase
  | gapStart
  deriving DecidableEq, Repr

/-- `Pass`: the cut of one section. -/
structure Pass where
  ord : ℕ
  addr : ℕ
  oldSize : ℕ
  shift : ℕ
  runs : List Run

/-- `Pass::old_end`. -/
def Pass.oldEnd (p : Pass) : ℕ := p.addr + p.oldSize

/-- `Pass::remap`, of an address. -/
def Pass.remap (p : Pass) (v : ℕ) : Option ℕ :=
  if v < p.addr then none else (DeadStrip.remap p.runs (v - p.addr)).map (p.addr + ·)

/-- `dead_row_addr`, of an address. -/
def Pass.deadRow (p : Pass) (deadAt : DeadRowPlacement) (v : ℕ) : ℕ :=
  match deadAt with
  | .sectionBase => p.addr
  | .gapStart => p.addr + deadRowAddr p.runs (v - p.addr)

/-- One pass of `walk_row`. -/
def walkPass (nSect : ℕ) (deadAt : DeadRowPlacement) (st : ℕ × Option ℕ) (kp : Pass × ℕ) :
    ℕ × Option ℕ :=
  if nSect = kp.1.ord then
    match kp.1.remap st.1 with
    | some v => (v, st.2)
    | none => (kp.1.deadRow deadAt st.1, some kp.2)
  else if kp.1.oldEnd ≤ st.1 then (st.1 - kp.1.shift, st.2)
  else st

/-- `walk_row`. -/
def walkRow (passes : List Pass) (nSect v : ℕ) (deadAt : DeadRowPlacement) : ℕ × Option ℕ :=
  passes.zipIdx.foldl (walkPass nSect deadAt) (v, none)

/-- The address range and the ordinal of a section. -/
structure SectHdr where
  ord : ℕ
  addr : ℕ
  size : ℕ

/-- `RowPlan`. -/
structure RowPlan where
  lo : ℕ
  hi : ℕ
  before : ℕ
  own : Option ℕ
  after : ℕ

/-- `RowPlan::apply`. -/
def RowPlan.apply (pl : RowPlan) (passes : List Pass) (v : ℕ) (deadAt : DeadRowPlacement) :
    Option (ℕ × Option ℕ) :=
  let v := v - pl.before
  match pl.own with
  | none => some (v - pl.after, none)
  | some k => (passes[k]?).map fun pass =>
    match pass.remap v with
    | some v => (v - pl.after, none)
    | none => (pass.deadRow deadAt v - pl.after, some k)

/-- The state of the loop of `row_plan`. -/
structure PlanState where
  lo : ℕ
  hi : ℕ
  before : ℕ
  own : Option ℕ
  after : ℕ

/-- One pass of `row_plan`. -/
def planPass (ord : ℕ) (st : PlanState) (kp : Pass × ℕ) : Option PlanState :=
  let p := kp.1
  if p.ord = ord then
    some { st with own := some kp.2, lo := p.addr, hi := p.addr + p.oldSize - p.shift }
  else if decide (p.oldEnd ≤ st.lo) != decide (p.oldEnd ≤ st.hi) then none
  else if p.oldEnd ≤ st.lo then
    let st := { st with lo := st.lo - p.shift, hi := st.hi - p.shift }
    some (if st.own.isSome then { st with after := st.after + p.shift }
      else { st with before := st.before + p.shift })
  else some st

/-- `row_plan`. -/
def rowPlan (sect : SectHdr) (passes : List Pass) : Option RowPlan :=
  (passes.zipIdx.foldlM (planPass sect.ord)
    ⟨sect.addr, sect.addr + sect.size, 0, none, 0⟩).map fun st =>
      ⟨sect.addr, sect.addr + sect.size, st.before, st.own, st.after⟩

/-- `move_value`, for the plan of the row's section. -/
def moveValue (passes : List Pass) (plan : Option RowPlan) (nSect v : ℕ)
    (deadAt : DeadRowPlacement) : Option (ℕ × Option ℕ) :=
  match plan.filter fun pl => decide (pl.lo ≤ v ∧ v ≤ pl.hi) with
  | some pl => pl.apply passes v deadAt
  | none => some (walkRow passes nSect v deadAt)

/-! ### One pass -/

section Step

variable {passes : List Pass} {deadAt : DeadRowPlacement} {v : ℕ} {p : Pass}

/-- The runs of a pass end in the section as cut. -/
def Pass.RunsInside (p : Pass) : Prop := ∀ r ∈ p.runs, r.newStart + r.len ≤ p.oldSize - p.shift

/-- The plan so far does what the walk so far does. -/
structure Follows (passes : List Pass) (deadAt : DeadRowPlacement) (v : ℕ) (st : PlanState)
    (r : ℕ × Option ℕ) : Prop where
  lower : st.lo ≤ r.1
  upper : r.1 ≤ st.hi
  value : (RowPlan.mk st.lo st.hi st.before st.own st.after).apply passes v deadAt = some r
  unshifted : st.own = none → st.after = 0

lemma runBefore_mem {runs : List Run} {o : ℕ} {r : Run} (h : runBefore runs o = some r) :
    r ∈ runs := List.takeWhile_subset _ (List.mem_of_getLast? h)

/-- A live row lands in the section as cut. -/
lemma Pass.RunsInside.remap_le (h : p.RunsInside) {w : ℕ} (hw : p.remap v = some w) :
    p.addr ≤ w ∧ w ≤ p.addr + (p.oldSize - p.shift) := by
  rw [Pass.remap] at hw
  split_ifs at hw
  obtain ⟨o, ho, rfl⟩ := Option.map_eq_some_iff.mp hw
  rw [DeadStrip.remap] at ho
  obtain ⟨r, hr, hin⟩ := Option.bind_eq_some_iff.mp ho
  obtain ⟨hlt, hin⟩ := Option.ite_none_right_eq_some.mp hin
  obtain rfl := Option.some.inj hin
  have hend := h r (runBefore_mem hr)
  constructor <;> omega

/-- So does a dead one. -/
lemma Pass.RunsInside.deadRow_le (h : p.RunsInside) (deadAt : DeadRowPlacement) (v : ℕ) :
    p.addr ≤ p.deadRow deadAt v ∧ p.deadRow deadAt v ≤ p.addr + (p.oldSize - p.shift) := by
  cases deadAt with
  | sectionBase => exact ⟨le_rfl, Nat.le_add_right _ _⟩
  | gapStart =>
    refine ⟨Nat.le_add_right _ _, Nat.add_le_add_left ?_ _⟩
    rw [deadRowAddr]
    cases hrun : runBefore p.runs (v - p.addr) with
    | none => exact Nat.zero_le _
    | some r => exact h r (runBefore_mem hrun)

/-- The pass that cuts the row's own section. -/
lemma Follows.own {st : PlanState} {r : ℕ × Option ℕ} (h : Follows passes deadAt v st r)
    (hnone : st.own = none) {k : ℕ} (hk : passes[k]? = some p) (hinside : p.RunsInside) {lo : ℕ}
    (hlo : lo ≤ p.addr) :
    Follows passes deadAt v
      { st with own := some k, lo := lo, hi := p.addr + (p.oldSize - p.shift) }
      (match p.remap r.1 with
        | some w => (w, r.2)
        | none => (p.deadRow deadAt r.1, some k)) := by
  have hvalue := h.value
  have hafter := h.unshifted hnone
  rw [RowPlan.apply, hnone] at hvalue
  obtain rfl := Option.some.inj hvalue
  dsimp only
  rw [hafter, Nat.sub_zero]
  cases hremap : p.remap (v - st.before) with
  | none =>
    obtain ⟨hlower, hupper⟩ := hinside.deadRow_le deadAt (v - st.before)
    refine ⟨le_trans hlo hlower, hupper, ?_, nofun⟩
    rw [RowPlan.apply]
    dsimp only
    rw [hk, Option.map_some, hremap]
    rfl
  | some w =>
    obtain ⟨hlower, hupper⟩ := hinside.remap_le hremap
    refine ⟨le_trans hlo hlower, hupper, ?_, nofun⟩
    rw [RowPlan.apply]
    dsimp only
    rw [hk, Option.map_some, hremap]
    rfl

/-- A pass that shifts the whole range, before the section is cut. -/
lemma Follows.shift_before {st : PlanState} {r : ℕ × Option ℕ} (h : Follows passes deadAt v st r)
    (hown : st.own = none) (n : ℕ) :
    Follows passes deadAt v
      { st with lo := st.lo - n, hi := st.hi - n, before := st.before + n } (r.1 - n, r.2) := by
  have hvalue := h.value
  rw [RowPlan.apply, hown] at hvalue
  have hr := Option.some.inj hvalue
  refine ⟨Nat.sub_le_sub_right h.lower n, Nat.sub_le_sub_right h.upper n, ?_, h.unshifted⟩
  rw [RowPlan.apply, hown, ← hr]
  dsimp only
  rw [Nat.sub_right_comm (v - st.before) st.after n, Nat.sub_sub v st.before n]

/-- A pass that shifts the whole range, after the section is cut. -/
lemma Follows.shift_after {st : PlanState} {r : ℕ × Option ℕ} (h : Follows passes deadAt v st r)
    {k : ℕ} (hown : st.own = some k) (n : ℕ) :
    Follows passes deadAt v
      { st with lo := st.lo - n, hi := st.hi - n, after := st.after + n } (r.1 - n, r.2) := by
  have hvalue := h.value
  rw [RowPlan.apply, hown] at hvalue
  obtain ⟨p, hp, hr⟩ := Option.map_eq_some_iff.mp hvalue
  refine ⟨Nat.sub_le_sub_right h.lower n, Nat.sub_le_sub_right h.upper n, ?_,
    fun hnone => by rw [hown] at hnone; cases hnone⟩
  rw [RowPlan.apply, hown]
  dsimp only at hr ⊢
  rw [hp, Option.map_some, ← hr]
  cases p.remap (v - st.before) with
  | none => exact congrArg (fun w => some (w, some k)) (Nat.sub_sub _ _ _).symm
  | some w => exact congrArg (fun w => some (w, none)) (Nat.sub_sub _ _ _).symm

/-- **One pass of the plan does what one pass of the walk does.** -/
theorem Follows.step {st st' : PlanState} {r : ℕ × Option ℕ} {ord k : ℕ}
    (h : Follows passes deadAt v st r) (hplan : planPass ord st (p, k) = some st')
    (hk : passes[k]? = some p) (hinside : p.RunsInside) (hfirst : p.ord = ord → st.own = none)
    (hshift : p.shift ≤ p.oldSize) :
    Follows passes deadAt v st' (walkPass ord deadAt r (p, k)) := by
  rw [planPass] at hplan
  rw [walkPass]
  dsimp only at hplan ⊢
  by_cases hord : p.ord = ord
  · rw [if_pos hord] at hplan
    rw [if_pos hord.symm, ← Option.some.inj hplan, Nat.add_sub_assoc hshift]
    exact h.own (hfirst hord) hk hinside le_rfl
  · rw [if_neg hord] at hplan
    rw [if_neg (Ne.symm hord)]
    split_ifs at hplan with hpart hwhole hown
    · have hle : p.oldEnd ≤ r.1 := le_trans hwhole h.lower
      obtain ⟨k', hk'⟩ := Option.isSome_iff_exists.mp hown
      rw [if_pos hle, ← Option.some.inj hplan]
      exact h.shift_after hk' p.shift
    · have hle : p.oldEnd ≤ r.1 := le_trans hwhole h.lower
      rw [if_pos hle, ← Option.some.inj hplan]
      exact h.shift_before (Option.not_isSome_iff_eq_none.mp hown) p.shift
    · have hlt : ¬ p.oldEnd ≤ r.1 := by
        intro hle
        have hhi : p.oldEnd ≤ st.hi := le_trans hle h.upper
        rw [decide_eq_false hwhole, decide_eq_true hhi] at hpart
        exact hpart rfl
      rw [if_neg hlt, ← Option.some.inj hplan]
      exact h

end Step

/-! ### All passes -/

section Run

variable {passes : List Pass} {deadAt : DeadRowPlacement} {v ord : ℕ}

/-- A pass sets the owner only where it cuts the section. -/
lemma planPass_own {st st' : PlanState} {p : Pass} {k : ℕ}
    (h : planPass ord st (p, k) = some st') (hord : p.ord ≠ ord) : st'.own = st.own := by
  rw [planPass] at h
  dsimp only at h
  rw [if_neg hord] at h
  split_ifs at h with hpart hwhole hown
  · rw [← Option.some.inj h]
  · rw [← Option.some.inj h]
  · rw [← Option.some.inj h]

/-- **The plan does what the walk does**, over any further passes. -/
theorem Follows.run {l : List (Pass × ℕ)} {st st' : PlanState} {r : ℕ × Option ℕ}
    (h : Follows passes deadAt v st r) (hplan : l.foldlM (planPass ord) st = some st')
    (hmem : ∀ kp ∈ l, passes[kp.2]? = some kp.1)
    (hwf : ∀ kp ∈ l, kp.1.RunsInside ∧ kp.1.shift ≤ kp.1.oldSize)
    (hdistinct : l.Pairwise fun kp kp' => kp.1.ord ≠ kp'.1.ord)
    (hfirst : st.own = none ∨ ∀ kp ∈ l, kp.1.ord ≠ ord) :
    Follows passes deadAt v st' (l.foldl (walkPass ord deadAt) r) := by
  induction l generalizing st r with
  | nil =>
    obtain rfl := Option.some.inj hplan
    exact h
  | cons kp l ih =>
    obtain ⟨p, k⟩ := kp
    obtain ⟨hhead, hrest⟩ := List.pairwise_cons.mp hdistinct
    obtain ⟨st₁, hfirstPass, hplan⟩ := Option.bind_eq_some_iff.mp hplan
    obtain ⟨hinside, hshift⟩ := hwf _ List.mem_cons_self
    have hstep := h.step hfirstPass (hmem _ List.mem_cons_self) hinside
      (fun hord => hfirst.resolve_right fun hnot => hnot _ List.mem_cons_self hord) hshift
    refine ih hstep hplan (fun kp hkp => hmem kp (List.mem_cons_of_mem _ hkp))
      (fun kp hkp => hwf kp (List.mem_cons_of_mem _ hkp)) hrest ?_
    by_cases hord : p.ord = ord
    · exact Or.inr fun kp hkp heq => hhead kp hkp (hord.trans heq.symm)
    · rw [planPass_own hfirstPass hord]
      exact hfirst.imp id fun hnot kp hkp => hnot kp (List.mem_cons_of_mem _ hkp)

/-- **`move_value` is `walk_row`**: for passes over distinct sections, each with its runs in the
section as cut, the plan of a section moves every row as the walk does. -/
theorem moveValue_eq_walkRow {sect : SectHdr}
    (hdistinct : passes.Pairwise fun p p' => p.ord ≠ p'.ord)
    (hwf : ∀ p ∈ passes, p.RunsInside ∧ p.shift ≤ p.oldSize) (v : ℕ) (deadAt : DeadRowPlacement) :
    moveValue passes (rowPlan sect passes) sect.ord v deadAt =
      some (walkRow passes sect.ord v deadAt) := by
  rw [moveValue]
  cases hplan : (rowPlan sect passes).filter fun pl => decide (pl.lo ≤ v ∧ v ≤ pl.hi) with
  | none => rfl
  | some pl =>
    obtain ⟨hplan, hrange⟩ := Option.filter_eq_some_iff.mp hplan
    obtain ⟨st, hst, rfl⟩ := Option.map_eq_some_iff.mp hplan
    obtain ⟨hlow, hhigh⟩ := of_decide_eq_true hrange
    have hstart : Follows passes deadAt v ⟨sect.addr, sect.addr + sect.size, 0, none, 0⟩
        (v, none) := ⟨hlow, hhigh, rfl, fun _ => rfl⟩
    have hrun := hstart.run hst
      (fun kp hkp => List.mem_zipIdx_iff_getElem?.mp hkp)
      (fun kp hkp => hwf kp.1 (List.fst_mem_of_mem_zipIdx hkp))
      (List.Pairwise.of_map Prod.fst (fun _ _ h => h) (by rwa [List.zipIdx_map_fst]))
      (Or.inl rfl)
    exact hrun.value

/-- A row through the one pass of its section, with that section at its address: the row moves as
`moveRow` says. -/
theorem walkRow_gapStart (p : Pass) (o : ℕ) :
    (walkRow [p] p.ord (p.addr + o) .gapStart).1 = p.addr + moveRow p.runs o := by
  rw [walkRow, List.zipIdx_singleton, List.foldl_cons, List.foldl_nil, walkPass, if_pos rfl,
    Pass.remap, if_neg (Nat.not_lt.mpr (Nat.le_add_right _ _)), Nat.add_sub_cancel_left, moveRow]
  cases hremap : remap p.runs o with
  | none =>
    rw [Option.map_none, Option.getD_none]
    change p.addr + deadRowAddr p.runs (p.addr + o - p.addr) = _
    rw [Nat.add_sub_cancel_left]
  | some n => rfl

end Run

end Torajs.Link.DeadStrip
