import ToraJs.Regalloc.BlockLiveness

/-!
# Live intervals

`liveness::compute_liveness`: the linear pass over the slots, the extension by the block
live sets and the alloca carve-out.  Every step only widens an interval, so what one step
establishes the later ones keep.

The result is that an interval contains every slot at which its value is path-live, for
any layout of the blocks.
-/

namespace Torajs.Regalloc

/-- `liveness::Interval`: inclusive, in slots. -/
structure Interval where
  start : ℕ
  stop : ℕ
  deriving DecidableEq, Repr

/-- `Interval::contains`. -/
def Interval.contains (it : Interval) (idx : ℕ) : Prop := idx ≥ it.start ∧ idx ≤ it.stop

/-- The intervals while the passes run. -/
abbrev Intervals := ValueId → Option Interval

/-- A read at slot `idx` extends the end. -/
def extendRead (idx : ℕ) (out : Intervals) (v : ValueId) : Intervals :=
  match out v with
  | some it => if idx > it.stop then Function.update out v (some ⟨it.start, idx⟩) else out
  | none => out

/-- A definition at slot `idx` starts the interval, or stays inside it. -/
def defineAt (idx : ℕ) (out : Intervals) (r : ValueId) : Intervals :=
  let it := (out r).getD ⟨idx, idx⟩
  Function.update out r (some ⟨it.start, max it.stop idx⟩)

/-- One slot of the linear pass: the reads first. -/
def visitSlot (out : Intervals) (s : Slot × ℕ) : Intervals :=
  let out' := s.1.reads.foldl (extendRead s.2) out
  match s.1.result with
  | some r => defineAt s.2 out' r
  | none => out'

/-- The intervals before the pass: the parameters live from slot 0. -/
def paramIntervals (f : Func) : Intervals :=
  f.params.foldl (fun out p => Function.update out p (some ⟨0, 0⟩)) fun _ => none

/-- The linear pass. -/
def linearPass (f : Func) : Intervals := f.slots.zipIdx.foldl visitSlot (paramIntervals f)

/-- The extension for a value live into a block. -/
def extendIn (params : List ValueId) (start stop : ℕ) (out : Intervals) (v : ValueId) :
    Intervals :=
  match out v with
  | some it =>
    Function.update out v
      (some ⟨min it.start start, if v ∈ params then it.stop else max it.stop stop⟩)
  | none => out

/-- The extension for a value live out of a block. -/
def extendOut (stop : ℕ) (out : Intervals) (v : ValueId) : Intervals :=
  match out v with
  | some it => Function.update out v (some ⟨it.start, max it.stop stop⟩)
  | none => out

/-- The extension for one block. -/
def extendBlock (f : Func) (bl : BlockLiveness) (out : Intervals) (b : ℕ) : Intervals :=
  (bl.liveOut b).foldl (extendOut (bl.stop b))
    ((bl.liveIn b).foldl (extendIn f.params (bl.start b - 1) (bl.stop b)) out)

/-- `extend_intervals_loop_aware`. -/
def extendIntervalsLoopAware (f : Func) (bl : BlockLiveness) (out : Intervals) : Intervals :=
  (List.range f.blocks.length).foldl (extendBlock f bl) out

/-- The results of the allocas. -/
def allocaResults (f : Func) : List ValueId :=
  f.blocks.flatMap fun b => (b.insts.filter fun i => i.kind.isAlloca).filterMap Inst.result

/-- `compute_liveness`. -/
def computeLiveness (f : Func) : Option (Intervals × BlockLiveness) :=
  if f.visitable then do
    let bl ← computeBlockLiveness f
    let out := extendIntervalsLoopAware f bl (linearPass f)
    some ((allocaResults f).foldl (extendOut (f.slots.length - 1)) out, bl)
  else none

/-! ### Widening -/

/-- Every interval is still there and contains the old one. -/
def Widens (out out' : Intervals) : Prop :=
  ∀ v it, out v = some it → ∃ it', out' v = some it' ∧ it'.start ≤ it.start ∧ it.stop ≤ it'.stop

lemma Widens.refl (out : Intervals) : Widens out out := fun _ it h => ⟨it, h, le_rfl, le_rfl⟩

lemma Widens.trans {out out' out'' : Intervals} (h : Widens out out') (h' : Widens out' out'') :
    Widens out out'' := by
  intro v it hv
  obtain ⟨it', hv', hs, he⟩ := h v it hv
  obtain ⟨it'', hv'', hs', he'⟩ := h' v it' hv'
  exact ⟨it'', hv'', hs'.trans hs, he.trans he'⟩

/-- Replacing one interval by a wider one. -/
lemma widens_update {out : Intervals} {v : ValueId} {new : Interval}
    (h : ∀ it, out v = some it → new.start ≤ it.start ∧ it.stop ≤ new.stop) :
    Widens out (Function.update out v (some new)) := by
  intro w it hw
  by_cases hwv : w = v
  · subst hwv
    obtain ⟨hs, he⟩ := h it hw
    exact ⟨new, Function.update_self .., hs, he⟩
  · exact ⟨it, by rwa [Function.update_of_ne hwv], le_rfl, le_rfl⟩

lemma widens_extendRead (idx : ℕ) (out : Intervals) (v : ValueId) :
    Widens out (extendRead idx out v) := by
  rw [extendRead]
  cases hv : out v with
  | none => exact Widens.refl out
  | some it =>
    dsimp only
    split_ifs with hlt
    · refine widens_update fun it' hit' => ?_
      obtain rfl := Option.some.inj (hv.symm.trans hit')
      exact ⟨le_rfl, hlt.le⟩
    · exact Widens.refl out

lemma widens_defineAt (idx : ℕ) (out : Intervals) (r : ValueId) :
    Widens out (defineAt idx out r) := by
  refine widens_update fun it hit => ?_
  rw [hit, Option.getD_some]
  exact ⟨le_rfl, le_max_left _ _⟩

lemma widens_extendIn (params : List ValueId) (start stop : ℕ) (out : Intervals) (v : ValueId) :
    Widens out (extendIn params start stop out v) := by
  rw [extendIn]
  cases hv : out v with
  | none => exact Widens.refl out
  | some it =>
    refine widens_update fun it' hit' => ?_
    obtain rfl := Option.some.inj (hv.symm.trans hit')
    refine ⟨min_le_left _ _, ?_⟩
    dsimp only
    split_ifs
    · exact le_rfl
    · exact le_max_left _ _

lemma widens_extendOut (stop : ℕ) (out : Intervals) (v : ValueId) :
    Widens out (extendOut stop out v) := by
  rw [extendOut]
  cases hv : out v with
  | none => exact Widens.refl out
  | some it =>
    refine widens_update fun it' hit' => ?_
    obtain rfl := Option.some.inj (hv.symm.trans hit')
    exact ⟨le_rfl, le_max_left _ _⟩

/-- A fold of widening steps widens. -/
lemma widens_foldl {ι : Type} {step : Intervals → ι → Intervals}
    (h : ∀ out x, Widens out (step out x)) (l : List ι) : ∀ out, Widens out (l.foldl step out) := by
  induction l with
  | nil => exact Widens.refl
  | cons x l ih => exact fun out => (h out x).trans (ih _)

/-- What a fold of widening steps establishes at one of its elements. -/
lemma foldl_reaches {ι : Type} {step : Intervals → ι → Intervals} {P : Interval → Prop}
    {v : ValueId} (h : ∀ out x, Widens out (step out x))
    (hmono : ∀ it it' : Interval, it'.start ≤ it.start → it.stop ≤ it'.stop → P it → P it')
    {l : List ι} {x : ι} (hx : x ∈ l)
    (hstep : ∀ out it, out v = some it → ∃ it', step out x v = some it' ∧ P it') :
    ∀ {out : Intervals} {it}, out v = some it → ∃ it', l.foldl step out v = some it' ∧ P it' := by
  induction l with
  | nil => cases hx
  | cons y l ih =>
    intro out it hv
    rw [List.foldl_cons]
    rcases List.mem_cons.mp hx with rfl | hx
    · obtain ⟨it', hit', hP⟩ := hstep out it hv
      obtain ⟨it'', hit'', hs, he⟩ := widens_foldl h l _ v it' hit'
      exact ⟨it'', hit'', hmono it' it'' hs he hP⟩
    · obtain ⟨it', hit', _⟩ := h out y v it hv
      exact ih hx hit'

/-! ### The linear pass -/

lemma widens_visitSlot (out : Intervals) (s : Slot × ℕ) : Widens out (visitSlot out s) := by
  have hreads := widens_foldl (fun out v => widens_extendRead s.2 out v) s.1.reads out
  rw [visitSlot]
  cases s.1.result with
  | none => exact hreads
  | some r => exact hreads.trans (widens_defineAt s.2 _ r)

/-- A read of a value that has an interval is inside it. -/
lemma visitSlot_read {out : Intervals} {s : Slot} {idx : ℕ} {v : ValueId} {it : Interval}
    (hv : out v = some it) (hread : v ∈ s.reads) :
    ∃ it', visitSlot out (s, idx) v = some it' ∧ idx ≤ it'.stop := by
  obtain ⟨it', hit', hle⟩ := foldl_reaches (P := fun it => idx ≤ it.stop)
    (fun out v => widens_extendRead idx out v) (fun _ _ _ he h => h.trans he) hread
    (fun out it hout => by
      rw [extendRead, hout]
      dsimp only
      split_ifs with hlt
      · exact ⟨_, Function.update_self .., le_rfl⟩
      · exact ⟨it, hout, not_lt.mp hlt⟩) hv
  rw [visitSlot]
  cases s.result with
  | none => exact ⟨it', hit', hle⟩
  | some r =>
    obtain ⟨it'', hit'', _, he⟩ := widens_defineAt idx _ r v it' hit'
    exact ⟨it'', hit'', hle.trans he⟩

/-- What holds after the first `p` slots: the intervals start at or before the first
definition, and reads after a definition are inside. -/
structure LinearInv (f : Func) (p : ℕ) (out : Intervals) : Prop where
  start_le : ∀ v it, out v = some it → v ∈ f.params ∨ it.start < p
  param : ∀ v ∈ f.params, ∃ it, out v = some it ∧ it.start = 0
  define : ∀ q s v, q < p → f.slots[q]? = some s → s.result = some v →
    ∃ it, out v = some it ∧ it.start ≤ q ∧ q ≤ it.stop
  read : ∀ q s v, q < p → f.slots[q]? = some s → v ∈ s.reads →
    (v ∈ f.params ∨ ∃ q' t, q' < q ∧ f.slots[q']? = some t ∧ t.result = some v) →
    ∃ it, out v = some it ∧ q ≤ it.stop

lemma paramIntervals_spec (f : Func) (v : ValueId) :
    paramIntervals f v = if v ∈ f.params then some ⟨0, 0⟩ else none := by
  have key : ∀ (ps : List ValueId) (out : Intervals),
      ps.foldl (fun out p => Function.update out p (some ⟨0, 0⟩)) out v =
        if v ∈ ps then some ⟨0, 0⟩ else out v := by
    intro ps
    induction ps with
    | nil => exact fun out => by simp
    | cons p ps ih =>
      intro out
      rw [List.foldl_cons, ih]
      by_cases hvp : v = p
      · simp [hvp]
      · simp [hvp]
  exact key f.params _

/-- The starts a slot's visit leaves: old ones, or the slot's own index. -/
lemma visitSlot_start {out : Intervals} {s : Slot} {idx : ℕ} {v : ValueId} {it : Interval}
    (h : visitSlot out (s, idx) v = some it) :
    (∃ it', out v = some it' ∧ it.start = it'.start) ∨ it.start = idx := by
  have hread : ∀ (reads : List ValueId) (out : Intervals) (it : Interval),
      reads.foldl (extendRead idx) out v = some it →
      ∃ it', out v = some it' ∧ it.start = it'.start := by
    intro reads
    induction reads with
    | nil => exact fun out it h => ⟨it, h, rfl⟩
    | cons w reads ih =>
      intro out it h
      obtain ⟨it', hit', hs⟩ := ih _ it h
      rw [extendRead] at hit'
      cases hw : out w with
      | none =>
        rw [hw] at hit'
        exact ⟨it', hit', hs⟩
      | some itw =>
        rw [hw] at hit'
        dsimp only at hit'
        split_ifs at hit'
        · by_cases hvw : v = w
          · subst hvw
            rw [Function.update_self] at hit'
            obtain rfl := Option.some.inj hit'
            exact ⟨itw, hw, hs⟩
          · rw [Function.update_of_ne hvw] at hit'
            exact ⟨it', hit', hs⟩
        · exact ⟨it', hit', hs⟩
  rw [visitSlot] at h
  cases hres : s.result with
  | none =>
    rw [hres] at h
    exact Or.inl (hread _ _ _ h)
  | some r =>
    rw [hres] at h
    dsimp only at h
    rw [defineAt] at h
    by_cases hvr : v = r
    · subst hvr
      rw [Function.update_self] at h
      obtain rfl := Option.some.inj h
      cases hfold : s.reads.foldl (extendRead idx) out v with
      | none => exact Or.inr rfl
      | some it' => exact Or.inl (hread _ _ it' hfold)
    · rw [Function.update_of_ne hvr] at h
      exact Or.inl (hread _ _ _ h)

lemma LinearInv.step {f : Func} {p : ℕ} {out : Intervals} {s : Slot} (h : LinearInv f p out)
    (hs : f.slots[p]? = some s) : LinearInv f (p + 1) (visitSlot out (s, p)) := by
  have hw := widens_visitSlot out (s, p)
  refine ⟨fun v it hv => ?_, fun v hv => ?_, fun q t v hq ht hres => ?_, fun q t v hq ht hread hdef => ?_⟩
  · rcases visitSlot_start hv with ⟨it', hit', heq⟩ | heq
    · rcases h.start_le v it' hit' with hp | hlt
      · exact Or.inl hp
      · exact Or.inr (by omega)
    · exact Or.inr (by omega)
  · obtain ⟨it, hit, hstart⟩ := h.param v hv
    obtain ⟨it', hit', hle, _⟩ := hw v it hit
    exact ⟨it', hit', by omega⟩
  · by_cases hqp : q = p
    · subst hqp
      obtain rfl := Option.some.inj (hs.symm.trans ht)
      rw [visitSlot, hres]
      refine ⟨_, Function.update_self .., ?_, le_max_right _ _⟩
      dsimp only
      cases hfold : s.reads.foldl (extendRead q) out v with
      | none => exact le_rfl
      | some it =>
        have hvis : visitSlot out (⟨s.reads, none⟩, q) v = some it := hfold
        rcases visitSlot_start hvis with ⟨it', hit', heq⟩ | heq
        · rcases h.start_le v it' hit' with hpar | hlt
          · obtain ⟨it'', hit'', hzero⟩ := h.param v hpar
            obtain rfl := Option.some.inj (hit'.symm.trans hit'')
            simp only [Option.getD_some]
            omega
          · simp only [Option.getD_some]
            omega
        · simp only [Option.getD_some]
          omega
    · obtain ⟨it, hit, hle, hge⟩ := h.define q t v (by omega) ht hres
      obtain ⟨it', hit', hle', hge'⟩ := hw v it hit
      exact ⟨it', hit', hle'.trans hle, hge.trans hge'⟩
  · by_cases hqp : q = p
    · subst hqp
      obtain rfl := Option.some.inj (hs.symm.trans ht)
      have hsome : ∃ it, out v = some it := by
        rcases hdef with hpar | ⟨q', t, hq', ht, hres⟩
        · obtain ⟨it, hit, _⟩ := h.param v hpar
          exact ⟨it, hit⟩
        · obtain ⟨it, hit, _⟩ := h.define q' t v hq' ht hres
          exact ⟨it, hit⟩
      obtain ⟨it, hit⟩ := hsome
      exact visitSlot_read hit hread
    · obtain ⟨it, hit, hge⟩ := h.read q t v (by omega) ht hread hdef
      obtain ⟨it', hit', _, hge'⟩ := hw v it hit
      exact ⟨it', hit', hge.trans hge'⟩

lemma linearPass_spec (f : Func) : LinearInv f f.slots.length (linearPass f) := by
  have key : ∀ (rest : List Slot) (p : ℕ) (out : Intervals), f.slots.drop p = rest →
      LinearInv f p out → LinearInv f (p + rest.length) ((rest.zipIdx p).foldl visitSlot out) := by
    intro rest
    induction rest with
    | nil => exact fun p out _ h => h
    | cons s rest ih =>
      intro p out hdrop h
      have hs : f.slots[p]? = some s := by rw [← List.head?_drop, hdrop, List.head?_cons]
      have hrest : f.slots.drop (p + 1) = rest := by rw [← List.tail_drop, hdrop, List.tail_cons]
      have := ih (p + 1) _ hrest (h.step hs)
      rw [List.length_cons, show p + (rest.length + 1) = p + 1 + rest.length by omega]
      exact this
  have hinit : LinearInv f 0 (paramIntervals f) := by
    refine ⟨fun v it hv => ?_, fun v hv => ?_, fun q _ _ hq => absurd hq (Nat.not_lt_zero q),
      fun q _ _ hq => absurd hq (Nat.not_lt_zero q)⟩
    · rw [paramIntervals_spec] at hv
      split_ifs at hv with hp
      exact Or.inl hp
    · exact ⟨⟨0, 0⟩, by rw [paramIntervals_spec, if_pos hv], rfl⟩
  have := key f.slots 0 _ List.drop_zero hinit
  rwa [Nat.zero_add] at this

/-! ### Slots of a block -/

/-- A block's slots sit at its start in the global numbering. -/
lemma Func.slots_getElem? {f : Func} {i : ℕ} {b : Block} (hb : f.blocks[i]? = some b) {k : ℕ}
    (hk : k < b.slots.length) : f.slots[f.start i + k]? = b.slots[k]? := by
  have hi := (List.getElem?_eq_some_iff.mp hb).1
  have hsplit : f.blocks = f.blocks.take i ++ b :: f.blocks.drop (i + 1) := by
    have hbi : b = f.blocks[i] := ((List.getElem?_eq_some_iff.mp hb).2).symm
    rw [hbi, ← List.drop_eq_getElem_cons hi, List.take_append_drop]
  have hslots : f.slots = (f.blocks.take i).flatMap Block.slots ++
      (b.slots ++ (f.blocks.drop (i + 1)).flatMap Block.slots) := by
    conv_lhs => rw [Func.slots, hsplit]
    rw [List.flatMap_append, List.flatMap_cons]
  rw [hslots, Func.start, List.getElem?_append_right (Nat.le_add_right _ _),
    Nat.add_sub_cancel_left, List.getElem?_append_left hk]

lemma Func.stop_eq {f : Func} {i : ℕ} {b : Block} (hb : f.blocks[i]? = some b) :
    f.stop i = f.start i + b.insts.length := by
  rw [Func.stop, hb, Option.map_some, Option.getD_some]

/-- The values live at the start of a suffix of a block's slots. -/
def LiveBefore (v : ValueId) : List Slot → Prop → Prop
  | [], out => out
  | s :: rest, out => v ∈ s.reads ∨ s.result ≠ some v ∧ LiveBefore v rest out

lemma liveBefore_iff {v : ValueId} {l : List Slot} {out : Prop} :
    LiveBefore v l out ↔ Exposed l v ∨ ¬ Defines l v ∧ out := by
  induction l with
  | nil => simp [LiveBefore, Exposed, Defines]
  | cons s l ih =>
    have hdef : Defines (s :: l) v ↔ s.result = some v ∨ Defines l v := by simp [Defines]
    rw [LiveBefore, ih, Exposed, hdef, not_or]
    tauto

lemma liveBefore_append {v : ValueId} {l l' : List Slot} {out : Prop} (h : ¬ Defines l v)
    (hl' : LiveBefore v l' out) : LiveBefore v (l ++ l') out := by
  rw [liveBefore_iff] at hl' ⊢
  rcases hl' with he | ⟨hd, hout⟩
  · exact Or.inl (exposed_append.mpr (Or.inr ⟨h, he⟩))
  · exact Or.inr ⟨fun hdef => (defines_append.mp hdef).elim h hd, hout⟩

/-- What is live before all slots of a block is in its live-in set. -/
lemma LiveSets.mem_liveIn {f : Func} {bl : BlockLiveness} (h : LiveSets f bl) {i : ℕ} {b : Block}
    (hb : f.blocks[i]? = some b) {v : ValueId}
    (hlive : LiveBefore v b.slots (v ∈ bl.liveOut i)) : v ∈ bl.liveIn i := by
  rcases liveBefore_iff.mp hlive with he | ⟨hd, hout⟩
  · exact h.exposed i b v hb he
  · exact h.through i b v hb hout hd

/-- Path liveness inside a block: live before the rest of the block's slots. -/
def LiveHere (f : Func) (bl : BlockLiveness) (v : ValueId) (x : Point) : Prop :=
  ∃ b, f.blocks[x.block]? = some b ∧ x.slot < b.slots.length ∧
    LiveBefore v (b.slots.drop (x.slot + if x.write then 1 else 0)) (v ∈ bl.liveOut x.block)

/-- **Closed live sets see every path-live value.** -/
theorem LiveSets.liveHere {f : Func} {bl : BlockLiveness} (h : LiveSets f bl) {v : ValueId}
    {x : Point} (hx : f.LiveAt v x) : LiveHere f bl v x := by
  induction hx with
  | @use x hx =>
    obtain ⟨hread, s, hs, hv⟩ := hx
    obtain ⟨b, hb, hs⟩ := Option.bind_eq_some_iff.mp hs
    have hk := (List.getElem?_eq_some_iff.mp hs).1
    refine ⟨b, hb, hk, ?_⟩
    rw [hread, if_neg Bool.false_ne_true, Nat.add_zero, List.drop_eq_getElem_cons hk,
      (List.getElem?_eq_some_iff.mp hs).2]
    exact Or.inl hv
  | step hstep hdef _ ih =>
    obtain ⟨c, hc, hk, hlive⟩ := ih
    cases hstep with
    | @write i k b hb hkb =>
      obtain rfl : b = c := Option.some.inj (hb.symm.trans hc)
      refine ⟨b, hb, hk, ?_⟩
      have hk : k < b.slots.length := hk
      change LiveBefore v (b.slots.drop k) _
      rw [List.drop_eq_getElem_cons hk]
      refine Or.inr ⟨fun hres => hdef ⟨rfl, b.slots[k], ?_, hres⟩, hlive⟩
      rw [Func.slotAt, hb, Option.bind_some, List.getElem?_eq_getElem hk]
    | @next i k b hb hkb =>
      obtain rfl : b = c := Option.some.inj (hb.symm.trans hc)
      have hk : k + 1 < b.slots.length := hk
      exact ⟨b, hb, by change k < _; omega, hlive⟩
    | @branch i j b t hb ht hpos =>
      refine ⟨b, hb, by rw [Block.length_slots]; exact Nat.lt_succ_self _, ?_⟩
      change LiveBefore v (b.slots.drop (b.insts.length + 1)) _
      rw [List.drop_eq_nil_of_le (by rw [Block.length_slots])]
      exact h.edge i j b t v hb ht hpos (h.mem_liveIn hc hlive)

/-! ### The intervals -/

/-- What the finished intervals satisfy. -/
structure Covering (f : Func) (bl : BlockLiveness) (ivs : Intervals) : Prop where
  param : ∀ v ∈ f.params, ∃ it, ivs v = some it ∧ it.start = 0
  define : ∀ q s v, f.slots[q]? = some s → s.result = some v →
    ∃ it, ivs v = some it ∧ it.start ≤ q ∧ q ≤ it.stop
  read : ∀ i b k s v it, f.blocks[i]? = some b → b.slots[k]? = some s → v ∈ s.reads →
    ivs v = some it → f.start i + k ≤ it.stop
  liveIn : ∀ i b v it, f.blocks[i]? = some b → v ∈ bl.liveIn i → ivs v = some it →
    it.start ≤ f.start i - 1
  liveOut : ∀ i b v it, f.blocks[i]? = some b → v ∈ bl.liveOut i → ivs v = some it →
    f.stop i ≤ it.stop

/-- A step that gives no value its first interval. -/
def KeepsNone (out out' : Intervals) : Prop := ∀ v, out v = none → out' v = none

lemma keepsNone_foldl {ι : Type} {step : Intervals → ι → Intervals}
    (h : ∀ out x, KeepsNone out (step out x)) (l : List ι) :
    ∀ out, KeepsNone out (l.foldl step out) := by
  induction l with
  | nil => exact fun _ _ hv => hv
  | cons x l ih => exact fun out v hv => ih _ v (h out x v hv)

lemma keepsNone_extendIn (params : List ValueId) (start stop : ℕ) (out : Intervals)
    (v : ValueId) : KeepsNone out (extendIn params start stop out v) := by
  intro w hw
  rw [extendIn]
  cases hv : out v with
  | none => exact hw
  | some it =>
    have hwv : w ≠ v := by
      rintro rfl
      rw [hw] at hv
      cases hv
    exact (Function.update_of_ne hwv ..).trans hw

lemma keepsNone_extendOut (stop : ℕ) (out : Intervals) (v : ValueId) :
    KeepsNone out (extendOut stop out v) := by
  intro w hw
  rw [extendOut]
  cases hv : out v with
  | none => exact hw
  | some it =>
    have hwv : w ≠ v := by
      rintro rfl
      rw [hw] at hv
      cases hv
    exact (Function.update_of_ne hwv ..).trans hw

section Extension

variable {f : Func} {bl : BlockLiveness}

lemma widens_extendBlock (out : Intervals) (b : ℕ) : Widens out (extendBlock f bl out b) :=
  (widens_foldl (fun out v => widens_extendIn _ _ _ out v) _ out).trans
    (widens_foldl (fun out v => widens_extendOut _ out v) _ _)

lemma keepsNone_extendBlock (out : Intervals) (b : ℕ) : KeepsNone out (extendBlock f bl out b) :=
  fun v hv => keepsNone_foldl (fun out v => keepsNone_extendOut _ out v) _ _ v
    (keepsNone_foldl (fun out v => keepsNone_extendIn _ _ _ out v) _ _ v hv)

/-- The extension of a block reaches its live-in values. -/
lemma extendBlock_liveIn {i : ℕ} {v : ValueId} (hv : v ∈ bl.liveIn i) {out : Intervals}
    {it : Interval} (hit : out v = some it) :
    ∃ it', extendBlock f bl out i v = some it' ∧ it'.start ≤ bl.start i - 1 ∧
      (v ∉ f.params → bl.stop i ≤ it'.stop) := by
  obtain ⟨it', hit', hs, he⟩ := foldl_reaches
    (P := fun it => it.start ≤ bl.start i - 1 ∧ (v ∉ f.params → bl.stop i ≤ it.stop))
    (fun out v => widens_extendIn f.params (bl.start i - 1) (bl.stop i) out v)
    (fun _ _ hs he h => ⟨hs.trans h.1, fun hp => (h.2 hp).trans he⟩) hv
    (fun out it hout => by
      rw [extendIn, hout]
      refine ⟨_, Function.update_self .., min_le_right _ _, fun hp => ?_⟩
      dsimp only
      rw [if_neg hp]
      exact le_max_right _ _) hit
  obtain ⟨it'', hit'', hs', he'⟩ :=
    widens_foldl (fun out v => widens_extendOut (bl.stop i) out v) (bl.liveOut i) _ v it' hit'
  exact ⟨it'', hit'', hs'.trans hs, fun hp => (he hp).trans he'⟩

/-- The extension of a block reaches its live-out values. -/
lemma extendBlock_liveOut {i : ℕ} {v : ValueId} (hv : v ∈ bl.liveOut i) {out : Intervals}
    {it : Interval} (hit : out v = some it) :
    ∃ it', extendBlock f bl out i v = some it' ∧ bl.stop i ≤ it'.stop := by
  obtain ⟨it', hit', _⟩ := widens_foldl
    (fun out v => widens_extendIn f.params (bl.start i - 1) (bl.stop i) out v) (bl.liveIn i) out
    v it hit
  exact foldl_reaches (P := fun it => bl.stop i ≤ it.stop)
    (fun out v => widens_extendOut (bl.stop i) out v) (fun _ _ _ he h => h.trans he) hv
    (fun out it hout => by
      rw [extendOut, hout]
      exact ⟨_, Function.update_self .., le_max_right _ _⟩) hit'

/-- **The finished intervals cover definitions, reads and live blocks.** -/
lemma covering_of_liveSets (h : LiveSets f bl) :
    Covering f bl ((allocaResults f).foldl (extendOut (f.slots.length - 1))
      (extendIntervalsLoopAware f bl (linearPass f))) := by
  set ext := extendIntervalsLoopAware f bl (linearPass f) with hext
  set ivs := (allocaResults f).foldl (extendOut (f.slots.length - 1)) ext with hivs
  have hlin := linearPass_spec f
  have hext_w : Widens (linearPass f) ext := widens_foldl widens_extendBlock _ _
  have hivs_w : Widens ext ivs := widens_foldl (fun out v => widens_extendOut _ out v) _ _
  have hwiden := hext_w.trans hivs_w
  have hnone : KeepsNone (linearPass f) ivs := fun v hv =>
    keepsNone_foldl (fun out v => keepsNone_extendOut _ out v) _ _ v
      (keepsNone_foldl keepsNone_extendBlock _ _ v hv)
  have hsome : ∀ {v it}, ivs v = some it → ∃ it', linearPass f v = some it' := by
    intro v it hv
    cases hl : linearPass f v with
    | none =>
      rw [hnone v hl] at hv
      cases hv
    | some it' => exact ⟨it', rfl⟩
  have hblock : ∀ {i b}, f.blocks[i]? = some b → i ∈ List.range f.blocks.length := fun hb =>
    List.mem_range.mpr (List.getElem?_eq_some_iff.mp hb).1
  have hin : ∀ i b v it, f.blocks[i]? = some b → v ∈ bl.liveIn i → ivs v = some it →
      it.start ≤ f.start i - 1 ∧ (v ∉ f.params → f.stop i ≤ it.stop) := by
    intro i b v it hb hv hit
    obtain ⟨it₀, hit₀⟩ := hsome hit
    obtain ⟨it₁, hit₁, hs, he⟩ := foldl_reaches
      (P := fun it => it.start ≤ bl.start i - 1 ∧ (v ∉ f.params → bl.stop i ≤ it.stop))
      widens_extendBlock (fun _ _ hs he h => ⟨hs.trans h.1, fun hp => (h.2 hp).trans he⟩)
      (hblock hb) (fun out it hout => extendBlock_liveIn hv hout) hit₀
    obtain ⟨it₂, hit₂, hs', he'⟩ := hivs_w v it₁ hit₁
    obtain rfl := Option.some.inj (hit.symm.trans hit₂)
    rw [h.start] at hs
    rw [h.stop] at he
    exact ⟨hs'.trans hs, fun hp => (he hp).trans he'⟩
  refine ⟨fun v hv => ?_, fun q s v hs hres => ?_, fun i b k s v it hb hs hread hit => ?_,
    fun i b v it hb hv hit => (hin i b v it hb hv hit).1, fun i b v it hb hv hit => ?_⟩
  · obtain ⟨it, hit, hzero⟩ := hlin.param v hv
    obtain ⟨it', hit', hle, _⟩ := hwiden v it hit
    exact ⟨it', hit', by omega⟩
  · have hq := (List.getElem?_eq_some_iff.mp hs).1
    obtain ⟨it, hit, hle, hge⟩ := hlin.define q s v hq hs hres
    obtain ⟨it', hit', hle', hge'⟩ := hwiden v it hit
    exact ⟨it', hit', hle'.trans hle, hge.trans hge'⟩
  · have hk := (List.getElem?_eq_some_iff.mp hs).1
    have hglobal : f.slots[f.start i + k]? = some s := (Func.slots_getElem? hb hk).trans hs
    have hq := (List.getElem?_eq_some_iff.mp hglobal).1
    by_cases hdef : v ∈ f.params ∨
        ∃ q' t, q' < f.start i + k ∧ f.slots[q']? = some t ∧ t.result = some v
    · obtain ⟨it₀, hit₀, hge⟩ := hlin.read _ s v hq hglobal hread hdef
      obtain ⟨it', hit', _, hge'⟩ := hwiden v it₀ hit₀
      obtain rfl := Option.some.inj (hit.symm.trans hit')
      exact hge.trans hge'
    · -- no definition before the read in layout order: the value is live into the block
      rw [not_or] at hdef
      have hexposed : Exposed b.slots v := by
        have hsplit : b.slots = b.slots.take k ++ s :: b.slots.drop (k + 1) := by
          rw [← (List.getElem?_eq_some_iff.mp hs).2, ← List.drop_eq_getElem_cons hk,
            List.take_append_drop]
        rw [hsplit]
        refine exposed_append.mpr (Or.inr ⟨?_, Or.inl hread⟩)
        rintro ⟨t, ht, hres⟩
        obtain ⟨k', hk'⟩ := List.mem_iff_getElem?.mp ht
        have hlt : k' < k := by
          have := (List.getElem?_eq_some_iff.mp hk').1
          rw [List.length_take] at this
          omega
        rw [List.getElem?_take_of_lt hlt] at hk'
        exact hdef.2 ⟨f.start i + k', t, by omega,
          (Func.slots_getElem? hb (by omega)).trans hk', hres⟩
      have hstop := (hin i b v it hb (h.exposed i b v hb hexposed) hit).2 hdef.1
      rw [Func.stop_eq hb] at hstop
      rw [Block.length_slots] at hk
      omega
  · obtain ⟨it₀, hit₀⟩ := hsome hit
    obtain ⟨it₁, hit₁, he⟩ := foldl_reaches (P := fun it => bl.stop i ≤ it.stop)
      widens_extendBlock (fun _ _ _ he h => h.trans he) (hblock hb)
      (fun out it hout => extendBlock_liveOut hv hout) hit₀
    obtain ⟨it₂, hit₂, _, he'⟩ := hivs_w v it₁ hit₁
    obtain rfl := Option.some.inj (hit.symm.trans hit₂)
    rw [h.stop] at he
    exact he.trans he'

end Extension

/-- `compute_liveness` succeeds on a visitable function. -/
theorem computeLiveness_spec {f : Func} (h : f.visitable = true) :
    ∃ ivs bl, computeLiveness f = some (ivs, bl) ∧ LiveSets f bl ∧ Covering f bl ivs := by
  obtain ⟨bl, hbl, hsets⟩ := computeBlockLiveness_spec h
  refine ⟨_, bl, ?_, hsets, covering_of_liveSets hsets⟩
  rw [computeLiveness, if_pos h, hbl]
  rfl

/-- **An interval contains every slot where its value is path-live.** -/
theorem Covering.contains {f : Func} {bl : BlockLiveness} {ivs : Intervals} (hc : Covering f bl ivs)
    (h : LiveSets f bl) {v : ValueId} {it : Interval} (hit : ivs v = some it) {x : Point}
    (hx : f.LiveAt v x) :
    it.start ≤ f.start x.block + x.slot ∧ f.start x.block + x.slot ≤ it.stop := by
  obtain ⟨b, hb, hk, hlive⟩ := h.liveHere hx
  set k' := x.slot + if x.write then 1 else 0 with hk'
  have hle : x.slot ≤ k' ∧ k' ≤ x.slot + 1 := by
    rw [hk']
    split_ifs <;> omega
  constructor
  · by_cases hdef : Defines (b.slots.take k') v
    · obtain ⟨t, ht, hres⟩ := hdef
      obtain ⟨j, hj⟩ := List.mem_iff_getElem?.mp ht
      have hjk : j < k' := by
        have := (List.getElem?_eq_some_iff.mp hj).1
        rw [List.length_take] at this
        omega
      rw [List.getElem?_take_of_lt hjk] at hj
      have hjlt := (List.getElem?_eq_some_iff.mp hj).1
      obtain ⟨it', hit', hs, _⟩ := hc.define (f.start x.block + j) t v
        ((Func.slots_getElem? hb hjlt).trans hj) hres
      obtain rfl := Option.some.inj (hit.symm.trans hit')
      omega
    · have hall := liveBefore_append hdef hlive
      rw [List.take_append_drop] at hall
      have := hc.liveIn x.block b v it hb (h.mem_liveIn hb hall) hit
      omega
  · rcases liveBefore_iff.mp hlive with he | ⟨_, hout⟩
    · obtain ⟨s, hs, hread⟩ := he.exists_read
      obtain ⟨j, hj⟩ := List.mem_iff_getElem?.mp hs
      rw [List.getElem?_drop] at hj
      have := hc.read x.block b (k' + j) s v it hb hj hread hit
      omega
    · have hstop := hc.liveOut x.block b v it hb hout hit
      rw [Func.stop_eq hb] at hstop
      rw [Block.length_slots] at hk
      omega

end Torajs.Regalloc
