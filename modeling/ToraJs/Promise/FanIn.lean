import Mathlib.Data.List.Basic
import Mathlib.Data.List.Nodup
import Mathlib.Data.List.Perm.Basic
import Mathlib.Logic.Function.Basic

/-!
# The fan-in of `Promise.all`, `Promise.allSettled` and `Promise.any`

`combinator_all_fanin.rs` attaches one job to each element of the input and answers a promise that
is pending.  The jobs share a block: the array that is collected, the count of the elements that
are owed, and the count of the jobs that hold it.  `combinator_fanin_slot.rs` says what an element
puts in its slot, and what the result is settled with.

A settled value is what its reader reads, whatever form its cell holds it in; only a cell that
names no form at all is told apart, since a box cannot be made of it.  The jobs of one fan-in are
followed; whatever else runs between them settles promises, in any order.  A step that would read a
block that is freed, or that would count below zero, has no result.
-/

namespace Torajs.Promise.FanIn

variable {V : Type}

/-! ### The call -/

/-- `MODE_ALL`, `MODE_ALLSETTLED` and `MODE_ANY`. -/
inductive Mode
  | all
  | allSettled
  | any
  deriving DecidableEq

/-- A settled cell: its state, its value, and whether its stamp names a form. -/
structure Settled (V : Type) where
  fulfilled : Bool
  value : V
  stamped : Bool

/-- The input: an array of promises, where a slot may be NULL, or an array of boxes. -/
inductive Input (V : Type)
  | typed (slots : List (Option ℕ))
  | anyShape (slots : List (ℕ ⊕ V))

/-- An element as the walk finds it. -/
inductive Element (V : Type)
  | promise (p : ℕ)
  | plain (v : V)
  | null

/-- The elements of the input: `arr_slot_ptr`, or `any_slot` and `slot_promise`. -/
def Input.elements : Input V → List (Element V)
  | .typed slots => slots.map fun slot => slot.elim .null .promise
  | .anyShape slots => slots.map (Sum.elim .promise .plain)

/-- `input_any`. -/
def Input.isAny : Input V → Bool
  | .typed _ => false
  | .anyShape _ => true

/-- One call: its mode, its input, whether its target form is `REPR_ANY`, whether the program has
registered an `AggregateError`, and the box of `undefined`. -/
structure Call (V : Type) where
  mode : Mode
  input : Input V
  targetAny : Bool
  aggregate : Bool
  undefined : V

/-- `result_any`. -/
def Call.resultAny (c : Call V) : Bool :=
  c.mode = .all && (c.input.isAny || c.targetAny)

/-! ### What an element contributes -/

/-- A slot of the result array, or of the list of errors. -/
inductive Slot (V : Type)
  | unset
  | value (v : V)
  | record (fulfilled : Bool) (v : V)

/-- What the result promise is settled with. -/
inductive Outcome (V : Type)
  | fulfilledArray (slots : List (Slot V))
  | fulfilledValue (v : V)
  | rejectedValue (v : V)
  | rejectedAggregate (errors : List (Slot V))
  | rejectedUndefined

/-- `box_settled_owned`, or else `box_undefined`. -/
def boxed (c : Call V) (s : Settled V) : V := if s.stamped then s.value else c.undefined

/-- What `store_element` parks. -/
def slotOf (c : Call V) (s : Settled V) : Slot V :=
  match c.mode with
  | .any => .value (boxed c s)
  | .allSettled => .record s.fulfilled (if c.targetAny then boxed c s else s.value)
  | .all => .value (if c.resultAny then boxed c s else s.value)

/-- What `store_plain` parks. -/
def plainSlot (c : Call V) (v : V) : Slot V :=
  match c.mode with
  | .allSettled => .record true v
  | _ => .value v

/-- `short_circuits`. -/
def shortCircuits (c : Call V) (s : Settled V) : Bool :=
  if c.mode = .any then s.fulfilled else c.mode = .all && !s.fulfilled

/-- What `settle_from` settles the result with. -/
def forward (c : Call V) (s : Settled V) : Outcome V :=
  if c.mode = .any then .fulfilledValue (if c.input.isAny then boxed c s else s.value)
  else .rejectedValue s.value

/-- What `fulfil` and `reject_aggregate` settle the result with. -/
def collected (c : Call V) (slots : List (Slot V)) : Outcome V :=
  if c.mode = .any then
    if c.aggregate then .rejectedAggregate slots else .rejectedUndefined
  else .fulfilledArray slots

/-! ### The block -/

/-- `AllBlock`. -/
structure Block (V : Type) where
  resultArr : Option (List (Slot V))
  remaining : ℕ
  jobs : ℕ
  done : Bool

/-- The promise that a job holds: an element of the input, or a wrapper of `wrap_plain`. -/
inductive Source (V : Type)
  | cell (p : ℕ)
  | minted (v : V)

/-- `AllElemArg`. -/
structure Job (V : Type) where
  elem : Source V
  index : ℕ

/-- `store_slot` in the array that the block owns. -/
def storeSlot (b : Block V) (i : ℕ) (slot : Slot V) : Option (Block V) :=
  match b.resultArr with
  | none => none
  | some arr => some { b with resultArr := some (arr.set i slot) }

/-- An element is counted out. -/
def countOut (b : Block V) : Option (Block V) :=
  match b.remaining with
  | 0 => none
  | n + 1 => some { b with remaining := n }

/-- `finish`: the array is handed over. -/
def finish (c : Call V) (b : Block V) : Option (Block V × List (Outcome V)) :=
  match b.resultArr with
  | none => none
  | some arr => some ({ b with resultArr := none, done := true }, [collected c arr])

/-- What `all_elem_dispatch` does to the block and to the result. -/
def report (c : Call V) (b : Block V) (i : ℕ) (s : Settled V) :
    Option (Block V × List (Outcome V)) :=
  if b.done then some (b, [])
  else if shortCircuits c s then some ({ b with done := true }, [forward c s])
  else
    ((storeSlot b i (slotOf c s)).bind countOut).bind fun b =>
      if b.remaining = 0 then finish c b else some (b, [])

/-! ### The runs -/

/-- The cells; the jobs on their callback lists, the last attached first; the jobs on the microtask
queue; the block while it lives; what the result was settled with; the blocks that were freed, as
they were then; and the jobs that have run, with what they found. -/
structure World (V : Type) where
  cells : ℕ → Option (Settled V)
  waiting : List (Job V)
  queue : List (Job V)
  block : Option (Block V)
  settlements : List (Outcome V)
  freed : List (Block V)
  ran : List (Job V × Settled V)

/-- What the promise of a job was settled with. -/
def settledOf (cells : ℕ → Option (Settled V)) : Source V → Option (Settled V)
  | .cell p => cells p
  | .minted v => some { fulfilled := true, value := v, stamped := true }

/-- `release_block`. -/
def releaseBlock (w : World V) (b : Block V) : Option (World V) :=
  match b.jobs with
  | 0 => none
  | 1 => some { w with block := none, freed := { b with jobs := 0 } :: w.freed }
  | n + 2 => some { w with block := some { b with jobs := n + 1 } }

/-- `attach_elem_job`: the job of a promise that is settled is enqueued at once. -/
def attachElemJob (w : World V) (b : Block V) (job : Job V) : World V :=
  let w := { w with block := some { b with jobs := b.jobs + 1 } }
  match settledOf w.cells job.elem with
  | none => { w with waiting := job :: w.waiting }
  | some _ => { w with queue := w.queue ++ [job] }

/-- One element in the loop of `fan_in`. -/
def attach (c : Call V) (w : World V) (element : Element V × ℕ) : Option (World V) :=
  match w.block with
  | none => none
  | some b =>
    match element with
    | (.promise p, i) => some (attachElemJob w b ⟨.cell p, i⟩)
    | (.plain v, i) =>
      if c.mode = .any then some (attachElemJob w b ⟨.minted v, i⟩)
      else ((storeSlot b i (plainSlot c v)).bind countOut).map fun b => { w with block := some b }
    | (.null, _) => (countOut b).map fun b => { w with block := some b }

/-- The end of `fan_in`: what owes nothing is finished, and the hold of the setup is released. -/
def endSetup (c : Call V) (w : World V) : Option (World V) :=
  match w.block with
  | none => none
  | some b =>
    if b.remaining = 0 ∧ b.done = false then
      (finish c b).bind fun (b, outcomes) =>
        releaseBlock { w with settlements := outcomes ++ w.settlements } b
    else releaseBlock w b

/-- The block as `fan_in` allocates it. -/
def Block.init (len : ℕ) : Block V where
  resultArr := some (List.replicate len .unset)
  remaining := len
  jobs := 1
  done := false

/-- The world as `fan_in` finds it. -/
def World.init (cells : ℕ → Option (Settled V)) (len : ℕ) : World V where
  cells := cells
  waiting := []
  queue := []
  block := some (Block.init len)
  settlements := []
  freed := []
  ran := []

/-- `fan_in`. -/
def fanIn (c : Call V) (cells : ℕ → Option (Settled V)) : Option (World V) :=
  let elements := c.input.elements
  (elements.zipIdx.foldlM (attach c) (World.init cells elements.length)).bind (endSetup c)

/-- A promise settles, or the next job of the fan-in runs. -/
inductive Event (V : Type)
  | settle (p : ℕ) (s : Settled V)
  | tick

/-- Whether a job waits on a promise. -/
def Job.isOn (job : Job V) (p : ℕ) : Bool :=
  match job.elem with
  | .cell q => q = p
  | .minted _ => false

/-- `__torajs_promise_resolve` and `__torajs_promise_reject`: the first settlement counts, and
`drain_callbacks` enqueues the jobs in the order in which they were attached. -/
def settle (w : World V) (p : ℕ) (s : Settled V) : World V :=
  match w.cells p with
  | some _ => w
  | none =>
    { w with
      cells := Function.update w.cells p (some s)
      waiting := w.waiting.filter fun job => !job.isOn p
      queue := w.queue ++ (w.waiting.filter fun job => job.isOn p).reverse }

/-- The next job runs `all_elem_dispatch`. -/
def tick (c : Call V) (w : World V) : Option (World V) :=
  match w.queue with
  | [] => some w
  | job :: rest =>
    match w.block, settledOf w.cells job.elem with
    | some b, some s =>
      (report c b job.index s).bind fun (b, outcomes) =>
        releaseBlock
          { w with
            queue := rest
            settlements := outcomes ++ w.settlements
            ran := w.ran ++ [(job, s)] } b
    | _, _ => none

/-- One step. -/
def step (c : Call V) (w : World V) : Event V → Option (World V)
  | .settle p s => some (settle w p s)
  | .tick => tick c w

/-- The steps of a run. -/
def run (c : Call V) (w : World V) (events : List (Event V)) : Option (World V) :=
  events.foldlM (step c) w

/-! ### What is asked for -/

/-- The job of an element, if it gets one. -/
def jobOf (c : Call V) : Element V × ℕ → Option (Job V)
  | (.promise p, i) => some ⟨.cell p, i⟩
  | (.plain v, i) => if c.mode = .any then some ⟨.minted v, i⟩ else none
  | (.null, _) => none

/-- The jobs of some elements, in the order of the elements. -/
def jobsOf (c : Call V) (elements : List (Element V)) : List (Job V) :=
  elements.zipIdx.filterMap (jobOf c)

/-- The jobs of a call. -/
def Call.jobs (c : Call V) : List (Job V) := jobsOf c c.input.elements

/-- What an element contributes when its promise is settled. -/
def contribution (c : Call V) (cells : ℕ → Option (Settled V)) : Element V → Slot V
  | .promise p => (cells p).elim .unset (slotOf c)
  | .plain v => plainSlot c v
  | .null => .unset

/-- The first job that short-circuits. -/
def firstShort (c : Call V) (ran : List (Job V × Settled V)) : Option (Job V × Settled V) :=
  ran.find? fun r => shortCircuits c r.2

/-- What the result has to be settled with: what the first job that short-circuits has found, or
else what all elements contribute, in the order of the elements. -/
def outcome (c : Call V) (w : World V) : Outcome V :=
  match firstShort c w.ran with
  | some r => forward c r.2
  | none => collected c (c.input.elements.map (contribution c w.cells))

/-- The jobs whose promises settle during a run, in that order. -/
def arrivals (c : Call V) (cells : ℕ → Option (Settled V)) : List (Event V) → List (Job V)
  | [] => []
  | .tick :: events => arrivals c cells events
  | .settle p s :: events =>
    match cells p with
    | some _ => arrivals c cells events
    | none =>
      c.jobs.filter (fun job => job.isOn p) ++
        arrivals c (Function.update cells p (some s)) events

/-- The fan-in is right after some events.

The jobs have run in the order in which their promises settled, each once.  The result is settled
with its outcome, at most once, and it is settled exactly if a job has short-circuited or all have
run.  The count of what is owed is zero only if all have run.  The block is freed, once, exactly if
all have run. -/
structure Right (c : Call V) (cells : ℕ → Option (Settled V)) (events : List (Event V))
    (w : World V) : Prop where
  order : w.ran.map Prod.fst ++ w.queue =
    c.jobs.filter (fun job => (settledOf cells job.elem).isSome) ++ arrivals c cells events
  found : ∀ r ∈ w.ran, settledOf w.cells r.1.elem = some r.2
  distinct : (w.ran.map fun r => r.1.index).Nodup
  once : w.settlements = [] ∨ w.settlements = [outcome c w]
  settled : w.settlements ≠ [] ↔
    (firstShort c w.ran).isSome ∨ (w.ran.map Prod.fst).Perm c.jobs
  owed : ∀ b, w.block = some b ∨ b ∈ w.freed → firstShort c w.ran = none →
    b.remaining + w.ran.length = c.jobs.length
  zero : ∀ b, w.block = some b ∨ b ∈ w.freed → b.remaining = 0 →
    (w.ran.map Prod.fst).Perm c.jobs
  released : (w.freed.length = 1 ∧ w.block = none ∧ (w.ran.map Prod.fst).Perm c.jobs) ∨
    (w.freed = [] ∧ w.block.isSome ∧ w.ran.length < c.jobs.length)

/-! ### The jobs -/

section Jobs

variable {c : Call V} {cells : ℕ → Option (Settled V)} {job : Job V} {e : Element V} {i : ℕ}

/-- A job knows the index of its element. -/
lemma index_of_jobOf (h : jobOf c (e, i) = some job) : job.index = i := by
  cases e with
  | promise p => rw [← Option.some.inj h]
  | plain v => rw [← Option.some.inj (Option.ite_none_right_eq_some.mp h).2]
  | null => cases h

lemma mem_jobs : job ∈ c.jobs ↔
    ∃ e, c.input.elements[job.index]? = some e ∧ jobOf c (e, job.index) = some job := by
  rw [Call.jobs, jobsOf, List.mem_filterMap]
  constructor
  · rintro ⟨⟨e, i⟩, hmem, hjob⟩
    rw [index_of_jobOf hjob]
    exact ⟨e, List.mem_zipIdx_iff_getElem?.mp hmem, hjob⟩
  · rintro ⟨e, helem, hjob⟩
    exact ⟨(e, job.index), List.mem_zipIdx_iff_getElem?.mpr helem, hjob⟩

lemma jobsOf_append (elements : List (Element V)) :
    jobsOf c (elements ++ [e]) = jobsOf c elements ++ (jobOf c (e, elements.length)).toList := by
  rw [jobsOf, List.zipIdx_append, List.filterMap_append, jobsOf, List.zipIdx_singleton,
    Nat.zero_add]
  cases hjob : jobOf c (e, elements.length) <;> simp [hjob]

/-- Each element has one job at most. -/
lemma nodup_index_jobs : (c.jobs.map Job.index).Nodup := by
  have hsorted : c.input.elements.zipIdx.Pairwise fun a b => a.2 < b.2 := by
    rw [← List.pairwise_map (f := Prod.snd), List.zipIdx_map_snd]
    exact List.pairwise_lt_range'
  have hjobs : c.jobs.Pairwise fun a b => a.index < b.index := by
    refine List.Pairwise.filterMap _ ?_ hsorted
    rintro ⟨e, i⟩ ⟨e', i'⟩ hlt job hjob job' hjob'
    rw [index_of_jobOf hjob, index_of_jobOf hjob']
    exact hlt
  exact List.pairwise_map.mpr (hjobs.imp fun hlt => Nat.ne_of_lt hlt)

/-- What a job finds is what its element contributes, unless it short-circuits. -/
lemma contribution_of_job {s : Settled V} (hjob : jobOf c (e, i) = some job)
    (hsettled : settledOf cells job.elem = some s) (hshort : shortCircuits c s = false) :
    contribution c cells e = slotOf c s := by
  cases e with
  | promise p =>
    obtain rfl := Option.some.inj hjob
    rw [contribution, show cells p = some s from hsettled, Option.elim_some]
  | plain v =>
    obtain ⟨hany, hjob⟩ := Option.ite_none_right_eq_some.mp hjob
    obtain rfl := Option.some.inj hjob
    obtain rfl := Option.some.inj hsettled
    rw [shortCircuits, if_pos hany] at hshort
    cases hshort
  | null => cases hjob

lemma isOn_iff {p : ℕ} : job.isOn p = true ↔ job.elem = .cell p := by
  rw [Job.isOn]
  cases job.elem with
  | cell q => simp
  | minted v => simp

/-- A promise that settles is what its jobs find. -/
lemma settledOf_update_self (p : ℕ) (s : Settled V) :
    settledOf (Function.update cells p (some s)) (.cell p) = some s := by
  rw [settledOf, Function.update_self]

/-- The jobs of other promises find what they found. -/
lemma settledOf_update_of_ne {p : ℕ} {source : Source V} (s : Settled V) (h : source ≠ .cell p) :
    settledOf (Function.update cells p (some s)) source = settledOf cells source := by
  cases source with
  | cell q => exact Function.update_of_ne (fun hq => h (congrArg Source.cell hq)) (some s) cells
  | minted v => rfl

end Jobs

/-! ### The array -/

/-- The array when some jobs have run: the slots of the other jobs are not set. -/
def slotsAt (c : Call V) (cells : ℕ → Option (Settled V)) (ran : List (Job V × Settled V)) :
    List (Slot V) :=
  c.input.elements.mapIdx fun i e =>
    if (jobOf c (e, i)).isSome ∧ i ∉ ran.map (fun r => r.1.index) then .unset
    else contribution c cells e

section Slots

variable {c : Call V} {cells cells' : ℕ → Option (Settled V)} {ran : List (Job V × Settled V)}

@[simp] lemma slotsAt_getElem? (i : ℕ) :
    (slotsAt c cells ran)[i]? = c.input.elements[i]?.map fun e =>
      if (jobOf c (e, i)).isSome ∧ i ∉ ran.map (fun r => r.1.index) then .unset
      else contribution c cells e := by
  rw [slotsAt, List.getElem?_mapIdx]

/-- The slot of a job is set when it runs. -/
lemma slotsAt_set {job : Job V} {s : Settled V} (hjob : job ∈ c.jobs)
    (hsettled : settledOf cells job.elem = some s) (hshort : shortCircuits c s = false) :
    (slotsAt c cells ran).set job.index (slotOf c s) = slotsAt c cells (ran ++ [(job, s)]) := by
  obtain ⟨e, helem, hof⟩ := mem_jobs.mp hjob
  refine List.ext_getElem? fun i => ?_
  rw [List.getElem?_set]
  by_cases hindex : job.index = i
  · subst hindex
    have hlt : job.index < (slotsAt c cells ran).length := by
      rw [slotsAt, List.length_mapIdx]
      exact (List.getElem?_eq_some_iff.mp helem).1
    rw [if_pos rfl, if_pos hlt, slotsAt_getElem?, helem, Option.map_some,
      if_neg fun h => h.2 (by simp), contribution_of_job hof hsettled hshort]
  · have hmem : i ∈ (ran ++ [(job, s)]).map (fun r => r.1.index) ↔
        i ∈ ran.map fun r => r.1.index := by
      rw [List.map_append, List.mem_append]
      exact or_iff_left fun h => hindex (List.mem_singleton.mp h).symm
    simp only [if_neg hindex, slotsAt_getElem?, hmem]

/-- When all jobs have run, every element has contributed. -/
lemma slotsAt_of_perm (hperm : (ran.map Prod.fst).Perm c.jobs) :
    slotsAt c cells ran = c.input.elements.map (contribution c cells) := by
  refine List.ext_getElem? fun i => ?_
  rw [slotsAt_getElem?, List.getElem?_map]
  refine Option.map_congr fun e helem => if_neg fun ⟨hsome, hnot⟩ => hnot ?_
  obtain ⟨job, hjob⟩ := Option.isSome_iff_exists.mp hsome
  obtain rfl := index_of_jobOf hjob
  obtain ⟨r, hr, rfl⟩ :=
    List.mem_map.mp (hperm.mem_iff.mpr (mem_jobs.mpr ⟨e, helem, hjob⟩))
  exact List.mem_map_of_mem hr

/-- What the elements of the jobs that have run contribute stays when another promise settles. -/
lemma slotsAt_congr (hran : ∀ r ∈ ran, r.1 ∈ c.jobs)
    (hcells : ∀ r ∈ ran, settledOf cells' r.1.elem = settledOf cells r.1.elem) :
    slotsAt c cells' ran = slotsAt c cells ran := by
  refine List.ext_getElem? fun i => ?_
  rw [slotsAt_getElem?, slotsAt_getElem?]
  refine Option.map_congr fun e helem => ?_
  cases e with
  | plain v => rfl
  | null => rfl
  | promise p =>
    by_cases hrun : i ∈ ran.map fun r => r.1.index
    · obtain ⟨r, hr, rfl⟩ := List.mem_map.mp hrun
      obtain ⟨e, hget, hof⟩ := mem_jobs.mp (hran r hr)
      obtain rfl : e = .promise p := Option.some.inj (hget.symm.trans helem)
      have hsource : r.1.elem = .cell p := by rw [← Option.some.inj hof]
      have hcell : cells' p = cells p := by
        have hsame := hcells r hr
        rwa [hsource] at hsame
      rw [if_neg fun h => h.2 hrun, if_neg fun h => h.2 hrun, contribution, contribution, hcell]
    · have hwait : (jobOf c (.promise p, i)).isSome ∧ i ∉ ran.map fun r => r.1.index :=
        ⟨rfl, hrun⟩
      rw [if_pos hwait, if_pos hwait]

end Slots

/-! ### The invariant -/

/-- The jobs that are owed. -/
def World.owed (w : World V) : ℕ := w.queue.length + w.waiting.length

/-- Every job has run, or is queued behind a promise that is settled, or waits on one that is not.
-/
structure Scheduled (c : Call V) (w : World V) : Prop where
  perm : (w.ran.map Prod.fst ++ (w.queue ++ w.waiting.reverse)).Perm c.jobs
  waiting : w.waiting.reverse = c.jobs.filter fun job => (settledOf w.cells job.elem).isNone
  found : ∀ r ∈ w.ran, settledOf w.cells r.1.elem = some r.2
  queued : ∀ job ∈ w.queue, (settledOf w.cells job.elem).isSome

/-- What the block holds, and what the result was settled with. -/
structure Counted (c : Call V) (w : World V) (b : Block V) : Prop where
  owing : b.done = false → firstShort c w.ran = none ∧ w.settlements = [] ∧
    b.remaining = w.owed ∧ 0 < w.owed ∧ b.resultArr = some (slotsAt c w.cells w.ran)
  done : b.done = true → w.settlements = [outcome c w]
  finished : b.done = true → firstShort c w.ran = none → b.remaining = 0 ∧ w.owed = 0
  short : firstShort c w.ran ≠ none → 0 < b.remaining

/-- The block lives while jobs are owed. -/
def Held (w : World V) (b : Block V) : Prop :=
  if w.owed = 0 then w.block = none ∧ w.freed = [b]
  else w.block = some b ∧ w.freed = [] ∧ b.jobs = w.owed

/-- The invariant. -/
structure Holds (c : Call V) (w : World V) : Prop where
  scheduled : Scheduled c w
  block : ∃ b, Held w b ∧ Counted c w b

section Invariant

variable {c : Call V} {w : World V} {b : Block V}

/-- A hold is released, and the block is freed with the last one. -/
lemma releaseBlock_holds (hscheduled : Scheduled c w) (hcounted : Counted c w b)
    (hfreed : w.freed = []) (hjobs : b.jobs = w.owed + 1) :
    ∃ block freed, releaseBlock w b = some { w with block := block, freed := freed } ∧
      Holds c { w with block := block, freed := freed } := by
  have hscheduled' : ∀ block freed, Scheduled c { w with block := block, freed := freed } :=
    fun _ _ => ⟨hscheduled.perm, hscheduled.waiting, hscheduled.found, hscheduled.queued⟩
  have hcounted' : ∀ block freed jobs,
      Counted c { w with block := block, freed := freed } { b with jobs := jobs } :=
    fun _ _ _ => ⟨hcounted.owing, hcounted.done, hcounted.finished, hcounted.short⟩
  cases howed : w.owed with
  | zero =>
    rw [howed] at hjobs
    refine ⟨none, [{ b with jobs := 0 }], ?_, hscheduled' _ _, { b with jobs := 0 }, ?_,
      hcounted' _ _ _⟩
    · rw [releaseBlock, hjobs, hfreed]
    · exact (if_pos howed).mpr ⟨rfl, rfl⟩
  | succ n =>
    rw [howed] at hjobs
    refine ⟨some { b with jobs := n + 1 }, [], ?_, hscheduled' _ _, { b with jobs := n + 1 }, ?_,
      hcounted' _ _ _⟩
    · rw [releaseBlock, hjobs, ← hfreed]
    · have hne : w.owed ≠ 0 := by omega
      exact (if_neg hne).mpr ⟨rfl, rfl, howed.symm⟩

/-- The next job becomes one that has run. -/
lemma Scheduled.advance (hscheduled : Scheduled c w) {job : Job V} {rest : List (Job V)}
    (s : Settled V) (hqueue : w.queue = job :: rest) :
    ((w.ran ++ [(job, s)]).map Prod.fst ++ (rest ++ w.waiting.reverse)).Perm c.jobs := by
  have hperm := hscheduled.perm
  rwa [hqueue, List.cons_append, ← List.singleton_append, ← List.append_assoc,
    show w.ran.map Prod.fst ++ [job] = (w.ran ++ [(job, s)]).map Prod.fst by
      rw [List.map_append, List.map_singleton]] at hperm

/-- What a job reports: the block counts the jobs that are left. -/
lemma report_counted {job : Job V} {s : Settled V} {rest : List (Job V)}
    (hscheduled : Scheduled c w) (hcounted : Counted c w b) (hqueue : w.queue = job :: rest)
    (hsettled : settledOf w.cells job.elem = some s) :
    ∃ b' outcomes, report c b job.index s = some (b', outcomes) ∧ b'.jobs = b.jobs ∧
      Counted c { w with
        queue := rest
        settlements := outcomes ++ w.settlements
        ran := w.ran ++ [(job, s)] } b' := by
  have hmem : job ∈ c.jobs := by
    refine hscheduled.perm.mem_iff.mp (List.mem_append_right _ (List.mem_append_left _ ?_))
    rw [hqueue]
    exact List.mem_cons_self
  have howed : w.owed = rest.length + w.waiting.length + 1 := by
    rw [World.owed, hqueue, List.length_cons]
    omega
  have hfirst : firstShort c (w.ran ++ [(job, s)]) =
      (firstShort c w.ran).or (if shortCircuits c s then some (job, s) else none) := by
    rw [firstShort, List.find?_append, List.find?_singleton, firstShort]
  rw [report]
  by_cases hdone : b.done = true
  · rw [if_pos hdone]
    refine ⟨b, [], rfl, rfl, ?_⟩
    -- the result is settled, and there was a job that has settled it
    have hshort : firstShort c w.ran ≠ none := fun hnone => by
      have hfinished := hcounted.finished hdone hnone
      omega
    obtain ⟨r, hr⟩ := Option.ne_none_iff_exists'.mp hshort
    have hfirst' : firstShort c (w.ran ++ [(job, s)]) = some r := by rw [hfirst, hr, Option.some_or]
    refine ⟨fun hopen => absurd hdone (by rw [hopen]; exact Bool.false_ne_true), fun _ => ?_,
      fun _ hnone => ?_, fun _ => hcounted.short hshort⟩
    · rw [List.nil_append, hcounted.done hdone, outcome, outcome, hfirst', hr]
    · rw [hfirst'] at hnone
      cases hnone
  · have hopen : b.done = false := Bool.eq_false_iff.mpr hdone
    obtain ⟨hnone, hpending, hremaining, -, harr⟩ := hcounted.owing hopen
    rw [hnone, Option.none_or] at hfirst
    rw [if_neg hdone]
    by_cases hshort : shortCircuits c s = true
    · rw [if_pos hshort] at hfirst
      rw [if_pos hshort]
      refine ⟨_, _, rfl, rfl, nofun, fun _ => ?_, fun _ hno => ?_, fun _ => ?_⟩
      · rw [hpending, outcome, hfirst]
        rfl
      · rw [hfirst] at hno
        cases hno
      · change 0 < b.remaining
        omega
    · rw [if_neg hshort] at hfirst
      have hset : (slotsAt c w.cells w.ran).set job.index (slotOf c s) =
          slotsAt c w.cells (w.ran ++ [(job, s)]) :=
        slotsAt_set hmem hsettled (Bool.eq_false_iff.mpr hshort)
      have hstored : (storeSlot b job.index (slotOf c s)).bind countOut = some { b with
          resultArr := some (slotsAt c w.cells (w.ran ++ [(job, s)]))
          remaining := rest.length + w.waiting.length } := by
        rw [storeSlot, harr]
        change countOut { b with
          resultArr := some ((slotsAt c w.cells w.ran).set job.index (slotOf c s)) } = _
        rw [countOut, hremaining, howed, hset]
      rw [if_neg hshort, hstored, Option.bind_some]
      by_cases hlast : rest.length + w.waiting.length = 0
      · rw [if_pos hlast, finish]
        refine ⟨_, _, rfl, rfl, nofun, fun _ => ?_, fun _ _ => ⟨hlast, hlast⟩, fun hsome => ?_⟩
        · have hall : slotsAt c w.cells (w.ran ++ [(job, s)]) =
              c.input.elements.map (contribution c w.cells) := by
            obtain ⟨hrest, hwaiting⟩ := Nat.add_eq_zero_iff.mp hlast
            have hperm := hscheduled.advance s hqueue
            rw [List.length_eq_zero_iff.mp hrest, List.length_eq_zero_iff.mp hwaiting,
              List.reverse_nil, List.append_nil, List.append_nil] at hperm
            exact slotsAt_of_perm hperm
          rw [hpending, outcome, hfirst, List.append_nil]
          exact congrArg (fun slots => [collected c slots]) hall
        · exact absurd hfirst hsome
      · rw [if_neg hlast]
        exact ⟨_, _, rfl, rfl,
          fun _ => ⟨hfirst, hpending, rfl, Nat.pos_of_ne_zero hlast, rfl⟩,
          fun hno => absurd hno hdone, fun hno => absurd hno hdone,
          fun hsome => absurd hfirst hsome⟩

/-- **The next job runs.** -/
lemma tick_holds (h : Holds c w) :
    ∃ w', tick c w = some w' ∧ Holds c w' ∧
      w'.ran.map Prod.fst ++ w'.queue = w.ran.map Prod.fst ++ w.queue ∧ w'.cells = w.cells ∧
      w'.queue = w.queue.tail := by
  cases hqueue : w.queue with
  | nil =>
    refine ⟨w, ?_, h, by rw [hqueue], rfl, by rw [hqueue]; rfl⟩
    rw [tick, hqueue]
  | cons job rest =>
    obtain ⟨hscheduled, b, hheld, hcounted⟩ := h
    have howed : w.owed = rest.length + w.waiting.length + 1 := by
      rw [World.owed, hqueue, List.length_cons]
      omega
    obtain ⟨hblock, hfreed, hjobs⟩ := (if_neg (by omega : ¬ w.owed = 0)).mp hheld
    obtain ⟨s, hsettled⟩ :=
      Option.isSome_iff_exists.mp (hscheduled.queued job (hqueue ▸ List.mem_cons_self))
    obtain ⟨b', outcomes, hreport, hsame, hcounted'⟩ :=
      report_counted hscheduled hcounted hqueue hsettled
    have hscheduled' : Scheduled c { w with
        queue := rest
        settlements := outcomes ++ w.settlements
        ran := w.ran ++ [(job, s)] } := by
      refine ⟨hscheduled.advance s hqueue, hscheduled.waiting, fun r hr => ?_, fun job' hjob' =>
        hscheduled.queued job' (hqueue ▸ List.mem_cons_of_mem _ hjob')⟩
      rcases List.mem_append.mp hr with hr | hr
      · exact hscheduled.found r hr
      · obtain rfl := List.mem_singleton.mp hr
        exact hsettled
    obtain ⟨block, freed, hrelease, hholds⟩ := releaseBlock_holds hscheduled' hcounted' hfreed
      (show b'.jobs = rest.length + w.waiting.length + 1 by omega)
    refine ⟨_, ?_, hholds, ?_, rfl, rfl⟩
    · rw [tick, hqueue, hblock]
      simp only [hsettled, hreport, Option.bind_some]
      exact hblock ▸ hrelease
    · change (w.ran ++ [(job, s)]).map Prod.fst ++ rest = _
      rw [List.map_append, List.append_assoc]
      rfl

/-- The jobs that have run are jobs of the call. -/
lemma Scheduled.mem_of_ran (hscheduled : Scheduled c w) {r : Job V × Settled V} (hr : r ∈ w.ran) :
    r.1 ∈ c.jobs :=
  hscheduled.perm.mem_iff.mp (List.mem_append_left _ (List.mem_map_of_mem hr))

/-- When nothing is owed, all jobs have run. -/
lemma Scheduled.all_ran (hscheduled : Scheduled c w) (howed : w.owed = 0) :
    (w.ran.map Prod.fst).Perm c.jobs := by
  obtain ⟨hqueue, hwaiting⟩ := Nat.add_eq_zero_iff.mp howed
  have hperm := hscheduled.perm
  rwa [List.length_eq_zero_iff.mp hqueue, List.length_eq_zero_iff.mp hwaiting, List.reverse_nil,
    List.append_nil, List.append_nil] at hperm

section Settle

variable {p : ℕ} {s : Settled V}

/-- A promise that settles is not one of those that have settled. -/
lemma settledOf_update_of_isSome (hpending : w.cells p = none) {source : Source V}
    (h : (settledOf w.cells source).isSome) :
    settledOf (Function.update w.cells p (some s)) source = settledOf w.cells source := by
  refine settledOf_update_of_ne s fun hsource => ?_
  rw [hsource, settledOf, hpending] at h
  cases h

/-- The jobs of the promise that settles are those that wait on it. -/
lemma Scheduled.waiting_on (hscheduled : Scheduled c w) (hpending : w.cells p = none) :
    (w.waiting.filter fun job => job.isOn p).reverse = c.jobs.filter fun job => job.isOn p := by
  rw [← List.filter_reverse, hscheduled.waiting, List.filter_filter]
  refine List.filter_congr fun job _ => ?_
  cases hon : job.isOn p with
  | false => rfl
  | true => rw [isOn_iff.mp hon, settledOf, hpending]; rfl

lemma settle_eq (hscheduled : Scheduled c w) (hpending : w.cells p = none) :
    settle w p s = { w with
      cells := Function.update w.cells p (some s)
      waiting := w.waiting.filter fun job => !job.isOn p
      queue := w.queue ++ c.jobs.filter fun job => job.isOn p } := by
  rw [settle, hpending, ← hscheduled.waiting_on hpending]

lemma settle_scheduled (hscheduled : Scheduled c w) (hpending : w.cells p = none) :
    Scheduled c (settle w p s) ∧ (settle w p s).owed = w.owed := by
  have hsplit : (c.jobs.filter (fun job => job.isOn p) ++
      (w.waiting.filter fun job => !job.isOn p).reverse).Perm w.waiting.reverse := by
    rw [← hscheduled.waiting_on hpending]
    exact ((List.reverse_perm _).append (List.reverse_perm _)).trans
      ((List.filter_append_perm _ _).trans (List.reverse_perm _).symm)
  rw [settle_eq hscheduled hpending]
  refine ⟨⟨?_, ?_, fun r hr => ?_, fun job hjob => ?_⟩, ?_⟩
  · rw [List.append_assoc]
    exact ((hsplit.append_left _).append_left _).trans hscheduled.perm
  · rw [← List.filter_reverse, hscheduled.waiting, List.filter_filter]
    refine List.filter_congr fun job _ => ?_
    cases hon : job.isOn p with
    | true => rw [isOn_iff.mp hon, settledOf_update_self]; rfl
    | false =>
      have hne : job.elem ≠ .cell p := fun h => by
        rw [isOn_iff.mpr h] at hon
        cases hon
      rw [settledOf_update_of_ne s hne]
      rfl
  · have hfound := hscheduled.found r hr
    rw [← hfound]
    exact settledOf_update_of_isSome hpending (by rw [hfound]; rfl)
  · rcases List.mem_append.mp hjob with hjob | hjob
    · have hqueued := hscheduled.queued job hjob
      rw [settledOf_update_of_isSome hpending hqueued]
      exact hqueued
    · rw [isOn_iff.mp (List.mem_filter.mp hjob).2, settledOf_update_self]
      rfl
  · have hlength := hsplit.length_eq
    simp only [List.length_append, List.length_reverse] at hlength
    simp only [World.owed, List.length_append]
    omega

/-- **A promise settles.** -/
lemma settle_holds (h : Holds c w) (hpending : w.cells p = none) : Holds c (settle w p s) := by
  obtain ⟨hscheduled, b, hheld, hcounted⟩ := h
  obtain ⟨hscheduled', howed⟩ := settle_scheduled (s := s) hscheduled hpending
  have hslots : slotsAt c (settle w p s).cells (settle w p s).ran = slotsAt c w.cells w.ran := by
    rw [settle_eq hscheduled hpending]
    refine slotsAt_congr (fun r hr => hscheduled.mem_of_ran hr) fun r hr => ?_
    refine settledOf_update_of_isSome hpending ?_
    rw [hscheduled.found r hr]
    rfl
  have hran : (settle w p s).ran = w.ran := by rw [settle_eq hscheduled hpending]
  have hsettlements : (settle w p s).settlements = w.settlements := by
    rw [settle_eq hscheduled hpending]
  refine ⟨hscheduled', b, ?_, ⟨?_, ?_, ?_, ?_⟩⟩
  · rw [Held, howed, settle_eq hscheduled hpending]
    exact hheld
  · rw [hran, hsettlements, howed, ← hran, hslots, hran]
    exact hcounted.owing
  · intro hdone
    rw [hsettlements, hcounted.done hdone, outcome, outcome, hran]
    cases hfirst : firstShort c w.ran with
    | some r => rfl
    | none =>
      -- all jobs have run, and what their elements contribute stays
      have hperm := hscheduled.all_ran (hcounted.finished hdone hfirst).2
      have hperm' := hscheduled'.all_ran (howed.trans (hcounted.finished hdone hfirst).2)
      rw [← slotsAt_of_perm hperm, ← slotsAt_of_perm hperm', hslots]
  · rw [hran, howed]
    exact hcounted.finished
  · rw [hran]
    exact hcounted.short

end Settle

end Invariant

/-! ### The setup -/

/-- The array when the first elements have been walked. -/
def setupSlots (c : Call V) (cells : ℕ → Option (Settled V)) (k : ℕ) : List (Slot V) :=
  c.input.elements.mapIdx fun i e =>
    if i < k ∧ (jobOf c (e, i)).isNone then contribution c cells e else .unset

/-- What holds in the loop of `fan_in` when some elements have been walked. -/
structure Attaching (c : Call V) (cells : ℕ → Option (Settled V)) (walked : List (Element V))
    (w : World V) : Prop where
  same : w.cells = cells
  quiet : w.ran = [] ∧ w.settlements = [] ∧ w.freed = []
  waiting : w.waiting.reverse =
    (jobsOf c walked).filter fun job => (settledOf cells job.elem).isNone
  queue : w.queue = (jobsOf c walked).filter fun job => (settledOf cells job.elem).isSome
  block : ∃ b, w.block = some b ∧ b.done = false ∧ b.jobs = (jobsOf c walked).length + 1 ∧
    b.remaining + walked.length = c.input.elements.length + (jobsOf c walked).length ∧
    b.resultArr = some (setupSlots c cells walked.length)

section Setup

variable {c : Call V} {cells : ℕ → Option (Settled V)} {w : World V} {b : Block V}
  {walked rest : List (Element V)} {e : Element V} {k : ℕ}

lemma setupSlots_getElem? (i : ℕ) :
    (setupSlots c cells k)[i]? = c.input.elements[i]?.map fun e =>
      if i < k ∧ (jobOf c (e, i)).isNone then contribution c cells e else .unset := by
  rw [setupSlots, List.getElem?_mapIdx]

/-- The slot of an element is set in the walk, unless it gets a job. -/
lemma setupSlots_succ (helem : c.input.elements[k]? = some e) :
    setupSlots c cells (k + 1) = (setupSlots c cells k).set k
      (if (jobOf c (e, k)).isNone then contribution c cells e else .unset) := by
  refine List.ext_getElem? fun i => ?_
  rw [List.getElem?_set]
  by_cases hi : k = i
  · subst hi
    have hlt : k < (setupSlots c cells k).length := by
      rw [setupSlots, List.length_mapIdx]
      exact (List.getElem?_eq_some_iff.mp helem).1
    rw [if_pos rfl, if_pos hlt, setupSlots_getElem?, helem, Option.map_some]
    simp only [Nat.lt_succ_self, true_and]
  · have hiff : i < k + 1 ↔ i < k := by omega
    simp only [if_neg hi, setupSlots_getElem?, hiff]

/-- A slot is not set before its element is walked. -/
lemma setupSlots_set_unset : (setupSlots c cells k).set k .unset = setupSlots c cells k := by
  refine List.ext_getElem? fun i => ?_
  rw [List.getElem?_set]
  by_cases hi : k = i
  · subst hi
    rw [if_pos rfl, setupSlots_getElem?]
    simp only [Nat.lt_irrefl, false_and, if_false]
    by_cases hlt : k < (setupSlots c cells k).length
    · have hlt' : k < c.input.elements.length := by rwa [setupSlots, List.length_mapIdx] at hlt
      rw [if_pos hlt, List.getElem?_eq_getElem hlt', Option.map_some]
    · have hle : c.input.elements.length ≤ k := by
        rwa [setupSlots, List.length_mapIdx, Nat.not_lt] at hlt
      rw [if_neg hlt, List.getElem?_eq_none hle, Option.map_none]
  · rw [if_neg hi]

lemma setupSlots_zero :
    setupSlots c cells 0 = List.replicate c.input.elements.length .unset := by
  refine List.ext_getElem? fun i => ?_
  rw [setupSlots_getElem?, List.getElem?_replicate]
  simp only [Nat.not_lt_zero, false_and, if_false]
  by_cases hlt : i < c.input.elements.length
  · rw [if_pos hlt, List.getElem?_eq_getElem hlt, Option.map_some]
  · rw [if_neg hlt, List.getElem?_eq_none (Nat.not_lt.mp hlt), Option.map_none]

/-- When all elements have been walked, only the slots of the jobs are not set. -/
lemma setupSlots_length :
    setupSlots c cells c.input.elements.length = slotsAt c cells [] := by
  refine List.ext_getElem? fun i => ?_
  rw [setupSlots_getElem?, slotsAt_getElem?]
  refine Option.map_congr fun e helem => ?_
  have hlt := (List.getElem?_eq_some_iff.mp helem).1
  cases hjob : jobOf c (e, i) with
  | none => rw [if_pos ⟨hlt, rfl⟩, if_neg fun h => Bool.false_ne_true h.1]
  | some job => rw [if_neg fun h => Bool.false_ne_true h.2, if_pos ⟨rfl, List.not_mem_nil⟩]

/-- An element gets a job. -/
lemma attachElemJob_attaching {job : Job V} (h : Attaching c cells walked w)
    (hwalk : c.input.elements = walked ++ e :: rest) (hblock : w.block = some b)
    (hjob : jobOf c (e, walked.length) = some job) :
    Attaching c cells (walked ++ [e]) (attachElemJob w b job) := by
  have hjobs : jobsOf c (walked ++ [e]) = jobsOf c walked ++ [job] := by
    rw [jobsOf_append, hjob]
    rfl
  have helem : c.input.elements[walked.length]? = some e := by
    rw [hwalk, List.getElem?_append_right (Nat.le_refl _), Nat.sub_self, List.getElem?_cons_zero]
  have hslots : setupSlots c cells (walked.length + 1) = setupSlots c cells walked.length := by
    rw [setupSlots_succ helem, hjob, if_neg (by exact Bool.false_ne_true), setupSlots_set_unset]
  obtain ⟨b₀, hblock₀, hdone, hholds, hremaining, harr⟩ := h.block
  obtain rfl : b = b₀ := Option.some.inj (hblock.symm.trans hblock₀)
  have hlength : (walked ++ [e]).length = walked.length + 1 := List.length_append
  have hlengthJobs : (jobsOf c (walked ++ [e])).length = (jobsOf c walked).length + 1 := by
    rw [hjobs, List.length_append, List.length_singleton]
  have hblock' : ∃ b', some { b with jobs := b.jobs + 1 } = some b' ∧ b'.done = false ∧
      b'.jobs = (jobsOf c (walked ++ [e])).length + 1 ∧
      b'.remaining + (walked ++ [e]).length =
        c.input.elements.length + (jobsOf c (walked ++ [e])).length ∧
      b'.resultArr = some (setupSlots c cells (walked ++ [e]).length) := by
    refine ⟨_, rfl, hdone, ?_, ?_, ?_⟩
    · rw [hlengthJobs, hholds]
    · rw [hlength, hlengthJobs]
      exact congrArg Nat.succ hremaining
    · rw [hlength, hslots, harr]
  have hcells := h.same
  rw [attachElemJob]
  cases hsettled : settledOf w.cells job.elem with
  | none =>
    refine ⟨hcells, h.quiet, ?_, ?_, hblock'⟩
    · rw [hjobs, List.filter_append, List.reverse_cons, h.waiting, ← hcells]
      simp [hsettled]
    · rw [hjobs, List.filter_append, h.queue, ← hcells]
      simp [hsettled]
  | some s =>
    refine ⟨hcells, h.quiet, ?_, ?_, hblock'⟩
    · rw [hjobs, List.filter_append, h.waiting, ← hcells]
      simp [hsettled]
    · rw [hjobs, List.filter_append, h.queue, ← hcells]
      simp [hsettled]

/-- An element that contributes at once is counted out. -/
lemma countOut_attaching (h : Attaching c cells walked w)
    (hwalk : c.input.elements = walked ++ e :: rest) (hblock : w.block = some b)
    (hjob : jobOf c (e, walked.length) = none) :
    ∃ b', countOut { b with resultArr := some ((setupSlots c cells walked.length).set
        walked.length (contribution c cells e)) } = some b' ∧
      Attaching c cells (walked ++ [e]) { w with block := some b' } := by
  have hjobs : jobsOf c (walked ++ [e]) = jobsOf c walked := by
    rw [jobsOf_append, hjob]
    exact List.append_nil _
  have helem : c.input.elements[walked.length]? = some e := by
    rw [hwalk, List.getElem?_append_right (Nat.le_refl _), Nat.sub_self, List.getElem?_cons_zero]
  have hslots : setupSlots c cells (walked.length + 1) =
      (setupSlots c cells walked.length).set walked.length (contribution c cells e) := by
    rw [setupSlots_succ helem, hjob, if_pos (by exact rfl)]
  obtain ⟨b₀, hblock₀, hdone, hholds, hremaining, harr⟩ := h.block
  obtain rfl : b = b₀ := Option.some.inj (hblock.symm.trans hblock₀)
  have hlength : (walked ++ [e]).length = walked.length + 1 := List.length_append
  have htotal : c.input.elements.length = walked.length + (rest.length + 1) := by
    rw [hwalk, List.length_append, List.length_cons]
  obtain ⟨n, hn⟩ : ∃ n, b.remaining = n + 1 := ⟨b.remaining - 1, by omega⟩
  refine ⟨_, by rw [countOut, hn], h.same, h.quiet, ?_, ?_, ?_⟩
  · rw [hjobs]
    exact h.waiting
  · rw [hjobs]
    exact h.queue
  · refine ⟨_, rfl, hdone, ?_, ?_, ?_⟩
    · rw [hjobs]
      exact hholds
    · rw [hjobs, hlength]
      change n + (walked.length + 1) = _
      omega
    · rw [hlength, hslots]

/-- One element is walked. -/
lemma attach_attaching (h : Attaching c cells walked w)
    (hwalk : c.input.elements = walked ++ e :: rest) :
    ∃ w', attach c w (e, walked.length) = some w' ∧ Attaching c cells (walked ++ [e]) w' := by
  obtain ⟨b, hblock, -, -, -, harr⟩ := h.block
  cases e with
  | promise p =>
    refine ⟨_, ?_, attachElemJob_attaching h hwalk hblock rfl⟩
    rw [attach, hblock]
  | plain v =>
    by_cases hany : c.mode = .any
    · refine ⟨_, ?_, attachElemJob_attaching h hwalk hblock (if_pos hany)⟩
      rw [attach, hblock]
      exact if_pos hany
    · obtain ⟨b', hcount, hattaching⟩ := countOut_attaching h hwalk hblock (if_neg hany)
      refine ⟨_, ?_, hattaching⟩
      rw [attach, hblock]
      change (if c.mode = .any then _ else
        ((storeSlot b walked.length (plainSlot c v)).bind countOut).map fun b =>
          { w with block := some b }) = _
      rw [if_neg hany, storeSlot, harr, Option.bind_some]
      exact congrArg (Option.map fun b => { w with block := some b }) hcount
  | null =>
    obtain ⟨b', hcount, hattaching⟩ := countOut_attaching h hwalk hblock rfl
    refine ⟨_, ?_, hattaching⟩
    rw [contribution, setupSlots_set_unset, ← harr] at hcount
    rw [attach, hblock]
    exact congrArg (Option.map fun b => { w with block := some b }) hcount

/-- The loop of `fan_in`. -/
lemma foldlM_attach (h : Attaching c cells walked w) (hwalk : c.input.elements = walked ++ rest) :
    ∃ w', (rest.zipIdx walked.length).foldlM (attach c) w = some w' ∧
      Attaching c cells c.input.elements w' := by
  induction rest generalizing walked w with
  | nil =>
    rw [List.append_nil] at hwalk
    exact ⟨w, rfl, hwalk ▸ h⟩
  | cons e rest ih =>
    obtain ⟨w₁, hattach, h₁⟩ := attach_attaching h hwalk
    have hwalk₁ : c.input.elements = (walked ++ [e]) ++ rest := by
      rw [hwalk, List.append_assoc, List.singleton_append]
    obtain ⟨w', hloop, h'⟩ := ih h₁ hwalk₁
    refine ⟨w', ?_, h'⟩
    rw [List.length_append, List.length_singleton] at hloop
    rw [List.zipIdx_cons, List.foldlM_cons, hattach]
    exact hloop

/-- The jobs of the walk are scheduled. -/
lemma Attaching.scheduled (h : Attaching c cells c.input.elements w) : Scheduled c w := by
  obtain ⟨hran, -, -⟩ := h.quiet
  refine ⟨?_, ?_, fun r hr => ?_, fun job hjob => ?_⟩
  · have hnone : (fun job : Job V => (settledOf cells job.elem).isNone) =
        fun job => !(settledOf cells job.elem).isSome := by
      funext job
      cases settledOf cells job.elem <;> rfl
    rw [hran, h.queue, h.waiting, hnone]
    exact List.filter_append_perm _ _
  · rw [h.waiting, h.same]
    rfl
  · rw [hran] at hr
    cases hr
  · rw [h.queue, ← h.same] at hjob
    exact (List.mem_filter.mp hjob).2

/-- **The setup.** -/
lemma fanIn_holds (c : Call V) (cells : ℕ → Option (Settled V)) :
    ∃ w, fanIn c cells = some w ∧ Holds c w ∧ w.cells = cells ∧ w.ran = [] ∧
      w.queue = c.jobs.filter fun job => (settledOf cells job.elem).isSome := by
  have hinit : Attaching c cells [] (World.init cells c.input.elements.length) := by
    refine ⟨rfl, ⟨rfl, rfl, rfl⟩, rfl, rfl, Block.init _, rfl, rfl, rfl, rfl, ?_⟩
    exact congrArg some setupSlots_zero.symm
  obtain ⟨w, hloop, h⟩ := foldlM_attach hinit (List.nil_append _).symm
  have hscheduled := h.scheduled
  obtain ⟨hran, hsettlements, hfreed⟩ := h.quiet
  obtain ⟨b, hblock, hdone, hjobs, hremaining, harr⟩ := h.block
  have howed : w.owed = c.jobs.length := by
    have hlength := hscheduled.perm.length_eq
    rw [hran, List.length_append, List.length_append, List.length_reverse] at hlength
    simpa [World.owed] using hlength
  have hfirst : firstShort c w.ran = none := by rw [hran]; rfl
  have hremaining' : b.remaining = w.owed := by
    rw [howed, Call.jobs]
    omega
  rw [setupSlots_length] at harr
  rw [fanIn]
  simp only [show (c.input.elements.zipIdx.foldlM (attach c)
    (World.init cells c.input.elements.length)) = some w from hloop, Option.bind_some]
  rw [endSetup, hblock]
  by_cases hnothing : b.remaining = 0
  · have howed₀ : w.owed = 0 := hremaining' ▸ hnothing
    have hfinish : finish c b =
        some ({ b with resultArr := none, done := true }, [outcome c w]) := by
      rw [finish, harr, outcome, hfirst, ← slotsAt_of_perm (hscheduled.all_ran howed₀), hran,
        h.same]
    have hcounted : Counted c { w with settlements := [outcome c w] }
        { b with resultArr := none, done := true } :=
      ⟨nofun, fun _ => rfl, fun _ _ => ⟨hnothing, howed₀⟩, fun hshort => absurd hfirst hshort⟩
    have hscheduled' : Scheduled c { w with settlements := [outcome c w] } :=
      ⟨hscheduled.perm, hscheduled.waiting, hscheduled.found, hscheduled.queued⟩
    obtain ⟨block, freed, hrelease, hholds⟩ := releaseBlock_holds hscheduled' hcounted hfreed
      (show b.jobs = w.owed + 1 by rw [howed]; exact hjobs)
    refine ⟨_, ?_, hholds, h.same, hran, h.queue⟩
    simp only [if_pos (And.intro hnothing hdone), hfinish, Option.bind_some, hsettlements,
      List.append_nil]
    exact hrelease
  · have hcounted : Counted c w b := by
      refine ⟨fun _ => ⟨hfirst, hsettlements, hremaining', by omega, ?_⟩, fun hno => ?_,
        fun hno => ?_, fun hshort => absurd hfirst hshort⟩
      · rw [harr, hran, h.same]
      · rw [hdone] at hno
        cases hno
      · rw [hdone] at hno
        cases hno
    obtain ⟨block, freed, hrelease, hholds⟩ := releaseBlock_holds hscheduled hcounted hfreed
      (show b.jobs = w.owed + 1 by rw [howed]; exact hjobs)
    refine ⟨_, ?_, hholds, h.same, hran, h.queue⟩
    simp only [if_neg fun hzero : b.remaining = 0 ∧ b.done = false => hnothing hzero.1]
    exact hrelease

end Setup

/-! ### The runs -/

section Runs

variable {c : Call V} {w : World V}

/-- **One step.** -/
lemma step_holds (h : Holds c w) (event : Event V) (events : List (Event V)) :
    ∃ w', step c w event = some w' ∧ Holds c w' ∧
      w'.ran.map Prod.fst ++ w'.queue ++ arrivals c w'.cells events =
        w.ran.map Prod.fst ++ w.queue ++ arrivals c w.cells (event :: events) := by
  cases event with
  | tick =>
    obtain ⟨w', htick, hholds, horder, hcells, -⟩ := tick_holds h
    exact ⟨w', htick, hholds, by rw [horder, hcells, arrivals]⟩
  | settle p s =>
    refine ⟨settle w p s, rfl, ?_⟩
    cases hcell : w.cells p with
    | some _ =>
      have hsame : settle w p s = w := by rw [settle, hcell]
      rw [hsame, arrivals, hcell]
      exact ⟨h, rfl⟩
    | none =>
      refine ⟨settle_holds h hcell, ?_⟩
      rw [settle_eq h.scheduled hcell, arrivals, hcell]
      simp only [List.append_assoc]

/-- **A run.** -/
lemma run_holds (h : Holds c w) (events : List (Event V)) :
    ∃ w', run c w events = some w' ∧ Holds c w' ∧
      w'.ran.map Prod.fst ++ w'.queue =
        w.ran.map Prod.fst ++ w.queue ++ arrivals c w.cells events := by
  induction events generalizing w with
  | nil => exact ⟨w, rfl, h, (List.append_nil _).symm⟩
  | cons event events ih =>
    obtain ⟨w₁, hstep, h₁, harrive⟩ := step_holds h event events
    obtain ⟨w', hrun, h', horder⟩ := ih h₁
    refine ⟨w', ?_, h', by rw [horder, harrive]⟩
    rw [run, List.foldlM_cons, hstep]
    exact hrun

/-- The queue is empty when as many jobs have run as it held. -/
lemma drain_holds (h : Holds c w) :
    ∃ w', run c w (List.replicate w.queue.length .tick) = some w' ∧ Holds c w' ∧ w'.queue = [] ∧
      w'.cells = w.cells := by
  induction hn : w.queue.length generalizing w with
  | zero => exact ⟨w, rfl, h, List.length_eq_zero_iff.mp hn, rfl⟩
  | succ n ih =>
    obtain ⟨w₁, htick, h₁, -, hcells, hqueue⟩ := tick_holds h
    have hlength : w₁.queue.length = n := by
      rw [hqueue, List.length_tail, hn, Nat.add_sub_cancel]
    obtain ⟨w', hrun, h', hempty, hcells'⟩ := ih h₁ hlength
    refine ⟨w', ?_, h', hempty, hcells'.trans hcells⟩
    rw [run, List.replicate_succ, List.foldlM_cons,
      show step c w .tick = some w₁ from htick]
    exact hrun

/-- What the invariant says of the counts and of the result. -/
lemma Holds.right {cells : ℕ → Option (Settled V)} {events : List (Event V)} (h : Holds c w)
    (horder : w.ran.map Prod.fst ++ w.queue =
      c.jobs.filter (fun job => (settledOf cells job.elem).isSome) ++ arrivals c cells events) :
    Right c cells events w := by
  obtain ⟨hscheduled, b, hheld, hcounted⟩ := h
  have hlength : w.ran.length + w.owed = c.jobs.length := by
    have hperm := hscheduled.perm.length_eq
    rw [List.length_append, List.length_append, List.length_map, List.length_reverse] at hperm
    exact hperm
  have hall : (w.ran.map Prod.fst).Perm c.jobs ↔ w.owed = 0 := by
    refine ⟨fun hperm => ?_, hscheduled.all_ran⟩
    have hran := hperm.length_eq
    rw [List.length_map] at hran
    omega
  have honly : ∀ b', w.block = some b' ∨ b' ∈ w.freed → b' = b := by
    intro b' hb'
    by_cases howed : w.owed = 0
    · obtain ⟨hblock, hfreed⟩ := (if_pos howed).mp hheld
      rw [hblock, hfreed] at hb'
      exact List.mem_singleton.mp (hb'.resolve_left nofun)
    · obtain ⟨hblock, hfreed, -⟩ := (if_neg howed).mp hheld
      rw [hblock, hfreed] at hb'
      exact (Option.some.inj (hb'.resolve_right List.not_mem_nil)).symm
  have hdistinct : (w.ran.map fun r => r.1.index).Nodup := by
    have hnodup := (hscheduled.perm.map Job.index).nodup_iff.mpr nodup_index_jobs
    rw [List.map_append, List.map_map] at hnodup
    exact (List.nodup_append.mp hnodup).1
  refine ⟨horder, hscheduled.found, hdistinct, ?_, ?_, fun b' hb' hnone => ?_,
    fun b' hb' hzero => ?_, ?_⟩
  · cases hdone : b.done with
    | false => exact Or.inl (hcounted.owing hdone).2.1
    | true => exact Or.inr (hcounted.done hdone)
  · rw [hall]
    cases hdone : b.done with
    | false =>
      obtain ⟨hnone, hpending, -, howed, -⟩ := hcounted.owing hdone
      rw [hnone, hpending]
      exact ⟨fun hne => absurd rfl hne, fun hor => by
        rcases hor with hsome | hzero
        · cases hsome
        · omega⟩
    | true =>
      rw [hcounted.done hdone]
      refine ⟨fun _ => ?_, fun _ => List.cons_ne_nil _ _⟩
      cases hfirst : firstShort c w.ran with
      | some r => exact Or.inl rfl
      | none => exact Or.inr (hcounted.finished hdone hfirst).2
  · obtain rfl := honly b' hb'
    cases hdone : b'.done with
    | false =>
      have hremaining := (hcounted.owing hdone).2.2.1
      omega
    | true =>
      obtain ⟨hremaining, howed⟩ := hcounted.finished hdone hnone
      omega
  · obtain rfl := honly b' hb'
    have hnone : firstShort c w.ran = none := by
      by_contra hshort
      have hpos := hcounted.short hshort
      omega
    rw [hall]
    cases hdone : b'.done with
    | false =>
      obtain ⟨-, -, hremaining, hpos, -⟩ := hcounted.owing hdone
      omega
    | true => exact (hcounted.finished hdone hnone).2
  · by_cases howed : w.owed = 0
    · obtain ⟨hblock, hfreed⟩ := (if_pos howed).mp hheld
      exact Or.inl ⟨by rw [hfreed]; rfl, hblock, hall.mpr howed⟩
    · obtain ⟨hblock, hfreed, -⟩ := (if_neg howed).mp hheld
      exact Or.inr ⟨hfreed, by rw [hblock]; rfl, by omega⟩

/-- When all elements have settled, no job waits. -/
lemma Holds.waiting_eq_nil (h : Holds c w)
    (hall : ∀ p, .promise p ∈ c.input.elements → (w.cells p).isSome) : w.waiting = [] := by
  have hnone : c.jobs.filter (fun job => (settledOf w.cells job.elem).isNone) = [] := by
    refine List.filter_eq_nil_iff.mpr fun job hjob => ?_
    obtain ⟨e, helem, hof⟩ := mem_jobs.mp hjob
    cases e with
    | promise p =>
      obtain ⟨s, hs⟩ := Option.isSome_iff_exists.mp (hall p (List.mem_of_getElem? helem))
      rw [← Option.some.inj hof, settledOf, hs]
      exact Bool.false_ne_true
    | plain v =>
      rw [← Option.some.inj (Option.ite_none_right_eq_some.mp hof).2]
      exact Bool.false_ne_true
    | null => cases hof
  exact List.reverse_eq_nil_iff.mp (h.scheduled.waiting.trans hnone)

end Runs

/-- **The combinators settle correctly under every order.**  Whatever has happened, the fan-in is
right; and when all elements have settled, the jobs that are queued settle the result with its
outcome and free the block. -/
theorem fanIn_right (c : Call V) (cells : ℕ → Option (Settled V)) (events : List (Event V)) :
    ∃ w, ((fanIn c cells).bind fun w => run c w events) = some w ∧ Right c cells events w ∧
      ((∀ p, .promise p ∈ c.input.elements → (w.cells p).isSome) →
        ∃ w', run c w (List.replicate w.queue.length .tick) = some w' ∧
          w'.settlements = [outcome c w'] ∧ w'.freed.length = 1 ∧ w'.block = none) := by
  obtain ⟨w₀, hsetup, h₀, hcells, hran, hqueue⟩ := fanIn_holds c cells
  obtain ⟨w, hrun, h, horder⟩ := run_holds h₀ events
  refine ⟨w, by rw [hsetup, Option.bind_some, hrun], h.right ?_, fun hall => ?_⟩
  · rw [horder, hran, hqueue, hcells]
    rfl
  · obtain ⟨w', hdrain, h', hempty, hcells'⟩ := drain_holds h
    have howed : w'.owed = 0 := by
      rw [World.owed, hempty, h'.waiting_eq_nil fun p hp => hcells' ▸ hall p hp]
      rfl
    obtain ⟨b, hheld, hcounted⟩ := h'.block
    obtain ⟨hblock, hfreed⟩ := (if_pos howed).mp hheld
    have hdone : b.done = true := by
      by_contra hopen
      have hpos := (hcounted.owing (Bool.eq_false_iff.mpr hopen)).2.2.2.1
      omega
    exact ⟨w', hdrain, hcounted.done hdone, by rw [hfreed]; rfl, hblock⟩

/-- In a program without an `AggregateError`, `Promise.any` of one promise that rejects does not
reject with the errors. -/
theorem fanIn_without_aggregate :
    ¬ ∀ (c : Call ℕ) (cells : ℕ → Option (Settled ℕ)) (events : List (Event ℕ)) (w : World ℕ),
      ((fanIn c cells).bind fun w => run c w events) = some w → c.mode = .any →
      ∀ o ∈ w.settlements,
        (∃ v, o = .fulfilledValue v) ∨ ∃ errors, o = .rejectedAggregate errors := by
  intro hclaim
  have hsettled := hclaim ⟨.any, .typed [some 0], false, false, 0⟩ (fun _ => none)
    [.settle 0 ⟨false, 7, true⟩, .tick] _ rfl rfl .rejectedUndefined (List.mem_singleton.mpr rfl)
  rcases hsettled with ⟨v, h⟩ | ⟨errors, h⟩
  · cases h
  · cases h

end Torajs.Promise.FanIn
