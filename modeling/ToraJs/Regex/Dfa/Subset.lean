import ToraJs.Regex.Dfa.Intern
import ToraJs.Regex.Dfa.Automaton

/-!
# The automaton of the subset construction

The states of the automaton are the keys of the pool.  Without word boundaries a key does
not tell which byte is before the cursor, and the closure asks for the text start only; the
keys that the entry state at the text start leads to are entered first, so membership there
answers it.
-/

namespace Torajs.Regex.Dfa

/-! ### Items that the construction cannot tell apart -/

/-- The program has no word boundary. -/
def NoWordBoundary (prog : Program) : Prop :=
  Inst.wBound ∉ prog.insts ∧ Inst.nwBound ∉ prog.insts

/-- What `prog_uses_word_boundary` denies. -/
lemma noWordBoundary_of (prog : SearchProgram) (h : progUsesWordBoundary prog = false) :
    NoWordBoundary prog.toProgram := by
  simp only [progUsesWordBoundary, Bool.or_eq_false_iff] at h
  have hscan := List.any_eq_false.mp h.1
  refine ⟨fun hmem => ?_, fun hmem => ?_⟩
  · exact hscan _ hmem (by decide)
  · exact hscan _ hmem (by decide)

/-- Two items of one state: where `split` is off, the class of the byte before the cursor is
known up to the text start. -/
structure Alike (split : Bool) (item item' : StateItem) : Prop where
  ready : item.ready = item'.ready
  deferred : item.deferred = item'.deferred
  attr : item.attr = item'.attr ∨
    split = false ∧ item.attr ≠ .textStart ∧ item'.attr ≠ .textStart

lemma Alike.refl (split : Bool) (item : StateItem) : Alike split item item :=
  ⟨rfl, rfl, .inl rfl⟩

section Context

variable {prog : Program}

/-- The closure reads a context through the targets it leads to. -/
lemma closureLoop_congr {ctx ctx' : PositionCtx} {wb wb' : Option Bool}
    (h : ∀ pc, epsTargets prog ctx wb pc = epsTargets prog ctx' wb' pc) (n : ℕ)
    (acc : List ℕ × List ℕ) : closureLoop prog ctx wb n acc = closureLoop prog ctx' wb' n acc := by
  induction n generalizing acc with
  | zero => rfl
  | succ n ih =>
    obtain ⟨closed, work⟩ := acc
    cases work with
    | nil => rfl
    | cons pc work =>
      rw [closureLoop, closureLoop, h pc, ih]

lemma closureInto_congr {ctx ctx' : PositionCtx} {wb wb' : Option Bool}
    (h : ∀ pc, epsTargets prog ctx wb pc = epsTargets prog ctx' wb' pc) (seeds : List ℕ) :
    closureInto prog seeds ctx wb = closureInto prog seeds ctx' wb' :=
  closureLoop_congr h _ _

/-- Without word boundaries a context matters through its anchors. -/
lemma epsTargets_congr (hno : NoWordBoundary prog) {ctx ctx' : PositionCtx} {wb wb' : Option Bool}
    (hB : ∀ pad, anchorBAdvances ctx pad = anchorBAdvances ctx' pad)
    (hE : ctx.isTextEnd = ctx'.isTextEnd) (pc : ℕ) :
    epsTargets prog ctx wb pc = epsTargets prog ctx' wb' pc := by
  unfold epsTargets
  cases hins : prog.insts[pc]? with
  | none => rfl
  | some ins =>
    have hmem := List.mem_of_getElem? hins
    cases ins with
    | wBound => exact absurd hmem hno.1
    | nwBound => exact absurd hmem hno.2
    | anchorB pad => simp only [hB]
    | anchorE pad => simp only [hE]
    | _ => rfl

/-- Past the text start the representatives of both classes advance the same anchors. -/
lemma anchorBAdvances_of_ne {attr attr' : LeftByteAttr} (h : attr ≠ .textStart)
    (h' : attr' ≠ .textStart) (pad : UInt8) :
    anchorBAdvances (ctxFor attr) pad = anchorBAdvances (ctxFor attr') pad := by
  cases attr <;> cases attr' <;> first | rfl | exact absurd rfl h | exact absurd rfl h'

end Context

/-! ### The automaton -/

section Subset

variable (prog : Program) (split : Bool) (flags : UInt8)

/-- The closure of an item before `byte`. -/
def closedBefore (item : StateItem) (byte : UInt8) : List ℕ :=
  let ctx := ctxFor item.attr
  closureInto prog item.ready ctx
    (some (ctx.atWordBoundary (if split then some byte else none)))

/-- The item after `byte`. -/
def itemAfter (item : StateItem) (byte : UInt8) : StateItem :=
  let (ready, deferred) := byteStepInto prog (closedBefore prog split item byte) byte
  let (ready, deferred) := advanceDeferred prog byte item.deferred ready deferred
  ⟨ready, deferred, attrOfByte byte⟩

/-- The state of an item. -/
def keyOf (item : StateItem) : Option StateItem :=
  if item.isEmpty then none else some (flattenKey split item)

/-- The keys that the entry state at the text start leads to. -/
def textStartKeys : List StateItem :=
  (seedStart prog split flags .textStart Pool.new.reset).2.keys.tail

/-- The item of a state. -/
def itemOf (key : StateItem) : StateItem :=
  if split then key
  else { key with attr := if key ∈ textStartKeys prog split flags then .textStart else .nonWord }

/-- The class of a state and its target. -/
def pendingOf (key : StateItem) : Option (ℕ × Option StateItem) :=
  match classifyKpropertyShape prog key.ready key.deferred flags with
  | .shape classIdx yesSeeds =>
    some (classIdx, keyOf split (yesItem prog yesSeeds (itemOf prog split flags key).attr))
  | .noKProperty | .unserveable => none

/-- The automaton of the subset construction. -/
def subsetAutomaton : Automaton StateItem where
  step key b := keyOf split (itemAfter prog split (itemOf prog split flags key) b)
  acceptBefore key b := !pcSetIsAccept prog key.ready &&
    pcSetIsAccept prog (closedBefore prog split (itemOf prog split flags key) b)
  accept key := pcSetIsAccept prog key.ready
  acceptAtEnd key := pcSetIsAcceptAtEnd prog key.ready (itemOf prog split flags key).attr
  pending := pendingOf prog split flags
  start := keyOf split (startItem prog .textStart)
  startMidWord := keyOf split (startItem prog .word)
  startMidNonword := keyOf split (startItem prog .nonWord)

end Subset

section Alike

variable {prog : Program} {split : Bool} {flags : UInt8}

@[simp] lemma itemOf_ready (key : StateItem) : (itemOf prog split flags key).ready = key.ready := by
  unfold itemOf
  split <;> rfl

@[simp] lemma itemOf_deferred (key : StateItem) :
    (itemOf prog split flags key).deferred = key.deferred := by
  unfold itemOf
  split <;> rfl

@[simp] lemma flattenKey_ready (item : StateItem) : (flattenKey split item).ready = item.ready := by
  unfold flattenKey
  split <;> rfl

@[simp] lemma flattenKey_deferred (item : StateItem) :
    (flattenKey split item).deferred = item.deferred := by
  unfold flattenKey
  split <;> rfl

/-- The item of the key of an item is like it, where the classes agree. -/
lemma alike_itemOf {item : StateItem} (h : split = false →
    (item.attr = .textStart ↔ flattenKey split item ∈ textStartKeys prog split flags)) :
    Alike split item (itemOf prog split flags (flattenKey split item)) := by
  refine ⟨by simp, by simp, ?_⟩
  cases split with
  | true => exact .inl rfl
  | false =>
    by_cases hts : item.attr = .textStart
    · left
      simp [itemOf, (h rfl).mp hts, hts]
    · right
      have hmem : flattenKey false item ∉ textStartKeys prog false flags :=
        fun hmem => hts ((h rfl).mpr hmem)
      exact ⟨rfl, hts, by simp [itemOf, hmem]⟩

variable (hno : split = false → NoWordBoundary prog) {item item' : StateItem}
include hno

/-- Like items have one closure before a byte. -/
lemma Alike.closedBefore (h : Alike split item item') (b : UInt8) :
    closedBefore prog split item b = closedBefore prog split item' b := by
  obtain ⟨hready, -, hattr⟩ := h
  unfold Dfa.closedBefore
  rcases hattr with hattr | ⟨rfl, hts, hts'⟩
  · rw [hready, hattr]
  · rw [hready]
    exact closureInto_congr (epsTargets_congr (hno rfl) (anchorBAdvances_of_ne hts hts') rfl) _

/-- Like items go to one item. -/
lemma Alike.itemAfter (h : Alike split item item') (b : UInt8) :
    itemAfter prog split item b = itemAfter prog split item' b := by
  unfold Dfa.itemAfter
  rw [h.closedBefore hno, h.deferred]

/-- Like items accept alike at the end. -/
lemma Alike.acceptAtEnd (h : Alike split item item') :
    pcSetIsAcceptAtEnd prog item.ready item.attr =
      pcSetIsAcceptAtEnd prog item'.ready item'.attr := by
  obtain ⟨hready, -, hattr⟩ := h
  rcases hattr with hattr | ⟨rfl, hts, hts'⟩
  · rw [hready, hattr]
  · unfold pcSetIsAcceptAtEnd
    rw [hready]
    have hB : ∀ pad, anchorBAdvances { ctxFor item.attr with isTextEnd := true } pad =
        anchorBAdvances { ctxFor item'.attr with isTextEnd := true } pad :=
      anchorBAdvances_of_ne hts hts'
    exact congrArg (pcSetIsAccept prog)
      (closureInto_congr (epsTargets_congr (hno rfl) hB rfl) _)

/-- Like items lead to one state behind a class. -/
lemma Alike.keyOf_yesItem (h : Alike split item item') (seeds : List ℕ) :
    keyOf split (yesItem prog seeds item.attr) = keyOf split (yesItem prog seeds item'.attr) := by
  rcases h.attr with hattr | ⟨rfl, hts, hts'⟩
  · rw [hattr]
  · have hclosure : closureSorted prog seeds (ctxFor item.attr) =
        closureSorted prog seeds (ctxFor item'.attr) := by
      unfold closureSorted
      rw [closureInto_congr (epsTargets_congr (hno rfl) (anchorBAdvances_of_ne hts hts') rfl)]
    simp [keyOf, yesItem, StateItem.isEmpty, flattenKey, hclosure]

end Alike

end Torajs.Regex.Dfa
