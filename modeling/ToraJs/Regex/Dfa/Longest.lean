import ToraJs.Regex.Dfa.Simulation
import ToraJs.Regex.Dfa.EagerSpec

/-!
# The table finds the longest prefix

The automaton of the subset construction walks along the set simulation, as long as every `^` is
judged in its state as it is by the byte in front of it.  The table that is built serves the
automaton, so its walk answers the longest prefix that the simulation accepts.
-/

namespace Torajs.Regex.Dfa

open Automaton

variable {prog : Program} {split : Bool} {flags : UInt8} {entry : Entry} {hay : List UInt8}

/-! ### Moving on -/

/-- Parked lists that are sorted and without repetition. -/
def Deferred.Tidy (d : Deferred) : Prop := Canonical d.one ∧ Canonical d.two ∧ Canonical d.three

/-- Lists without members are tidy. -/
lemma canonical_nil : Canonical [] := ⟨List.Pairwise.nil, List.nodup_nil⟩

/-- The members of a joined list. -/
lemma mem_joinDeferred {carried fresh : List ℕ} {pc : ℕ} :
    pc ∈ joinDeferred carried fresh ↔ pc ∈ carried ∨ pc ∈ fresh := by
  unfold joinDeferred
  split_ifs with hempty
  · rw [List.isEmpty_iff.mp hempty]
    simp
  · rw [mem_sortDedup, List.mem_append]

/-- The members of the second list behind its second byte. -/
lemma mem_secondOfE2 {parked : List ℕ} {byte : UInt8} {pc : ℕ} :
    pc ∈ secondOfE2 parked byte ↔
      pc ∈ if byte = 0x80 then parked else parked.map clearLtPending := by
  unfold secondOfE2
  by_cases hbyte : byte = 0x80
  · rw [if_pos (Or.inl hbyte), if_pos hbyte]
  · rw [if_neg hbyte]
    split_ifs with hall
    · have hclear : parked.map clearLtPending = parked := by
        have htags := List.all_eq_true.mp (hall.resolve_left hbyte)
        refine (List.map_congr_left fun x hx => ?_).trans (List.map_id parked)
        have hx' : ltPending x = false := by simpa using htags x hx
        rw [clearLtPending, hx', if_neg (by decide)]
        rfl
      rw [hclear]
    · rw [mem_sortDedup]

/-- The second list stays tidy. -/
lemma canonical_secondOfE2 {parked : List ℕ} (h : Canonical parked) (byte : UInt8) :
    Canonical (secondOfE2 parked byte) := by
  unfold secondOfE2
  split_ifs
  · exact h
  · exact canonical_sortDedup _

/-- Being a continuation byte, as a test and as a fact. -/
lemma isContinuation_iff (byte : UInt8) :
    (decide (0x80 ≤ byte) && decide (byte ≤ 0xBF)) = decide (0x80 ≤ byte ∧ byte ≤ 0xBF) := by
  rw [Bool.eq_iff_iff]
  simp

variable (prog) in
/-- The step of the construction follows that of the simulation. -/
lemma advanceDeferred_spec {cur : Deferred} {ts : Threads} (byte : UInt8)
    (hcur : cur.Same ts.parked) (htidy : cur.Tidy) {step step' : List ℕ × Deferred}
    (hready : ∀ pc, pc ∈ step.1 ↔ pc ∈ step'.1) (hfresh : step.2.Same step'.2) :
    (advanceDeferred prog byte cur step.1 step.2).1 =
        closureSorted prog (ts.after byte step').seeds ⟨some byte, false, false⟩ ∧
      (advanceDeferred prog byte cur step.1 step.2).2.Same (ts.after byte step').parked ∧
      (advanceDeferred prog byte cur step.1 step.2).2.Tidy := by
  obtain ⟨hone, htwo, hthree⟩ := hcur
  obtain ⟨fone, ftwo, fthree⟩ := hfresh
  have hempty : ∀ seeds : List ℕ, (if seeds.isEmpty then []
      else closureSorted prog seeds ⟨some byte, false, false⟩) =
        closureSorted prog seeds ⟨some byte, false, false⟩ := by
    intro seeds
    split_ifs with h
    · obtain rfl := List.isEmpty_iff.mp h
      refine (List.eq_nil_iff_forall_not_mem.mpr fun pc hpc => ?_).symm
      have hreach := mem_closureSorted.mp hpc
      induction hreach with
      | seed hmem _ => exact absurd hmem List.not_mem_nil
      | step h _ _ ih => exact ih (mem_closureSorted.mpr h)
    · rfl
  unfold advanceDeferred
  simp only [isContinuation_iff]
  unfold Threads.after
  by_cases hcont : 0x80 ≤ byte ∧ byte ≤ 0xBF
  · simp only [hcont, and_self, decide_true, if_true, hempty]
    refine ⟨closureSorted_congr (fun pc => ?_) _, ⟨fun pc => ?_, fun pc => ?_, fun pc => ?_⟩,
      canonical_joinDeferred (canonical_secondOfE2 htidy.2.1 byte) _,
      canonical_joinDeferred htidy.2.2 _, canonical_joinDeferred canonical_nil _⟩
    · rw [mem_sortDedup, List.mem_append, List.mem_append, hready, promoted, List.mem_map,
        List.mem_map]
      simp only [List.mem_filter, hone]
    · dsimp only
      rw [mem_joinDeferred, List.mem_append, mem_secondOfE2, fone]
      refine or_congr_left ?_
      split_ifs
      · exact htwo pc
      · rw [List.mem_map, List.mem_map]
        simp only [htwo]
    · dsimp only
      rw [mem_joinDeferred, List.mem_append, ftwo, hthree]
    · dsimp only
      rw [mem_joinDeferred, fthree]
      simp
  · simp only [hcont, decide_false, Bool.false_eq_true, if_false, hempty]
    refine ⟨closureSorted_congr hready _, ⟨fun pc => ?_, fun pc => ?_, fun pc => ?_⟩,
      canonical_joinDeferred canonical_nil _, canonical_joinDeferred canonical_nil _,
      canonical_joinDeferred canonical_nil _⟩
    · dsimp only
      rw [mem_joinDeferred, fone]
      simp
    · dsimp only
      rw [mem_joinDeferred, ftwo]
      simp
    · dsimp only
      rw [mem_joinDeferred, fthree]
      simp

/-! ### What a state shows -/

variable (prog split entry hay) in
/-- An item shows the simulation at a cursor. -/
structure StateItem.Shows (item : StateItem) (i : ℕ) : Prop where
  ready : item.ready = readyAt prog entry hay i
  same : item.deferred.Same (threads prog entry hay i).parked
  tidy : item.deferred.Tidy
  attr : item.attr = attrAt entry hay i

/-- A two-stage closure reaches what the closure in one reaches, when the second stage goes on as
that does, or within the first. -/
lemma reach_two_stage {ctx ctx' : PositionCtx} {wb wb' : Option Bool} {seeds ready : List ℕ}
    (hsub : ∀ pc ∈ ready, Reach prog ctx wb seeds pc)
    (hseeds : ∀ pc ∈ seeds, pc < prog.len → pc ∈ ready)
    (hto : ∀ pc, Reach prog ctx wb seeds pc → ∀ t ∈ epsTargets prog ctx wb pc, t < prog.len →
      t ∈ ready ∨ t ∈ epsTargets prog ctx' wb' pc)
    (hfrom : ∀ pc, Reach prog ctx wb seeds pc → ∀ t ∈ epsTargets prog ctx' wb' pc, t < prog.len →
      t ∈ ready ∨ t ∈ epsTargets prog ctx wb pc) (pc : ℕ) :
    Reach prog ctx' wb' ready pc ↔ Reach prog ctx wb seeds pc := by
  constructor
  · intro h
    induction h with
    | seed hmem _ => exact hsub _ hmem
    | step _ ht hlt ih =>
      rcases hfrom _ ih _ ht hlt with hmem | ht'
      · exact hsub _ hmem
      · exact ih.step ht' hlt
  · intro h
    induction h with
    | seed hmem hlt => exact .seed (hseeds _ hmem hlt) hlt
    | step hr ht hlt ih =>
      rcases hto _ hr _ ht hlt with hmem | ht'
      · exact .seed hmem hlt
      · exact ih.step ht' hlt

/-- What is ready is in the closure. -/
lemma reach_of_ready {i pc : ℕ} (h : pc ∈ readyAt prog entry hay i) :
    pc ∈ closure prog entry hay i := by
  rw [closure, closedAt, mem_closureInto]
  have hr := mem_closureSorted.mp h
  induction hr with
  | seed hmem hlt => exact .seed hmem hlt
  | @step pc t hr ht hlt ih =>
    refine (ih (mem_closureSorted.mpr hr)).step ?_ hlt
    unfold epsTargets at ht ⊢
    cases hins : prog.insts[pc]? with
    | none => simp [hins] at ht
    | some ins =>
      rw [hins] at ht
      cases ins <;> dsimp only at ht ⊢ <;> try exact ht
      case anchorE pad => simp [leftCtx] at ht
      case wBound => simp at ht
      case nwBound => simp at ht

/-- A class is no line feed: a state judges a `^` to advance at the text start only. -/
lemma eq_textStart_of_advances {attr : LeftByteAttr} {pad : UInt8}
    (h : anchorBAdvances (ctxFor attr) pad = true) : attr = .textStart := by
  cases attr with
  | textStart => rfl
  | word => simp [anchorBAdvances, ctxFor, attrToLeftByte] at h
  | nonWord => simp [anchorBAdvances, ctxFor, attrToLeftByte] at h

/-- The class of a cursor is the text start at the entry there only. -/
lemma isTextStart_of_attrAt {i : ℕ} (h : attrAt entry hay i = .textStart) :
    (ctxAt entry hay i).isTextStart = true := by
  have hbyte : ∀ b, attrOfByte b ≠ .textStart := by
    intro b
    unfold attrOfByte
    split_ifs <;> exact LeftByteAttr.noConfusion
  unfold attrAt at h
  split_ifs at h with hi
  · cases entry with
    | textStart => simp [ctxAt, hi]
    | behind b => exact absurd h (hbyte b)
  · exact absurd h (hbyte _)

/-- The verdict on a `^` does not depend on what lies ahead. -/
lemma anchorBAdvances_textEnd (ctx : PositionCtx) (b : Bool) (pad : UInt8) :
    anchorBAdvances { ctx with isTextEnd := b } pad = anchorBAdvances ctx pad := rfl

/-- The closure of what is ready, by the class that a state knows, is that of the simulation. -/
lemma reach_seen (hno : split = false → NoWordBoundary prog)
    (hjudged : WellJudged prog split entry hay) {i : ℕ} (hi : i ≤ hay.length) {wb : Bool}
    (hwb : split = true → wb = (ctxAt entry hay i).atWordBoundary hay[i]?) (pc : ℕ) :
    Reach prog { ctxFor (seenAttr prog split entry hay i) with isTextEnd := decide (i = hay.length) }
      (some wb) (readyAt prog entry hay i) pc ↔ pc ∈ closure prog entry hay i := by
  rw [closure, closedAt, mem_closureInto]
  have hclosure : ∀ {x}, Reach prog (ctxAt entry hay i)
      (some ((ctxAt entry hay i).atWordBoundary hay[i]?)) (threads prog entry hay i).seeds x →
      x ∈ closure prog entry hay i := fun h => by rwa [closure, closedAt, mem_closureInto]
  refine reach_two_stage (fun x hx => ?_) (fun x hx hlt => ?_) ?_ ?_ pc
  · have hmem := reach_of_ready hx
    rwa [closure, closedAt, mem_closureInto] at hmem
  · exact mem_closureSorted.mpr (.seed hx hlt)
  · intro x hx t ht hlt
    have hv := hjudged i hi x (hclosure hx)
    unfold epsTargets at ht ⊢
    cases hins : prog.insts[x]? with
    | none => simp [hins] at ht
    | some ins =>
      rw [hins] at ht
      have hmem := List.mem_of_getElem? hins
      cases ins <;> dsimp only at ht ⊢ <;> try exact Or.inr ht
      case anchorB pad =>
        have hjudge := hv pad hins
        by_cases hadv : anchorBAdvances (ctxAt entry hay i) pad = true
        · by_cases hready : x ∈ readyAt prog entry hay i
          · rw [if_pos hadv] at ht
            refine Or.inl (mem_closureSorted.mpr ((mem_closureSorted.mp hready).step ?_ hlt))
            have hleft : anchorBAdvances (leftCtx entry hay i) pad = true := hadv
            simp only [epsTargets, hins]
            rwa [if_pos hleft]
          · rw [judgedIn, if_neg hready, hadv] at hjudge
            rw [if_pos hadv] at ht
            rw [anchorBAdvances_textEnd, if_pos hjudge]
            exact Or.inr ht
        · rw [if_neg hadv] at ht
          exact absurd ht List.not_mem_nil
      case wBound =>
        cases split with
        | true => exact Or.inr (hwb rfl ▸ ht)
        | false => exact absurd hmem (hno rfl).1
      case nwBound =>
        cases split with
        | true => exact Or.inr (hwb rfl ▸ ht)
        | false => exact absurd hmem (hno rfl).2
  · intro x hx t ht hlt
    have hv := hjudged i hi x (hclosure hx)
    unfold epsTargets at ht ⊢
    cases hins : prog.insts[x]? with
    | none => simp [hins] at ht
    | some ins =>
      rw [hins] at ht
      have hmem := List.mem_of_getElem? hins
      cases ins <;> dsimp only at ht ⊢ <;> try exact Or.inr ht
      case anchorB pad =>
        have hjudge := hv pad hins
        rw [anchorBAdvances_textEnd] at ht
        by_cases hseen : anchorBAdvances (ctxFor (seenAttr prog split entry hay i)) pad = true
        · by_cases hadv : anchorBAdvances (ctxAt entry hay i) pad = true
          · rw [if_pos hseen] at ht
            rw [if_pos hadv]
            exact Or.inr ht
          · by_cases hready : x ∈ readyAt prog entry hay i
            · -- the state stands for the text start, where the same is ready
              have hstart := eq_textStart_of_advances hseen
              have hsame := hstart
              unfold seenAttr at hsame
              split_ifs at hsame with hsplit hfold
              · refine absurd ?_ hadv
                rw [anchorBAdvances, isTextStart_of_attrAt hsame]
                rfl
              · rw [if_pos hseen] at ht
                rw [hstart] at hseen
                left
                rw [hfold.1] at hready ⊢
                refine mem_closureSorted.mpr ((mem_closureSorted.mp hready).step ?_ hlt)
                simp only [epsTargets, hins]
                rwa [if_pos hseen]
            · rw [judgedIn, if_neg hready] at hjudge
              exact absurd (hjudge ▸ hseen) hadv
        · rw [if_neg hseen] at ht
          exact absurd ht List.not_mem_nil
      case wBound =>
        cases split with
        | true => exact Or.inr (hwb rfl ▸ ht)
        | false => exact absurd hmem (hno rfl).1
      case nwBound =>
        cases split with
        | true => exact Or.inr (hwb rfl ▸ ht)
        | false => exact absurd hmem (hno rfl).2

/-- The entry item shows the simulation at its cursor. -/
lemma startItem_shows (hjudged : WellJudged prog split entry hay) :
    (startItem prog entry.attr).Shows prog entry hay 0 := by
  have hreach : ∀ pc, Reach prog (ctxFor entry.attr) none [0] pc ↔
      Reach prog (leftCtx entry hay 0) none [0] pc := by
    have hverdict : ∀ x pad, Reach prog (leftCtx entry hay 0) none [0] x →
        prog.insts[x]? = some (.anchorB pad) →
        anchorBAdvances (ctxFor entry.attr) pad = anchorBAdvances (leftCtx entry hay 0) pad := by
      intro x pad hx hins
      have hready : x ∈ readyAt prog entry hay 0 := mem_closureSorted.mpr hx
      have hjudge := hjudged 0 (Nat.zero_le _) x (reach_of_ready hready) pad hins
      rwa [judgedIn, if_pos hready, if_pos rfl] at hjudge
    have htargets : ∀ x, Reach prog (leftCtx entry hay 0) none [0] x →
        epsTargets prog (ctxFor entry.attr) none x =
          epsTargets prog (leftCtx entry hay 0) none x := by
      intro x hx
      have hv := hverdict x
      unfold epsTargets
      cases hins : prog.insts[x]? with
      | none => rfl
      | some ins =>
        cases ins <;> dsimp only <;> try rfl
        case anchorB pad => rw [hv pad hx hins]
    intro pc
    constructor
    · intro h
      induction h with
      | seed hmem hlt => exact .seed hmem hlt
      | step _ ht hlt ih => exact ih.step (htargets _ ih ▸ ht) hlt
    · intro h
      induction h with
      | seed hmem hlt => exact .seed hmem hlt
      | step hr ht hlt ih => exact ih.step ((htargets _ hr).symm ▸ ht) hlt
  refine ⟨?_, ⟨fun _ => Iff.rfl, fun _ => Iff.rfl, fun _ => Iff.rfl⟩,
    ⟨canonical_nil, canonical_nil, canonical_nil⟩, rfl⟩
  have hnodup : ∀ ctx, (closureSorted prog [0] ctx).Nodup := fun ctx =>
    (List.perm_insertionSort _ _).nodup_iff.mpr (closureInto_nodup [0] ctx none)
  refine eq_of_mem_iff (List.pairwise_insertionSort _ _) (List.pairwise_insertionSort _ _)
    (hnodup _) (hnodup _) fun pc => ?_
  show pc ∈ closureSorted prog [0] (ctxFor entry.attr) ↔ _
  rw [mem_closureSorted, hreach]
  exact mem_closureSorted.symm

/-! ### The states of a walk -/

/-- No class of the program is of properties alone. -/
def NoPropertyClass (prog : Program) : Prop := ∀ cls ∈ prog.classes, isUflagPropertyOnly cls = false

/-- Without property classes no program counter is one of a property class. -/
lemma kpropertyPcFor_eq_none (h : NoPropertyClass prog) (pc : ℕ) (flags : UInt8) :
    kpropertyPcFor prog pc flags = none := by
  unfold kpropertyPcFor
  split_ifs
  · cases hins : prog.insts[pc]? with
    | none => rfl
    | some ins =>
      cases ins <;> dsimp only
      case cls idx pad =>
        cases hcls : prog.classes[idx]? with
        | none => rfl
        | some cls => simp [h cls (List.mem_of_getElem? hcls)]
  · rfl

/-- Without property classes no state has a pending class. -/
lemma classify_eq_noKProperty (h : NoPropertyClass prog) (ready : List ℕ) (deferred : Deferred) :
    classifyKpropertyShape prog ready deferred flags = .noKProperty := by
  have hcollect : ∀ pcs : List ℕ, collectKProperty prog flags pcs none [] = some (none, []) := by
    intro pcs
    induction pcs with
    | nil => rfl
    | cons pc pcs ih => rw [collectKProperty, kpropertyPcFor_eq_none h]; exact ih
  simp [classifyKpropertyShape, hcollect]

/-- The keys of the text start are one, or none. -/
lemma textStartKeys_eq (h : NoPropertyClass prog) :
    textStartKeys prog split flags =
      if (startItem prog .textStart).isEmpty then []
      else [flattenKey split (startItem prog .textStart)] := by
  unfold textStartKeys seedStart internFuel
  have hfind : Pool.new.reset.find (flattenKey split (startItem prog .textStart)) = none := rfl
  rw [internState]
  split_ifs with hempty
  · rfl
  · rw [hfind]
    dsimp only
    rw [classify_eq_noKProperty h]
    rfl

variable (split flags) in
/-- What a state knows of the byte in front. -/
lemma StateItem.Shows.itemOf_attr (hprop : NoPropertyClass prog) {item : StateItem} {i : ℕ}
    (h : item.Shows prog entry hay i) (hlive : item.isEmpty = false) :
    (itemOf prog split flags (flattenKey split item)).attr = seenAttr prog split entry hay i := by
  cases split with
  | true => exact h.attr
  | false =>
    have hparked : item.deferred.isEmpty = (threads prog entry hay i).parked.isEmpty := by
      have hlist : ∀ xs ys : List ℕ, (∀ a, a ∈ xs ↔ a ∈ ys) → xs.isEmpty = ys.isEmpty := by
        intro xs ys hxy
        rw [Bool.eq_iff_iff, List.isEmpty_iff, List.isEmpty_iff, List.eq_nil_iff_forall_not_mem,
          List.eq_nil_iff_forall_not_mem]
        simp only [hxy]
      obtain ⟨h1, h2, h3⟩ := h.same
      rw [Deferred.isEmpty, Deferred.isEmpty, hlist _ _ h1, hlist _ _ h2, hlist _ _ h3]
    have hmem : flattenKey false item ∈ textStartKeys prog false flags ↔
        readyAt prog entry hay i = closureSorted prog [0] (ctxFor .textStart) ∧
          (threads prog entry hay i).parked.isEmpty = true := by
      rw [textStartKeys_eq hprop, ← h.ready, ← hparked]
      constructor
      · intro hin
        split_ifs at hin with hempty
        · exact absurd hin List.not_mem_nil
        · have heq := List.mem_singleton.mp hin
          have hready := congrArg StateItem.ready heq
          have hdeferred := congrArg StateItem.deferred heq
          rw [flattenKey_ready, flattenKey_ready] at hready
          rw [flattenKey_deferred, flattenKey_deferred] at hdeferred
          exact ⟨hready, by rw [hdeferred]; rfl⟩
      · rintro ⟨hready, hempty⟩
        have hdeferred : item.deferred = {} := by
          obtain ⟨ready, ⟨one, two, three⟩, attr⟩ := item
          simp only [Deferred.isEmpty, Bool.and_eq_true, List.isEmpty_iff] at hempty
          obtain ⟨⟨rfl, rfl⟩, rfl⟩ := hempty
          rfl
        have hstart : (startItem prog .textStart).isEmpty = false := by
          rw [StateItem.isEmpty, hready, hdeferred] at hlive
          exact hlive
        rw [if_neg (by rw [hstart]; decide), List.mem_singleton]
        exact StateItem.ext hready hdeferred rfl
    unfold itemOf seenAttr
    simp only [Bool.false_eq_true, if_false]
    split_ifs with h₁ h₂ h₂
    · rfl
    · exact absurd (hmem.mp h₁) h₂
    · exact absurd (hmem.mpr h₂) h₁
    · rfl

/-- The representative of a class is a word byte when its bytes are. -/
lemma attrToLeftByte_any (b : UInt8) :
    (attrToLeftByte (attrOfByte b)).any isWordByte = isWordByte b := by
  unfold attrOfByte
  split_ifs with hword
  · rw [hword]
    decide
  · rw [Bool.not_eq_true] at hword
    rw [hword]
    decide

/-- The class of the byte in front decides a word boundary as the byte does. -/
lemma atWordBoundary_attrAt (i : ℕ) (right : Option UInt8) :
    (ctxFor (attrAt entry hay i)).atWordBoundary right =
      (ctxAt entry hay i).atWordBoundary right := by
  have hleft : (attrToLeftByte (attrAt entry hay i)).any isWordByte =
      (ctxAt entry hay i).leftByte.any isWordByte := by
    unfold attrAt ctxAt
    split_ifs
    · cases entry with
      | textStart => rfl
      | behind b => exact attrToLeftByte_any b
    · exact attrToLeftByte_any _
  show (_ != _) = (_ != _)
  rw [← hleft]
  rfl

/-- A state that is accepting by what is ready accepts in the simulation. -/
lemma accepts_of_ready {item : StateItem} {i : ℕ} (h : item.Shows prog entry hay i)
    (hacc : pcSetIsAccept prog item.ready = true) : accepts prog entry hay i = true := by
  rw [h.ready] at hacc
  obtain ⟨pc, hpc, hins⟩ := List.any_eq_true.mp hacc
  exact List.any_eq_true.mpr ⟨pc, reach_of_ready hpc, hins⟩

section Walk

variable (hprop : NoPropertyClass prog) (hno : split = false → NoWordBoundary prog)
  (hjudged : WellJudged prog split entry hay)
include hprop hno hjudged

variable (flags) in
/-- The closure of a state before a byte is that of the simulation. -/
lemma StateItem.Shows.mem_closedBefore {item : StateItem} {i : ℕ}
    (h : item.Shows prog entry hay i) (hlive : item.isEmpty = false) (hi : i < hay.length) (pc : ℕ) :
    pc ∈ closedBefore prog split (itemOf prog split flags (flattenKey split item)) (byteAt hay i) ↔
      pc ∈ closure prog entry hay i := by
  have hattr := h.itemOf_attr split flags hprop hlive
  have hbyte : hay[i]? = some (byteAt hay i) := by
    rw [byteAt, List.getElem?_eq_getElem hi]
    simp [hi]
  rw [closedBefore, mem_closureInto, itemOf_ready, flattenKey_ready, h.ready, hattr]
  have hctx : ctxFor (seenAttr prog split entry hay i) =
      { ctxFor (seenAttr prog split entry hay i) with isTextEnd := decide (i = hay.length) } := by
    rw [decide_eq_false (by omega)]
    rfl
  rw [hctx]
  refine reach_seen hno hjudged hi.le (fun hsplit => ?_) pc
  subst hsplit
  rw [hbyte]
  exact atWordBoundary_attrAt i _

variable (flags) in
/-- The verdict of a state at the end is that of the simulation. -/
lemma StateItem.Shows.acceptAtEnd {item : StateItem} (h : item.Shows prog entry hay hay.length)
    (hlive : item.isEmpty = false) :
    (subsetAutomaton prog split flags).acceptAtEnd (flattenKey split item) =
      accepts prog entry hay hay.length := by
  have hattr := h.itemOf_attr split flags hprop hlive
  show pcSetIsAcceptAtEnd prog (flattenKey split item).ready _ = _
  rw [hattr, flattenKey_ready, h.ready]
  refine pcSetIsAccept_congr fun pc => ?_
  have hwb : split = true →
      { ctxFor (seenAttr prog split entry hay hay.length) with isTextEnd := true }.atWordBoundary
        none = (ctxAt entry hay hay.length).atWordBoundary hay[hay.length]? := by
    rintro rfl
    rw [List.getElem?_eq_none le_rfl]
    exact atWordBoundary_attrAt hay.length none
  have hreach := reach_seen hno hjudged le_rfl hwb pc
  rw [decide_eq_true rfl] at hreach
  rw [mem_closureInto]
  exact hreach

variable (flags) in
/-- The state behind a byte shows the simulation at the next cursor. -/
lemma StateItem.Shows.itemAfter {item : StateItem} {i : ℕ} (h : item.Shows prog entry hay i)
    (hlive : item.isEmpty = false) (hi : i < hay.length) :
    (Dfa.itemAfter prog split (itemOf prog split flags (flattenKey split item)) (byteAt hay i)).Shows
      prog entry hay (i + 1) := by
  have hstep : (∀ pc, pc ∈ (byteStepInto prog _ (byteAt hay i)).1 ↔ _) ∧ _ :=
    byteStepInto_congr (h.mem_closedBefore flags hprop hno hjudged hlive hi) (byteAt hay i)
  have hsame : (itemOf prog split flags (flattenKey split item)).deferred.Same
      (threads prog entry hay i).parked := by simpa using h.same
  have hadv := advanceDeferred_spec prog (byteAt hay i) hsame (by simpa using h.tidy) hstep.1 hstep.2
  have hctx : leftCtx entry hay (i + 1) = ⟨some (byteAt hay i), false, false⟩ := by
    simp [leftCtx, ctxAt]
  refine ⟨?_, hadv.2.1, hadv.2.2, ?_⟩
  · rw [readyAt, hctx]
    exact hadv.1
  · simp [attrAt, Dfa.itemAfter]

end Walk

/-! ### Dead ends -/

/-- Nothing is left at a cursor. -/
def Dead (prog : Program) (entry : Entry) (hay : List UInt8) (i : ℕ) : Prop :=
  closure prog entry hay i = [] ∧ (threads prog entry hay i).parked = {}

/-- Where nothing is reached by one context, nothing is by another. -/
lemma not_reach_of_none {ctx ctx' : PositionCtx} {wb wb' : Option Bool} {seeds : List ℕ}
    (h : ∀ pc, ¬ Reach prog ctx wb seeds pc) (pc : ℕ) : ¬ Reach prog ctx' wb' seeds pc := by
  intro hr
  induction hr with
  | seed hmem hlt => exact h _ (.seed hmem hlt)
  | step _ _ _ ih => exact ih

/-- A state with nothing in it shows a dead end. -/
lemma StateItem.Shows.dead {item : StateItem} {i : ℕ} (h : item.Shows prog entry hay i)
    (hempty : item.isEmpty = true) : Dead prog entry hay i := by
  rw [StateItem.isEmpty, Bool.and_eq_true, List.isEmpty_iff, Deferred.isEmpty, Bool.and_eq_true,
    Bool.and_eq_true, List.isEmpty_iff, List.isEmpty_iff, List.isEmpty_iff] at hempty
  obtain ⟨hready, ⟨hone, htwo⟩, hthree⟩ := hempty
  obtain ⟨sone, stwo, sthree⟩ := h.same
  have hnil : ∀ xs ys : List ℕ, xs = [] → (∀ pc, pc ∈ xs ↔ pc ∈ ys) → ys = [] := by
    intro xs ys hxs hxy
    refine List.eq_nil_iff_forall_not_mem.mpr fun pc hpc => ?_
    rw [← hxy, hxs] at hpc
    exact List.not_mem_nil hpc
  constructor
  · refine List.eq_nil_iff_forall_not_mem.mpr fun pc hpc => ?_
    rw [closure, closedAt, mem_closureInto] at hpc
    have hnone : ∀ x, ¬ Reach prog (leftCtx entry hay i) none (threads prog entry hay i).seeds x := by
      intro x hx
      have hmem : x ∈ readyAt prog entry hay i := mem_closureSorted.mpr hx
      rw [← h.ready, hready] at hmem
      exact List.not_mem_nil hmem
    exact not_reach_of_none hnone pc hpc
  · have h1 := hnil _ _ hone sone
    have h2 := hnil _ _ htwo stwo
    have h3 := hnil _ _ hthree sthree
    rcases hp : (threads prog entry hay i).parked with ⟨one, two, three⟩
    rw [hp] at h1 h2 h3
    dsimp only at h1 h2 h3
    rw [h1, h2, h3]

/-- A dead end stays one. -/
lemma Dead.succ {i : ℕ} (h : Dead prog entry hay i) : Dead prog entry hay (i + 1) := by
  have hthreads : threads prog entry hay (i + 1) = ⟨[], {}⟩ := by
    rw [threads, show closedAt prog entry hay _ i = [] from h.1]
    unfold Threads.after
    rw [h.2]
    simp [byteStepInto, promoted]
  refine ⟨?_, by rw [hthreads]⟩
  refine List.eq_nil_iff_forall_not_mem.mpr fun pc hpc => ?_
  rw [closure, hthreads, closedAt, mem_closureInto] at hpc
  induction hpc with
  | seed hmem _ => exact List.not_mem_nil hmem
  | step _ _ _ ih => exact ih

/-- From a dead end on nothing is accepted. -/
lemma Dead.not_accepts {i : ℕ} (h : Dead prog entry hay i) {m : ℕ} (hm : i ≤ m) :
    accepts prog entry hay m = false := by
  have hdead : Dead prog entry hay m := by
    induction m, hm using Nat.le_induction with
    | base => exact h
    | succ m _ ih => exact ih.succ
  rw [accepts, hdead.1]
  rfl

/-! ### The walk -/

/-- What a walk comes to: the end of the haystack where its last state accepts there, and else the
last accept. -/
def Automaton.verdict {σ : Type} (A : Automaton σ) (len : ℕ) :
    Bool × Option σ × Option ℕ → Option ℕ
  | (alive, q, last) => if alive && q.any A.acceptAtEnd then some len else last

variable (flags) in
/-- The walk from a state that shows the simulation finds the last prefix that it accepts. -/
theorem run_eq_lastBelow (hprop : NoPropertyClass prog)
    (hno : split = false → NoWordBoundary prog) (hjudged : WellJudged prog split entry hay)
    {item : StateItem} {i : ℕ} (h : item.Shows prog entry hay i) (hi : i ≤ hay.length) :
    (subsetAutomaton prog split flags).verdict hay.length
        ((subsetAutomaton prog split flags).run prog hay (keyOf split item) i
          (if (keyOf split item).any (subsetAutomaton prog split flags).accept then some i
            else lastBelow (accepts prog entry hay) i)) =
      lastBelow (accepts prog entry hay) (hay.length + 1) := by
  obtain ⟨n, hn⟩ : ∃ n, hay.length = i + n := ⟨hay.length - i, by omega⟩
  induction n generalizing i item with
  | zero =>
    have hend : hay.length = i := hn
    subst hend
    rw [run_of_le le_rfl, lastBelow]
    cases hempty : item.isEmpty with
    | true =>
      have hkey : keyOf split item = none := by simp [keyOf, hempty]
      rw [hkey, (h.dead hempty).not_accepts le_rfl]
      rfl
    | false =>
      have hkey : keyOf split item = some (flattenKey split item) := by simp [keyOf, hempty]
      have hacc := h.acceptAtEnd flags hprop hno hjudged hempty
      rw [hkey]
      simp only [Automaton.verdict, Bool.true_and, Option.any_some, hacc]
      cases haccepts : accepts prog entry hay hay.length with
      | true => rfl
      | false =>
        have hready : (subsetAutomaton prog split flags).accept (flattenKey split item) = false := by
          by_contra hne
          have hmem : pcSetIsAccept prog item.ready = true := by
            simpa [subsetAutomaton] using hne
          rw [accepts_of_ready h hmem] at haccepts
          exact absurd haccepts (by decide)
        simp [hready]
  | succ n ih =>
    have hlt : i < hay.length := by omega
    cases hempty : item.isEmpty with
    | true =>
      have hkey : keyOf split item = none := by simp [keyOf, hempty]
      have hlast := lastBelow_eq (n + 2) fun m hm => (h.dead hempty).not_accepts hm
      rw [hkey, run_none hlt, show hay.length + 1 = i + (n + 2) by omega, hlast]
      rfl
    | false =>
      have hkey : keyOf split item = some (flattenKey split item) := by simp [keyOf, hempty]
      have hnext := h.itemAfter flags hprop hno hjudged hempty hlt
      have hclosed : pcSetIsAccept prog (closedBefore prog split
          (itemOf prog split flags (flattenKey split item)) (byteAt hay i)) =
            accepts prog entry hay i :=
        pcSetIsAccept_congr (h.mem_closedBefore flags hprop hno hjudged hempty hlt)
      -- the last accept once the byte is seen
      have hbefore : (subsetAutomaton prog split flags).before hay (flattenKey split item) i
          (if (some (flattenKey split item)).any (subsetAutomaton prog split flags).accept then some i
            else lastBelow (accepts prog entry hay) i) =
          lastBelow (accepts prog entry hay) (i + 1) := by
        have hmask : (subsetAutomaton prog split flags).acceptBefore (flattenKey split item)
            (byteAt hay i) = (!pcSetIsAccept prog item.ready && accepts prog entry hay i) := by
          rw [← hclosed]
          simp [subsetAutomaton]
        have hacc : (subsetAutomaton prog split flags).accept (flattenKey split item) =
            pcSetIsAccept prog item.ready := by simp [subsetAutomaton]
        rw [Automaton.before, hmask, Option.any_some, hacc, lastBelow]
        cases hready : pcSetIsAccept prog item.ready with
        | true => simp [accepts_of_ready h hready]
        | false => simp
      rw [hkey]
      cases hstep : (subsetAutomaton prog split flags).step (flattenKey split item) (byteAt hay i) with
      | none =>
        have hpend : (subsetAutomaton prog split flags).pending (flattenKey split item) = none := by
          simp [subsetAutomaton, pendingOf, classify_eq_noKProperty hprop]
        have hdead : Dead prog entry hay (i + 1) := by
          refine hnext.dead ?_
          have hnone : keyOf split (Dfa.itemAfter prog split
              (itemOf prog split flags (flattenKey split item)) (byteAt hay i)) = none := hstep
          by_contra hne
          simp [keyOf, hne] at hnone
        have hlast := lastBelow_eq (n + 1) fun m hm => hdead.not_accepts hm
        rw [run_stuck hlt hstep hpend, hbefore,
          show hay.length + 1 = i + 1 + (n + 1) by omega, hlast]
        rfl
      | some k' =>
        have hkey' : keyOf split (Dfa.itemAfter prog split
            (itemOf prog split flags (flattenKey split item)) (byteAt hay i)) = some k' := hstep
        have hrest := ih hnext (by omega) (by omega)
        rw [run_step prog _ hlt hstep, hbefore]
        rw [hkey'] at hrest
        exact hrest

end Torajs.Regex.Dfa
