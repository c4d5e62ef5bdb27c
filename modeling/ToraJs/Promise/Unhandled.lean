import Mathlib.Data.List.Basic
import Mathlib.Data.List.Infix
import Mathlib.Logic.Function.Basic

/-!
# Unhandled rejections

`unhandled.rs` keeps the promises that were rejected in a list and reports, when `main` ends, those
that nothing observed.  A full list is compacted before it grows; the list is detached before it is
walked; and a listener that is called during the walk is user code, which rejects and observes
promises of its own.

What happens is logged, the newest first, so that what a report says can be compared with what
happened before it.  A cell on the list is held by it, so a promise is its identity here; a
listener that is registered is there.
-/

namespace Torajs.Promise

/-! ### The list -/

/-- `STATE_PENDING`, `STATE_FULFILLED` and `STATE_REJECTED`. -/
inductive PromiseState
  | pending
  | fulfilled
  | rejected
  deriving DecidableEq

/-- What happens to promises. -/
inductive Happening
  | rejected (p : ℕ)
  | observed (p : ℕ)
  | sweeping
  | swept (p : ℕ)
  | reported (p : ℕ)
  deriving DecidableEq

/-- The cells, the list with its capacity, whether a listener is registered, and the log. -/
structure World where
  state : ℕ → PromiseState
  hasHandler : ℕ → Bool
  list : List ℕ
  cap : ℕ
  listening : Bool
  log : List Happening

/-- What user code does. -/
inductive Event
  | resolve (p : ℕ)
  | reject (p : ℕ)
  | observe (p : ℕ)
  | listen

/-- `compact_observed`. -/
def compactObserved (w : World) : World :=
  { w with list := w.list.filter fun p => !w.hasHandler p }

/-- The buffer of a list is doubled, unless it is half empty. -/
def grow (w : World) : World :=
  if w.cap = 0 ∨ w.cap / 2 < w.list.length then
    { w with cap := if w.cap = 0 then 8 else w.cap * 2 }
  else w

/-- What a full list does before an entry is put on it; `compacting` is set. -/
def makeRoom (compacting : Bool) (w : World) : World :=
  if w.list.length = w.cap then
    grow (if compacting = true ∧ w.cap ≠ 0 then compactObserved w else w)
  else w

/-- `__torajs_promise_track_rejection`. -/
def trackRejection (compacting : Bool) (w : World) (p : ℕ) : World :=
  let w := makeRoom compacting w
  { w with list := w.list ++ [p] }

/-- `__torajs_promise_resolve`, `__torajs_promise_reject` and the allocation of a rejected promise,
the marks of an observer, and the registration of a listener. -/
def step (compacting : Bool) (w : World) : Event → World
  | .resolve p =>
    if w.state p = .pending then { w with state := Function.update w.state p .fulfilled } else w
  | .reject p =>
    if w.state p = .pending then
      trackRejection compacting
        { w with state := Function.update w.state p .rejected, log := .rejected p :: w.log } p
    else w
  | .observe p =>
    { w with hasHandler := Function.update w.hasHandler p true, log := .observed p :: w.log }
  | .listen => { w with listening := true }

/-- The steps of some user code. -/
def run (compacting : Bool) (w : World) (events : List Event) : World :=
  events.foldl (step compacting) w

/-- One entry in the walk of `sweep_unhandled_list`; the listener, called for a promise, does what
`acts` says. -/
def sweepEntry (compacting : Bool) (acts : ℕ → List Event) (w : World) (p : ℕ) : World :=
  let w := { w with log := .swept p :: w.log }
  if w.state p = .rejected ∧ w.hasHandler p = false then
    let w := { w with log := .reported p :: w.log }
    if w.listening then run compacting w (acts p) else w
  else w

/-- The list is detached, and walked. -/
def detach (w : World) : World := { w with list := [], cap := 0, log := .sweeping :: w.log }

/-- `sweep_unhandled_list`. -/
def sweepUnhandledList (compacting : Bool) (acts : ℕ → List Event) (w : World) : World :=
  w.list.foldl (sweepEntry compacting acts) (detach w)

/-- The world before the program. -/
def World.init : World where
  state _ := .pending
  hasHandler _ := false
  list := []
  cap := 0
  listening := false
  log := []

/-- The program, and `__torajs_main_exit_code` at its end. -/
def mainExit (compacting : Bool) (program : List Event) (acts : ℕ → List Event) : World :=
  sweepUnhandledList compacting acts (run compacting World.init program)

/-! ### What is asked for -/

/-- Reports are exact: a promise is reported once at most, behind its rejection and unless it was
observed before; a promise that is swept unobserved is reported there; and a promise that was
rejected is reported or observed before the exit. -/
structure Exact (log : List Happening) : Prop where
  once : ∀ p older, (.reported p :: older) <:+ log → .reported p ∉ older
  due : ∀ p older, (.reported p :: older) <:+ log → .rejected p ∈ older ∧ .observed p ∉ older
  swept : ∀ p older, (.swept p :: older) <:+ log → .rejected p ∈ older → .observed p ∉ older →
    (.reported p :: .swept p :: older) <:+ log
  all : ∀ p, .rejected p ∈ log → .reported p ∈ log ∨ .observed p ∈ log

/-- Behind the beginning of the sweep a promise was rejected. -/
def Late (log : List Happening) (p : ℕ) : Prop :=
  ∃ older, (.rejected p :: older) <:+ log ∧ .sweeping ∈ older

/-- No promise that a listener rejects during the sweep is left unobserved. -/
def NoneLeft (log : List Happening) : Prop := ∀ p, Late log p → .observed p ∈ log

/-- The reports, the newest first. -/
def reports (log : List Happening) : List ℕ :=
  log.filterMap fun h => match h with
    | .reported p => some p
    | _ => none

/-! ### Room on the list -/

lemma grow_spec {w : World} (hfits : w.list.length ≤ w.cap) :
    ∃ cap, grow w = { w with cap := cap } ∧ w.list.length < cap := by
  rw [grow]
  split_ifs with hgrow hzero
  · exact ⟨8, rfl, by omega⟩
  · exact ⟨w.cap * 2, rfl, by omega⟩
  · exact ⟨w.cap, rfl, by omega⟩

/-- **Room is made** for one entry more, and only observed entries are given up for it. -/
lemma makeRoom_spec (compacting : Bool) {w : World} (hfits : w.list.length ≤ w.cap) :
    ∃ list cap, makeRoom compacting w = { w with list := list, cap := cap } ∧ list.length < cap ∧
      (list = w.list ∨ compacting = true ∧ list = w.list.filter fun p => !w.hasHandler p) := by
  rw [makeRoom]
  by_cases hfull : w.list.length = w.cap
  · rw [if_pos hfull]
    by_cases hcompact : compacting = true ∧ w.cap ≠ 0
    · have hfilter : (compactObserved w).list.length ≤ (compactObserved w).cap :=
        (List.length_filter_le _ _).trans hfits
      obtain ⟨cap, hgrow, hlt⟩ := grow_spec hfilter
      rw [if_pos hcompact, hgrow]
      exact ⟨_, cap, rfl, hlt, Or.inr ⟨hcompact.1, rfl⟩⟩
    · obtain ⟨cap, hgrow, hlt⟩ := grow_spec hfits
      rw [if_neg hcompact, hgrow]
      exact ⟨w.list, cap, rfl, hlt, Or.inl rfl⟩
  · rw [if_neg hfull]
    exact ⟨w.list, w.cap, rfl, by omega, Or.inl rfl⟩

/-- An entry is put behind the others, inside the buffer. -/
lemma trackRejection_spec (compacting : Bool) {w : World} (hfits : w.list.length ≤ w.cap) (p : ℕ) :
    ∃ list cap, trackRejection compacting w p = { w with list := list ++ [p], cap := cap } ∧
      list.length < cap ∧
      (list = w.list ∨ compacting = true ∧ list = w.list.filter fun p => !w.hasHandler p) := by
  obtain ⟨list, cap, hroom, hlt, hlist⟩ := makeRoom_spec compacting hfits
  exact ⟨list, cap, by rw [trackRejection, hroom], hlt, hlist⟩

/-! ### The log -/

/-- What is logged says what is so, and the reports that are logged were due. -/
structure Consistent (w : World) : Prop where
  fits : w.list.length ≤ w.cap
  rejected : ∀ p, .rejected p ∈ w.log ↔ w.state p = .rejected
  observed : ∀ p, .observed p ∈ w.log ↔ w.hasHandler p = true
  once : ∀ p older, (.reported p :: older) <:+ w.log → .reported p ∉ older
  due : ∀ p older, (.reported p :: older) <:+ w.log → .rejected p ∈ older ∧ .observed p ∉ older
  swept : ∀ p older, (.swept p :: older) <:+ w.log → .rejected p ∈ older → .observed p ∉ older →
    (.reported p :: .swept p :: older) <:+ w.log
  sweptOfReported : ∀ p, .reported p ∈ w.log → .swept p ∈ w.log
  onTime : ∀ p, .swept p ∈ w.log → w.state p = .rejected ∧ ¬ Late w.log p

section Log

variable {h x : Happening} {log older : List Happening} {p : ℕ}

/-- A happening of another kind hides nothing. -/
lemma suffix_cons_of_ne (hne : x ≠ h) : (x :: older) <:+ (h :: log) ↔ (x :: older) <:+ log := by
  rw [List.suffix_cons_iff]
  refine or_iff_right fun heq => hne (List.cons.inj heq).1

lemma late_cons (hne : h ≠ .rejected p) : Late (h :: log) p ↔ Late log p :=
  exists_congr fun older => by rw [suffix_cons_of_ne (Ne.symm hne)]

lemma Late.cons (hlate : Late log p) : Late (h :: log) p := by
  obtain ⟨older, hsuffix, hmem⟩ := hlate
  exact ⟨older, hsuffix.trans (List.suffix_cons h log), hmem⟩

lemma Late.rejected_mem (hlate : Late log p) : .rejected p ∈ log := by
  obtain ⟨older, hsuffix, -⟩ := hlate
  exact hsuffix.subset List.mem_cons_self

end Log

/-- **User code keeps the log consistent.** -/
lemma Consistent.step {w : World} (hw : Consistent w) (compacting : Bool) (e : Event) :
    Consistent (step compacting w e) := by
  cases e with
  | resolve p =>
    rw [Promise.step]
    split_ifs with hpending
    · have hstate : ∀ q, Function.update w.state p PromiseState.fulfilled q = .rejected ↔
          w.state q = .rejected := by
        intro q
        rcases eq_or_ne q p with rfl | hne
        · rw [Function.update_self, hpending]
          exact ⟨fun h => (by cases h), fun h => (by cases h)⟩
        · rw [Function.update_of_ne hne]
      exact { hw with
        rejected := fun q => (hw.rejected q).trans (hstate q).symm
        onTime := fun q hq => ⟨(hstate q).mpr (hw.onTime q hq).1, (hw.onTime q hq).2⟩ }
    · exact hw
  | reject p =>
    rw [Promise.step]
    split_ifs with hpending
    · obtain ⟨list, cap, htrack, hlt, hlist⟩ := trackRejection_spec compacting
        (w := { w with state := Function.update w.state p .rejected,
                       log := .rejected p :: w.log }) hw.fits p
      rw [htrack]
      have hstate : ∀ q, Function.update w.state p PromiseState.rejected q = .rejected ↔
          q = p ∨ w.state q = .rejected := by
        intro q
        rcases eq_or_ne q p with rfl | hne
        · rw [Function.update_self]
          exact iff_of_true rfl (Or.inl rfl)
        · rw [Function.update_of_ne hne]
          exact (or_iff_right hne).symm
      have hfresh : ∀ q, Happening.swept q ∈ w.log → q ≠ p := by
        rintro q hq rfl
        rw [(hw.onTime q hq).1] at hpending
        cases hpending
      exact {
        fits := by
          rw [List.length_append, List.length_singleton]
          exact hlt
        rejected := fun q => by
          rw [List.mem_cons, hstate, hw.rejected, Happening.rejected.injEq]
        observed := fun q => by
          rw [List.mem_cons, or_iff_right (by exact Happening.noConfusion)]
          exact hw.observed q
        once := fun q older hq => hw.once q older ((suffix_cons_of_ne Happening.noConfusion).mp hq)
        due := fun q older hq => hw.due q older ((suffix_cons_of_ne Happening.noConfusion).mp hq)
        swept := fun q older hq hrej hobs => (hw.swept q older
          ((suffix_cons_of_ne Happening.noConfusion).mp hq) hrej hobs).trans
            (List.suffix_cons _ _)
        sweptOfReported := fun q hq => List.mem_cons_of_mem _ (hw.sweptOfReported q
          ((List.mem_cons.mp hq).resolve_left Happening.noConfusion))
        onTime := fun q hq => by
          have hq' := (List.mem_cons.mp hq).resolve_left Happening.noConfusion
          refine ⟨(hstate q).mpr (Or.inr (hw.onTime q hq').1), ?_⟩
          rw [late_cons fun heq => hfresh q hq' (Happening.rejected.inj heq).symm]
          exact (hw.onTime q hq').2 }
    · exact hw
  | observe p =>
    rw [Promise.step]
    exact {
      fits := hw.fits
      rejected := fun q => by
        rw [List.mem_cons, or_iff_right (by exact Happening.noConfusion)]
        exact hw.rejected q
      observed := fun q => by
        rw [List.mem_cons, hw.observed, Happening.observed.injEq]
        dsimp only
        rcases eq_or_ne q p with rfl | hne
        · rw [Function.update_self]
          exact iff_of_true (Or.inl rfl) rfl
        · rw [Function.update_of_ne hne]
          exact or_iff_right hne
      once := fun q older hq => hw.once q older ((suffix_cons_of_ne Happening.noConfusion).mp hq)
      due := fun q older hq => hw.due q older ((suffix_cons_of_ne Happening.noConfusion).mp hq)
      swept := fun q older hq hrej hobs => (hw.swept q older
        ((suffix_cons_of_ne Happening.noConfusion).mp hq) hrej hobs).trans (List.suffix_cons _ _)
      sweptOfReported := fun q hq => List.mem_cons_of_mem _ (hw.sweptOfReported q
        ((List.mem_cons.mp hq).resolve_left Happening.noConfusion))
      onTime := fun q hq => by
        have hq' := (List.mem_cons.mp hq).resolve_left Happening.noConfusion
        rw [late_cons Happening.noConfusion]
        exact hw.onTime q hq' }
  | listen => exact { hw with }

/-! ### Before the sweep -/

/-- Until the sweep begins, every rejected promise is on the list or observed. -/
structure Before (w : World) : Prop extends Consistent w where
  nodup : w.list.Nodup
  listed : ∀ p ∈ w.list, w.state p = .rejected
  quiet : .sweeping ∉ w.log
  unswept : ∀ p, .swept p ∉ w.log
  cover : ∀ p, w.state p = .rejected → p ∈ w.list ∨ w.hasHandler p = true

lemma before_init : Before World.init where
  fits := le_rfl
  rejected p := iff_of_false List.not_mem_nil (by exact PromiseState.noConfusion)
  observed p := iff_of_false List.not_mem_nil Bool.false_ne_true
  once p older h := absurd (h.subset List.mem_cons_self) List.not_mem_nil
  due p older h := absurd (h.subset List.mem_cons_self) List.not_mem_nil
  swept p older h := absurd (h.subset List.mem_cons_self) List.not_mem_nil
  sweptOfReported p h := absurd h List.not_mem_nil
  onTime p h := absurd h List.not_mem_nil
  nodup := List.nodup_nil
  listed p h := absurd h List.not_mem_nil
  quiet := List.not_mem_nil
  unswept p := List.not_mem_nil
  cover p h := PromiseState.noConfusion h

lemma Before.step {w : World} (hw : Before w) (compacting : Bool) (e : Event) :
    Before (step compacting w e) := by
  have hconsistent := hw.toConsistent.step compacting e
  cases e with
  | resolve p =>
    rw [Promise.step] at hconsistent ⊢
    split_ifs at hconsistent ⊢ with hpending
    · refine { hconsistent with
        nodup := hw.nodup, listed := ?_, quiet := hw.quiet, unswept := hw.unswept, cover := ?_ }
      · intro q hq
        rcases eq_or_ne q p with rfl | hne
        · rw [hw.listed q hq] at hpending
          cases hpending
        · exact (Function.update_of_ne hne _ _).trans (hw.listed q hq)
      · intro q hq
        rcases eq_or_ne q p with rfl | hne
        · have hbad := (Function.update_self q PromiseState.fulfilled w.state).symm.trans hq
          cases hbad
        · exact hw.cover q ((Function.update_of_ne hne _ _).symm.trans hq)
    · exact hw
  | reject p =>
    rw [Promise.step] at hconsistent ⊢
    split_ifs at hconsistent ⊢ with hpending
    · obtain ⟨list, cap, htrack, hlt, hlist⟩ := trackRejection_spec compacting
        (w := { w with state := Function.update w.state p .rejected,
                       log := .rejected p :: w.log }) hw.fits p
      rw [htrack] at hconsistent ⊢
      dsimp only at hlist
      have hsub : list.Sublist w.list := by
        rcases hlist with rfl | ⟨-, rfl⟩
        · exact List.Sublist.refl _
        · exact List.filter_sublist
      have hkept : ∀ q ∈ w.list, q ∈ list ∨ w.hasHandler q = true := by
        intro q hq
        rcases hlist with rfl | ⟨-, rfl⟩
        · exact Or.inl hq
        · rw [List.mem_filter]
          cases hseen : w.hasHandler q with
          | true => exact Or.inr rfl
          | false => exact Or.inl ⟨hq, rfl⟩
      have hnotin : p ∉ list := by
        intro hp
        rw [hw.listed p (hsub.subset hp)] at hpending
        cases hpending
      refine { hconsistent with nodup := ?_, listed := ?_, quiet := ?_, unswept := ?_, cover := ?_ }
      · exact List.nodup_append.mpr ⟨hw.nodup.sublist hsub, List.pairwise_singleton _ p,
          fun a ha b hb => by
            rintro rfl
            exact hnotin (List.mem_singleton.mp hb ▸ ha)⟩
      · intro q hq
        rcases eq_or_ne q p with rfl | hne
        · exact Function.update_self _ _ _
        · rcases List.mem_append.mp hq with hq | hq
          · exact (Function.update_of_ne hne _ _).trans (hw.listed q (hsub.subset hq))
          · exact absurd (List.mem_singleton.mp hq) hne
      · exact fun hq => hw.quiet ((List.mem_cons.mp hq).resolve_left Happening.noConfusion)
      · exact fun q hq => hw.unswept q ((List.mem_cons.mp hq).resolve_left Happening.noConfusion)
      · intro q hq
        rcases eq_or_ne q p with rfl | hne
        · exact Or.inl (List.mem_append_right _ (List.mem_singleton_self q))
        · rcases hw.cover q ((Function.update_of_ne hne _ _).symm.trans hq) with hmem | hseen
          · exact (hkept q hmem).imp (List.mem_append_left _) id
          · exact Or.inr hseen
    · exact hw
  | observe p =>
    refine { hconsistent with nodup := hw.nodup, listed := hw.listed, quiet := ?_,
                              unswept := ?_, cover := ?_ }
    · exact fun hq => hw.quiet ((List.mem_cons.mp hq).resolve_left Happening.noConfusion)
    · exact fun q hq => hw.unswept q ((List.mem_cons.mp hq).resolve_left Happening.noConfusion)
    · intro q hq
      refine (hw.cover q hq).imp_right fun hseen => ?_
      rcases eq_or_ne q p with rfl | hne
      · exact Function.update_self _ _ _
      · exact (Function.update_of_ne hne _ _).trans hseen
  | listen => exact { hw with }

lemma Before.run {w : World} (hw : Before w) (compacting : Bool) (events : List Event) :
    Before (run compacting w events) := by
  induction events generalizing w with
  | nil => exact hw
  | cons e events ih => exact ih (hw.step compacting e)

/-! ### During the sweep -/

/-- While the sweep has `rest` before it, every rejected promise is reported, observed, waiting in
`rest`, or was rejected too late for it. -/
structure During (rest : List ℕ) (w : World) : Prop extends Consistent w where
  begun : .sweeping ∈ w.log
  nodup : rest.Nodup
  waiting : ∀ p ∈ rest, w.state p = .rejected ∧ .swept p ∉ w.log ∧ ¬ Late w.log p
  cover : ∀ p, w.state p = .rejected →
    .reported p ∈ w.log ∨ w.hasHandler p = true ∨ p ∈ rest ∨ Late w.log p

/-- **The sweep begins** with the list, detached. -/
lemma Before.detach {w : World} (hw : Before w) : During w.list (detach w) where
  fits := le_rfl
  rejected p := (List.mem_cons.trans (or_iff_right (by exact Happening.noConfusion))).trans
    (hw.rejected p)
  observed p := (List.mem_cons.trans (or_iff_right (by exact Happening.noConfusion))).trans
    (hw.observed p)
  once p older h := hw.once p older ((suffix_cons_of_ne Happening.noConfusion).mp h)
  due p older h := hw.due p older ((suffix_cons_of_ne Happening.noConfusion).mp h)
  swept p older h hrej hobs := (hw.swept p older
    ((suffix_cons_of_ne Happening.noConfusion).mp h) hrej hobs).trans (List.suffix_cons _ _)
  sweptOfReported p h := List.mem_cons_of_mem _
    (hw.sweptOfReported p ((List.mem_cons.mp h).resolve_left Happening.noConfusion))
  onTime p h :=
    absurd ((List.mem_cons.mp h).resolve_left Happening.noConfusion) (hw.unswept p)
  begun := List.mem_cons_self
  nodup := hw.nodup
  waiting p h := by
    refine ⟨hw.listed p h, fun hswept => hw.unswept p
      ((List.mem_cons.mp hswept).resolve_left Happening.noConfusion), fun hlate => ?_⟩
    obtain ⟨older, hsuffix, hbegun⟩ := (late_cons Happening.noConfusion).mp hlate
    exact hw.quiet (hsuffix.subset (List.mem_cons_of_mem _ hbegun))
  cover p h := (hw.cover p h).elim (fun hmem => Or.inr (Or.inr (Or.inl hmem)))
    fun hseen => Or.inr (Or.inl hseen)

/-- What a listener does leaves the rest of the walk as it is; what it rejects comes too late. -/
lemma During.step {rest : List ℕ} {w : World} (hw : During rest w) (compacting : Bool)
    (e : Event) : During rest (step compacting w e) := by
  have hconsistent := hw.toConsistent.step compacting e
  cases e with
  | resolve p =>
    rw [Promise.step] at hconsistent ⊢
    split_ifs at hconsistent ⊢ with hpending
    · refine { hconsistent with
        begun := hw.begun, nodup := hw.nodup, waiting := ?_, cover := ?_ }
      · intro q hq
        obtain ⟨hstate, hrest⟩ := hw.waiting q hq
        refine ⟨?_, hrest⟩
        rcases eq_or_ne q p with rfl | hne
        · rw [hstate] at hpending
          cases hpending
        · exact (Function.update_of_ne hne _ _).trans hstate
      · intro q hq
        rcases eq_or_ne q p with rfl | hne
        · have hbad := (Function.update_self q PromiseState.fulfilled w.state).symm.trans hq
          cases hbad
        · exact hw.cover q ((Function.update_of_ne hne _ _).symm.trans hq)
    · exact hw
  | reject p =>
    rw [Promise.step] at hconsistent ⊢
    split_ifs at hconsistent ⊢ with hpending
    · obtain ⟨list, cap, htrack, hlt, hlist⟩ := trackRejection_spec compacting
        (w := { w with state := Function.update w.state p .rejected,
                       log := .rejected p :: w.log }) hw.fits p
      rw [htrack] at hconsistent ⊢
      refine { hconsistent with
        begun := List.mem_cons_of_mem _ hw.begun, nodup := hw.nodup, waiting := ?_, cover := ?_ }
      · intro q hq
        obtain ⟨hstate, hswept, hontime⟩ := hw.waiting q hq
        have hne : q ≠ p := by
          rintro rfl
          rw [hstate] at hpending
          cases hpending
        refine ⟨(Function.update_of_ne hne _ _).trans hstate, fun h => hswept
          ((List.mem_cons.mp h).resolve_left Happening.noConfusion), fun h => hontime ?_⟩
        exact (late_cons fun heq => hne (Happening.rejected.inj heq).symm).mp h
      · intro q hq
        rcases eq_or_ne q p with rfl | hne
        · exact Or.inr (Or.inr (Or.inr ⟨w.log, List.suffix_refl _, hw.begun⟩))
        · rcases hw.cover q ((Function.update_of_ne hne _ _).symm.trans hq) with h | h | h | h
          · exact Or.inl (List.mem_cons_of_mem _ h)
          · exact Or.inr (Or.inl h)
          · exact Or.inr (Or.inr (Or.inl h))
          · exact Or.inr (Or.inr (Or.inr h.cons))
    · exact hw
  | observe p =>
    refine { hconsistent with
      begun := List.mem_cons_of_mem _ hw.begun, nodup := hw.nodup, waiting := ?_, cover := ?_ }
    · intro q hq
      obtain ⟨hstate, hswept, hontime⟩ := hw.waiting q hq
      exact ⟨hstate, fun h => hswept ((List.mem_cons.mp h).resolve_left Happening.noConfusion),
        fun h => hontime ((late_cons Happening.noConfusion).mp h)⟩
    · intro q hq
      rcases hw.cover q hq with h | h | h | h
      · exact Or.inl (List.mem_cons_of_mem _ h)
      · refine Or.inr (Or.inl ?_)
        rcases eq_or_ne q p with rfl | hne
        · exact Function.update_self _ _ _
        · exact (Function.update_of_ne hne _ _).trans h
      · exact Or.inr (Or.inr (Or.inl h))
      · exact Or.inr (Or.inr (Or.inr h.cons))
  | listen => exact { hw with }

lemma During.run {rest : List ℕ} {w : World} (hw : During rest w) (compacting : Bool)
    (events : List Event) : During rest (run compacting w events) := by
  induction events generalizing w with
  | nil => exact hw
  | cons e events ih => exact ih (hw.step compacting e)

/-- An entry that is observed is passed over. -/
lemma During.passOver {p : ℕ} {rest : List ℕ} {w : World} (hw : During (p :: rest) w)
    (hseen : w.hasHandler p = true) : During rest { w with log := .swept p :: w.log } where
  fits := hw.fits
  rejected q := by
    rw [List.mem_cons, or_iff_right (by exact Happening.noConfusion)]
    exact hw.rejected q
  observed q := by
    rw [List.mem_cons, or_iff_right (by exact Happening.noConfusion)]
    exact hw.observed q
  once q older h := hw.once q older ((suffix_cons_of_ne Happening.noConfusion).mp h)
  due q older h := hw.due q older ((suffix_cons_of_ne Happening.noConfusion).mp h)
  swept q older h hrej hobs := by
    rcases List.suffix_cons_iff.mp h with heq | h
    · obtain ⟨hq, rfl⟩ := List.cons.inj heq
      rw [Happening.swept.inj hq] at hobs
      exact absurd ((hw.observed p).mpr hseen) hobs
    · exact (hw.swept q older h hrej hobs).trans (List.suffix_cons _ _)
  sweptOfReported q h := List.mem_cons_of_mem _
    (hw.sweptOfReported q ((List.mem_cons.mp h).resolve_left Happening.noConfusion))
  onTime q h := by
    rw [late_cons Happening.noConfusion]
    rcases List.mem_cons.mp h with heq | h
    · obtain ⟨hstate, -, hontime⟩ := hw.waiting p List.mem_cons_self
      rw [Happening.swept.inj heq]
      exact ⟨hstate, hontime⟩
    · exact hw.onTime q h
  begun := List.mem_cons_of_mem _ hw.begun
  nodup := (List.nodup_cons.mp hw.nodup).2
  waiting q hq := by
    obtain ⟨hstate, hswept, hontime⟩ := hw.waiting q (List.mem_cons_of_mem _ hq)
    refine ⟨hstate, fun h => ?_, fun h => hontime ((late_cons Happening.noConfusion).mp h)⟩
    rcases List.mem_cons.mp h with heq | h
    · rw [Happening.swept.inj heq] at hq
      exact (List.nodup_cons.mp hw.nodup).1 hq
    · exact hswept h
  cover q hq := by
    rcases hw.cover q hq with h | h | h | h
    · exact Or.inl (List.mem_cons_of_mem _ h)
    · exact Or.inr (Or.inl h)
    · rcases List.mem_cons.mp h with rfl | h
      · exact Or.inr (Or.inl hseen)
      · exact Or.inr (Or.inr (Or.inl h))
    · exact Or.inr (Or.inr (Or.inr h.cons))

/-- An entry that is not observed is reported. -/
lemma During.report {p : ℕ} {rest : List ℕ} {w : World} (hw : During (p :: rest) w)
    (hseen : w.hasHandler p = false) :
    During rest { w with log := .reported p :: .swept p :: w.log } where
  fits := hw.fits
  rejected q := by
    rw [List.mem_cons, or_iff_right (by exact Happening.noConfusion), List.mem_cons,
      or_iff_right (by exact Happening.noConfusion)]
    exact hw.rejected q
  observed q := by
    rw [List.mem_cons, or_iff_right (by exact Happening.noConfusion), List.mem_cons,
      or_iff_right (by exact Happening.noConfusion)]
    exact hw.observed q
  once q older h := by
    rcases List.suffix_cons_iff.mp h with heq | h
    · obtain ⟨hq, rfl⟩ := List.cons.inj heq
      rw [Happening.reported.inj hq]
      intro hmem
      exact (hw.waiting p List.mem_cons_self).2.1 (hw.sweptOfReported p
        ((List.mem_cons.mp hmem).resolve_left Happening.noConfusion))
    · exact hw.once q older ((suffix_cons_of_ne Happening.noConfusion).mp h)
  due q older h := by
    rcases List.suffix_cons_iff.mp h with heq | h
    · obtain ⟨hq, rfl⟩ := List.cons.inj heq
      rw [Happening.reported.inj hq]
      refine ⟨List.mem_cons_of_mem _ ((hw.rejected p).mpr (hw.waiting p List.mem_cons_self).1),
        fun hmem => ?_⟩
      have hobs := (hw.observed p).mp ((List.mem_cons.mp hmem).resolve_left Happening.noConfusion)
      rw [hseen] at hobs
      cases hobs
    · exact hw.due q older ((suffix_cons_of_ne Happening.noConfusion).mp h)
  swept q older h hrej hobs := by
    rcases List.suffix_cons_iff.mp ((suffix_cons_of_ne Happening.noConfusion).mp h) with heq | h
    · obtain ⟨hq, rfl⟩ := List.cons.inj heq
      rw [Happening.swept.inj hq]
    · exact ((hw.swept q older h hrej hobs).trans (List.suffix_cons _ _)).trans
        (List.suffix_cons _ _)
  sweptOfReported q h := by
    rcases List.mem_cons.mp h with heq | h
    · rw [Happening.reported.inj heq]
      exact List.mem_cons_of_mem _ List.mem_cons_self
    · exact List.mem_cons_of_mem _ (List.mem_cons_of_mem _
        (hw.sweptOfReported q ((List.mem_cons.mp h).resolve_left Happening.noConfusion)))
  onTime q h := by
    rw [late_cons Happening.noConfusion, late_cons Happening.noConfusion]
    rcases List.mem_cons.mp ((List.mem_cons.mp h).resolve_left Happening.noConfusion)
      with heq | h
    · obtain ⟨hstate, -, hontime⟩ := hw.waiting p List.mem_cons_self
      rw [Happening.swept.inj heq]
      exact ⟨hstate, hontime⟩
    · exact hw.onTime q h
  begun := List.mem_cons_of_mem _ (List.mem_cons_of_mem _ hw.begun)
  nodup := (List.nodup_cons.mp hw.nodup).2
  waiting q hq := by
    obtain ⟨hstate, hswept, hontime⟩ := hw.waiting q (List.mem_cons_of_mem _ hq)
    refine ⟨hstate, fun h => ?_, fun h => hontime ?_⟩
    · rcases List.mem_cons.mp ((List.mem_cons.mp h).resolve_left Happening.noConfusion)
        with heq | h
      · rw [Happening.swept.inj heq] at hq
        exact (List.nodup_cons.mp hw.nodup).1 hq
      · exact hswept h
    · exact (late_cons Happening.noConfusion).mp ((late_cons Happening.noConfusion).mp h)
  cover q hq := by
    rcases hw.cover q hq with h | h | h | h
    · exact Or.inl (List.mem_cons_of_mem _ (List.mem_cons_of_mem _ h))
    · exact Or.inr (Or.inl h)
    · rcases List.mem_cons.mp h with rfl | h
      · exact Or.inl List.mem_cons_self
      · exact Or.inr (Or.inr (Or.inl h))
    · exact Or.inr (Or.inr (Or.inr h.cons.cons))

lemma During.entry {p : ℕ} {rest : List ℕ} {w : World} (hw : During (p :: rest) w)
    (compacting : Bool) (acts : ℕ → List Event) :
    During rest (sweepEntry compacting acts w p) := by
  rw [sweepEntry]
  dsimp only
  by_cases hdue : w.state p = .rejected ∧ w.hasHandler p = false
  · rw [if_pos hdue]
    split_ifs with hlistening
    · exact (hw.report hdue.2).run compacting (acts p)
    · exact hw.report hdue.2
  · rw [if_neg hdue]
    refine hw.passOver ?_
    have hstate := (hw.waiting p List.mem_cons_self).1
    exact (Bool.eq_false_or_eq_true _).resolve_right fun hseen => hdue ⟨hstate, hseen⟩

lemma During.walk {rest : List ℕ} {w : World} (hw : During rest w) (compacting : Bool)
    (acts : ℕ → List Event) : During [] (rest.foldl (sweepEntry compacting acts) w) := by
  induction rest generalizing w with
  | nil => exact hw
  | cons p rest ih => exact ih (hw.entry compacting acts)

/-- At the exit nothing waits. -/
lemma mainExit_during (compacting : Bool) (program : List Event) (acts : ℕ → List Event) :
    During [] (mainExit compacting program acts) :=
  ((before_init.run compacting program).detach).walk compacting acts

/-! ### Compaction -/

/-- The second list is the first without some entries that were seen. -/
inductive Thinned (seen : ℕ → Bool) : List ℕ → List ℕ → Prop
  | nil : Thinned seen [] []
  | keep (p : ℕ) {l l' : List ℕ} : Thinned seen l l' → Thinned seen (p :: l) (p :: l')
  | drop {p : ℕ} {l l' : List ℕ} : seen p = true → Thinned seen l l' → Thinned seen (p :: l) l'

section Thinned

variable {seen : ℕ → Bool} {l l' : List ℕ}

lemma Thinned.append (h : Thinned seen l l') (p : ℕ) :
    Thinned seen (l ++ [p]) (l' ++ [p]) := by
  induction h with
  | nil => exact .keep p .nil
  | keep q _ ih => exact .keep q ih
  | drop hseen _ ih => exact .drop hseen ih

lemma Thinned.filter (h : Thinned seen l l') :
    Thinned seen l (l'.filter fun p => !seen p) := by
  induction h with
  | nil => exact .nil
  | keep p _ ih =>
    cases hseen : seen p with
    | true =>
      rw [List.filter_cons_of_neg (by rw [hseen]; exact Bool.false_ne_true)]
      exact .drop hseen ih
    | false =>
      rw [List.filter_cons_of_pos (by rw [hseen]; rfl)]
      exact .keep p ih
  | drop hseen _ ih => exact .drop hseen ih

lemma Thinned.mono {seen' : ℕ → Bool} (h : Thinned seen l l')
    (hmono : ∀ p, seen p = true → seen' p = true) : Thinned seen' l l' := by
  induction h with
  | nil => exact .nil
  | keep p _ ih => exact .keep p ih
  | drop hseen _ ih => exact .drop (hmono _ hseen) ih

end Thinned

/-- Two worlds that differ in what compaction gave up. -/
structure Alike (w w' : World) : Prop where
  state : w.state = w'.state
  hasHandler : w.hasHandler = w'.hasHandler
  listening : w.listening = w'.listening
  fits : w.list.length ≤ w.cap
  fits' : w'.list.length ≤ w'.cap
  reports : reports w.log = reports w'.log
  thinned : Thinned w.hasHandler w.list w'.list

/-- **User code cannot tell** whether the list is compacted. -/
lemma Alike.step {w w' : World} (h : Alike w w') (e : Event) :
    Alike (step false w e) (step true w' e) := by
  cases e with
  | resolve p =>
    rw [Promise.step, Promise.step, h.state]
    split_ifs with hpending
    · exact { h with state := rfl }
    · exact h
  | reject p =>
    rw [Promise.step, Promise.step, h.state]
    split_ifs with hpending
    · obtain ⟨list, cap, htrack, hlt, hlist⟩ := trackRejection_spec false
        (w := { w with state := Function.update w'.state p .rejected,
                       log := .rejected p :: w.log }) h.fits p
      obtain ⟨list', cap', htrack', hlt', hlist'⟩ := trackRejection_spec true
        (w := { w' with state := Function.update w'.state p .rejected,
                        log := .rejected p :: w'.log }) h.fits' p
      rw [htrack, htrack']
      dsimp only at hlist hlist'
      have hthin : Thinned w.hasHandler list list' := by
        rcases hlist with rfl | ⟨hbad, -⟩
        · rcases hlist' with rfl | ⟨-, rfl⟩
          · exact h.thinned
          · rw [← h.hasHandler]
            exact h.thinned.filter
        · cases hbad
      exact { h with
        state := rfl
        fits := by
          rw [List.length_append, List.length_singleton]
          exact hlt
        fits' := by
          rw [List.length_append, List.length_singleton]
          exact hlt'
        reports := h.reports
        thinned := hthin.append p }
    · exact h
  | observe p =>
    rw [Promise.step, Promise.step, h.hasHandler]
    refine { h with hasHandler := rfl, thinned := h.thinned.mono fun q hq => ?_ }
    rw [← h.hasHandler]
    rcases eq_or_ne q p with rfl | hne
    · exact Function.update_self _ _ _
    · exact (Function.update_of_ne hne _ _).trans hq
  | listen => exact { h with listening := rfl }

lemma Alike.run {w w' : World} (h : Alike w w') (events : List Event) :
    Alike (run false w events) (run true w' events) := by
  induction events generalizing w w' with
  | nil => exact h
  | cons e events ih => exact ih (h.step e)

/-- What was observed stays observed. -/
lemma step_hasHandler (compacting : Bool) {w : World} (hfits : w.list.length ≤ w.cap) (e : Event)
    {p : ℕ} (h : w.hasHandler p = true) : (step compacting w e).hasHandler p = true := by
  cases e with
  | resolve q =>
    rw [step]
    split_ifs
    · exact h
    · exact h
  | reject q =>
    rw [step]
    split_ifs
    · obtain ⟨list, cap, htrack, -, -⟩ := trackRejection_spec compacting
        (w := { w with state := Function.update w.state q .rejected,
                       log := .rejected q :: w.log }) hfits q
      rw [htrack]
      exact h
    · exact h
  | observe q =>
    rcases eq_or_ne p q with rfl | hne
    · exact Function.update_self _ _ _
    · exact (Function.update_of_ne hne _ _).trans h
  | listen => exact h

lemma Alike.run_hasHandler {w w' : World} (h : Alike w w') (events : List Event) {p : ℕ}
    (hseen : w.hasHandler p = true) : (Promise.run false w events).hasHandler p = true := by
  induction events generalizing w w' with
  | nil => exact hseen
  | cons e events ih => exact ih (h.step e) (step_hasHandler false h.fits e hseen)

/-- An entry is walked in both. -/
lemma Alike.entry {w w' : World} (h : Alike w w') (acts : ℕ → List Event) (p : ℕ) :
    Alike (sweepEntry false acts w p) (sweepEntry true acts w' p) ∧
      ∀ q, w.hasHandler q = true → (sweepEntry false acts w p).hasHandler q = true := by
  rw [sweepEntry, sweepEntry]
  dsimp only
  have hreport : Alike { w with log := .reported p :: .swept p :: w.log }
      { w' with log := .reported p :: .swept p :: w'.log } :=
    { h with reports := congrArg (p :: ·) h.reports }
  by_cases hdue : w.state p = .rejected ∧ w.hasHandler p = false
  · have hdue' : w'.state p = .rejected ∧ w'.hasHandler p = false := by
      rw [← h.state, ← h.hasHandler]
      exact hdue
    rw [if_pos hdue, if_pos hdue']
    by_cases hlistening : w.listening = true
    · rw [if_pos hlistening, if_pos (h.listening ▸ hlistening)]
      exact ⟨hreport.run (acts p), fun q hq => hreport.run_hasHandler (acts p) hq⟩
    · rw [if_neg hlistening, if_neg (h.listening ▸ hlistening)]
      exact ⟨hreport, fun q hq => hq⟩
  · have hdue' : ¬ (w'.state p = .rejected ∧ w'.hasHandler p = false) := by
      rw [← h.state, ← h.hasHandler]
      exact hdue
    rw [if_neg hdue, if_neg hdue']
    exact ⟨{ h with reports := h.reports }, fun q hq => hq⟩

/-- The walks of the two lists. -/
lemma Alike.walk {rest rest' : List ℕ} {w w' : World} (h : Alike w w')
    (hthin : Thinned w.hasHandler rest rest') (acts : ℕ → List Event) :
    Alike (rest.foldl (sweepEntry false acts) w) (rest'.foldl (sweepEntry true acts) w') := by
  induction rest generalizing w w' rest' with
  | nil =>
    cases hthin
    exact h
  | cons p rest ih =>
    cases hthin with
    | keep _ hthin =>
      obtain ⟨hentry, hmono⟩ := h.entry acts p
      rw [List.foldl_cons, List.foldl_cons]
      exact ih hentry (hthin.mono hmono)
    | drop hseen hthin =>
      have hskip : sweepEntry false acts w p = { w with log := .swept p :: w.log } := by
        rw [sweepEntry]
        dsimp only
        refine if_neg fun hdue => ?_
        rw [hseen] at hdue
        cases hdue.2
      rw [List.foldl_cons, hskip]
      exact ih { h with reports := h.reports } hthin

/-- **Compaction changes no report.** -/
lemma reports_mainExit (program : List Event) (acts : ℕ → List Event) :
    reports (mainExit true program acts).log = reports (mainExit false program acts).log := by
  have hinit : Alike World.init World.init := ⟨rfl, rfl, rfl, le_rfl, le_rfl, rfl, .nil⟩
  have hrun := hinit.run program
  have hdetach : Alike (detach (run false World.init program))
      (detach (run true World.init program)) :=
    { hrun with fits := le_rfl, fits' := le_rfl, reports := hrun.reports, thinned := .nil }
  exact (hdetach.walk hrun.thinned acts).reports.symm

/-! ### The exit -/

/-- **When the reports are exact.**  In every run, whatever the program and the listener do, the
reports at the exit are exact if and only if no promise that is rejected during the sweep is left
unobserved; and compaction changes none of them. -/
theorem unhandled_exact_iff (program : List Event) (acts : ℕ → List Event) :
    (Exact (mainExit true program acts).log ↔ NoneLeft (mainExit true program acts).log) ∧
      reports (mainExit true program acts).log = reports (mainExit false program acts).log := by
  refine ⟨?_, reports_mainExit program acts⟩
  have hexit := mainExit_during true program acts
  constructor
  · intro hexact p hlate
    rcases hexact.all p hlate.rejected_mem with hreported | hobserved
    · exact absurd hlate (hexit.onTime p (hexit.sweptOfReported p hreported)).2
    · exact hobserved
  · intro hnone
    refine ⟨hexit.once, hexit.due, hexit.swept, fun p hp => ?_⟩
    rcases hexit.cover p ((hexit.rejected p).mp hp) with h | h | h | h
    · exact Or.inl h
    · exact Or.inr ((hexit.observed p).mpr h)
    · exact absurd h List.not_mem_nil
    · exact Or.inr (hnone p h)

/-- A listener that rejects a promise when it is called: the promise is never reported. -/
theorem unhandled_listener_rejects :
    ¬ Exact (mainExit true [.listen, .reject 0] fun _ => [.reject 1]).log := by
  intro hexact
  rcases hexact.all 1 (by decide) with h | h
  · exact absurd h (by decide)
  · exact absurd h (by decide)

end Torajs.Promise
