import Mathlib.Data.List.Nodup
import ToraJs.Cycle.RootBuffer

/-!
# The invariant of the root buffer

The entries that the sweep has not passed hold a block at most once, name no freed block, and
are the flagged blocks and the swept ones that wait for their entry to be passed.  Each step of
the program and of the collector keeps this, so every reachable state has it; outside the sweep
and the free step of a collection the whole buffer and the flags agree.
-/

namespace Torajs.Cycle.State

open HoledList

variable {B : Type*}

/-- The slots that the sweep has passed. -/
def watermark (s : State B) : ℕ :=
  match s.pass with
  | .sweep _ i _ => i
  | .free n => n
  | _ => 0

/-- The entries that the sweep has not passed. -/
def pending (s : State B) : List B := entries (s.slots.drop s.watermark)

/-- What holds of the length, of the deferred cells and of the entries pushed during the
collection, by the pass. -/
def PassOk (s : State B) : Prop :=
  match s.pass with
  | .idle => s.deferred = []
  | .mark n i => s.slots.length = n ∧ i ≤ n ∧ s.deferred = []
  | .scan n i => s.slots.length = n ∧ i ≤ n ∧ s.deferred = []
  | .sweep n i _ => n ≤ s.slots.length ∧ i ≤ n ∧
      ∀ p ∈ entries (s.slots.drop n), (s.header p).color ≠ .white ∧ ¬ s.Corpse p
  | .free n => n ≤ s.slots.length ∧ ∀ p ∈ entries (s.slots.drop n), ¬ s.Corpse p

/-- The invariant of the root buffer. -/
structure Inv (s : State B) : Prop where
  nodup : s.pending.Nodup
  allocated : ∀ p ∈ s.pending, s.allocated p = true
  flagged : ∀ p, s.allocated p = true →
    ((s.header p).buffered = true ↔ p ∈ s.pending ∧ ¬ s.Corpse p)
  corpse : ∀ p, s.Corpse p → s.allocated p = true ∧ (s.header p).color ≠ .white
  once : (s.deferred ++ (s.stack.filter fun e => e.2).map fun e => e.1).Nodup
  waiting : ∀ p, (p, false) ∈ s.stack →
    s.allocated p = true ∧ ((s.header p).color = .white ∨ s.Corpse p)
  pass : s.PassOk

/-- A cell that is not flagged is pending only as a corpse. -/
lemma Inv.not_mem_pending {s : State B} (h : s.Inv) {p : B} (hp : s.Held p)
    (hflag : (s.header p).buffered = false) : p ∉ s.pending := by
  intro hmem
  have := (h.flagged p hp.1).mpr ⟨hmem, hp.2.2⟩
  rw [hflag] at this
  exact absurd this (by decide)

/-- A held cell does not wait to be swept. -/
lemma Inv.not_waiting {s : State B} (h : s.Inv) {p : B} (hp : s.Held p) :
    (p, false) ∉ s.stack := by
  intro hmem
  rcases (h.waiting p hmem).2 with hwhite | hcorpse
  · exact hp.2.1 hwhite
  · exact hp.2.2 hcorpse

/-- The corpses depend on the pass and the deferred cells. -/
lemma corpse_congr {s s' : State B} (hpass : s'.pass = s.pass) (hdef : s'.deferred = s.deferred)
    (p : B) : s'.Corpse p ↔ s.Corpse p := by
  rw [Corpse, Corpse, stack, stack, hpass, hdef]

/-- A step of the program keeps the shape of the pass: it does not shorten the buffer during a
collection, and it pushes only cells that are not condemned. -/
lemma PassOk.frame {s s' : State B} (hok : s.PassOk) (hpass : s'.pass = s.pass)
    (hdef : s'.deferred = s.deferred)
    (hlen : s'.slots.length = s.slots.length ∨
      s.CallsOut ∧ (s.pass = .idle ∨ s.slots.length ≤ s'.slots.length))
    (hlate : ∀ n, s.watermark ≤ n → n ≤ s.slots.length → ∀ q ∈ entries (s'.slots.drop n),
      q ∈ entries (s.slots.drop n) ∧ ((s'.header q).color = .white → (s.header q).color = .white) ∨
        (s'.header q).color ≠ .white ∧ ¬ s.Corpse q) : s'.PassOk := by
  have hcorpse := corpse_congr hpass hdef
  unfold PassOk CallsOut watermark at *
  rw [hpass, hdef]
  cases hcase : s.pass with
  | idle => simpa only [hcase] using hok
  | mark n i =>
    simp only [hcase] at hok hlen
    have hlen := hlen.resolve_right fun h => h.1
    exact ⟨hlen.trans hok.1, hok.2⟩
  | scan n i =>
    simp only [hcase] at hok hlen
    have hlen := hlen.resolve_right fun h => h.1
    exact ⟨hlen.trans hok.1, hok.2⟩
  | sweep n i st =>
    simp only [hcase] at hok hlen hlate
    refine ⟨?_, hok.2.1, fun q hq => ?_⟩
    · rcases hlen with hlen | ⟨-, hlen | hlen⟩
      · exact hok.1.trans_eq hlen.symm
      · exact absurd hlen (by simp)
      · exact hok.1.trans hlen
    · rw [hcorpse]
      rcases hlate n hok.2.1 hok.1 q hq with ⟨hold, hwhite⟩ | hnew
      · exact ⟨fun h => (hok.2.2 q hold).1 (hwhite h), (hok.2.2 q hold).2⟩
      · exact hnew
  | free n =>
    simp only [hcase] at hok hlen hlate
    refine ⟨?_, fun q hq => ?_⟩
    · rcases hlen with hlen | ⟨-, hlen | hlen⟩
      · exact hok.1.trans_eq hlen.symm
      · exact absurd hlen (by simp)
      · exact hok.1.trans hlen
    · rw [hcorpse]
      rcases hlate n le_rfl hok.1 q hq with ⟨hold, -⟩ | hnew
      · exact hok.2 q hold
      · exact hnew.2

/-! ### Outside the sweep -/

/-- No collection sweeps or frees. -/
structure Quiet (s : State B) : Prop where
  watermark : s.watermark = 0
  stack : s.stack = []
  deferred : s.deferred = []

/-- The whole buffer: a block is in it at most once and exactly when it is flagged, and no entry
refers to a freed block. -/
structure Settled (s : State B) : Prop where
  nodup : (entries s.slots).Nodup
  allocated : ∀ p ∈ entries s.slots, s.allocated p = true
  flagged : ∀ p, s.allocated p = true → ((s.header p).buffered = true ↔ p ∈ entries s.slots)

lemma Quiet.pending {s : State B} (hq : s.Quiet) : s.pending = entries s.slots := by
  rw [State.pending, hq.watermark, List.drop_zero]

lemma Quiet.not_corpse {s : State B} (hq : s.Quiet) (p : B) : ¬ s.Corpse p := by
  simp [Corpse, hq.stack, hq.deferred]

/-- Outside the sweep the invariant is about the whole buffer. -/
lemma Quiet.inv_iff {s : State B} (hq : s.Quiet) : s.Inv ↔ s.Settled ∧ s.PassOk := by
  constructor
  · intro h
    refine ⟨⟨hq.pending ▸ h.nodup, hq.pending ▸ h.allocated, fun p hp => ?_⟩, h.pass⟩
    rw [h.flagged p hp, hq.pending, and_iff_left (hq.not_corpse p)]
  · rintro ⟨h, hpass⟩
    refine ⟨hq.pending ▸ h.nodup, hq.pending ▸ h.allocated, fun p hp => ?_,
      fun p hp => absurd hp (hq.not_corpse p), ?_, fun p hp => ?_, hpass⟩
    · rw [h.flagged p hp, hq.pending, and_iff_left (hq.not_corpse p)]
    · simp [hq.stack, hq.deferred]
    · rw [hq.stack] at hp
      cases hp

/-- No collection runs. -/
lemma PassOk.quiet_idle {s : State B} (h : s.PassOk) (hpass : s.pass = .idle) : s.Quiet :=
  ⟨by rw [watermark, hpass], by rw [stack, hpass], by simpa [PassOk, hpass] using h⟩

/-- A collection marks. -/
lemma PassOk.quiet_mark {s : State B} (h : s.PassOk) {n i : ℕ} (hpass : s.pass = .mark n i) :
    s.Quiet ∧ s.slots.length = n := by
  have hok : s.slots.length = n ∧ i ≤ n ∧ s.deferred = [] := by simpa [PassOk, hpass] using h
  exact ⟨⟨by rw [watermark, hpass], by rw [stack, hpass], hok.2.2⟩, hok.1⟩

/-- A collection scans. -/
lemma PassOk.quiet_scan {s : State B} (h : s.PassOk) {n i : ℕ} (hpass : s.pass = .scan n i) :
    s.Quiet ∧ s.slots.length = n := by
  have hok : s.slots.length = n ∧ i ≤ n ∧ s.deferred = [] := by simpa [PassOk, hpass] using h
  exact ⟨⟨by rw [watermark, hpass], by rw [stack, hpass], hok.2.2⟩, hok.1⟩

/-- The sweep passes slots of the buffer. -/
lemma PassOk.watermark_le {s : State B} (h : s.PassOk) : s.watermark ≤ s.slots.length := by
  unfold PassOk at h
  unfold watermark
  cases hcase : s.pass with
  | idle => exact Nat.zero_le _
  | mark n i => exact Nat.zero_le _
  | scan n i => exact Nat.zero_le _
  | sweep n i st =>
    simp only [hcase] at h
    exact h.2.1.trans h.1
  | free n =>
    simp only [hcase] at h
    exact h.1

/-! ### The steps of the program -/

variable [DecidableEq B]

/-- The changed header of a cell. -/
@[simp] lemma setHeader_self (s : State B) (p : B) (x : Header) :
    (s.setHeader p x).header p = x := by
  simp [setHeader]

/-- The headers of the other cells. -/
lemma setHeader_of_ne (s : State B) {p q : B} (hq : q ≠ p) (x : Header) :
    (s.setHeader p x).header q = s.header q := by
  simp [setHeader, hq]

/-- A header is changed in its count, or in its colour from one that is not white to another
such. -/
lemma Inv.setHeader {s : State B} (h : s.Inv) {p : B} {x : Header}
    (hflag : x.buffered = (s.header p).buffered)
    (hcolor : x.color = .white ↔ (s.header p).color = .white) : (s.setHeader p x).Inv := by
  have hbuffered : ∀ q, ((s.setHeader p x).header q).buffered = (s.header q).buffered := by
    intro q
    by_cases hq : q = p
    · rw [hq, setHeader_self, hflag]
    · rw [s.setHeader_of_ne hq]
  have hwhite : ∀ q, ((s.setHeader p x).header q).color = .white ↔
      (s.header q).color = .white := by
    intro q
    by_cases hq : q = p
    · rw [hq, setHeader_self, hcolor]
    · rw [s.setHeader_of_ne hq]
  refine ⟨h.nodup, h.allocated, fun q hq => ?_, fun q hq => ?_, h.once, fun q hq => ?_,
    h.pass.frame rfl rfl (Or.inl rfl) fun n _ _ q hq => Or.inl ⟨hq, (hwhite q).mp⟩⟩
  · rw [hbuffered]
    exact h.flagged q hq
  · rw [Ne, hwhite]
    exact h.corpse q hq
  · rw [hwhite]
    exact h.waiting q hq

/-- A cell that is freed, and none of the pending ones. -/
lemma Inv.release {s : State B} (h : s.Inv) {p : B} (hp : s.Held p)
    (hflag : (s.header p).buffered = false) : (s.release p).Inv := by
  have hne : ∀ q, q ≠ p → (s.release p).allocated q = s.allocated q := fun q hq => by
    simp [State.release, hq]
  have hself : (s.release p).allocated p = false := by simp [State.release]
  have hmem := h.not_mem_pending hp hflag
  refine ⟨h.nodup, fun q hq => ?_, fun q hq => ?_, fun q hq => ?_, h.once, fun q hq => ?_, h.pass⟩
  · rw [hne q fun heq => hmem (heq ▸ hq)]
    exact h.allocated q hq
  · have hqp : q ≠ p := fun heq => by
      rw [heq, hself] at hq
      exact absurd hq (by decide)
    rw [hne q hqp] at hq
    exact h.flagged q hq
  · rw [hne q fun heq => hp.2.2 (heq ▸ hq)]
    exact h.corpse q hq
  · rw [hne q fun heq => h.not_waiting hp (heq ▸ hq)]
    exact h.waiting q hq

/-- A cell that is allocated. -/
lemma Inv.alloc {s : State B} (h : s.Inv) {p : B} {x : Header} (hp : s.allocated p = false)
    (hflag : x.buffered = false) (hcolor : x.color = .black) :
    ({ s.setHeader p x with allocated := Function.update s.allocated p true } : State B).Inv := by
  have hmem : p ∉ s.pending := fun hq => absurd (h.allocated p hq) (by rw [hp]; decide)
  have hcorpse : ¬ s.Corpse p := fun hq => absurd (h.corpse p hq).1 (by rw [hp]; decide)
  have hwait : (p, false) ∉ s.stack := fun hq =>
    absurd (h.waiting p hq).1 (by rw [hp]; decide)
  have halloc : ∀ q, q ≠ p → Function.update s.allocated p true q = s.allocated q := fun q hq =>
    by simp [hq]
  refine ⟨h.nodup, fun q hq => ?_, fun q hq => ?_, fun q hq => ?_, h.once, fun q hq => ?_,
    h.pass.frame rfl rfl (Or.inl rfl) fun n _ _ q hq => ?_⟩
  · exact (halloc q fun heq => hmem (heq ▸ hq)).trans (h.allocated q hq)
  · by_cases hqp : q = p
    · subst hqp
      refine iff_of_false ?_ fun hq => hmem hq.1
      simp [hflag]
    · have hq : s.allocated q = true := (halloc q hqp).symm.trans hq
      simp only [s.setHeader_of_ne hqp]
      exact h.flagged q hq
  · have hqp : q ≠ p := fun heq => hcorpse (heq ▸ hq)
    simp only [s.setHeader_of_ne hqp, halloc q hqp]
    exact h.corpse q hq
  · have hqp : q ≠ p := fun heq => hwait (heq ▸ hq)
    simp only [s.setHeader_of_ne hqp, halloc q hqp]
    exact h.waiting q hq
  · by_cases hqp : q = p
    · subst hqp
      refine Or.inr ⟨?_, hcorpse⟩
      simp [hcolor]
    · simp only [s.setHeader_of_ne hqp]
      exact Or.inl ⟨hq, id⟩

omit [DecidableEq B] in
/-- A collection that begins. -/
lemma Inv.cycleCollect {s : State B} (h : s.Inv) : s.cycleCollect.Inv := by
  unfold State.cycleCollect
  split_ifs with hstop
  · exact h
  · have hidle : s.pass = .idle := by
      rw [not_or, inCollect] at hstop
      have hno := hstop.2
      cases hcase : s.pass <;> simp_all
    have hquiet := h.pass.quiet_idle hidle
    have hsettled := (hquiet.inv_iff.mp h).1
    have hquiet' : ({ s with pass := .mark s.slots.length 0 } : State B).Quiet :=
      ⟨rfl, rfl, hquiet.deferred⟩
    exact hquiet'.inv_iff.mpr ⟨⟨hsettled.nodup, hsettled.allocated, hsettled.flagged⟩, rfl,
      Nat.zero_le _, hquiet.deferred⟩

/-- A cell that is flagged and appended. -/
lemma Inv.push {s : State B} (h : s.Inv) {p : B} (hcalls : s.CallsOut) (hp : s.Held p)
    (hflag : (s.header p).buffered = false) :
    ({ s.setHeader p { s.header p with color := .purple, buffered := true } with
        slots := s.slots ++ [some p] } : State B).Inv := by
  have hmem := h.not_mem_pending hp hflag
  have hpending : ({ s.setHeader p { s.header p with color := .purple, buffered := true } with
      slots := s.slots ++ [some p] } : State B).pending = s.pending ++ [p] := by
    change entries ((s.slots ++ [some p]).drop s.watermark) = s.pending ++ [p]
    rw [List.drop_append_of_le_length h.pass.watermark_le]
    simp [State.pending]
  refine ⟨?_, fun q hq => ?_, fun q hq => ?_, fun q hq => ?_, h.once, fun q hq => ?_,
    h.pass.frame rfl rfl (Or.inr ⟨hcalls, Or.inr ?_⟩) fun n _ hn q hq => ?_⟩
  · rw [hpending]
    refine List.nodup_append.mpr ⟨h.nodup, by simp, ?_⟩
    rintro a ha b hb rfl
    exact hmem (List.mem_singleton.mp hb ▸ ha)
  · rw [hpending, List.mem_append, List.mem_singleton] at hq
    rcases hq with hq | rfl
    · exact h.allocated q hq
    · exact hp.1
  · rw [hpending, List.mem_append, List.mem_singleton]
    by_cases hqp : q = p
    · subst hqp
      have hheader := s.setHeader_self q { s.header q with color := .purple, buffered := true }
      rw [hheader]
      exact iff_of_true rfl ⟨Or.inr rfl, hp.2.2⟩
    · simp only [s.setHeader_of_ne hqp, hqp, or_false]
      exact h.flagged q hq
  · have hqp : q ≠ p := fun heq => hp.2.2 (heq ▸ hq)
    simp only [s.setHeader_of_ne hqp]
    exact h.corpse q hq
  · have hqp : q ≠ p := fun heq => h.not_waiting hp (heq ▸ hq)
    simp only [s.setHeader_of_ne hqp]
    exact h.waiting q hq
  · rw [List.length_append]
    exact Nat.le_add_right _ _
  · by_cases hqp : q = p
    · subst hqp
      refine Or.inr ⟨?_, hp.2.2⟩
      simp
    · simp only [s.setHeader_of_ne hqp]
      change q ∈ entries ((s.slots ++ [some p]).drop n) at hq
      rw [List.drop_append_of_le_length hn, entries_append, List.mem_append] at hq
      exact Or.inl ⟨hq.resolve_right fun hq => hqp (by simpa using hq), id⟩

/-- A cell that is pushed. -/
lemma Inv.cycleBuffer {s : State B} (h : s.Inv) {p : B} (hcalls : s.CallsOut) (hp : s.Held p) :
    (s.cycleBuffer p).Inv := by
  unfold State.cycleBuffer
  split_ifs with hflag hwalk
  · exact h
  · exact h
  · have hflag : (s.header p).buffered = false := by simpa using hflag
    have hpushed : ({ s.setHeader p { s.header p with color := .purple, buffered := true } with
        slots := s.slots ++ [some p] } : State B).Inv := h.push hcalls hp hflag
    dsimp only
    split_ifs
    · exact hpushed.cycleCollect
    · exact hpushed

/-- The slots after a flagged cell is scrubbed. -/
def scrubbed (s : State B) (p : B) : List (Option B) :=
  if s.inCollect then clearLast p s.slots else trimTail (clearLast p s.slots)

/-- A pending cell is scrubbed from the pending entries. -/
lemma entries_scrubbed {s : State B} {p : B} (hmem : p ∈ s.pending) :
    entries ((s.scrubbed p).drop s.watermark) =
      entries (clearLast p (s.slots.drop s.watermark)) := by
  rw [scrubbed]
  split_ifs with hcollect
  · rw [drop_clearLast (mem_entries.mp hmem)]
  · have hwater : s.watermark = 0 := by
      unfold inCollect at hcollect
      unfold watermark
      cases hcase : s.pass <;> simp_all
    rw [hwater, List.drop_zero, List.drop_zero, entries_trimTail]

/-- A cell that is scrubbed. -/
lemma Inv.scrub {s : State B} (h : s.Inv) {p : B} (hcalls : s.CallsOut) (hmem : p ∈ s.pending)
    (hcorpse : ¬ s.Corpse p) :
    ({ s.setHeader p { s.header p with buffered := false } with
        slots := s.scrubbed p } : State B).Inv := by
  obtain ⟨hnodup, hiff⟩ := entries_clearLast hmem h.nodup
  have hpending : ({ s.setHeader p { s.header p with buffered := false } with
      slots := s.scrubbed p } : State B).pending =
        entries (clearLast p (s.slots.drop s.watermark)) := entries_scrubbed hmem
  have hcolor : ∀ q, ((s.setHeader p { s.header p with buffered := false }).header q).color =
      (s.header q).color := by
    intro q
    by_cases hqp : q = p
    · rw [hqp, setHeader_self]
    · rw [s.setHeader_of_ne hqp]
  have hwithin : Within (s.scrubbed p) s.slots := by
    rw [scrubbed]
    split_ifs
    · exact within_clearLast p s.slots
    · exact fun i a hi => within_clearLast p s.slots i a (within_trimTail _ i a hi)
  refine ⟨?_, fun q hq => ?_, fun q hq => ?_, fun q hq => ?_, h.once, fun q hq => ?_,
    h.pass.frame rfl rfl (Or.inr ⟨hcalls, ?_⟩) fun n _ hn q hq => Or.inl ?_⟩
  · rw [hpending]
    exact hnodup
  · rw [hpending, hiff] at hq
    exact h.allocated q hq.1
  · rw [hpending, hiff]
    by_cases hqp : q = p
    · subst hqp
      have hheader := s.setHeader_self q { s.header q with buffered := false }
      rw [hheader]
      exact iff_of_false (by simp) fun hq => hq.1.2 rfl
    · have hheader := s.setHeader_of_ne hqp { s.header p with buffered := false }
      rw [hheader, and_iff_left hqp]
      exact h.flagged q hq
  · rw [Ne, hcolor]
    exact h.corpse q hq
  · rw [hcolor]
    exact h.waiting q hq
  · by_cases hcollect : s.inCollect = true
    · right
      change s.slots.length ≤ (s.scrubbed p).length
      rw [scrubbed, if_pos hcollect, length_clearLast]
    · left
      unfold inCollect at hcollect
      cases hcase : s.pass <;> simp_all
  · exact ⟨hwithin.entries_drop hq, by rw [hcolor]; exact id⟩

/-- A cell that is to be scrubbed. -/
lemma Inv.cycleUnbuffer {s : State B} (h : s.Inv) {p : B} (hcalls : s.CallsOut)
    (hp : s.allocated p = true) : (s.cycleUnbuffer p).Inv := by
  unfold State.cycleUnbuffer
  split_ifs with hflag
  · exact h
  · have hflag : (s.header p).buffered = true := by simpa using hflag
    obtain ⟨hmem, hcorpse⟩ := (h.flagged p hp).mp hflag
    have hin : some p ∈ s.slots := List.mem_of_mem_drop (mem_entries.mp hmem)
    dsimp only
    rw [if_pos (show some p ∈ (s.setHeader p _).slots from hin)]
    exact h.scrub hcalls hmem hcorpse

/-! ### The steps of the first two passes -/

omit [DecidableEq B] in
/-- A walk keeps a settled buffer. -/
lemma Settled.walked {s s' : State B} (h : s.Settled) (hw : s.Walked s') : s'.Settled := by
  refine ⟨hw.slots ▸ h.nodup, fun p hp => ?_, fun p hp => ?_⟩
  · rw [hw.allocated]
    exact h.allocated p (hw.slots ▸ hp)
  · rw [hw.allocated] at hp
    rw [hw.flags, hw.slots]
    exact h.flagged p hp

/-- An entry whose cell is freed. -/
lemma Settled.markFree {s : State B} (h : s.Settled) {i : ℕ} {p : B}
    (hi : s.slots[i]? = some (some p)) (pass : Pass B) :
    ({ s.release p with slots := s.slots.set i none, pass := pass } : State B).Settled := by
  obtain ⟨hnodup, hiff⟩ := entries_set_none hi h.nodup
  have halloc : ∀ q, q ≠ p → (s.release p).allocated q = s.allocated q := fun q hq => by
    simp [State.release, hq]
  refine ⟨hnodup, fun q hq => ?_, fun q hq => ?_⟩
  · obtain ⟨hq, hne⟩ := (hiff q).mp hq
    exact (halloc q hne).trans (h.allocated q hq)
  · have hne : q ≠ p := by
      rintro rfl
      simp [State.release] at hq
    have hq : s.allocated q = true := (halloc q hne).symm.trans hq
    exact (h.flagged q hq).trans ((hiff q).trans (and_iff_left hne)).symm

omit [DecidableEq B] in
/-- A settled buffer in a pass that does not sweep. -/
lemma Settled.inv {s : State B} (h : s.Settled) {pass : Pass B}
    (hquiet : ({ s with pass := pass } : State B).Quiet)
    (hok : ({ s with pass := pass } : State B).PassOk) : ({ s with pass := pass } : State B).Inv :=
  hquiet.inv_iff.mpr ⟨⟨h.nodup, h.allocated, h.flagged⟩, hok⟩

omit [DecidableEq B] in
/-- The sweep begins over a settled buffer: nothing has been pushed yet. -/
lemma Settled.sweep {s : State B} (h : s.Settled) {n : ℕ} (hdef : s.deferred = [])
    (hlen : s.slots.length = n) : ({ s with pass := .sweep n 0 [] } : State B).Inv := by
  refine h.inv ⟨rfl, rfl, hdef⟩ ⟨hlen.ge, Nat.zero_le _, fun p hp => ?_⟩
  change p ∈ entries (s.slots.drop n) at hp
  rw [List.drop_of_length_le hlen.le] at hp
  cases hp

/-! ### The steps of the sweep and of the free step -/

omit [DecidableEq B] in
/-- The slot that the sweep passes next, and the entries behind it. -/
lemma pending_eq {s : State B} {n i : ℕ} {st : List (B × Bool)} (hpass : s.pass = .sweep n i st)
    {x : Option B} (hx : s.slots[i]? = some x) :
    s.pending = entries (x :: s.slots.drop (i + 1)) := by
  obtain ⟨hlt, heq⟩ := List.getElem?_eq_some_iff.mp hx
  rw [State.pending, watermark, hpass, ← heq]
  exact congrArg entries (List.drop_eq_getElem_cons hlt)

omit [DecidableEq B] in
/-- The sweep has passed an empty slot. -/
lemma Inv.sweepNext {s : State B} (h : s.Inv) {n i : ℕ} (hpass : s.pass = .sweep n i [])
    (hi : i < n) (hx : s.slots[i]? = some none) :
    ({ s with pass := .sweep n (i + 1) [] } : State B).Inv := by
  have hpending : ({ s with pass := .sweep n (i + 1) [] } : State B).pending = s.pending := by
    rw [pending_eq hpass hx, entries_cons_none]
    rfl
  have hstack : s.stack = [] := by rw [stack, hpass]
  have hcorpse : ∀ p, ({ s with pass := .sweep n (i + 1) [] } : State B).Corpse p ↔
      s.Corpse p := fun p => by
    simp [Corpse, stack, hpass]
  have hok := h.pass
  simp only [PassOk, hpass] at hok
  refine ⟨hpending ▸ h.nodup, hpending ▸ h.allocated, fun p hp => ?_,
    fun p hp => h.corpse p ((hcorpse p).mp hp), ?_, fun p hp => (nomatch hp),
    hok.1, hi, fun p hp => ?_⟩
  · rw [hpending, hcorpse]
    exact h.flagged p hp
  · have honce := h.once
    rw [hstack] at honce
    exact honce
  · rw [hcorpse]
    exact hok.2.2 p hp

/-- The sweep has cleared the flag of an entry. -/
lemma Inv.sweepRoot {s : State B} (h : s.Inv) {n i : ℕ} {p : B}
    (hpass : s.pass = .sweep n i []) (hi : i < n) (hx : s.slots[i]? = some (some p))
    {st : List (B × Bool)}
    (hst : st = [] ∨ (s.header p).color = .white ∧ st = [(p, false)]) :
    ({ s.setHeader p { s.header p with buffered := false } with
        pass := .sweep n (i + 1) st } : State B).Inv := by
  have hpending := pending_eq hpass hx
  rw [entries_cons_some] at hpending
  have hstack : s.stack = [] := by rw [stack, hpass]
  have hcorpse : ∀ q, ({ s.setHeader p { s.header p with buffered := false } with
      pass := .sweep n (i + 1) st } : State B).Corpse q ↔ s.Corpse q := fun q => by
    rcases hst with rfl | ⟨-, rfl⟩ <;> simp [Corpse, stack, hpass, State.setHeader]
  have hcolor : ∀ q, ((s.setHeader p { s.header p with buffered := false }).header q).color =
      (s.header q).color := by
    intro q
    by_cases hqp : q = p
    · rw [hqp, setHeader_self]
    · rw [s.setHeader_of_ne hqp]
  have hnodup := h.nodup
  rw [hpending, List.nodup_cons] at hnodup
  have hmem : p ∈ s.pending := by
    rw [hpending]
    exact List.mem_cons_self
  have hok := h.pass
  simp only [PassOk, hpass] at hok
  refine ⟨hnodup.2, fun q hq => ?_, fun q hq => ?_, fun q hq => ?_, ?_, fun q hq => ?_,
    hok.1, hi, fun q hq => ?_⟩
  · refine h.allocated q ?_
    rw [hpending]
    exact List.mem_cons_of_mem p hq
  · rw [hcorpse]
    by_cases hqp : q = p
    · subst hqp
      have hheader := s.setHeader_self q { s.header q with buffered := false }
      rw [hheader]
      exact iff_of_false (by simp) fun hq => hnodup.1 hq.1
    · have hheader := s.setHeader_of_ne hqp { s.header p with buffered := false }
      rw [hheader, h.flagged q hq, hpending, List.mem_cons, or_iff_right hqp]
      rfl
  · rw [Ne, hcolor]
    exact h.corpse q ((hcorpse q).mp hq)
  · have honce := h.once
    rw [hstack] at honce
    rcases hst with rfl | ⟨-, rfl⟩ <;> exact honce
  · rcases hst with rfl | ⟨hwhite, rfl⟩
    · cases hq
    · obtain rfl : q = p := by simpa [stack] using hq
      exact ⟨h.allocated q hmem, Or.inl ((hcolor q).trans hwhite)⟩
  · rw [hcorpse, hcolor]
    exact hok.2.2 q hq

omit [DecidableEq B] in
/-- The sweep has skipped a cell that is no longer white. -/
lemma Inv.sweepSkip {s : State B} (h : s.Inv) {n i : ℕ} {p : B} {st : List (B × Bool)}
    (hpass : s.pass = .sweep n i ((p, false) :: st)) :
    ({ s with pass := .sweep n i st } : State B).Inv := by
  have hstack : s.stack = (p, false) :: st := by rw [stack, hpass]
  have hcorpse : ∀ q, ({ s with pass := .sweep n i st } : State B).Corpse q ↔ s.Corpse q :=
    fun q => by simp [Corpse, stack, hpass]
  have hpending : ({ s with pass := .sweep n i st } : State B).pending = s.pending := by
    simp [State.pending, watermark, hpass]
  have hok := h.pass
  simp only [PassOk, hpass] at hok
  refine ⟨hpending ▸ h.nodup, hpending ▸ h.allocated, fun q hq => ?_,
    fun q hq => h.corpse q ((hcorpse q).mp hq), ?_, fun q hq => ?_, hok.1, hok.2.1,
    fun q hq => ?_⟩
  · rw [hpending, hcorpse]
    exact h.flagged q hq
  · have honce := h.once
    rw [hstack] at honce
    exact honce
  · rw [hcorpse]
    exact h.waiting q (hstack ▸ List.mem_cons_of_mem _ hq)
  · rw [hcorpse]
    exact hok.2.2 q hq

/-- The sweep has opened a white cell: it is a corpse. -/
lemma Inv.sweepOpen {s : State B} (h : s.Inv) {n i : ℕ} {p : B} {st : List (B × Bool)}
    {kids : List B} (hpass : s.pass = .sweep n i ((p, false) :: st))
    (hwhite : (s.header p).color = .white)
    (hkids : ∀ q ∈ kids, q ≠ p ∧ s.allocated q = true ∧ (s.header q).color = .white) :
    ({ s.setHeader p { s.header p with color := .black, buffered := false } with
        pass := .sweep n i (kids.map (fun q => (q, false)) ++ (p, true) :: st) } :
      State B).Inv := by
  have hstack : s.stack = (p, false) :: st := by rw [stack, hpass]
  have hnot : ¬ s.Corpse p := fun hp => (h.corpse p hp).2 hwhite
  have hcorpse : ∀ q, ({ s.setHeader p { s.header p with color := .black, buffered := false } with
      pass := .sweep n i (kids.map (fun q => (q, false)) ++ (p, true) :: st) } :
        State B).Corpse q ↔ q = p ∨ s.Corpse q := fun q => by
    simp only [Corpse, stack, hpass, State.setHeader, List.mem_append, List.mem_map,
      Prod.mk.injEq, Bool.false_eq_true, and_false, exists_false, List.mem_cons, and_true,
      Bool.true_eq_false, false_or]
    tauto
  have hpending : ({ s.setHeader p { s.header p with color := .black, buffered := false } with
      pass := .sweep n i (kids.map (fun q => (q, false)) ++ (p, true) :: st) } :
        State B).pending = s.pending := by
    simp [State.pending, watermark, hpass, State.setHeader]
  have hp : s.allocated p = true := (h.waiting p (by rw [hstack]; exact List.mem_cons_self)).1
  have hok := h.pass
  simp only [PassOk, hpass] at hok
  refine ⟨hpending ▸ h.nodup, hpending ▸ h.allocated, fun q hq => ?_, fun q hq => ?_, ?_,
    fun q hq => ?_, hok.1, hok.2.1, fun q hq => ?_⟩
  · rw [hpending, hcorpse]
    by_cases hqp : q = p
    · subst hqp
      have hheader := s.setHeader_self q { s.header q with color := .black, buffered := false }
      rw [hheader]
      exact iff_of_false (by simp) fun hq => hq.2 (Or.inl rfl)
    · have hheader :=
        s.setHeader_of_ne hqp { s.header p with color := .black, buffered := false }
      rw [hheader, or_iff_right hqp]
      exact h.flagged q hq
  · by_cases hqp : q = p
    · subst hqp
      have hheader := s.setHeader_self q { s.header q with color := .black, buffered := false }
      rw [hheader]
      exact ⟨hp, by simp⟩
    · have hheader :=
        s.setHeader_of_ne hqp { s.header p with color := .black, buffered := false }
      rw [hheader]
      exact h.corpse q (((hcorpse q).mp hq).resolve_left hqp)
  · have honce := h.once
    rw [hstack] at honce
    have hstack' : ({ s.setHeader p { s.header p with color := .black, buffered := false } with
        pass := .sweep n i (kids.map (fun q => (q, false)) ++ (p, true) :: st) } :
          State B).stack.filter (fun e => e.2) = (p, true) :: st.filter fun e => e.2 := by
      simp [stack, List.filter_map, Function.comp_def]
    rw [hstack', List.map_cons]
    refine List.nodup_middle.mpr (List.nodup_cons.mpr ⟨fun hp => hnot ?_, honce⟩)
    rw [List.mem_append, List.mem_map] at hp
    rcases hp with hp | ⟨⟨q, b⟩, hq, rfl⟩
    · exact Or.inl hp
    · obtain ⟨hq, hb⟩ := List.mem_filter.mp hq
      simp only at hb
      subst hb
      exact Or.inr (hstack ▸ List.mem_cons_of_mem _ hq)
  · rw [hcorpse]
    by_cases hqp : q = p
    · subst hqp
      exact ⟨hp, Or.inr (Or.inl rfl)⟩
    · have hheader :=
        s.setHeader_of_ne hqp { s.header p with color := .black, buffered := false }
      rw [hheader]
      rcases List.mem_append.mp (show (q, false) ∈ kids.map (fun q => (q, false)) ++ (p, true) :: st
        from hq) with hq | hq
      · obtain ⟨q', hq', heq⟩ := List.mem_map.mp hq
        obtain rfl : q' = q := (Prod.mk.injEq _ _ _ _ ▸ heq).1
        exact ⟨(hkids q' hq').2.1, Or.inl (hkids q' hq').2.2⟩
      · have hq : (q, false) ∈ st := (List.mem_cons.mp hq).resolve_left (by simp)
        have hwait := h.waiting q (hstack ▸ List.mem_cons_of_mem _ hq)
        exact ⟨hwait.1, hwait.2.imp_right Or.inr⟩
  · have hold := hok.2.2 q hq
    have hqp : q ≠ p := fun heq => hold.1 (heq ▸ hwhite)
    have hheader :=
      s.setHeader_of_ne hqp { s.header p with color := .black, buffered := false }
    rw [hcorpse, hheader, or_iff_right hqp]
    exact hold

omit [DecidableEq B] in
/-- The sweep has closed a cell, whose free is deferred. -/
lemma Inv.sweepClose {s : State B} (h : s.Inv) {n i : ℕ} {p : B} {st : List (B × Bool)}
    (hpass : s.pass = .sweep n i ((p, true) :: st)) :
    ({ s with pass := .sweep n i st, deferred := s.deferred ++ [p] } : State B).Inv := by
  have hstack : s.stack = (p, true) :: st := by rw [stack, hpass]
  have hcorpse : ∀ q, ({ s with pass := .sweep n i st, deferred := s.deferred ++ [p] } :
      State B).Corpse q ↔ s.Corpse q := fun q => by
    simp only [Corpse, stack, hpass, List.mem_append, List.mem_cons, Prod.mk.injEq,
      and_true]
    tauto
  have hpending : ({ s with pass := .sweep n i st, deferred := s.deferred ++ [p] } :
      State B).pending = s.pending := by
    simp [State.pending, watermark, hpass]
  have hok := h.pass
  simp only [PassOk, hpass] at hok
  refine ⟨hpending ▸ h.nodup, hpending ▸ h.allocated, fun q hq => ?_,
    fun q hq => h.corpse q ((hcorpse q).mp hq), ?_, fun q hq => ?_, hok.1, hok.2.1,
    fun q hq => ?_⟩
  · rw [hpending, hcorpse]
    exact h.flagged q hq
  · have honce := h.once
    rw [hstack] at honce
    simpa [stack] using honce
  · rw [hcorpse]
    exact h.waiting q (hstack ▸ List.mem_cons_of_mem _ hq)
  · rw [hcorpse]
    exact hok.2.2 q hq

omit [DecidableEq B] in
/-- The sweep has passed every slot. -/
lemma Inv.sweepDone {s : State B} (h : s.Inv) {n : ℕ} (hpass : s.pass = .sweep n n []) :
    ({ s with pass := .free n } : State B).Inv := by
  have hstack : s.stack = [] := by rw [stack, hpass]
  have hcorpse : ∀ q, ({ s with pass := .free n } : State B).Corpse q ↔ s.Corpse q :=
    fun q => by simp [Corpse, stack, hpass]
  have hpending : ({ s with pass := .free n } : State B).pending = s.pending := by
    simp [State.pending, watermark, hpass]
  have hok := h.pass
  simp only [PassOk, hpass] at hok
  refine ⟨hpending ▸ h.nodup, hpending ▸ h.allocated, fun q hq => ?_,
    fun q hq => h.corpse q ((hcorpse q).mp hq), ?_, fun q hq => (nomatch hq), hok.1,
    fun q hq => ?_⟩
  · rw [hpending, hcorpse]
    exact h.flagged q hq
  · have honce := h.once
    rw [hstack] at honce
    exact honce
  · rw [hcorpse]
    exact (hok.2.2 q hq).2

/-- A swept cell is freed. -/
lemma Inv.freeCorpse {s : State B} (h : s.Inv) {n : ℕ} {p : B} {ds : List B}
    (hpass : s.pass = .free n) (hdef : s.deferred = p :: ds) :
    ({ s.release p with deferred := ds } : State B).Inv := by
  have hstack : s.stack = [] := by rw [stack, hpass]
  have honce := h.once
  rw [hdef, hstack, List.filter_nil, List.map_nil, List.append_nil, List.nodup_cons] at honce
  have hold : ∀ q, s.Corpse q ↔ q = p ∨ q ∈ ds := fun q => by
    simp [Corpse, hstack, hdef]
  have hcorpse : ∀ q, ({ s.release p with deferred := ds } : State B).Corpse q ↔ q ∈ ds :=
    fun q => by simp [Corpse, stack, State.release, hpass]
  have halloc : ∀ q, q ≠ p → (s.release p).allocated q = s.allocated q := fun q hq => by
    simp [State.release, hq]
  have hok := h.pass
  simp only [PassOk, hpass] at hok
  have hwater : s.watermark = n := by rw [watermark, hpass]
  have hnot : ∀ q ∈ s.pending, q ≠ p := by
    rintro q hq rfl
    rw [State.pending, hwater] at hq
    exact hok.2 q hq ((hold q).mpr (Or.inl rfl))
  refine ⟨h.nodup, fun q hq => (halloc q (hnot q hq)).trans (h.allocated q hq), fun q hq => ?_,
    fun q hq => ?_, ?_, fun q hq => ?_, ?_⟩
  · have hqp : q ≠ p := by
      rintro rfl
      simp [State.release] at hq
    have hq : s.allocated q = true := (halloc q hqp).symm.trans hq
    rw [hcorpse]
    refine (h.flagged q hq).trans (and_congr_right' (not_congr ?_))
    rw [hold, or_iff_right hqp]
  · have hq := (hcorpse q).mp hq
    have hqp : q ≠ p := fun heq => honce.1 (heq ▸ hq)
    have := h.corpse q ((hold q).mpr (Or.inr hq))
    exact ⟨(halloc q hqp).trans this.1, this.2⟩
  · have hstack' : ({ s.release p with deferred := ds } : State B).stack = [] := hstack
    rw [hstack']
    simpa using honce.2
  · have hstack' : ({ s.release p with deferred := ds } : State B).stack = [] := hstack
    rw [hstack'] at hq
    cases hq
  · have hpass' : ({ s.release p with deferred := ds } : State B).pass = .free n := hpass
    unfold PassOk
    rw [hpass']
    exact ⟨hok.1, fun q hq hin => hok.2 q hq ((hold q).mpr (Or.inr ((hcorpse q).mp hin)))⟩

omit [DecidableEq B] in
/-- The collection ends with the entries that were pushed during it. -/
lemma Inv.freeDone {s : State B} (h : s.Inv) {n : ℕ} (threshold : ℕ) (hpass : s.pass = .free n)
    (hdef : s.deferred = []) :
    ({ s.compactFrom n with threshold := threshold, pass := .idle } : State B).Inv := by
  have hstack : s.stack = [] := by rw [stack, hpass]
  have hcorpse : ∀ q, ¬ s.Corpse q := fun q => by simp [Corpse, hstack, hdef]
  have hpending : entries ((s.slots.drop n).filter Option.isSome) = s.pending := by
    rw [entries_filter_isSome, State.pending, watermark, hpass]
  have hquiet : ({ s.compactFrom n with threshold := threshold, pass := .idle } :
      State B).Quiet := ⟨rfl, rfl, hdef⟩
  refine hquiet.inv_iff.mpr ⟨⟨?_, fun q hq => ?_, fun q hq => ?_⟩, hdef⟩
  · exact hpending ▸ h.nodup
  · exact h.allocated q (hpending ▸ hq)
  · refine (h.flagged q hq).trans ((and_iff_left (hcorpse q)).trans ?_)
    rw [← hpending]
    rfl

/-! ### Runs -/

/-- Each step of the program and of the collector keeps the invariant. -/
theorem Step.inv {s s' : State B} (h : s.Inv) (hstep : Step s s') : s'.Inv := by
  cases hstep with
  | alloc p x _ hp hflag hcolor => exact h.alloc hp hflag hcolor
  | touch p x _ _ hflag hcolor => exact h.setHeader hflag (by rw [hcolor])
  | push p hcalls hp _ => exact h.cycleBuffer hcalls hp
  | unbuffer p hcalls hp => exact h.cycleUnbuffer hcalls hp
  | drop p _ hp hflag => exact h.release hp hflag
  | park p _ hp _ _ => exact h.setHeader rfl (iff_of_false (by simp) hp.2.1)
  | collect _ => exact h.cycleCollect
  | @markNext n i x hpass hi _ _ =>
    obtain ⟨hquiet, hlen⟩ := h.pass.quiet_mark hpass
    exact (hquiet.inv_iff.mp h).1.inv ⟨rfl, rfl, hquiet.deferred⟩ ⟨hlen, hi, hquiet.deferred⟩
  | @markFree n i p hpass hi hx _ _ _ =>
    obtain ⟨hquiet, hlen⟩ := h.pass.quiet_mark hpass
    have hquiet' : ({ s.release p with slots := s.slots.set i none, pass := .mark n (i + 1) } :
        State B).Quiet := ⟨rfl, rfl, hquiet.deferred⟩
    exact hquiet'.inv_iff.mpr ⟨(hquiet.inv_iff.mp h).1.markFree hx _,
      (List.length_set ..).trans hlen, hi, hquiet.deferred⟩
  | @markRoot s' n i p hpass hi _ _ _ _ hw =>
    obtain ⟨hquiet, hlen⟩ := h.pass.quiet_mark hpass
    have hdef := hw.deferred.trans hquiet.deferred
    exact ((hquiet.inv_iff.mp h).1.walked hw).inv ⟨rfl, rfl, hdef⟩
      ⟨(congrArg List.length hw.slots).trans hlen, hi, hdef⟩
  | @markDone n hpass =>
    obtain ⟨hquiet, hlen⟩ := h.pass.quiet_mark hpass
    exact (hquiet.inv_iff.mp h).1.inv ⟨rfl, rfl, hquiet.deferred⟩
      ⟨hlen, Nat.zero_le _, hquiet.deferred⟩
  | @scanNext n i hpass hi _ =>
    obtain ⟨hquiet, hlen⟩ := h.pass.quiet_scan hpass
    exact (hquiet.inv_iff.mp h).1.inv ⟨rfl, rfl, hquiet.deferred⟩ ⟨hlen, hi, hquiet.deferred⟩
  | @scanRoot s' n i p hpass hi _ hw =>
    obtain ⟨hquiet, hlen⟩ := h.pass.quiet_scan hpass
    have hdef := hw.deferred.trans hquiet.deferred
    exact ((hquiet.inv_iff.mp h).1.walked hw).inv ⟨rfl, rfl, hdef⟩
      ⟨(congrArg List.length hw.slots).trans hlen, hi, hdef⟩
  | @scanDone n hpass =>
    obtain ⟨hquiet, hlen⟩ := h.pass.quiet_scan hpass
    exact (hquiet.inv_iff.mp h).1.sweep hquiet.deferred hlen
  | sweepNext hpass hi hx => exact h.sweepNext hpass hi hx
  | @sweepRoot n i p hpass hi hx =>
    refine h.sweepRoot hpass hi hx ?_
    split_ifs with hwhite
    · exact Or.inr ⟨hwhite.1, rfl⟩
    · exact Or.inl rfl
  | sweepSkip hpass _ => exact h.sweepSkip hpass
  | sweepOpen kids hpass hwhite hkids => exact h.sweepOpen hpass hwhite hkids
  | sweepClose hpass => exact h.sweepClose hpass
  | sweepDone hpass => exact h.sweepDone hpass
  | freeCorpse hpass hdef => exact h.freeCorpse hpass hdef
  | freeDone threshold hpass hdef _ => exact h.freeDone threshold hpass hdef

/-- The state in which a program begins: an empty buffer, and nothing allocated. -/
def initial (B : Type*) : State B where
  slots := []
  header := fun _ => ⟨0, false, false, .black, false⟩
  allocated := fun _ => false
  threshold := 1024
  pass := .idle
  deferred := []

omit [DecidableEq B] in
/-- The first state has the invariant. -/
lemma inv_initial : (initial B).Inv :=
  (⟨rfl, rfl, rfl⟩ : (initial B).Quiet).inv_iff.mpr
    ⟨⟨List.nodup_nil, fun p hp => (nomatch hp), fun p hp => absurd hp (by simp [initial])⟩, rfl⟩

/-- A state that a run of the program and the collector reaches. -/
def Reachable (s : State B) : Prop := Relation.ReflTransGen Step (initial B) s

/-- Every reachable state has the invariant. -/
lemma Reachable.inv {s : State B} (h : s.Reachable) : s.Inv := by
  induction h with
  | refl => exact inv_initial
  | tail _ hstep ih => exact hstep.inv ih

/-- In every reachable state the entries that the sweep has not passed hold a block at most once
and refer to no freed block, and the flagged blocks are those of them that this collection has
not swept.  Outside the sweep and the free step these are all entries and no block is a corpse:
there a block is in the buffer at most once and exactly when it is flagged. -/
theorem rootBuffer_invariant {s : State B} (h : s.Reachable) :
    s.pending.Nodup ∧ (∀ p ∈ s.pending, s.allocated p = true) ∧
      (∀ p, s.allocated p = true →
        ((s.header p).buffered = true ↔ p ∈ s.pending ∧ ¬ s.Corpse p)) ∧
      ((∀ n i st, s.pass ≠ .sweep n i st) → (∀ n, s.pass ≠ .free n) → s.Settled) := by
  have hinv := h.inv
  refine ⟨hinv.nodup, hinv.allocated, hinv.flagged, fun hsweep hfree => ?_⟩
  cases hpass : s.pass with
  | idle => exact ((hinv.pass.quiet_idle hpass).inv_iff.mp hinv).1
  | mark n i => exact ((hinv.pass.quiet_mark hpass).1.inv_iff.mp hinv).1
  | scan n i => exact ((hinv.pass.quiet_scan hpass).1.inv_iff.mp hinv).1
  | sweep n i st => exact absurd hpass (hsweep n i st)
  | free n => exact absurd hpass (hfree n)

/-- A cell that is pushed is in the buffer once, and allocated. -/
theorem rootBuffer_invariant_push : ∃ s : State ℕ, s.Reachable ∧ 0 ∈ s.pending ∧
    s.pending.Nodup ∧ ∀ p ∈ s.pending, s.allocated p = true := by
  have hrun := (Relation.ReflTransGen.refl (r := Step) (a := initial ℕ)).tail
    (Step.alloc 0 ⟨2, false, false, .black, true⟩ (by decide) rfl rfl rfl)
  have hrun := hrun.tail (Step.push 0 (by decide) (by decide) (by decide))
  have hinv := rootBuffer_invariant hrun
  exact ⟨_, hrun, by decide, hinv.1, hinv.2.1⟩

/-- A walk may recolour a cell and move its count. -/
lemma walked_setHeader {s : State B} {p : B} {x : Header}
    (hflag : x.buffered = (s.header p).buffered) : s.Walked (s.setHeader p x) := by
  refine ⟨rfl, rfl, rfl, rfl, rfl, fun q => ?_⟩
  by_cases hq : q = p
  · rw [hq, setHeader_self, hflag]
  · rw [s.setHeader_of_ne hq]

/-- A cell survives a collection that sweeps another one; a drop within the sweep pushes it again
while its old entry, whose flag the sweep has cleared, is still in the buffer. -/
theorem exists_reachable_not_settled : ∃ s : State ℕ, s.Reachable ∧ ¬ s.Settled := by
  have hrun := (Relation.ReflTransGen.refl (r := Step) (a := initial ℕ)).tail
    (Step.alloc 0 ⟨2, false, false, .black, true⟩ (by decide) rfl rfl rfl)
  have hrun := hrun.tail (Step.alloc 1 ⟨1, false, false, .black, true⟩ (by decide) rfl rfl rfl)
  have hrun := hrun.tail (Step.push 0 (by decide) (by decide) (by decide))
  have hrun := hrun.tail (Step.push 1 (by decide) (by decide) (by decide))
  have hrun := hrun.tail (Step.collect (by decide))
  -- the first cell is held from outside, the second one is garbage
  have hrun := hrun.tail (Step.markRoot (n := 2) (i := 0) (p := 0) rfl (by decide) rfl rfl
    (by decide) rfl (walked_setHeader (p := 0) (x := ⟨2, true, false, .gray, true⟩) rfl))
  have hrun := hrun.tail (Step.markRoot (n := 2) (i := 1) (p := 1) rfl (by decide) rfl rfl
    (by decide) rfl (walked_setHeader (p := 1) (x := ⟨0, true, false, .gray, true⟩) rfl))
  have hrun := hrun.tail (Step.markDone (n := 2) rfl)
  have hrun := hrun.tail (Step.scanRoot (n := 2) (i := 0) (p := 0) rfl (by decide) rfl
    (walked_setHeader (p := 0) (x := ⟨2, true, false, .black, true⟩) rfl))
  have hrun := hrun.tail (Step.scanRoot (n := 2) (i := 1) (p := 1) rfl (by decide) rfl
    (walked_setHeader (p := 1) (x := ⟨0, true, false, .white, true⟩) rfl))
  have hrun := hrun.tail (Step.scanDone (n := 2) rfl)
  have hrun := hrun.tail (Step.sweepRoot (n := 2) (i := 0) (p := 0) rfl (by decide) rfl)
  have hrun := hrun.tail (Step.sweepRoot (n := 2) (i := 1) (p := 1) rfl (by decide) rfl)
  have hrun := hrun.tail (Step.sweepOpen (n := 2) (i := 2) (p := 1) [] rfl rfl (by decide))
  have hrun := hrun.tail (Step.push 0 (by decide) (by decide) (by decide))
  exact ⟨_, hrun, fun h => absurd h.nodup (by decide)⟩

end Torajs.Cycle.State
