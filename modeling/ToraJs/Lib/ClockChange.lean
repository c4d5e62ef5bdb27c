import Mathlib.Algebra.BigOperators.Group.List.Basic
import Mathlib.Algebra.Order.Group.Unbundled.Abs
import Mathlib.Order.Bounds.Basic
import Mathlib.Data.List.Chain
import Mathlib.Tactic.Linarith
import Mathlib.Tactic.Abel

/-!
# Clocks that are changed

A clock shows an instant with an offset, and the offset changes at given instants.  A reading
that is shown is converted to the earliest instant that shows it; a reading that is skipped is
converted with the offset before the change that skips it.  When no jump is as large as the
time to the next change on either side, the conversion is one pass over the changes, and a
conversion with a guessed offset is right exactly when the jumps of the changes that the guess
misplaces cancel.
-/

namespace ClockChange

variable {α : Type*}

/-- A change of the offset. -/
structure Change (α : Type*) where
  time : α
  before : α
  after : α

/-- The changes of a clock that begins with an offset `o` and is set to `o'` at `T`, for each
entry `(T, o')` of a list. -/
def changes : α → List (α × α) → List (Change α)
  | _, [] => []
  | o, (T, o') :: s => ⟨T, o, o'⟩ :: changes o' s

/-- The offset in force at an instant. -/
def offsetAt [LinearOrder α] : α → List (α × α) → α → α
  | o, [], _ => o
  | o, (T, o') :: s, t => if t < T then o else offsetAt o' s t

variable [CommRing α]

/-- What a change adds to the offset. -/
def Change.jump (c : Change α) : α := c.after - c.before

/-- The sums over two filters, one of which is stronger, differ by the sum over the elements
that only one of them keeps. -/
lemma sum_filter_ne {β : Type*} (f : β → α) {p q : β → Bool} {l : List β}
    (h : ∀ x ∈ l, p x = true → q x = true) :
    ((l.filter q).map f).sum =
      ((l.filter p).map f).sum + ((l.filter fun x => p x != q x).map f).sum := by
  induction l with
  | nil => simp
  | cons x l ih =>
    have ih := ih fun y hy => h y (List.mem_cons_of_mem x hy)
    have hx := h x List.mem_cons_self
    cases hp : p x <;> cases hq : q x
    · simpa [hp, hq] using ih
    · simp only [List.filter_cons, hp, hq]
      simp only [if_true, List.map_cons, List.sum_cons, ih]
      simp only [Bool.false_eq_true, if_false, bne, Bool.false_beq, Bool.not_true,
        Bool.not_false, if_true, List.map_cons, List.sum_cons]
      abel
    · rw [hp, hq] at hx
      exact absurd (hx rfl) (by decide)
    · simp only [List.filter_cons, hp, hq, if_true, List.map_cons, List.sum_cons, ih]
      simp [add_assoc]

variable [LinearOrder α]

/-- The offset that converts a reading, by one pass over the changes. -/
def ruleOffset : α → List (α × α) → α → α
  | o, [], _ => o
  | o, (T, o') :: s, L => if L < T + max o o' then o else ruleOffset o' s L

/-- The jumps are smaller than the time between two changes. -/
def Spaced (o : α) (s : List (α × α)) : Prop :=
  (changes o s).IsChain fun c c' => |c.jump| < c'.time - c.time ∧ |c'.jump| < c'.time - c.time

/-- The conversion of a reading: the earliest instant that shows it; when none does, the
instant with the offset before the change that skips it. -/
structure Converts (o : α) (s : List (α × α)) (L r : α) : Prop where
  earliest : ∀ t, t + offsetAt o s t = L → IsLeast {t | t + offsetAt o s t = L} r
  skipped : (∀ t, t + offsetAt o s t ≠ L) →
    ∃ c ∈ changes o s, c.time + c.before ≤ L ∧ L < c.time + c.after ∧ r = L - c.before

/-! ### The order of the changes -/

/-- A change comes before another: its instant, and what the clock shows on both sides of it. -/
structure Change.Before (c c' : Change α) : Prop where
  time : c.time < c'.time
  start : c.time + c.after < c'.time + c'.after
  finish : c.time + c.before < c'.time + c'.before
  apart : c.time + c.after < c'.time + c'.before

lemma Change.Before.trans {a b c : Change α} (h : a.Before b) (h' : b.Before c) : a.Before c where
  time := h.time.trans h'.time
  start := h.start.trans h'.start
  finish := h.finish.trans h'.finish
  apart := h.start.trans h'.apart

/-- Changes in order. -/
def Ordered (o : α) (s : List (α × α)) : Prop := (changes o s).Pairwise Change.Before

/-- The first change comes before the others, which are in order. -/
lemma ordered_cons {o T o' : α} {s : List (α × α)} :
    Ordered o ((T, o') :: s) ↔
      (∀ c ∈ changes o' s, Change.Before ⟨T, o, o'⟩ c) ∧ Ordered o' s :=
  List.pairwise_cons

variable [IsStrictOrderedRing α]

/-- Spaced changes are in order. -/
lemma Spaced.ordered {o : α} {s : List (α × α)} (h : Spaced o s) : Ordered o s := by
  have hchain : (changes o s).IsChain Change.Before := by
    induction s generalizing o with
    | nil => exact List.isChain_nil
    | cons c s ih =>
      cases s with
      | nil => exact List.isChain_singleton _
      | cons c' s =>
        obtain ⟨⟨hleft, hright⟩, htail⟩ := List.isChain_cons_cons.mp h
        refine List.isChain_cons_cons.mpr ⟨?_, ih htail⟩
        have hl := abs_lt.mp hleft
        have hr := abs_lt.mp hright
        simp only [Change.jump] at hl hr
        have htime : c.1 < c'.1 := by
          have := (abs_nonneg _).trans_lt hleft
          simp only at this
          linarith
        exact ⟨htime, by simp only; linarith, by simp only; linarith, by simp only; linarith⟩
  have : IsTrans (Change α) Change.Before := ⟨fun _ _ _ => Change.Before.trans⟩
  exact List.isChain_iff_pairwise.mp hchain

/-- After the first change the clock shows no less than at the change. -/
lemma Ordered.le_reading {o T o' : α} {s : List (α × α)} (h : Ordered o ((T, o') :: s)) {t : α}
    (ht : T ≤ t) : T + o' ≤ t + offsetAt o' s t := by
  induction s generalizing o T o' with
  | nil => exact add_le_add_left ht _
  | cons c s ih =>
    obtain ⟨T', o''⟩ := c
    rw [offsetAt]
    split_ifs with hlt
    · exact add_le_add_left ht _
    · have hstart := ((ordered_cons.mp h).1 _ List.mem_cons_self).start
      exact hstart.le.trans (ih (ordered_cons.mp h).2 (not_lt.mp hlt))

/-! ### The conversion -/

/-- The pass over the changes converts every reading. -/
theorem converts_ruleOffset {o : α} {s : List (α × α)} (h : Ordered o s) (L : α) :
    Converts o s L (L - ruleOffset o s L) := by
  induction s generalizing o with
  | nil =>
    refine ⟨fun t _ => ⟨by simp [offsetAt, ruleOffset], fun u hu => ?_⟩, fun hnone => ?_⟩
    · simp only [Set.mem_ofPred_eq, offsetAt] at hu
      simp only [ruleOffset]
      linarith
    · exact absurd (by simp [offsetAt]) (hnone (L - o))
  | cons c s ih =>
    obtain ⟨T, o'⟩ := c
    have ih := ih (ordered_cons.mp h).2
    rw [ruleOffset]
    split_ifs with hlt
    · by_cases hshown : L < T + o
      · -- the reading is shown before the change
        have hbefore : L - o < T := by linarith
        have hoff : offsetAt o ((T, o') :: s) (L - o) = o := by rw [offsetAt, if_pos hbefore]
        have hshows : L - o + offsetAt o ((T, o') :: s) (L - o) = L := by
          rw [hoff, sub_add_cancel]
        refine ⟨fun t _ => ⟨hshows, fun u hu => ?_⟩, fun hnone => absurd hshows (hnone _)⟩
        simp only [Set.mem_ofPred_eq, offsetAt] at hu
        split_ifs at hu with hu'
        · linarith
        · linarith
      · -- the reading is skipped by the change
        have hgap : L < T + o' := by
          rcases lt_max_iff.mp (sub_lt_iff_lt_add'.mpr hlt) with h' | h' <;> linarith
        have hnone : ∀ t, t + offsetAt o ((T, o') :: s) t ≠ L := by
          intro t ht
          rw [offsetAt] at ht
          split_ifs at ht with ht'
          · linarith
          · have := h.le_reading (not_lt.mp ht')
            linarith
        exact ⟨fun t ht => absurd ht (hnone t), fun _ =>
          ⟨⟨T, o, o'⟩, List.mem_cons_self, not_lt.mp hshown, hgap, rfl⟩⟩
    · -- the instants before the change do not show the reading
      obtain ⟨hle, hle'⟩ : T + o ≤ L ∧ T + o' ≤ L := by
        have hmax := not_lt.mp hlt
        exact ⟨(by linarith [le_max_left o o']), by linarith [le_max_right o o']⟩
      have hsame : ∀ t, t + offsetAt o ((T, o') :: s) t = L ↔ t + offsetAt o' s t = L := by
        intro t
        rw [offsetAt]
        split_ifs with ht
        · have hoff : offsetAt o' s t = o' := by
            cases s with
            | nil => rfl
            | cons c s =>
              have htime := ((ordered_cons.mp h).1 _ List.mem_cons_self).time
              rw [offsetAt, if_pos (ht.trans htime)]
          rw [hoff]
          exact ⟨fun h => by linarith, fun h => by linarith⟩
        · rfl
      have hset : {t | t + offsetAt o ((T, o') :: s) t = L} = {t | t + offsetAt o' s t = L} :=
        Set.ext hsame
      refine ⟨fun t ht => ?_, fun hnone => ?_⟩
      · rw [hset]
        exact ih.earliest t ((hsame t).mp ht)
      · obtain ⟨c, hc, hspec⟩ := ih.skipped fun t ht => hnone t ((hsame t).mpr ht)
        exact ⟨c, List.mem_cons_of_mem _ hc, hspec⟩

omit [IsStrictOrderedRing α] in
/-- At most one change skips a reading. -/
lemma Ordered.eq_of_skips {o : α} {s : List (α × α)} (h : Ordered o s) {L : α} {c c' : Change α}
    (hc : c ∈ changes o s) (hc' : c' ∈ changes o s)
    (hL : c.time + c.before ≤ L ∧ L < c.time + c.after)
    (hL' : c'.time + c'.before ≤ L ∧ L < c'.time + c'.after) : c = c' := by
  have hcross : ∀ a b : Change α, a.Before b → L < a.time + a.after → b.time + b.before ≤ L →
      a = b := fun a b hab ha hb => absurd (ha.trans (hab.apart.trans_le hb)) (lt_irrefl _)
  induction s generalizing o with
  | nil => cases hc
  | cons e s ih =>
    rcases List.mem_cons.mp hc with rfl | hc
    · rcases List.mem_cons.mp hc' with rfl | hc'
      · rfl
      · exact hcross _ _ ((ordered_cons.mp h).1 _ hc') hL.2 hL'.1
    · rcases List.mem_cons.mp hc' with rfl | hc'
      · exact (hcross _ _ ((ordered_cons.mp h).1 _ hc) hL'.2 hL.1).symm
      · exact ih (ordered_cons.mp h).2 hc hc'

/-- The conversion of a reading is the one of the pass over the changes. -/
theorem converts_iff {o : α} {s : List (α × α)} (h : Ordered o s) {L r : α} :
    Converts o s L r ↔ r = L - ruleOffset o s L := by
  have hrule := converts_ruleOffset h L
  refine ⟨fun hr => ?_, fun hr => hr ▸ hrule⟩
  by_cases hshown : ∃ t, t + offsetAt o s t = L
  · obtain ⟨t, ht⟩ := hshown
    exact (hr.earliest t ht).unique (hrule.earliest t ht)
  · have hnone : ∀ t, t + offsetAt o s t ≠ L := fun t ht => hshown ⟨t, ht⟩
    obtain ⟨c, hc, hge, hlt, hreq⟩ := hr.skipped hnone
    obtain ⟨c', hc', hge', hlt', hreq'⟩ := hrule.skipped hnone
    rw [hreq, hreq', h.eq_of_skips hc hc' ⟨hge, hlt⟩ ⟨hge', hlt'⟩]

/-! ### A guessed offset -/

/-- The change comes at the instant that the reading is with a guessed offset, or earlier. -/
def passed (a L : α) (c : Change α) : Bool := decide (c.time + a ≤ L)

/-- The conversion of the reading passes the change. -/
def rulePassed (L : α) (c : Change α) : Bool := decide (c.time + max c.before c.after ≤ L)

/-- The changes that a guessed offset places on the wrong side of a reading. -/
def misplaced (o : α) (s : List (α × α)) (a L : α) : List (Change α) :=
  (changes o s).filter fun c => passed a L c != rulePassed L c

omit [IsStrictOrderedRing α] in
/-- The offset in force is the first one and the jumps since. -/
lemma offsetAt_eq_sum {o : α} {s : List (α × α)} (h : Ordered o s) (t : α) :
    offsetAt o s t =
      o + (((changes o s).filter fun c => decide (c.time ≤ t)).map Change.jump).sum := by
  induction s generalizing o with
  | nil => simp [offsetAt, changes]
  | cons c s ih =>
    obtain ⟨T, o'⟩ := c
    rw [offsetAt, changes, List.filter_cons]
    split_ifs with hlt hle hle
    · exact absurd (of_decide_eq_true hle) (not_le.mpr hlt)
    · have hnone : (changes o' s).filter (fun c => decide (c.time ≤ t)) = [] := by
        refine List.filter_eq_nil_iff.mpr fun c hc => ?_
        have htime := ((ordered_cons.mp h).1 c hc).time
        simpa using hlt.trans htime
      rw [hnone, List.map_nil, List.sum_nil, add_zero]
    · rw [ih (ordered_cons.mp h).2, List.map_cons, List.sum_cons, Change.jump]
      abel
    · exact absurd (decide_eq_true (not_lt.mp hlt)) hle

/-- The offset that converts a reading is the first one and the jumps of the changes that the
conversion passes. -/
lemma ruleOffset_eq_sum {o : α} {s : List (α × α)} (h : Ordered o s) (L : α) :
    ruleOffset o s L = o + (((changes o s).filter (rulePassed L)).map Change.jump).sum := by
  induction s generalizing o with
  | nil => simp [ruleOffset, changes]
  | cons c s ih =>
    obtain ⟨T, o'⟩ := c
    rw [ruleOffset, changes, List.filter_cons]
    split_ifs with hlt hle hle
    · exact absurd (of_decide_eq_true hle) (not_le.mpr hlt)
    · have hnone : (changes o' s).filter (rulePassed L) = [] := by
        refine List.filter_eq_nil_iff.mpr fun c hc => ?_
        have hbefore := (ordered_cons.mp h).1 c hc
        have hmax : T + max o o' < c.time + max c.before c.after := by
          rcases max_choice o o' with hm | hm
          · rw [hm]
            exact hbefore.finish.trans_le (by linarith [le_max_left c.before c.after])
          · rw [hm]
            exact hbefore.start.trans_le (by linarith [le_max_right c.before c.after])
        simpa [rulePassed] using hlt.trans hmax
      rw [hnone, List.map_nil, List.sum_nil, add_zero]
    · rw [ih (ordered_cons.mp h).2, List.map_cons, List.sum_cons, Change.jump]
      abel
    · exact absurd (decide_eq_true (not_lt.mp hlt)) hle

/-- Of two changes that a guess misplaces, none is placed too early when the other is placed too
late. -/
lemma passed_imp_or {o : α} {s : List (α × α)} (h : Ordered o s) (a L : α) :
    (∀ c ∈ changes o s, passed a L c = true → rulePassed L c = true) ∨
      (∀ c ∈ changes o s, rulePassed L c = true → passed a L c = true) := by
  induction s generalizing o with
  | nil => exact Or.inl fun c hc => nomatch hc
  | cons e s ih =>
    obtain ⟨T, o'⟩ := e
    obtain ⟨hfirst, htail⟩ := ordered_cons.mp h
    by_cases hguess : passed a L ⟨T, o, o'⟩ = true
    · by_cases hrule : rulePassed L ⟨T, o, o'⟩ = true
      · refine (ih htail).imp (fun hall c hc => ?_) fun hall c hc => ?_
        all_goals
          rcases List.mem_cons.mp hc with rfl | hc
          · exact fun _ => by assumption
          · exact hall c hc
      · -- the conversion passes no change
        refine Or.inr fun c hc hpass => absurd ?_ hrule
        rcases List.mem_cons.mp hc with rfl | hc
        · exact hpass
        · have hbefore := hfirst c hc
          have hle : c.time + max c.before c.after ≤ L := of_decide_eq_true hpass
          have hb := le_max_left c.before c.after
          have ha := le_max_right c.before c.after
          refine decide_eq_true ?_
          rcases max_choice o o' with hm | hm
          · rw [hm]
            linarith [hbefore.finish]
          · rw [hm]
            linarith [hbefore.start]
    · -- the guess passes no change
      refine Or.inl fun c hc hpass => absurd ?_ hguess
      rcases List.mem_cons.mp hc with rfl | hc
      · exact hpass
      · have hle : c.time + a ≤ L := of_decide_eq_true hpass
        have htime := (hfirst c hc).time
        refine decide_eq_true ?_
        simp only at htime ⊢
        linarith

/-- A conversion with a guessed offset finds the offset of the rule exactly when the jumps of
the changes that the guess misplaces cancel. -/
theorem offsetAt_guess_iff {o : α} {s : List (α × α)} (h : Ordered o s) (a L : α) :
    offsetAt o s (L - a) = ruleOffset o s L ↔
      ((misplaced o s a L).map Change.jump).sum = 0 := by
  have hguess : (changes o s).filter (fun c => decide (c.time ≤ L - a)) =
      (changes o s).filter (passed a L) := by
    refine List.filter_congr fun c _ => ?_
    rw [passed, decide_eq_decide]
    exact le_sub_iff_add_le
  rw [offsetAt_eq_sum h, ruleOffset_eq_sum h, hguess, add_right_inj]
  rcases passed_imp_or h a L with himp | himp
  · rw [sum_filter_ne Change.jump himp, left_eq_add]
    rfl
  · have hswap : misplaced o s a L =
        (changes o s).filter fun c => rulePassed L c != passed a L c :=
      List.filter_congr fun c _ => bne_comm
    rw [sum_filter_ne Change.jump himp, add_eq_left, hswap]

/-! ### Changes that are far apart -/

/-- The offsets are bounded by `M`, and two changes are more than twice as far apart. -/
structure Wide (o : α) (s : List (α × α)) (M : α) : Prop where
  first : |o| ≤ M
  bounded : ∀ c ∈ changes o s, |c.before| ≤ M ∧ |c.after| ≤ M
  apart : (changes o s).Pairwise fun c c' => c.time + 2 * M < c'.time

omit [IsStrictOrderedRing α] in
/-- The offset in force right before a change, and as long before as no other change comes. -/
lemma offsetAt_of_lt {o : α} {s : List (α × α)} {c : Change α} (hc : c ∈ changes o s) {t : α}
    (ht : t < c.time) (hprev : ∀ c' ∈ changes o s, c'.time < c.time → c'.time ≤ t)
    (h : Ordered o s) : offsetAt o s t = c.before := by
  induction s generalizing o with
  | nil => cases hc
  | cons e s ih =>
    obtain ⟨T, o'⟩ := e
    rw [offsetAt]
    rcases List.mem_cons.mp hc with rfl | hmem
    · rw [if_pos ht]
    · have hle := hprev _ List.mem_cons_self ((ordered_cons.mp h).1 c hmem).time
      rw [if_neg (not_lt.mpr hle)]
      exact ih hmem (fun c' hc' => hprev c' (List.mem_cons_of_mem _ hc')) (ordered_cons.mp h).2

omit [IsStrictOrderedRing α] in
/-- The offset in force from a change on, as long as no other change comes. -/
lemma offsetAt_of_le {o : α} {s : List (α × α)} {c : Change α} (hc : c ∈ changes o s) {t : α}
    (ht : c.time ≤ t) (hnext : ∀ c' ∈ changes o s, c.time < c'.time → t < c'.time)
    (h : Ordered o s) : offsetAt o s t = c.after := by
  induction s generalizing o with
  | nil => cases hc
  | cons e s ih =>
    obtain ⟨T, o'⟩ := e
    rw [offsetAt]
    rcases List.mem_cons.mp hc with rfl | hmem
    · rw [if_neg (not_lt.mpr ht)]
      cases s with
      | nil => rfl
      | cons e' s =>
        have htime := ((ordered_cons.mp h).1 _ List.mem_cons_self).time
        have hlt := hnext _ (List.mem_cons_of_mem _ List.mem_cons_self) htime
        rw [offsetAt, if_pos hlt]
    · have hle := ((ordered_cons.mp h).1 c hmem).time.le.trans ht
      rw [if_neg (not_lt.mpr hle)]
      exact ih hmem (fun c' hc' => hnext c' (List.mem_cons_of_mem _ hc')) (ordered_cons.mp h).2

/-- The guess that takes the reading for an instant goes wrong at a change: the reading is
repeated and is the change's instant or later, or it is skipped and is earlier. -/
def Change.Missed (c : Change α) (L : α) : Prop :=
  (c.time ≤ L ∧ c.time + c.after ≤ L ∧ L < c.time + c.before) ∨
    (L < c.time ∧ c.time + c.before ≤ L ∧ L < c.time + c.after)

omit [IsStrictOrderedRing α] in
/-- The offset in force is bounded. -/
lemma Wide.abs_offsetAt_le {o : α} {s : List (α × α)} {M : α} (hw : Wide o s M) (t : α) :
    |offsetAt o s t| ≤ M := by
  have hall : ∀ (s : List (α × α)) (o : α), |o| ≤ M → (∀ c ∈ changes o s, |c.after| ≤ M) →
      |offsetAt o s t| ≤ M := by
    intro s
    induction s with
    | nil => exact fun o ho _ => ho
    | cons e s ih =>
      intro o ho hafter
      rw [offsetAt]
      split_ifs
      · exact ho
      · exact ih e.2 (hafter _ List.mem_cons_self)
          fun c hc => hafter c (List.mem_cons_of_mem _ hc)
  exact hall s o hw.first fun c hc => (hw.bounded c hc).2

/-- Two changes of which one comes before the other are far apart. -/
lemma Wide.apart_of_lt {o : α} {s : List (α × α)} {M : α} (hw : Wide o s M) {c c' : Change α}
    (hc : c ∈ changes o s) (hc' : c' ∈ changes o s) (hlt : c.time < c'.time) :
    c.time + 2 * M < c'.time := by
  have hM : 0 ≤ M := (abs_nonneg o).trans hw.first
  obtain ⟨i, hi, rfl⟩ := List.mem_iff_getElem.mp hc
  obtain ⟨j, hj, rfl⟩ := List.mem_iff_getElem.mp hc'
  have hpair := List.pairwise_iff_getElem.mp hw.apart
  rcases lt_trichotomy i j with hij | rfl | hij
  · exact hpair i j hi hj hij
  · exact absurd hlt (lt_irrefl _)
  · linarith [hpair j i hj hi hij]

/-- The guess misplaces the changes that it goes wrong at. -/
lemma Wide.misplaced_iff {o : α} {s : List (α × α)} {M : α} (hw : Wide o s M)
    (h : Ordered o s) {c : Change α} (hc : c ∈ changes o s) (L : α) :
    (passed (offsetAt o s L) L c != rulePassed L c) = true ↔ c.Missed L := by
  obtain ⟨hb, ha⟩ := hw.bounded c hc
  have hbound := abs_le.mp (hw.abs_offsetAt_le L)
  rw [abs_le] at hb ha
  rw [bne_iff_ne, Ne, passed, rulePassed, decide_eq_decide]
  have hmaxL := le_max_left c.before c.after
  have hmaxR := le_max_right c.before c.after
  have hmax : max c.before c.after ≤ M := max_le hb.2 ha.2
  constructor
  · intro hne
    rcases le_or_gt c.time L with hle | hlt
    · by_cases hnear : L < c.time + M
      · -- the offset in force is the one after the change
        have hoff : offsetAt o s L = c.after :=
          offsetAt_of_le hc hle (fun c' hc' hlt => by
            linarith [hw.apart_of_lt hc hc' hlt]) h
        rw [hoff] at hne
        left
        rcases max_choice c.before c.after with hm | hm <;> rw [hm] at hne hmaxR
        · by_contra hmiss
          refine hne ⟨fun hpass => ?_, fun hpass => by linarith⟩
          by_contra hlate
          exact hmiss ⟨hle, hpass, not_le.mp hlate⟩
        · exact absurd Iff.rfl hne
      · exact absurd (iff_of_true (by linarith) (by linarith)) hne
    · by_cases hnear : c.time - M ≤ L
      · -- the offset in force is the one before the change
        have hoff : offsetAt o s L = c.before :=
          offsetAt_of_lt hc hlt (fun c' hc' hlt => by
            linarith [hw.apart_of_lt hc' hc hlt]) h
        rw [hoff] at hne
        right
        rcases max_choice c.before c.after with hm | hm <;> rw [hm] at hne hmaxL
        · exact absurd Iff.rfl hne
        · by_contra hmiss
          refine hne ⟨fun hpass => ?_, fun hpass => by linarith⟩
          by_contra hlate
          exact hmiss ⟨hlt, hpass, not_le.mp hlate⟩
      · exact absurd (iff_of_false (by linarith) (by linarith)) hne
  · rintro (⟨hle, hafter, hbefore⟩ | ⟨hlt, hbefore, hafter⟩) hiff
    · have hoff : offsetAt o s L = c.after :=
        offsetAt_of_le hc hle (fun c' hc' hlt => by
          linarith [hw.apart_of_lt hc hc' hlt]) h
      rw [hoff] at hiff
      linarith [hiff.mp hafter]
    · have hoff : offsetAt o s L = c.before :=
        offsetAt_of_lt hc hlt (fun c' hc' hlt => by
          linarith [hw.apart_of_lt hc' hc hlt]) h
      rw [hoff] at hiff
      linarith [hiff.mp hbefore]

/-- When the changes are far apart, the jumps that the guess misplaces cancel exactly when it
goes wrong at no change. -/
theorem Wide.sum_misplaced_iff {o : α} {s : List (α × α)} {M : α} (hw : Wide o s M)
    (h : Ordered o s) (L : α) :
    ((misplaced o s (offsetAt o s L) L).map Change.jump).sum = 0 ↔
      ∀ c ∈ changes o s, ¬ c.Missed L := by
  have hmem : ∀ c, c ∈ misplaced o s (offsetAt o s L) L ↔ c ∈ changes o s ∧ c.Missed L := by
    intro c
    rw [misplaced, List.mem_filter]
    exact and_congr_right fun hc => hw.misplaced_iff h hc L
  have hpair : (misplaced o s (offsetAt o s L) L).Pairwise fun c c' =>
      c.time + 2 * M < c'.time := hw.apart.sublist List.filter_sublist
  rcases hlist : misplaced o s (offsetAt o s L) L with _ | ⟨c, l⟩
  · refine iff_of_true rfl fun c hc hmiss => ?_
    have hin := (hmem c).mpr ⟨hc, hmiss⟩
    rw [hlist] at hin
    cases hin
  · have hfirst := (hmem c).mp (by rw [hlist]; exact List.mem_cons_self)
    have hnot : ¬ ∀ c ∈ changes o s, ¬ c.Missed L := fun hall => hall c hfirst.1 hfirst.2
    refine iff_of_false ?_ hnot
    rcases l with _ | ⟨c', l⟩
    · -- the only jump is not zero
      rw [List.map_singleton, List.sum_singleton, Change.jump]
      intro hzero
      rcases hfirst.2 with ⟨_, hafter, hbefore⟩ | ⟨_, hbefore, hafter⟩ <;> linarith
    · -- both changes would be near the reading
      have hsecond := (hmem c').mp (by rw [hlist]; simp)
      rw [hlist] at hpair
      have hfar := (List.pairwise_cons.mp hpair).1 c' List.mem_cons_self
      have hb := hw.bounded c hfirst.1
      have hb' := hw.bounded c' hsecond.1
      simp only [abs_le] at hb hb'
      rcases hfirst.2 with ⟨_, _, _⟩ | ⟨_, _, _⟩ <;>
        rcases hsecond.2 with ⟨_, _, _⟩ | ⟨_, _, _⟩ <;> linarith

end ClockChange
