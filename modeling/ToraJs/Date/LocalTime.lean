import ToraJs.Lib.ClockChange
import ToraJs.Date.RoundTrip

/-!
# Local time

The zone of a TZif file, the offset it gives an instant, and the two conversions of a local time
to an instant: `componentsToLocalMs` of the parser and `makeMsLocal` of the constructor and the
setters.  Both guess an offset by reading the local time as an instant and look the offset up
once more.  They meet the rule of the standard exactly when the jumps of the transitions that
the guess misplaces cancel.
-/

namespace Torajs.Date

open ClockChange

/-- A local time type: the offset from UTC in seconds, of type `i32`, and the DST flag. -/
structure TtInfo where
  utoff : ℤ
  isdst : Bool
  utoff_mem : -2147483648 ≤ utoff ∧ utoff < 2147483648
deriving Repr, DecidableEq

/-- A zone: the instants of the transitions in order, the type that each switches to, and the
types. -/
structure Tz where
  transitions : List ℤ
  types : List UInt8
  ttinfos : List TtInfo
deriving Repr, DecidableEq

namespace Tz

/-- The offset and the DST flag of a type, when there is one. -/
def infoOf (info : Option TtInfo) : ℤ × Bool := (info.map fun i => (i.utoff, i.isdst)).getD (0, false)

/-- The offset and the DST flag before the first transition: of the first type that is not DST,
else of the first. -/
def firstInfo (tz : Tz) : ℤ × Bool :=
  infoOf ((tz.ttinfos.find? fun i => !i.isdst).or tz.ttinfos.head?)

/-- The offset and the DST flag from the transition of an index on. -/
def infoFrom (tz : Tz) (idx : ℕ) : ℤ × Bool :=
  infoOf tz.ttinfos[((tz.types[idx]?).getD 0).toNat]?

/-- The index of the first element that fails a test, in a list whose elements that pass it come
first. -/
def partitionPoint (p : ℤ → Bool) (xs : List ℤ) : ℕ := (xs.takeWhile p).length

/-- The offset and the DST flag at a second of UTC. -/
def infoAt (tz : Tz) (t : ℤ) : ℤ × Bool :=
  match tz.transitions with
  | [] => tz.firstInfo
  | T :: _ =>
    if t < T then tz.firstInfo
    else tz.infoFrom (partitionPoint (fun x => decide (x ≤ t)) tz.transitions - 1)

/-- The offset at a second of UTC. -/
def utoffAt (tz : Tz) (t : ℤ) : ℤ := (tz.infoAt t).1

end Tz

/-- The offset of the zone of the host, none when there is no zone to read. -/
def localUtoff (cached : Option Tz) (utcSecs : ℤ) : ℤ :=
  (cached.map fun tz => tz.utoffAt utcSecs).getD 0

/-- The offset and the flag of a type are in the range of `i32`. -/
lemma Tz.infoOf_mem (info : Option TtInfo) :
    -2147483648 ≤ (Tz.infoOf info).1 ∧ (Tz.infoOf info).1 < 2147483648 := by
  cases info with
  | none => exact ⟨by decide, by decide⟩
  | some i => exact i.utoff_mem

/-- An offset is in the range of `i32`. -/
lemma Tz.utoffAt_mem (tz : Tz) (t : ℤ) :
    -2147483648 ≤ tz.utoffAt t ∧ tz.utoffAt t < 2147483648 := by
  unfold Tz.utoffAt Tz.infoAt
  split
  · exact Tz.infoOf_mem _
  · split_ifs
    · exact Tz.infoOf_mem _
    · exact Tz.infoOf_mem _

/-- The zone of the host. -/
def hostZone (cached : Option Tz) (names : ℤ → Option Bytes) : HostZone where
  localUtoff := localUtoff cached
  localUtoff_mem utcSecs := by
    cases cached with
    | none => exact ⟨by simp [localUtoff], by simp [localUtoff]⟩
    | some tz => exact tz.utoffAt_mem utcSecs
  zoneLongName := names

/-- The largest time value. -/
def maxTimeMs : ℤ := 8640000000000000

/-- The time value of a finite whole number of milliseconds. -/
def timeClip (t : ℤ) : ℤ := if maxTimeMs < |t| then dateInvalid else t

/-- The time value of a local time, in milliseconds as `make_date_ms` composes it: a whole
number, none when it is not finite. -/
def makeMsLocal (zone : HostZone) : Option ℤ → ℤ
  | none => dateInvalid
  | some localMs =>
    if maxTimeMs + 48 * 3600000 < |localMs| then dateInvalid
    else
      let localSecs := localMs / 1000
      let off1 := zone.localUtoff localSecs
      let off2 := zone.localUtoff (localSecs - off1)
      timeClip (localMs - off2 * 1000)

/-! ### The rule of the standard -/

namespace Tz

/-- The local time of an instant, both in milliseconds. -/
def localMs (tz : Tz) (t : ℤ) : ℤ := t + 1000 * tz.utoffAt (t / 1000)

/-- The instant of a local time: the earliest that shows it; when none does, the instant with
the offset before the transition that skips it. -/
structure LocalToUtc (tz : Tz) (L r : ℤ) : Prop where
  earliest : ∀ t, tz.localMs t = L → IsLeast {t | tz.localMs t = L} r
  skipped : (∀ t, tz.localMs t ≠ L) → ∃ T ∈ tz.transitions,
    1000 * (T + tz.utoffAt (T - 1)) ≤ L ∧ L < 1000 * (T + tz.utoffAt T) ∧
      r = L - 1000 * tz.utoffAt (T - 1)

/-- The transitions from an index on, with the offset that each switches to, in milliseconds. -/
def stepsFrom (tz : Tz) : ℕ → List ℤ → List (ℤ × ℤ)
  | _, [] => []
  | i, T :: Ts => (1000 * T, 1000 * (tz.infoFrom i).1) :: stepsFrom tz (i + 1) Ts

/-- The transitions with the offset that each switches to, in milliseconds. -/
def steps (tz : Tz) : List (ℤ × ℤ) := tz.stepsFrom 0 tz.transitions

/-- The offset before the first transition, in milliseconds. -/
def firstMs (tz : Tz) : ℤ := 1000 * tz.firstInfo.1

/-- The transitions ascend, and the jumps of the offset are smaller than the time between two
transitions. -/
def Regular (tz : Tz) : Prop := Spaced tz.firstMs tz.steps

/-- The transitions that the first guess places on the wrong side of a local time: they are
compared with the offset that is in force when the local time is taken for an instant. -/
def misplaced (tz : Tz) (L : ℤ) : List ℤ :=
  tz.transitions.filter fun T =>
    decide (T + tz.utoffAt (L / 1000) ≤ L / 1000) !=
      decide (T + max (tz.utoffAt (T - 1)) (tz.utoffAt T) ≤ L / 1000)

/-- The jumps of the misplaced transitions cancel. -/
def GuessFits (tz : Tz) (L : ℤ) : Prop :=
  ((tz.misplaced L).map fun T => tz.utoffAt T - tz.utoffAt (T - 1)).sum = 0

instance (tz : Tz) (L : ℤ) : Decidable (tz.GuessFits L) :=
  inferInstanceAs (Decidable (_ = _))

/-- The first guess goes wrong at a transition: the local time is repeated and reads as the
transition's instant or a later one, or it is skipped and reads as an earlier one. -/
def Missed (tz : Tz) (T L : ℤ) : Prop :=
  (T ≤ L / 1000 ∧ T + tz.utoffAt T ≤ L / 1000 ∧ L / 1000 < T + tz.utoffAt (T - 1)) ∨
    (L / 1000 < T ∧ T + tz.utoffAt (T - 1) ≤ L / 1000 ∧ L / 1000 < T + tz.utoffAt T)

/-- The offsets are at most `M` seconds, and two transitions are more than twice as far apart. -/
structure FarApart (tz : Tz) (M : ℤ) : Prop where
  bounded : ∀ t, |tz.utoffAt t| ≤ M
  apart : tz.transitions.Pairwise fun T T' => T + 2 * M < T'

/-! ### The zone as a clock -/

/-- The first element passes the test. -/
lemma partitionPoint_cons_of_pos {p : ℤ → Bool} {x : ℤ} (h : p x = true) (xs : List ℤ) :
    partitionPoint p (x :: xs) = partitionPoint p xs + 1 := by
  rw [partitionPoint, List.takeWhile_cons_of_pos h, List.length_cons]
  rfl

/-- The first element fails the test. -/
lemma partitionPoint_cons_of_neg {p : ℤ → Bool} {x : ℤ} (h : ¬ p x = true) (xs : List ℤ) :
    partitionPoint p (x :: xs) = 0 := by
  rw [partitionPoint, List.takeWhile_cons_of_neg h]
  rfl

/-- The offset of the clock from an index on. -/
lemma offsetAt_stepsFrom (tz : Tz) (Ts : List ℤ) (i : ℕ) (o t : ℤ) {n : ℕ}
    (hn : partitionPoint (fun x => decide (x ≤ t / 1000)) Ts = n) :
    offsetAt o (tz.stepsFrom i Ts) t =
      if n = 0 then o else 1000 * (tz.infoFrom (i + n - 1)).1 := by
  induction Ts generalizing i o n with
  | nil =>
    obtain rfl : n = 0 := hn.symm
    rfl
  | cons T Ts ih =>
    rw [stepsFrom, offsetAt]
    by_cases hlt : t < 1000 * T
    · have hnot : ¬ decide (T ≤ t / 1000) = true := by simpa using by omega
      rw [partitionPoint_cons_of_neg hnot] at hn
      rw [if_pos hlt, if_pos hn.symm]
    · have hle : decide (T ≤ t / 1000) = true := decide_eq_true (by omega)
      rw [partitionPoint_cons_of_pos hle] at hn
      rw [if_neg hlt, ih (i + 1) _ rfl, if_neg (by omega : ¬ n = 0)]
      split_ifs with hzero
      · rw [show i + n - 1 = i by omega]
      · rw [show i + n - 1 = i + 1 + (n - 1) - 1 by omega,
          show n - 1 = partitionPoint (fun x => decide (x ≤ t / 1000)) Ts by omega]

/-- The offset of the clock is the offset of the zone. -/
lemma offsetAt_steps (tz : Tz) (t : ℤ) :
    offsetAt tz.firstMs tz.steps t = 1000 * tz.utoffAt (t / 1000) := by
  rw [steps, offsetAt_stepsFrom tz _ 0 _ t rfl, utoffAt, infoAt]
  rcases tz.transitions with _ | ⟨T, Ts⟩
  · rfl
  · by_cases hlt : t / 1000 < T
    · have hnot : ¬ decide (T ≤ t / 1000) = true := by simpa using hlt
      rw [partitionPoint_cons_of_neg hnot, if_pos rfl]
      simp only [if_pos hlt]
      rfl
    · have hle : decide (T ≤ t / 1000) = true := decide_eq_true (by omega)
      simp only [if_neg hlt]
      rw [partitionPoint_cons_of_pos hle, if_neg (Nat.add_one_ne_zero _), Nat.zero_add]

/-- The instants of the changes are the transitions. -/
lemma time_changes_stepsFrom (tz : Tz) (Ts : List ℤ) (i : ℕ) (o : ℤ) :
    (changes o (tz.stepsFrom i Ts)).map Change.time = Ts.map fun T => 1000 * T := by
  induction Ts generalizing i o with
  | nil => rfl
  | cons T Ts ih => rw [stepsFrom, changes, List.map_cons, List.map_cons, ih]

/-- The change of the clock at a transition. -/
def change (tz : Tz) (T : ℤ) : Change ℤ :=
  ⟨1000 * T, 1000 * tz.utoffAt (T - 1), 1000 * tz.utoffAt T⟩

/-- The changes of the clock are those at the transitions. -/
lemma changes_steps {tz : Tz} (h : Ordered tz.firstMs tz.steps) :
    changes tz.firstMs tz.steps = tz.transitions.map tz.change := by
  have htimes := tz.time_changes_stepsFrom tz.transitions 0 tz.firstMs
  have htime : ∀ c ∈ changes tz.firstMs tz.steps, ∃ T, c.time = 1000 * T := by
    intro c hc
    have hmem : c.time ∈ tz.transitions.map fun T => 1000 * T := by
      rw [← htimes]
      exact List.mem_map_of_mem hc
    obtain ⟨T, -, hT⟩ := List.mem_map.mp hmem
    exact ⟨T, hT.symm⟩
  have hchange : ∀ c ∈ changes tz.firstMs tz.steps, tz.change (c.time / 1000) = c := by
    intro c hc
    obtain ⟨T, hT⟩ := htime c hc
    have hdiv : c.time / 1000 = T := by omega
    have hbefore : c.before = 1000 * tz.utoffAt (T - 1) := by
      have hoff := offsetAt_of_lt hc (t := 1000 * (T - 1)) (by omega) (fun c' hc' hlt => by
        obtain ⟨T', hT'⟩ := htime c' hc'
        omega) h
      rw [← hoff, offsetAt_steps]
      congr 2
      omega
    have hafter : c.after = 1000 * tz.utoffAt T := by
      have hoff := offsetAt_of_le hc (t := 1000 * T) (by omega) (fun c' hc' hlt => by omega) h
      rw [← hoff, offsetAt_steps]
      congr 2
      omega
    rw [change, hdiv, ← hbefore, ← hafter, ← hT]
  calc changes tz.firstMs tz.steps
      = (changes tz.firstMs tz.steps).map fun c => tz.change (c.time / 1000) := by
        conv_lhs => rw [← List.map_id (changes tz.firstMs tz.steps)]
        exact List.map_congr_left fun c hc => (hchange c hc).symm
    _ = ((changes tz.firstMs tz.steps).map Change.time).map fun T => tz.change (T / 1000) := by
        rw [List.map_map]
        rfl
    _ = tz.transitions.map tz.change := by
        rw [steps, htimes, List.map_map]
        refine List.map_congr_left fun T _ => ?_
        simp only [Function.comp_apply]
        congr 1
        omega

/-- The standard converts a local time as the clock does. -/
lemma localToUtc_iff_converts {tz : Tz} (h : Ordered tz.firstMs tz.steps) {L r : ℤ} :
    tz.LocalToUtc L r ↔ Converts tz.firstMs tz.steps L r := by
  have hshow : ∀ t, t + offsetAt tz.firstMs tz.steps t = tz.localMs t := fun t => by
    rw [offsetAt_steps, localMs]
  constructor
  · intro hr
    refine ⟨fun t ht => ?_, fun hnone => ?_⟩
    · simp only [hshow] at ht ⊢
      exact hr.earliest t ht
    · simp only [hshow] at hnone
      obtain ⟨T, hT, hge, hlt, hreq⟩ := hr.skipped hnone
      refine ⟨tz.change T, ?_, ?_, ?_, hreq⟩
      · rw [changes_steps h]
        exact List.mem_map_of_mem hT
      · simp only [change]
        linarith
      · simp only [change]
        linarith
  · intro hr
    refine ⟨fun t ht => ?_, fun hnone => ?_⟩
    · have hleast := hr.earliest t (by rw [hshow, ht])
      simp only [hshow] at hleast
      exact hleast
    · obtain ⟨c, hc, hge, hlt, hreq⟩ := hr.skipped fun t => by
        rw [hshow]
        exact hnone t
      rw [changes_steps h] at hc
      obtain ⟨T, hT, rfl⟩ := List.mem_map.mp hc
      simp only [change] at hge hlt hreq
      exact ⟨T, hT, by linarith, by linarith, hreq⟩

/-- The transitions that the clock misplaces are those that the zone misplaces. -/
lemma misplaced_steps {tz : Tz} (h : Ordered tz.firstMs tz.steps) (L : ℤ) :
    ClockChange.misplaced tz.firstMs tz.steps (1000 * tz.utoffAt (L / 1000)) L =
      (tz.misplaced L).map tz.change := by
  rw [ClockChange.misplaced, changes_steps h, List.filter_map, misplaced]
  congr 1
  refine List.filter_congr fun T _ => ?_
  have hguess : 1000 * T + 1000 * tz.utoffAt (L / 1000) ≤ L ↔
      T + tz.utoffAt (L / 1000) ≤ L / 1000 := by omega
  have hrule : 1000 * T + max (1000 * tz.utoffAt (T - 1)) (1000 * tz.utoffAt T) ≤ L ↔
      T + max (tz.utoffAt (T - 1)) (tz.utoffAt T) ≤ L / 1000 := by omega
  simp only [Function.comp_apply, passed, rulePassed, change, hguess, hrule]

/-- The jumps of the misplaced transitions, in milliseconds and in seconds. -/
lemma sum_jump_misplaced (tz : Tz) (L : ℤ) :
    (((tz.misplaced L).map tz.change).map Change.jump).sum =
      1000 * ((tz.misplaced L).map fun T => tz.utoffAt T - tz.utoffAt (T - 1)).sum := by
  rw [List.map_map, ← List.sum_map_mul_left]
  congr 1
  refine List.map_congr_left fun T _ => ?_
  simp only [Function.comp_apply, Change.jump, change]
  ring

/-- The conversion in two passes of a local time meets the rule of the standard exactly when the
misplaced jumps cancel. -/
theorem twoPass_iff {tz : Tz} (h : tz.Regular) (L : ℤ) :
    tz.LocalToUtc L (L - 1000 * tz.utoffAt (L / 1000 - tz.utoffAt (L / 1000))) ↔
      tz.GuessFits L := by
  have hordered := Spaced.ordered h
  have hguess := offsetAt_guess_iff hordered (1000 * tz.utoffAt (L / 1000)) L
  have hdiv : (L - 1000 * tz.utoffAt (L / 1000)) / 1000 =
      L / 1000 - tz.utoffAt (L / 1000) := by omega
  rw [offsetAt_steps, hdiv, misplaced_steps hordered, sum_jump_misplaced] at hguess
  rw [localToUtc_iff_converts hordered, converts_iff hordered, sub_right_inj, hguess, GuessFits]
  omega

/-- The offset before the first transition is in force at some second. -/
lemma exists_utoffAt_eq_firstInfo (tz : Tz) : ∃ t, tz.utoffAt t = tz.firstInfo.1 := by
  unfold utoffAt infoAt
  rcases tz.transitions with _ | ⟨T, Ts⟩
  · exact ⟨0, rfl⟩
  · refine ⟨T - 1, ?_⟩
    simp only [if_pos (by omega : T - 1 < T)]

/-- A zone whose transitions are far apart is such a clock. -/
lemma FarApart.wide {tz : Tz} {M : ℤ} (hfar : tz.FarApart M)
    (h : Ordered tz.firstMs tz.steps) : Wide tz.firstMs tz.steps (1000 * M) := by
  have hscale : ∀ t, |1000 * tz.utoffAt t| ≤ 1000 * M := fun t => by
    have hbound := abs_le.mp (hfar.bounded t)
    exact abs_le.mpr ⟨by linarith, by linarith⟩
  refine ⟨?_, fun c hc => ?_, ?_⟩
  · obtain ⟨t, ht⟩ := tz.exists_utoffAt_eq_firstInfo
    rw [firstMs, ← ht]
    exact hscale t
  · rw [changes_steps h] at hc
    obtain ⟨T, -, rfl⟩ := List.mem_map.mp hc
    exact ⟨hscale _, hscale _⟩
  · rw [changes_steps h, List.pairwise_map]
    refine hfar.apart.imp fun {T T'} hlt => ?_
    simp only [change]
    linarith

/-- When the transitions are far apart, the guess fits exactly when it goes wrong at none. -/
theorem guessFits_iff {tz : Tz} (h : tz.Regular) {M : ℤ} (hfar : tz.FarApart M) (L : ℤ) :
    tz.GuessFits L ↔ ∀ T ∈ tz.transitions, ¬ tz.Missed T L := by
  have hordered := Spaced.ordered h
  have hmissed := (hfar.wide hordered).sum_misplaced_iff hordered L
  rw [offsetAt_steps, misplaced_steps hordered, sum_jump_misplaced, changes_steps hordered] at hmissed
  have hzero : tz.GuessFits L ↔
      1000 * ((tz.misplaced L).map fun T => tz.utoffAt T - tz.utoffAt (T - 1)).sum = 0 := by
    unfold GuessFits
    omega
  rw [hzero, hmissed]
  constructor
  · intro hall T hT hmiss
    refine hall _ (List.mem_map_of_mem hT) ?_
    unfold Missed at hmiss
    simp only [Change.Missed, change]
    omega
  · intro hall c hc hmiss
    obtain ⟨T, hT, rfl⟩ := List.mem_map.mp hc
    refine hall T hT ?_
    simp only [Change.Missed, change] at hmiss
    unfold Missed
    omega

end Tz

/-! ### The two conversions -/

/-- The zone of a host that knows no zone has the fields of UTC. -/
def utcZone : HostZone := hostZone none fun _ => none

/-- The fields of an instant in the zone are those of its local time in UTC. -/
lemma localtimeDecompose_hostZone (tz : Tz) (names : ℤ → Option Bytes) (t : ℤ) :
    localtimeDecompose (hostZone (some tz) names) t =
      localtimeDecompose utcZone (tz.localMs t) := by
  have hdiv : (tz.localMs t) / 1000 = t / 1000 + tz.utoffAt (t / 1000) := by
    unfold Tz.localMs
    omega
  simp only [localtimeDecompose, utcZone, hostZone, localUtoff, Option.map_some,
    Option.map_none, Option.getD_some, Option.getD_none, hdiv, add_zero]

/-- The parser's conversion is the one in two passes. -/
lemma componentsToLocalMs_hostZone (tz : Tz) (names : ℤ → Option Bytes)
    (year month day hour minute second : ℤ) {milli : ℤ} (h0 : 0 ≤ milli) (h1 : milli < 1000) :
    componentsToLocalMs (hostZone (some tz) names) year month day hour minute second milli =
      componentsToLocalMs utcZone year month day hour minute second milli -
        1000 * tz.utoffAt
          (componentsToLocalMs utcZone year month day hour minute second milli / 1000 -
            tz.utoffAt
              (componentsToLocalMs utcZone year month day hour minute second milli / 1000)) := by
  simp only [componentsToLocalMs, utcZone, hostZone, localUtoff, Option.map_some,
    Option.map_none, Option.getD_some, Option.getD_none, sub_zero]
  generalize hs : daysFromCivil _ _ _ * 86400 + _ + _ + _ + _ = s
  have hdiv : (s * 1000 + milli) / 1000 = s := by omega
  rw [hdiv]
  ring

/-- Both conversions of a local time meet the rule of the standard exactly when the jumps of the
transitions that the first guess misplaces cancel; so does the way of an instant to its local
time and back, when the local time is unambiguous.  When the transitions are more than twice as
far apart as the offsets are large, these are the local times that are repeated by a transition
and read as its instant or later, and those that are skipped by one and read as earlier. -/
theorem localToUtc_iff (tz : Tz) (names : ℤ → Option Bytes) (h : tz.Regular) :
    (∀ year month day hour minute second milli L, 0 ≤ milli → milli < 1000 →
      L = componentsToLocalMs utcZone year month day hour minute second milli →
      (tz.LocalToUtc L
        (componentsToLocalMs (hostZone (some tz) names) year month day hour minute second milli) ↔
          tz.GuessFits L)) ∧
    (∀ L, makeMsLocal (hostZone (some tz) names) (some L) ≠ dateInvalid →
      (tz.LocalToUtc L (makeMsLocal (hostZone (some tz) names) (some L)) ↔ tz.GuessFits L)) ∧
    (∀ L r, |L| ≤ maxTimeMs + 48 * 3600000 → tz.LocalToUtc L r → tz.GuessFits L →
      makeMsLocal (hostZone (some tz) names) (some L) = timeClip r) ∧
    (∀ t, |t| ≤ maxTimeMs → |tz.localMs t| ≤ maxTimeMs + 48 * 3600000 →
      (∀ u, tz.localMs u = tz.localMs t → u = t) →
      (makeMsLocal (hostZone (some tz) names) (some (tz.localMs t)) = t ↔
        tz.GuessFits (tz.localMs t))) ∧
    ∀ M, tz.FarApart M → ∀ L, tz.GuessFits L ↔ ∀ T ∈ tz.transitions, ¬ tz.Missed T L := by
  have hmake : ∀ L, |L| ≤ maxTimeMs + 48 * 3600000 →
      makeMsLocal (hostZone (some tz) names) (some L) =
        timeClip (L - 1000 * tz.utoffAt (L / 1000 - tz.utoffAt (L / 1000))) := by
    intro L hL
    rw [makeMsLocal, if_neg (not_lt.mpr hL)]
    simp only [hostZone, localUtoff, Option.map_some, Option.getD_some]
    rw [mul_comm]
  refine ⟨?_, fun L hvalid => ?_, fun L r hL hr hfits => ?_,
    fun t ht hL honly => ?_, fun M hfar => tz.guessFits_iff h hfar⟩
  · rintro year month day hour minute second milli L h0 h1 rfl
    rw [componentsToLocalMs_hostZone tz names _ _ _ _ _ _ h0 h1]
    exact Tz.twoPass_iff h _
  · have hL : |L| ≤ maxTimeMs + 48 * 3600000 := by
      by_contra hL
      exact hvalid (by rw [makeMsLocal, if_pos (not_le.mp hL)])
    rw [hmake L hL] at hvalid ⊢
    have hclip : timeClip (L - 1000 * tz.utoffAt (L / 1000 - tz.utoffAt (L / 1000))) =
        L - 1000 * tz.utoffAt (L / 1000 - tz.utoffAt (L / 1000)) := by
      refine if_neg fun hlarge => hvalid ?_
      rw [timeClip, if_pos hlarge]
    rw [hclip]
    exact Tz.twoPass_iff h L
  · have hordered := Spaced.ordered h
    have hcode := (Tz.twoPass_iff h L).mpr hfits
    rw [Tz.localToUtc_iff_converts hordered, converts_iff hordered] at hr hcode
    rw [hmake L hL, hcode, hr]
  · have hback : ∀ r, tz.LocalToUtc (tz.localMs t) r ↔ r = t := fun r => by
      constructor
      · exact fun hr => honly r (hr.earliest t rfl).1
      · rintro rfl
        exact ⟨fun _ _ => ⟨rfl, fun u hu => (honly u hu).ge⟩, fun hnone => absurd rfl (hnone r)⟩
    rw [hmake _ hL, ← Tz.twoPass_iff h, hback, timeClip]
    split_ifs with hlarge
    · refine iff_of_false (fun heq => ?_) fun heq => ?_
      · rw [← heq] at ht
        exact absurd ht (by decide)
      · rw [heq] at hlarge
        exact absurd ht (not_le.mpr hlarge)
    · exact Iff.rfl

/-- A zone an hour east of UTC, with one summer time. -/
def berlin : Tz where
  transitions := [1711846800, 1729990800]
  types := [0, 1]
  ttinfos := [⟨7200, true, by decide, by decide⟩, ⟨3600, false, by decide, by decide⟩]

/-- The offsets of the zone are smaller than half the time between its transitions. -/
lemma berlin_regular : berlin.Regular := by
  unfold Tz.Regular Spaced
  decide

/-- At half past two of the night of the 27th of October 2024, which comes twice, both
conversions find the later instant. -/
theorem berlin_localToUtc_ne :
    berlin.Regular ∧
      componentsToLocalMs utcZone 2024 9 27 2 30 0 0 = 1729996200000 ∧
      ¬ berlin.LocalToUtc 1729996200000
        (componentsToLocalMs (hostZone (some berlin) fun _ => none) 2024 9 27 2 30 0 0) ∧
      ¬ berlin.LocalToUtc 1729996200000
        (makeMsLocal (hostZone (some berlin) fun _ => none) (some 1729996200000)) := by
  have hparse : componentsToLocalMs (hostZone (some berlin) fun _ => none) 2024 9 27 2 30 0 0 =
      1729992600000 := by decide
  have hmake : makeMsLocal (hostZone (some berlin) fun _ => none) (some 1729996200000) =
      1729992600000 := by decide
  -- half an hour past midnight in UTC shows the same local time
  have hearly : berlin.localMs 1729989000000 = 1729996200000 := by decide
  have hnot : ¬ berlin.LocalToUtc 1729996200000 1729992600000 := fun hr =>
    absurd ((hr.earliest _ hearly).2 hearly) (by decide)
  refine ⟨berlin_regular, by decide, ?_, ?_⟩
  · rw [hparse]
    exact hnot
  · rw [hmake]
    exact hnot

/-- Half past two of the day after comes once. -/
theorem localToUtc_iff_berlin :
    berlin.LocalToUtc 1730082600000
      (componentsToLocalMs (hostZone (some berlin) fun _ => none) 2024 9 28 2 30 0 0) :=
  ((localToUtc_iff berlin (fun _ => none) berlin_regular).1 2024 9 28 2 30 0 0 1730082600000
    (by decide) (by decide) (by decide)).mpr (by decide)

end Torajs.Date
