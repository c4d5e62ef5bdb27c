import ToraJs.Lib.BinarySearch
import ToraJs.Lib.RangeList
import Mathlib.Algebra.Group.Nat.Defs
import Mathlib.Data.List.TakeWhile
import Mathlib.Data.Set.Insert
import Mathlib.Order.Interval.Set.Defs

/-!
# Sets of code points

`CpRangeSet` of `cpset.rs`: a set of code points as a list of inclusive ranges, with the insertion
of a range, the test of a code point and the operations of a class.  Every set that is built from
ranges keeps its list sorted, with a gap between each range and the next, so a set of code points
is one value.
-/

namespace Torajs.Regex

open RangeList BinarySearch

/-- The last code point. -/
def cpMax : ℕ := 0x10FFFF

/-- A plain sum of `u32`. -/
def addU32 (a b : ℕ) : ℕ := (a + b) % 2 ^ 32

/-- A saturating sum of `u32`. -/
def saturatingAdd (a b : ℕ) : ℕ := min (a + b) (2 ^ 32 - 1)

/-- A set of code points. -/
structure CpRangeSet where
  ranges : Ranges
deriving Repr, DecidableEq

namespace CpRangeSet

/-! ### The operations -/

/-- `CpRangeSet::new`. -/
def new : CpRangeSet := ⟨[]⟩

/-- How a range compares with a code point. -/
def place (cp : ℕ) (r : ℕ × ℕ) : Ordering :=
  if cp < r.1 then .gt else if r.2 < cp then .lt else .eq

/-- `CpRangeSet::contains`. -/
def contains (s : CpRangeSet) (cp : ℕ) : Bool := finds (place cp) s.ranges

/-- The second loop of an insertion: the ranges that begin at or before the end are taken into the
new one. -/
def absorb (hi : ℕ) : ℕ → ℕ → Ranges → (ℕ × ℕ) × Ranges
  | newLo, newHi, [] => ((newLo, newHi), [])
  | newLo, newHi, r :: rest =>
    if r.1 ≤ saturatingAdd hi 1 then absorb hi (min newLo r.1) (max newHi r.2) rest
    else ((newLo, newHi), r :: rest)

/-- A range that ends before the new one, with a gap between them. -/
def endsBefore (lo : ℕ) (r : ℕ × ℕ) : Bool := addU32 r.2 1 < max lo 1

/-- `CpRangeSet::insert`. -/
def insert (s : CpRangeSet) (lo hi : ℕ) : CpRangeSet :=
  let new := absorb hi lo hi (s.ranges.dropWhile (endsBefore lo))
  ⟨s.ranges.takeWhile (endsBefore lo) ++ new.1 :: new.2⟩

/-- `CpRangeSet::insert_cp`. -/
def insertCp (s : CpRangeSet) (cp : ℕ) : CpRangeSet := s.insert cp cp

/-- `CpRangeSet::union`. -/
def union (s other : CpRangeSet) : CpRangeSet :=
  other.ranges.foldl (fun out r => out.insert r.1 r.2) s

/-- The loop of `intersect`, from the two places it has reached on. -/
def meet : Ranges → Ranges → Ranges
  | a :: as, b :: bs =>
    let lo := max a.1 b.1
    let hi := min a.2 b.2
    let rest := if a.2 < b.2 then meet as (b :: bs) else meet (a :: as) bs
    if lo ≤ hi then (lo, hi) :: rest else rest
  | [], _ => []
  | _ :: _, [] => []
termination_by as bs => as.length + bs.length

/-- `CpRangeSet::intersect`. -/
def intersect (s other : CpRangeSet) : CpRangeSet := ⟨meet s.ranges other.ranges⟩

/-- The loop of `complement`, from the next code point on. -/
def gaps : ℕ → Ranges → Ranges
  | next, [] => [(next, cpMax)]
  | next, r :: rest =>
    let out := if next < r.1 then [(next, r.1 - 1)] else []
    if cpMax < addU32 r.2 1 then out else out ++ gaps (addU32 r.2 1) rest

/-- `CpRangeSet::complement`. -/
def complement (s : CpRangeSet) : CpRangeSet := ⟨gaps 0 s.ranges⟩

/-- `CpRangeSet::difference`. -/
def difference (s other : CpRangeSet) : CpRangeSet := s.intersect other.complement

/-! ### Canonical sets -/

/-- The ranges hold code points, none is empty, and each is followed by a gap. -/
structure Canonical (l : Ranges) : Prop where
  proper : Proper l
  separated : Separated l
  bounded : ∀ r ∈ l, r.2 ≤ cpMax

section Canonical

variable {l : Ranges} {lo hi cp : ℕ}

lemma Canonical.addU32 (h : Canonical l) {r : ℕ × ℕ} (hr : r ∈ l) : addU32 r.2 1 = r.2 + 1 := by
  have hbound := h.bounded r hr
  unfold cpMax at hbound
  exact Nat.mod_eq_of_lt (by omega)

lemma Canonical.sublist {l' : Ranges} (h : Canonical l) (hsub : l'.Sublist l) : Canonical l' :=
  ⟨fun r hr => h.proper r (hsub.subset hr), List.Pairwise.sublist hsub h.separated,
    fun r hr => h.bounded r (hsub.subset hr)⟩

/-- **The test of a code point** is right about a canonical set. -/
lemma contains_iff {s : CpRangeSet} (h : Canonical s.ranges) :
    s.contains cp = true ↔ Covers s.ranges cp := by
  have hfollows : Follows (place cp) s.ranges := by
    have hall : ∀ a ∈ s.ranges, ∀ b ∈ s.ranges, a.2 + 1 < b.1 →
        (place cp a = .gt → place cp b = .gt) ∧ (place cp b = .lt → place cp a = .lt) := by
      intro a ha b hb hgap
      have hproper := h.proper a ha
      have hproper' := h.proper b hb
      unfold place
      constructor <;> split_ifs <;> first | omega | simp
    exact h.separated.imp_of_mem fun ha hb hgap => hall _ ha _ hb hgap
  have hplace : ∀ r : ℕ × ℕ, place cp r = .eq ↔ r.1 ≤ cp ∧ cp ≤ r.2 := by
    intro r
    unfold place
    split_ifs <;> simp <;> omega
  rw [contains, finds_iff hfollows]
  simp only [hplace]
  rfl

/-! ### Insertion -/

/-- What the second loop leaves of an insertion: the new range ends before the rest with a gap, it
begins and ends where an old range does or where it began, and nothing else is covered. -/
structure Absorbed (newLo newHi : ℕ) (rest : Ranges) (out : (ℕ × ℕ) × Ranges) : Prop where
  proper : out.1.1 ≤ out.1.2
  gap : ∀ r ∈ out.2, out.1.2 + 1 < r.1
  sublist : out.2.Sublist rest
  low : out.1.1 = newLo ∨ ∃ r ∈ rest, out.1.1 = r.1
  high : out.1.2 = newHi ∨ ∃ r ∈ rest, out.1.2 = r.2
  covers : ∀ h, (out.1.1 ≤ h ∧ h ≤ out.1.2) ∨ Covers out.2 h ↔
    (newLo ≤ h ∧ h ≤ newHi) ∨ Covers rest h

/-- The second loop, when the new range touches all that is left from above, and what it has taken
in ends at the given end or before the rest. -/
lemma absorb_spec (hhi : hi ≤ cpMax) {newLo newHi : ℕ} {rest : Ranges} (h : Canonical rest)
    (hnew : newLo ≤ newHi) (hend : hi ≤ newHi) (hbelow : ∀ r ∈ rest, newLo ≤ r.2 + 1)
    (htaken : hi < newHi → ∀ r ∈ rest, newHi + 1 < r.1) :
    Absorbed newLo newHi rest (absorb hi newLo newHi rest) := by
  have hsum : saturatingAdd hi 1 = hi + 1 := by
    unfold cpMax at hhi
    exact Nat.min_eq_left (by omega)
  induction rest generalizing newLo newHi with
  | nil =>
    exact ⟨hnew, nofun, List.Sublist.refl _, Or.inl rfl, Or.inl rfl, fun _ => Iff.rfl⟩
  | cons r rest ih =>
    have hproper := h.proper r List.mem_cons_self
    obtain ⟨hgap, -⟩ := List.pairwise_cons.mp h.separated
    have hrest : Canonical rest := h.sublist (List.sublist_cons_self r rest)
    rw [absorb, hsum]
    by_cases htouch : r.1 ≤ hi + 1
    · rw [if_pos htouch]
      have hsame : newHi = hi := by
        by_contra hne
        have hbehind := htaken (by omega) r List.mem_cons_self
        omega
      have hnext := ih hrest (by omega : min newLo r.1 ≤ max newHi r.2) (by omega)
        (fun q hq => by have := hbelow q (List.mem_cons_of_mem _ hq); omega)
        (fun _ q hq => by have := hgap q hq; omega)
      have hbelow' := hbelow r List.mem_cons_self
      refine ⟨hnext.proper, hnext.gap, hnext.sublist.trans (List.sublist_cons_self r rest),
        ?_, ?_, fun x => ?_⟩
      · rcases hnext.low with hlow | ⟨q, hq, hlow⟩
        · rcases Nat.le_total newLo r.1 with hle | hle
          · exact Or.inl (hlow.trans (Nat.min_eq_left hle))
          · exact Or.inr ⟨r, List.mem_cons_self, hlow.trans (Nat.min_eq_right hle)⟩
        · exact Or.inr ⟨q, List.mem_cons_of_mem _ hq, hlow⟩
      · rcases hnext.high with hhigh | ⟨q, hq, hhigh⟩
        · rcases Nat.le_total newHi r.2 with hle | hle
          · exact Or.inr ⟨r, List.mem_cons_self, hhigh.trans (Nat.max_eq_right hle)⟩
          · exact Or.inl (hhigh.trans (Nat.max_eq_left hle))
        · exact Or.inr ⟨q, List.mem_cons_of_mem _ hq, hhigh⟩
      · rw [hnext.covers, covers_cons, ← or_assoc]
        refine or_congr_left ?_
        omega
    · rw [if_neg htouch]
      refine ⟨hnew, fun q hq => ?_, List.Sublist.refl _, Or.inl rfl, Or.inl rfl, fun _ => Iff.rfl⟩
      change newHi + 1 < q.1
      have hr : newHi + 1 < r.1 := by
        rcases Nat.eq_or_lt_of_le hend with heq | hlt
        · omega
        · exact htaken hlt r List.mem_cons_self
      rcases List.mem_cons.mp hq with rfl | hq
      · exact hr
      · have hq' := hgap q hq
        omega

/-- **An insertion** keeps a set canonical and adds the code points of the range. -/
lemma insert_spec {s : CpRangeSet} (h : Canonical s.ranges) (hlo : lo ≤ hi) (hhi : hi ≤ cpMax) :
    Canonical (s.insert lo hi).ranges ∧
      ∀ x, Covers (s.insert lo hi).ranges x ↔ Covers s.ranges x ∨ (lo ≤ x ∧ x ≤ hi) := by
  have hsplit := List.takeWhile_append_dropWhile (p := endsBefore lo) (l := s.ranges)
  have hends : ∀ r ∈ s.ranges, endsBefore lo r = true ↔ r.2 + 1 < lo := by
    intro r hr
    rw [endsBefore, h.addU32 hr, decide_eq_true_iff]
    omega
  obtain ⟨before, hbefore⟩ : ∃ l, s.ranges.takeWhile (endsBefore lo) = l := ⟨_, rfl⟩
  obtain ⟨rest, hrest⟩ : ∃ l, s.ranges.dropWhile (endsBefore lo) = l := ⟨_, rfl⟩
  rw [hbefore, hrest] at hsplit
  have hcanonical : Canonical (before ++ rest) := hsplit ▸ h
  have hcanonicalRest : Canonical rest := hcanonical.sublist (List.sublist_append_right _ _)
  obtain ⟨hsepBefore, hsepRest, hsepBoth⟩ := List.pairwise_append.mp hcanonical.separated
  have hbeforeEnds : ∀ r ∈ before, r.2 + 1 < lo := fun r hr =>
    (hends r (hsplit ▸ List.mem_append_left _ hr)).mp (List.mem_takeWhile_imp (hbefore ▸ hr))
  have hrestEnds : ∀ r ∈ rest, lo ≤ r.2 + 1 := by
    intro r hr
    cases rest with
    | nil => cases hr
    | cons first rest =>
      have hfirst : lo ≤ first.2 + 1 := by
        have hnot := List.head?_dropWhile_not (endsBefore lo) s.ranges
        rw [hrest, List.head?_cons] at hnot
        refine Nat.le_of_not_lt fun hlt => ?_
        have hmem : first ∈ s.ranges := hsplit ▸ List.mem_append_right _ List.mem_cons_self
        simp [(hends first hmem).mpr hlt] at hnot
      rcases List.mem_cons.mp hr with rfl | hr
      · exact hfirst
      · have hgap := (List.pairwise_cons.mp hsepRest).1 r hr
        have hproper := hcanonicalRest.proper r (List.mem_cons_of_mem _ hr)
        omega
  have habsorbed := absorb_spec hhi hcanonicalRest hlo le_rfl hrestEnds
    fun hlt => absurd hlt (Nat.lt_irrefl _)
  have hinsert : (s.insert lo hi).ranges =
      before ++ (absorb hi lo hi rest).1 :: (absorb hi lo hi rest).2 := by
    rw [insert, hbefore, hrest]
  rw [hinsert]
  obtain ⟨⟨⟨newLo, newHi⟩, tail⟩, hout⟩ : ∃ out, absorb hi lo hi rest = out := ⟨_, rfl⟩
  rw [hout] at habsorbed ⊢
  obtain ⟨hproper, hgap, hsublist, hlow, hhigh, hcovers⟩ := habsorbed
  simp only at hproper hgap hsublist hlow hhigh hcovers
  have htail : Canonical tail := hcanonicalRest.sublist hsublist
  refine ⟨⟨fun r hr => ?_, List.pairwise_append.mpr ⟨hsepBefore, List.pairwise_cons.mpr
    ⟨hgap, htail.separated⟩, fun q hq r hr => ?_⟩, fun r hr => ?_⟩, fun x => ?_⟩
  · rcases List.mem_append.mp hr with hr | hr
    · exact hcanonical.proper r (List.mem_append_left _ hr)
    · rcases List.mem_cons.mp hr with rfl | hr
      · exact hproper
      · exact htail.proper r hr
  · have hq' := hbeforeEnds q hq
    rcases List.mem_cons.mp hr with rfl | hr
    · rcases hlow with rfl | ⟨p, hp, rfl⟩
      · exact hq'
      · exact hsepBoth q hq p hp
    · exact hsepBoth q hq r (hsublist.subset hr)
  · rcases List.mem_append.mp hr with hr | hr
    · exact hcanonical.bounded r (List.mem_append_left _ hr)
    · rcases List.mem_cons.mp hr with rfl | hr
      · rcases hhigh with rfl | ⟨q, hq, rfl⟩
        · exact hhi
        · exact hcanonicalRest.bounded q hq
      · exact htail.bounded r hr
  · rw [covers_append, covers_cons, hcovers, ← hsplit, covers_append]
    tauto

/-- **A union** keeps a set canonical and adds the code points of the other. -/
lemma union_spec {s other : CpRangeSet} (h : Canonical s.ranges) (hother : Canonical other.ranges) :
    Canonical (s.union other).ranges ∧
      ∀ x, Covers (s.union other).ranges x ↔ Covers s.ranges x ∨ Covers other.ranges x := by
  rcases other with ⟨l⟩
  rw [union]
  simp only at hother ⊢
  induction l generalizing s with
  | nil => exact ⟨h, fun x => (or_iff_left (covers_nil x)).symm⟩
  | cons r l ih =>
    obtain ⟨hinsert, hcovers⟩ := insert_spec h (hother.proper r List.mem_cons_self)
      (hother.bounded r List.mem_cons_self)
    obtain ⟨hunion, hall⟩ := ih hinsert (hother.sublist (List.sublist_cons_self r l))
    refine ⟨hunion, fun x => ?_⟩
    rw [List.foldl_cons, hall, hcovers, covers_cons, or_assoc]

/-! ### Intersection -/

/-- What two lists have in common: each range lies inside a range of both, with gaps between them,
and what both cover is covered. -/
structure Common (a b out : Ranges) : Prop where
  inside : ∀ r ∈ out, r.1 ≤ r.2 ∧ (∃ q ∈ a, q.1 ≤ r.1 ∧ r.2 ≤ q.2) ∧
    ∃ q ∈ b, q.1 ≤ r.1 ∧ r.2 ≤ q.2
  separated : Separated out
  covers : ∀ x, Covers out x ↔ Covers a x ∧ Covers b x

/-- Past the end of its first range a list covers what the rest does. -/
lemma covers_past {r : ℕ × ℕ} {x : ℕ} (h : r.2 < x) : Covers (r :: l) x ↔ Covers l x := by
  rw [covers_cons]
  exact or_iff_right fun hr => by omega

/-- Up to the end of its first range a list covers what this does. -/
lemma covers_first {r : ℕ × ℕ} {x : ℕ} (hl : Separated (r :: l)) (h : x ≤ r.2) :
    Covers (r :: l) x ↔ r.1 ≤ x := by
  rw [covers_cons]
  constructor
  · rintro (hr | ⟨q, hq, hlow, -⟩)
    · exact hr.1
    · have hgap := (List.pairwise_cons.mp hl).1 q hq
      omega
  · exact fun hr => Or.inl ⟨hr, h⟩

/-- One step of the loop: the first ranges meet, and the one that ends first is left behind. -/
lemma common_step {p q : ℕ × ℕ} {a b : Ranges} (ha : Separated (p :: a)) (hb : Separated (q :: b))
    (hfirst : Common a (q :: b) (meet a (q :: b))) (hsecond : Common (p :: a) b (meet (p :: a) b)) :
    Common (p :: a) (q :: b) (meet (p :: a) (q :: b)) := by
  obtain ⟨rest, hrest⟩ : ∃ rest,
      (if p.2 < q.2 then meet a (q :: b) else meet (p :: a) b) = rest := ⟨_, rfl⟩
  have hmeet : meet (p :: a) (q :: b) =
      if max p.1 q.1 ≤ min p.2 q.2 then (max p.1 q.1, min p.2 q.2) :: rest else rest := by
    rw [meet, hrest]
  -- the rest lies inside both lists, behind the range that ends first
  have hinside : ∀ r ∈ rest, r.1 ≤ r.2 ∧ (∃ s ∈ p :: a, s.1 ≤ r.1 ∧ r.2 ≤ s.2) ∧
      ∃ s ∈ q :: b, s.1 ≤ r.1 ∧ r.2 ≤ s.2 := by
    intro r hr
    split_ifs at hrest with hlt
    · obtain ⟨hproper, ⟨s, hs, hin⟩, hother⟩ := hfirst.inside r (hrest ▸ hr)
      exact ⟨hproper, ⟨s, List.mem_cons_of_mem _ hs, hin⟩, hother⟩
    · obtain ⟨hproper, hother, s, hs, hin⟩ := hsecond.inside r (hrest ▸ hr)
      exact ⟨hproper, hother, s, List.mem_cons_of_mem _ hs, hin⟩
  have hbehind : ∀ r ∈ rest, min p.2 q.2 + 1 < r.1 := by
    intro r hr
    split_ifs at hrest with hlt
    · obtain ⟨-, ⟨s, hs, hlow, -⟩, -⟩ := hfirst.inside r (hrest ▸ hr)
      have hgap := (List.pairwise_cons.mp ha).1 s hs
      omega
    · obtain ⟨-, -, s, hs, hlow, -⟩ := hsecond.inside r (hrest ▸ hr)
      have hgap := (List.pairwise_cons.mp hb).1 s hs
      omega
  have hseparated : Separated rest := by
    split_ifs at hrest with hlt
    · exact hrest ▸ hfirst.separated
    · exact hrest ▸ hsecond.separated
  -- up to the end of that range only the first ranges count, past it only the rest
  have hcovers : ∀ x, (max p.1 q.1 ≤ x ∧ x ≤ min p.2 q.2) ∨ Covers rest x ↔
      Covers (p :: a) x ∧ Covers (q :: b) x := by
    intro x
    by_cases hx : x ≤ min p.2 q.2
    · have hnone : ¬ Covers rest x := by
        rintro ⟨r, hr, hlow, -⟩
        have hlt := hbehind r hr
        omega
      rw [covers_first ha (by omega), covers_first hb (by omega), or_iff_left hnone]
      omega
    · rw [or_iff_right fun h => hx h.2]
      split_ifs at hrest with hlt
      · rw [← hrest, hfirst.covers, covers_past (r := p) (by omega)]
      · rw [← hrest, hsecond.covers, covers_past (r := q) (by omega)]
  rw [hmeet]
  by_cases hle : max p.1 q.1 ≤ min p.2 q.2
  · rw [if_pos hle]
    refine ⟨fun r hr => ?_, List.pairwise_cons.mpr ⟨hbehind, hseparated⟩, fun x => ?_⟩
    · rcases List.mem_cons.mp hr with rfl | hr
      · exact ⟨hle, ⟨p, List.mem_cons_self, Nat.le_max_left _ _, Nat.min_le_left _ _⟩,
          q, List.mem_cons_self, Nat.le_max_right _ _, Nat.min_le_right _ _⟩
      · exact hinside r hr
    · rw [covers_cons]
      exact hcovers x
  · rw [if_neg hle]
    refine ⟨hinside, hseparated, fun x => ?_⟩
    rw [← hcovers x]
    exact (or_iff_right fun h => by omega).symm

/-- The loop takes what two lists have in common. -/
lemma meet_spec (a b : Ranges) (ha : Separated a) (hb : Separated b) : Common a b (meet a b) := by
  induction a, b using meet.induct with
  | case1 p a q b _ _ _ ihFirst ihSecond =>
    exact common_step ha hb (ihFirst (List.pairwise_cons.mp ha).2 hb)
      (ihSecond ha (List.pairwise_cons.mp hb).2)
  | case2 p a q b _ _ _ ihFirst ihSecond =>
    exact common_step ha hb (ihFirst (List.pairwise_cons.mp ha).2 hb)
      (ihSecond ha (List.pairwise_cons.mp hb).2)
  | case3 b =>
    rw [meet]
    exact ⟨nofun, List.Pairwise.nil, fun x => ⟨fun h => absurd h (covers_nil x),
      fun h => absurd h.1 (covers_nil x)⟩⟩
  | case4 p a =>
    rw [meet]
    exact ⟨nofun, List.Pairwise.nil, fun x => ⟨fun h => absurd h (covers_nil x),
      fun h => absurd h.2 (covers_nil x)⟩⟩

/-- **An intersection** keeps a set canonical and has the code points of both. -/
lemma intersect_spec {s other : CpRangeSet} (h : Canonical s.ranges)
    (hother : Canonical other.ranges) :
    Canonical (s.intersect other).ranges ∧
      ∀ x, Covers (s.intersect other).ranges x ↔ Covers s.ranges x ∧ Covers other.ranges x := by
  have hcommon := meet_spec _ _ h.separated hother.separated
  refine ⟨⟨fun r hr => (hcommon.inside r hr).1, hcommon.separated, fun r hr => ?_⟩, hcommon.covers⟩
  obtain ⟨-, ⟨q, hq, -, hle⟩, -⟩ := hcommon.inside r hr
  exact hle.trans (h.bounded q hq)

/-! ### Complement -/

/-- The loop of the complement from a code point on, which is not behind the rest: the gaps begin
there, and cover what the rest does not. -/
lemma gaps_spec {next : ℕ} {rest : Ranges} (h : Canonical rest) (hnext : next ≤ cpMax)
    (hfrom : ∀ r ∈ rest, next ≤ r.1) :
    Canonical (gaps next rest) ∧ (∀ r ∈ gaps next rest, next ≤ r.1) ∧
      ∀ x, Covers (gaps next rest) x ↔ next ≤ x ∧ x ≤ cpMax ∧ ¬ Covers rest x := by
  induction rest generalizing next with
  | nil =>
    refine ⟨⟨fun r hr => ?_, List.pairwise_singleton _ _, fun r hr => ?_⟩, fun r hr => ?_, fun x => ?_⟩
    · rw [List.mem_singleton.mp hr]
      exact hnext
    · rw [List.mem_singleton.mp hr]
    · rw [List.mem_singleton.mp hr]
    · rw [gaps, covers_cons, or_iff_left (covers_nil x)]
      exact ⟨fun hx => ⟨hx.1, hx.2, covers_nil x⟩, fun hx => ⟨hx.1, hx.2.1⟩⟩
  | cons r rest ih =>
    have hproper := h.proper r List.mem_cons_self
    have hbounded := h.bounded r List.mem_cons_self
    have hlow := hfrom r List.mem_cons_self
    obtain ⟨hgap, -⟩ := List.pairwise_cons.mp h.separated
    have hrest : Canonical rest := h.sublist (List.sublist_cons_self r rest)
    obtain ⟨behind, hbehind⟩ : ∃ l,
        (if cpMax < r.2 + 1 then [] else gaps (r.2 + 1) rest) = l := ⟨_, rfl⟩
    have hgaps : gaps next (r :: rest) =
        (if next < r.1 then [(next, r.1 - 1)] else []) ++ behind := by
      rw [gaps, h.addU32 List.mem_cons_self, ← hbehind]
      split_ifs <;> simp
    obtain ⟨hcanonical, hafter, hcovers⟩ : Canonical behind ∧ (∀ q ∈ behind, r.2 + 1 ≤ q.1) ∧
        ∀ x, Covers behind x ↔ r.2 + 1 ≤ x ∧ x ≤ cpMax ∧ ¬ Covers rest x := by
      by_cases hlast : cpMax < r.2 + 1
      · rw [if_pos hlast] at hbehind
        subst hbehind
        refine ⟨⟨nofun, List.Pairwise.nil, nofun⟩, nofun, fun x => ?_⟩
        exact iff_of_false (covers_nil x) fun hx => by omega
      · rw [if_neg hlast] at hbehind
        subst hbehind
        exact ih hrest (by omega) fun q hq => by have := hgap q hq; omega
    rw [hgaps]
    by_cases hlt : next < r.1
    · rw [if_pos hlt, List.singleton_append]
      refine ⟨⟨fun q hq => ?_, List.pairwise_cons.mpr ⟨fun q hq => ?_, hcanonical.separated⟩,
        fun q hq => ?_⟩, fun q hq => ?_, fun x => ?_⟩
      · rcases List.mem_cons.mp hq with rfl | hq
        · change next ≤ r.1 - 1
          omega
        · exact hcanonical.proper q hq
      · have hq' := hafter q hq
        change r.1 - 1 + 1 < q.1
        omega
      · rcases List.mem_cons.mp hq with rfl | hq
        · change r.1 - 1 ≤ cpMax
          omega
        · exact hcanonical.bounded q hq
      · rcases List.mem_cons.mp hq with rfl | hq
        · exact le_rfl
        · have hq' := hafter q hq
          omega
      · have hnone : Covers rest x → r.2 + 1 < x := by
          rintro ⟨q, hq, hle, -⟩
          have hq' := hgap q hq
          omega
        rw [covers_cons, hcovers, covers_cons]
        change (next ≤ x ∧ x ≤ r.1 - 1) ∨ _ ↔ _
        by_cases hx : Covers rest x
        · have hx' := hnone hx
          simp only [hx, not_true, and_false, or_true, or_false, iff_false]
          omega
        · simp only [hx, not_false_iff, and_true, or_false]
          omega
    · rw [if_neg hlt, List.nil_append]
      refine ⟨hcanonical, fun q hq => ?_, fun x => ?_⟩
      · have hq' := hafter q hq
        omega
      · rw [hcovers, covers_cons]
        by_cases hx : Covers rest x
        · simp only [hx, not_true, and_false, or_true]
        · simp only [hx, not_false_iff, and_true, or_false]
          omega

/-- **A complement** keeps a set canonical and has the other code points. -/
lemma complement_spec {s : CpRangeSet} (h : Canonical s.ranges) :
    Canonical s.complement.ranges ∧
      ∀ x, Covers s.complement.ranges x ↔ x ≤ cpMax ∧ ¬ Covers s.ranges x := by
  obtain ⟨hcanonical, -, hcovers⟩ := gaps_spec h (Nat.zero_le _) fun r _ => Nat.zero_le r.1
  refine ⟨hcanonical, fun x => ?_⟩
  rw [complement, hcovers]
  exact and_iff_right (Nat.zero_le x)

/-- **A difference** keeps a set canonical and leaves the code points of the other out. -/
lemma difference_spec {s other : CpRangeSet} (h : Canonical s.ranges)
    (hother : Canonical other.ranges) :
    Canonical (s.difference other).ranges ∧
      ∀ x, Covers (s.difference other).ranges x ↔ Covers s.ranges x ∧ ¬ Covers other.ranges x := by
  obtain ⟨hcomplement, houtside⟩ := complement_spec hother
  obtain ⟨hcanonical, hcovers⟩ := intersect_spec h hcomplement
  refine ⟨hcanonical, fun x => ?_⟩
  rw [difference, hcovers, houtside]
  refine and_congr_right fun hx => and_iff_right ?_
  obtain ⟨r, hr, -, hle⟩ := hx
  exact hle.trans (h.bounded r hr)

end Canonical

/-! ### Sets that are built -/

/-- How a set is built. -/
inductive Build where
  | new
  | insert (s : Build) (lo hi : ℕ)
  | insertCp (s : Build) (cp : ℕ)
  | union (s other : Build)
  | intersect (s other : Build)
  | difference (s other : Build)
  | complement (s : Build)

namespace Build

/-- The set that is built. -/
def run : Build → CpRangeSet
  | .new => CpRangeSet.new
  | .insert s lo hi => s.run.insert lo hi
  | .insertCp s cp => s.run.insertCp cp
  | .union s other => s.run.union other.run
  | .intersect s other => s.run.intersect other.run
  | .difference s other => s.run.difference other.run
  | .complement s => s.run.complement

/-- The ranges that are inserted are ranges of code points. -/
def Legal : Build → Prop
  | .new => True
  | .insert s lo hi => s.Legal ∧ lo ≤ hi ∧ hi ≤ cpMax
  | .insertCp s cp => s.Legal ∧ cp ≤ cpMax
  | .union s other | .intersect s other | .difference s other => s.Legal ∧ other.Legal
  | .complement s => s.Legal

/-- The code points of the set, by what the operations mean. -/
def members : Build → Set ℕ
  | .new => ∅
  | .insert s lo hi => s.members ∪ Set.Icc lo hi
  | .insertCp s cp => s.members ∪ {cp}
  | .union s other => s.members ∪ other.members
  | .intersect s other => s.members ∩ other.members
  | .difference s other => s.members \ other.members
  | .complement s => Set.Iic cpMax \ s.members

/-- **A set that is built** is canonical and covers its members. -/
lemma run_spec (b : Build) (h : b.Legal) :
    Canonical b.run.ranges ∧ ∀ x, Covers b.run.ranges x ↔ x ∈ b.members := by
  induction b with
  | new => exact ⟨⟨nofun, List.Pairwise.nil, nofun⟩, fun x => iff_of_false (covers_nil x) nofun⟩
  | insert s lo hi ih =>
    obtain ⟨hs, hlo, hhi⟩ := h
    obtain ⟨hcanonical, hcovers⟩ := insert_spec (ih hs).1 hlo hhi
    refine ⟨hcanonical, fun x => ?_⟩
    rw [run, hcovers, (ih hs).2]
    rfl
  | insertCp s cp ih =>
    obtain ⟨hs, hcp⟩ := h
    obtain ⟨hcanonical, hcovers⟩ := insert_spec (ih hs).1 (le_refl cp) hcp
    refine ⟨hcanonical, fun x => ?_⟩
    rw [run, CpRangeSet.insertCp, hcovers, (ih hs).2]
    refine or_congr_right ⟨fun hx => ?_, fun hx => ?_⟩
    · exact Nat.le_antisymm hx.2 hx.1
    · rw [Set.mem_singleton_iff.mp hx]
      exact ⟨le_rfl, le_rfl⟩
  | union s other ihs iho =>
    obtain ⟨hcanonical, hcovers⟩ := union_spec (ihs h.1).1 (iho h.2).1
    refine ⟨hcanonical, fun x => ?_⟩
    rw [run, hcovers, (ihs h.1).2, (iho h.2).2]
    rfl
  | intersect s other ihs iho =>
    obtain ⟨hcanonical, hcovers⟩ := intersect_spec (ihs h.1).1 (iho h.2).1
    refine ⟨hcanonical, fun x => ?_⟩
    rw [run, hcovers, (ihs h.1).2, (iho h.2).2]
    rfl
  | difference s other ihs iho =>
    obtain ⟨hcanonical, hcovers⟩ := difference_spec (ihs h.1).1 (iho h.2).1
    refine ⟨hcanonical, fun x => ?_⟩
    rw [run, hcovers, (ihs h.1).2, (iho h.2).2]
    rfl
  | complement s ih =>
    obtain ⟨hcanonical, hcovers⟩ := complement_spec (ih h).1
    refine ⟨hcanonical, fun x => ?_⟩
    rw [run, hcovers, (ih h).2]
    rfl

/-- **A canonical set algebra.**  The ranges of a set that is built are sorted, no two of them
overlap or touch, the test of a code point is the Boolean combination of the tests of the
operands, and sets with the same code points are one value. -/
theorem canonical_algebra (b : Build) (h : b.Legal) :
    Canonical b.run.ranges ∧ (∀ x, b.run.contains x = true ↔ x ∈ b.members) ∧
      ∀ other : Build, other.Legal →
        (∀ x ≤ cpMax, b.run.contains x = other.run.contains x) → b.run = other.run := by
  obtain ⟨hcanonical, hcovers⟩ := b.run_spec h
  refine ⟨hcanonical, fun x => (contains_iff hcanonical).trans (hcovers x), fun other hother hsame => ?_⟩
  obtain ⟨hcanonical', -⟩ := other.run_spec hother
  have hranges : b.run.ranges = other.run.ranges := by
    refine Separated.ext hcanonical.proper hcanonical.separated hcanonical'.proper
      hcanonical'.separated fun x => ?_
    by_cases hx : x ≤ cpMax
    · rw [← contains_iff hcanonical, ← contains_iff hcanonical', hsame x hx]
    · have hoff {l : Ranges} (hl : Canonical l) : ¬ Covers l x := by
        rintro ⟨r, hr, -, hle⟩
        exact hx (hle.trans (hl.bounded r hr))
      exact iff_of_false (hoff hcanonical) (hoff hcanonical')
  calc b.run = ⟨b.run.ranges⟩ := rfl
    _ = ⟨other.run.ranges⟩ := by rw [hranges]
    _ = other.run := rfl

/-- Two ranges that a third one joins, with a part taken away. -/
theorem canonical_algebra_joined :
    Canonical (Build.difference (.insert (.insert (.insert .new 10 20) 30 40) 21 29)
      (.insert .new 0 9)).run.ranges :=
  (canonical_algebra _ (by simp [Legal, cpMax])).1

end Build

end CpRangeSet

end Torajs.Regex
