import Mathlib.Data.List.Infix
import Mathlib.Data.List.Basic
import Mathlib.Order.MinMax

/-!
# Sorted lists of disjoint ranges

Sets of naturals as lists of inclusive ranges: merging touching neighbours, the union of
two lists, the test whether two lists meet and the test whether a list of points meets
one.  Each operation is one pass that keeps the place it has reached, and is right for
lists in order.
-/

namespace RangeList

/-- Inclusive ranges `(lo, hi)`. -/
abbrev Ranges := List (ℕ × ℕ)

/-- The set a list of ranges stands for. -/
def Covers (l : Ranges) (h : ℕ) : Prop := ∃ r ∈ l, r.1 ≤ h ∧ h ≤ r.2

/-- No range is empty. -/
def Proper (l : Ranges) : Prop := ∀ r ∈ l, r.1 ≤ r.2

/-- The ranges ascend and share no point. -/
def Ascending (l : Ranges) : Prop := l.Pairwise fun r s => r.2 < s.1

/-- The ranges ascend and do not even touch. -/
def Separated (l : Ranges) : Prop := l.Pairwise fun r s => r.2 + 1 < s.1

lemma covers_nil (h : ℕ) : ¬ Covers [] h := by
  rintro ⟨r, hr, _⟩
  cases hr

lemma covers_cons {r : ℕ × ℕ} {l : Ranges} {h : ℕ} :
    Covers (r :: l) h ↔ (r.1 ≤ h ∧ h ≤ r.2) ∨ Covers l h := by
  simp [Covers]

lemma covers_append {l l' : Ranges} {h : ℕ} :
    Covers (l ++ l') h ↔ Covers l h ∨ Covers l' h := by
  simp [Covers, or_and_right, exists_or]

lemma covers_perm {l l' : Ranges} (hp : l.Perm l') {h : ℕ} : Covers l h ↔ Covers l' h := by
  simp [Covers, hp.mem_iff]

lemma Separated.ascending {l : Ranges} (hl : Separated l) : Ascending l :=
  hl.imp fun h => Nat.lt_of_succ_lt h

/-- Ranges that do not touch end where what they cover ends. -/
lemma Separated.head_le {r s : ℕ × ℕ} {l l' : Ranges} (hs : s.1 ≤ s.2)
    (hl' : Separated (s :: l')) (hcover : ∀ h, Covers (r :: l) h → Covers (s :: l') h)
    (hlow : r.1 = s.1) : r.2 ≤ s.2 := by
  by_contra hlt
  rcases covers_cons.mp (hcover (s.2 + 1) (covers_cons.mpr (Or.inl (by omega)))) with
    ⟨-, hle⟩ | ⟨q, hq, hlow', -⟩
  · omega
  · have hgap := (List.pairwise_cons.mp hl').1 q hq
    omega

/-- Ranges start where what they cover starts. -/
lemma Separated.head_ge {r s : ℕ × ℕ} {l l' : Ranges} (hs : s.1 ≤ s.2) (hr : r.1 ≤ r.2)
    (hl' : Separated (s :: l')) (hcover : ∀ h, Covers (r :: l) h → Covers (s :: l') h) :
    s.1 ≤ r.1 := by
  rcases covers_cons.mp (hcover r.1 (covers_cons.mpr (Or.inl ⟨le_rfl, hr⟩))) with
    ⟨hle, -⟩ | ⟨q, hq, hle, -⟩
  · exact hle
  · have hgap := (List.pairwise_cons.mp hl').1 q hq
    omega

/-- **A set has one list** of ranges that do not touch. -/
theorem Separated.ext {a b : Ranges} (hpa : Proper a) (ha : Separated a) (hpb : Proper b)
    (hb : Separated b) (hcover : ∀ h, Covers a h ↔ Covers b h) : a = b := by
  induction a generalizing b with
  | nil =>
    cases b with
    | nil => rfl
    | cons s b =>
      exact absurd ((hcover s.1).mpr
        (covers_cons.mpr (Or.inl ⟨le_rfl, hpb s List.mem_cons_self⟩))) (covers_nil _)
  | cons r a ih =>
    cases b with
    | nil =>
      exact absurd ((hcover r.1).mp
        (covers_cons.mpr (Or.inl ⟨le_rfl, hpa r List.mem_cons_self⟩))) (covers_nil _)
    | cons s b =>
      have hr := hpa r List.mem_cons_self
      have hs := hpb s List.mem_cons_self
      have hlow : r.1 = s.1 := Nat.le_antisymm
        (ha.head_ge hr hs fun h => (hcover h).mpr) (hb.head_ge hs hr fun h => (hcover h).mp)
      have hhigh : r.2 = s.2 := Nat.le_antisymm
        (hb.head_le hs (fun h => (hcover h).mp) hlow)
        (ha.head_le hr (fun h => (hcover h).mpr) hlow.symm)
      obtain rfl : r = s := Prod.ext hlow hhigh
      obtain ⟨hgapA, ha'⟩ := List.pairwise_cons.mp ha
      obtain ⟨hgapB, hb'⟩ := List.pairwise_cons.mp hb
      refine congrArg (r :: ·) (ih (fun q hq => hpa q (List.mem_cons_of_mem _ hq)) ha'
        (fun q hq => hpb q (List.mem_cons_of_mem _ hq)) hb' fun h => ?_)
      -- what the rest covers lies behind the head
      have hbehind {l : Ranges} (hgap : ∀ q ∈ l, r.2 + 1 < q.1) (hc : Covers l h) : r.2 < h := by
        obtain ⟨q, hq, hle, -⟩ := hc
        have hlt := hgap q hq
        omega
      constructor
      · intro hc
        have hlt := hbehind hgapA hc
        exact (covers_cons.mp ((hcover h).mp (covers_cons.mpr (Or.inr hc)))).resolve_left
          fun hhead => by omega
      · intro hc
        have hlt := hbehind hgapB hc
        exact (covers_cons.mp ((hcover h).mpr (covers_cons.mpr (Or.inr hc)))).resolve_left
          fun hhead => by omega

/-! ### Merging neighbours -/

/-- One step of a merge, the last range first: the next range is joined to the last one when
it starts inside it or right after it. -/
def push : Ranges → ℕ × ℕ → Ranges
  | [], next => [next]
  | last :: out, next =>
    if next.1 ≤ last.2 + 1 then (last.1, max last.2 next.2) :: out else next :: last :: out

/-- Touching and overlapping neighbours merged. -/
def merged (l : Ranges) : Ranges := (l.foldl push []).reverse

/-- What the ranges merged so far satisfy, last range first. -/
structure Pushed (out : Ranges) : Prop where
  proper : Proper out
  separated : out.Pairwise fun s r => r.2 + 1 < s.1

lemma Pushed.push {out : Ranges} (h : Pushed out) {next : ℕ × ℕ} (hnext : next.1 ≤ next.2)
    (hstart : ∀ r ∈ out.head?, r.1 ≤ next.1) : Pushed (push out next) := by
  cases out with
  | nil =>
    refine ⟨?_, List.pairwise_singleton _ _⟩
    intro r hr
    obtain rfl := List.mem_singleton.mp hr
    exact hnext
  | cons last out =>
    obtain ⟨hlast, hout⟩ := List.pairwise_cons.mp h.separated
    have hlastle : last.1 ≤ last.2 := h.proper last List.mem_cons_self
    rw [RangeList.push]
    by_cases htouch : next.1 ≤ last.2 + 1
    · rw [if_pos htouch]
      refine ⟨?_, List.pairwise_cons.mpr ⟨hlast, hout⟩⟩
      intro r hr
      rcases List.mem_cons.mp hr with rfl | hr
      · exact hlastle.trans (le_max_left _ _)
      · exact h.proper r (List.mem_cons_of_mem _ hr)
    · rw [if_neg htouch]
      refine ⟨?_, List.pairwise_cons.mpr ⟨?_, h.separated⟩⟩
      · intro r hr
        rcases List.mem_cons.mp hr with rfl | hr
        · exact hnext
        · exact h.proper r hr
      · intro r hr
        rcases List.mem_cons.mp hr with rfl | hr
        · omega
        · have := hlast r hr
          omega

lemma covers_push {out : Ranges} {next : ℕ × ℕ} (hstart : ∀ r ∈ out.head?, r.1 ≤ next.1)
    {h : ℕ} : Covers (push out next) h ↔ Covers out h ∨ (next.1 ≤ h ∧ h ≤ next.2) := by
  cases out with
  | nil => simp [push, Covers]
  | cons last out =>
    have hs : last.1 ≤ next.1 := hstart last (by simp)
    rw [push]
    by_cases htouch : next.1 ≤ last.2 + 1
    · rw [if_pos htouch, covers_cons, covers_cons]
      dsimp only
      constructor
      · rintro (⟨hlo, hhi⟩ | hc)
        · rcases le_max_iff.mp hhi with hhi | hhi
          · exact Or.inl (Or.inl ⟨hlo, hhi⟩)
          · by_cases hin : h ≤ last.2
            · exact Or.inl (Or.inl ⟨hlo, hin⟩)
            · exact Or.inr ⟨by omega, hhi⟩
        · exact Or.inl (Or.inr hc)
      · rintro ((⟨hlo, hhi⟩ | hc) | ⟨hlo, hhi⟩)
        · exact Or.inl ⟨hlo, hhi.trans (le_max_left _ _)⟩
        · exact Or.inr hc
        · exact Or.inl ⟨hs.trans hlo, hhi.trans (le_max_right _ _)⟩
    · rw [if_neg htouch, covers_cons, or_comm]

/-- The head of a push starts no later than the next range does. -/
lemma head_push {out : Ranges} {next : ℕ × ℕ} (hstart : ∀ r ∈ out.head?, r.1 ≤ next.1) :
    ∀ r ∈ (push out next).head?, r.1 ≤ next.1 := by
  intro r hr
  cases out with
  | nil =>
    obtain rfl : next = r := by simpa [push] using hr
    exact le_rfl
  | cons last out =>
    rw [push] at hr
    by_cases htouch : next.1 ≤ last.2 + 1
    · rw [if_pos htouch] at hr
      obtain rfl : (last.1, max last.2 next.2) = r := by simpa using hr
      exact hstart last (by simp)
    · rw [if_neg htouch] at hr
      obtain rfl : next = r := by simpa using hr
      exact le_rfl

/-- Bounds of ranges survive a push. -/
lemma bounds_push {P : ℕ → Prop} {Q : ℕ → Prop} {out : Ranges} {next : ℕ × ℕ}
    (hout : ∀ r ∈ out, P r.1 ∧ Q r.2) (hnext : P next.1 ∧ Q next.2) :
    ∀ r ∈ push out next, P r.1 ∧ Q r.2 := by
  cases out with
  | nil =>
    intro r hr
    obtain rfl := List.mem_singleton.mp hr
    exact hnext
  | cons last out =>
    have hlast := hout last List.mem_cons_self
    intro r hr
    rw [push] at hr
    by_cases htouch : next.1 ≤ last.2 + 1
    · rw [if_pos htouch] at hr
      rcases List.mem_cons.mp hr with rfl | hr
      · refine ⟨hlast.1, ?_⟩
        dsimp only
        rcases le_total last.2 next.2 with hle | hle
        · rw [max_eq_right hle]
          exact hnext.2
        · rw [max_eq_left hle]
          exact hlast.2
      · exact hout r (List.mem_cons_of_mem _ hr)
    · rw [if_neg htouch] at hr
      rcases List.mem_cons.mp hr with rfl | hr
      · exact hnext
      · exact hout r hr

/-- Starts in order. -/
def StartsAscend (l : Ranges) : Prop := l.Pairwise fun r s => r.1 ≤ s.1

lemma foldl_push {l : Ranges} (hproper : Proper l) (hstarts : StartsAscend l) :
    ∀ {out : Ranges}, Pushed out → (∀ r ∈ out.head?, ∀ s ∈ l, r.1 ≤ s.1) →
      Pushed (l.foldl push out) ∧
        ∀ h, Covers (l.foldl push out) h ↔ Covers out h ∨ Covers l h := by
  induction l with
  | nil => exact fun hout _ => ⟨hout, fun h => by simp [covers_nil]⟩
  | cons next l ih =>
    intro out hout hbefore
    obtain ⟨hnext, hrest⟩ := List.pairwise_cons.mp hstarts
    have hstart : ∀ r ∈ out.head?, r.1 ≤ next.1 := fun r hr =>
      hbefore r hr next List.mem_cons_self
    have hpushed := hout.push (hproper next List.mem_cons_self) hstart
    obtain ⟨hfold, hcovers⟩ := ih (fun r hr => hproper r (List.mem_cons_of_mem _ hr)) hrest
      hpushed fun r hr s hs => (head_push hstart r hr).trans (hnext s hs)
    refine ⟨hfold, fun h => ?_⟩
    rw [List.foldl_cons, hcovers, covers_push hstart, covers_cons, or_assoc]

/-- **Merging neighbours keeps the set and leaves separated ranges.** -/
theorem merged_spec {l : Ranges} (hproper : Proper l) (hstarts : StartsAscend l) :
    Proper (merged l) ∧ Separated (merged l) ∧ ∀ h, Covers (merged l) h ↔ Covers l h := by
  have hnil : Pushed [] := ⟨fun _ hr => absurd hr List.not_mem_nil, List.Pairwise.nil⟩
  obtain ⟨hpushed, hcovers⟩ := foldl_push hproper hstarts hnil (by simp)
  refine ⟨fun r hr => hpushed.proper r (List.mem_reverse.mp hr),
    List.pairwise_reverse.mpr hpushed.separated, fun h => ?_⟩
  rw [merged, covers_perm (List.reverse_perm _), hcovers]
  simp [covers_nil]

/-- The ends of merged ranges are ends of the ranges merged. -/
lemma merged_bounds {P Q : ℕ → Prop} {l : Ranges} (hl : ∀ r ∈ l, P r.1 ∧ Q r.2) :
    ∀ r ∈ merged l, P r.1 ∧ Q r.2 := by
  have key : ∀ (l out : Ranges), (∀ r ∈ l, P r.1 ∧ Q r.2) → (∀ r ∈ out, P r.1 ∧ Q r.2) →
      ∀ r ∈ l.foldl push out, P r.1 ∧ Q r.2 := by
    intro l
    induction l with
    | nil => exact fun _ _ hout => hout
    | cons next l ih =>
      intro out hl hout
      exact ih _ (fun r hr => hl r (List.mem_cons_of_mem _ hr))
        (bounds_push hout (hl next List.mem_cons_self))
  intro r hr
  exact key l [] hl (fun _ h => absurd h List.not_mem_nil) r (List.mem_reverse.mp hr)

/-! ### Union -/

/-- Ranges compared by start, then by end. -/
def before (r s : ℕ × ℕ) : Bool := r.1 < s.1 || (r.1 == s.1 && r.2 < s.2)

/-- The union of two lists: merge by order, then merge neighbours. -/
def union (a b : Ranges) : Ranges := merged (List.merge a b before)

lemma startsAscend_merge {a b : Ranges} (ha : StartsAscend a) (hb : StartsAscend b) :
    StartsAscend (List.merge a b before) := by
  induction a generalizing b with
  | nil => simpa using hb
  | cons r a iha =>
    induction b with
    | nil => simpa using ha
    | cons s b ihb =>
      obtain ⟨hr, ha'⟩ := List.pairwise_cons.mp ha
      obtain ⟨hs, hb'⟩ := List.pairwise_cons.mp hb
      have hmem : ∀ {l l' : Ranges} {x}, x ∈ List.merge l l' before ↔ x ∈ l ∨ x ∈ l' := by
        intro l l' x
        rw [(List.merge_perm_append before).mem_iff, List.mem_append]
      rw [List.cons_merge_cons]
      by_cases hbefore : before r s
      · rw [if_pos hbefore]
        have hrs : r.1 ≤ s.1 := by
          simp only [before, Bool.or_eq_true, Bool.and_eq_true, decide_eq_true_eq,
            beq_iff_eq] at hbefore
          omega
        refine List.pairwise_cons.mpr ⟨fun x hx => ?_, iha ha' hb⟩
        rcases hmem.mp hx with hx | hx
        · exact hr x hx
        · rcases List.mem_cons.mp hx with rfl | hx
          · exact hrs
          · exact hrs.trans (hs x hx)
      · rw [if_neg hbefore]
        have hsr : s.1 ≤ r.1 := by
          simp only [before, Bool.or_eq_true, Bool.and_eq_true, decide_eq_true_eq,
            beq_iff_eq] at hbefore
          omega
        refine List.pairwise_cons.mpr ⟨fun x hx => ?_, ihb hb'⟩
        rcases hmem.mp hx with hx | hx
        · rcases List.mem_cons.mp hx with rfl | hx
          · exact hsr
          · exact hsr.trans (hr x hx)
        · exact hs x hx

lemma Ascending.startsAscend {l : Ranges} (hproper : Proper l) (hl : Ascending l) :
    StartsAscend l := by
  refine List.Pairwise.imp_of_mem ?_ hl
  intro r s hr _ hrs
  exact (hproper r hr).trans hrs.le

/-- **The union of two ascending lists.** -/
theorem union_spec {a b : Ranges} (hpa : Proper a) (ha : Ascending a) (hpb : Proper b)
    (hb : Ascending b) :
    Proper (union a b) ∧ Separated (union a b) ∧
      ∀ h, Covers (union a b) h ↔ Covers a h ∨ Covers b h := by
  have hperm : (List.merge a b before).Perm (a ++ b) := List.merge_perm_append before
  have hproper : Proper (List.merge a b before) := by
    intro r hr
    rcases List.mem_append.mp (hperm.mem_iff.mp hr) with hr | hr
    · exact hpa r hr
    · exact hpb r hr
  obtain ⟨hp, hs, hc⟩ := merged_spec hproper
    (startsAscend_merge (ha.startsAscend hpa) (hb.startsAscend hpb))
  refine ⟨hp, hs, fun h => ?_⟩
  rw [union, hc, covers_perm hperm, covers_append]

/-! ### Gathering -/

/-- Ranges in any order, sorted and merged. -/
def gathered (l : Ranges) : Ranges := merged (l.mergeSort fun r s => !before s r)

/-- **Gathering keeps the set and leaves separated ranges.** -/
theorem gathered_spec {l : Ranges} (hproper : Proper l) :
    Proper (gathered l) ∧ Separated (gathered l) ∧ ∀ h, Covers (gathered l) h ↔ Covers l h := by
  have hperm := List.mergeSort_perm l fun r s => !before s r
  have hsorted : (l.mergeSort fun r s => !before s r).Pairwise fun r s => !before s r :=
    List.pairwise_mergeSort
      (fun r s t hrs hst => by
        simp only [before, Bool.not_eq_true', Bool.or_eq_false_iff, Bool.and_eq_false_iff,
          decide_eq_false_iff_not, beq_eq_false_iff_ne] at hrs hst ⊢
        omega)
      (fun r s => by
        simp only [before, Bool.or_eq_true, Bool.not_eq_true', Bool.or_eq_false_iff,
          Bool.and_eq_false_iff, decide_eq_false_iff_not, beq_eq_false_iff_ne]
        omega) l
  have hstarts : StartsAscend (l.mergeSort fun r s => !before s r) := by
    refine hsorted.imp fun {r s} hrs => ?_
    simp only [before, Bool.not_eq_true', Bool.or_eq_false_iff, decide_eq_false_iff_not] at hrs
    omega
  obtain ⟨hp, hs, hc⟩ := merged_spec
    (fun r hr => hproper r (hperm.mem_iff.mp hr)) hstarts
  refine ⟨hp, hs, fun h => ?_⟩
  rw [gathered, hc, covers_perm hperm]

/-- The ends of gathered ranges are ends of the ranges gathered. -/
lemma gathered_bounds {P Q : ℕ → Prop} {l : Ranges} (hl : ∀ r ∈ l, P r.1 ∧ Q r.2) :
    ∀ r ∈ gathered l, P r.1 ∧ Q r.2 :=
  merged_bounds fun r hr => hl r ((List.mergeSort_perm l _).mem_iff.mp hr)

/-! ### Meeting -/

/-- Whether two lists share a point: the range that ends first is left behind. -/
def overlaps : Ranges → Ranges → Bool
  | r :: a, s :: b =>
    if r.2 < s.1 then overlaps a (s :: b)
    else if s.2 < r.1 then overlaps (r :: a) b
    else true
  | [], _ | _ :: _, [] => false
  termination_by a b => a.length + b.length

/-- Past the end of a list's first range only the rest can cover. -/
lemma Covers.tail {r : ℕ × ℕ} {l : Ranges} {h : ℕ} (hc : Covers (r :: l) h) (hlt : r.2 < h) :
    Covers l h := by
  rcases covers_cons.mp hc with ⟨_, hhi⟩ | hc
  · omega
  · exact hc

/-- No point before the first range of an ascending list is covered. -/
lemma Ascending.le_of_covers {r : ℕ × ℕ} {l : Ranges} (hproper : Proper (r :: l))
    (hl : Ascending (r :: l)) {h : ℕ} (hc : Covers (r :: l) h) : r.1 ≤ h := by
  rcases covers_cons.mp hc with ⟨hlo, _⟩ | ⟨s, hs, hlo, _⟩
  · exact hlo
  · have hrs := (List.pairwise_cons.mp hl).1 s hs
    have hr := hproper r List.mem_cons_self
    omega

/-- **Two ascending lists that share a point are found to.** -/
theorem overlaps_of_covers {a b : Ranges} (hpa : Proper a) (ha : Ascending a) (hpb : Proper b)
    (hb : Ascending b) {h : ℕ} (hca : Covers a h) (hcb : Covers b h) : overlaps a b = true := by
  fun_induction overlaps a b with
  | case1 r a s b hlt ih =>
    have hs := hb.le_of_covers hpb hcb
    exact ih (fun x hx => hpa x (List.mem_cons_of_mem _ hx)) (List.pairwise_cons.mp ha).2 hpb hb
      (hca.tail (by omega)) hcb
  | case2 r a s b _ hlt ih =>
    have hr := ha.le_of_covers hpa hca
    exact ih hpa ha (fun x hx => hpb x (List.mem_cons_of_mem _ hx)) (List.pairwise_cons.mp hb).2
      hca (hcb.tail (by omega))
  | case3 => rfl
  | case4 => exact absurd hca (covers_nil h)
  | case5 => exact absurd hcb (covers_nil h)

/-- Whether some of the points, in order, falls inside a range: the ranges that end before
a point are left behind for good. -/
def anyInside : List ℕ → Ranges → Bool
  | [], _ => false
  | p :: points, l =>
    match l.dropWhile fun r => r.2 < p with
    | [] => anyInside points []
    | r :: l' => if r.1 ≤ p then true else anyInside points (r :: l')

/-- Ranges left behind cover nothing from the point on. -/
lemma Covers.dropWhile {l : Ranges} {p h : ℕ} (hc : Covers l h) (hph : p ≤ h) :
    Covers (l.dropWhile fun r => r.2 < p) h := by
  induction l with
  | nil => exact hc
  | cons r l ih =>
    rw [List.dropWhile_cons]
    by_cases hr : r.2 < p
    · rw [if_pos (by simpa using hr)]
      exact ih (hc.tail (by omega))
    · rwa [if_neg (by simpa using hr)]

/-- **A point of an ascending list inside an ascending list of ranges is found.** -/
theorem anyInside_of_covers {points : List ℕ} {l : Ranges}
    (hpoints : points.Pairwise fun p q => p ≤ q) (hproper : Proper l) (hl : Ascending l) {h : ℕ}
    (hmem : h ∈ points) (hc : Covers l h) : anyInside points l = true := by
  induction points generalizing l with
  | nil => cases hmem
  | cons p points ih =>
    obtain ⟨hp, hpoints'⟩ := List.pairwise_cons.mp hpoints
    have hph : p ≤ h := by
      rcases List.mem_cons.mp hmem with rfl | hmem
      · exact le_rfl
      · exact hp h hmem
    have hsuffix := List.dropWhile_suffix (l := l) fun r => r.2 < p
    have hproper' : Proper (l.dropWhile fun r => r.2 < p) := fun r hr =>
      hproper r (hsuffix.subset hr)
    have hl' : Ascending (l.dropWhile fun r => r.2 < p) := List.Pairwise.sublist hsuffix.sublist hl
    have hc' := hc.dropWhile hph
    rw [anyInside]
    cases hdrop : l.dropWhile fun r => r.2 < p with
    | nil =>
      rw [hdrop] at hc'
      exact absurd hc' (covers_nil h)
    | cons r l' =>
      rw [hdrop] at hc' hproper' hl'
      dsimp only
      by_cases hr : r.1 ≤ p
      · rw [if_pos hr]
      · rw [if_neg hr]
        rcases List.mem_cons.mp hmem with rfl | hmem
        · exact absurd (hl'.le_of_covers hproper' hc') hr
        · exact ih hpoints' hproper' hl' hmem hc'

end RangeList
