import Mathlib.Data.List.Basic
import Mathlib.Data.List.Perm.Basic
import Mathlib.Order.Basic

/-!
# Stable sorts

A comparison that is a strict weak order, and the lists that are a stable sort of another one: a
permutation of it, in order, with the elements that tie with any given one in the same order.
There is at most one of them.  Merging two of them and inserting an element behind a sorted list
give stable sorts again, and a merge can be built from its end as well as from its beginning.
-/

namespace StableSort

variable {α : Type*}

/-- A strict weak order: no two elements are greater than each other, and an element that is not
greater than a second one, which is not greater than a third one, is not greater than the third
one. -/
structure StrictWeak (gt : α → α → Bool) : Prop where
  asymm : ∀ a b, gt a b = true → gt b a = false
  negTrans : ∀ a b c, gt a b = false → gt b c = false → gt a c = false

/-- Two elements tie when none is greater than the other. -/
def tied (gt : α → α → Bool) (a b : α) : Bool := !gt a b && !gt b a

/-- The order of the elements that tie with a given one is the same in both lists, which have the
same elements. -/
structure SameTies (gt : α → α → Bool) (xs ys : List α) : Prop where
  perm : ys.Perm xs
  ties : ∀ x, ys.filter (tied gt x) = xs.filter (tied gt x)

/-- No element of the list is greater than one behind it. -/
def Sorted (gt : α → α → Bool) (xs : List α) : Prop := xs.Pairwise fun a b => gt a b = false

/-- `ys` is a stable sort of `xs`. -/
structure IsStableSort (gt : α → α → Bool) (xs ys : List α) : Prop where
  same : SameTies gt xs ys
  sorted : Sorted gt ys

variable {gt : α → α → Bool}

/-! ### Strict weak orders -/

/-- No element is greater than itself. -/
lemma StrictWeak.irrefl (h : StrictWeak gt) (a : α) : gt a a = false := by
  by_contra hne
  have hgt : gt a a = true := by simpa using hne
  exact hne (h.asymm a a hgt)

/-- An element that is greater than one that is no less than a third is greater than the third. -/
lemma StrictWeak.gt_of_gt_of_le (h : StrictWeak gt) {a b c : α} (hab : gt a b = true)
    (hcb : gt c b = false) : gt a c = true := by
  by_contra hne
  rw [h.negTrans a c b (by simpa using hne) hcb] at hab
  exact absurd hab (by decide)

/-- An element that is no less than one that is greater than a third is greater than the third. -/
lemma StrictWeak.gt_of_le_of_gt (h : StrictWeak gt) {a b c : α} (hba : gt b a = false)
    (hbc : gt b c = true) : gt a c = true := by
  by_contra hne
  rw [h.negTrans b a c hba (by simpa using hne)] at hbc
  exact absurd hbc (by decide)

/-- Ties, as two comparisons. -/
lemma tied_iff {a b : α} : tied gt a b = true ↔ gt a b = false ∧ gt b a = false := by
  simp [tied]

/-- Every element ties with itself. -/
lemma StrictWeak.tied_self (h : StrictWeak gt) (a : α) : tied gt a a = true :=
  tied_iff.mpr ⟨h.irrefl a, h.irrefl a⟩

/-- Two elements of which one is greater do not tie with the same element. -/
lemma StrictWeak.not_tied_of_gt (h : StrictWeak gt) {a b x : α} (hab : gt a b = true)
    (hb : tied gt x b = true) : tied gt x a = false := by
  by_contra hne
  have ha : tied gt x a = true := by simpa using hne
  rw [h.negTrans a x b (tied_iff.mp ha).2 (tied_iff.mp hb).1] at hab
  exact absurd hab (by decide)

/-! ### The same ties -/

/-- A list has the same ties as itself. -/
lemma SameTies.refl (xs : List α) : SameTies gt xs xs := ⟨List.Perm.refl xs, fun _ => rfl⟩

/-- The same ties, from one list to the next. -/
lemma SameTies.trans {xs ys zs : List α} (h : SameTies gt xs ys) (h' : SameTies gt ys zs) :
    SameTies gt xs zs :=
  ⟨h'.perm.trans h.perm, fun x => (h'.ties x).trans (h.ties x)⟩

/-- The same ties of parts are the same ties of the whole. -/
lemma SameTies.append {xs xs' ys ys' : List α} (h : SameTies gt xs xs')
    (h' : SameTies gt ys ys') : SameTies gt (xs ++ ys) (xs' ++ ys') :=
  ⟨h.perm.append h'.perm, fun x => by rw [List.filter_append, List.filter_append, h.ties, h'.ties]⟩

/-- Neighbours may be exchanged when the first one is greater. -/
lemma SameTies.exchange (h : StrictWeak gt) {a b : α} (hab : gt a b = true) (xs ys : List α) :
    SameTies gt (xs ++ a :: b :: ys) (xs ++ b :: a :: ys) := by
  refine ⟨(List.Perm.swap a b ys).append_left xs, fun x => ?_⟩
  simp only [List.filter_append, List.filter_cons]
  by_cases hb : tied gt x b = true
  · have ha := h.not_tied_of_gt hab hb
    simp [ha, hb]
  · simp [hb]

/-- An element may be moved in front of elements that are greater. -/
lemma SameTies.move (h : StrictWeak gt) {c : α} {ys : List α} (hys : ∀ y ∈ ys, gt y c = true)
    (xs : List α) : SameTies gt (xs ++ ys ++ [c]) (xs ++ c :: ys) := by
  refine ⟨?_, fun x => ?_⟩
  · rw [List.append_assoc]
    exact (List.perm_append_singleton c ys).symm.append_left xs
  · simp only [List.filter_append, List.filter_cons, List.filter_nil, List.append_assoc]
    congr 1
    by_cases hc : tied gt x c = true
    · have hnone : ys.filter (tied gt x) = [] := by
        rw [List.filter_eq_nil_iff]
        intro y hy
        rw [h.not_tied_of_gt (hys y hy) hc]
        decide
      simp [hc, hnone]
    · simp [hc]

/-- A stable sort of a part in front of other elements. -/
lemma IsStableSort.of_append {gt : α → α → Bool} {X X' Z Y : List α} (hX : IsStableSort gt X X')
    (hY : IsStableSort gt (X' ++ Z) Y) : IsStableSort gt (X ++ Z) Y :=
  ⟨(hX.same.append (SameTies.refl Z)).trans hY.same, hY.sorted⟩

/-! ### Uniqueness -/

/-- A list has at most one stable sort. -/
theorem IsStableSort.unique (h : StrictWeak gt) {xs ys zs : List α} (hy : IsStableSort gt xs ys)
    (hz : IsStableSort gt xs zs) : ys = zs := by
  have hsame : SameTies gt ys zs :=
    ⟨hz.same.perm.trans hy.same.perm.symm, fun x => (hz.same.ties x).trans (hy.same.ties x).symm⟩
  have hys := hy.sorted
  have hzs := hz.sorted
  clear hy hz
  induction ys generalizing zs with
  | nil => exact (List.perm_nil.mp hsame.perm).symm
  | cons a ys ih =>
    cases zs with
    | nil => exact absurd hsame.perm.length_eq (by simp)
    | cons b zs =>
      have hyc := List.pairwise_cons.mp hys
      have hzc := List.pairwise_cons.mp hzs
      -- each of the two heads is in the other list, so that they tie
      have hab : gt a b = false := by
        rcases List.mem_cons.mp (hsame.perm.mem_iff.mp List.mem_cons_self) with rfl | hb
        · exact h.irrefl b
        · exact hyc.1 b hb
      have hba : gt b a = false := by
        rcases List.mem_cons.mp (hsame.perm.mem_iff.mpr List.mem_cons_self) with rfl | ha
        · exact h.irrefl a
        · exact hzc.1 a ha
      have hties := hsame.ties a
      rw [List.filter_cons_of_pos (tied_iff.mpr ⟨hab, hba⟩),
        List.filter_cons_of_pos (h.tied_self a)] at hties
      obtain ⟨rfl, -⟩ := List.cons.inj hties
      have htail : SameTies gt ys zs := by
        refine ⟨(List.perm_cons b).mp hsame.perm, fun x => ?_⟩
        have hx := hsame.ties x
        rw [List.filter_cons, List.filter_cons] at hx
        split_ifs at hx
        · exact (List.cons.inj hx).2
        · exact hx
      rw [ih htail hyc.2 hzc.2]

/-! ### Insertion -/

/-- An element inserted into a sorted list in front of all greater elements. -/
lemma Sorted.insert (h : StrictWeak gt) {c : α} {xs ys : List α} (hs : Sorted gt (xs ++ ys))
    (hys : ∀ y ∈ ys, gt y c = true) (hxs : ∀ x, xs.getLast? = some x → gt x c = false) :
    Sorted gt (xs ++ c :: ys) := by
  obtain ⟨h1, h2, h3⟩ := List.pairwise_append.mp hs
  have hle : ∀ x ∈ xs, gt x c = false := by
    intro x hx
    cases hlast : xs.getLast? with
    | none =>
      rw [List.getLast?_eq_none_iff.mp hlast] at hx
      exact absurd hx List.not_mem_nil
    | some z =>
      obtain ⟨ws, rfl⟩ := List.getLast?_eq_some_iff.mp hlast
      have hz := hxs z hlast
      rcases List.mem_append.mp hx with hx | hx
      · have hxz := (List.pairwise_append.mp h1).2.2 x hx z List.mem_cons_self
        exact h.negTrans x z c hxz hz
      · rw [List.mem_singleton.mp hx]
        exact hz
  refine List.pairwise_append.mpr ⟨h1, List.pairwise_cons.mpr ⟨?_, h2⟩, ?_⟩
  · exact fun y hy => h.asymm y c (hys y hy)
  · intro x hx y hy
    rcases List.mem_cons.mp hy with rfl | hy
    · exact hle x hx
    · exact h3 x hx y hy

/-! ### Merging -/

/-- The stable merge of two lists: the left one goes first unless it is greater. -/
def merge (gt : α → α → Bool) (xs ys : List α) : List α := List.merge xs ys fun a b => !gt a b

/-- A merge with nothing on the right. -/
lemma merge_nil_right (xs : List α) : merge gt xs [] = xs := List.merge_right xs

/-- A merge with nothing on the left. -/
lemma merge_nil_left (ys : List α) : merge gt [] ys = ys := by
  simp [merge]

/-- The first element of a merge. -/
lemma merge_cons_cons (a b : α) (xs ys : List α) :
    merge gt (a :: xs) (b :: ys) =
      if gt a b = true then b :: merge gt (a :: xs) ys else a :: merge gt xs (b :: ys) := by
  unfold merge
  rw [List.cons_merge_cons]
  cases gt a b <;> rfl

/-- A merge has the elements of both lists. -/
lemma merge_perm (xs ys : List α) : (merge gt xs ys).Perm (xs ++ ys) :=
  List.merge_perm_append _

/-- A merge is as long as both lists. -/
lemma length_merge (xs ys : List α) : (merge gt xs ys).length = xs.length + ys.length := by
  rw [(merge_perm xs ys).length_eq, List.length_append]

/-- The merge of two sorted lists is sorted. -/
lemma sorted_merge (h : StrictWeak gt) {xs ys : List α} (hx : Sorted gt xs) (hy : Sorted gt ys) :
    Sorted gt (merge gt xs ys) := by
  have htrans : ∀ a b c, (!gt a b) = true → (!gt b c) = true → (!gt a c) = true := by
    intro a b c hab hbc
    simp only [Bool.not_eq_true'] at *
    exact h.negTrans a b c hab hbc
  have htotal : ∀ a b, ((!gt a b) || (!gt b a)) = true := by
    intro a b
    cases hab : gt a b with
    | false => rfl
    | true => rw [h.asymm a b hab]; rfl
  have hpair : (merge gt xs ys).Pairwise fun a b => (!gt a b) = true :=
    List.pairwise_merge htrans htotal xs ys (hx.imp fun hab => by simpa using hab) (hy.imp fun hab => by simpa using hab)
  exact hpair.imp fun hab => by simpa using hab

/-- The merge of two sorted lists keeps their ties, those of the left list first. -/
lemma sameTies_merge (h : StrictWeak gt) {xs ys : List α} (hx : Sorted gt xs) :
    SameTies gt (xs ++ ys) (merge gt xs ys) := by
  induction xs generalizing ys with
  | nil =>
    rw [merge_nil_left]
    exact SameTies.refl ys
  | cons a xs ihx =>
    induction ys with
    | nil =>
      rw [merge_nil_right, List.append_nil]
      exact SameTies.refl (a :: xs)
    | cons b ys ihy =>
      rw [merge_cons_cons]
      split_ifs with hab
      · -- all of the left list is greater than the element that overtakes it
        have hall : ∀ y ∈ a :: xs, gt y b = true := by
          intro y hy
          rcases List.mem_cons.mp hy with rfl | hy
          · exact hab
          · exact h.gt_of_le_of_gt ((List.pairwise_cons.mp hx).1 y hy) hab
        have hmove : SameTies gt ((a :: xs) ++ [b] ++ ys) (b :: (a :: xs) ++ ys) := by
          have hm := SameTies.move h hall []
          exact hm.append (SameTies.refl ys)
        have hb : SameTies gt [b] [b] := SameTies.refl [b]
        have hstep := hb.append ihy
        have hsplit : a :: xs ++ b :: ys = (a :: xs) ++ [b] ++ ys := by simp
        rw [hsplit]
        exact hmove.trans hstep
      · have ha : SameTies gt [a] [a] := SameTies.refl [a]
        exact ha.append (ihx (List.pairwise_cons.mp hx).2)

/-- The merge of stable sorts is the stable sort of the two lists. -/
theorem IsStableSort.merge (h : StrictWeak gt) {xs xs' ys ys' : List α}
    (hx : IsStableSort gt xs xs') (hy : IsStableSort gt ys ys') :
    IsStableSort gt (xs ++ ys) (merge gt xs' ys') :=
  ⟨(hx.same.append hy.same).trans (sameTies_merge h hx.sorted),
    sorted_merge h hx.sorted hy.sorted⟩

/-- Every list has a stable sort. -/
theorem exists_isStableSort (h : StrictWeak gt) (xs : List α) : ∃ ys, IsStableSort gt xs ys := by
  induction xs with
  | nil => exact ⟨[], SameTies.refl [], List.Pairwise.nil⟩
  | cons x xs ih =>
    obtain ⟨ys, hys⟩ := ih
    have hx : IsStableSort gt [x] [x] := ⟨SameTies.refl [x], List.pairwise_singleton _ _⟩
    exact ⟨_, hx.merge h hys⟩

/-! ### Merging from the end -/

/-- An element may be moved behind elements that are smaller. -/
lemma SameTies.moveBack (h : StrictWeak gt) {c : α} {ys : List α} (hys : ∀ y ∈ ys, gt c y = true) :
    SameTies gt (c :: ys) (ys ++ [c]) := by
  refine ⟨List.perm_append_singleton c ys, fun x => ?_⟩
  rw [List.filter_append, List.filter_cons]
  by_cases hc : tied gt x c = true
  · have hnone : ys.filter (tied gt x) = [] := by
      rw [List.filter_eq_nil_iff]
      intro y hy hty
      rw [h.not_tied_of_gt (hys y hy) hty] at hc
      exact absurd hc (by decide)
    simp [hc, hnone]
  · simp [hc]

/-- The last element of a sorted list is behind the others. -/
lemma Sorted.le_last {xs : List α} {a : α} (h : Sorted gt (xs ++ [a])) :
    ∀ x ∈ xs, gt x a = false :=
  fun x hx => (List.pairwise_append.mp h).2.2 x hx a List.mem_cons_self

/-- The beginning of a sorted list is sorted. -/
lemma Sorted.left {xs ys : List α} (h : Sorted gt (xs ++ ys)) : Sorted gt xs :=
  (List.pairwise_append.mp h).1

/-- A sorted list may be continued by an element that none of its elements is greater than. -/
lemma Sorted.concat {xs : List α} {a : α} (h : Sorted gt xs) (ha : ∀ x ∈ xs, gt x a = false) :
    Sorted gt (xs ++ [a]) := by
  refine List.pairwise_append.mpr ⟨h, List.pairwise_singleton _ _, ?_⟩
  intro x hx y hy
  rw [List.mem_singleton.mp hy]
  exact ha x hx

/-- The last element of the merge of two sorted lists: the last one of the right list unless the
last one of the left list is greater. -/
theorem merge_concat_concat (h : StrictWeak gt) {xs ys : List α} {a b : α}
    (hx : Sorted gt (xs ++ [a])) (hy : Sorted gt (ys ++ [b])) :
    merge gt (xs ++ [a]) (ys ++ [b]) =
      if gt a b = true then merge gt xs (ys ++ [b]) ++ [a] else merge gt (xs ++ [a]) ys ++ [b] := by
  have hwhole : IsStableSort gt ((xs ++ [a]) ++ (ys ++ [b])) (merge gt (xs ++ [a]) (ys ++ [b])) :=
    ⟨sameTies_merge h hx, sorted_merge h hx hy⟩
  refine hwhole.unique h ?_
  split_ifs with hab
  · have hgt : ∀ y ∈ ys ++ [b], gt a y = true := by
      intro y hy'
      rcases List.mem_append.mp hy' with hy' | hy'
      · exact h.gt_of_gt_of_le hab (hy.le_last y hy')
      · rw [List.mem_singleton.mp hy']
        exact hab
    refine ⟨?_, (sorted_merge h hx.left hy).concat ?_⟩
    · have hxs : SameTies gt xs xs := SameTies.refl xs
      have hmove := hxs.append (SameTies.moveBack h hgt)
      have hleft : SameTies gt (xs ++ (ys ++ [b])) (merge gt xs (ys ++ [b])) :=
        sameTies_merge h hx.left
      have hmerge := hleft.append (SameTies.refl [a])
      rw [show (xs ++ [a]) ++ (ys ++ [b]) = xs ++ a :: (ys ++ [b]) by simp]
      refine hmove.trans ?_
      rw [← List.append_assoc]
      exact hmerge
    · intro x hx'
      rcases List.mem_append.mp ((merge_perm xs (ys ++ [b])).mem_iff.mp hx') with hx' | hx'
      · exact hx.le_last x hx'
      · exact h.asymm a x (hgt x hx')
  · have hle : gt a b = false := by simpa using hab
    refine ⟨?_, (sorted_merge h hx hy.left).concat ?_⟩
    · rw [← List.append_assoc]
      exact (sameTies_merge h hx).append (SameTies.refl [b])
    · intro x hx'
      rcases List.mem_append.mp ((merge_perm (xs ++ [a]) ys).mem_iff.mp hx') with hx' | hx'
      · rcases List.mem_append.mp hx' with hx' | hx'
        · exact h.negTrans x a b (hx.le_last x hx') hle
        · rw [List.mem_singleton.mp hx']
          exact hle
      · exact hy.le_last x hx'

/-! ### Merging from both ends

The elements are marked by the list they come from, so that the elements taken from the two ends
can be counted. -/

/-- The comparison of marked elements. -/
def gtFst (gt : α → α → Bool) (p q : α × Bool) : Bool := gt p.1 q.1

/-- The elements of a list, with a mark. -/
def mark (b : Bool) (xs : List α) : List (α × Bool) := xs.map fun x => (x, b)

/-- The merge of the marked lists. -/
def marked (gt : α → α → Bool) (xs ys : List α) : List (α × Bool) :=
  merge (gtFst gt) (mark true xs) (mark false ys)

/-- Marks do not change the order. -/
lemma StrictWeak.gtFst (h : StrictWeak gt) : StrictWeak (gtFst gt) :=
  ⟨fun a b => h.asymm a.1 b.1, fun a b c => h.negTrans a.1 b.1 c.1⟩

/-- A sorted list is sorted with marks. -/
lemma Sorted.mark {xs : List α} (h : Sorted gt xs) (b : Bool) : Sorted (gtFst gt) (mark b xs) :=
  List.pairwise_map.mpr (h.imp fun hab => hab)

/-- The merge without the marks. -/
lemma map_fst_marked (xs ys : List α) : (marked gt xs ys).map Prod.fst = merge gt xs ys := by
  have hmap : ∀ b (zs : List α), (mark b zs).map Prod.fst = zs := by
    intro b zs
    rw [mark, List.map_map]
    exact List.map_id zs
  have h : ∀ ps qs : List (α × Bool), (List.merge ps qs fun a b => !gtFst gt a b).map Prod.fst =
      List.merge (ps.map Prod.fst) (qs.map Prod.fst) fun a b => !gt a b :=
    fun _ _ => List.map_merge fun _ _ _ _ => rfl
  rw [marked, merge, h, hmap, hmap]
  rfl

/-- As many elements of the merge are marked as the left list has. -/
lemma countP_marked (xs ys : List α) : (marked gt xs ys).countP Prod.snd = xs.length := by
  rw [marked, (merge_perm _ _).countP_eq, List.countP_append]
  have hleft : (mark true xs).countP Prod.snd = xs.length := by
    rw [List.countP_eq_length.mpr fun p hp => ?_, mark, List.length_map]
    obtain ⟨x, -, rfl⟩ := List.mem_map.mp hp
    rfl
  have hright : (mark false ys).countP Prod.snd = 0 := by
    rw [List.countP_eq_zero]
    intro p hp
    obtain ⟨x, -, rfl⟩ := List.mem_map.mp hp
    exact Bool.false_ne_true
  rw [hleft, hright, Nat.add_zero]

/-- The marked merge is as long as both lists. -/
lemma length_marked (xs ys : List α) : (marked gt xs ys).length = xs.length + ys.length := by
  rw [marked, length_merge, mark, mark, List.length_map, List.length_map]

/-- The first element of the marked merge. -/
lemma marked_cons_cons (a b : α) (xs ys : List α) :
    marked gt (a :: xs) (b :: ys) =
      if gt a b = true then (b, false) :: marked gt (a :: xs) ys
      else (a, true) :: marked gt xs (b :: ys) :=
  merge_cons_cons (a, true) (b, false) (mark true xs) (mark false ys)

/-- The last element of the marked merge of sorted lists. -/
lemma marked_concat_concat (h : StrictWeak gt) {xs ys : List α} {a b : α}
    (hx : Sorted gt (xs ++ [a])) (hy : Sorted gt (ys ++ [b])) :
    marked gt (xs ++ [a]) (ys ++ [b]) =
      if gt a b = true then marked gt xs (ys ++ [b]) ++ [(a, true)]
      else marked gt (xs ++ [a]) ys ++ [(b, false)] := by
  have hmx := hx.mark true
  have hmy := hy.mark false
  simp only [marked, mark, List.map_append, List.map_cons, List.map_nil] at *
  exact merge_concat_concat h.gtFst hmx hmy

/-- `P` are the first elements of the merge, `a` of the left list and `b` of the right one. -/
structure Front (gt : α → α → Bool) (xs ys : List α) (a b : ℕ) (P : List (α × Bool)) : Prop where
  left_le : a ≤ xs.length
  right_le : b ≤ ys.length
  merged : marked gt xs ys = P ++ marked gt (xs.drop a) (ys.drop b)
  length : P.length = a + b
  lefts : P.countP Prod.snd = a

/-- `S` are the last elements of the merge, when `c` of the left list and `d` of the right one
come before. -/
structure Back (gt : α → α → Bool) (xs ys : List α) (c d : ℕ) (S : List (α × Bool)) : Prop where
  left_le : c ≤ xs.length
  right_le : d ≤ ys.length
  merged : marked gt xs ys = marked gt (xs.take c) (ys.take d) ++ S
  length : S.length + (c + d) = xs.length + ys.length
  lefts : S.countP Prod.snd + c = xs.length

/-- Before the first step nothing is taken from the front. -/
lemma Front.start (xs ys : List α) : Front gt xs ys 0 0 [] :=
  ⟨Nat.zero_le _, Nat.zero_le _, rfl, rfl, rfl⟩

/-- Before the first step nothing is taken from the back. -/
lemma Back.start (xs ys : List α) : Back gt xs ys xs.length ys.length [] :=
  ⟨Nat.le_refl _, Nat.le_refl _, by simp, by simp, by simp⟩

/-- A step from the front takes the smaller one of the next elements, the left one on a tie. -/
lemma Front.step {xs ys : List α} {a b : ℕ} {P : List (α × Bool)} (h : Front gt xs ys a b P)
    (ha : a < xs.length) (hb : b < ys.length) :
    if gt xs[a] ys[b] = true then Front gt xs ys a (b + 1) (P ++ [(ys[b], false)])
    else Front gt xs ys (a + 1) b (P ++ [(xs[a], true)]) := by
  have hm := h.merged
  rw [List.drop_eq_getElem_cons ha, List.drop_eq_getElem_cons hb, marked_cons_cons] at hm
  split_ifs with hgt
  · rw [if_pos hgt] at hm
    refine ⟨h.left_le, hb, ?_, ?_, ?_⟩
    · rw [List.drop_eq_getElem_cons ha, hm, List.append_assoc]
      rfl
    · rw [List.length_append, h.length]
      rfl
    · rw [List.countP_append, h.lefts]
      rfl
  · rw [if_neg hgt] at hm
    refine ⟨ha, h.right_le, ?_, ?_, ?_⟩
    · rw [List.drop_eq_getElem_cons hb, hm, List.append_assoc]
      rfl
    · rw [List.length_append, h.length, List.length_singleton]
      omega
    · rw [List.countP_append, h.lefts]
      rfl

/-- A step from the back takes the greater one of the last elements, the right one on a tie. -/
lemma Back.step (hgt : StrictWeak gt) {xs ys : List α} (hx : Sorted gt xs) (hy : Sorted gt ys)
    {c d : ℕ} {S : List (α × Bool)} (h : Back gt xs ys (c + 1) (d + 1) S)
    (hc : c < xs.length) (hd : d < ys.length) :
    if gt xs[c] ys[d] = true then Back gt xs ys c (d + 1) ((xs[c], true) :: S)
    else Back gt xs ys (c + 1) d ((ys[d], false) :: S) := by
  have hm := h.merged
  have hlen := h.length
  have hlefts := h.lefts
  have hxc := List.take_succ_eq_append_getElem hc
  have hyd := List.take_succ_eq_append_getElem hd
  have hsx : Sorted gt (xs.take c ++ [xs[c]]) := hxc ▸ hx.sublist (List.take_sublist _ _)
  have hsy : Sorted gt (ys.take d ++ [ys[d]]) := hyd ▸ hy.sublist (List.take_sublist _ _)
  rw [hxc, hyd, marked_concat_concat hgt hsx hsy] at hm
  split_ifs with hg
  · rw [if_pos hg, List.append_assoc, ← hyd] at hm
    refine ⟨Nat.le_of_lt hc, hd, hm, ?_, ?_⟩
    · rw [List.length_cons]
      omega
    · rw [List.countP_cons_of_pos (by rfl)]
      omega
  · rw [if_neg hg, List.append_assoc, ← hxc] at hm
    refine ⟨hc, Nat.le_of_lt hd, hm, ?_, ?_⟩
    · rw [List.length_cons]
      omega
    · rw [List.countP_cons_of_neg (by simp)]
      omega

/-- When all elements are taken from the two ends, they are the merge. -/
theorem merge_of_both_ends {xs ys : List α} {a b c d : ℕ} {P S : List (α × Bool)}
    (hf : Front gt xs ys a b P) (hb : Back gt xs ys c d S)
    (hlen : P.length + S.length = xs.length + ys.length) :
    merge gt xs ys = P.map Prod.fst ++ S.map Prod.fst := by
  rw [← map_fst_marked, ← List.map_append]
  have hf' := hf.merged
  rw [hb.merged] at hf'
  have hPlen : (marked gt (xs.take c) (ys.take d)).length = P.length := by
    have htot := congrArg List.length hb.merged
    rw [List.length_append, length_marked] at htot
    omega
  rw [hb.merged, (List.append_inj hf' hPlen).1]

/-- When one element is left between the two ends, it is the next one of the left list exactly
when that list has one left, counted from both ends. -/
theorem merge_of_both_ends_middle {xs ys : List α} {a b c d : ℕ} {P S : List (α × Bool)}
    (hf : Front gt xs ys a b P) (hb : Back gt xs ys c d S)
    (hlen : P.length + S.length + 1 = xs.length + ys.length) :
    ∃ x, merge gt xs ys = P.map Prod.fst ++ x :: S.map Prod.fst ∧
      (if a < c then xs[a]? else ys[b]?) = some x := by
  obtain ⟨z, hz⟩ : ∃ z, (marked gt (xs.drop a) (ys.drop b)) = z :: S := by
    have hlenM := congrArg List.length hf.merged
    rw [List.length_append, length_marked] at hlenM
    obtain ⟨z, zs, hz⟩ := List.exists_cons_of_length_pos
      (l := marked gt (xs.drop a) (ys.drop b)) (by omega)
    have heq := hf.merged
    rw [hb.merged, hz, List.append_cons] at heq
    rw [hz, List.length_cons] at hlenM
    exact ⟨z, by rw [hz, (List.append_inj' heq (by omega)).2]⟩
  have hmerged := hf.merged
  rw [hz] at hmerged
  refine ⟨z.1, by rw [← map_fst_marked, hmerged, List.map_append, List.map_cons], ?_⟩
  -- the marks tell how many elements of the left list are left
  have hcount : (marked gt xs ys).countP Prod.snd = xs.length := countP_marked xs ys
  rw [hmerged, List.countP_append, List.countP_cons, hf.lefts] at hcount
  have hlefts := hb.lefts
  cases ha : xs.drop a with
  | nil =>
    cases hr : ys.drop b with
    | nil =>
      rw [ha, hr] at hz
      exact absurd hz (by simp [marked, mark, merge])
    | cons y ys' =>
      rw [ha, hr, marked, mark, List.map_nil, merge_nil_left] at hz
      obtain ⟨rfl, -⟩ := List.cons.inj hz
      rw [if_neg (by simp at hcount; omega), ← List.head?_drop, hr]
      rfl
  | cons x xs' =>
    cases hr : ys.drop b with
    | nil =>
      rw [ha, hr, marked, mark, mark, List.map_nil, merge_nil_right] at hz
      obtain ⟨rfl, -⟩ := List.cons.inj hz
      rw [if_pos (by simp at hcount; omega), ← List.head?_drop, ha]
      rfl
    | cons y ys' =>
      rw [ha, hr, marked_cons_cons] at hz
      split_ifs at hz
      · obtain ⟨rfl, -⟩ := List.cons.inj hz
        rw [if_neg (by simp at hcount; omega), ← List.head?_drop, hr]
        rfl
      · obtain ⟨rfl, -⟩ := List.cons.inj hz
        rw [if_pos (by simp at hcount; omega), ← List.head?_drop, ha]
        rfl

end StableSort
