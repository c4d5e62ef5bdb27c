import Mathlib.Data.List.Perm.Basic
import ToraJs.Link.DeadStripRuns

/-!
# Cutting a section twice

A section cut to a set of live atoms, its dead rows left at the starts of their gaps, is cut again
to a part of them.  The rows still separate every live atom from the padding behind it, so that the
second cut packs the atoms the direct cut packs, by the same residues and lengths.
-/

namespace Torajs.Link.DeadStrip

open Placement

/-! ### The atoms between starts -/

/-- An atom between sorted starts. -/
structure IsAtom (starts : List ℕ) (size x y : ℕ) : Prop where
  mem : x ∈ starts
  next : ∀ z ∈ starts, x < z → y ≤ z
  stop : y ∈ starts ∧ x < y ∨ y = size ∧ ∀ z ∈ starts, z ≤ x

lemma IsAtom.unique {starts : List ℕ} {size x y y' : ℕ} (h : IsAtom starts size x y)
    (h' : IsAtom starts size x y') : y = y' := by
  rcases h.stop with ⟨hy, hlt⟩ | ⟨rfl, hmax⟩
  · rcases h'.stop with ⟨hy', hlt'⟩ | ⟨rfl, hmax'⟩
    · exact le_antisymm (h.next y' hy' hlt') (h'.next y hy hlt)
    · exact absurd (hmax' y hy) (Nat.not_le.mpr hlt)
  · rcases h'.stop with ⟨hy', hlt'⟩ | ⟨rfl, -⟩
    · exact absurd (hmax y' hy') (Nat.not_le.mpr hlt')
    · rfl

lemma mem_atomsOf {starts : List ℕ} (hsorted : starts.Pairwise (· < ·)) (size x y : ℕ) :
    (x, y) ∈ atomsOf starts size ↔ IsAtom starts size x y := by
  induction starts with
  | nil => exact ⟨(fun h => by cases h), (fun h => by cases h.mem)⟩
  | cons s starts ih =>
    obtain ⟨hhead, hrest⟩ := List.pairwise_cons.mp hsorted
    cases starts with
    | nil =>
      rw [atomsOf, List.mem_singleton, Prod.mk.injEq]
      constructor
      · rintro ⟨rfl, rfl⟩
        refine ⟨List.mem_cons_self, fun z hz hlt => ?_, Or.inr ⟨rfl, fun z hz => ?_⟩⟩
        · rw [List.mem_singleton.mp hz] at hlt
          exact absurd hlt (lt_irrefl _)
        · rw [List.mem_singleton.mp hz]
      · intro h
        have hx := List.mem_singleton.mp h.mem
        refine ⟨hx, ?_⟩
        rcases h.stop with ⟨hy, hlt⟩ | ⟨hy, -⟩
        · rw [List.mem_singleton.mp hy, hx] at hlt
          exact absurd hlt (lt_irrefl _)
        · exact hy
    | cons t starts =>
      have hst := hhead t List.mem_cons_self
      have hmin : ∀ z ∈ t :: starts, t ≤ z := by
        intro z hz
        rcases List.mem_cons.mp hz with rfl | hz
        · exact le_rfl
        · exact ((List.pairwise_cons.mp hrest).1 z hz).le
      rw [atomsOf, List.mem_cons, ih hrest, Prod.mk.injEq]
      constructor
      · rintro (⟨rfl, rfl⟩ | h)
        · refine ⟨List.mem_cons_self, fun z hz hlt => ?_,
            Or.inl ⟨List.mem_cons_of_mem _ List.mem_cons_self, hst⟩⟩
          rcases List.mem_cons.mp hz with rfl | hz
          · exact absurd hlt (lt_irrefl _)
          · exact hmin z hz
        · have hsx := hhead x h.mem
          refine ⟨List.mem_cons_of_mem _ h.mem, fun z hz hlt => ?_, ?_⟩
          · rcases List.mem_cons.mp hz with rfl | hz
            · exact absurd hlt (Nat.not_lt.mpr hsx.le)
            · exact h.next z hz hlt
          · rcases h.stop with ⟨hy, hlt⟩ | ⟨hy, hmax⟩
            · exact Or.inl ⟨List.mem_cons_of_mem _ hy, hlt⟩
            · refine Or.inr ⟨hy, fun z hz => ?_⟩
              rcases List.mem_cons.mp hz with rfl | hz
              · exact hsx.le
              · exact hmax z hz
      · intro h
        rcases List.mem_cons.mp h.mem with rfl | hx
        · refine Or.inl ⟨rfl, ?_⟩
          rcases h.stop with ⟨hy, hlt⟩ | ⟨-, hmax⟩
          · rcases List.mem_cons.mp hy with rfl | hy
            · exact absurd hlt (lt_irrefl _)
            · exact le_antisymm (h.next t (List.mem_cons_of_mem _ List.mem_cons_self) hst)
                (hmin y hy)
          · exact absurd (hmax t (List.mem_cons_of_mem _ List.mem_cons_self)) (Nat.not_le.mpr hst)
        · refine Or.inr ⟨hx, fun z hz => h.next z (List.mem_cons_of_mem _ hz), ?_⟩
          have hsx := hhead x hx
          rcases h.stop with ⟨hy, hlt⟩ | ⟨hy, hmax⟩
          · rcases List.mem_cons.mp hy with rfl | hy
            · exact absurd hlt (Nat.not_lt.mpr hsx.le)
            · exact Or.inl ⟨hy, hlt⟩
          · exact Or.inr ⟨hy, fun z hz => hmax z (List.mem_cons_of_mem _ hz)⟩

lemma ordered_atomsOf {starts : List ℕ} (hsorted : starts.Pairwise (· < ·)) {size lo : ℕ}
    (hsize : ∀ x ∈ starts, x ≤ size) (hlo : ∀ x ∈ starts, lo ≤ x) :
    Ordered lo (atomsOf starts size) := by
  induction starts generalizing lo with
  | nil => trivial
  | cons s starts ih =>
    obtain ⟨hhead, hrest⟩ := List.pairwise_cons.mp hsorted
    cases starts with
    | nil => exact ⟨hlo s List.mem_cons_self, hsize s List.mem_cons_self, trivial⟩
    | cons t starts =>
      refine ⟨hlo s List.mem_cons_self, (hhead t List.mem_cons_self).le,
        ih hrest (fun x hx => hsize x (List.mem_cons_of_mem _ hx)) fun x hx => ?_⟩
      rcases List.mem_cons.mp hx with rfl | hx
      · exact le_rfl
      · exact ((List.pairwise_cons.mp hrest).1 x hx).le

/-- Every start has its atom. -/
lemma exists_atom {starts : List ℕ} (hsorted : starts.Pairwise (· < ·)) (size : ℕ) {x : ℕ}
    (hx : x ∈ starts) : ∃ y, (x, y) ∈ atomsOf starts size := by
  induction starts with
  | nil => cases hx
  | cons s starts ih =>
    cases starts with
    | nil =>
      rw [List.mem_singleton.mp hx]
      exact ⟨size, List.mem_singleton.mpr rfl⟩
    | cons t starts =>
      rcases List.mem_cons.mp hx with rfl | hx
      · exact ⟨t, List.mem_cons_self⟩
      · obtain ⟨y, hy⟩ := ih (List.pairwise_cons.mp hsorted).2 hx
        exact ⟨y, List.mem_cons_of_mem _ hy⟩

/-! ### The live atoms of a section -/

namespace Sect

variable {s : Sect} {live : ℕ → Bool} {a : ℕ}

lemma starts_spec (s : Sect) :
    s.starts.Pairwise (· < ·) ∧ ∀ x, x ∈ s.starts ↔ x = 0 ∨ x ∈ s.rows := by
  have hle : (s.rows.insertionSort (· ≤ ·)).dedup.Pairwise (· ≤ ·) :=
    (List.pairwise_insertionSort (· ≤ ·) s.rows).sublist (List.dedup_sublist _)
  have hsorted : (s.rows.insertionSort (· ≤ ·)).dedup.Pairwise (· < ·) :=
    (hle.and (List.nodup_dedup _)).imp fun h => lt_of_le_of_ne h.1 h.2
  have hmem : ∀ x, x ∈ (s.rows.insertionSort (· ≤ ·)).dedup ↔ x ∈ s.rows := by
    intro x
    rw [List.mem_dedup, List.mem_insertionSort]
  rw [starts]
  generalize (s.rows.insertionSort (· ≤ ·)).dedup = starts at hsorted hmem
  cases starts with
  | nil =>
    refine ⟨List.pairwise_singleton _ _, fun x => ?_⟩
    rw [List.mem_singleton, ← hmem]
    exact ⟨Or.inl, fun h => h.resolve_right List.not_mem_nil⟩
  | cons f starts =>
    dsimp only
    split_ifs with hf
    · refine ⟨List.pairwise_cons.mpr ⟨fun x hx => ?_, hsorted⟩, fun x => ?_⟩
      · rcases List.mem_cons.mp hx with rfl | hx
        · exact hf
        · exact lt_trans hf ((List.pairwise_cons.mp hsorted).1 x hx)
      · rw [List.mem_cons, hmem]
    · obtain rfl : f = 0 := by omega
      refine ⟨hsorted, fun x => ?_⟩
      rw [hmem]
      refine ⟨Or.inr, fun h => ?_⟩
      rcases h with rfl | h
      · exact (hmem 0).mp List.mem_cons_self
      · exact h

lemma mem_atoms {x y : ℕ} : (x, y) ∈ s.atoms ↔ IsAtom s.starts s.size x y :=
  mem_atomsOf s.starts_spec.1 s.size x y

/-- The live atoms that are not empty. -/
def liveAtoms (s : Sect) (live : ℕ → Bool) : List (ℕ × ℕ) :=
  s.atoms.filter fun i => live i.1 && i.2 != i.1

lemma mem_liveAtoms {x y : ℕ} :
    (x, y) ∈ s.liveAtoms live ↔ IsAtom s.starts s.size x y ∧ live x = true ∧ y ≠ x := by
  rw [liveAtoms, List.mem_filter, mem_atoms, Bool.and_eq_true, bne_iff_ne]

/-- A section whose rows lie in it. -/
def RowsInside (s : Sect) : Prop := ∀ v ∈ s.rows, v ≤ s.size

lemma RowsInside.starts_le (h : s.RowsInside) {x : ℕ} (hx : x ∈ s.starts) : x ≤ s.size := by
  rcases (s.starts_spec.2 x).mp hx with rfl | hx
  · exact Nat.zero_le _
  · exact h x hx

lemma RowsInside.ordered (h : s.RowsInside) : Ordered 0 s.atoms :=
  ordered_atomsOf s.starts_spec.1 (fun _ hx => h.starts_le hx) fun _ _ => Nat.zero_le _

lemma RowsInside.lt_of_mem (h : s.RowsInside) {i : ℕ × ℕ} (hi : i ∈ s.liveAtoms live) :
    i.1 < i.2 := by
  obtain ⟨hmem, hp⟩ := List.mem_filter.mp hi
  rw [Bool.and_eq_true, bne_iff_ne] at hp
  exact lt_of_le_of_ne (h.ordered.le hmem).2 (Ne.symm hp.2)

lemma RowsInside.le_size (h : s.RowsInside) {i : ℕ × ℕ} (hi : i ∈ s.atoms) : i.2 ≤ s.size := by
  rcases (mem_atoms.mp hi).stop with ⟨hy, -⟩ | ⟨hy, -⟩
  · exact h.starts_le hy
  · exact hy.le

/-- The runs of a cut. -/
def runs (s : Sect) (a : ℕ) (live : ℕ → Bool) : List Run :=
  (buildRuns s.atoms (s.atoms.map fun i => live i.1) a).1

/-- `build_runs` goes over the live atoms. -/
lemma buildRuns_eq (s : Sect) (a : ℕ) (live : ℕ → Bool) :
    buildRuns s.atoms (s.atoms.map fun i => live i.1) a =
      (((s.liveAtoms live).foldl (addAtom a) ([], 0)).1.reverse,
        ((s.liveAtoms live).foldl (addAtom a) ([], 0)).2) := by
  have hfold : ∀ (atoms : List (ℕ × ℕ)) (st : List Run × ℕ),
      (atoms.zip (atoms.map fun i => live i.1)).foldl
        (fun st al => if !al.2 || al.1.2 == al.1.1 then st else addAtom a st al.1) st =
      (atoms.filter fun i => live i.1 && i.2 != i.1).foldl (addAtom a) st := by
    intro atoms
    induction atoms with
    | nil => exact fun _ => rfl
    | cons i atoms ih =>
      intro st
      rw [List.map_cons, List.zip_cons_cons, List.foldl_cons, ih, List.filter_cons]
      dsimp only
      by_cases hlive : (live i.1 && i.2 != i.1) = true
      · have hskip : (!live i.1 || i.2 == i.1) = false := by
          rw [Bool.and_eq_true] at hlive
          rw [hlive.1, Bool.not_true, Bool.false_or]
          simpa using hlive.2
        rw [if_pos hlive, hskip, if_neg Bool.false_ne_true, List.foldl_cons]
      · have hskip : (!live i.1 || i.2 == i.1) = true := by
          cases hl : live i.1 with
          | false => rfl
          | true =>
            rw [hl, Bool.true_and] at hlive
            rw [Bool.not_true, Bool.false_or]
            simpa using hlive
        rw [if_neg hlive, hskip, if_pos rfl]
  rw [buildRuns, hfold]
  rfl

lemma RowsInside.packed (h : s.RowsInside) (ha : 0 < a) (live : ℕ → Bool) :
    Packed a (s.liveAtoms live) ((s.liveAtoms live).foldl (addAtom a) ([], 0)) := by
  have hordered : Ordered 0 (s.liveAtoms live) := h.ordered.filter _
  exact (Packed.nil a).foldl ha (fun j hj => by cases hj) hordered fun i hi => (h.lt_of_mem hi).ne

lemma RowsInside.newSize (h : s.RowsInside) (ha : 0 < a) (live : ℕ → Bool) :
    (buildRuns s.atoms (s.atoms.map fun i => live i.1) a).2 =
      packedEnd a 0 (s.liveAtoms live) := by
  rw [buildRuns_eq]
  exact (h.packed ha live).cursor

lemma runs_eq (s : Sect) (a : ℕ) (live : ℕ → Bool) :
    s.runs a live = ((s.liveAtoms live).foldl (addAtom a) ([], 0)).1.reverse := by
  rw [runs, buildRuns_eq]

end Sect

/-! ### Where the rows go -/

section Rows

variable {s : Sect} {live : ℕ → Bool} {a : ℕ} (h : s.RowsInside) (ha : 0 < a)

lemma liveAtom_unique {x y y' : ℕ} (hi : (x, y) ∈ s.liveAtoms live)
    (hj : (x, y') ∈ s.liveAtoms live) : y = y' :=
  (Sect.mem_liveAtoms.mp hi).1.unique (Sect.mem_liveAtoms.mp hj).1

/-- A start begins a live atom or lies in none. -/
lemma start_cases {t : ℕ} (ht : t ∈ s.starts) (live : ℕ → Bool) :
    (∃ e, (t, e) ∈ s.liveAtoms live) ∨ ∀ j ∈ s.liveAtoms live, j.1 ≤ t → j.2 ≤ t := by
  by_cases hcover : ∃ j ∈ s.liveAtoms live, j.1 ≤ t ∧ t < j.2
  · obtain ⟨⟨x, y⟩, hj, hle, hlt⟩ := hcover
    rcases Nat.lt_or_eq_of_le hle with hbefore | rfl
    · exact absurd ((Sect.mem_liveAtoms.mp hj).1.next t ht hbefore) (Nat.not_le.mpr hlt)
    · exact Or.inl ⟨y, hj⟩
  · refine Or.inr fun j hj hle => ?_
    by_contra hlt
    exact hcover ⟨j, hj, hle, Nat.not_le.mp hlt⟩

include h

lemma liveAtoms_nodup : (s.liveAtoms live).Nodup := by
  have hfst : ∀ {lo : ℕ} {ls : List (ℕ × ℕ)}, Ordered lo ls → (∀ i ∈ ls, i.1 < i.2) →
      ls.Nodup := by
    intro lo ls
    induction ls generalizing lo with
    | nil => exact fun _ _ => List.nodup_nil
    | cons i ls ih =>
      intro hordered hne
      refine List.nodup_cons.mpr ⟨fun hi => ?_,
        ih hordered.2.2 fun j hj => hne j (List.mem_cons_of_mem _ hj)⟩
      have := (hordered.2.2.le hi).1
      have := hne i List.mem_cons_self
      omega
  exact hfst (h.ordered.filter _) fun i hi => h.lt_of_mem hi

lemma spot_unique {i : ℕ × ℕ} {n m c : ℕ} (hn : (i, n) ∈ spots a c (s.liveAtoms live))
    (hm : (i, m) ∈ spots a c (s.liveAtoms live)) : n = m := by
  have hnodup : (s.liveAtoms live).Nodup := liveAtoms_nodup h
  rw [← spots_fst a c (s.liveAtoms live)] at hnodup
  exact (Prod.mk.inj (List.inj_on_of_nodup_map hnodup hn hm rfl)).2

include ha

/-- The row of a live atom goes to the place of the atom. -/
lemma moveRow_live {i : ℕ × ℕ} {n : ℕ} (hi : (i, n) ∈ spots a 0 (s.liveAtoms live)) :
    moveRow (s.runs a live) i.1 = n := by
  rw [moveRow, s.runs_eq, (h.packed ha live).remap_of_mem hi le_rfl
    (h.lt_of_mem (mem_of_mem_spots hi)), Nat.sub_self, Nat.add_zero]
  rfl

/-- The row of a dead atom goes to the start of its gap. -/
lemma moveRow_dead {t : ℕ} (hdead : ∀ j ∈ s.liveAtoms live, j.1 ≤ t → j.2 ≤ t) :
    ((∀ j ∈ s.liveAtoms live, t < j.1) ∧ moveRow (s.runs a live) t = 0) ∨
      ∃ i n, (i, n) ∈ spots a 0 (s.liveAtoms live) ∧ i.2 ≤ t ∧
        (∀ j ∈ s.liveAtoms live, j.1 ≤ t → j.2 ≤ i.2) ∧
        moveRow (s.runs a live) t = n + (i.2 - i.1) := by
  have hpacked := h.packed ha live
  rw [moveRow, s.runs_eq, hpacked.remap_of_notMem hdead]
  exact hpacked.deadRowAddr_of_notMem (fun i hi => h.lt_of_mem hi) hdead

lemma moveRow_le_end {t : ℕ} (ht : t ∈ s.starts) :
    moveRow (s.runs a live) t ≤ packedEnd a 0 (s.liveAtoms live) := by
  rcases start_cases ht live with ⟨e, he⟩ | hdead
  · obtain ⟨n, hn⟩ := exists_spot he a 0
    rw [moveRow_live h ha hn]
    exact le_trans (Nat.le_add_right _ _) (spot_bounds hn).2
  · rcases moveRow_dead h ha hdead with ⟨-, hmove⟩ | ⟨i, n, hn, -, -, hmove⟩
    · rw [hmove]
      exact Nat.zero_le _
    · rw [hmove]
      exact (spot_bounds hn).2

/-- Rows before a live atom stay before it. -/
lemma moveRow_before {t : ℕ} {i : ℕ × ℕ} {n : ℕ} (ht : t ∈ s.starts)
    (hi : (i, n) ∈ spots a 0 (s.liveAtoms live)) (hlt : t < i.1) :
    moveRow (s.runs a live) t ≤ n := by
  have hordered := h.ordered.filter fun i => live i.1 && i.2 != i.1
  rcases start_cases ht live with ⟨e, he⟩ | hdead
  · obtain ⟨m, hm⟩ := exists_spot he a 0
    rw [moveRow_live h ha hm]
    exact le_trans (Nat.le_add_right _ _) (spot_le_spot hordered hm hi hlt)
  · rcases moveRow_dead h ha hdead with ⟨-, hmove⟩ | ⟨j, m, hm, hle, -, hmove⟩
    · rw [hmove]
      exact Nat.zero_le _
    · have := h.lt_of_mem (mem_of_mem_spots hm)
      rw [hmove]
      exact spot_le_spot hordered hm hi (by omega)

/-- Rows behind the start of a live atom stay behind the atom. -/
lemma moveRow_after {t : ℕ} {i : ℕ × ℕ} {n : ℕ} (ht : t ∈ s.starts)
    (hi : (i, n) ∈ spots a 0 (s.liveAtoms live)) (hlt : i.1 < t) :
    n + (i.2 - i.1) ≤ moveRow (s.runs a live) t := by
  have hordered := h.ordered.filter fun i => live i.1 && i.2 != i.1
  have hmem := mem_of_mem_spots hi
  rcases start_cases ht live with ⟨e, he⟩ | hdead
  · obtain ⟨m, hm⟩ := exists_spot he a 0
    rw [moveRow_live h ha hm]
    exact spot_le_spot hordered hi hm hlt
  · rcases moveRow_dead h ha hdead with ⟨hnone, -⟩ | ⟨j, m, hm, -, hmax, hmove⟩
    · exact absurd (hnone i hmem) (Nat.not_lt.mpr hlt.le)
    · rw [hmove]
      have hjmem := mem_of_mem_spots hm
      have hend := hmax i hmem hlt.le
      have hilt := h.lt_of_mem hmem
      obtain ⟨x, y⟩ := i
      obtain ⟨x', y'⟩ := j
      dsimp only at hend hilt ⊢
      rcases Nat.lt_trichotomy x x' with hxx | rfl | hxx
      · exact le_trans (spot_le_spot hordered hi hm hxx) (Nat.le_add_right _ _)
      · obtain rfl := liveAtom_unique hmem hjmem
        rw [spot_unique h hi hm]
      · have := (Sect.mem_liveAtoms.mp hjmem).1.next x (Sect.mem_liveAtoms.mp hmem).1.mem hxx
        omega

/-- The row at the end of a live atom goes to the end of the atom. -/
lemma moveRow_next {i : ℕ × ℕ} {n : ℕ} (ht : i.2 ∈ s.starts)
    (hi : (i, n) ∈ spots a 0 (s.liveAtoms live)) :
    moveRow (s.runs a live) i.2 = n + (i.2 - i.1) := by
  have hmem := mem_of_mem_spots hi
  have hlt := h.lt_of_mem hmem
  rcases start_cases ht live with ⟨e, he⟩ | hdead
  · obtain ⟨m, hm⟩ := exists_spot he a 0
    rw [moveRow_live h ha hm]
    exact (h.packed ha live).adjacent (fun i hi => h.lt_of_mem hi) hi hm rfl
  · refine le_antisymm ?_ (moveRow_after h ha ht hi hlt)
    rcases moveRow_dead h ha hdead with ⟨-, hmove⟩ | ⟨j, m, hm, hle, -, hmove⟩
    · rw [hmove]
      exact Nat.zero_le _
    · rw [hmove]
      have hjmem := mem_of_mem_spots hm
      have hjlt := h.lt_of_mem hjmem
      obtain ⟨x, y⟩ := i
      obtain ⟨x', y'⟩ := j
      dsimp only at hle hlt hjlt ⊢
      rcases Nat.lt_trichotomy x x' with hxx | rfl | hxx
      · have := (Sect.mem_liveAtoms.mp hmem).1.next x' (Sect.mem_liveAtoms.mp hjmem).1.mem hxx
        omega
      · obtain rfl := liveAtom_unique hmem hjmem
        rw [spot_unique h hi hm]
      · exact le_trans (spot_le_spot (h.ordered.filter _) hm hi hxx) (Nat.le_add_right _ _)

/-- The last live atom ends the payload when no row stands behind its start. -/
lemma packedEnd_of_last {i : ℕ × ℕ} {n : ℕ} (hi : (i, n) ∈ spots a 0 (s.liveAtoms live))
    (hlast : ∀ j ∈ s.liveAtoms live, j.2 ≤ i.2) :
    packedEnd a 0 (s.liveAtoms live) = n + (i.2 - i.1) := by
  refine (h.packed ha live).end_of_last (fun i hi => h.lt_of_mem hi) hi hlast ?_
    fun m hm => spot_unique h hm hi
  have hmem := mem_of_mem_spots hi
  intro j hj hend
  have hilt := h.lt_of_mem hmem
  have hjlt := h.lt_of_mem hj
  obtain ⟨x, y⟩ := i
  obtain ⟨x', y'⟩ := j
  dsimp only at hend hilt hjlt
  subst hend
  rcases Nat.lt_trichotomy x x' with hxx | rfl | hxx
  · have := (Sect.mem_liveAtoms.mp hmem).1.next x' (Sect.mem_liveAtoms.mp hj).1.mem hxx
    omega
  · rfl
  · have := (Sect.mem_liveAtoms.mp hj).1.next x (Sect.mem_liveAtoms.mp hmem).1.mem hxx
    omega

/-- The start of the section stays. -/
lemma moveRow_zero : moveRow (s.runs a live) 0 = 0 := by
  have hzero : (0 : ℕ) ∈ s.starts := (s.starts_spec.2 0).mpr (Or.inl rfl)
  rcases start_cases hzero live with ⟨e, he⟩ | hdead
  · obtain ⟨n, hn⟩ := exists_spot he a 0
    rw [moveRow_live h ha hn]
    exact Nat.le_zero.mp (spot_le ha (h.ordered.filter _) le_rfl hn)
  · rcases moveRow_dead h ha hdead with ⟨-, hmove⟩ | ⟨j, m, hm, hle, -, -⟩
    · exact hmove
    · have := h.lt_of_mem (mem_of_mem_spots hm)
      omega

end Rows

/-! ### The cut section -/

section CutSection

variable {s : Sect} {live part : ℕ → Bool} {a : ℕ}

/-- The section left by a cut that buys bytes. -/
def Sect.cutTo (s : Sect) (a : ℕ) (live : ℕ → Bool) : Sect :=
  ⟨s.rows.map (moveRow (s.runs a live)), packedEnd a 0 (s.liveAtoms live)⟩

lemma mem_starts_cutTo (h : s.RowsInside) (ha : 0 < a) (x : ℕ) :
    x ∈ (s.cutTo a live).starts ↔ ∃ t ∈ s.starts, moveRow (s.runs a live) t = x := by
  rw [((s.cutTo a live).starts_spec.2 x)]
  constructor
  · rintro (rfl | hx)
    · exact ⟨0, (s.starts_spec.2 0).mpr (Or.inl rfl), moveRow_zero h ha⟩
    · obtain ⟨t, ht, rfl⟩ := List.mem_map.mp hx
      exact ⟨t, (s.starts_spec.2 t).mpr (Or.inr ht), rfl⟩
  · rintro ⟨t, ht, rfl⟩
    rcases (s.starts_spec.2 t).mp ht with rfl | ht
    · exact Or.inl (moveRow_zero h ha)
    · exact Or.inr (List.mem_map_of_mem ht)

lemma rowsInside_cutTo (h : s.RowsInside) (ha : 0 < a) : (s.cutTo a live).RowsInside := by
  intro v hv
  obtain ⟨t, ht, rfl⟩ := List.mem_map.mp hv
  exact moveRow_le_end h ha ((s.starts_spec.2 t).mpr (Or.inr ht))

/-- A live atom is an atom of the cut section, at its place. -/
lemma isAtom_cutTo (h : s.RowsInside) (ha : 0 < a) {i : ℕ × ℕ} {n : ℕ}
    (hi : (i, n) ∈ spots a 0 (s.liveAtoms live)) :
    IsAtom (s.cutTo a live).starts (s.cutTo a live).size n (n + (i.2 - i.1)) := by
  have hmem := mem_of_mem_spots hi
  have hlt := h.lt_of_mem hmem
  have hatom := (Sect.mem_liveAtoms (x := i.1) (y := i.2)).mp hmem
  have hmove := moveRow_live h ha hi
  refine ⟨(mem_starts_cutTo h ha n).mpr ⟨i.1, hatom.1.mem, hmove⟩, fun z hz hnz => ?_, ?_⟩
  · obtain ⟨t, ht, rfl⟩ := (mem_starts_cutTo h ha z).mp hz
    rcases Nat.lt_trichotomy t i.1 with hti | rfl | hti
    · have := moveRow_before h ha ht hi hti
      omega
    · omega
    · exact moveRow_after h ha ht hi hti
  · rcases hatom.1.stop with ⟨hy, -⟩ | ⟨-, hmax⟩
    · exact Or.inl ⟨(mem_starts_cutTo h ha _).mpr ⟨i.2, hy, moveRow_next h ha hy hi⟩, by omega⟩
    · refine Or.inr ⟨?_, fun z hz => ?_⟩
      · refine (packedEnd_of_last h ha hi fun j hj => ?_).symm
        have hj' := (Sect.mem_liveAtoms (x := j.1) (y := j.2)).mp hj
        have := hmax j.1 hj'.1.mem
        have hsize : i.2 = s.size := by
          rcases hatom.1.stop with ⟨hy, hlt⟩ | ⟨hy, -⟩
          · exact absurd (hmax i.2 hy) (Nat.not_le.mpr hlt)
          · exact hy
        rw [hsize]
        exact h.le_size (List.mem_of_mem_filter hj)
      · obtain ⟨t, ht, rfl⟩ := (mem_starts_cutTo h ha z).mp hz
        rcases Nat.lt_or_eq_of_le (hmax t ht) with hti | rfl
        · exact moveRow_before h ha ht hi hti
        · exact hmove.le

/-- A start that begins no live atom, with no start behind it, goes to the end of the payload. -/
lemma moveRow_last_dead (h : s.RowsInside) (ha : 0 < a) {t : ℕ} (ht : t ∈ s.starts)
    (hmax : ∀ z ∈ s.starts, z ≤ t) (hdead : ∀ e, (t, e) ∉ s.liveAtoms live) :
    moveRow (s.runs a live) t = packedEnd a 0 (s.liveAtoms live) := by
  have hstart : ∀ j ∈ s.liveAtoms live, j.1 ≤ t := fun j hj =>
    hmax j.1 ((Sect.mem_liveAtoms (x := j.1) (y := j.2)).mp hj).1.mem
  rcases start_cases ht live with ⟨e, he⟩ | hcover
  · exact absurd he (hdead e)
  · rcases moveRow_dead h ha hcover with ⟨hnone, hmove⟩ | ⟨i, n, hn, -, hlast, hmove⟩
    · have hnil : s.liveAtoms live = [] := by
        refine List.eq_nil_iff_forall_not_mem.mpr fun j hj => ?_
        exact absurd (hnone j hj) (Nat.not_lt.mpr (hstart j hj))
      rw [hmove, hnil]
      rfl
    · rw [hmove, packedEnd_of_last h ha hn fun j hj => hlast j hj (hstart j hj)]

/-- Lists of intervals with increasing starts are the same when they have the same members. -/
lemma eq_of_mem_iff {ls ms : List (ℕ × ℕ)} (hls : ls.Pairwise fun i j => i.1 < j.1)
    (hms : ms.Pairwise fun i j => i.1 < j.1) (h : ∀ i, i ∈ ls ↔ i ∈ ms) : ls = ms := by
  have hnodup : ∀ {ls : List (ℕ × ℕ)}, (ls.Pairwise fun i j => i.1 < j.1) → ls.Nodup :=
    fun hls => hls.imp fun hlt heq => absurd hlt (by rw [heq]; exact lt_irrefl _)
  exact ((List.perm_ext_iff_of_nodup (hnodup hls) (hnodup hms)).mpr h).eq_of_pairwise
    (fun i j _ _ hij hji => absurd (lt_trans hij hji) (lt_irrefl _)) hls hms

lemma starts_increase {ls : List (ℕ × ℕ)} {lo : ℕ} (h : Ordered lo ls)
    (hne : ∀ i ∈ ls, i.1 < i.2) : ls.Pairwise fun i j => i.1 < j.1 := by
  induction ls generalizing lo with
  | nil => exact List.Pairwise.nil
  | cons i ls ih =>
    refine List.pairwise_cons.mpr ⟨fun j hj => ?_,
      ih h.2.2 fun j hj => hne j (List.mem_cons_of_mem _ hj)⟩
    have := (h.2.2.le hj).1
    have := hne i List.mem_cons_self
    omega

/-- **The atoms that are live in the second cut are the atoms of the part, at the places of the
first cut.** -/
theorem liveAtoms_cutTo (h : s.RowsInside) (ha : 0 < a)
    (hpart : ∀ x, part x = true → live x = true) :
    (s.cutTo a live).liveAtoms (movedLive s (moveRow (s.runs a live)) part) =
      (s.liveAtoms part).map fun i =>
        (moveRow (s.runs a live) i.1, moveRow (s.runs a live) i.1 + (i.2 - i.1)) := by
  have h' : (s.cutTo a live).RowsInside := rowsInside_cutTo h ha
  have hordered := h.ordered.filter fun i => live i.1 && i.2 != i.1
  have hsub : ∀ i ∈ s.liveAtoms part, i ∈ s.liveAtoms live := by
    intro i hi
    obtain ⟨hatom, hlive, hne⟩ := (Sect.mem_liveAtoms (x := i.1) (y := i.2)).mp hi
    exact Sect.mem_liveAtoms.mpr ⟨hatom, hpart _ hlive, hne⟩
  have hmoved : ∀ i ∈ s.liveAtoms part, ∃ n, (i, n) ∈ spots a 0 (s.liveAtoms live) ∧
      moveRow (s.runs a live) i.1 = n := by
    intro i hi
    obtain ⟨n, hn⟩ := exists_spot (hsub i hi) a 0
    exact ⟨n, hn, moveRow_live h ha hn⟩
  refine eq_of_mem_iff (starts_increase (h'.ordered.filter _) fun i hi => h'.lt_of_mem hi) ?_
    fun i => ⟨fun hi => ?_, fun hi => ?_⟩
  · rw [List.pairwise_map]
    refine (starts_increase (h.ordered.filter _) fun i hi => h.lt_of_mem hi).imp_of_mem ?_
    intro i j hi hj hij
    obtain ⟨n, hn, hni⟩ := hmoved i hi
    obtain ⟨m, hm, hmj⟩ := hmoved j hj
    have := spot_le_spot hordered hn hm hij
    have := h.lt_of_mem hi
    dsimp only
    omega
  · obtain ⟨x, y⟩ := i
    obtain ⟨hatom, hlive, hne⟩ := Sect.mem_liveAtoms.mp hi
    obtain ⟨t, ht, htx⟩ := List.any_eq_true.mp hlive
    obtain ⟨ht, hpt⟩ := List.mem_filter.mp ht
    rw [beq_iff_eq] at htx
    subst htx
    obtain ⟨e, he⟩ := exists_atom s.starts_spec.1 s.size ht
    have he' := Sect.mem_atoms.mp he
    by_cases hempty : e = t
    · -- an empty atom is the last one, and its row stands at the end
      subst hempty
      exfalso
      obtain ⟨-, hmax⟩ := he'.stop.resolve_left fun h => absurd h.2 (lt_irrefl _)
      have hdead : ∀ e', (e, e') ∉ s.liveAtoms live := fun e' he'' =>
        (Sect.mem_liveAtoms.mp he'').2.2 ((Sect.mem_liveAtoms.mp he'').1.unique he')
      have hend := moveRow_last_dead h ha ht hmax hdead
      refine hne (le_antisymm ?_ (h'.ordered.le (Sect.mem_atoms.mpr hatom)).2)
      rw [hend]
      exact h'.le_size (Sect.mem_atoms.mpr hatom)
    · have hmem : (t, e) ∈ s.liveAtoms part := Sect.mem_liveAtoms.mpr ⟨he', hpt, hempty⟩
      obtain ⟨n, hn, hnt⟩ := hmoved _ hmem
      refine List.mem_map.mpr ⟨(t, e), hmem, ?_⟩
      dsimp only at hnt ⊢
      rw [hnt] at hatom ⊢
      rw [(isAtom_cutTo h ha hn).unique hatom]
  · obtain ⟨j, hj, rfl⟩ := List.mem_map.mp hi
    obtain ⟨n, hn, hnj⟩ := hmoved j hj
    have hlt := h.lt_of_mem hj
    obtain ⟨hatom, hpj, -⟩ := (Sect.mem_liveAtoms (x := j.1) (y := j.2)).mp hj
    refine Sect.mem_liveAtoms.mpr ⟨?_, ?_, by omega⟩
    · rw [hnj]
      exact isAtom_cutTo h ha hn
    · exact List.any_eq_true.mpr ⟨j.1, List.mem_filter.mpr ⟨hatom.mem, hpj⟩, beq_self_eq_true _⟩

end CutSection

/-! ### Cuts that buy nothing -/

section Cut

variable {s : Sect} {live : ℕ → Bool} {a : ℕ}

/-- Where every atom is live nothing is cut. -/
lemma packedEnd_of_all (ha : 0 < a) {starts : List ℕ} (hsorted : starts.Pairwise (· < ·))
    {size c : ℕ} (hhead : starts.head? = some c) (hsize : ∀ x ∈ starts, x ≤ size)
    (hall : ∀ x ∈ starts, live x = true) :
    packedEnd a c ((atomsOf starts size).filter fun i => live i.1 && i.2 != i.1) = size := by
  induction starts generalizing c with
  | nil => cases hhead
  | cons x starts ih =>
    obtain rfl := Option.some.inj hhead
    have hx := hall x List.mem_cons_self
    cases starts with
    | nil =>
      have hle := hsize x List.mem_cons_self
      rw [atomsOf, List.filter_cons, hx, Bool.true_and, List.filter_nil]
      dsimp only
      split_ifs with hne
      · rw [packedEnd, packedEnd, nextAligned_of_mod ha rfl]
        omega
      · have hsize : size = x := by simpa using hne
        rw [packedEnd, hsize]
    | cons t starts =>
      obtain ⟨hlt, hrest⟩ := List.pairwise_cons.mp hsorted
      have hxt := hlt t List.mem_cons_self
      have hne : (t != x) = true := bne_iff_ne.mpr hxt.ne'
      rw [atomsOf, List.filter_cons, hx, Bool.true_and]
      dsimp only
      rw [if_pos hne, packedEnd, nextAligned_of_mod ha rfl]
      dsimp only
      rw [show x + (t - x) = t by omega]
      exact ih hrest rfl (fun y hy => hsize y (List.mem_cons_of_mem _ hy))
        fun y hy => hall y (List.mem_cons_of_mem _ hy)

/-- What a cut does, whether it rewrites the section or leaves it alone. -/
lemma cut_spec (h : s.RowsInside) (ha : 0 < a) (live : ℕ → Bool) (deadContent : Bool) :
    (s.cut a live deadContent).sect.size = packedEnd a 0 (s.liveAtoms live) ∧
      (∀ i n, (i, n) ∈ spots a 0 (s.liveAtoms live) → ∀ o, i.1 ≤ o → o < i.2 →
        (s.cut a live deadContent).moved o = some (n + (o - i.1))) ∧
      (s.cut a live deadContent = ⟨s, some, id⟩ ∨
        (s.cut a live deadContent).sect = s.cutTo a live ∧
          (s.cut a live deadContent).row = moveRow (s.runs a live)) := by
  have hnew := h.newSize ha live
  have hle : packedEnd a 0 (s.liveAtoms live) ≤ s.size :=
    packedEnd_le ha (h.ordered.filter _) fun i hi => h.le_size (List.mem_of_mem_filter hi)
  rw [Sect.cut]
  split_ifs with halone
  · have hend : packedEnd a 0 (s.liveAtoms live) = s.size := by
      rcases halone with hall | ⟨hge, -⟩
      · have hhead : s.starts.head? = some 0 := by
          have hzero := (s.starts_spec.2 0).mpr (Or.inl rfl)
          cases hstarts : s.starts with
          | nil =>
            rw [hstarts] at hzero
            cases hzero
          | cons x starts =>
            have hsorted := s.starts_spec.1
            rw [hstarts] at hzero hsorted
            rcases List.mem_cons.mp hzero with rfl | hzero
            · rfl
            · exact absurd ((List.pairwise_cons.mp hsorted).1 0 hzero) (Nat.not_lt_zero _)
        refine packedEnd_of_all ha s.starts_spec.1 hhead (fun x hx => h.starts_le hx) ?_
        intro x hx
        obtain ⟨y, hy⟩ := exists_atom s.starts_spec.1 s.size hx
        exact hall _ (List.mem_map.mpr ⟨(x, y), hy, rfl⟩)
      · rw [hnew] at hge
        exact le_antisymm hle hge
    refine ⟨hend.symm, fun i n hi o hlow hhigh => ?_, Or.inl rfl⟩
    have hplace := spots_eq_self ha (h.ordered.filter _)
      (fun i hi => h.le_size (List.mem_of_mem_filter hi)) hend.ge hi
    rw [hplace]
    exact congrArg some (by omega)
  · refine ⟨hnew, fun i n hi o hlow hhigh => ?_, Or.inr ⟨?_, rfl⟩⟩
    · have hmove := (h.packed ha live).remap_of_mem hi hlow hhigh
      rw [← s.runs_eq] at hmove
      exact hmove
    · rw [Sect.cutTo, ← hnew]
      rfl

end Cut

/-! ### Cutting twice -/

/-- **A section cut to its live atoms with the dead rows at the starts of their gaps, and then to
a part of them, is the section cut to the part**: every byte of an atom of the part ends at the
same offset, and the section has the same size. -/
theorem cut_cut {a : ℕ} (ha : 0 < a) {s : Sect} (h : s.RowsInside) {live part : ℕ → Bool}
    (hpart : ∀ x, part x = true → live x = true) (d d' d'' : Bool) :
    let first := s.cut a live d
    let second := first.sect.cut a (movedLive s first.row part) d'
    let direct := s.cut a part d''
    second.sect.size = direct.sect.size ∧
      ∀ i ∈ s.atoms, part i.1 = true → ∀ o, i.1 ≤ o → o < i.2 →
        ∃ o' n, first.moved o = some o' ∧ second.moved o' = some n ∧ direct.moved o = some n := by
  intro first second direct
  obtain ⟨-, hfirst, hsect⟩ := cut_spec h ha live d
  obtain ⟨hsize, hdirect, -⟩ := cut_spec h ha part d''
  have hmem : ∀ i ∈ s.atoms, part i.1 = true → ∀ o, i.1 ≤ o → o < i.2 →
      i ∈ s.liveAtoms part ∧ i ∈ s.liveAtoms live := by
    intro i hi hp o hlow hhigh
    have hatom := (Sect.mem_atoms (x := i.1) (y := i.2)).mp hi
    have hne : i.2 ≠ i.1 := by omega
    exact ⟨Sect.mem_liveAtoms.mpr ⟨hatom, hp, hne⟩,
      Sect.mem_liveAtoms.mpr ⟨hatom, hpart _ hp, hne⟩⟩
  rcases hsect with hsame | ⟨hcut, hrow⟩
  · -- the first cut left the section alone
    have hlive : s.liveAtoms (movedLive s id part) = s.liveAtoms part := by
      refine List.filter_congr fun i hi => ?_
      have hstart := (Sect.mem_atoms (x := i.1) (y := i.2)).mp hi
      congr 1
      rw [Bool.eq_iff_iff, movedLive, List.any_eq_true]
      constructor
      · rintro ⟨t, ht, heq⟩
        rw [id, beq_iff_eq] at heq
        rw [← heq]
        exact (List.mem_filter.mp ht).2
      · exact fun hp => ⟨i.1, List.mem_filter.mpr ⟨hstart.mem, hp⟩, beq_self_eq_true _⟩
    have hsecond := cut_spec h ha (movedLive s id part) d'
    rw [hlive] at hsecond
    have hsecond' : second = s.cut a (movedLive s id part) d' := by
      change (s.cut a live d).sect.cut a (movedLive s (s.cut a live d).row part) d' = _
      rw [hsame]
    refine ⟨?_, fun i hi hp o hlow hhigh => ?_⟩
    · rw [hsecond']
      exact hsecond.1.trans hsize.symm
    · obtain ⟨n, hn⟩ := exists_spot (hmem i hi hp o hlow hhigh).1 a 0
      refine ⟨o, n + (o - i.1), ?_, ?_, hdirect i n hn o hlow hhigh⟩
      · change (s.cut a live d).moved o = _
        rw [hsame]
      · rw [hsecond']
        exact hsecond.2.1 i n hn o hlow hhigh
  · have hplace : ∀ i ∈ s.liveAtoms part, ∃ m, (i, m) ∈ spots a 0 (s.liveAtoms live) ∧
        moveRow (s.runs a live) i.1 = m := by
      intro i hi
      obtain ⟨hatom, hp, hne⟩ := (Sect.mem_liveAtoms (x := i.1) (y := i.2)).mp hi
      have hi' : i ∈ s.liveAtoms live := Sect.mem_liveAtoms.mpr ⟨hatom, hpart _ hp, hne⟩
      obtain ⟨m, hm⟩ := exists_spot hi' a 0
      exact ⟨m, hm, moveRow_live h ha hm⟩
    have hmod : ∀ i ∈ s.liveAtoms part, moveRow (s.runs a live) i.1 % a = i.1 % a := by
      intro i hi
      obtain ⟨m, hm, hmove⟩ := hplace i hi
      rw [hmove]
      exact spot_mod ha hm
    obtain ⟨hspots, hend⟩ := spots_map
      (fun i => (moveRow (s.runs a live) i.1, moveRow (s.runs a live) i.1 + (i.2 - i.1)))
      hmod (fun i _ => Nat.add_sub_cancel_left _ _) 0
    have hinside : (s.cutTo a live).RowsInside := rowsInside_cutTo h ha
    have hsecond := cut_spec hinside ha
      (movedLive s (moveRow (s.runs a live)) part) d'
    rw [liveAtoms_cutTo h ha hpart, hspots, hend] at hsecond
    have hsecond' : second =
        (s.cutTo a live).cut a (movedLive s (moveRow (s.runs a live)) part) d' := by
      change (s.cut a live d).sect.cut a (movedLive s (s.cut a live d).row part) d' = _
      rw [hcut, hrow]
    refine ⟨?_, fun i hi hp o hlow hhigh => ?_⟩
    · rw [hsecond']
      exact hsecond.1.trans hsize.symm
    · have hi' := (hmem i hi hp o hlow hhigh).1
      obtain ⟨n, hn⟩ := exists_spot hi' a 0
      obtain ⟨m, hm, hmove⟩ := hplace i hi'
      refine ⟨m + (o - i.1), n + (o - i.1), hfirst i m hm o hlow hhigh, ?_,
        hdirect i n hn o hlow hhigh⟩
      rw [hsecond']
      have hbyte := hsecond.2.1 _ n (List.mem_map_of_mem hn) (m + (o - i.1))
      dsimp only [Prod.map, id] at hbyte
      rw [hmove, Nat.add_sub_cancel_left] at hbyte
      exact hbyte (Nat.le_add_right _ _) (by omega)

/-- A dead atom in front of a run that keeps its class, and then the run before it dropped. -/
theorem cut_cut_gap :
    let s : Sect := ⟨[0, 12, 36, 44], 60⟩
    let first := s.cut 16 (fun x => x != 12) false
    let second := first.sect.cut 16 (movedLive s first.row fun x => x == 36) false
    let direct := s.cut 16 (fun x => x == 36) false
    second.sect.size = direct.sect.size ∧
      ∀ i ∈ s.atoms, (i.1 == 36) = true → ∀ o, i.1 ≤ o → o < i.2 →
        ∃ o' n, first.moved o = some o' ∧ second.moved o' = some n ∧ direct.moved o = some n := by
  refine cut_cut (by decide) ?_ ?_ false false false
  · intro v hv
    revert v
    decide
  · intro x hx
    rw [beq_iff_eq.mp hx]
    rfl

end Torajs.Link.DeadStrip
