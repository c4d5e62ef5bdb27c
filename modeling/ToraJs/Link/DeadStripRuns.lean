import ToraJs.Link.DeadStrip

/-!
# The runs of a cut

`build_runs` is the packing of the live atoms: the runs are unions of live atoms that lie side by
side, and a byte of a live atom goes to the place of its atom.
-/

namespace Torajs.Link.DeadStrip

open Placement

/-! ### The run before an offset -/

section RunBefore

variable {runs : List Run} {o : ℕ} {r : Run}

/-- Runs in order. -/
def RunsSorted (runs : List Run) : Prop :=
  runs.Pairwise fun r r' => r.oldStart + r.len < r'.oldStart

lemma runBefore_cons (r : Run) (runs : List Run) (o : ℕ) : runBefore (r :: runs) o =
    if r.oldStart ≤ o then some ((runBefore runs o).getD r) else none := by
  rw [runBefore, List.takeWhile_cons]
  by_cases h : r.oldStart ≤ o
  · rw [if_pos (decide_eq_true h), if_pos h, List.getLast?_cons, runBefore]
  · rw [if_neg (by rw [decide_eq_false h]; exact Bool.false_ne_true), if_neg h]
    rfl

lemma runBefore_eq_some (hsorted : RunsSorted runs) (h : runBefore runs o = some r) :
    r ∈ runs ∧ r.oldStart ≤ o ∧ ∀ r' ∈ runs, r'.oldStart ≤ o → r'.oldStart ≤ r.oldStart := by
  induction runs generalizing r with
  | nil => cases h
  | cons r₀ runs ih =>
    obtain ⟨hhead, hrest⟩ := List.pairwise_cons.mp hsorted
    rw [runBefore_cons] at h
    obtain ⟨hle, h⟩ := Option.ite_none_right_eq_some.mp h
    cases hnext : runBefore runs o with
    | none =>
      rw [hnext] at h
      obtain rfl := Option.some.inj h
      refine ⟨List.mem_cons_self, hle, fun r' hr' hle' => ?_⟩
      rcases List.mem_cons.mp hr' with rfl | hr'
      · exact le_rfl
      · cases runs with
        | nil => cases hr'
        | cons r₁ runs =>
          rw [runBefore_cons] at hnext
          have hfirst : r₁.oldStart ≤ r'.oldStart := by
            rcases List.mem_cons.mp hr' with rfl | hr'
            · exact le_rfl
            · have := (List.pairwise_cons.mp hrest).1 r' hr'
              omega
          rw [if_pos (le_trans hfirst hle')] at hnext
          cases hnext
    | some r₁ =>
      rw [hnext] at h
      obtain rfl := Option.some.inj h
      obtain ⟨hmem, hle₁, hmax⟩ := ih hrest hnext
      refine ⟨List.mem_cons_of_mem _ hmem, hle₁, fun r' hr' hle' => ?_⟩
      rcases List.mem_cons.mp hr' with rfl | hr'
      · have := hhead _ hmem
        exact le_trans (Nat.le_add_right _ _) this.le
      · exact hmax r' hr' hle'

lemma runBefore_eq_none (hsorted : RunsSorted runs) (h : runBefore runs o = none) :
    ∀ r ∈ runs, o < r.oldStart := by
  cases runs with
  | nil => exact fun r hr => by cases hr
  | cons r₀ runs =>
    rw [runBefore_cons] at h
    have hlt : o < r₀.oldStart := by
      by_contra hle
      rw [if_pos (Nat.not_lt.mp hle)] at h
      cases h
    intro r hr
    rcases List.mem_cons.mp hr with rfl | hr
    · exact hlt
    · have := (List.pairwise_cons.mp hsorted).1 r hr
      omega

/-- Runs that share an offset, or touch, are the same. -/
lemma RunsSorted.eq_of_overlap (hsorted : RunsSorted runs) {r' : Run} (hr : r ∈ runs)
    (hr' : r' ∈ runs) (h : r.oldStart ≤ r'.oldStart + r'.len)
    (h' : r'.oldStart ≤ r.oldStart + r.len) : r = r' := by
  induction runs with
  | nil => cases hr
  | cons r₀ runs ih =>
    obtain ⟨hhead, hrest⟩ := List.pairwise_cons.mp hsorted
    rcases List.mem_cons.mp hr with rfl | hmem
    · rcases List.mem_cons.mp hr' with rfl | hmem'
      · rfl
      · have := hhead r' hmem'
        omega
    · rcases List.mem_cons.mp hr' with rfl | hmem'
      · have := hhead r hmem
        omega
      · exact ih hrest hmem hmem'

/-- The run before an offset in a run is that run. -/
lemma runBefore_of_mem (hsorted : RunsSorted runs) (hr : r ∈ runs) (hlow : r.oldStart ≤ o)
    (hhigh : o ≤ r.oldStart + r.len) : runBefore runs o = some r := by
  cases h : runBefore runs o with
  | none =>
    have := runBefore_eq_none hsorted h r hr
    omega
  | some r' =>
    obtain ⟨hr', hle, hmax⟩ := runBefore_eq_some hsorted h
    have := hmax r hr hlow
    rw [hsorted.eq_of_overlap hr' hr (by omega) (by omega)]

end RunBefore

/-! ### The loop -/

/-- The state of the loop after some live atoms. -/
structure Packed (a : ℕ) (ls : List (ℕ × ℕ)) (st : List Run × ℕ) : Prop where
  cursor : st.2 = packedEnd a 0 ls
  sorted : RunsSorted st.1.reverse
  mod : ∀ r ∈ st.1, r.newStart % a = r.oldStart % a
  /-- The cursor stands at the end of the newest run, which holds the last atom. -/
  newest : ∀ r ∈ st.1.head?, st.2 = r.newStart + r.len ∧ ∀ i ∈ ls, i.2 ≤ r.oldStart + r.len
  empty : st.1 = [] → ls = []
  /-- An atom keeps its distance to the start of its run. -/
  spot : ∀ i n, (i, n) ∈ spots a 0 ls → ∃ r ∈ st.1, r.oldStart ≤ i.1 ∧
    i.2 ≤ r.oldStart + r.len ∧ n + r.oldStart = r.newStart + i.1
  covered : ∀ r ∈ st.1, ∀ o, r.oldStart ≤ o → o < r.oldStart + r.len →
    ∃ i ∈ ls, i.1 ≤ o ∧ o < i.2
  /-- A run ends with an atom. -/
  ends : ∀ r ∈ st.1, ∃ i ∈ ls, i.2 = r.oldStart + r.len

section Loop

variable {a : ℕ} {ls : List (ℕ × ℕ)} {st : List Run × ℕ}

lemma Packed.nil (a : ℕ) : Packed a [] ([], 0) where
  cursor := rfl
  sorted := List.Pairwise.nil
  mod := fun r hr => by cases hr
  newest := fun r hr => by cases hr
  empty := fun _ => rfl
  spot := fun i n h => by cases h
  covered := fun r hr => by cases hr
  ends := fun r hr => by cases hr

/-- A new run is put behind the others. -/
lemma Packed.push (ha : 0 < a) (h : Packed a ls st) {i : ℕ × ℕ} (hlt : i.1 < i.2)
    (hafter : ∀ j ∈ ls, j.2 ≤ i.1) (happart : ∀ r ∈ st.1.head?, r.oldStart + r.len ≠ i.1) :
    Packed a (ls ++ [i])
      (⟨i.1, i.2 - i.1, nextAligned a st.2 i.1⟩ :: st.1, nextAligned a st.2 i.1 + (i.2 - i.1)) := by
  have hends : ∀ r ∈ st.1, r.oldStart + r.len < i.1 := by
    obtain ⟨runs, cursor⟩ := st
    cases runs with
    | nil => exact fun r hr => by cases hr
    | cons last runs =>
      have hle : ∀ r ∈ last :: runs, r.oldStart + r.len ≤ i.1 := by
        intro r hr
        obtain ⟨j, hj, hjr⟩ := h.ends r hr
        rw [← hjr]
        exact hafter j hj
      intro r hr
      rcases List.mem_cons.mp hr with rfl | hr'
      · exact lt_of_le_of_ne (hle r hr) (happart r rfl)
      · have hsorted := h.sorted
        rw [RunsSorted, List.pairwise_reverse] at hsorted
        have := (List.pairwise_cons.mp hsorted).1 r hr'
        have := hle last List.mem_cons_self
        omega
  have hlast : ∀ j ∈ ls ++ [i], j.2 ≤ i.1 + (i.2 - i.1) := by
    intro j hj
    rcases List.mem_append.mp hj with hj | hj
    · have := hafter j hj
      omega
    · rw [List.mem_singleton.mp hj]
      omega
  refine ⟨?_, ?_, ?_, ?_, ?_, ?_, ?_, ?_⟩
  · rw [packedEnd_append, ← h.cursor]
    rfl
  · rw [RunsSorted, List.pairwise_reverse]
    refine List.pairwise_cons.mpr ⟨hends, ?_⟩
    have hsorted := h.sorted
    rwa [RunsSorted, List.pairwise_reverse] at hsorted
  · intro r hr
    rcases List.mem_cons.mp hr with rfl | hr
    · exact nextAligned_mod ha _ _
    · exact h.mod r hr
  · intro r hr
    obtain rfl := Option.some.inj hr
    exact ⟨rfl, hlast⟩
  · exact nofun
  · intro j n hj
    rw [spots_append] at hj
    rcases List.mem_append.mp hj with hj | hj
    · obtain ⟨r, hr, hrest⟩ := h.spot j n hj
      exact ⟨r, List.mem_cons_of_mem _ hr, hrest⟩
    · rw [← h.cursor] at hj
      obtain ⟨rfl, rfl⟩ := Prod.mk.inj (List.mem_singleton.mp hj)
      exact ⟨_, List.mem_cons_self, le_rfl, by dsimp only; omega, rfl⟩
  · intro r hr o hlow hhigh
    rcases List.mem_cons.mp hr with rfl | hr
    · dsimp only at hlow hhigh
      exact ⟨i, List.mem_append_right _ (List.mem_singleton.mpr rfl), hlow, by omega⟩
    · obtain ⟨j, hj, hrest⟩ := h.covered r hr o hlow hhigh
      exact ⟨j, List.mem_append_left _ hj, hrest⟩
  · intro r hr
    rcases List.mem_cons.mp hr with rfl | hr
    · exact ⟨i, List.mem_append_right _ (List.mem_singleton.mpr rfl), by dsimp only; omega⟩
    · obtain ⟨j, hj, hrest⟩ := h.ends r hr
      exact ⟨j, List.mem_append_left _ hj, hrest⟩

/-- An atom right behind the newest run is put to its end, where it belongs. -/
lemma Packed.merge (ha : 0 < a) {last : Run} {runs : List Run} {cursor : ℕ}
    (h : Packed a ls (last :: runs, cursor)) {i : ℕ × ℕ} (hlt : i.1 < i.2)
    (hafter : ∀ j ∈ ls, j.2 ≤ i.1) (hadjacent : last.oldStart + last.len = i.1) :
    Packed a (ls ++ [i])
      (⟨last.oldStart, last.len + (i.2 - i.1), last.newStart⟩ :: runs, cursor + (i.2 - i.1)) := by
  obtain ⟨hcursor, -⟩ := h.newest last rfl
  change cursor = _ at hcursor
  have hplace : nextAligned a cursor i.1 = cursor := by
    refine nextAligned_of_mod ha ?_
    rw [hcursor, ← hadjacent, Nat.add_mod, h.mod last List.mem_cons_self, ← Nat.add_mod]
  have hsorted := h.sorted
  rw [RunsSorted, List.pairwise_reverse] at hsorted
  obtain ⟨hhead, hrest⟩ := List.pairwise_cons.mp hsorted
  refine ⟨?_, ?_, ?_, ?_, ?_, ?_, ?_, ?_⟩
  · rw [packedEnd_append, ← h.cursor]
    change _ = nextAligned a cursor i.1 + (i.2 - i.1)
    rw [hplace]
  · rw [RunsSorted, List.pairwise_reverse]
    exact List.pairwise_cons.mpr ⟨hhead, hrest⟩
  · intro r hr
    rcases List.mem_cons.mp hr with rfl | hr
    · exact h.mod last List.mem_cons_self
    · exact h.mod r (List.mem_cons_of_mem _ hr)
  · intro r hr
    obtain rfl := Option.some.inj hr
    refine ⟨by dsimp only; omega, fun j hj => ?_⟩
    dsimp only
    rcases List.mem_append.mp hj with hj | hj
    · have := hafter j hj
      omega
    · rw [List.mem_singleton.mp hj]
      omega
  · exact nofun
  · intro j n hj
    rw [spots_append] at hj
    rcases List.mem_append.mp hj with hj | hj
    · obtain ⟨r, hr, hlow, hhigh, hdist⟩ := h.spot j n hj
      rcases List.mem_cons.mp hr with rfl | hr
      · exact ⟨_, List.mem_cons_self, hlow, by dsimp only; omega, hdist⟩
      · exact ⟨r, List.mem_cons_of_mem _ hr, hlow, hhigh, hdist⟩
    · rw [← h.cursor] at hj
      obtain ⟨rfl, rfl⟩ := Prod.mk.inj (List.mem_singleton.mp hj)
      refine ⟨_, List.mem_cons_self, by dsimp only; omega, by dsimp only; omega, ?_⟩
      change nextAligned a cursor j.1 + last.oldStart = last.newStart + j.1
      rw [hplace]
      omega
  · intro r hr o hlow hhigh
    rcases List.mem_cons.mp hr with rfl | hr
    · dsimp only at hlow hhigh
      by_cases hin : o < last.oldStart + last.len
      · obtain ⟨j, hj, hrest⟩ := h.covered last List.mem_cons_self o hlow hin
        exact ⟨j, List.mem_append_left _ hj, hrest⟩
      · exact ⟨i, List.mem_append_right _ (List.mem_singleton.mpr rfl), by omega, by omega⟩
    · obtain ⟨j, hj, hrest⟩ := h.covered r (List.mem_cons_of_mem _ hr) o hlow hhigh
      exact ⟨j, List.mem_append_left _ hj, hrest⟩
  · intro r hr
    rcases List.mem_cons.mp hr with rfl | hr
    · exact ⟨i, List.mem_append_right _ (List.mem_singleton.mpr rfl), by dsimp only; omega⟩
    · obtain ⟨j, hj, hrest⟩ := h.ends r (List.mem_cons_of_mem _ hr)
      exact ⟨j, List.mem_append_left _ hj, hrest⟩

/-- One live atom. -/
lemma Packed.addAtom (ha : 0 < a) (h : Packed a ls st) {i : ℕ × ℕ} (hlt : i.1 < i.2)
    (hafter : ∀ j ∈ ls, j.2 ≤ i.1) : Packed a (ls ++ [i]) (addAtom a st i) := by
  obtain ⟨runs, cursor⟩ := st
  cases runs with
  | nil => exact h.push ha hlt hafter fun r hr => by cases hr
  | cons last runs =>
    by_cases hadjacent : last.oldStart + last.len = i.1
    · rw [DeadStrip.addAtom]
      dsimp only
      rw [if_pos hadjacent]
      exact h.merge ha hlt hafter hadjacent
    · rw [DeadStrip.addAtom]
      dsimp only
      rw [if_neg hadjacent]
      refine h.push ha hlt hafter fun r hr => ?_
      obtain rfl := Option.some.inj hr
      exact hadjacent

/-- The loop over live atoms in order. -/
lemma Packed.foldl (ha : 0 < a) (h : Packed a ls st) {ms : List (ℕ × ℕ)} {lo : ℕ}
    (hlo : ∀ j ∈ ls, j.2 ≤ lo) (hordered : Ordered lo ms) (hne : ∀ i ∈ ms, i.1 ≠ i.2) :
    Packed a (ls ++ ms) (ms.foldl (DeadStrip.addAtom a) st) := by
  induction ms generalizing ls st lo with
  | nil =>
    rw [List.append_nil]
    exact h
  | cons i ms ih =>
    obtain ⟨hle, hii, hrest⟩ := hordered
    have hlt : i.1 < i.2 := lt_of_le_of_ne hii (hne i List.mem_cons_self)
    have hstep := h.addAtom ha hlt fun j hj => le_trans (hlo j hj) hle
    rw [List.foldl_cons, List.append_cons]
    refine ih hstep (fun j hj => ?_) hrest fun j hj => hne j (List.mem_cons_of_mem _ hj)
    rcases List.mem_append.mp hj with hj | hj
    · exact le_trans (hlo j hj) (le_trans hle hii)
    · rw [List.mem_singleton.mp hj]

end Loop

/-! ### Where bytes and rows go -/

section Moves

variable {a : ℕ} {ls : List (ℕ × ℕ)} {st : List Run × ℕ} {i : ℕ × ℕ} {n o : ℕ}

/-- **A byte of a live atom goes to the place of its atom.** -/
theorem Packed.remap_of_mem (h : Packed a ls st) (hi : (i, n) ∈ spots a 0 ls) (hlow : i.1 ≤ o)
    (hhigh : o < i.2) : remap st.1.reverse o = some (n + (o - i.1)) := by
  obtain ⟨r, hr, hstart, hend, hdist⟩ := h.spot i n hi
  rw [remap, runBefore_of_mem h.sorted (List.mem_reverse.mpr hr) (by omega) (by omega),
    Option.bind_some, if_pos (by omega)]
  congr 1
  omega

/-- A byte of no live atom goes nowhere. -/
lemma Packed.remap_of_notMem (h : Packed a ls st) (hdead : ∀ j ∈ ls, j.1 ≤ o → j.2 ≤ o) :
    remap st.1.reverse o = none := by
  rw [remap]
  cases hrun : runBefore st.1.reverse o with
  | none => rfl
  | some r =>
    obtain ⟨hr, hle, -⟩ := runBefore_eq_some h.sorted hrun
    rw [Option.bind_some, if_neg]
    intro hin
    obtain ⟨j, hj, hlow, hhigh⟩ := h.covered r (List.mem_reverse.mp hr) o hle hin
    have := hdead j hj hlow
    omega

/-- A run ends where the last of its atoms is put. -/
lemma Packed.run_end (h : Packed a ls st) (hne : ∀ i ∈ ls, i.1 < i.2) {r : Run} (hr : r ∈ st.1) :
    ∃ i n, (i, n) ∈ spots a 0 ls ∧ i.2 = r.oldStart + r.len ∧
      r.newStart + r.len = n + (i.2 - i.1) := by
  obtain ⟨i, hi, hend⟩ := h.ends r hr
  obtain ⟨n, hn⟩ := exists_spot hi a 0
  obtain ⟨r', hr', hstart', hend', hdist⟩ := h.spot i n hn
  have hlt := hne i hi
  have hsame : r' = r := h.sorted.eq_of_overlap (List.mem_reverse.mpr hr')
    (List.mem_reverse.mpr hr) (by omega) (by omega)
  subst hsame
  exact ⟨i, n, hn, hend, by omega⟩

/-- **The row of a dead atom goes to the end of the last live atom before it**, or to the start of
the section. -/
theorem Packed.deadRowAddr_of_notMem (h : Packed a ls st) (hne : ∀ i ∈ ls, i.1 < i.2)
    (hdead : ∀ j ∈ ls, j.1 ≤ o → j.2 ≤ o) :
    ((∀ j ∈ ls, o < j.1) ∧ deadRowAddr st.1.reverse o = 0) ∨
      ∃ i n, (i, n) ∈ spots a 0 ls ∧ i.2 ≤ o ∧ (∀ j ∈ ls, j.1 ≤ o → j.2 ≤ i.2) ∧
        deadRowAddr st.1.reverse o = n + (i.2 - i.1) := by
  rw [deadRowAddr]
  cases hrun : runBefore st.1.reverse o with
  | none =>
    refine Or.inl ⟨fun j hj => ?_, rfl⟩
    obtain ⟨n, hn⟩ := exists_spot hj a 0
    obtain ⟨r, hr, hstart, -, -⟩ := h.spot j n hn
    have := runBefore_eq_none h.sorted hrun r (List.mem_reverse.mpr hr)
    omega
  | some r =>
    obtain ⟨hr, hle, hmax⟩ := runBefore_eq_some h.sorted hrun
    have hr' := List.mem_reverse.mp hr
    obtain ⟨i, n, hn, hend, hnew⟩ := h.run_end hne hr'
    have hafter : r.oldStart + r.len ≤ o := by
      by_contra hin
      obtain ⟨j, hj, hlow, hhigh⟩ := h.covered r hr' o hle (by omega)
      have := hdead j hj hlow
      omega
    refine Or.inr ⟨i, n, hn, by omega, fun j hj hjo => ?_, hnew⟩
    obtain ⟨m, hm⟩ := exists_spot hj a 0
    obtain ⟨r₁, hr₁, hstart₁, hend₁, -⟩ := h.spot j m hm
    have hle₁ := hmax r₁ (List.mem_reverse.mpr hr₁) (by omega)
    have hlt := hne j hj
    rcases Nat.lt_or_ge (r.oldStart + r.len) (r₁.oldStart + r₁.len) with hlong | hshort
    · have hsame := h.sorted.eq_of_overlap (List.mem_reverse.mpr hr₁) hr (by omega) (by omega)
      rw [hsame] at hlong
      exact absurd hlong (lt_irrefl _)
    · omega

/-- Live atoms side by side stay side by side. -/
theorem Packed.adjacent (h : Packed a ls st) (hne : ∀ i ∈ ls, i.1 < i.2) {j : ℕ × ℕ} {m : ℕ}
    (hi : (i, n) ∈ spots a 0 ls) (hj : (j, m) ∈ spots a 0 ls) (hij : i.2 = j.1) :
    m = n + (i.2 - i.1) := by
  obtain ⟨r, hr, hstart, hend, hdist⟩ := h.spot i n hi
  obtain ⟨r', hr', hstart', hend', hdist'⟩ := h.spot j m hj
  have hlt := hne i (mem_of_mem_spots hi)
  have hlt' := hne j (mem_of_mem_spots hj)
  have hsame : r = r' := h.sorted.eq_of_overlap (List.mem_reverse.mpr hr)
    (List.mem_reverse.mpr hr') (by omega) (by omega)
  subst hsame
  omega

/-- The payload ends with the last live atom. -/
lemma Packed.end_of_last (h : Packed a ls st) (hne : ∀ i ∈ ls, i.1 < i.2)
    (hi : (i, n) ∈ spots a 0 ls) (hlast : ∀ j ∈ ls, j.2 ≤ i.2)
    (huniq : ∀ j ∈ ls, j.2 = i.2 → j = i) (hspot : ∀ m, (i, m) ∈ spots a 0 ls → m = n) :
    packedEnd a 0 ls = n + (i.2 - i.1) := by
  rw [← h.cursor]
  obtain ⟨runs, cursor⟩ := st
  cases runs with
  | nil =>
    rw [h.empty rfl] at hi
    cases hi
  | cons last runs =>
    obtain ⟨hcursor, hmax⟩ := h.newest last rfl
    obtain ⟨j, m, hm, hend, hnew⟩ := h.run_end hne List.mem_cons_self
    have hge := hmax i (mem_of_mem_spots hi)
    have hle := hlast j (mem_of_mem_spots hm)
    obtain rfl := huniq j (mem_of_mem_spots hm) (by omega)
    rw [hspot m hm] at hnew
    exact hcursor.trans hnew

end Moves

end Torajs.Link.DeadStrip
