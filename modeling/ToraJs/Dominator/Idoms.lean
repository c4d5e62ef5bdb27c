import Mathlib.Algebra.Order.BigOperators.Group.Finset
import ToraJs.Lib.TreeNumbering
import ToraJs.Dominator.Cfg

/-!
# The iterative computation of immediate dominators

`intersect` and `compute_idoms` on reverse-postorder positions.  The model runs over
abstract predecessor lists of positions; `Positions` says what a reverse postorder gives:
every position but the first has a predecessor before it.

The invariant of a sweep over partial tables `doms`:

* a set entry lies below its position and is set itself, and an increasing walk leads from
  the entry to the position (`climb`);
* every dominator of a set position is an ancestor of it in the table (`dom`);
* no common ancestor of the set predecessors lies above the entry (`max`).

An update replaces an entry by one of its ancestors, so positions only decrease and the
sweeps end; at the fixed point the ancestors are exactly the dominators.
-/

namespace Torajs.Dominator

open Dominance (Path Reachable Dominates)
open TreeNumbering (Anc)

/-- The table `doms`: the position of a position's immediate dominator, or `UNSET`. -/
abbrev Doms := ℕ → Option ℕ

/-- `intersect`, the two climbing loops one step at a time. -/
def intersect (doms : Doms) : ℕ → ℕ → ℕ → Option ℕ
  | 0, _, _ => none
  | fuel + 1, a, b =>
    if a > b then do
      let a' ← doms a
      intersect doms fuel a' b
    else if b > a then do
      let b' ← doms b
      intersect doms fuel a b'
    else some a

/-- One predecessor position in the inner loop of `compute_idoms`. -/
def meetPred (doms : Doms) (fuel : ℕ) (acc : Option ℕ) (q : ℕ) : Option (Option ℕ) :=
  match doms q with
  | none => some acc
  | some _ =>
    match acc with
    | none => some (some q)
    | some prev => (intersect doms fuel q prev).map some

/-- The new immediate dominator of a position from its predecessors' positions. -/
def newIdom (doms : Doms) (fuel : ℕ) (preds : List ℕ) : Option (Option ℕ) :=
  preds.foldlM (meetPred doms fuel) none

/-- One sweep over the given positions; the flag is `changed`. -/
def sweep (preds : ℕ → List ℕ) (fuel : ℕ) : List ℕ → Doms → Bool → Option (Doms × Bool)
  | [], doms, changed => some (doms, changed)
  | k :: ks, doms, changed => do
    let new ← newIdom doms fuel (preds k)
    if doms k ≠ new then sweep preds fuel ks (Function.update doms k new) true
    else sweep preds fuel ks doms changed

/-- The `while changed` loop over `n` positions. -/
def domsLoop (preds : ℕ → List ℕ) (n : ℕ) : ℕ → Doms → Option Doms
  | 0, _ => none
  | fuel + 1, doms => do
    let (doms', changed) ← sweep preds (2 * n) ((List.range n).drop 1) doms false
    if changed then domsLoop preds n fuel doms' else some doms'

/-- The table before the first sweep: the entry is its own immediate dominator. -/
def initDoms : Doms := Function.update (fun _ => none) 0 (some 0)

/-! ### Positions -/

/-- The parent function of a table: the entry's loop is left out. -/
def parentOf (doms : Doms) (k : ℕ) : Option ℕ := if k = 0 then none else doms k

/-- Predecessor positions as a reverse postorder has them. -/
structure Positions (preds : ℕ → List ℕ) (n : ℕ) : Prop where
  pos : 0 < n
  lt : ∀ k, ∀ q ∈ preds k, q < n
  earlier : ∀ k, 0 < k → k < n → ∃ q ∈ preds k, q < k

/-- The edges between positions. -/
def PosEdge (preds : ℕ → List ℕ) (q k : ℕ) : Prop := q ∈ preds k

/-- An increasing walk from one position to another. -/
inductive Climb (preds : ℕ → List ℕ) : ℕ → ℕ → Prop
  | refl (k : ℕ) : Climb preds k k
  | step {d q k : ℕ} : Climb preds d q → q ∈ preds k → q < k → Climb preds d k

lemma Climb.le {preds : ℕ → List ℕ} {d k : ℕ} (h : Climb preds d k) : d ≤ k := by
  induction h with
  | refl => exact le_rfl
  | step _ _ hlt ih => omega

lemma Climb.trans {preds : ℕ → List ℕ} {a b c : ℕ} (hab : Climb preds a b)
    (hbc : Climb preds b c) : Climb preds a c := by
  induction hbc with
  | refl => exact hab
  | step _ hq hlt ih => exact Climb.step ih hq hlt

/-- An increasing walk extends a walk to its start by later positions only. -/
lemma Climb.extend {preds : ℕ → List ℕ} {a b : ℕ} {p : List ℕ} (h : Climb preds a b)
    (hp : Path (PosEdge preds) 0 a p) :
    ∃ p', Path (PosEdge preds) 0 b (p' ++ p) ∧ ∀ y ∈ p', a < y := by
  induction h with
  | refl => exact ⟨[], hp, by simp⟩
  | @step q k hclimb hq hlt ih =>
    obtain ⟨p', hp', habove⟩ := ih
    refine ⟨k :: p', Path.step hp' hq, ?_⟩
    intro y hy
    rcases List.mem_cons.mp hy with rfl | hy
    · exact Nat.lt_of_le_of_lt hclimb.le hlt
    · exact habove y hy

/-! ### Ancestors in a table -/

/-- The shape that every table keeps. -/
structure Shape (doms : Doms) : Prop where
  zero : doms 0 = some 0
  lt : ∀ k d, 0 < k → doms k = some d → d < k
  set : ∀ k d, doms k = some d → (doms d).isSome

namespace Shape

variable {doms : Doms}

lemma parentOf_eq {k : ℕ} (hk : 0 < k) : parentOf doms k = doms k := if_neg (by omega)

lemma anc_le (h : Shape doms) {x k : ℕ} (hanc : Anc (parentOf doms) x k) : x ≤ k := by
  induction hanc with
  | refl => exact le_rfl
  | @up k p hp _ ih =>
    by_cases hk : k = 0
    · simp [parentOf, hk] at hp
    · have hp : doms k = some p := by rwa [parentOf_eq (by omega)] at hp
      have := h.lt k p (by omega) hp
      omega

lemma anc_zero {x : ℕ} (hanc : Anc (parentOf doms) x 0) : x = 0 := by
  cases hanc with
  | refl => rfl
  | up hp _ => simp [parentOf] at hp

/-- The ancestors of a position are itself and those of its entry. -/
lemma anc_iff (h : Shape doms) {x k d : ℕ} (hd : doms k = some d) :
    Anc (parentOf doms) x k ↔ x = k ∨ Anc (parentOf doms) x d := by
  by_cases hk : k = 0
  · subst hk
    obtain rfl : d = 0 := Option.some.inj (hd.symm.trans h.zero)
    constructor
    · exact Or.inr
    · rintro (rfl | hx)
      · exact Anc.refl _
      · exact hx
  · have hp : parentOf doms k = some d := (parentOf_eq (by omega)).trans hd
    constructor
    · exact fun hx => hx.eq_or_parent hp
    · rintro (rfl | hx)
      · exact Anc.refl _
      · exact Anc.up hp hx

lemma anc_set (h : Shape doms) {x k : ℕ} (hanc : Anc (parentOf doms) x k)
    (hk : (doms k).isSome) : (doms x).isSome := by
  induction hanc with
  | refl => exact hk
  | @up k p hp _ ih =>
    by_cases hk0 : k = 0
    · simp [parentOf, hk0] at hp
    · have hp : doms k = some p := by rwa [parentOf_eq (by omega)] at hp
      exact ih (h.set k p hp)

/-- Two ancestors of a position are comparable. -/
lemma anc_total {x y k : ℕ} (hx : Anc (parentOf doms) x k)
    (hy : Anc (parentOf doms) y k) : Anc (parentOf doms) x y ∨ Anc (parentOf doms) y x := by
  induction hx with
  | refl => exact Or.inr hy
  | @up k p hp hx ih =>
    rcases hy.eq_or_parent hp with rfl | hy
    · exact Or.inl (Anc.up hp hx)
    · exact ih hy

/-- **The climbing fingers meet at the common ancestors' deepest.** -/
lemma intersect_spec (h : Shape doms) (fuel : ℕ) : ∀ {a b : ℕ}, (doms a).isSome →
    (doms b).isSome → a + b < fuel → ∃ c, intersect doms fuel a b = some c ∧ (doms c).isSome ∧
      ∀ x, Anc (parentOf doms) x c ↔ Anc (parentOf doms) x a ∧ Anc (parentOf doms) x b := by
  induction fuel with
  | zero => exact fun _ _ hlt => absurd hlt (Nat.not_lt_zero _)
  | succ fuel ih =>
    intro a b ha hb hlt
    rw [intersect]
    by_cases hab : a > b
    · rw [if_pos hab]
      obtain ⟨d, hd⟩ := Option.isSome_iff_exists.mp ha
      have hda := h.lt a d (by omega) hd
      obtain ⟨c, hc, hset, hspec⟩ := ih (h.set a d hd) hb (by omega : d + b < fuel)
      refine ⟨c, by rw [hd]; exact hc, hset, fun x => ?_⟩
      rw [hspec, h.anc_iff hd]
      constructor
      · exact fun hx => ⟨Or.inr hx.1, hx.2⟩
      · rintro ⟨rfl | hx, hxb⟩
        · exact absurd (h.anc_le hxb) (by omega)
        · exact ⟨hx, hxb⟩
    · rw [if_neg hab]
      by_cases hba : b > a
      · rw [if_pos hba]
        obtain ⟨d, hd⟩ := Option.isSome_iff_exists.mp hb
        have hdb := h.lt b d (by omega) hd
        obtain ⟨c, hc, hset, hspec⟩ := ih ha (h.set b d hd) (by omega : a + d < fuel)
        refine ⟨c, by rw [hd]; exact hc, hset, fun x => ?_⟩
        rw [hspec, h.anc_iff hd]
        constructor
        · exact fun hx => ⟨hx.1, Or.inr hx.2⟩
        · rintro ⟨hxa, rfl | hx⟩
          · exact absurd (h.anc_le hxa) (by omega)
          · exact ⟨hxa, hx⟩
      · rw [if_neg hba]
        obtain rfl : a = b := by omega
        exact ⟨a, rfl, ha, fun x => by rw [and_self]⟩

/-- The set predecessors' common ancestors are the ancestors of the new entry. -/
lemma newIdom_spec (h : Shape doms) {n : ℕ} {qs : List ℕ} (hqs : ∀ q ∈ qs, q < n)
    (hset : ∀ k, (doms k).isSome → k < n) :
    ∃ r, newIdom doms (2 * n) qs = some r ∧
      match r with
      | none => ∀ q ∈ qs, doms q = none
      | some m => (∃ q ∈ qs, (doms q).isSome) ∧ (doms m).isSome ∧ ∀ x,
          Anc (parentOf doms) x m ↔ ∀ q ∈ qs, (doms q).isSome → Anc (parentOf doms) x q := by
  induction qs using List.reverseRecOn with
  | nil => exact ⟨none, rfl, by simp⟩
  | append_singleton qs q ih =>
    obtain ⟨r, hr, hspec⟩ := ih fun q' hq' => hqs q' (List.mem_append_left _ hq')
    have hfold : newIdom doms (2 * n) (qs ++ [q]) = meetPred doms (2 * n) r q := by
      have hr' : qs.foldlM (meetPred doms (2 * n)) none = some r := hr
      simp [newIdom, List.foldlM_append, hr']
    rw [hfold]
    have hmem : ∀ {P : ℕ → Prop}, (∀ q' ∈ qs ++ [q], P q') ↔ (∀ q' ∈ qs, P q') ∧ P q := by
      intro P
      simp [or_imp, forall_and]
    cases hq : doms q with
    | none =>
      refine ⟨r, by simp [meetPred, hq], ?_⟩
      cases r with
      | none => exact hmem.mpr ⟨hspec, hq⟩
      | some m =>
        obtain ⟨⟨q', hq', hq'set⟩, hm, hanc⟩ := hspec
        refine ⟨⟨q', List.mem_append_left _ hq', hq'set⟩, hm, fun x => ?_⟩
        rw [hanc, hmem]
        simp [hq]
    | some d =>
      have hqset : (doms q).isSome := by rw [hq]; rfl
      cases r with
      | none =>
        refine ⟨some q, by simp [meetPred, hq], ⟨q, by simp, hqset⟩, hqset, fun x => ?_⟩
        rw [hmem]
        constructor
        · intro hx
          refine ⟨fun q' hq' hset' => ?_, fun _ => hx⟩
          rw [hspec q' hq'] at hset'
          cases hset'
        · exact fun hx => hx.2 hqset
      | some m =>
        obtain ⟨⟨q', hq', hq'set⟩, hm, hanc⟩ := hspec
        have hqn := hqs q (by simp)
        have hmn := hset m hm
        obtain ⟨c, hc, hcset, hcspec⟩ := h.intersect_spec (2 * n) hqset hm (by omega)
        refine ⟨some c, by simp [meetPred, hq, hc], ⟨q, by simp, hqset⟩, hcset, fun x => ?_⟩
        rw [hcspec, hanc, hmem]
        constructor
        · exact fun hx => ⟨hx.2, fun _ => hx.1⟩
        · exact fun hx => ⟨hx.2 hqset, hx.1⟩

end Shape

/-! ### The invariant of a sweep -/

/-- What every table on the way satisfies. -/
structure Inv (preds : ℕ → List ℕ) (n : ℕ) (doms : Doms) : Prop where
  shape : Shape doms
  lt : ∀ k, (doms k).isSome → k < n
  climb : ∀ k d, 0 < k → doms k = some d → Climb preds d k
  dom : ∀ x k, (doms k).isSome → Dominates (PosEdge preds) 0 x k → Anc (parentOf doms) x k
  max : ∀ k d, 0 < k → doms k = some d → ∀ x,
    (∀ q ∈ preds k, (doms q).isSome → Anc (parentOf doms) x q) → x ≤ d

/-- The positions below `k` have been met in the running sweep: they are set, and their
entries are ancestors of their earlier predecessors. -/
structure Swept (preds : ℕ → List ℕ) (k : ℕ) (doms : Doms) : Prop where
  set : ∀ j < k, (doms j).isSome
  up : ∀ j d, 0 < j → j < k → doms j = some d → ∀ q ∈ preds j, q < j → Anc (parentOf doms) d q

/-- An ancestor survives a change of one parent unless the walk up passes the changed
node. -/
lemma anc_update {parent parent' : ℕ → Option ℕ} {k : ℕ} (hp : ∀ i, i ≠ k → parent i = parent' i)
    {x j : ℕ} (h : Anc parent x j) : Anc parent' x j ∨ Anc parent' k j ∧ Anc parent x k := by
  induction h with
  | refl => exact Or.inl (Anc.refl _)
  | @up j p hpar h ih =>
    by_cases hj : j = k
    · subst hj
      exact Or.inr ⟨Anc.refl _, Anc.up hpar h⟩
    · have hpar' : parent' j = some p := (hp j hj).symm.trans hpar
      rcases ih with ih | ⟨hk, hx⟩
      · exact Or.inl (Anc.up hpar' ih)
      · exact Or.inr ⟨Anc.up hpar' hk, hx⟩

lemma Inv.climb_of_anc {preds : ℕ → List ℕ} {n : ℕ} {doms : Doms} (h : Inv preds n doms)
    {x k : ℕ} (hanc : Anc (parentOf doms) x k) : Climb preds x k := by
  induction hanc with
  | refl => exact Climb.refl _
  | @up k p hp _ ih =>
    by_cases hk : k = 0
    · simp [parentOf, hk] at hp
    · rw [Shape.parentOf_eq (by omega)] at hp
      exact ih.trans (h.climb k p (by omega) hp)

section Step

variable {preds : ℕ → List ℕ} {n k m : ℕ} {doms : Doms}

/-- What the new entry of a position satisfies. -/
structure NewEntry (preds : ℕ → List ℕ) (doms : Doms) (k m : ℕ) : Prop where
  pos : 0 < k
  earlier : ∃ q ∈ preds k, q < k ∧ Anc (parentOf doms) m q
  set : (doms m).isSome
  anc_iff : ∀ x, Anc (parentOf doms) x m ↔
    ∀ q ∈ preds k, (doms q).isSome → Anc (parentOf doms) x q

lemma NewEntry.lt (hs : Shape doms) (hm : NewEntry preds doms k m) : m < k := by
  obtain ⟨q, _, hqk, hanc⟩ := hm.earlier
  exact Nat.lt_of_le_of_lt (hs.anc_le hanc) hqk

lemma Inv.exists_newEntry (h : Inv preds n doms) (hP : Positions preds n)
    (hsw : Swept preds k doms) (hk : 0 < k) (hkn : k < n) :
    ∃ m, newIdom doms (2 * n) (preds k) = some (some m) ∧ NewEntry preds doms k m := by
  obtain ⟨q, hq, hqk⟩ := hP.earlier k hk hkn
  have hqset := hsw.set q hqk
  obtain ⟨r, hr, hspec⟩ := h.shape.newIdom_spec (hP.lt k) h.lt
  cases r with
  | none =>
    rw [hspec q hq] at hqset
    cases hqset
  | some m =>
    obtain ⟨_, hmset, hanc⟩ := hspec
    exact ⟨m, hr, hk, ⟨q, hq, hqk, (hanc m).mp (Anc.refl m) q hq hqset⟩, hmset, hanc⟩

/-- The new entry never lies above the old one. -/
lemma Inv.newEntry_le (h : Inv preds n doms) (hm : NewEntry preds doms k m) {d : ℕ}
    (hd : doms k = some d) : m ≤ d :=
  h.max k d hm.pos hd m ((hm.anc_iff m).mp (Anc.refl m))

/-- Down a climb among swept positions an ancestor below its start stays an ancestor. -/
lemma Inv.anc_of_climb (h : Inv preds n doms) (hsw : Swept preds k doms) {d : ℕ} (hmd : m ≤ d) :
    ∀ {j}, Climb preds d j → j < k → Anc (parentOf doms) m j → Anc (parentOf doms) m d := by
  intro j hclimb
  induction hclimb with
  | refl => exact fun _ hanc => hanc
  | @step q j hclimb hq hqj ih =>
    intro hjk hanc
    have hdj : d < j := Nat.lt_of_le_of_lt hclimb.le hqj
    obtain ⟨e, he⟩ := Option.isSome_iff_exists.mp (hsw.set j hjk)
    rcases (h.shape.anc_iff he).mp hanc with rfl | hanc
    · omega
    · have hup := hsw.up j e (by omega) hjk he q hq hqj
      exact ih (by omega) (hanc.trans hup)

/-- **An update replaces an entry by one of its ancestors.** -/
lemma Inv.newEntry_anc (h : Inv preds n doms) (hsw : Swept preds k doms)
    (hm : NewEntry preds doms k m) {d : ℕ} (hd : doms k = some d) : Anc (parentOf doms) m d := by
  have hmd := h.newEntry_le hm hd
  have hclimb := h.climb k d hm.pos hd
  have hdk := h.shape.lt k d hm.pos hd
  cases hclimb with
  | refl => omega
  | @step q _ hclimb hq hqk =>
    refine h.anc_of_climb hsw hmd hclimb hqk ?_
    exact (hm.anc_iff m).mp (Anc.refl m) q hq (hsw.set q hqk)

lemma parentOf_update_ne {i : ℕ} {r : Option ℕ} (hi : i ≠ k) :
    parentOf (Function.update doms k r) i = parentOf doms i := by
  rw [parentOf, parentOf, Function.update_of_ne hi]

/-- The table with the new entry keeps its shape. -/
lemma Inv.shape_update (h : Inv preds n doms) (hm : NewEntry preds doms k m) :
    Shape (Function.update doms k (some m)) where
  zero := by
    rw [Function.update_of_ne (by have := hm.pos; omega)]
    exact h.shape.zero
  lt j d hj hd := by
    by_cases hjk : j = k
    · subst hjk
      rw [Function.update_self] at hd
      obtain rfl := Option.some.inj hd
      exact hm.lt h.shape
    · rw [Function.update_of_ne hjk] at hd
      exact h.shape.lt j d hj hd
  set j d hd := by
    have hset : ∀ i, (doms i).isSome → (Function.update doms k (some m) i).isSome := by
      intro i hi
      by_cases hik : i = k
      · rw [hik, Function.update_self]
        rfl
      · rwa [Function.update_of_ne hik]
    by_cases hjk : j = k
    · subst hjk
      rw [Function.update_self] at hd
      obtain rfl := Option.some.inj hd
      exact hset m hm.set
    · rw [Function.update_of_ne hjk] at hd
      exact hset d (h.shape.set j d hd)

/-- Below the updated position the ancestors stay. -/
lemma Inv.anc_update_of_lt (h : Inv preds n doms) (hm : NewEntry preds doms k m) {x j : ℕ}
    (hj : j < k) : Anc (parentOf (Function.update doms k (some m))) x j ↔
      Anc (parentOf doms) x j := by
  constructor
  · intro hx
    rcases anc_update (fun i hi => parentOf_update_ne hi) hx with hx | ⟨hk, _⟩
    · exact hx
    · exact absurd (h.shape.anc_le hk) (by omega)
  · intro hx
    rcases anc_update (fun i hi => (parentOf_update_ne hi).symm) hx with hx | ⟨hk, _⟩
    · exact hx
    · exact absurd ((h.shape_update hm).anc_le hk) (by omega)

lemma Inv.anc_update_self (h : Inv preds n doms) (hm : NewEntry preds doms k m) {x : ℕ} :
    Anc (parentOf (Function.update doms k (some m))) x k ↔ x = k ∨ Anc (parentOf doms) x m := by
  rw [(h.shape_update hm).anc_iff (Function.update_self k (some m) doms),
    h.anc_update_of_lt hm (hm.lt h.shape)]

/-- An update only takes ancestors away. -/
lemma Inv.anc_of_update (h : Inv preds n doms) (hsw : Swept preds k doms)
    (hm : NewEntry preds doms k m) {x j : ℕ} (hj : (doms j).isSome)
    (hx : Anc (parentOf (Function.update doms k (some m))) x j) : Anc (parentOf doms) x j := by
  rcases anc_update (fun i hi => parentOf_update_ne hi) hx with hx | ⟨hkj, hxk⟩
  · exact hx
  · obtain ⟨d, hd⟩ := Option.isSome_iff_exists.mp (h.shape.anc_set hkj hj)
    rcases (h.anc_update_self hm).mp hxk with rfl | hxm
    · exact hkj
    · have hxd := hxm.trans (h.newEntry_anc hsw hm hd)
      exact ((h.shape.anc_iff hd).mpr (Or.inr hxd)).trans hkj

lemma isSome_update {j : ℕ} (h : (doms j).isSome ∨ j = k) :
    (Function.update doms k (some m) j).isSome := by
  by_cases hjk : j = k
  · rw [hjk, Function.update_self]
    rfl
  · rw [Function.update_of_ne hjk]
    exact h.resolve_right hjk

lemma isSome_of_update {j : ℕ} (h : (Function.update doms k (some m) j).isSome) :
    (doms j).isSome ∨ j = k := by
  by_cases hjk : j = k
  · exact Or.inr hjk
  · rw [Function.update_of_ne hjk] at h
    exact Or.inl h

/-- A dominator of the updated position is an ancestor in the new table. -/
lemma Inv.anc_self_of_dominates (h : Inv preds n doms) (hm : NewEntry preds doms k m) {x : ℕ}
    (hdom : Dominates (PosEdge preds) 0 x k) :
    Anc (parentOf (Function.update doms k (some m))) x k := by
  rw [h.anc_update_self hm, hm.anc_iff]
  by_cases hx : x = k
  · exact Or.inl hx
  · exact Or.inr fun q hq hqset => h.dom x q hqset (hdom.pred hx hq)

/-- **The new entry of a position keeps the invariant.** -/
lemma Inv.update (h : Inv preds n doms) (hsw : Swept preds k doms) (hkn : k < n)
    (hm : NewEntry preds doms k m) : Inv preds n (Function.update doms k (some m)) where
  shape := h.shape_update hm
  lt j hj := by
    rcases isSome_of_update hj with hj | rfl
    · exact h.lt j hj
    · exact hkn
  climb j d hj hd := by
    by_cases hjk : j = k
    · subst hjk
      rw [Function.update_self] at hd
      obtain rfl := Option.some.inj hd
      obtain ⟨q, hq, hqk, hanc⟩ := hm.earlier
      exact Climb.step (h.climb_of_anc hanc) hq hqk
    · rw [Function.update_of_ne hjk] at hd
      exact h.climb j d hj hd
  dom x j hj hdom := by
    rcases isSome_of_update hj with hj | rfl
    · have hx := h.dom x j hj hdom
      rcases anc_update (fun i hi => (parentOf_update_ne hi).symm) hx with hx | ⟨hkj, hxk⟩
      · exact hx
      · by_cases hxk' : x = k
        · exact hxk' ▸ hkj
        · -- a walk to `k` extends to `j` by positions above `k`
          have hlt : x < k := Nat.lt_of_le_of_ne (h.shape.anc_le hxk) hxk'
          have hclimb := h.climb_of_anc (h.anc_of_update hsw hm hj hkj)
          refine Anc.trans (h.anc_self_of_dominates hm fun p hp => ?_) hkj
          obtain ⟨p', hp', habove⟩ := hclimb.extend hp
          rcases List.mem_append.mp (hdom _ hp') with hmem | hmem
          · exact absurd (habove x hmem) (by omega)
          · exact hmem
    · exact h.anc_self_of_dominates hm hdom
  max j d hj hd x hx := by
    have hx' : ∀ q ∈ preds j, (doms q).isSome → Anc (parentOf doms) x q := fun q hq hqset =>
      h.anc_of_update hsw hm hqset (hx q hq (isSome_update (Or.inl hqset)))
    by_cases hjk : j = k
    · subst hjk
      rw [Function.update_self] at hd
      obtain rfl := Option.some.inj hd
      exact h.shape.anc_le ((hm.anc_iff x).mpr hx')
    · rw [Function.update_of_ne hjk] at hd
      exact h.max j d hj hd x hx'

lemma Inv.swept_update (h : Inv preds n doms) (hsw : Swept preds k doms)
    (hm : NewEntry preds doms k m) : Swept preds (k + 1) (Function.update doms k (some m)) where
  set j hj := by
    refine isSome_update ?_
    by_cases hjk : j = k
    · exact Or.inr hjk
    · exact Or.inl (hsw.set j (by omega))
  up j d hj0 hj hd q hq hqj := by
    rw [h.anc_update_of_lt hm (by omega)]
    by_cases hjk : j = k
    · subst hjk
      rw [Function.update_self] at hd
      obtain rfl := Option.some.inj hd
      exact (hm.anc_iff m).mp (Anc.refl m) q hq (hsw.set q hqj)
    · rw [Function.update_of_ne hjk] at hd
      exact hsw.up j d hj0 (by omega) hd q hq hqj

end Step

/-! ### Sweeps -/

/-- The weight of a table: an update lowers it. -/
def weight (n : ℕ) (doms : Doms) : ℕ := ∑ k ∈ Finset.range n, (doms k).getD n

lemma Inv.weight_update_lt {preds : ℕ → List ℕ} {n k m : ℕ} {doms : Doms} (h : Inv preds n doms)
    (hkn : k < n) (hm : NewEntry preds doms k m) (hne : doms k ≠ some m) :
    weight n (Function.update doms k (some m)) < weight n doms := by
  have hlt : m < (doms k).getD n := by
    cases hd : doms k with
    | none => exact Nat.lt_trans (hm.lt h.shape) hkn
    | some d =>
      have hle := h.newEntry_le hm hd
      have hdm : d ≠ m := fun heq => hne (heq ▸ hd)
      exact Nat.lt_of_le_of_ne hle (Ne.symm hdm)
  refine Finset.sum_lt_sum (fun j _ => ?_) ⟨k, Finset.mem_range.mpr hkn, ?_⟩
  · by_cases hjk : j = k
    · subst hjk
      rw [Function.update_self]
      exact hlt.le
    · rw [Function.update_of_ne hjk]
  · rw [Function.update_self]
    exact hlt

/-- A sweep keeps the invariant; it reports no change only at a fixed point, and a change
lowers the weight. -/
lemma Inv.sweep_spec {preds : ℕ → List ℕ} {n : ℕ} (hP : Positions preds n) :
    ∀ (r k : ℕ) (doms : Doms) (changed : Bool), k + r = n → 0 < k → Inv preds n doms →
      Swept preds k doms → ∃ doms' changed',
        sweep preds (2 * n) ((List.range n).drop k) doms changed = some (doms', changed') ∧
        Inv preds n doms' ∧ Swept preds n doms' ∧
        (doms' = doms ∧ changed' = changed ∧ (∀ j, k ≤ j → j < n →
            ∃ m, doms j = some m ∧ NewEntry preds doms j m) ∨
          changed' = true ∧ weight n doms' < weight n doms) := by
  intro r
  induction r with
  | zero =>
    intro k doms changed hkr _ h hsw
    obtain rfl : k = n := hkr
    refine ⟨doms, changed, ?_, h, hsw, Or.inl ⟨rfl, rfl, by intros; omega⟩⟩
    rw [List.drop_eq_nil_of_le (by rw [List.length_range])]
    rfl
  | succ r ih =>
    intro k doms changed hkr hk h hsw
    have hkn : k < n := by omega
    obtain ⟨m, hnew, hm⟩ := h.exists_newEntry hP hsw hk hkn
    have hdrop : (List.range n).drop k = k :: (List.range n).drop (k + 1) := by
      rw [List.drop_eq_getElem_cons (by rwa [List.length_range]), List.getElem_range]
    have hsw' := h.swept_update hsw hm
    by_cases hd : doms k = some m
    · have hupd : Function.update doms k (some m) = doms := by
        rw [← hd, Function.update_eq_self]
      rw [hupd] at hsw'
      obtain ⟨doms', changed', hrun, hinv, hswn, hres⟩ :=
        ih (k + 1) doms changed (by omega) (by omega) h hsw'
      refine ⟨doms', changed', ?_, hinv, hswn, ?_⟩
      · rw [hdrop, sweep, hnew]
        simpa [hd] using hrun
      · rcases hres with ⟨heq, hch, hfix⟩ | hres
        · refine Or.inl ⟨heq, hch, fun j hkj hjn => ?_⟩
          by_cases hjk : j = k
          · subst hjk
            exact ⟨m, hd, hm⟩
          · exact hfix j (by omega) hjn
        · exact Or.inr hres
    · obtain ⟨doms', changed', hrun, hinv, hswn, hres⟩ :=
        ih (k + 1) (Function.update doms k (some m)) true (by omega) (by omega)
          (h.update hsw hkn hm) hsw'
      have hlt := h.weight_update_lt hkn hm hd
      refine ⟨doms', changed', ?_, hinv, hswn, Or.inr ?_⟩
      · rw [hdrop, sweep, hnew]
        simpa [hd] using hrun
      · rcases hres with ⟨heq, hch, _⟩ | ⟨hch, hlt'⟩
        · exact ⟨hch, heq ▸ hlt⟩
        · exact ⟨hch, hlt'.trans hlt⟩

/-! ### The loop -/

lemma initDoms_ne {k : ℕ} (hk : k ≠ 0) : initDoms k = none := Function.update_of_ne hk _ _

lemma Inv.init {preds : ℕ → List ℕ} {n : ℕ} (hP : Positions preds n) : Inv preds n initDoms := by
  have hzero : ∀ {k}, (initDoms k).isSome → k = 0 := by
    intro k hk
    by_contra hne
    rw [initDoms_ne hne] at hk
    cases hk
  have habsurd : ∀ {k d}, 0 < k → initDoms k ≠ some d := by
    intro k d hk hd
    rw [initDoms_ne (by omega)] at hd
    cases hd
  refine ⟨⟨rfl, fun k d hk hd => absurd hd (habsurd hk), fun k d hd => ?_⟩, fun k hk => ?_,
    fun k d hk hd => absurd hd (habsurd hk), fun x k hk hdom => ?_,
    fun k d hk hd => absurd hd (habsurd hk)⟩
  · obtain rfl : k = 0 := hzero (by rw [hd]; rfl)
    obtain rfl : 0 = d := Option.some.inj hd
    rfl
  · rw [hzero hk]
    exact hP.pos
  · obtain rfl := hzero hk
    rw [hdom.eq_root]
    exact Anc.refl 0

lemma swept_one {preds : ℕ → List ℕ} {n : ℕ} {doms : Doms} (h : Inv preds n doms) :
    Swept preds 1 doms where
  set j hj := by
    obtain rfl : j = 0 := by omega
    rw [h.shape.zero]
    rfl
  up j d hj hj1 := by omega

/-- Every ancestor at a fixed point dominates. -/
lemma Inv.dominates_of_fixed {preds : ℕ → List ℕ} {n : ℕ} {doms : Doms} (h : Inv preds n doms)
    (hP : Positions preds n) (hsw : Swept preds n doms)
    (hfix : ∀ j, 1 ≤ j → j < n → ∃ m, doms j = some m ∧ NewEntry preds doms j m) {x k : ℕ}
    (hx : Anc (parentOf doms) x k) : Dominates (PosEdge preds) 0 x k := by
  intro p hp
  induction hp generalizing x with
  | root =>
    rw [Shape.anc_zero hx]
    exact List.mem_cons_self
  | @step q k p hp hq ih =>
    by_cases hk0 : k = 0
    · subst hk0
      rw [Shape.anc_zero hx]
      exact List.mem_cons_self
    · by_cases hkn : k < n
      · obtain ⟨m, hd, hm⟩ := hfix k (by omega) hkn
        rcases (h.shape.anc_iff hd).mp hx with rfl | hx
        · exact List.mem_cons_self
        · have hqset := hsw.set q (hP.lt k q hq)
          exact List.mem_cons_of_mem _ (ih ((hm.anc_iff x).mp hx q hq hqset))
      · cases hx with
        | refl => exact List.mem_cons_self
        | up hpar _ =>
          rw [Shape.parentOf_eq (by omega)] at hpar
          exact absurd (h.lt k (by rw [hpar]; rfl)) hkn

/-- What the finished table of immediate dominators satisfies. -/
structure IsDoms (preds : ℕ → List ℕ) (n : ℕ) (doms : Doms) : Prop where
  shape : Shape doms
  isSome_iff : ∀ k, (doms k).isSome ↔ k < n
  anc_iff : ∀ x k, k < n → (Anc (parentOf doms) x k ↔ Dominates (PosEdge preds) 0 x k)

lemma domsLoop_of_inv {preds : ℕ → List ℕ} {n : ℕ} (hP : Positions preds n) (fuel : ℕ) :
    ∀ doms, Inv preds n doms → weight n doms < fuel →
      ∃ doms', domsLoop preds n fuel doms = some doms' ∧ IsDoms preds n doms' := by
  induction fuel with
  | zero => exact fun _ _ hlt => absurd hlt (Nat.not_lt_zero _)
  | succ fuel ih =>
    intro doms h hlt
    have hpos := hP.pos
    obtain ⟨doms', changed, hrun, hinv, hsw, hres⟩ :=
      Inv.sweep_spec hP (n - 1) 1 doms false (by omega) (by omega) h (swept_one h)
    rw [domsLoop, hrun]
    rcases hres with ⟨heq, hch, hfix⟩ | ⟨hch, hlt'⟩
    · subst heq hch
      refine ⟨doms', rfl, h.shape, fun k => ⟨h.lt k, hsw.set k⟩, fun x k hk => ?_⟩
      exact ⟨h.dominates_of_fixed hP hsw hfix, h.dom x k (hsw.set k hk)⟩
    · subst hch
      exact ih doms' hinv (by omega)

lemma weight_initDoms_le (n : ℕ) : weight n initDoms ≤ n * n := by
  calc weight n initDoms ≤ ∑ _k ∈ Finset.range n, n := by
        refine Finset.sum_le_sum fun k hk => ?_
        by_cases hk0 : k = 0
        · subst hk0
          exact Nat.zero_le n
        · rw [initDoms_ne hk0]
          exact le_rfl
    _ = n * n := by rw [Finset.sum_const, Finset.card_range, nsmul_eq_mul, Nat.cast_id]

/-- **The sweeps end, and the ancestors in the table they leave are the dominators.** -/
theorem domsLoop_spec {preds : ℕ → List ℕ} {n : ℕ} (hP : Positions preds n) :
    ∃ doms, domsLoop preds n (n * n + 1) initDoms = some doms ∧ IsDoms preds n doms :=
  domsLoop_of_inv hP (n * n + 1) initDoms (Inv.init hP)
    (Nat.lt_succ_of_le (weight_initDoms_le n))

end Torajs.Dominator
