import Mathlib.Data.List.Induction
import ToraJs.Lib.StableSort

/-!
# Array sort: the general kernel

`sort.rs`: an insertion sort of short runs and a merge sort over a scratch buffer, on the slots
of an array, for any comparator.  The comparator has a state of its own and may record a throw,
which the sort polls after each compare.  Reads, writes and copies outside the array and the
scratch buffer have no result, so that a run with a result used no such index.
-/

namespace Torajs.Arr

open StableSort

variable {α σ : Type}

/-- A comparator: its answer "greater" and its effect on the state in which a throw may be
pending. -/
structure SortCmp (α σ : Type) where
  /-- Whether a compare can leave a pending throw. -/
  canThrow : Bool
  isGt : α → α → σ → Bool × σ
  /-- Is a throw pending? -/
  aborted : σ → Bool

/-- The poll after a compare. -/
def SortCmp.poll (cmp : SortCmp α σ) (st : σ) : Bool := cmp.canThrow && cmp.aborted st

/-- Runs at or below this length are sorted by insertion. -/
def insertionRun : ℕ := 32

/-- Stores a slot. -/
def writeSlot (s : List α) (i : ℕ) (v : α) : Option (List α) :=
  if i < s.length then some (s.set i v) else none

/-- Copies `n` slots from one buffer to another. -/
def copySlots (src : List α) (i : ℕ) (dst : List α) (k n : ℕ) : Option (List α) :=
  if i + n ≤ src.length ∧ k + n ≤ dst.length then
    some (dst.take k ++ (src.drop i).take n ++ dst.drop (k + n))
  else none

/-! ### The code -/

/-- The inner loop of the insertion sort: moves the hole at `j` to the left past greater slots
and stores `cur` in it. -/
def insertHole (cmp : SortCmp α σ) (lo : ℕ) (cur : α) :
    ℕ → List α → σ → Option (Bool × List α × σ)
  | 0, s, st => do
    let s ← writeSlot s lo cur
    some (true, s, st)
  | j + 1, s, st => do
    let prev ← s[lo + j]?
    let (gt, st) := cmp.isGt prev cur st
    if cmp.poll st then do
      let s ← writeSlot s (lo + (j + 1)) cur
      some (false, s, st)
    else if gt then do
      let s ← writeSlot s (lo + (j + 1)) prev
      insertHole cmp lo cur j s st
    else do
      let s ← writeSlot s (lo + (j + 1)) cur
      some (true, s, st)

/-- The outer loop of the insertion sort: inserts the slots from `i` on, `count` of them. -/
def insertAll (cmp : SortCmp α σ) (lo : ℕ) :
    ℕ → ℕ → List α → σ → Option (Bool × List α × σ)
  | 0, _, s, st => some (true, s, st)
  | count + 1, i, s, st => do
    let cur ← s[lo + i]?
    let (ok, s, st) ← insertHole cmp lo cur i s st
    if ok then insertAll cmp lo count (i + 1) s st else some (false, s, st)

/-- The insertion sort of the `n` slots from `lo` on; `false` on a throw of the comparator. -/
def insertion (cmp : SortCmp α σ) (lo n : ℕ) (s : List α) (st : σ) : Option (Bool × List α × σ) :=
  insertAll cmp lo (n - 1) 1 s st

/-- The loop of the merge: `i` is the next slot of the left run in the scratch buffer, `j` that
of the right run, `k` the next slot to fill. -/
def mergeLoop (cmp : SortCmp α σ) (scratch : List α) (ln hi i j k : ℕ) (s : List α) (st : σ) :
    Option (Bool × List α × σ) :=
  if _h : i < ln ∧ j < hi then do
    let l ← scratch[i]?
    let r ← s[j]?
    let (gt, st) := cmp.isGt l r st
    if cmp.poll st then do
      let s ← copySlots scratch i s k (ln - i)
      some (false, s, st)
    else if gt then do
      let s ← writeSlot s k r
      mergeLoop cmp scratch ln hi i (j + 1) (k + 1) s st
    else do
      let s ← writeSlot s k l
      mergeLoop cmp scratch ln hi (i + 1) j (k + 1) s st
  else do
    let s ← copySlots scratch i s k (ln - i)
    some (true, s, st)
termination_by (ln - i) + (hi - j)

/-- The stable merge of `s[lo..mid]` and `s[mid..hi]`: the left run is copied to the scratch
buffer first. -/
def mergeRuns (cmp : SortCmp α σ) (lo mid hi : ℕ) (s scratch : List α) (st : σ) :
    Option (Bool × List α × List α × σ) := do
  let ln := mid - lo
  let scratch ← copySlots s lo scratch 0 ln
  let (ok, s, st) ← mergeLoop cmp scratch ln hi 0 mid lo s st
  some (ok, s, scratch, st)

/-- The merge sort of `s[lo..hi]`. -/
def sortRange (cmp : SortCmp α σ) (lo hi : ℕ) (s scratch : List α) (st : σ) :
    Option (Bool × List α × List α × σ) :=
  if _h : hi - lo ≤ insertionRun then do
    let (ok, s, st) ← insertion cmp lo (hi - lo) s st
    some (ok, s, scratch, st)
  else do
    let mid := lo + (hi - lo) / 2
    let (ok, s, scratch, st) ← sortRange cmp lo mid s scratch st
    if ok then do
      let (ok, s, scratch, st) ← sortRange cmp mid hi s scratch st
      if ok then mergeRuns cmp lo mid hi s scratch st
      else some (false, s, scratch, st)
    else some (false, s, scratch, st)
termination_by hi - lo
decreasing_by all_goals (unfold insertionRun at _h; omega)

/-- Sorts the slots: by insertion when they are few, else by merging over a scratch buffer, whose
first contents are whatever the allocator left there. -/
def sortSlots (cmp : SortCmp α σ) (garbage : ℕ → α) (slots : List α) (st : σ) :
    Option (List α × σ) :=
  if slots.length ≤ insertionRun then do
    let (_, s, st) ← insertion cmp 0 slots.length slots st
    some (s, st)
  else do
    let scratch := (List.range ((slots.length + 1) / 2)).map garbage
    let (_, s, _, st) ← sortRange cmp 0 slots.length slots scratch st
    some (s, st)

/-! ### Buffers -/

/-- Storing a slot that exists. -/
lemma writeSlot_append (xs : List α) (x v : α) (ys : List α) :
    writeSlot (xs ++ x :: ys) xs.length v = some (xs ++ v :: ys) := by
  rw [writeSlot, if_pos (by simp), List.set_append_right xs.length v (Nat.le_refl _)]
  simp

/-- Copying a block of one buffer onto a block of the same length of another. -/
lemma copySlots_append (xs mid ys as gap bs : List α) (hlen : gap.length = mid.length) :
    copySlots (xs ++ mid ++ ys) xs.length (as ++ gap ++ bs) as.length mid.length =
      some (as ++ mid ++ bs) := by
  rw [copySlots, if_pos (by simp only [List.length_append]; omega)]
  have htake : ((xs ++ mid ++ ys).drop xs.length).take mid.length = mid := by
    rw [List.append_assoc, List.drop_left, List.take_left]
  have hhead : (as ++ gap ++ bs).take as.length = as := by rw [List.append_assoc, List.take_left]
  have htail : (as ++ gap ++ bs).drop (as.length + mid.length) = bs := by
    rw [← hlen, ← List.length_append, List.drop_left]
  rw [htake, hhead, htail]

/-! ### What the code does

Each part has a result, on every comparator: the slots of its range, in some order, with the rest
of the array unchanged.  With a comparator that answers by a strict weak order and never throws,
the order is the one of the stable sort. -/

/-- On the elements of `X` the comparator answers by `gt`, and never leaves a throw. -/
structure Answers (cmp : SortCmp α σ) (gt : α → α → Bool) (X : List α) : Prop where
  answer : ∀ a ∈ X, ∀ b ∈ X, ∀ st, (cmp.isGt a b st).1 = gt a b
  noThrow : ∀ a ∈ X, ∀ b ∈ X, ∀ st, cmp.poll (cmp.isGt a b st).2 = false

/-- The answers on some of the elements. -/
lemma Answers.mono {cmp : SortCmp α σ} {gt : α → α → Bool} {X Y : List α} (h : Answers cmp gt X)
    (hY : ∀ y ∈ Y, y ∈ X) : Answers cmp gt Y :=
  ⟨fun a ha b hb => h.answer a (hY a ha) b (hY b hb),
    fun a ha b hb => h.noThrow a (hY a ha) b (hY b hb)⟩

/-- The inner loop of the insertion puts the element somewhere into the run in front of the hole;
when the comparator answers by an order, in front of all greater elements behind one that is
not. -/
lemma insertHole_spec (cmp : SortCmp α σ) (cur : α) (A P : List α) (x : α) (B : List α) (st : σ) :
    ∃ ok P₁ P₂ st', insertHole cmp A.length cur P.length (A ++ P ++ x :: B) st =
        some (ok, A ++ (P₁ ++ cur :: P₂) ++ B, st') ∧ P = P₁ ++ P₂ ∧
      ∀ gt, Answers cmp gt (cur :: P) → ok = true ∧ (∀ y ∈ P₂, gt y cur = true) ∧
        ∀ y, P₁.getLast? = some y → gt y cur = false := by
  induction P using List.reverseRecOn generalizing x B st with
  | nil =>
    refine ⟨true, [], [], st, ?_, rfl, fun gt _ => ⟨rfl, by simp, by simp⟩⟩
    rw [List.length_nil, insertHole, List.append_nil, writeSlot_append]
    simp
  | append_singleton P p ih =>
    have hread : (A ++ (P ++ [p]) ++ x :: B)[A.length + P.length]? = some p := by
      rw [show A ++ (P ++ [p]) ++ x :: B = (A ++ P) ++ p :: x :: B by simp,
        ← List.length_append, List.getElem?_append_right (Nat.le_refl _), Nat.sub_self]
      rfl
    have hwrite : ∀ v, writeSlot (A ++ (P ++ [p]) ++ x :: B) (A.length + (P.length + 1)) v =
        some (A ++ (P ++ [p]) ++ v :: B) := by
      intro v
      have h := writeSlot_append (A ++ (P ++ [p])) x v B
      rwa [List.length_append, List.length_append, List.length_singleton] at h
    rw [List.length_append, List.length_singleton, insertHole, hread]
    rcases hcmp : cmp.isGt p cur st with ⟨gt, st₁⟩
    simp only [Option.bind_eq_bind, Option.bind_some, hcmp, hwrite]
    have hcur : ∀ Q : List α, cur ∈ cur :: Q := fun Q => List.mem_cons_self
    have hp : p ∈ cur :: (P ++ [p]) := by simp
    by_cases hthrow : cmp.poll st₁ = true
    · refine ⟨false, P ++ [p], [], st₁, by simp [hthrow], by simp, fun g hg => ?_⟩
      have hno := hg.noThrow p hp cur (hcur _) st
      rw [hcmp, hthrow] at hno
      exact absurd hno (by decide)
    · rw [if_neg hthrow]
      by_cases hgt : gt = true
      · obtain ⟨ok, P₁, P₂, st', hrun, rfl, hspec⟩ := ih p (p :: B) st₁
        refine ⟨ok, P₁, P₂ ++ [p], st', ?_, by simp, fun g hg => ?_⟩
        · rw [if_pos hgt]
          simp only [List.append_assoc, List.cons_append, List.nil_append] at hrun ⊢
          exact hrun
        · obtain ⟨h1, h2, h3⟩ := hspec g (hg.mono fun y hy => by
            rcases List.mem_cons.mp hy with rfl | hy
            · exact hcur _
            · exact List.mem_cons_of_mem _ (List.mem_append_left _ hy))
          refine ⟨h1, fun y hy => ?_, h3⟩
          rcases List.mem_append.mp hy with hy | hy
          · exact h2 y hy
          · rw [List.mem_singleton.mp hy, ← hg.answer p hp cur (hcur _) st, hcmp]
            exact hgt
      · refine ⟨true, P ++ [p], [], st₁, by simp [hgt], by simp, fun g hg => ⟨rfl, by simp, ?_⟩⟩
        intro y hy
        rw [List.getLast?_concat, Option.some.injEq] at hy
        rw [← hy, ← hg.answer p hp cur (hcur _) st, hcmp]
        simpa using hgt

/-- What a part of the sort does to the slots `X` of its range: it leaves them in some order `Y`,
and with a comparator that answers by a strict weak order, in the stable order. -/
structure Sorts (cmp : SortCmp α σ) (X : List α) (ok : Bool) (Y : List α) : Prop where
  perm : Y.Perm X
  stable : ∀ gt, StrictWeak gt → Answers cmp gt X → ok = true ∧ IsStableSort gt X Y

/-- The outer loop of the insertion sort inserts the slots behind a run into it. -/
lemma insertAll_spec (cmp : SortCmp α σ) (A S T B : List α) (st : σ) :
    ∃ ok Y st', insertAll cmp A.length T.length S.length (A ++ (S ++ T) ++ B) st =
        some (ok, A ++ Y ++ B, st') ∧ Y.Perm (S ++ T) ∧
      ∀ gt, StrictWeak gt → Answers cmp gt (S ++ T) → Sorted gt S →
        ok = true ∧ IsStableSort gt (S ++ T) Y := by
  induction T generalizing S st with
  | nil =>
    refine ⟨true, S, st, by rw [List.append_nil]; rfl, by rw [List.append_nil], ?_⟩
    intro gt _ _ hS
    rw [List.append_nil]
    exact ⟨rfl, SameTies.refl S, hS⟩
  | cons c T ih =>
    have hread : (A ++ (S ++ c :: T) ++ B)[A.length + S.length]? = some c := by
      rw [show A ++ (S ++ c :: T) ++ B = (A ++ S) ++ c :: (T ++ B) by simp,
        ← List.length_append, List.getElem?_append_right (Nat.le_refl _), Nat.sub_self]
      rfl
    obtain ⟨ok, P₁, P₂, st₁, hrun, rfl, hspec⟩ := insertHole_spec cmp c A S c (T ++ B) st
    have hperm : (P₁ ++ c :: P₂).Perm (P₁ ++ P₂ ++ [c]) := by
      rw [List.append_assoc]
      exact (List.perm_append_singleton c P₂).symm.append_left P₁
    rw [List.length_cons, insertAll, hread]
    rw [show A ++ (P₁ ++ P₂ ++ c :: T) ++ B = A ++ (P₁ ++ P₂) ++ c :: (T ++ B) by simp]
    simp only [Option.bind_eq_bind, Option.bind_some, hrun]
    have hsub : ∀ y ∈ c :: (P₁ ++ P₂), y ∈ P₁ ++ P₂ ++ c :: T := by
      intro y hy
      simp only [List.mem_append, List.mem_cons] at hy ⊢
      tauto
    have hslots : A ++ (P₁ ++ c :: P₂) ++ (T ++ B) = A ++ ((P₁ ++ c :: P₂) ++ T) ++ B := by simp
    cases ok with
    | false =>
      refine ⟨false, (P₁ ++ c :: P₂) ++ T, st₁, by rw [hslots]; rfl, ?_, ?_⟩
      · rw [show P₁ ++ P₂ ++ c :: T = (P₁ ++ P₂ ++ [c]) ++ T by simp]
        exact hperm.append_right T
      · intro gt _ hcmp _
        exact absurd (hspec gt (hcmp.mono hsub)).1 (by decide)
    | true =>
      obtain ⟨ok', Y, st', hrest, hperm', hstable⟩ := ih (P₁ ++ c :: P₂) st₁
      have hlen : (P₁ ++ c :: P₂).length = (P₁ ++ P₂).length + 1 := by
        simp only [List.length_append, List.length_cons]
        omega
      rw [hlen, ← hslots] at hrest
      refine ⟨ok', Y, st', hrest, ?_, ?_⟩
      · rw [show P₁ ++ P₂ ++ c :: T = (P₁ ++ P₂ ++ [c]) ++ T by simp]
        exact hperm'.trans (hperm.append_right T)
      · intro gt hgt hcmp hS
        obtain ⟨-, hP₂, hP₁⟩ := hspec gt (hcmp.mono hsub)
        have hins : IsStableSort gt (P₁ ++ P₂ ++ [c]) (P₁ ++ c :: P₂) :=
          ⟨SameTies.move hgt hP₂ P₁, hS.insert hgt hP₂ hP₁⟩
        have hsub' : ∀ y ∈ P₁ ++ c :: P₂ ++ T, y ∈ P₁ ++ P₂ ++ c :: T := by
          intro y hy
          simp only [List.mem_append, List.mem_cons] at hy ⊢
          tauto
        obtain ⟨hok, hY⟩ := hstable gt hgt (hcmp.mono hsub') hins.sorted
        refine ⟨hok, ?_⟩
        rw [show P₁ ++ P₂ ++ c :: T = (P₁ ++ P₂ ++ [c]) ++ T by simp]
        exact hins.of_append hY

/-- The insertion sort sorts the slots of its range. -/
lemma insertion_spec (cmp : SortCmp α σ) (A X B : List α) (st : σ) :
    ∃ ok Y st', insertion cmp A.length X.length (A ++ X ++ B) st = some (ok, A ++ Y ++ B, st') ∧
      Sorts cmp X ok Y := by
  cases X with
  | nil =>
    exact ⟨true, [], st, rfl, List.Perm.refl _, fun gt _ _ =>
      ⟨rfl, SameTies.refl [], List.Pairwise.nil⟩⟩
  | cons x X =>
    obtain ⟨ok, Y, st', hrun, hperm, hstable⟩ := insertAll_spec cmp A [x] X B st
    exact ⟨ok, Y, st', hrun, hperm, fun gt hgt hcmp =>
      hstable gt hgt hcmp (List.pairwise_singleton _ _)⟩

/-- The loop of the merge ends when one of the runs is used up: the rest of the left one is
copied in front of the rest of the right one. -/
lemma mergeLoop_done (cmp : SortCmp α σ) (L R U V A gap B : List α) (st : σ)
    (hgap : gap.length = L.length) (hdone : L = [] ∨ R = []) :
    mergeLoop cmp (U ++ L ++ V) (U.length + L.length) (A.length + gap.length + R.length)
        U.length (A.length + gap.length) A.length (A ++ gap ++ R ++ B) st =
      some (true, A ++ (L ++ R) ++ B, st) := by
  have hend : ¬ (U.length < U.length + L.length ∧
      A.length + gap.length < A.length + gap.length + R.length) := by
    rcases hdone with rfl | rfl <;> simp
  have hcopy := copySlots_append U L V A gap (R ++ B) hgap
  rw [mergeLoop, dif_neg hend, Nat.add_sub_cancel_left, List.append_assoc (A ++ gap), hcopy]
  simp

/-- The loop of the merge: the rest `L` of the left run, in the scratch buffer, and the rest `R`
of the right run, in front of which there are as many slots to fill as `L` has. -/
lemma mergeLoop_spec (cmp : SortCmp α σ) (L R U V A gap B : List α) (st : σ)
    (hgap : gap.length = L.length) :
    ∃ ok Y st', mergeLoop cmp (U ++ L ++ V) (U.length + L.length)
        (A.length + gap.length + R.length) U.length (A.length + gap.length) A.length
        (A ++ gap ++ R ++ B) st = some (ok, A ++ Y ++ B, st') ∧ Y.Perm (L ++ R) ∧
      ∀ gt, Answers cmp gt (L ++ R) → ok = true ∧ Y = merge gt L R := by
  induction hn : L.length + R.length generalizing L R U A gap st with
  | zero =>
    obtain rfl := List.length_eq_zero_iff.mp (by omega : L.length = 0)
    obtain rfl := List.length_eq_zero_iff.mp (by omega : R.length = 0)
    obtain rfl := List.length_eq_zero_iff.mp hgap
    exact ⟨true, [], st, mergeLoop_done cmp [] [] U V A [] B st rfl (Or.inl rfl),
      List.Perm.refl _, fun gt _ => ⟨rfl, (merge_nil_left []).symm⟩⟩
  | succ n ih =>
    cases L with
    | nil =>
      exact ⟨true, R, st, mergeLoop_done cmp [] R U V A gap B st hgap (Or.inl rfl),
        List.Perm.refl _, fun gt _ => ⟨rfl, (merge_nil_left R).symm⟩⟩
    | cons l L =>
      cases R with
      | nil =>
        refine ⟨true, l :: L, st, ?_, by rw [List.append_nil], fun gt _ =>
          ⟨rfl, (merge_nil_right (l :: L)).symm⟩⟩
        have hdone := mergeLoop_done cmp (l :: L) [] U V A gap B st hgap (Or.inr rfl)
        rwa [List.append_nil (l :: L)] at hdone
      | cons r R =>
        obtain ⟨g, gap, rfl⟩ : ∃ g gap', gap = g :: gap' :=
          List.exists_cons_of_length_pos (by rw [hgap, List.length_cons]; omega)
        simp only [List.length_cons] at hgap hn
        have hbounds : U.length < U.length + (l :: L).length ∧
            A.length + (g :: gap).length < A.length + (g :: gap).length + (r :: R).length := by
          simp only [List.length_cons]
          omega
        have hl : (U ++ l :: L ++ V)[U.length]? = some l := by
          rw [List.append_assoc, List.getElem?_append_right (Nat.le_refl _), Nat.sub_self]
          rfl
        have hr : (A ++ g :: gap ++ r :: R ++ B)[A.length + (g :: gap).length]? = some r := by
          rw [← List.length_append, List.append_assoc,
            List.getElem?_append_right (Nat.le_refl _), Nat.sub_self]
          rfl
        have hwrite : ∀ v, writeSlot (A ++ g :: gap ++ r :: R ++ B) A.length v =
            some (A ++ v :: gap ++ r :: R ++ B) := by
          intro v
          have h := writeSlot_append A g v (gap ++ r :: R ++ B)
          simpa only [List.append_assoc, List.cons_append] using h
        rw [mergeLoop, dif_pos hbounds, hl, hr]
        rcases hcmp : cmp.isGt l r st with ⟨gt, st₁⟩
        simp only [Option.bind_eq_bind, Option.bind_some, hcmp, hwrite]
        have hlmem : l ∈ l :: L ++ r :: R := List.mem_append_left _ List.mem_cons_self
        have hrmem : r ∈ l :: L ++ r :: R := List.mem_append_right _ List.mem_cons_self
        by_cases hthrow : cmp.poll st₁ = true
        · have hcopy := copySlots_append U (l :: L) V A (g :: gap) (r :: R ++ B)
            (by simp only [List.length_cons]; omega)
          refine ⟨false, l :: L ++ r :: R, st₁, ?_, List.Perm.refl _, fun g hg => ?_⟩
          · rw [if_pos hthrow, Nat.add_sub_cancel_left, List.append_assoc (A ++ g :: gap), hcopy]
            simp
          · have hno := hg.noThrow l hlmem r hrmem st
            rw [hcmp, hthrow] at hno
            exact absurd hno (by decide)
        · rw [if_neg hthrow]
          by_cases hgt : gt = true
          · -- the right slot is stored, and the gap moves on by one
            obtain ⟨ok, Y, st', hrun, hperm, hstable⟩ := ih (l :: L) R U (A ++ [r]) (gap ++ [r]) st₁
              (by simp only [List.length_append, List.length_cons, List.length_nil]; omega)
              (by simp only [List.length_cons]; omega)
            refine ⟨ok, r :: Y, st', ?_, (hperm.cons r).trans List.perm_middle.symm, ?_⟩
            · rw [if_pos hgt]
              have hslots : A ++ r :: gap ++ r :: R ++ B = A ++ [r] ++ (gap ++ [r]) ++ R ++ B := by
                simp
              have hj : A.length + (g :: gap).length + 1 =
                  (A ++ [r]).length + (gap ++ [r]).length := by
                simp only [List.length_append, List.length_cons, List.length_nil]
                omega
              have hhi : A.length + (g :: gap).length + (r :: R).length =
                  (A ++ [r]).length + (gap ++ [r]).length + R.length := by
                simp only [List.length_append, List.length_cons, List.length_nil]
                omega
              have hk : A.length + 1 = (A ++ [r]).length := by simp
              rw [hslots, hj, hhi, hk, hrun]
              simp
            · intro f hf
              obtain ⟨hok, rfl⟩ := hstable f (hf.mono fun y hy => by
                simp only [List.mem_append, List.mem_cons] at hy ⊢
                tauto)
              have hans : f l r = true := by
                rw [← hf.answer l hlmem r hrmem st, hcmp]
                exact hgt
              exact ⟨hok, by rw [merge_cons_cons, if_pos hans]⟩
          · obtain ⟨ok, Y, st', hrun, hperm, hstable⟩ := ih L (r :: R) (U ++ [l]) (A ++ [l]) gap st₁
              (by omega) (by simp only [List.length_cons]; omega)
            refine ⟨ok, l :: Y, st', ?_, hperm.cons l, ?_⟩
            · rw [if_neg hgt]
              have hscratch : U ++ l :: L ++ V = U ++ [l] ++ L ++ V := by simp
              have hslots : A ++ l :: gap ++ r :: R ++ B = A ++ [l] ++ gap ++ r :: R ++ B := by simp
              have hln : U.length + (l :: L).length = (U ++ [l]).length + L.length := by
                simp only [List.length_append, List.length_cons, List.length_nil]
                omega
              have hj : A.length + (g :: gap).length = (A ++ [l]).length + gap.length := by
                simp only [List.length_append, List.length_cons, List.length_nil]
                omega
              have hk : A.length + 1 = (A ++ [l]).length := by simp
              have hi : U.length + 1 = (U ++ [l]).length := by simp
              rw [hscratch, hslots, hln, hj, hk, hi, hrun]
              simp
            · intro f hf
              obtain ⟨hok, rfl⟩ := hstable f (hf.mono fun y hy => List.mem_cons_of_mem l hy)
              have hans : ¬ f l r = true := by
                rw [← hf.answer l hlmem r hrmem st, hcmp]
                exact hgt
              exact ⟨hok, by rw [merge_cons_cons, if_neg hans]⟩

/-- The merge of two neighbouring runs, over a scratch buffer that holds the left one. -/
lemma mergeRuns_spec (cmp : SortCmp α σ) (A L R B scratch : List α) (st : σ)
    (hscratch : L.length ≤ scratch.length) :
    ∃ ok Y scratch' st', mergeRuns cmp A.length (A.length + L.length)
        (A.length + L.length + R.length) (A ++ (L ++ R) ++ B) scratch st =
        some (ok, A ++ Y ++ B, scratch', st') ∧ scratch'.length = scratch.length ∧
      Y.Perm (L ++ R) ∧ ∀ gt, Answers cmp gt (L ++ R) → ok = true ∧ Y = merge gt L R := by
  have hcopy : copySlots (A ++ (L ++ R) ++ B) A.length scratch 0 L.length =
      some (L ++ scratch.drop L.length) := by
    have h := copySlots_append A L (R ++ B) [] (scratch.take L.length) (scratch.drop L.length)
      (List.length_take_of_le hscratch)
    rw [List.nil_append, List.take_append_drop] at h
    simpa using h
  obtain ⟨ok, Y, st', hrun, hperm, hstable⟩ :=
    mergeLoop_spec cmp L R [] (scratch.drop L.length) A L B st rfl
  refine ⟨ok, Y, L ++ scratch.drop L.length, st', ?_, ?_, hperm, hstable⟩
  · rw [List.nil_append, List.length_nil, Nat.zero_add, List.append_assoc A L R] at hrun
    rw [mergeRuns, Nat.add_sub_cancel_left]
    simp only [hcopy, Option.bind_eq_bind, Option.bind_some, hrun]
  · rw [List.length_append, List.length_drop]
    omega

/-- The merge sort sorts the slots of its range, over a scratch buffer of half its length. -/
theorem sortRange_spec (cmp : SortCmp α σ) (A X B scratch : List α) (st : σ)
    (hscratch : X.length / 2 ≤ scratch.length) :
    ∃ ok Y scratch' st', sortRange cmp A.length (A.length + X.length) (A ++ X ++ B) scratch st =
        some (ok, A ++ Y ++ B, scratch', st') ∧ scratch'.length = scratch.length ∧
      Sorts cmp X ok Y := by
  induction hn : X.length using Nat.strongRecOn generalizing A X B scratch st with
  | ind n ih =>
    subst hn
    rw [sortRange, Nat.add_sub_cancel_left]
    by_cases hsmall : X.length ≤ insertionRun
    · obtain ⟨ok, Y, st', hrun, hsorts⟩ := insertion_spec cmp A X B st
      refine ⟨ok, Y, scratch, st', ?_, rfl, hsorts⟩
      rw [dif_pos hsmall]
      simp only [hrun, Option.bind_eq_bind, Option.bind_some]
    · have hlong : 32 < X.length := by
        unfold insertionRun at hsmall
        omega
      rw [dif_neg hsmall]
      -- the two halves of the range
      obtain ⟨L, hL⟩ : ∃ L, X.take (X.length / 2) = L := ⟨_, rfl⟩
      obtain ⟨R, hR⟩ : ∃ R, X.drop (X.length / 2) = R := ⟨_, rfl⟩
      have hX : X = L ++ R := by rw [← hL, ← hR, List.take_append_drop]
      have hLlen : X.length / 2 = L.length := by
        rw [← hL, List.length_take]
        omega
      have hRlen : R.length = X.length - X.length / 2 := by rw [← hR, List.length_drop]
      obtain ⟨ok₁, L', scratch₁, st₁, hrun₁, hlen₁, hsorts₁⟩ :=
        ih L.length (by omega) A L (R ++ B) scratch st (by omega) rfl
      have hL'len := hsorts₁.perm.length_eq
      have hLmem : ∀ y ∈ L, y ∈ X := fun y hy => by rw [hX]; exact List.mem_append_left _ hy
      have hRmem : ∀ y ∈ R, y ∈ X := fun y hy => by rw [hX]; exact List.mem_append_right _ hy
      have hslots : A ++ X ++ B = A ++ L ++ (R ++ B) := by
        rw [hX]
        simp
      simp only [Option.bind_eq_bind]
      rw [hslots, hLlen, hrun₁, Option.bind_some]
      dsimp only
      cases ok₁ with
      | false =>
        refine ⟨false, L' ++ R, scratch₁, st₁, by simp, hlen₁, ?_, fun gt hgt hcmp => ?_⟩
        · rw [hX]
          exact hsorts₁.perm.append_right R
        · exact absurd (hsorts₁.stable gt hgt (hcmp.mono hLmem)).1 (by decide)
      | true =>
        obtain ⟨ok₂, R', scratch₂, st₂, hrun₂, hlen₂, hsorts₂⟩ :=
          ih R.length (by omega) (A ++ L') R B scratch₁ st₁ (by omega) rfl
        have hhi : A.length + X.length = (A ++ L').length + R.length := by
          rw [List.length_append]
          omega
        have hmid : A.length + L.length = (A ++ L').length := by rw [List.length_append, hL'len]
        have hslots₂ : A ++ L' ++ (R ++ B) = A ++ L' ++ R ++ B := by simp
        rw [if_pos rfl, hslots₂, hhi, hmid, hrun₂, Option.bind_some]
        dsimp only
        cases ok₂ with
        | false =>
          refine ⟨false, L' ++ R', scratch₂, st₂, by simp, hlen₂.trans hlen₁, ?_,
            fun gt hgt hcmp => ?_⟩
          · rw [hX]
            exact hsorts₁.perm.append hsorts₂.perm
          · exact absurd (hsorts₂.stable gt hgt (hcmp.mono hRmem)).1 (by decide)
        | true =>
          obtain ⟨ok₃, Y, scratch₃, st₃, hrun₃, hlen₃, hperm₃, hstable₃⟩ :=
            mergeRuns_spec cmp A L' R' B scratch₂ st₂ (by omega)
          refine ⟨ok₃, Y, scratch₃, st₃, ?_, hlen₃.trans (hlen₂.trans hlen₁), ?_,
            fun gt hgt hcmp => ?_⟩
          · rw [if_pos rfl, List.length_append, ← hsorts₂.perm.length_eq,
              show A ++ L' ++ R' ++ B = A ++ (L' ++ R') ++ B by simp, hrun₃]
          · rw [hX]
            exact hperm₃.trans (hsorts₁.perm.append hsorts₂.perm)
          · have hmem : ∀ y ∈ L' ++ R', y ∈ X := by
              intro y hy
              rw [hX]
              exact (hsorts₁.perm.append hsorts₂.perm).mem_iff.mp hy
            obtain ⟨hok, rfl⟩ := hstable₃ gt (hcmp.mono hmem)
            rw [hX]
            exact ⟨hok, (hsorts₁.stable gt hgt (hcmp.mono hLmem)).2.merge hgt
              (hsorts₂.stable gt hgt (hcmp.mono hRmem)).2⟩

/-- The general kernel has a result on every array and every comparator: the same slots in some
order, and with a comparator that answers by a strict weak order, in the stable order. -/
theorem sortSlots_spec (cmp : SortCmp α σ) (garbage : ℕ → α) (slots : List α) (st : σ) :
    ∃ Y st', sortSlots cmp garbage slots st = some (Y, st') ∧ Y.Perm slots ∧
      ∀ gt, StrictWeak gt → Answers cmp gt slots → IsStableSort gt slots Y := by
  unfold sortSlots
  by_cases hsmall : slots.length ≤ insertionRun
  · obtain ⟨ok, Y, st', hrun, hsorts⟩ := insertion_spec cmp [] slots [] st
    simp only [List.nil_append, List.append_nil, List.length_nil] at hrun
    refine ⟨Y, st', ?_, hsorts.perm, fun gt hgt hcmp => (hsorts.stable gt hgt hcmp).2⟩
    rw [if_pos hsmall]
    simp only [hrun, Option.bind_eq_bind, Option.bind_some]
  · obtain ⟨ok, Y, scratch', st', hrun, -, hsorts⟩ := sortRange_spec cmp [] slots []
      ((List.range ((slots.length + 1) / 2)).map garbage) st
      (by rw [List.length_map, List.length_range]; omega)
    simp only [List.nil_append, List.append_nil, List.length_nil, Nat.zero_add] at hrun
    refine ⟨Y, st', ?_, hsorts.perm, fun gt hgt hcmp => (hsorts.stable gt hgt hcmp).2⟩
    rw [if_neg hsmall]
    simp only [hrun, Option.bind_eq_bind, Option.bind_some]

end Torajs.Arr
