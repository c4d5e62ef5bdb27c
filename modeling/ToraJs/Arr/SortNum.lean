import Mathlib.Data.List.GetD
import ToraJs.Lib.Binary64
import ToraJs.Lib.ExchangeNetwork
import ToraJs.Arr.SortSlots

/-!
# Array sort: the numeric kernel

`sort_num.rs`: slots that are numbers, compared by the native comparators.  Short runs go through
a network of exchanges, and two sorted halves are merged from both ends at once.  A cursor of the
merge reads its own half only: elsewhere a read has no result.
-/

namespace Torajs.Arr

open StableSort ExchangeNetwork

/-- A slot of 64 bits. -/
abbrev Slot := BitVec 64

/-- The answer of the native comparator: the slots are doubles or integers, in ascending or
descending order. -/
def numGt (f64 desc : Bool) (a b : Slot) : Bool :=
  let x := if desc then b else a
  let y := if desc then a else b
  if f64 then (Binary64.value x.toNat).gt (Binary64.value y.toNat)
  else decide (y.toInt < x.toInt)

/-- The native comparator; it cannot throw. -/
def numCmp (f64 desc : Bool) : SortCmp Slot Unit where
  canThrow := false
  isGt := fun a b st => (numGt f64 desc a b, st)
  aborted := fun _ => false

/-- A slot that is sorted at or behind every other one. -/
def lastSlot (f64 desc : Bool) : Slot :=
  if f64 then (if desc then 0xFFF0000000000000 else 0x7FF0000000000000)
  else (if desc then 0x8000000000000000 else 0x7FFFFFFFFFFFFFFF)

/-- Runs at or below this length go through the network. -/
def small : ℕ := 8

/-! ### The network -/

/-- The left positions of the exchanges of a round: every other one, from `round & 1` on. -/
def pairStarts (round : ℕ) : List ℕ :=
  List.range' (round % 2) ((small - round % 2) / 2) 2

/-- The exchanges of all rounds. -/
def networkPositions : List ℕ := (List.range small).flatMap pairStarts

variable {α : Type}

/-- The slots of a run, padded to the width of the network. -/
def networkLoad (pad : α) (s : List α) : Option (List α) :=
  (List.range small).mapM fun k => do
    let x ← s[min k (s.length - 1)]?
    some (if k < s.length then x else pad)

/-- Stores the width of the network, back to front. -/
def networkStore (v s : List α) : Option (List α) :=
  (List.range small).reverse.foldlM (fun s k => do
    let x ← v[k]?
    writeSlot s (min k (s.length - 1)) x) s

/-- The stable sort of a short run. -/
def network (gt : α → α → Bool) (pad : α) (s : List α) : Option (List α) := do
  let v ← networkLoad pad s
  networkStore (run gt v networkPositions) s

/-! ### The merge from both ends -/

/-- Reads a slot of the part `lo..hi`. -/
def readPart (src : List α) (lo hi i : ℤ) : Option α :=
  if lo ≤ i ∧ i < hi then src[i.toNat]? else none

/-- The cursors of the merge: the next slots of the two halves from the front and from the back,
and the next slots to fill. -/
structure Cursors where
  lf : ℤ
  rf : ℤ
  lb : ℤ
  rb : ℤ
  df : ℕ
  db : ℕ

/-- One step from the front. -/
def frontStep (gt : α → α → Bool) (src : List α) (h n : ℕ) (c : Cursors) (dst : List α) :
    Option (Cursors × List α) := do
  let l ← readPart src 0 h c.lf
  let r ← readPart src h n c.rf
  let takeR := gt l r
  let dst ← writeSlot dst c.df (if takeR then r else l)
  some ({ c with
    rf := if takeR then c.rf + 1 else c.rf
    lf := if takeR then c.lf else c.lf + 1
    df := c.df + 1 }, dst)

/-- One step from the back. -/
def backStep (gt : α → α → Bool) (src : List α) (h n : ℕ) (c : Cursors) (dst : List α) :
    Option (Cursors × List α) := do
  let l ← readPart src 0 h c.lb
  let r ← readPart src h n c.rb
  let takeL := gt l r
  let dst ← writeSlot dst c.db (if takeL then l else r)
  some ({ c with
    lb := if takeL then c.lb - 1 else c.lb
    rb := if takeL then c.rb else c.rb - 1
    db := c.db - 1 }, dst)

/-- The loop of the merge: a step from the front and one from the back. -/
def mergeSteps (gt : α → α → Bool) (src : List α) (h n : ℕ) :
    ℕ → Cursors → List α → Option (Cursors × List α)
  | 0, c, dst => some (c, dst)
  | m + 1, c, dst => do
    let (c, dst) ← frontStep gt src h n c dst
    let (c, dst) ← backStep gt src h n c dst
    mergeSteps gt src h n m c dst

/-- Reads the slot that is left in the middle. -/
def middleSlot (src : List α) (h n : ℕ) (c : Cursors) : Option α :=
  if c.lf ≤ c.lb then readPart src 0 h c.lf else readPart src h n c.rf

/-- Merges `src[..h]` and `src[h..n]` into `dst[..n]`. -/
def mergeBoth (gt : α → α → Bool) (src : List α) (h n : ℕ) (dst : List α) :
    Option (List α) := do
  let (c, dst) ← mergeSteps gt src h n (n / 2)
    ⟨0, h, (h : ℤ) - 1, (n : ℤ) - 1, 0, n - 1⟩ dst
  if n % 2 ≠ 0 then do
    let x ← middleSlot src h n c
    writeSlot dst c.df x
  else some dst

/-- The merge sort of a run: the two halves are sorted in place, copied, and merged back. -/
def numRange (gt : α → α → Bool) (pad : α) (s : List α) : Option (List α) :=
  if _h : s.length ≤ small then network gt pad s
  else do
    let h := s.length / 2
    let left ← numRange gt pad (s.take h)
    let right ← numRange gt pad (s.drop h)
    mergeBoth gt (left ++ right) h s.length (left ++ right)
termination_by s.length
decreasing_by
  all_goals
    simp only [List.length_take, List.length_drop]
    unfold small at _h
    omega

/-- The numeric sort; doubles with a NaN among them go through the general kernel. -/
def sortNum (f64 desc : Bool) (garbage : ℕ → Slot) (slots : List Slot) : Option (List Slot) :=
  if f64 && slots.any (fun b => Binary64.isNaN b.toNat) then
    (sortSlots (numCmp f64 desc) garbage slots ()).map Prod.fst
  else if slots.length ≤ small then network (numGt f64 desc) (lastSlot f64 desc) slots
  else numRange (numGt f64 desc) (lastSlot f64 desc) slots

/-! ### The network sorts -/

/-- The network sorts the lists of truth values of its width. -/
lemma sorted_run_networkPositions :
    ∀ u : List Bool, u.length = small → Sorted gtBool (run gtBool u networkPositions) := by
  have hall : ∀ a b c d e f g h : Bool,
      (run gtBool [a, b, c, d, e, f, g, h] networkPositions).Pairwise
        fun a b => gtBool a b = false := by
    decide +kernel
  intro u hu
  match u, hu with
  | [a, b, c, d, e, f, g, h], _ => exact hall a b c d e f g h

/-- A map that has a result on every element. -/
lemma mapM_eq_some {β : Type} {f : ℕ → Option β} {g : ℕ → β} {l : List ℕ}
    (h : ∀ k ∈ l, f k = some (g k)) : l.mapM f = some (l.map g) := by
  induction l with
  | nil => rfl
  | cons k l ih =>
    rw [List.mapM_cons, h k List.mem_cons_self, ih fun j hj => h j (List.mem_cons_of_mem k hj)]
    rfl

/-- The load pads the run. -/
lemma networkLoad_eq (pad : α) {s : List α} (h0 : s ≠ []) (hs : s.length ≤ small) :
    networkLoad pad s = some (s ++ List.replicate (small - s.length) pad) := by
  have hpos := List.length_pos_iff.mpr h0
  have hload : ∀ k ∈ List.range small,
      (do let x ← s[min k (s.length - 1)]?; some (if k < s.length then x else pad)) =
        some (s.getD k pad) := by
    intro k _
    have hlt : min k (s.length - 1) < s.length := by omega
    rw [List.getElem?_eq_getElem hlt, Option.bind_eq_bind, Option.bind_some]
    by_cases hk : k < s.length
    · simp only [if_pos hk, List.getD_eq_getElem _ _ hk, show min k (s.length - 1) = k by omega]
    · rw [if_neg hk, List.getD_eq_default _ _ (by omega)]
  rw [networkLoad, mapM_eq_some hload]
  refine congrArg some (List.ext_getElem ?_ fun i h1 h2 => ?_)
  · simp only [List.length_map, List.length_range, List.length_append, List.length_replicate]
    omega
  · rw [List.getElem_map, List.getElem_range]
    by_cases hi : i < s.length
    · rw [List.getD_eq_getElem _ _ hi, List.getElem_append_left hi]
    · rw [List.getD_eq_default _ _ (by omega), List.getElem_append_right (by omega),
        List.getElem_replicate]

/-- The stores of the first positions, back to front, leave the elements of these positions. -/
lemma networkStore_range {v : List α} (K : ℕ) (hK : K ≤ v.length) (s : List α) (h0 : s ≠ []) :
    ∃ t, (List.range K).reverse.foldlM (fun s k => do
        let x ← v[k]?
        writeSlot s (min k (s.length - 1)) x) s = some t ∧ t.length = s.length ∧
      ∀ i < s.length, t[i]? = if i < K then v[i]? else s[i]? := by
  induction K generalizing s with
  | zero => exact ⟨s, rfl, rfl, fun i _ => by simp⟩
  | succ K ih =>
    have hpos := List.length_pos_iff.mpr h0
    have hlt : K < v.length := by omega
    have hmin : min K (s.length - 1) < s.length := by omega
    obtain ⟨t, hrun, hlen, hget⟩ := ih (by omega) (s.set (min K (s.length - 1)) v[K])
      (by simpa using h0)
    rw [List.length_set] at hlen hget
    refine ⟨t, ?_, hlen, fun i hi => ?_⟩
    · rw [List.range_succ, List.reverse_append, List.reverse_singleton, List.singleton_append,
        List.foldlM_cons, List.getElem?_eq_getElem hlt]
      simp only [Option.bind_eq_bind, Option.bind_some, writeSlot, if_pos hmin]
      exact hrun
    · rw [hget i hi, List.getElem?_set]
      by_cases hiK : i < K
      · rw [if_pos hiK, if_pos (by omega)]
      · rw [if_neg hiK]
        by_cases heq : i = K
        · subst heq
          rw [if_pos (by omega), if_pos hmin, if_pos (by omega), List.getElem?_eq_getElem hlt]
        · rw [if_neg (by omega), if_neg (by omega)]

/-- The stores leave the first elements of the network. -/
lemma networkStore_eq {v s : List α} (hv : v.length = small) (h0 : s ≠ [])
    (hs : s.length ≤ small) : networkStore v s = some (v.take s.length) := by
  obtain ⟨t, hrun, hlen, hget⟩ := networkStore_range (v := v) small (by omega) s h0
  rw [networkStore, hrun]
  refine congrArg some (List.ext_getElem? fun i => ?_)
  by_cases hi : i < s.length
  · rw [hget i hi, if_pos (by omega), List.getElem?_take_of_lt hi]
  · rw [List.getElem?_eq_none (by omega),
      List.getElem?_eq_none (by rw [List.length_take]; omega)]

/-- The comparison `gt` of the code is the order `gt'` on the slots and the pad, and no slot is
greater than the pad. -/
structure Orders (gt gt' : α → α → Bool) (pad : α) (s : List α) : Prop where
  weak : StrictWeak gt'
  agree : ∀ a ∈ pad :: s, ∀ b ∈ pad :: s, gt a b = gt' a b
  last : ∀ a ∈ s, gt' a pad = false

/-- The order of some of the slots. -/
lemma Orders.mono {gt gt' : α → α → Bool} {pad : α} {s t : List α} (h : Orders gt gt' pad s)
    (ht : ∀ x ∈ t, x ∈ s) : Orders gt gt' pad t := by
  have hmem : ∀ x ∈ pad :: t, x ∈ pad :: s := by
    intro x hx
    rcases List.mem_cons.mp hx with rfl | hx
    · exact List.mem_cons_self
    · exact List.mem_cons_of_mem pad (ht x hx)
  exact ⟨h.weak, fun a ha b hb => h.agree a (hmem a ha) b (hmem b hb), fun a ha => h.last a (ht a ha)⟩

/-- The network gives the stable sort of a short run. -/
lemma network_spec {gt gt' : α → α → Bool} {pad : α} {s : List α} (h : Orders gt gt' pad s)
    (h0 : s ≠ []) (hs : s.length ≤ small) :
    ∃ Y, network gt pad s = some Y ∧ IsStableSort gt' s Y := by
  obtain ⟨Y, hY⟩ := exists_isStableSort h.weak s
  obtain ⟨pads, hpads⟩ : ∃ pads, List.replicate (small - s.length) pad = pads := ⟨_, rfl⟩
  have hmem : ∀ x ∈ pads, x = pad := fun x hx => List.eq_of_mem_replicate (hpads ▸ hx)
  have hlen : (s ++ pads).length = small := by
    rw [← hpads, List.length_append, List.length_replicate]
    omega
  -- the pads stay behind the slots
  have hwhole : IsStableSort gt' (s ++ pads) (Y ++ pads) := by
    refine ⟨hY.same.append (SameTies.refl pads),
      List.pairwise_append.mpr ⟨hY.sorted, ?_, fun y hy p hp => ?_⟩⟩
    · rw [← hpads]
      exact List.pairwise_replicate.mpr (Or.inr (h.weak.irrefl pad))
    · rw [hmem p hp]
      exact h.last y (hY.same.perm.mem_iff.mp hy)
  have hagree : ∀ a ∈ s ++ pads, ∀ b ∈ s ++ pads, gt a b = gt' a b := by
    have hsub : ∀ x ∈ s ++ pads, x ∈ pad :: s := by
      intro x hx
      rcases List.mem_append.mp hx with hx | hx
      · exact List.mem_cons_of_mem pad hx
      · rw [hmem x hx]
        exact List.mem_cons_self
    exact fun a ha b hb => h.agree a (hsub a ha) b (hsub b hb)
  have hrun := isStableSort_run h.weak sorted_run_networkPositions hlen
  rw [← run_congr h.weak _ _ hagree] at hrun
  have heq := hrun.unique h.weak hwhole
  refine ⟨Y, ?_, hY⟩
  rw [network, networkLoad_eq pad h0 hs, hpads, Option.bind_eq_bind, Option.bind_some,
    networkStore_eq (by rw [length_run, hlen]) h0 hs, heq, ← hY.same.perm.length_eq,
    List.take_left]

/-! ### The merge from both ends merges -/

/-- A slot of the left half. -/
lemma readPart_left {L : List α} (R : List α) {a : ℕ} (ha : a < L.length) :
    readPart (L ++ R) 0 L.length a = some L[a] := by
  rw [readPart, if_pos (by omega), Int.toNat_natCast, List.getElem?_append_left ha,
    List.getElem?_eq_getElem ha]

/-- A slot of the right half. -/
lemma readPart_right (L : List α) {R : List α} {b : ℕ} (hb : b < R.length) :
    readPart (L ++ R) L.length ((L.length + R.length : ℕ) : ℤ) ((L.length : ℤ) + b) =
      some R[b] := by
  have hcast : ((L.length : ℤ) + b).toNat = L.length + b := by omega
  rw [readPart, if_pos (by omega), hcast, List.getElem?_append_right (by omega),
    Nat.add_sub_cancel_left, List.getElem?_eq_getElem hb]

/-- A step from the front stores the next element of the merge. -/
lemma frontStep_spec {gt gt' : α → α → Bool} {L R : List α} {a b : ℕ} {P : List (α × Bool)}
    (hagree : ∀ x ∈ L, ∀ y ∈ R, gt x y = gt' x y) (hf : Front gt' L R a b P) (ha : a < L.length)
    (hb : b < R.length) (c : Cursors) (hlf : c.lf = a) (hrf : c.rf = L.length + b)
    (hdf : c.df = P.length) (z : α) (rest : List α) :
    ∃ a' b' P', Front gt' L R a' b' P' ∧ P'.length = P.length + 1 ∧
      frontStep gt (L ++ R) L.length (L.length + R.length) c (P.map Prod.fst ++ z :: rest) =
        some ({ c with lf := a', rf := L.length + b', df := P'.length },
          P'.map Prod.fst ++ rest) := by
  have hstep := hf.step ha hb
  have hgt := hagree L[a] (List.getElem_mem ha) R[b] (List.getElem_mem hb)
  have hwrite : ∀ v, writeSlot (P.map Prod.fst ++ z :: rest) c.df v =
      some (P.map Prod.fst ++ v :: rest) := by
    intro v
    have h := writeSlot_append (P.map Prod.fst) z v rest
    rwa [List.length_map, ← hdf] at h
  simp only [frontStep, hlf, hrf, readPart_left R ha, readPart_right L hb, Option.bind_eq_bind,
    Option.bind_some, hwrite, hgt]
  split_ifs at hstep with hg
  · refine ⟨a, b + 1, _, hstep, by simp, ?_⟩
    simp [hg, hdf, ← hlf, add_assoc]
  · refine ⟨a + 1, b, _, hstep, by simp, ?_⟩
    simp [hg, hdf]

/-- A step from the back stores the last element of the merge that is left. -/
lemma backStep_spec {gt gt' : α → α → Bool} (hw : StrictWeak gt') {L R : List α} {p q : ℕ}
    {S : List (α × Bool)} (hagree : ∀ x ∈ L, ∀ y ∈ R, gt x y = gt' x y) (hL : Sorted gt' L)
    (hR : Sorted gt' R) (hs : Back gt' L R (p + 1) (q + 1) S) (c : Cursors) (hlb : c.lb = p)
    (hrb : c.rb = L.length + q) (z : α) (rest : List α) (hdb : c.db = rest.length) :
    ∃ p' q' S', Back gt' L R p' q' S' ∧ S'.length = S.length + 1 ∧
      backStep gt (L ++ R) L.length (L.length + R.length) c (rest ++ z :: S.map Prod.fst) =
        some ({ c with lb := (p' : ℤ) - 1, rb := L.length + (q' : ℤ) - 1, db := rest.length - 1 },
          rest ++ S'.map Prod.fst) := by
  have hp : p < L.length := hs.left_le
  have hq : q < R.length := hs.right_le
  have hstep := hs.step hw hL hR hp hq
  have hgt := hagree L[p] (List.getElem_mem hp) R[q] (List.getElem_mem hq)
  have hwrite : ∀ v, writeSlot (rest ++ z :: S.map Prod.fst) c.db v =
      some (rest ++ v :: S.map Prod.fst) := by
    intro v
    rw [hdb]
    exact writeSlot_append rest z v _
  simp only [backStep, hlb, hrb, readPart_left R hp, readPart_right L hq, Option.bind_eq_bind,
    Option.bind_some, hwrite, hgt]
  split_ifs at hstep with hg
  · refine ⟨p, q + 1, _, hstep, by simp, ?_⟩
    simp [hg, hdb]
    omega
  · refine ⟨p + 1, q, _, hstep, by simp, ?_⟩
    simp [hg, hdb]

/-- What holds between two steps of the merge: `P` and `S` are the first and the last elements of
the merge, as many of each, stored at the two ends of the target, and the cursors stand behind
the elements that are taken. -/
structure MergeState (gt : α → α → Bool) (L R : List α) (c : Cursors) (dst : List α) (a p : ℕ)
    (P S : List (α × Bool)) : Prop where
  front : ∃ b, Front gt L R a b P ∧ c.rf = L.length + b
  back : ∃ q, Back gt L R p q S ∧ c.rb = L.length + (q : ℤ) - 1
  lf : c.lf = a
  lb : c.lb = (p : ℤ) - 1
  df : c.df = P.length
  db : c.db + S.length + 1 = L.length + R.length
  ends : S.length = P.length
  stored : ∃ mid, dst = P.map Prod.fst ++ mid ++ S.map Prod.fst

/-- The steps of the merge read their own halves only, and store elements at both ends of the
target, until one of the halves might be used up. -/
lemma mergeSteps_spec {gt gt' : α → α → Bool} (hw : StrictWeak gt') {L R : List α}
    (hagree : ∀ x ∈ L, ∀ y ∈ R, gt x y = gt' x y) (hL : Sorted gt' L) (hR : Sorted gt' R)
    (hLR : L.length ≤ R.length) (m : ℕ) {c : Cursors} {dst : List α} {a p : ℕ}
    {P S : List (α × Bool)} (hinv : MergeState gt' L R c dst a p P S)
    (hdst : dst.length = L.length + R.length) (hm : P.length + m = L.length) :
    ∃ c' dst' a' p' P' S', mergeSteps gt (L ++ R) L.length (L.length + R.length) m c dst =
        some (c', dst') ∧ MergeState gt' L R c' dst' a' p' P' S' ∧
      dst'.length = L.length + R.length ∧ P'.length = L.length := by
  induction m generalizing c dst a p P S with
  | zero => exact ⟨c, dst, a, p, P, S, rfl, hinv, hdst, by omega⟩
  | succ m ih =>
    obtain ⟨b, hfront, hrf⟩ := hinv.front
    obtain ⟨q, hback, hrb⟩ := hinv.back
    obtain ⟨mid, hstored⟩ := hinv.stored
    have hends := hinv.ends
    have hlenP := hfront.length
    have hlenS := hback.length
    have hleft := hback.left_le
    have hright := hback.right_le
    have hmid : mid.length + 2 * P.length = L.length + R.length := by
      rw [← hdst, hstored]
      simp only [List.length_append, List.length_map]
      omega
    obtain ⟨z, mid, rfl⟩ := List.exists_cons_of_length_pos (l := mid) (by omega)
    simp only [List.length_cons] at hmid
    obtain ⟨a', b', P', hfront', hP', hstepF⟩ := frontStep_spec hagree hfront (by omega) (by omega)
      c hinv.lf hrf hinv.df z (mid ++ S.map Prod.fst)
    obtain ⟨rest, y, rfl⟩ : ∃ rest y, mid = rest ++ [y] :=
      ⟨mid.dropLast, mid.getLast (List.ne_nil_of_length_pos (by omega)),
        (List.dropLast_append_getLast _).symm⟩
    obtain ⟨p₀, rfl⟩ : ∃ p₀, p = p₀ + 1 := ⟨p - 1, by omega⟩
    obtain ⟨q₀, rfl⟩ : ∃ q₀, q = q₀ + 1 := ⟨q - 1, by omega⟩
    simp only [List.length_append, List.length_singleton] at hmid
    have hdb := hinv.db
    obtain ⟨p', q', S', hback', hS', hstepB⟩ := backStep_spec hw hagree hL hR hback
      { c with lf := a', rf := L.length + b', df := P'.length }
      (by rw [hinv.lb]; push_cast; ring) (by rw [hrb]; push_cast; ring) y
      (P'.map Prod.fst ++ rest) (by simp only [List.length_append, List.length_map]; omega)
    have hslots : dst = P.map Prod.fst ++ z :: (rest ++ [y] ++ S.map Prod.fst) := by
      rw [hstored]
      simp
    have hslots' : P'.map Prod.fst ++ (rest ++ [y] ++ S.map Prod.fst) =
        P'.map Prod.fst ++ rest ++ y :: S.map Prod.fst := by simp
    rw [mergeSteps, hslots, hstepF]
    simp only [Option.bind_eq_bind, Option.bind_some]
    rw [hslots', hstepB, Option.bind_some]
    refine ih ⟨⟨b', hfront', rfl⟩, ⟨q', hback', rfl⟩, rfl, rfl, rfl, ?_, by omega,
      ⟨rest, rfl⟩⟩ ?_ (by omega)
    · simp only [List.length_append, List.length_map]
      omega
    · simp only [List.length_append, List.length_map]
      omega

/-- The merge from both ends gives the merge of the two sorted halves. -/
lemma mergeBoth_spec {gt gt' : α → α → Bool} (hw : StrictWeak gt') {L R : List α}
    (hagree : ∀ x ∈ L, ∀ y ∈ R, gt x y = gt' x y) (hL : Sorted gt' L) (hR : Sorted gt' R)
    (hLR : L.length ≤ R.length) (hRL : R.length ≤ L.length + 1) {dst : List α}
    (hdst : dst.length = L.length + R.length) (hpos : 0 < L.length) :
    mergeBoth gt (L ++ R) L.length (L.length + R.length) dst = some (merge gt' L R) := by
  have hstart : MergeState gt' L R ⟨0, L.length, (L.length : ℤ) - 1,
      ((L.length + R.length : ℕ) : ℤ) - 1, 0, L.length + R.length - 1⟩ dst 0 L.length [] [] := by
    refine ⟨⟨0, Front.start L R, by simp⟩, ⟨R.length, Back.start L R, by push_cast; rfl⟩, rfl, rfl,
      rfl, ?_, rfl, ⟨dst, by simp⟩⟩
    simp only [List.length_nil]
    omega
  obtain ⟨c, dst', a, p, P, S, hrun, hinv, hdst', hP⟩ :=
    mergeSteps_spec hw hagree hL hR hLR L.length hstart hdst (by simp)
  obtain ⟨b, hfront, hrf⟩ := hinv.front
  obtain ⟨q, hback, -⟩ := hinv.back
  obtain ⟨mid, hstored⟩ := hinv.stored
  have hends := hinv.ends
  have hhalf : (L.length + R.length) / 2 = L.length := by omega
  have hmid : mid.length + 2 * L.length = L.length + R.length := by
    rw [← hdst', hstored]
    simp only [List.length_append, List.length_map]
    omega
  rw [mergeBoth, hhalf, hrun]
  simp only [Option.bind_eq_bind, Option.bind_some]
  by_cases hodd : (L.length + R.length) % 2 ≠ 0
  · rw [if_pos hodd]
    obtain ⟨x, hmerge, hx⟩ := merge_of_both_ends_middle hfront hback (by omega)
    obtain ⟨z, rfl⟩ := List.length_eq_one_iff.mp (by omega : mid.length = 1)
    have hread : middleSlot (L ++ R) L.length (L.length + R.length) c = some x := by
      rw [middleSlot, hinv.lf, hinv.lb, hrf]
      have hleft := hback.left_le
      by_cases hap : a < p
      · have ha : a < L.length := by omega
        rw [if_pos hap, List.getElem?_eq_getElem ha] at hx
        rw [if_pos (by omega), readPart_left R ha, hx]
      · rw [if_neg hap] at hx
        obtain ⟨hb, -⟩ := List.getElem?_eq_some_iff.mp hx
        rw [List.getElem?_eq_getElem hb] at hx
        rw [if_neg (by omega), readPart_right L hb, hx]
    have hwrite := writeSlot_append (P.map Prod.fst) z x (S.map Prod.fst)
    rw [List.length_map, ← hinv.df] at hwrite
    rw [hread, Option.bind_some, hstored, hmerge,
      show P.map Prod.fst ++ [z] ++ S.map Prod.fst = P.map Prod.fst ++ z :: S.map Prod.fst by simp,
      hwrite]
  · rw [if_neg hodd, hstored, merge_of_both_ends hfront hback (by omega),
      List.length_eq_zero_iff.mp (by omega : mid.length = 0), List.append_nil]

/-- The merge sort of a run gives its stable sort. -/
theorem numRange_spec {gt gt' : α → α → Bool} {pad : α} {s : List α} (h : Orders gt gt' pad s)
    (h0 : s ≠ []) : ∃ Y, numRange gt pad s = some Y ∧ IsStableSort gt' s Y := by
  induction hn : s.length using Nat.strongRecOn generalizing s with
  | ind n ih =>
    subst hn
    rw [numRange]
    by_cases hsmall : s.length ≤ small
    · rw [dif_pos hsmall]
      exact network_spec h h0 hsmall
    · have hlong : 8 < s.length := by
        unfold small at hsmall
        omega
      rw [dif_neg hsmall]
      obtain ⟨L, hL⟩ : ∃ L, s.take (s.length / 2) = L := ⟨_, rfl⟩
      obtain ⟨R, hR⟩ : ∃ R, s.drop (s.length / 2) = R := ⟨_, rfl⟩
      have hs : s = L ++ R := by rw [← hL, ← hR, List.take_append_drop]
      have hLlen : L.length = s.length / 2 := by
        rw [← hL, List.length_take]
        omega
      have hRlen : R.length = s.length - s.length / 2 := by rw [← hR, List.length_drop]
      have hLmem : ∀ x ∈ L, x ∈ s := fun x hx => by rw [hs]; exact List.mem_append_left _ hx
      have hRmem : ∀ x ∈ R, x ∈ s := fun x hx => by rw [hs]; exact List.mem_append_right _ hx
      obtain ⟨L', hrunL, hsortL⟩ := ih L.length (by omega) (h.mono hLmem)
        (List.ne_nil_of_length_pos (by omega)) rfl
      obtain ⟨R', hrunR, hsortR⟩ := ih R.length (by omega) (h.mono hRmem)
        (List.ne_nil_of_length_pos (by omega)) rfl
      have hL'len := hsortL.same.perm.length_eq
      have hR'len := hsortR.same.perm.length_eq
      have hagree : ∀ x ∈ L', ∀ y ∈ R', gt x y = gt' x y := fun x hx y hy =>
        h.agree x (List.mem_cons_of_mem pad (hLmem x (hsortL.same.perm.mem_iff.mp hx)))
          y (List.mem_cons_of_mem pad (hRmem y (hsortR.same.perm.mem_iff.mp hy)))
      have hdst : (L' ++ R').length = L'.length + R'.length := List.length_append
      have hmerge := mergeBoth_spec h.weak hagree hsortL.sorted hsortR.sorted (by omega) (by omega)
        hdst (by omega)
      have hh : s.length / 2 = L'.length := by omega
      have hlen : s.length = L'.length + R'.length := by omega
      refine ⟨merge gt' L' R', ?_, by rw [hs]; exact hsortL.merge h.weak hsortR⟩
      simp only [hL, hR, hrunL, hrunR, Option.bind_eq_bind, Option.bind_some]
      rw [hh, hlen, hmerge]

/-! ### The orders of the native comparators -/

/-- The number of a slot, with zero for a NaN. -/
def slotNum (b : Slot) : Binary64.Num :=
  if Binary64.isNaN b.toNat then .finite 0 else Binary64.value b.toNat

/-- The order of the native comparator, with zeros for the NaNs. -/
def slotGt (f64 desc : Bool) (a b : Slot) : Bool :=
  let x := if desc then b else a
  let y := if desc then a else b
  if f64 then (slotNum x).gt (slotNum y) else decide (y.toInt < x.toInt)

/-- The number of a slot is no NaN. -/
lemma slotNum_ne_nan (b : Slot) : slotNum b ≠ .nan := by
  unfold slotNum
  split_ifs with h
  · exact fun heq => by cases heq
  · exact fun heq => h ((Binary64.isNaN_iff _).mpr heq)

/-- With zeros for the NaNs the native comparator is a strict weak order. -/
lemma strictWeak_slotGt (f64 desc : Bool) : StrictWeak (slotGt f64 desc) := by
  refine ⟨fun a b h => ?_, fun a b c hab hbc => ?_⟩
  · unfold slotGt at *
    cases f64 <;> cases desc <;> simp only [if_true, if_false, Bool.false_eq_true] at *
    · simp only [decide_eq_true_eq, decide_eq_false_iff_not] at *
      omega
    · simp only [decide_eq_true_eq, decide_eq_false_iff_not] at *
      omega
    · exact Binary64.Num.gt_asymm h
    · exact Binary64.Num.gt_asymm h
  · unfold slotGt at *
    cases f64 <;> cases desc <;> simp only [if_true, if_false, Bool.false_eq_true] at *
    · simp only [decide_eq_false_iff_not] at *
      omega
    · simp only [decide_eq_false_iff_not] at *
      omega
    · exact Binary64.Num.gt_negTrans (slotNum_ne_nan b) hab hbc
    · exact Binary64.Num.gt_negTrans (slotNum_ne_nan b) hbc hab

/-- On slots that are no NaN the comparator answers by the order. -/
lemma numGt_eq_slotGt {f64 desc : Bool} {a b : Slot}
    (ha : f64 = true → Binary64.isNaN a.toNat = false)
    (hb : f64 = true → Binary64.isNaN b.toNat = false) : numGt f64 desc a b = slotGt f64 desc a b := by
  cases f64 with
  | false => rfl
  | true =>
    have ha := ha rfl
    have hb := hb rfl
    cases desc <;> simp [numGt, slotGt, slotNum, ha, hb]

/-- No number is greater than positive infinity. -/
lemma gt_infinity (x : Binary64.Num) : x.gt (.infinite false) = false := by
  cases x <;> simp [Binary64.Num.gt]

/-- Negative infinity is greater than no number. -/
lemma infinity_gt (x : Binary64.Num) : Binary64.Num.gt (.infinite true) x = false := by
  cases x <;> simp [Binary64.Num.gt]

/-- No slot is greater than the pad. -/
lemma slotGt_lastSlot (f64 desc : Bool) (a : Slot) :
    slotGt f64 desc a (lastSlot f64 desc) = false := by
  cases f64 <;> cases desc
  · have hval : (0x7FFFFFFFFFFFFFFF : Slot).toInt = 9223372036854775807 := by decide
    have hlt := BitVec.toInt_lt (x := a)
    simp only [slotGt, lastSlot, if_false, Bool.false_eq_true, hval, decide_eq_false_iff_not]
    omega
  · have hval : (0x8000000000000000 : Slot).toInt = -9223372036854775808 := by decide
    have hle := BitVec.le_toInt a
    simp only [slotGt, lastSlot, if_false, if_true, Bool.false_eq_true, hval,
      decide_eq_false_iff_not]
    omega
  · have hval : slotNum 0x7FF0000000000000 = .infinite false := by decide
    simp only [slotGt, lastSlot, if_false, if_true, Bool.false_eq_true, hval]
    exact gt_infinity _
  · have hval : slotNum 0xFFF0000000000000 = .infinite true := by decide
    simp only [slotGt, lastSlot, if_true, hval]
    exact infinity_gt _

/-- On slots that are no NaN the native comparator is an order, and the pad is its last slot. -/
lemma orders_numGt {f64 desc : Bool} {slots : List Slot}
    (hnan : f64 = true → ∀ b ∈ slots, Binary64.isNaN b.toNat = false) :
    Orders (numGt f64 desc) (slotGt f64 desc) (lastSlot f64 desc) slots := by
  have hall : ∀ b ∈ lastSlot f64 desc :: slots, f64 = true → Binary64.isNaN b.toNat = false := by
    intro b hb hf
    rcases List.mem_cons.mp hb with rfl | hb
    · subst hf
      cases desc <;> decide
    · exact hnan hf b hb
  exact ⟨strictWeak_slotGt f64 desc, fun a ha b hb => numGt_eq_slotGt (hall a ha) (hall b hb),
    fun a _ => slotGt_lastSlot f64 desc a⟩

/-! ### The sorts -/

/-- The numeric kernel gives, slot for slot, the result of the general kernel with the native
comparator. -/
lemma sortNum_eq_sortSlots (f64 desc : Bool) (garbage : ℕ → Slot) {slots : List Slot}
    (h0 : slots ≠ []) :
    ∃ Y, sortNum f64 desc garbage slots = some Y ∧
      sortSlots (numCmp f64 desc) garbage slots () = some (Y, ()) := by
  obtain ⟨Y, _, hrun, -, hstable⟩ := sortSlots_spec (numCmp f64 desc) garbage slots ()
  refine ⟨Y, ?_, hrun⟩
  unfold sortNum
  by_cases hnan : (f64 && slots.any fun b => Binary64.isNaN b.toNat) = true
  · rw [if_pos hnan, hrun]
    rfl
  · rw [if_neg hnan]
    have horders : Orders (numGt f64 desc) (slotGt f64 desc) (lastSlot f64 desc) slots := by
      refine orders_numGt fun hf b hb => ?_
      by_contra hne
      refine hnan ?_
      rw [hf, Bool.true_and, List.any_eq_true]
      exact ⟨b, hb, by simpa using hne⟩
    have hanswers : Answers (numCmp f64 desc) (slotGt f64 desc) slots :=
      ⟨fun a ha b hb _ => horders.agree a (List.mem_cons_of_mem _ ha) b (List.mem_cons_of_mem _ hb),
        fun _ _ _ _ _ => rfl⟩
    have hY := hstable _ horders.weak hanswers
    split_ifs with hsmall
    · obtain ⟨Z, hZrun, hZ⟩ := network_spec horders h0 hsmall
      rw [hZrun, hZ.unique horders.weak hY]
    · obtain ⟨Z, hZrun, hZ⟩ := numRange_spec horders h0
      rw [hZrun, hZ.unique horders.weak hY]

end Torajs.Arr
