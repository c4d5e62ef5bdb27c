import ToraJs.Regex.Utf8
import ToraJs.Regex.Program
import Mathlib.Data.List.Forall2
import Mathlib.Data.List.Pairwise

/-!
# Expansion of classes into byte sequences

A class that cannot be decided byte by byte is rewritten into an alternation of
concatenations of byte ranges.  The set of code points is listed as ranges, the ranges are
cut where the length of the encoding changes, and each piece is split recursively: the
sequences that begin with the least lead, those with a lead strictly between, those with
the greatest lead.

The file proves that the alternation accepts exactly the encodings of the class and that
its alternatives are unambiguous: no sequence that one accepts begins a sequence that
another accepts.
-/

namespace Torajs.Regex

/-! ### Nodes -/

/-- `Node`, of the kinds that the expansion builds. -/
inductive Node where
  | cls (cc : CharClass)
  | concat (kids : List Node)
  | alt (kids : List Node)

mutual

/-- The sequences a node accepts, its classes tested under `ci`. -/
def Node.Accepts (ci : Bool) : Node → List UInt8 → Prop
  | .cls cc, w => ∃ b, w = [b] ∧ cc.testFold b ci = true
  | .concat kids, w => acceptsSeq ci kids w
  | .alt kids, w => acceptsAny ci kids w

/-- The sequences that nodes accept one after the other. -/
def acceptsSeq (ci : Bool) : List Node → List UInt8 → Prop
  | [], w => w = []
  | n :: ns, w => ∃ u v, w = u ++ v ∧ n.Accepts ci u ∧ acceptsSeq ci ns v

/-- The sequences that one of the nodes accepts. -/
def acceptsAny (ci : Bool) : List Node → List UInt8 → Prop
  | [], _ => False
  | n :: ns, w => n.Accepts ci w ∨ acceptsAny ci ns w

end

/-- The alternatives of a node. -/
def Node.alternatives : Node → List Node
  | .alt kids => kids
  | n => [n]

/-- A class of bytes. -/
def Node.IsByteClass : Node → Prop
  | .cls cc => cc.byteOnly = true ∧ cc.negate = false
  | _ => False

/-- A byte class or a concatenation of byte classes. -/
def Node.IsByteSeq : Node → Prop
  | .cls cc => cc.byteOnly = true ∧ cc.negate = false
  | .concat kids => ∀ n ∈ kids, n.IsByteClass
  | .alt _ => False

/-- A node accepts what one of its kids accepts. -/
lemma acceptsAny_iff {ci : Bool} {ns : List Node} {w : List UInt8} :
    acceptsAny ci ns w ↔ ∃ n ∈ ns, n.Accepts ci w := by
  induction ns with
  | nil => simp [acceptsAny]
  | cons n ns ih => simp [acceptsAny, ih]

/-! ### Byte classes -/

namespace CharClass

/-- `CharClass::add`. -/
def add (cc : CharClass) (ch : UInt8) : CharClass :=
  { cc with bits := cc.bits ||| BitVec.twoPow 256 ch.toNat }

/-- `CharClass::add_range`. -/
def addRange (cc : CharClass) (lo hi : UInt8) : CharClass :=
  let (lo, hi) := if lo > hi then (hi, lo) else (lo, hi)
  (List.range' lo.toNat (hi.toNat + 1 - lo.toNat)).foldl (fun cc c => cc.add (UInt8.ofNat c)) cc

end CharClass

/-- `empty_class_node`. -/
def emptyClassNode : Node := .cls { byteOnly := true }

/-- `class_node_for_range`. -/
def classNodeForRange (r : UInt8 × UInt8) : Node :=
  .cls (({ byteOnly := true } : CharClass).addRange r.1 r.2)

/-- `concat_to_node`. -/
def concatToNode : List (UInt8 × UInt8) → Node
  | [r] => classNodeForRange r
  | rs => .concat (rs.map classNodeForRange)

/-- `concats_to_node`. -/
def concatsToNode : List (List (UInt8 × UInt8)) → Node
  | [c] => concatToNode c
  | cs => .alt (cs.map concatToNode)

/-! ### Ranges of code points -/

/-- The walk of `cp_ranges_of`: `n` code points are left, `cp` is the next, `start` is where
the range in hand began. -/
def rangesLoop (test : ℕ → Bool) : ℕ → ℕ → Option ℕ → List (ℕ × ℕ)
  | 0, cp, some s => [(s, cp - 1)]
  | 0, _, none => []
  | n + 1, cp, start =>
    if test cp then rangesLoop test n (cp + 1) (some (start.getD cp))
    else
      match start with
      | some s => (s, cp - 1) :: rangesLoop test n (cp + 1) none
      | none => rangesLoop test n (cp + 1) none

/-- `cp_ranges_of`. -/
def cpRangesOf (cc : CharClass) (ci : Bool) : List (ℕ × ℕ) :=
  rangesLoop (fun cp => cc.testCpFold cp ci) 0x110000 0 none

/-- A range clipped to a window. -/
def clipRange (win r : ℕ × ℕ) : Option (ℕ × ℕ) :=
  let lo := max r.1 win.1
  let hi := min r.2 win.2
  if lo > hi then none else some (lo, hi)

/-- `ranges_in_len`. -/
def rangesInLen (ranges : List (ℕ × ℕ)) (len : ℕ) : List (ℕ × ℕ) :=
  ranges.filterMap (clipRange (lenBounds len))

/-! ### Byte ranges -/

/-- Fixed bytes as ranges. -/
def fixedBytes (bs : List UInt8) : List (UInt8 × UInt8) := bs.map fun b => (b, b)

/-- `emit_byte_recurse`: the sequences of byte ranges between `lo` and `hi` behind the fixed
bytes `pre`, in the order they are pushed. -/
def emitByteRecurse : List UInt8 → List UInt8 → List UInt8 → List (List (UInt8 × UInt8))
  | l :: lo, h :: hi, pre =>
    if l = h then emitByteRecurse lo hi (pre ++ [l])
    else
      emitByteRecurse lo (List.replicate lo.length 0xBF) (pre ++ [l]) ++
        (if h > l + 1 then
          [fixedBytes pre ++ (l + 1, h - 1) :: List.replicate lo.length (0x80, 0xBF)]
        else []) ++
        emitByteRecurse (List.replicate lo.length 0x80) hi (pre ++ [h])
  | _, _, pre => [fixedBytes pre]
termination_by lo => lo.length

/-- The sequences of one encoding length. -/
def emitLen (ranges : List (ℕ × ℕ)) (len : ℕ) : List (List (UInt8 × UInt8)) :=
  (rangesInLen ranges len).flatMap fun r =>
    emitByteRecurse (utf8EncodeCp r.1) (utf8EncodeCp r.2) []

/-- `byte_steppable`. -/
def byteSteppable (cc : CharClass) (uflag : Bool) : Bool :=
  if cc.negate || !cc.uPropTables.isEmpty then false
  else if cc.bits >>> 128 != 0 then false
  else uflag || cc.ownedRanges.isEmpty

/-- `expand_unsafe_class`. -/
def expandUnsafeClass (cc : CharClass) (uflag ci : Bool) : Option Node :=
  if cc.byteOnly then none
  else if !cc.uPropTables.isEmpty then none
  else if byteSteppable cc uflag then none
  else
    let ranges := cpRangesOf cc ci
    if ranges.isEmpty then some emptyClassNode
    else
      let concats := [1, 2, 3, 4].flatMap (emitLen ranges)
      if concats.isEmpty then some emptyClassNode else some (concatsToNode concats)

/-! ### The walk over the code points -/

/-- Some range of a list holds a code point. -/
def InRanges (rs : List (ℕ × ℕ)) (cp : ℕ) : Prop := ∃ r ∈ rs, r.1 ≤ cp ∧ cp ≤ r.2

/-- Ranges in ascending order, none of them empty, between `lo` and `hi`. -/
structure RangesOk (rs : List (ℕ × ℕ)) (lo hi : ℕ) : Prop where
  sorted : rs.Pairwise fun r s => r.2 < s.1
  bounds : ∀ r ∈ rs, r.1 ≤ r.2 ∧ lo ≤ r.1 ∧ r.2 < hi

/-- The walk lists the code points that pass the test. -/
lemma rangesLoop_spec (test : ℕ → Bool) (n cp : ℕ) (start : Option ℕ)
    (hstart : ∀ s ∈ start, s < cp ∧ ∀ x, s ≤ x → x < cp → test x = true) :
    RangesOk (rangesLoop test n cp start) (start.getD cp) (cp + n) ∧
      ∀ x, InRanges (rangesLoop test n cp start) x ↔
        start.getD cp ≤ x ∧ x < cp + n ∧ test x = true := by
  induction n generalizing cp start with
  | zero =>
    cases start with
    | none =>
      refine ⟨⟨List.Pairwise.nil, by simp [rangesLoop]⟩, ?_⟩
      intro x
      simp only [rangesLoop, InRanges, List.not_mem_nil, false_and, exists_false, Option.getD_none,
        Nat.add_zero, false_iff]
      omega
    | some s =>
      obtain ⟨hlt, htest⟩ := hstart s rfl
      refine ⟨⟨List.pairwise_singleton _ _, ?_⟩, ?_⟩
      · simp only [rangesLoop, List.mem_singleton, forall_eq, Option.getD_some]
        omega
      · intro x
        simp only [rangesLoop, InRanges, List.mem_singleton, exists_eq_left, Option.getD_some]
        constructor
        · intro hx
          exact ⟨hx.1, by omega, htest x hx.1 (by omega)⟩
        · omega
  | succ n ih =>
    simp only [rangesLoop]
    have hend : cp + (n + 1) = cp + 1 + n := by omega
    rw [hend]
    by_cases ht : test cp = true
    · rw [if_pos ht]
      have hle : start.getD cp ≤ cp := by
        cases start with
        | none => exact le_rfl
        | some s => exact (hstart s rfl).1.le
      have hnext : ∀ s ∈ some (start.getD cp), s < cp + 1 ∧
          ∀ x, s ≤ x → x < cp + 1 → test x = true := by
        rintro s hs
        obtain rfl := Option.some_inj.mp hs
        refine ⟨by omega, ?_⟩
        intro x hx hlt
        by_cases hxc : x = cp
        · rw [hxc, ht]
        · cases start with
          | none =>
            simp only [Option.getD_none] at hx
            omega
          | some s => exact (hstart s rfl).2 x hx (by omega)
      exact ih (cp + 1) _ hnext
    · rw [if_neg ht]
      obtain ⟨hok, hin⟩ := ih (cp + 1) none (by simp)
      simp only [Option.getD_none] at hok hin
      cases start with
      | none =>
        refine ⟨⟨hok.sorted, fun r hr => ?_⟩, fun x => ?_⟩
        · have := hok.bounds r hr
          simp only [Option.getD_none]
          omega
        · rw [hin, Option.getD_none]
          constructor
          · rintro ⟨h1, h2, h3⟩
            exact ⟨by omega, h2, h3⟩
          · rintro ⟨h1, h2, h3⟩
            have hne : x ≠ cp := fun h => ht (h ▸ h3)
            exact ⟨by omega, h2, h3⟩
      | some s =>
        obtain ⟨hlt, htest⟩ := hstart s rfl
        refine ⟨⟨?_, ?_⟩, fun x => ?_⟩
        · refine List.pairwise_cons.mpr ⟨fun r hr => ?_, hok.sorted⟩
          have := hok.bounds r hr
          simp only
          omega
        · intro r hr
          rcases List.mem_cons.mp hr with rfl | hr
          · simp only [Option.getD_some]
            omega
          · have := hok.bounds r hr
            simp only [Option.getD_some]
            omega
        · simp only [InRanges, List.mem_cons, exists_eq_or_imp, Option.getD_some]
          rw [show (∃ r ∈ rangesLoop test n (cp + 1) none, r.1 ≤ x ∧ x ≤ r.2) ↔
            (cp + 1 ≤ x ∧ x < cp + 1 + n ∧ test x = true) from hin x]
          constructor
          · rintro (⟨h1, h2⟩ | ⟨h1, h2, h3⟩)
            · exact ⟨h1, by omega, htest x h1 (by omega)⟩
            · exact ⟨by omega, h2, h3⟩
          · rintro ⟨h1, h2, h3⟩
            have hne : x ≠ cp := fun h => ht (h ▸ h3)
            by_cases hx : x < cp
            · exact Or.inl ⟨h1, by omega⟩
            · exact Or.inr ⟨by omega, h2, h3⟩

/-- The ranges of a class hold the code points that the class takes. -/
lemma inRanges_cpRangesOf (cc : CharClass) (ci : Bool) (cp : ℕ) :
    InRanges (cpRangesOf cc ci) cp ↔ cp ≤ 0x10FFFF ∧ cc.testCpFold cp ci = true := by
  have h := (rangesLoop_spec (fun cp => cc.testCpFold cp ci) 0x110000 0 none (by simp)).2 cp
  unfold cpRangesOf
  rw [h, Option.getD_none]
  constructor
  · rintro ⟨-, h2, h3⟩
    exact ⟨by omega, h3⟩
  · rintro ⟨h2, h3⟩
    exact ⟨Nat.zero_le _, by omega, h3⟩

/-- A clipped range is not empty and inside the window. -/
lemma clipRange_eq_some {win r s : ℕ × ℕ} :
    clipRange win r = some s ↔ s = (max r.1 win.1, min r.2 win.2) ∧ s.1 ≤ s.2 := by
  simp only [clipRange]
  split_ifs with h
  · simp only [false_iff, not_and]
    rintro rfl
    exact not_le.mpr h
  · rw [Option.some_inj]
    constructor
    · rintro rfl
      exact ⟨rfl, not_lt.mp h⟩
    · rintro ⟨rfl, -⟩
      rfl

/-- Clipping keeps the code points of the window. -/
lemma inRanges_rangesInLen {rs : List (ℕ × ℕ)} {len cp : ℕ} :
    InRanges (rangesInLen rs len) cp ↔ InRanges rs cp ∧ InWindow len cp := by
  simp only [InRanges, rangesInLen, List.mem_filterMap, clipRange_eq_some, InWindow]
  constructor
  · rintro ⟨s, ⟨r, hr, rfl, -⟩, hlo, hhi⟩
    simp only [max_le_iff, le_min_iff] at hlo hhi
    exact ⟨⟨r, hr, hlo.1, hhi.1⟩, hlo.2, hhi.2⟩
  · rintro ⟨⟨r, hr, hlo, hhi⟩, hw⟩
    refine ⟨_, ⟨r, hr, rfl, ?_⟩, ?_, ?_⟩
    · exact le_trans (max_le hlo hw.1) (le_min hhi hw.2)
    · exact max_le hlo hw.1
    · exact le_min hhi hw.2

/-- Clipped ranges are in ascending order, and their ends in the window. -/
lemma rangesInLen_ok {rs : List (ℕ × ℕ)} {lo hi : ℕ} (h : RangesOk rs lo hi) (len : ℕ) :
    (rangesInLen rs len).Pairwise (fun r s => r.2 < s.1) ∧
      ∀ r ∈ rangesInLen rs len, r.1 ≤ r.2 ∧ InWindow len r.1 ∧ InWindow len r.2 := by
  constructor
  · refine List.Pairwise.filterMap _ ?_ h.sorted
    rintro r s hrs r' hr s' hs
    obtain ⟨rfl, -⟩ := clipRange_eq_some.mp hr
    obtain ⟨rfl, -⟩ := clipRange_eq_some.mp hs
    exact lt_of_le_of_lt (min_le_left _ _) (lt_of_lt_of_le hrs (le_max_left _ _))
  · intro s hs
    obtain ⟨r, -, hr⟩ := List.mem_filterMap.mp hs
    obtain ⟨rfl, hle⟩ := clipRange_eq_some.mp hr
    exact ⟨hle, ⟨le_max_right _ _, le_trans hle (min_le_right _ _)⟩,
      le_trans (le_max_right _ _) hle, min_le_right _ _⟩

/-! ### Byte ranges between two sequences -/

/-- A sequence of ranges takes a sequence of bytes. -/
def Covers (rs : List (UInt8 × UInt8)) (w : List UInt8) : Prop :=
  List.Forall₂ (fun r b => r.1 ≤ b ∧ b ≤ r.2) rs w

/-- A sequence of the length of `lo`, with continuation bytes after the first, between `lo`
and `hi`. -/
structure Between (lo hi w : List UInt8) : Prop where
  length : w.length = lo.length
  tail : TailCont w
  lower : seqVal lo ≤ seqVal w
  upper : seqVal w ≤ seqVal hi

/-- Ranges that begin with one byte take sequences that begin with it. -/
lemma covers_cons_self {b : UInt8} {rs : List (UInt8 × UInt8)} {w : List UInt8} :
    Covers ((b, b) :: rs) w ↔ ∃ v, w = b :: v ∧ Covers rs v := by
  unfold Covers
  rw [List.forall₂_cons_left_iff]
  constructor
  · rintro ⟨c, v, ⟨h1, h2⟩, hv, rfl⟩
    obtain rfl : b = c := UInt8.le_antisymm h1 h2
    exact ⟨v, rfl, hv⟩
  · rintro ⟨v, rfl, hv⟩
    exact ⟨b, v, ⟨UInt8.le_refl b, UInt8.le_refl b⟩, hv, rfl⟩

/-- Full ranges of continuation bytes take the runs of continuation bytes. -/
lemma covers_replicate {n : ℕ} {w : List UInt8} :
    Covers (List.replicate n (0x80, 0xBF)) w ↔ w.length = n ∧ ∀ b ∈ w, IsCont b := by
  induction n generalizing w with
  | zero =>
    simp only [Covers, List.replicate_zero, List.forall₂_nil_left_iff, List.length_eq_zero_iff]
    constructor
    · rintro rfl
      simp
    · exact fun h => h.1
  | succ n ih =>
    rw [List.replicate_succ, Covers, List.forall₂_cons_left_iff]
    constructor
    · rintro ⟨b, v, hb, hv, rfl⟩
      obtain ⟨hlen, hall⟩ := ih.mp hv
      exact ⟨by rw [List.length_cons, hlen], List.forall_mem_cons.mpr ⟨hb, hall⟩⟩
    · rintro ⟨hlen, hall⟩
      cases w with
      | nil => simp at hlen
      | cons b v =>
        obtain ⟨hb, hv⟩ := List.forall_mem_cons.mp hall
        exact ⟨b, v, hb, ih.mpr ⟨by simpa using hlen, hv⟩, rfl⟩

/-- Behind the fixed bytes the recursion emits what it emits behind none. -/
lemma emitByteRecurse_pre (lo hi pre : List UInt8) :
    emitByteRecurse lo hi pre = (emitByteRecurse lo hi []).map (fixedBytes pre ++ ·) := by
  induction hn : lo.length generalizing lo hi pre with
  | zero =>
    obtain rfl := List.length_eq_zero_iff.mp hn
    simp [emitByteRecurse, fixedBytes]
  | succ n ih =>
    cases lo with
    | nil => simp at hn
    | cons l lo =>
      have hlen : lo.length = n := by simpa using hn
      cases hi with
      | nil => simp [emitByteRecurse, fixedBytes]
      | cons h hi =>
        have hfix : ∀ (b : UInt8) (c : List (UInt8 × UInt8)),
            fixedBytes (pre ++ [b]) ++ c = fixedBytes pre ++ (fixedBytes ([] ++ [b]) ++ c) := by
          intro b c
          simp [fixedBytes]
        rw [emitByteRecurse, emitByteRecurse]
        by_cases hlh : l = h
        · rw [if_pos hlh, if_pos hlh, ih lo hi (pre ++ [l]) hlen, ih lo hi ([] ++ [l]) hlen,
            List.map_map]
          exact List.map_congr_left fun c _ => hfix l c
        · rw [if_neg hlh, if_neg hlh, ih lo _ (pre ++ [l]) hlen, ih lo _ ([] ++ [l]) hlen,
            ih _ hi (pre ++ [h]) (by simpa using hlen), ih _ hi ([] ++ [h]) (by simpa using hlen),
            List.map_append, List.map_append, List.map_map, List.map_map]
          refine congrArg₂ _ (congrArg₂ _ ?_ ?_) ?_
          · exact List.map_congr_left fun c _ => hfix l c
          · split_ifs <;> simp [fixedBytes]
          · exact List.map_congr_left fun c _ => hfix h c

/-- The piece between the first bytes. -/
def middlePiece (l h : UInt8) (lo : List UInt8) : List (List (UInt8 × UInt8)) :=
  if h > l + 1 then [(l + 1, h - 1) :: List.replicate lo.length (0x80, 0xBF)] else []

/-- One step of the recursion. -/
lemma emitByteRecurse_cons (l h : UInt8) (lo hi : List UInt8) :
    emitByteRecurse (l :: lo) (h :: hi) [] =
      if l = h then (emitByteRecurse lo hi []).map ((l, l) :: ·)
      else
        (emitByteRecurse lo (List.replicate lo.length 0xBF) []).map ((l, l) :: ·) ++
          middlePiece l h lo ++
          (emitByteRecurse (List.replicate lo.length 0x80) hi []).map ((h, h) :: ·) := by
  rw [emitByteRecurse, emitByteRecurse_pre lo hi ([] ++ [l]),
    emitByteRecurse_pre lo (List.replicate lo.length 0xBF) ([] ++ [l]),
    emitByteRecurse_pre (List.replicate lo.length 0x80) hi ([] ++ [h])]
  simp [fixedBytes, middlePiece]

/-- The bytes strictly between two bytes. -/
lemma between_bytes {l h b : UInt8} (hlh : l < h) :
    (h > l + 1 ∧ l + 1 ≤ b ∧ b ≤ h - 1) ↔ l < b ∧ b < h := by
  have hl := UInt8.toNat_lt l
  have hh := UInt8.toNat_lt h
  have hlt : l.toNat < h.toNat := hlh
  have hone : (1 : UInt8).toNat = 1 := rfl
  have hadd : (l + 1).toNat = l.toNat + 1 := by
    rw [UInt8.toNat_add, hone, Nat.mod_eq_of_lt (by omega)]
  have hsub : (h - 1).toNat = h.toNat - 1 := by
    rw [UInt8.toNat_sub_of_le _ _ (show (1 : UInt8).toNat ≤ h.toNat by omega), hone]
  show (l + 1).toNat < h.toNat ∧ (l + 1).toNat ≤ b.toNat ∧ b.toNat ≤ (h - 1).toNat ↔
    l.toNat < b.toNat ∧ b.toNat < h.toNat
  omega

/-- What is between runs of continuation bytes is one. -/
lemma Between.forall_isCont {lo hi w : List UInt8} (h : Between lo hi w)
    (hlen : hi.length = lo.length) (hlo : ∀ b ∈ lo, IsCont b) (hhi : ∀ b ∈ hi, IsCont b) :
    ∀ b ∈ w, IsCont b := by
  cases w with
  | nil => simp
  | cons b v =>
    cases lo with
    | nil => exact absurd h.length (by simp)
    | cons l lo =>
      cases hi with
      | nil => simp at hlen
      | cons c hi =>
        have hv : v.length = lo.length := by simpa using h.length
        have hhl : hi.length = lo.length := by simpa using hlen
        have hlo' := List.forall_mem_cons.mp hlo
        have hhi' := List.forall_mem_cons.mp hhi
        have h1 : l ≤ b := head_le_of_seqVal_le hv.symm hlo'.2 h.tail h.lower
        have h2 : b ≤ c := head_le_of_seqVal_le (hv.trans hhl.symm) h.tail hhi'.2 h.upper
        exact List.forall_mem_cons.mpr
          ⟨⟨UInt8.le_trans hlo'.1.1 h1, UInt8.le_trans h2 hhi'.1.2⟩, h.tail⟩

/-- The byte in a run of equal bytes. -/
lemma isCont_of_mem_replicate {n : ℕ} {c : UInt8} (hc : IsCont c) :
    ∀ b ∈ List.replicate n c, IsCont b := by
  intro b hb
  rw [List.eq_of_mem_replicate hb]
  exact hc

/-- The least continuation byte. -/
lemma isCont_80 : IsCont 0x80 := ⟨by decide, by decide⟩

/-- The greatest continuation byte. -/
lemma isCont_BF : IsCont 0xBF := ⟨by decide, by decide⟩

/-- The three kinds of sequences between two that begin with different bytes. -/
lemma between_cons_iff {l h b : UInt8} {lo hi v : List UInt8} (hlen : hi.length = lo.length)
    (hlo : ∀ x ∈ lo, IsCont x) (hhi : ∀ x ∈ hi, IsCont x) (hlh : l < h) :
    Between (l :: lo) (h :: hi) (b :: v) ↔
      (b = l ∧ Between lo (List.replicate lo.length 0xBF) v) ∨
      ((l < b ∧ b < h) ∧ v.length = lo.length ∧ ∀ x ∈ v, IsCont x) ∨
      (b = h ∧ Between (List.replicate lo.length 0x80) hi v) := by
  have hlast : ∀ {v : List UInt8}, v.length = lo.length → (∀ x ∈ v, IsCont x) →
      seqVal (List.replicate lo.length 0x80) ≤ seqVal v ∧
        seqVal v ≤ seqVal (List.replicate lo.length 0xBF) := by
    intro v hv hcont
    have hb := seqVal_cont_bounds hcont
    rw [hv] at hb
    exact ⟨hb.1, hb.2.1⟩
  constructor
  · intro hw
    have hv : v.length = lo.length := by simpa using hw.length
    have hcont : ∀ x ∈ v, IsCont x := hw.tail
    have hlb : l ≤ b := head_le_of_seqVal_le hv.symm hlo hcont hw.lower
    have hbh : b ≤ h := head_le_of_seqVal_le (hv.trans hlen.symm) hcont hhi hw.upper
    rcases UInt8.lt_or_eq_of_le hlb with hlt | rfl
    · rcases UInt8.lt_or_eq_of_le hbh with hgt | rfl
      · exact Or.inr (Or.inl ⟨⟨hlt, hgt⟩, hv, hcont⟩)
      · refine Or.inr (Or.inr ⟨rfl, ?_, TailCont.of_forall hcont, (hlast hv hcont).1, ?_⟩)
        · rw [List.length_replicate, hv]
        · exact (seqVal_cons_le_cons (hv.trans hlen.symm)).mp hw.upper
    · refine Or.inl ⟨rfl, hv, TailCont.of_forall hcont, ?_, (hlast hv hcont).2⟩
      exact (seqVal_cons_le_cons hv.symm).mp hw.lower
  · rintro (⟨rfl, hw⟩ | ⟨⟨hlt, hgt⟩, hv, hcont⟩ | ⟨rfl, hw⟩)
    · have hcont := hw.forall_isCont (by simp) hlo (isCont_of_mem_replicate isCont_BF)
      refine ⟨by simpa using hw.length, hcont, ?_, ?_⟩
      · exact (seqVal_cons_le_cons hw.length.symm).mpr hw.lower
      · exact (seqVal_lt_of_head_lt (hw.length.trans hlen.symm) hcont hhi hlh).le
    · refine ⟨by simpa using hv, hcont, ?_, ?_⟩
      · exact (seqVal_lt_of_head_lt hv.symm hlo hcont hlt).le
      · exact (seqVal_lt_of_head_lt (hv.trans hlen.symm) hcont hhi hgt).le
    · have hv : v.length = lo.length := by simpa using hw.length
      have hcont := hw.forall_isCont (by simpa using hlen) (isCont_of_mem_replicate isCont_80) hhi
      refine ⟨by simpa using hv, hcont, ?_, ?_⟩
      · exact (seqVal_lt_of_head_lt hv.symm hlo hcont hlh).le
      · exact (seqVal_cons_le_cons (hv.trans hlen.symm)).mpr hw.upper

/-- No two sequences of ranges of a list take the same sequence of bytes. -/
def Disjointly (cs : List (List (UInt8 × UInt8))) : Prop :=
  cs.Pairwise fun c d => ∀ w, Covers c w → ¬ Covers d w

/-- Ranges behind one byte are disjoint when the ranges are. -/
lemma Disjointly.map_cons {cs : List (List (UInt8 × UInt8))} (h : Disjointly cs) (b : UInt8) :
    Disjointly (cs.map ((b, b) :: ·)) := by
  refine List.Pairwise.map _ ?_ h
  intro c d hcd w hc hd
  obtain ⟨v, rfl, hv⟩ := covers_cons_self.mp hc
  obtain ⟨v', heq, hv'⟩ := covers_cons_self.mp hd
  obtain rfl := (List.cons.inj heq).2
  exact hcd v hv hv'

/-- Behind one byte, a sequence is taken that begins with it. -/
lemma exists_covers_map_cons {cs : List (List (UInt8 × UInt8))} {b : UInt8} {w : List UInt8} :
    (∃ c ∈ cs.map ((b, b) :: ·), Covers c w) ↔
      ∃ v, w = b :: v ∧ ∃ c ∈ cs, Covers c v := by
  simp only [List.mem_map, exists_exists_and_eq_and, covers_cons_self]
  constructor
  · rintro ⟨c, hc, v, rfl, hv⟩
    exact ⟨v, rfl, c, hc, hv⟩
  · rintro ⟨v, rfl, c, hc, hv⟩
    exact ⟨c, hc, v, rfl, hv⟩

/-- The piece between takes the sequences whose first byte is strictly between. -/
lemma exists_covers_middle {l h : UInt8} (lo : List UInt8) (hlh : l < h) (w : List UInt8) :
    (∃ c ∈ middlePiece l h lo, Covers c w) ↔
      ∃ b v, w = b :: v ∧ (l < b ∧ b < h) ∧ v.length = lo.length ∧ ∀ x ∈ v, IsCont x := by
  have hbytes : ∀ b, (h > l + 1 ∧ l + 1 ≤ b ∧ b ≤ h - 1) ↔ l < b ∧ b < h :=
    fun b => between_bytes hlh
  unfold middlePiece
  by_cases hgap : h > l + 1
  · rw [if_pos hgap]
    simp only [List.mem_singleton, exists_eq_left, Covers, List.forall₂_cons_left_iff]
    constructor
    · rintro ⟨b, v, hb, hv, rfl⟩
      exact ⟨b, v, rfl, (hbytes b).mp ⟨hgap, hb⟩, covers_replicate.mp hv⟩
    · rintro ⟨b, v, rfl, hb, hv⟩
      exact ⟨b, v, ((hbytes b).mpr hb).2, covers_replicate.mpr hv, rfl⟩
  · rw [if_neg hgap]
    simp only [List.not_mem_nil, false_and, exists_false, false_iff]
    rintro ⟨b, v, rfl, hb, -⟩
    exact hgap ((hbytes b).mpr hb).1

/-- The recursion emits ranges for exactly the sequences between its bounds, and takes none of
them twice. -/
theorem emitByteRecurse_spec (lo hi : List UInt8) (hlen : hi.length = lo.length)
    (hlo : TailCont lo) (hhi : TailCont hi) (hle : seqVal lo ≤ seqVal hi) :
    (∀ w, (∃ c ∈ emitByteRecurse lo hi [], Covers c w) ↔ Between lo hi w) ∧
      Disjointly (emitByteRecurse lo hi []) := by
  induction hn : lo.length generalizing lo hi with
  | zero =>
    obtain rfl := List.length_eq_zero_iff.mp hn
    obtain rfl := List.length_eq_zero_iff.mp hlen
    simp only [emitByteRecurse, fixedBytes, List.map_nil, List.mem_singleton, exists_eq_left]
    refine ⟨fun w => ?_, List.pairwise_singleton _ _⟩
    rw [Covers, List.forall₂_nil_left_iff]
    constructor
    · rintro rfl
      exact ⟨rfl, fun b hb => absurd hb List.not_mem_nil, le_rfl, le_rfl⟩
    · intro h
      exact List.length_eq_zero_iff.mp h.length
  | succ n ih =>
    cases lo with
    | nil => simp at hn
    | cons l lo =>
      cases hi with
      | nil => simp at hlen
      | cons h hi =>
        have hn' : lo.length = n := by simpa using hn
        have hlen' : hi.length = lo.length := by simpa using hlen
        have hlo' : ∀ x ∈ lo, IsCont x := hlo
        have hhi' : ∀ x ∈ hi, IsCont x := hhi
        rw [emitByteRecurse_cons]
        by_cases hlh : l = h
        · subst hlh
          rw [if_pos rfl]
          obtain ⟨hcov, hdis⟩ := ih lo hi hlen' hlo.tail hhi.tail
            ((seqVal_cons_le_cons hlen'.symm).mp hle) hn'
          refine ⟨fun w => ?_, hdis.map_cons l⟩
          rw [exists_covers_map_cons]
          constructor
          · rintro ⟨v, rfl, hc⟩
            have hb := (hcov v).mp hc
            refine ⟨by simpa using hb.length, hb.forall_isCont hlen' hlo' hhi', ?_, ?_⟩
            · exact (seqVal_cons_le_cons hb.length.symm).mpr hb.lower
            · exact (seqVal_cons_le_cons (hb.length.trans hlen'.symm)).mpr hb.upper
          · intro hb
            cases w with
            | nil => exact absurd hb.length (by simp)
            | cons b v =>
              have hv : v.length = lo.length := by simpa using hb.length
              have h1 : l ≤ b := head_le_of_seqVal_le hv.symm hlo' hb.tail hb.lower
              have h2 : b ≤ l :=
                head_le_of_seqVal_le (hv.trans hlen'.symm) hb.tail hhi' hb.upper
              obtain rfl : b = l := UInt8.le_antisymm h2 h1
              refine ⟨v, rfl, (hcov v).mpr ⟨hv, hb.tail.tail, ?_, ?_⟩⟩
              · exact (seqVal_cons_le_cons hv.symm).mp hb.lower
              · exact (seqVal_cons_le_cons (hv.trans hlen'.symm)).mp hb.upper
        · rw [if_neg hlh]
          have hlt : l < h := by
            have := head_le_of_seqVal_le hlen'.symm hlo' hhi' hle
            exact UInt8.lt_of_le_of_ne this hlh
          have hcl := seqVal_cont_bounds hlo'
          have hch := seqVal_cont_bounds hhi'
          rw [hlen'] at hch
          obtain ⟨hcov₁, hdis₁⟩ := ih lo (List.replicate lo.length 0xBF) (by simp) hlo.tail
            (TailCont.of_forall (isCont_of_mem_replicate isCont_BF)) hcl.2.1 hn'
          obtain ⟨hcov₂, hdis₂⟩ := ih (List.replicate lo.length 0x80) hi (by simpa using hlen')
            (TailCont.of_forall (isCont_of_mem_replicate isCont_80)) hhi.tail hch.1
            (by simpa using hn')
          have hmid := exists_covers_middle lo hlt
          constructor
          · intro w
            simp only [List.mem_append, or_and_right, exists_or]
            rw [hmid, exists_covers_map_cons, exists_covers_map_cons]
            constructor
            · rintro ((⟨v, rfl, hc⟩ | ⟨b, v, rfl, hb, hv⟩) | ⟨v, rfl, hc⟩)
              · exact (between_cons_iff hlen' hlo' hhi' hlt).mpr (Or.inl ⟨rfl, (hcov₁ v).mp hc⟩)
              · exact (between_cons_iff hlen' hlo' hhi' hlt).mpr (Or.inr (Or.inl ⟨hb, hv⟩))
              · exact (between_cons_iff hlen' hlo' hhi' hlt).mpr
                  (Or.inr (Or.inr ⟨rfl, (hcov₂ v).mp hc⟩))
            · intro hb
              cases w with
              | nil => exact absurd hb.length (by simp)
              | cons b v =>
                rcases (between_cons_iff hlen' hlo' hhi' hlt).mp hb with
                  ⟨rfl, hv⟩ | ⟨hbt, hv⟩ | ⟨rfl, hv⟩
                · exact Or.inl (Or.inl ⟨v, rfl, (hcov₁ v).mpr hv⟩)
                · exact Or.inl (Or.inr ⟨b, v, rfl, hbt, hv⟩)
                · exact Or.inr ⟨v, rfl, (hcov₂ v).mpr hv⟩
          · -- the three pieces begin with different bytes
            have hhead : ∀ {b : UInt8} {cs : List (List (UInt8 × UInt8))} {c w},
                c ∈ cs.map ((b, b) :: ·) → Covers c w → ∃ v, w = b :: v := by
              intro b cs c w hc hw
              obtain ⟨v, hv, -⟩ := exists_covers_map_cons.mp ⟨c, hc, hw⟩
              exact ⟨v, hv⟩
            refine List.pairwise_append.mpr ⟨List.pairwise_append.mpr
              ⟨hdis₁.map_cons l, ?_, ?_⟩, hdis₂.map_cons h, ?_⟩
            · unfold middlePiece
              split_ifs
              · exact List.pairwise_singleton _ _
              · exact List.Pairwise.nil
            · intro c hc d hd w hcw hdw
              obtain ⟨v, rfl⟩ := hhead hc hcw
              obtain ⟨b, v', heq, hb, -⟩ := (hmid _).mp ⟨d, hd, hdw⟩
              rw [← (List.cons.inj heq).1] at hb
              exact absurd hb.1 (UInt8.lt_irrefl l)
            · intro c hc d hd w hcw hdw
              obtain ⟨v, rfl⟩ := hhead hd hdw
              rcases List.mem_append.mp hc with hc | hc
              · obtain ⟨v', heq⟩ := hhead hc hcw
                exact hlh (List.cons.inj heq).1.symm
              · obtain ⟨b, v', heq, hb, -⟩ := (hmid _).mp ⟨c, hc, hcw⟩
                rw [← (List.cons.inj heq).1] at hb
                exact absurd hb.2 (UInt8.lt_irrefl h)

/-- The emitted ranges are as many as the bytes of the bounds, and none of them is empty. -/
lemma emitByteRecurse_ranges (lo hi : List UInt8) (hlen : hi.length = lo.length) :
    ∀ c ∈ emitByteRecurse lo hi [], c.length = lo.length ∧ ∀ r ∈ c, r.1 ≤ r.2 := by
  induction hn : lo.length generalizing lo hi with
  | zero =>
    obtain rfl := List.length_eq_zero_iff.mp hn
    simp [emitByteRecurse, fixedBytes]
  | succ n ih =>
    cases lo with
    | nil => simp at hn
    | cons l lo =>
      cases hi with
      | nil => simp at hlen
      | cons h hi =>
        have hn' : lo.length = n := by simpa using hn
        have hlen' : hi.length = lo.length := by simpa using hlen
        have hbehind : ∀ (b : UInt8) (cs : List (List (UInt8 × UInt8))),
            (∀ c ∈ cs, c.length = n ∧ ∀ r ∈ c, r.1 ≤ r.2) →
              ∀ c ∈ cs.map ((b, b) :: ·), c.length = n + 1 ∧ ∀ r ∈ c, r.1 ≤ r.2 := by
          intro b cs hcs c hc
          obtain ⟨d, hd, rfl⟩ := List.mem_map.mp hc
          obtain ⟨hdlen, hdle⟩ := hcs d hd
          exact ⟨by rw [List.length_cons, hdlen],
            List.forall_mem_cons.mpr ⟨UInt8.le_refl b, hdle⟩⟩
        rw [emitByteRecurse_cons]
        split_ifs with hlh
        · exact hbehind l _ (ih lo hi hlen' hn')
        · intro c hc
          rcases List.mem_append.mp hc with hc | hc
          · rcases List.mem_append.mp hc with hc | hc
            · exact hbehind l _ (ih lo _ (by simp) hn') c hc
            · unfold middlePiece at hc
              split_ifs at hc with hgap
              · rw [List.mem_singleton.mp hc]
                refine ⟨by simp [hn'], List.forall_mem_cons.mpr ⟨?_, ?_⟩⟩
                · have hlt : (l + 1).toNat < h.toNat := hgap
                  have hsub : (h - 1).toNat = h.toNat - 1 :=
                    UInt8.toNat_sub_of_le _ _ (show 1 ≤ h.toNat by omega)
                  show (l + 1).toNat ≤ (h - 1).toNat
                  omega
                · intro r hr
                  rw [List.eq_of_mem_replicate hr]
                  decide
              · exact absurd hc List.not_mem_nil
          · exact hbehind h _ (ih _ hi (by simpa using hlen') (by simpa using hn')) c hc

/-! ### The sequences of a class -/

/-- The ranges of a window take the encodings of its code points, none of them twice. -/
lemma emit_window {len : ℕ} (hlen : IsLen len) {lo hi : ℕ} (hlo : InWindow len lo)
    (hhi : InWindow len hi) (hle : lo ≤ hi) :
    (∀ w, (∃ c ∈ emitByteRecurse (utf8EncodeCp lo) (utf8EncodeCp hi) [], Covers c w) ↔
        ∃ cp, (lo ≤ cp ∧ cp ≤ hi) ∧ w = utf8EncodeCp cp) ∧
      Disjointly (emitByteRecurse (utf8EncodeCp lo) (utf8EncodeCp hi) []) := by
  obtain ⟨hllen, hltail, hlval⟩ := utf8EncodeCp_window hlen hlo
  obtain ⟨hhlen, hhtail, hhval⟩ := utf8EncodeCp_window hlen hhi
  obtain ⟨hcov, hdis⟩ := emitByteRecurse_spec (utf8EncodeCp lo) (utf8EncodeCp hi)
    (hhlen.trans hllen.symm) hltail hhtail (by omega)
  refine ⟨fun w => ?_, hdis⟩
  rw [hcov]
  constructor
  · intro hb
    have hlower := hb.lower
    have hupper := hb.upper
    have hcp : InWindow len (seqVal w - lenOffset len) :=
      ⟨le_trans hlo.1 (by omega), le_trans (by omega) hhi.2⟩
    exact ⟨seqVal w - lenOffset len, ⟨by omega, by omega⟩,
      eq_utf8EncodeCp_of_seqVal hlen hcp (hb.length.trans hllen) hb.tail (by omega)⟩
  · rintro ⟨cp, ⟨h1, h2⟩, rfl⟩
    have hcp : InWindow len cp := ⟨le_trans hlo.1 h1, le_trans h2 hhi.2⟩
    obtain ⟨hclen, hctail, hcval⟩ := utf8EncodeCp_window hlen hcp
    exact ⟨hclen.trans hllen.symm, hctail, by omega, by omega⟩

/-- Sequences of ranges that take no sequence and a beginning of it. -/
def Apart (c d : List (UInt8 × UInt8)) : Prop :=
  ∀ u v, Covers c u → Covers d v → ¬ u <+: v ∧ ¬ v <+: u

/-- Sequences of ranges that take encodings of different code points are apart. -/
lemma apart_of_ne {c d : List (UInt8 × UInt8)}
    (h : ∀ u v, Covers c u → Covers d v → ∃ cp cq, cp ≤ 0x10FFFF ∧ cq ≤ 0x10FFFF ∧ cp ≠ cq ∧
      u = utf8EncodeCp cp ∧ v = utf8EncodeCp cq) : Apart c d := by
  intro u v hu hv
  obtain ⟨cp, cq, hp, hq, hne, rfl, rfl⟩ := h u v hu hv
  exact ⟨fun hpre => hne (utf8EncodeCp_eq_of_append hp hq hpre),
    fun hpre => hne (utf8EncodeCp_eq_of_append hq hp hpre).symm⟩

/-- The lengths that the expansion goes through. -/
lemma isLen_of_mem {len : ℕ} (h : len ∈ [1, 2, 3, 4]) : IsLen len := by
  simp only [List.mem_cons, List.not_mem_nil, or_false] at h
  unfold IsLen
  omega

section Ranges
variable {rs : List (ℕ × ℕ)} (hrs : RangesOk rs 0 0x110000)
include hrs

/-- The sequences of one length take the encodings of that length. -/
lemma exists_covers_emitLen {len : ℕ} (hlen : IsLen len) (w : List UInt8) :
    (∃ c ∈ emitLen rs len, Covers c w) ↔
      ∃ cp, InWindow len cp ∧ InRanges rs cp ∧ w = utf8EncodeCp cp := by
  have hwin := (rangesInLen_ok hrs len).2
  simp only [emitLen, List.mem_flatMap]
  constructor
  · rintro ⟨c, ⟨r, hr, hc⟩, hw⟩
    obtain ⟨hle, hlo, hhi⟩ := hwin r hr
    obtain ⟨cp, hcp, rfl⟩ := ((emit_window hlen hlo hhi hle).1 w).mp ⟨c, hc, hw⟩
    obtain ⟨hin, hcpw⟩ := inRanges_rangesInLen.mp ⟨r, hr, hcp⟩
    exact ⟨cp, hcpw, hin, rfl⟩
  · rintro ⟨cp, hcpw, hin, rfl⟩
    obtain ⟨r, hr, hcp⟩ := inRanges_rangesInLen.mpr ⟨hin, hcpw⟩
    obtain ⟨hle, hlo, hhi⟩ := hwin r hr
    obtain ⟨c, hc, hw⟩ := ((emit_window hlen hlo hhi hle).1 _).mpr ⟨cp, hcp, rfl⟩
    exact ⟨c, ⟨r, hr, hc⟩, hw⟩

/-- The sequences of one length are apart. -/
lemma apart_emitLen {len : ℕ} (hlen : IsLen len) : (emitLen rs len).Pairwise Apart := by
  obtain ⟨hsorted, hwin⟩ := rangesInLen_ok hrs len
  refine List.pairwise_flatMap.mpr ⟨?_, ?_⟩
  · intro r hr
    obtain ⟨hle, hlo, hhi⟩ := hwin r hr
    obtain ⟨hcov, hdis⟩ := emit_window hlen hlo hhi hle
    refine hdis.imp_of_mem ?_
    intro c d hc hd hcd
    refine apart_of_ne ?_
    intro u v hu hv
    obtain ⟨cp, hcp, rfl⟩ := (hcov u).mp ⟨c, hc, hu⟩
    obtain ⟨cq, hcq, rfl⟩ := (hcov v).mp ⟨d, hd, hv⟩
    refine ⟨cp, cq, ?_, ?_, ?_, rfl, rfl⟩
    · exact le_trans hcp.2 (hhi.le hlen)
    · exact le_trans hcq.2 (hhi.le hlen)
    · rintro rfl
      exact hcd _ hu hv
  · refine hsorted.imp_of_mem ?_
    intro r s hr hs hrs' c hc d hd
    refine apart_of_ne ?_
    intro u v hu hv
    obtain ⟨hrle, hrlo, hrhi⟩ := hwin r hr
    obtain ⟨hsle, hslo, hshi⟩ := hwin s hs
    obtain ⟨cp, hcp, rfl⟩ := ((emit_window hlen hrlo hrhi hrle).1 u).mp ⟨c, hc, hu⟩
    obtain ⟨cq, hcq, rfl⟩ := ((emit_window hlen hslo hshi hsle).1 v).mp ⟨d, hd, hv⟩
    exact ⟨cp, cq, le_trans hcp.2 (hrhi.le hlen), le_trans hcq.2 (hshi.le hlen), by omega, rfl,
      rfl⟩

/-- All sequences together take the encodings of the code points in the ranges. -/
lemma exists_covers_concats (w : List UInt8) :
    (∃ c ∈ [1, 2, 3, 4].flatMap (emitLen rs), Covers c w) ↔
      ∃ cp, cp ≤ 0x10FFFF ∧ InRanges rs cp ∧ w = utf8EncodeCp cp := by
  constructor
  · rintro ⟨c, hc, hw⟩
    obtain ⟨len, hlen, hc⟩ := List.mem_flatMap.mp hc
    obtain ⟨cp, hcpw, hin, rfl⟩ :=
      (exists_covers_emitLen hrs (isLen_of_mem hlen) w).mp ⟨c, hc, hw⟩
    exact ⟨cp, hcpw.le (isLen_of_mem hlen), hin, rfl⟩
  · rintro ⟨cp, hcp, hin, rfl⟩
    obtain ⟨len, hlen, hcpw⟩ := exists_inWindow hcp
    obtain ⟨c, hc, hw⟩ := (exists_covers_emitLen hrs hlen _).mpr ⟨cp, hcpw, hin, rfl⟩
    have hmem : len ∈ [1, 2, 3, 4] := by
      obtain ⟨h1, h4⟩ := hlen
      interval_cases len <;> decide
    exact ⟨c, List.mem_flatMap.mpr ⟨len, hmem, hc⟩, hw⟩

/-- All sequences together are apart. -/
lemma apart_concats : ([1, 2, 3, 4].flatMap (emitLen rs)).Pairwise Apart := by
  refine List.pairwise_flatMap.mpr ⟨fun len hlen => apart_emitLen hrs (isLen_of_mem hlen), ?_⟩
  have hdistinct : ([1, 2, 3, 4] : List ℕ).Pairwise (· < ·) := by decide
  refine hdistinct.imp_of_mem ?_
  intro m n hm hn hmn c hc d hd
  refine apart_of_ne ?_
  intro u v hu hv
  have hml := isLen_of_mem hm
  have hnl := isLen_of_mem hn
  obtain ⟨cp, hcpw, -, rfl⟩ := (exists_covers_emitLen hrs hml u).mp ⟨c, hc, hu⟩
  obtain ⟨cq, hcqw, -, rfl⟩ := (exists_covers_emitLen hrs hnl v).mp ⟨d, hd, hv⟩
  refine ⟨cp, cq, hcpw.le hml, hcqw.le hnl, ?_, rfl, rfl⟩
  rintro rfl
  have hm' := (utf8EncodeCp_window hml hcpw).1
  have hn' := (utf8EncodeCp_window hnl hcqw).1
  omega

end Ranges

/-! ### The node -/

/-- A range takes a byte, up to ASCII case under `ci`. -/
def TakesByte (ci : Bool) (r : UInt8 × UInt8) (b : UInt8) : Prop :=
  (r.1 ≤ b ∧ b ≤ r.2) ∨ (ci = true ∧ ∃ p ∈ asciiCasePair b, r.1 ≤ p ∧ p ≤ r.2)

/-- A sequence of ranges takes a sequence of bytes, up to ASCII case under `ci`. -/
def CoversFold (ci : Bool) (rs : List (UInt8 × UInt8)) (w : List UInt8) : Prop :=
  List.Forall₂ (TakesByte ci) rs w

/-- Without case folding the ranges decide. -/
lemma coversFold_false {rs : List (UInt8 × UInt8)} {w : List UInt8} :
    CoversFold false rs w ↔ Covers rs w := by
  have heq : TakesByte false = fun r b => r.1 ≤ b ∧ b ≤ r.2 := by
    funext r b
    simp [TakesByte]
  unfold CoversFold Covers
  rw [heq]

/-- The bits of a class after a run of additions. -/
lemma getLsbD_foldl_add (ns : List ℕ) (hns : ∀ n ∈ ns, n < 256) (cc : CharClass) {k : ℕ}
    (hk : k < 256) :
    (ns.foldl (fun cc c => cc.add (UInt8.ofNat c)) cc).bits.getLsbD k =
      (cc.bits.getLsbD k || decide (k ∈ ns)) := by
  induction ns generalizing cc with
  | nil => simp
  | cons n ns ih =>
    have hn : n < 256 := hns n List.mem_cons_self
    rw [List.foldl_cons, ih fun m hm => hns m (List.mem_cons_of_mem n hm)]
    have hbit : (cc.add (UInt8.ofNat n)).bits.getLsbD k = (cc.bits.getLsbD k || decide (k = n)) := by
      simp only [CharClass.add, BitVec.getLsbD_or, BitVec.getLsbD_twoPow, UInt8.toNat_ofNat']
      rw [Nat.mod_eq_of_lt hn]
      simp [hk, hn, eq_comm]
    rw [hbit, Bool.or_assoc]
    congr 1
    rw [Bool.eq_iff_iff]
    simp

/-- A run of additions changes the bits only. -/
lemma foldl_add_fields (ns : List ℕ) (cc : CharClass) :
    (ns.foldl (fun cc c => cc.add (UInt8.ofNat c)) cc).negate = cc.negate ∧
      (ns.foldl (fun cc c => cc.add (UInt8.ofNat c)) cc).byteOnly = cc.byteOnly := by
  induction ns generalizing cc with
  | nil => exact ⟨rfl, rfl⟩
  | cons n ns ih => exact ih _

/-- The class of a range tests membership. -/
lemma rawTest_addRange {lo hi : UInt8} (hle : lo ≤ hi) (b : UInt8) :
    (({ byteOnly := true } : CharClass).addRange lo hi).rawTest b = true ↔ lo ≤ b ∧ b ≤ hi := by
  have hnot : ¬ lo > hi := UInt8.not_lt.mpr hle
  have hhi := UInt8.toNat_lt hi
  have hle' : lo.toNat ≤ hi.toNat := hle
  have hmem : ∀ n ∈ List.range' lo.toNat (hi.toNat + 1 - lo.toNat), n < 256 := by
    intro n hn
    rw [List.mem_range'_1] at hn
    omega
  simp only [CharClass.addRange, if_neg hnot, CharClass.rawTest]
  rw [getLsbD_foldl_add _ hmem _ (UInt8.toNat_lt b)]
  simp only [BitVec.ofNat_eq_ofNat, BitVec.getLsbD_zero, Bool.false_or, decide_eq_true_eq,
    List.mem_range'_1]
  show _ ↔ lo.toNat ≤ b.toNat ∧ b.toNat ≤ hi.toNat
  omega

/-- The node of a range takes the bytes that the range takes. -/
lemma accepts_classNodeForRange {ci : Bool} {r : UInt8 × UInt8} (hr : r.1 ≤ r.2)
    {w : List UInt8} :
    (classNodeForRange r).Accepts ci w ↔ ∃ b, w = [b] ∧ TakesByte ci r b := by
  have hneg : (({ byteOnly := true } : CharClass).addRange r.1 r.2).negate = false :=
    (foldl_add_fields _ _).1
  have htest : ∀ b, (({ byteOnly := true } : CharClass).addRange r.1 r.2).testFold b ci = true ↔
      TakesByte ci r b := by
    intro b
    simp only [CharClass.testFold, hneg, Bool.false_eq_true, if_false, Bool.or_eq_true,
      rawTest_addRange hr, TakesByte, Bool.and_eq_true]
    cases asciiCasePair b with
    | none => simp
    | some p => simp only [rawTest_addRange hr, Option.mem_def, Option.some.injEq, exists_eq_left']
  simp only [classNodeForRange, Node.Accepts, htest]

/-- The node of a sequence of ranges takes the sequences that the ranges take. -/
lemma accepts_concatToNode {ci : Bool} {c : List (UInt8 × UInt8)} (hc : ∀ r ∈ c, r.1 ≤ r.2)
    {w : List UInt8} : (concatToNode c).Accepts ci w ↔ CoversFold ci c w := by
  have hseq : ∀ (c : List (UInt8 × UInt8)), (∀ r ∈ c, r.1 ≤ r.2) → ∀ w,
      acceptsSeq ci (c.map classNodeForRange) w ↔ CoversFold ci c w := by
    intro c hc
    induction c with
    | nil =>
      intro w
      simp [acceptsSeq, CoversFold]
    | cons r c ih =>
      obtain ⟨hr, hc⟩ := List.forall_mem_cons.mp hc
      intro w
      simp only [List.map_cons, acceptsSeq, CoversFold, List.forall₂_cons_left_iff,
        accepts_classNodeForRange hr]
      constructor
      · rintro ⟨u, v, rfl, ⟨b, rfl, hb⟩, hv⟩
        exact ⟨b, v, hb, (ih hc v).mp hv, rfl⟩
      · rintro ⟨b, v, hb, hv, rfl⟩
        exact ⟨[b], v, rfl, ⟨b, rfl, hb⟩, (ih hc v).mpr hv⟩
  match c, hc with
  | [], _ => simp [concatToNode, Node.Accepts, acceptsSeq, CoversFold]
  | [r], hc =>
    have hr : r.1 ≤ r.2 := hc r List.mem_cons_self
    simp only [concatToNode, accepts_classNodeForRange hr, CoversFold,
      List.forall₂_cons_left_iff, List.forall₂_nil_left_iff]
    constructor
    · rintro ⟨b, rfl, hb⟩
      exact ⟨b, [], hb, rfl, rfl⟩
    · rintro ⟨b, v, hb, rfl, rfl⟩
      exact ⟨b, rfl, hb⟩
  | r :: s :: c, hc =>
    simp only [concatToNode, Node.Accepts]
    exact hseq _ hc w

/-- The node of a range is a byte class. -/
lemma isByteClass_classNodeForRange (r : UInt8 × UInt8) : (classNodeForRange r).IsByteClass :=
  ⟨(foldl_add_fields _ _).2, (foldl_add_fields _ _).1⟩

/-- The node of a sequence of ranges is a sequence of byte classes. -/
lemma isByteSeq_concatToNode (c : List (UInt8 × UInt8)) : (concatToNode c).IsByteSeq := by
  match c with
  | [] => simp [concatToNode, Node.IsByteSeq]
  | [r] => exact isByteClass_classNodeForRange r
  | r :: s :: c =>
    intro n hn
    obtain ⟨q, -, rfl⟩ := List.mem_map.mp hn
    exact isByteClass_classNodeForRange q

/-- The alternatives of the node of several sequences are the nodes of the sequences. -/
lemma alternatives_concatsToNode (cs : List (List (UInt8 × UInt8))) :
    (concatsToNode cs).alternatives = cs.map concatToNode := by
  match cs with
  | [] => rfl
  | [[]] => rfl
  | [[r]] => rfl
  | [r :: s :: c] => rfl
  | c :: d :: cs => rfl

/-- A node accepts what one of its alternatives accepts. -/
lemma accepts_concatsToNode {ci : Bool} {cs : List (List (UInt8 × UInt8))}
    (hcs : ∀ c ∈ cs, ∀ r ∈ c, r.1 ≤ r.2) {w : List UInt8} :
    (concatsToNode cs).Accepts ci w ↔ ∃ c ∈ cs, CoversFold ci c w := by
  have hany : acceptsAny ci (cs.map concatToNode) w ↔ ∃ c ∈ cs, CoversFold ci c w := by
    rw [acceptsAny_iff]
    simp only [List.mem_map, exists_exists_and_eq_and]
    constructor
    · rintro ⟨c, hc, hw⟩
      exact ⟨c, hc, (accepts_concatToNode (hcs c hc)).mp hw⟩
    · rintro ⟨c, hc, hw⟩
      exact ⟨c, hc, (accepts_concatToNode (hcs c hc)).mpr hw⟩
  match cs, hcs, hany with
  | [], _, hany => simpa [concatsToNode, Node.Accepts] using hany
  | [c], hcs, _ => simp [concatsToNode, accepts_concatToNode (hcs c List.mem_cons_self)]
  | c :: d :: cs, _, hany => exact hany

/-! ### Exactness -/

/-- Case pairs are mutual and ASCII. -/
lemma asciiCasePair_symm {b p : UInt8} (h : asciiCasePair b = some p) :
    asciiCasePair p = some b ∧ b < 0x80 ∧ p < 0x80 := by
  have hall : (List.range 256).all (fun n => (asciiCasePair (UInt8.ofNat n)).all fun p =>
      asciiCasePair p = some (UInt8.ofNat n) ∧ UInt8.ofNat n < 0x80 ∧ p < 0x80) = true := by
    decide +kernel
  have hb := List.all_eq_true.mp hall b.toNat (List.mem_range.mpr (UInt8.toNat_lt b))
  rw [UInt8.ofNat_toNat, h, Option.all_some] at hb
  exact of_decide_eq_true hb

/-- Under case folding a class takes both of a case pair. -/
lemma testCpFold_casePair (cc : CharClass) {b p : UInt8} (h : asciiCasePair b = some p)
    (hp : cc.testCpFold p.toNat true = true) : cc.testCpFold b.toNat true = true := by
  obtain ⟨hback, hb, hpl⟩ := asciiCasePair_symm h
  have hraw : ∀ {c : UInt8}, c < 0x80 → cc.rawTestCp c.toNat = cc.rawTest c := by
    intro c hc
    have hlt : c.toNat < 0x80 := hc
    simp [CharClass.rawTestCp, CharClass.rawTest, show c.toNat < 256 by omega,
      show ¬ 0x80 ≤ c.toNat by omega]
  have hb' : b.toNat < 128 := hb
  have hp' : p.toNat < 128 := hpl
  simp only [CharClass.testCpFold, UInt8.ofNat_toNat, h, hback, hraw hb, hraw hpl, Bool.true_and,
    decide_eq_true hb', decide_eq_true hp'] at hp ⊢
  rw [Bool.or_comm]
  exact hp

/-- The sequences of more than one byte take no letter for another. -/
lemma covers_of_coversFold {rs : List (ℕ × ℕ)} (hrs : RangesOk rs 0 0x110000) {len : ℕ}
    (hlen : IsLen len) (hmulti : 2 ≤ len) {c : List (UInt8 × UInt8)} (hc : c ∈ emitLen rs len)
    (hne : ∀ r ∈ c, r.1 ≤ r.2) {ci : Bool} {w : List UInt8} (hw : CoversFold ci c w) :
    Covers c w := by
  have hlow : ∀ r ∈ c, 0x80 ≤ r.1 := by
    -- the lower ends of the ranges are themselves an encoding
    have hends : Covers c (c.map Prod.fst) := by
      unfold Covers
      rw [List.forall₂_map_right_iff, List.forall₂_same]
      exact fun r hr => ⟨UInt8.le_refl _, hne r hr⟩
    obtain ⟨cp, hcpw, -, henc⟩ := (exists_covers_emitLen hrs hlen _).mp ⟨c, hc, hends⟩
    have hbytes := utf8EncodeCp_toNat (hcpw.le hlen)
    have hcp : 0x80 ≤ cp := by
      obtain ⟨-, h4⟩ := hlen
      have hlo := hcpw.1
      interval_cases len <;> simp only [lenBounds] at hlo <;> omega
    intro r hr
    have hmem : r.1.toNat ∈ (utf8EncodeCp cp).map UInt8.toNat := by
      rw [← henc, List.map_map]
      exact List.mem_map.mpr ⟨r, hr, rfl⟩
    rw [hbytes, if_neg (by omega)] at hmem
    show 0x80 ≤ r.1.toNat
    split_ifs at hmem <;> simp only [List.mem_cons, List.not_mem_nil, or_false] at hmem <;> omega
  have hboth := (List.forall₂_and_left c w).mpr ⟨hlow, hw⟩
  refine hboth.imp ?_
  rintro r b ⟨hr, hb | ⟨-, p, hp, hrp, -⟩⟩
  · exact hb
  · exact absurd (asciiCasePair_symm hp).2.2 (UInt8.not_lt.mpr (UInt8.le_trans hr hrp))

/-- The encoding of an ASCII byte. -/
lemma utf8EncodeCp_ascii {b : UInt8} (hb : b < 0x80) : utf8EncodeCp b.toNat = [b] := by
  have hlt : b.toNat < 0x80 := hb
  simp only [utf8EncodeCp]
  rw [if_neg (by omega), if_pos hlt, UInt8.ofNat_toNat]

/-- A sequence of one byte takes a letter for its pair, which the class takes as well. -/
lemma testCpFold_of_coversFold_one {cc : CharClass} {ci : Bool}
    (hrs : RangesOk (cpRangesOf cc ci) 0 0x110000) {r : UInt8 × UInt8}
    (hc : [r] ∈ emitLen (cpRangesOf cc ci) 1) {b : UInt8} (hb : TakesByte ci r b) :
    ∃ cp, cp ≤ 0x10FFFF ∧ cc.testCpFold cp ci = true ∧ [b] = utf8EncodeCp cp := by
  have hcov : ∀ p, r.1 ≤ p ∧ p ≤ r.2 →
      ∃ cp, InWindow 1 cp ∧ cc.testCpFold cp ci = true ∧ [p] = utf8EncodeCp cp := by
    intro p hp
    have hw : Covers [r] [p] := List.Forall₂.cons hp List.Forall₂.nil
    obtain ⟨cp, hcpw, hin, henc⟩ :=
      (exists_covers_emitLen hrs ⟨le_rfl, by omega⟩ [p]).mp ⟨[r], hc, hw⟩
    exact ⟨cp, hcpw, ((inRanges_cpRangesOf cc ci cp).mp hin).2, henc⟩
  rcases hb with hb | ⟨rfl, p, hp, hrp⟩
  · obtain ⟨cp, hcpw, ht, henc⟩ := hcov b hb
    exact ⟨cp, hcpw.le ⟨le_rfl, by omega⟩, ht, henc⟩
  · obtain ⟨-, hb, hpl⟩ := asciiCasePair_symm hp
    obtain ⟨cp, hcpw, ht, henc⟩ := hcov p hrp
    have hcp : p.toNat = cp := by
      have heq : utf8EncodeCp p.toNat = utf8EncodeCp cp := (utf8EncodeCp_ascii hpl).trans henc
      have hpre : utf8EncodeCp p.toNat <+: utf8EncodeCp cp := heq ▸ List.prefix_rfl
      have hlt := UInt8.toNat_lt p
      exact utf8EncodeCp_eq_of_append (by omega) (hcpw.le ⟨le_rfl, by omega⟩) hpre
    have hlt := UInt8.toNat_lt b
    exact ⟨b.toNat, by omega, testCpFold_casePair cc hp (by rw [hcp, ht]),
      (utf8EncodeCp_ascii hb).symm⟩

/-- What an expansion does: its alternatives are sequences of byte classes, it accepts the
encodings of the code points that the class takes, whether or not its own classes are
tested under case folding, and no alternative accepts the beginning of what another does. -/
structure ExactFor (cc : CharClass) (ci : Bool) (node : Node) : Prop where
  shape : ∀ n ∈ node.alternatives, n.IsByteSeq
  exact : ∀ w, node.Accepts false w ↔
    ∃ cp, cp ≤ 0x10FFFF ∧ cc.testCpFold cp ci = true ∧ w = utf8EncodeCp cp
  exactFold : ∀ w, node.Accepts ci w ↔
    ∃ cp, cp ≤ 0x10FFFF ∧ cc.testCpFold cp ci = true ∧ w = utf8EncodeCp cp
  unambiguous : node.alternatives.Pairwise fun m n => ∀ u v, m.Accepts false u →
    n.Accepts false v → ¬ u <+: v ∧ ¬ v <+: u

/-- The node of the sequences is exact. -/
lemma exactFor_concats (cc : CharClass) (ci : Bool) :
    ExactFor cc ci (concatsToNode ([1, 2, 3, 4].flatMap (emitLen (cpRangesOf cc ci)))) := by
  have hrs : RangesOk (cpRangesOf cc ci) 0 0x110000 :=
    (rangesLoop_spec (fun cp => cc.testCpFold cp ci) 0x110000 0 none (by simp)).1
  have hne : ∀ c ∈ [1, 2, 3, 4].flatMap (emitLen (cpRangesOf cc ci)), ∀ r ∈ c, r.1 ≤ r.2 := by
    intro c hc
    obtain ⟨len, hlen, hc⟩ := List.mem_flatMap.mp hc
    obtain ⟨r, hr, hc⟩ := List.mem_flatMap.mp hc
    obtain ⟨-, hlo, hhi⟩ := (rangesInLen_ok hrs len).2 r hr
    have hl := (utf8EncodeCp_window (isLen_of_mem hlen) hlo).1
    have hh := (utf8EncodeCp_window (isLen_of_mem hlen) hhi).1
    exact (emitByteRecurse_ranges _ _ (hh.trans hl.symm) c hc).2
  have hsets : ∀ w, (∃ c ∈ [1, 2, 3, 4].flatMap (emitLen (cpRangesOf cc ci)), Covers c w) ↔
      ∃ cp, cp ≤ 0x10FFFF ∧ cc.testCpFold cp ci = true ∧ w = utf8EncodeCp cp := by
    intro w
    rw [exists_covers_concats hrs]
    simp only [inRanges_cpRangesOf]
    exact exists_congr fun cp =>
      ⟨fun h => ⟨h.1, h.2.1.2, h.2.2⟩, fun h => ⟨h.1, ⟨h.1, h.2.1⟩, h.2.2⟩⟩
  refine ⟨?_, ?_, ?_, ?_⟩
  · rw [alternatives_concatsToNode]
    intro n hn
    obtain ⟨c, -, rfl⟩ := List.mem_map.mp hn
    exact isByteSeq_concatToNode c
  · intro w
    rw [accepts_concatsToNode hne, ← hsets w]
    simp only [coversFold_false]
  · intro w
    rw [accepts_concatsToNode hne, ← hsets w]
    constructor
    · rintro ⟨c, hc, hw⟩
      obtain ⟨len, hlen, hclen⟩ := List.mem_flatMap.mp hc
      have hl := isLen_of_mem hlen
      by_cases hmulti : 2 ≤ len
      · exact ⟨c, hc, covers_of_coversFold hrs hl hmulti hclen (hne c hc) hw⟩
      · obtain rfl : len = 1 := by
          have := hl.1
          omega
        obtain ⟨r, hr, hcr⟩ := List.mem_flatMap.mp hclen
        obtain ⟨-, hlo, hhi⟩ := (rangesInLen_ok hrs 1).2 r hr
        have hlolen := (utf8EncodeCp_window hl hlo).1
        have hhilen := (utf8EncodeCp_window hl hhi).1
        have hone := (emitByteRecurse_ranges _ _ (hhilen.trans hlolen.symm) c hcr).1
        obtain ⟨q, rfl⟩ := List.length_eq_one_iff.mp (hone.trans hlolen)
        obtain ⟨b, v, hb, hv, rfl⟩ := List.forall₂_cons_left_iff.mp hw
        obtain rfl := List.forall₂_nil_left_iff.mp hv
        exact (hsets [b]).mpr (testCpFold_of_coversFold_one hrs hclen hb)
    · rintro ⟨c, hc, hw⟩
      exact ⟨c, hc, hw.imp fun r b hb => Or.inl hb⟩
  · rw [alternatives_concatsToNode]
    refine List.Pairwise.map _ ?_ ((apart_concats hrs).imp_of_mem
      (S := fun c d => (∀ r ∈ c, r.1 ≤ r.2) ∧ (∀ r ∈ d, r.1 ≤ r.2) ∧ Apart c d) ?_)
    · rintro c d ⟨hc, hd, hcd⟩ u v hu hv
      rw [accepts_concatToNode hc, coversFold_false] at hu
      rw [accepts_concatToNode hd, coversFold_false] at hv
      exact hcd u v hu hv
    · intro c d hc hd hcd
      exact ⟨hne c hc, hne d hd, hcd⟩

/-- The node of the empty class is exact where the class takes no code point. -/
lemma exactFor_empty {cc : CharClass} {ci : Bool}
    (h : ∀ cp, cp ≤ 0x10FFFF → cc.testCpFold cp ci = false) : ExactFor cc ci emptyClassNode := by
  have hnone : ∀ (b : UInt8) (ci : Bool),
      ({ byteOnly := true } : CharClass).testFold b ci = false := by
    intro b ci
    cases hp : asciiCasePair b <;> simp [CharClass.testFold, CharClass.rawTest, hp]
  have hacc : ∀ (c : Bool) (w : List UInt8), emptyClassNode.Accepts c w ↔
      ∃ cp, cp ≤ 0x10FFFF ∧ cc.testCpFold cp ci = true ∧ w = utf8EncodeCp cp := by
    intro c w
    simp only [emptyClassNode, Node.Accepts, hnone, Bool.false_eq_true, and_false, exists_false,
      false_iff]
    rintro ⟨cp, hcp, ht, -⟩
    rw [h cp hcp] at ht
    exact absurd ht (by decide)
  refine ⟨?_, hacc false, hacc ci, List.pairwise_singleton _ _⟩
  intro n hn
  obtain rfl := List.mem_singleton.mp hn
  exact ⟨rfl, rfl⟩

end Torajs.Regex
