import Mathlib.Data.List.Basic
import Mathlib.Data.List.Nodup
import Mathlib.Data.List.Forall2
import Mathlib.Tactic.SplitIfs
import ToraJs.Link.ChainedFixups

/-!
# Chained fixups describe the slots

Walking the chains as the loader does finds every slot once, with what was put there.  A bucket is
read back link by link; the buckets of the sorted slots are the pages; and each record of the blob
is read back at the offset that the table of segments gives.
-/

namespace Torajs.Link

open LittleEndian

/-! ### What is described -/

/-- What a slot is to be fixed up with. -/
def Slot.fixup (s : Slot) : Fixup :=
  match s.kind with
  | .laPtr _ | .tlvThunk _ => .bind s.payload 0
  | .rebase _ => .rebase s.payload 0

/-- The number of ordinals or targets that the field of a slot can hold. -/
def Slot.fieldRange (s : Slot) : ℕ :=
  match s.kind with
  | .laPtr _ | .tlvThunk _ => 2 ^ 24
  | .rebase _ => 2 ^ 36

/-- An ordinal or a target that its field can hold. -/
def Slot.InRange (s : Slot) : Prop := s.payload < s.fieldRange

instance (s : Slot) : Decidable s.InRange := inferInstanceAs (Decidable (_ < _))

/-- A segment with its slots. -/
structure Segment where
  offset : ℕ
  fileSize : ℕ
  slots : List Slot

/-- The slots of a segment are distinct, aligned, and in the pages that the file backs. -/
structure Segment.Fits (g : Segment) : Prop where
  distinct : (g.slots.map (·.offset)).Nodup
  aligned : ∀ s ∈ g.slots, 8 ∣ s.offset
  inFile : ∀ s ∈ g.slots, s.page < pageCount g.fileSize
  inRange : ∀ s ∈ g.slots, s.InRange
  pages : pageCount g.fileSize < 2 ^ 16
  offset_lt : g.offset < 2 ^ 64

/-- The fixups of a segment, by offset in the image. -/
def Segment.fixups (g : Segment) : List (ℕ × Fixup) :=
  g.slots.map fun s => (g.offset + s.offset, s.fixup)

/-- The data segment. -/
def FixupInput.data (i : FixupInput) : Segment where
  offset := i.dataSegmentVmaddrOffset
  fileSize := i.dataSegmentFilesize
  slots := collectSlots i.laPtrImports.length i.laPtrOffsetInSegment i.tlvThunkOffsets
    i.laPtrImports.length i.dataRebaseTargets

/-- The text segment. -/
def TextRebaseScope.segment (r : TextRebaseScope) : Segment where
  offset := r.textSegmentVmaddrOffset
  fileSize := r.textSegmentVmsize
  slots := collectSlots 0 0 [] 0 r.rebaseTargets

/-- The fixups of an image. -/
def FixupInput.fixups (i : FixupInput) : List (ℕ × Fixup) :=
  i.data.fixups ++ (i.textRebase.map fun r => r.segment.fixups).getD []

/-- The segment at an index, if it has a page in the file. -/
def FixupInput.segmentAt (i : FixupInput) (seg : ℕ) : Option Segment :=
  if seg = i.dataSegIdx then if 0 < i.dataSegmentFilesize then some i.data else none
  else (i.textRebase.filter fun r => r.textSegIdx = seg).map (·.segment)

/-- The segments that have a record in the blob. -/
def FixupInput.segments (i : FixupInput) : List Segment :=
  (List.range i.segCount).filterMap i.segmentAt

/-- What `build_chained_fixups` is called for. -/
structure FixupInput.Encodable (i : FixupInput) : Prop where
  data : i.data.Fits
  text : ∀ r ∈ i.textRebase, r.segment.Fits
  dataIdx : i.dataSegIdx < i.segCount
  textIdx : ∀ r ∈ i.textRebase, r.textSegIdx < i.segCount ∧ r.textSegIdx ≠ i.dataSegIdx
  apart : ∀ r ∈ i.textRebase, ∀ s ∈ i.data.slots, ∀ t ∈ r.segment.slots,
    i.dataSegmentVmaddrOffset + s.offset ≠ r.textSegmentVmaddrOffset + t.offset
  offsets : 4 + 4 * i.segCount + (22 + 2 * pageCount i.dataSegmentFilesize) < 2 ^ 32

/-- A record of the blob describes a segment; a page without slots is marked. -/
structure Describes (r : SegmentStarts) (g : Segment) : Prop where
  size : r.size = pageSize
  pointerFormat : r.pointerFormat = dyldChainedPtr64Offset
  segmentOffset : r.segmentOffset = g.offset
  length : r.pageStarts.length = pageCount g.fileSize
  none_iff : ∀ p < pageCount g.fileSize,
    r.pageStarts[p]? = some dyldChainedPtrStartNone ↔ ∀ s ∈ g.slots, s.page ≠ p

/-! ### Links -/

section Links

variable {k : ℕ}

lemma getLsbD_masked (x : BitVec 64) {n : ℕ} (hn : n ≤ 64) (i : ℕ) :
    (x &&& BitVec.ofNat 64 (2 ^ n - 1)).getLsbD i = (x.getLsbD i && decide (i < n)) := by
  rw [BitVec.getLsbD_and, BitVec.getLsbD_ofNat, Nat.testBit_two_pow_sub_one]
  cases x.getLsbD i with
  | false => rfl
  | true =>
    have : (i < 64 ∧ i < n) ↔ i < n := ⟨fun h => h.2, fun h => ⟨by omega, h⟩⟩
    rw [Bool.true_and, Bool.true_and, ← Bool.decide_and, decide_eq_decide]
    exact this

/-- The bits of the `next` part of a link. -/
lemma getLsbD_nextPart (n : BitVec 32) {i : ℕ} (hi : i < 64) :
    (((n.setWidth 64 &&& 0xFFF) <<< 51 : BitVec 64)).getLsbD i =
      (decide (51 ≤ i ∧ i < 63) && n.getLsbD (i - 51)) := by
  have hmask := getLsbD_masked (n.setWidth 64) (n := 12) (by omega)
  change ∀ i, (n.setWidth 64 &&& 0xFFF).getLsbD i = _ at hmask
  rw [BitVec.getLsbD_shiftLeft, hmask, BitVec.getLsbD_setWidth]
  by_cases h51 : i < 51
  · simp [h51, show ¬ (51 ≤ i ∧ i < 63) by omega]
  · by_cases h63 : i < 63
    · simp [h51, hi, show 51 ≤ i ∧ i < 63 by omega, show i - 51 < 64 by omega,
        show i - 51 < 12 by omega]
    · simp [show ¬ (51 ≤ i ∧ i < 63) by omega, show ¬ i - 51 < 12 by omega]

lemma getLsbD_bindLink (o n : BitVec 32) {i : ℕ} (hi : i < 64) :
    (encodeBindLink o n 0).getLsbD i =
      (decide (i < 24) && o.getLsbD i || decide (51 ≤ i ∧ i < 63) && n.getLsbD (i - 51) ||
        decide (i = 63)) := by
  have hordinal := getLsbD_masked (o.setWidth 64) (n := 24) (by omega)
  change ∀ i, (o.setWidth 64 &&& 0xFFFFFF).getLsbD i = _ at hordinal
  have haddend : ((0 : BitVec 8).setWidth 64 &&& 0xFF) <<< 24 = (0 : BitVec 64) := by decide
  have hbind : ((1 : BitVec 64) <<< 63).getLsbD i = decide (i = 63) := by
    have hall : ∀ j : Fin 64, ((1 : BitVec 64) <<< 63).getLsbD j = decide (j.val = 63) := by
      decide
    exact hall ⟨i, hi⟩
  unfold encodeBindLink
  dsimp only
  rw [haddend, BitVec.getLsbD_or, BitVec.getLsbD_or, BitVec.getLsbD_or, hbind,
    getLsbD_nextPart n hi, hordinal, BitVec.getLsbD_setWidth]
  simp [hi, Bool.and_comm]

lemma getLsbD_rebaseLink (t : BitVec 64) (n : BitVec 32) {i : ℕ} (hi : i < 64) :
    (encodeRebaseLink t n 0).getLsbD i =
      (decide (i < 36) && t.getLsbD i || decide (51 ≤ i ∧ i < 63) && n.getLsbD (i - 51)) := by
  have htarget := getLsbD_masked t (n := 36) (by omega)
  change ∀ i, (t &&& 0xFFFFFFFFF).getLsbD i = _ at htarget
  have hhigh : ((0 : BitVec 8).setWidth 64 &&& 0xFF) <<< 36 = (0 : BitVec 64) := by decide
  unfold encodeRebaseLink
  dsimp only
  rw [hhigh, BitVec.getLsbD_or, BitVec.getLsbD_or, getLsbD_nextPart n hi, htarget]
  simp [Bool.and_comm]

/-- A field of a word whose bits are those of a number. -/
lemma toNat_extract {w : BitVec 64} {start width k : ℕ} (hk : k < 2 ^ width)
    (h : ∀ j < width, w.getLsbD (start + j) = k.testBit j) :
    (w.extractLsb' start width).toNat = k := by
  have heq : w.extractLsb' start width = BitVec.ofNat width k := by
    apply BitVec.eq_of_getLsbD_eq
    intro j hj
    rw [BitVec.getLsbD_extractLsb', BitVec.getLsbD_ofNat, h j hj]
  rw [heq, BitVec.toNat_ofNat, Nat.mod_eq_of_lt hk]

/-- **The next field is not truncated.** -/
lemma nextField_encodeLink (s : Slot) (hk : k < 2 ^ 12) : nextField (encodeLink s k) = k := by
  have hbit : ∀ j < 12, (BitVec.ofNat 32 k).getLsbD j = k.testBit j := by
    intro j hj
    rw [BitVec.getLsbD_ofNat, decide_eq_true (by omega : j < 32), Bool.true_and]
  unfold nextField
  refine toNat_extract hk fun j hj => ?_
  unfold encodeLink
  split
  · rw [getLsbD_bindLink _ _ (by omega)]
    simp [hbit j hj, show ¬ 51 + j < 24 by omega, show 51 + j < 63 by omega,
      show ¬ 51 + j = 63 by omega]
  · rw [getLsbD_bindLink _ _ (by omega)]
    simp [hbit j hj, show ¬ 51 + j < 24 by omega, show 51 + j < 63 by omega,
      show ¬ 51 + j = 63 by omega]
  · rw [getLsbD_rebaseLink _ _ (by omega)]
    simp [hbit j hj, show ¬ 51 + j < 36 by omega, show 51 + j < 63 by omega]

/-- **A link decodes** to the ordinal or the target of its slot. -/
lemma decodeLink_encodeLink {s : Slot} (hs : s.InRange) (k : ℕ) :
    decodeLink (encodeLink s k) = s.fixup := by
  have hzero : ∀ j, (0 : ℕ).testBit j = false := Nat.zero_testBit
  have hbind : ∀ o : ℕ, o < 2 ^ 24 →
      decodeLink (encodeBindLink (BitVec.ofNat 32 o) (BitVec.ofNat 32 k) 0) = .bind o 0 := by
    intro o ho
    have hordinal : ((encodeBindLink (BitVec.ofNat 32 o) (BitVec.ofNat 32 k) 0).extractLsb' 0
        24).toNat = o := by
      refine toNat_extract ho fun j hj => ?_
      rw [Nat.zero_add, getLsbD_bindLink _ _ (by omega), BitVec.getLsbD_ofNat]
      simp [hj, show j < 32 by omega, show ¬ 51 ≤ j by omega, show ¬ j = 63 by omega]
    have haddend : ((encodeBindLink (BitVec.ofNat 32 o) (BitVec.ofNat 32 k) 0).extractLsb' 24
        8).toNat = 0 := by
      refine toNat_extract (by norm_num) fun j hj => ?_
      rw [getLsbD_bindLink _ _ (by omega), hzero]
      simp [show ¬ 51 ≤ 24 + j by omega, show ¬ 24 + j = 63 by omega]
    rw [decodeLink, getLsbD_bindLink _ _ (by omega), hordinal, haddend]
    simp
  obtain ⟨offset, payload, kind⟩ := s
  cases kind with
  | laPtr i => exact hbind payload hs
  | tlvThunk i => exact hbind payload hs
  | rebase i =>
    have htarget : ((encodeRebaseLink (BitVec.ofNat 64 payload) (BitVec.ofNat 32 k)
        0).extractLsb' 0 36).toNat = payload := by
      refine toNat_extract hs fun j hj => ?_
      rw [Nat.zero_add, getLsbD_rebaseLink _ _ (by omega), BitVec.getLsbD_ofNat]
      simp [hj, show j < 64 by omega, show ¬ 51 ≤ j by omega]
    have hhigh : ((encodeRebaseLink (BitVec.ofNat 64 payload) (BitVec.ofNat 32 k)
        0).extractLsb' 36 8).toNat = 0 := by
      refine toNat_extract (by norm_num) fun j hj => ?_
      rw [getLsbD_rebaseLink _ _ (by omega), hzero]
      simp [show ¬ 51 ≤ 36 + j by omega]
    change decodeLink (encodeRebaseLink (BitVec.ofNat 64 payload) (BitVec.ofNat 32 k) 0) =
      .rebase payload 0
    rw [decodeLink, getLsbD_rebaseLink _ _ (by omega), htarget, hhigh]
    simp

end Links

/-! ### Chains -/

section Chains

variable {l : List Slot}

/-- Slots in the order of their offsets. -/
def Ascending (l : List Slot) : Prop := l.Pairwise fun s t => s.offset < t.offset

lemma Ascending.page_le (h : Ascending l) : l.Pairwise fun s t => s.page ≤ t.page :=
  h.imp fun hlt => Nat.div_le_div_right hlt.le

/-- Of slots in order, the first bucket is the slots of its page. -/
lemma takeWhile_page {s : Slot} (h : Ascending (s :: l)) :
    (l.takeWhile fun t => t.page = s.page) = l.filter fun t => t.page = s.page := by
  induction l with
  | nil => rfl
  | cons t l ih =>
    have hs := (List.pairwise_cons.mp h.page_le).1
    by_cases hpage : t.page = s.page
    · rw [List.takeWhile_cons_of_pos (by exact decide_eq_true hpage),
        List.filter_cons_of_pos (by exact decide_eq_true hpage), ih]
      exact h.sublist (List.Sublist.cons_cons s (List.sublist_cons_self t l))
    · rw [List.takeWhile_cons_of_neg (by simpa using hpage)]
      refine (List.filter_eq_nil_iff.mpr fun u hu => ?_).symm
      have hle : t.page ≤ u.page := by
        rcases List.mem_cons.mp hu with rfl | hu
        · exact le_rfl
        · exact (List.pairwise_cons.mp (List.pairwise_cons.mp h.page_le).2).1 u hu
      have hlt : s.page < t.page := lt_of_le_of_ne (hs t List.mem_cons_self) (Ne.symm hpage)
      simp only [decide_eq_true_eq]
      omega

/-- What is left behind the first bucket is on later pages. -/
lemma page_dropWhile {s u : Slot} (h : Ascending (s :: l))
    (hu : u ∈ l.dropWhile fun t => t.page = s.page) : s.page < u.page := by
  induction l with
  | nil => cases hu
  | cons t l ih =>
    by_cases hpage : t.page = s.page
    · rw [List.dropWhile_cons_of_pos (by exact decide_eq_true hpage)] at hu
      exact ih (h.sublist (List.Sublist.cons_cons s (List.sublist_cons_self t l))) hu
    · rw [List.dropWhile_cons_of_neg (by simpa using hpage)] at hu
      have hlt : s.page < t.page :=
        lt_of_le_of_ne ((List.pairwise_cons.mp h.page_le).1 t List.mem_cons_self) (Ne.symm hpage)
      rcases List.mem_cons.mp hu with rfl | hu
      · exact hlt
      · exact hlt.trans_le
          ((List.pairwise_cons.mp (List.pairwise_cons.mp h.page_le).2).1 u hu)

/-- The slots of a page. -/
def onPage (l : List Slot) (p : ℕ) : List Slot := l.filter fun t => t.page = p

/-- The start of the chain of a page. -/
def startOf (l : List Slot) (p start : ℕ) : ℕ :=
  match onPage l p with
  | [] => start
  | s :: _ => s.offset - p * pageSize

lemma onPage_cons_self {s : Slot} (h : Ascending (s :: l)) :
    onPage (s :: l) s.page = s :: l.takeWhile fun t => t.page = s.page := by
  rw [takeWhile_page h]
  exact List.filter_cons_of_pos (decide_eq_true rfl)

lemma onPage_cons_ne {s : Slot} (h : Ascending (s :: l)) {p : ℕ} (hp : p ≠ s.page) :
    onPage (s :: l) p = onPage (l.dropWhile fun t => t.page = s.page) p := by
  have hsplit := List.takeWhile_append_dropWhile (p := fun t => decide (t.page = s.page)) (l := l)
  have hnone : (l.takeWhile fun t => t.page = s.page).filter (fun t => t.page = p) = [] := by
    refine List.filter_eq_nil_iff.mpr fun u hu => ?_
    rw [takeWhile_page h] at hu
    have hpage := (List.mem_filter.mp hu).2
    simp only [decide_eq_true_eq] at hpage ⊢
    omega
  unfold onPage
  rw [List.filter_cons_of_neg (by simpa using Ne.symm hp)]
  conv_lhs => rw [← hsplit]
  rw [List.filter_append, hnone, List.nil_append]

lemma onPage_dropWhile_self {s : Slot} (h : Ascending (s :: l)) :
    onPage (l.dropWhile fun t => t.page = s.page) s.page = [] := by
  refine List.filter_eq_nil_iff.mpr fun u hu => ?_
  have := page_dropWhile h hu
  simp only [decide_eq_true_eq]
  omega

lemma Ascending.dropWhile {s : Slot} (h : Ascending (s :: l)) :
    Ascending (l.dropWhile fun t => t.page = s.page) :=
  (List.pairwise_cons.mp h).2.sublist (List.dropWhile_sublist _)

/-- **Each page starts at its first slot**; the others keep their mark. -/
lemma chainPages_starts (pageStarts : List ℕ) (h : Ascending l) (p : ℕ) :
    (chainPages pageStarts l).1[p]? = pageStarts[p]?.map (startOf l p) := by
  induction pageStarts, l using chainPages.induct with
  | case1 pageStarts =>
    rw [chainPages]
    exact Option.map_id'.symm
  | case2 pageStarts s rest starts ih =>
    rw [chainPages]
    dsimp only
    rw [ih h.dropWhile]
    rcases eq_or_ne p s.page with rfl | hp
    · rw [List.getElem?_set_self']
      cases pageStarts[s.page]? with
      | none => rfl
      | some start =>
        simp only [Option.map_eq_map, Option.map_some, startOf, onPage_dropWhile_self h,
          onPage_cons_self h, Function.const_apply]
    · rw [List.getElem?_set_ne (Ne.symm hp)]
      refine Option.map_congr fun start _ => ?_
      rw [startOf, startOf, onPage_cons_ne h hp]

/-- **The links of a page** are those of its slots, in order. -/
lemma chainPages_links (pageStarts : List ℕ) (h : Ascending l) {p : ℕ} {link : Slot × ℕ}
    (hlink : link ∈ strides (onPage l p)) : link ∈ (chainPages pageStarts l).2 := by
  induction pageStarts, l using chainPages.induct with
  | case1 pageStarts => cases hlink
  | case2 pageStarts s rest starts ih =>
    rw [chainPages]
    dsimp only
    rcases eq_or_ne p s.page with rfl | hp
    · rw [onPage_cons_self h] at hlink
      exact List.mem_append_left _ hlink
    · rw [onPage_cons_ne h hp] at hlink
      exact List.mem_append_right _ (ih h.dropWhile hlink)

/-- Every link is one of a page. -/
lemma mem_chainPages (pageStarts : List ℕ) (h : Ascending l) {link : Slot × ℕ}
    (hlink : link ∈ (chainPages pageStarts l).2) : ∃ p, link ∈ strides (onPage l p) := by
  induction pageStarts, l using chainPages.induct with
  | case1 pageStarts =>
    rw [chainPages] at hlink
    cases hlink
  | case2 pageStarts s rest starts ih =>
    rw [chainPages] at hlink
    rcases List.mem_append.mp hlink with hlink | hlink
    · refine ⟨s.page, ?_⟩
      rw [onPage_cons_self h]
      exact hlink
    · obtain ⟨p, hp⟩ := ih h.dropWhile hlink
      have hne : p ≠ s.page := by
        rintro rfl
        rw [onPage_dropWhile_self h] at hp
        cases hp
      refine ⟨p, ?_⟩
      rw [onPage_cons_ne h hne]
      exact hp

lemma map_fst_strides (l : List Slot) : (strides l).map Prod.fst = l := by
  induction l with
  | nil => rfl
  | cons s l ih =>
    cases l with
    | nil => rfl
    | cons t l => rw [strides, List.map_cons, ih]

/-- Each slot has a link. -/
lemma map_fst_chainPages (pageStarts : List ℕ) (l : List Slot) :
    (chainPages pageStarts l).2.map Prod.fst = l := by
  induction pageStarts, l using chainPages.induct with
  | case1 pageStarts => rw [chainPages]; rfl
  | case2 pageStarts s rest starts ih =>
    rw [chainPages]
    dsimp only
    rw [List.map_append, map_fst_strides, ih, List.cons_append, List.takeWhile_append_dropWhile]

lemma mem_onPage {s : Slot} {p : ℕ} : s ∈ onPage l p ↔ s ∈ l ∧ s.page = p := by
  rw [onPage, List.mem_filter, decide_eq_true_eq]

/-- The offsets of a page. -/
lemma page_eq_iff (s : Slot) (p : ℕ) :
    s.page = p ↔ p * pageSize ≤ s.offset ∧ s.offset < (p + 1) * pageSize := by
  have hpos : 0 < pageSize := by decide
  rw [Slot.page, Nat.div_eq_iff hpos, Nat.add_mul, Nat.one_mul]
  omega

/-- Two slots of a page that follow one another are an exact distance apart, which the field of the
next link can hold. -/
lemma stride_spec {s t : Slot} {p : ℕ} (hs : s.page = p) (ht : t.page = p)
    (hlt : s.offset < t.offset) (has : 8 ∣ s.offset) (hat : 8 ∣ t.offset) :
    4 * ((t.offset - s.offset) / 4) = t.offset - s.offset ∧ 2 ≤ (t.offset - s.offset) / 4 ∧
      (t.offset - s.offset) / 4 < 2 ^ 12 := by
  obtain ⟨hs1, hs2⟩ := (page_eq_iff s p).mp hs
  obtain ⟨ht1, ht2⟩ := (page_eq_iff t p).mp ht
  have hsize : pageSize = 16384 := rfl
  rw [Nat.add_mul, Nat.one_mul] at hs2 ht2
  omega

/-- The slots that a chain is made of. -/
structure OnOnePage (p : ℕ) (b : List Slot) : Prop where
  ascending : Ascending b
  aligned : ∀ s ∈ b, 8 ∣ s.offset
  page : ∀ s ∈ b, s.page = p

lemma OnOnePage.tail {p : ℕ} {s : Slot} {b : List Slot} (h : OnOnePage p (s :: b)) :
    OnOnePage p b where
  ascending := (List.pairwise_cons.mp h.ascending).2
  aligned t ht := h.aligned t (List.mem_cons_of_mem s ht)
  page t ht := h.page t (List.mem_cons_of_mem s ht)

/-- **No stride overflows** its field. -/
lemma OnOnePage.stride_lt {p : ℕ} {b : List Slot} (h : OnOnePage p b) {link : Slot × ℕ}
    (hlink : link ∈ strides b) : link.2 < 2 ^ 12 := by
  induction b with
  | nil => cases hlink
  | cons s b ih =>
    cases b with
    | nil =>
      rw [List.mem_singleton.mp hlink]
      norm_num
    | cons t b =>
      rcases List.mem_cons.mp hlink with rfl | hlink
      · have ht : t ∈ s :: t :: b := List.mem_cons_of_mem s List.mem_cons_self
        exact (stride_spec (h.page s List.mem_cons_self) (h.page t ht)
          ((List.pairwise_cons.mp h.ascending).1 t List.mem_cons_self)
          (h.aligned s List.mem_cons_self) (h.aligned t ht)).2.2
      · exact ih h.tail hlink

/-- **A chain is walked** from its first slot through all of them. -/
lemma walkChain_bucket {image : ℕ → BitVec 64} {base p places : ℕ} {s : Slot} {b : List Slot}
    (h : OnOnePage p (s :: b)) (hrange : ∀ t ∈ s :: b, t.InRange)
    (hheld : ∀ link ∈ strides (s :: b), image (base + link.1.offset) = encodeLink link.1 link.2)
    (hplaces : (p + 1) * pageSize ≤ s.offset + 4 * places) :
    walkChain image places (base + s.offset) =
      some ((s :: b).map fun t => (base + t.offset, t.fixup)) := by
  induction b generalizing s places with
  | nil =>
    obtain ⟨-, hend⟩ := (page_eq_iff s p).mp (h.page s List.mem_cons_self)
    obtain ⟨places, rfl⟩ : ∃ n, places = n + 1 := ⟨places - 1, by omega⟩
    have hlink : image (base + s.offset) = encodeLink s 0 := hheld (s, 0) List.mem_cons_self
    rw [walkChain, hlink, nextField_encodeLink s (by norm_num), if_pos rfl,
      decodeLink_encodeLink (hrange s List.mem_cons_self)]
    rfl
  | cons t b ih =>
    obtain ⟨-, hend⟩ := (page_eq_iff s p).mp (h.page s List.mem_cons_self)
    obtain ⟨places, rfl⟩ : ∃ n, places = n + 1 := ⟨places - 1, by omega⟩
    have ht : t ∈ s :: t :: b := List.mem_cons_of_mem s List.mem_cons_self
    have hlt := (List.pairwise_cons.mp h.ascending).1 t List.mem_cons_self
    obtain ⟨hexact, hpos, hfit⟩ := stride_spec (h.page s List.mem_cons_self) (h.page t ht) hlt
      (h.aligned s List.mem_cons_self) (h.aligned t ht)
    have hlink : image (base + s.offset) = encodeLink s ((t.offset - s.offset) / 4) :=
      hheld (s, (t.offset - s.offset) / 4) List.mem_cons_self
    have hnext : base + s.offset + (t.offset - s.offset) = base + t.offset := by omega
    have hleft : (p + 1) * pageSize ≤ t.offset + 4 * places := by omega
    have hrest := ih h.tail (fun u hu => hrange u (List.mem_cons_of_mem s hu))
      (fun link hlink => hheld link (List.mem_cons_of_mem _ hlink)) hleft
    rw [walkChain, hlink, nextField_encodeLink s hfit, if_neg (by omega),
      decodeLink_encodeLink (hrange s List.mem_cons_self), hexact, hnext, hrest]
    rfl

end Chains

/-! ### One segment -/

section OneSegment

/-- Distinct offsets are in order once they are sorted. -/
lemma ascending_sortSlots {slots : List Slot} (h : (slots.map (·.offset)).Nodup) :
    Ascending (sortSlots slots) := by
  have hperm : (sortSlots slots).Perm slots := List.mergeSort_perm slots _
  have hle : (sortSlots slots).Pairwise fun s t => s.offset ≤ t.offset := by
    refine (List.pairwise_mergeSort ?_ ?_ slots).imp fun hst => by simpa using hst
    · intro a b c hab hbc
      simp only [decide_eq_true_eq] at hab hbc ⊢
      omega
    · intro a b
      simp only [Bool.or_eq_true, decide_eq_true_eq]
      omega
  have hne : (sortSlots slots).Pairwise fun s t => s.offset ≠ t.offset :=
    List.pairwise_map.mp ((hperm.map _).nodup_iff.mpr h)
  exact (hle.and hne).imp fun hst => lt_of_le_of_ne hst.1 hst.2

lemma mem_sortSlots {slots : List Slot} {s : Slot} : s ∈ sortSlots slots ↔ s ∈ slots :=
  (List.mergeSort_perm slots _).mem_iff

/-- **The pages of a segment are walked**, each from its start. -/
lemma walkPages_spec {image : ℕ → BitVec 64} {base : ℕ} {l : List Slot} (hasc : Ascending l)
    (haligned : ∀ s ∈ l, 8 ∣ s.offset) (hrange : ∀ s ∈ l, s.InRange)
    (hheld : ∀ p, ∀ link ∈ strides (onPage l p),
      image (base + link.1.offset) = encodeLink link.1 link.2)
    (starts : List ℕ) (page : ℕ)
    (hstarts : ∀ q start, starts[q]? = some start →
      start = startOf l (page + q) dyldChainedPtrStartNone) :
    walkPages image base pageSize page starts =
      some ((List.range' page starts.length).flatMap fun p =>
        (onPage l p).map fun t => (base + t.offset, t.fixup)) := by
  induction starts generalizing page with
  | nil => rfl
  | cons start starts ih =>
    have hrest := ih (page + 1) fun q x hq => by
      rw [Nat.add_assoc, Nat.add_comm 1 q]
      exact hstarts (q + 1) x hq
    have hstart : start = startOf l page dyldChainedPtrStartNone := hstarts 0 start rfl
    have hrange' : List.range' page (start :: starts).length =
        page :: List.range' (page + 1) starts.length := rfl
    rw [walkPages, hrest, hrange', List.flatMap_cons]
    cases hpage : onPage l page with
    | nil =>
      rw [startOf, hpage] at hstart
      rw [if_pos hstart]
      rfl
    | cons s b =>
      rw [startOf, hpage] at hstart
      dsimp only at hstart
      have hone : OnOnePage page (s :: b) := by
        rw [← hpage]
        exact ⟨hasc.sublist List.filter_sublist, fun t ht => haligned t (mem_onPage.mp ht).1,
          fun t ht => (mem_onPage.mp ht).2⟩
      obtain ⟨hlow, hhigh⟩ := (page_eq_iff s page).mp (hone.page s List.mem_cons_self)
      have hnone : dyldChainedPtrStartNone = 65535 := rfl
      have hsize : pageSize = 16384 := rfl
      have hsum : (page + 1) * pageSize = page * pageSize + pageSize := by
        rw [Nat.add_mul, Nat.one_mul]
      rw [hsum] at hhigh
      have hplaces : (page + 1) * pageSize ≤ s.offset + 4 * (pageSize / 4) := by
        have hfour : 4 * (pageSize / 4) = pageSize := by decide
        rw [hsum, hfour]
        omega
      have haddress : base + page * pageSize + start = base + s.offset := by omega
      have hchain := walkChain_bucket hone
        (fun t ht => hrange t (mem_onPage.mp (hpage ▸ ht)).1)
        (fun link hlink => hheld page link (hpage ▸ hlink)) hplaces
      rw [if_neg (by omega), if_neg (by omega), haddress, hchain]
      rfl

/-- The pages together hold every slot. -/
lemma flatMap_onPage_perm {l : List Slot} (hasc : Ascending l) {n : ℕ} (hpages : ∀ s ∈ l, s.page < n) :
    ((List.range' 0 n).flatMap (onPage l)).Perm l := by
  have hnodup : l.Nodup := hasc.imp fun hlt heq => by
    rw [heq] at hlt
    exact lt_irrefl _ hlt
  rw [List.perm_ext_iff_of_nodup ?_ hnodup]
  · intro s
    rw [List.mem_flatMap]
    constructor
    · rintro ⟨p, -, hs⟩
      exact (mem_onPage.mp hs).1
    · intro hs
      refine ⟨s.page, ?_, mem_onPage.mpr ⟨hs, rfl⟩⟩
      rw [← List.range_eq_range', List.mem_range]
      exact hpages s hs
  · rw [List.nodup_flatMap, ← List.range_eq_range']
    refine ⟨fun p _ => hnodup.filter _, List.nodup_range.imp fun hpq => ?_⟩
    intro s hs ht
    exact hpq ((mem_onPage.mp hs).2.symm.trans (mem_onPage.mp ht).2)

/-- The table of a segment, as it is written. -/
def Segment.starts (g : Segment) : List ℕ := (chainSegment g.fileSize g.slots).1

/-- The links of a segment. -/
def Segment.links (g : Segment) : List (Slot × ℕ) := (chainSegment g.fileSize g.slots).2

variable {g : Segment}

lemma Segment.Fits.getElem_starts (h : g.Fits) (p : ℕ) : g.starts[p]? =
    if p < pageCount g.fileSize then
      some (startOf (sortSlots g.slots) p dyldChainedPtrStartNone) else none := by
  rw [Segment.starts, chainSegment, chainPages_starts _ (ascending_sortSlots h.distinct),
    List.getElem?_replicate]
  split_ifs
  · rfl
  · rfl

lemma Segment.Fits.length_starts (h : g.Fits) : g.starts.length = pageCount g.fileSize := by
  have hout := h.getElem_starts (pageCount g.fileSize)
  rw [if_neg (lt_irrefl _), List.getElem?_eq_none_iff] at hout
  refine le_antisymm hout (Nat.le_of_not_lt fun hlt => ?_)
  have hin := h.getElem_starts g.starts.length
  rw [if_pos hlt, List.getElem?_eq_none_iff.mpr le_rfl] at hin
  cases hin

/-- A start fits its field. -/
lemma Segment.Fits.start_lt (h : g.Fits) {start : ℕ} (hstart : start ∈ g.starts) :
    start < 2 ^ 16 := by
  obtain ⟨p, hp⟩ := List.getElem?_of_mem hstart
  rw [h.getElem_starts] at hp
  rw [← Option.some.inj (Option.ite_none_right_eq_some.mp hp).2, startOf]
  cases hpage : onPage (sortSlots g.slots) p with
  | nil => exact (by decide : dyldChainedPtrStartNone < 2 ^ 16)
  | cons s b =>
    have hmem : s ∈ onPage (sortSlots g.slots) p := hpage ▸ List.mem_cons_self
    obtain ⟨-, hhigh⟩ := (page_eq_iff s p).mp (mem_onPage.mp hmem).2
    have hsize : pageSize = 16384 := rfl
    rw [Nat.add_mul, Nat.one_mul] at hhigh
    dsimp only
    omega

/-- The record that describes a segment. -/
def Segment.record (g : Segment) : SegmentStarts where
  size := pageSize
  pointerFormat := dyldChainedPtr64Offset
  segmentOffset := g.offset
  pageStarts := g.starts

/-- **A page without slots is marked**, and no other. -/
lemma Segment.Fits.describes (h : g.Fits) : Describes g.record g where
  size := rfl
  pointerFormat := rfl
  segmentOffset := rfl
  length := h.length_starts
  none_iff p hp := by
    change g.starts[p]? = _ ↔ _
    rw [h.getElem_starts, if_pos hp, Option.some.injEq, startOf]
    cases hpage : onPage (sortSlots g.slots) p with
    | nil =>
      refine iff_of_true rfl fun s hs hsp => ?_
      have hmem : s ∈ onPage (sortSlots g.slots) p := mem_onPage.mpr ⟨mem_sortSlots.mpr hs, hsp⟩
      rw [hpage] at hmem
      cases hmem
    | cons s b =>
      have hmem : s ∈ onPage (sortSlots g.slots) p := hpage ▸ List.mem_cons_self
      obtain ⟨hs, hsp⟩ := mem_onPage.mp hmem
      obtain ⟨-, hhigh⟩ := (page_eq_iff s p).mp hsp
      have hsize : pageSize = 16384 := rfl
      have hnone : dyldChainedPtrStartNone = 65535 := rfl
      rw [Nat.add_mul, Nat.one_mul] at hhigh
      refine iff_of_false ?_ fun hall => hall s (mem_sortSlots.mp hs) hsp
      dsimp only
      omega

/-- **A segment is walked**: every slot is visited once, and found to be what it is. -/
lemma Segment.Fits.walk (h : g.Fits) {image : ℕ → BitVec 64}
    (hheld : ∀ link ∈ g.links, image (g.offset + link.1.offset) = encodeLink link.1 link.2) :
    ∃ visited, walkPages image g.offset pageSize 0 g.starts = some visited ∧
      visited.Perm g.fixups := by
  have hasc := ascending_sortSlots h.distinct
  have hwalk : walkPages image g.offset pageSize 0 g.starts = _ := walkPages_spec hasc
    (fun s hs => h.aligned s (mem_sortSlots.mp hs))
    (fun s hs => h.inRange s (mem_sortSlots.mp hs))
    (fun p link hlink => hheld link (chainPages_links _ hasc hlink)) g.starts 0
    (fun q start hq => by
      rw [h.getElem_starts] at hq
      rw [Nat.zero_add]
      exact (Option.some.inj (Option.ite_none_right_eq_some.mp hq).2).symm)
  refine ⟨_, hwalk, ?_⟩
  rw [h.length_starts, ← List.map_flatMap]
  have hpages := flatMap_onPage_perm hasc (n := pageCount g.fileSize)
    fun s hs => h.inFile s (mem_sortSlots.mp hs)
  exact (hpages.map _).trans ((List.mergeSort_perm g.slots _).map _)

/-- **No next field is truncated.** -/
lemma Segment.Fits.stride_lt (h : g.Fits) {link : Slot × ℕ} (hlink : link ∈ g.links) :
    link.2 < 2 ^ 12 := by
  have hasc := ascending_sortSlots h.distinct
  obtain ⟨p, hp⟩ := mem_chainPages _ hasc hlink
  have hone : OnOnePage p (onPage (sortSlots g.slots) p) :=
    ⟨hasc.sublist List.filter_sublist,
      fun t ht => h.aligned t (mem_sortSlots.mp (mem_onPage.mp ht).1),
      fun t ht => (mem_onPage.mp ht).2⟩
  exact hone.stride_lt hp

end OneSegment

/-! ### The emit pass -/

section Emit

variable {n : ℕ} {index : SlotKind → Option ℕ} {links : List (Slot × ℕ)}

lemma length_linkValues (n : ℕ) (index : SlotKind → Option ℕ) (links : List (Slot × ℕ)) :
    (linkValues n index links).length = n := by
  have hfold : ∀ values, (links.foldl (setLink index) values).length = values.length := by
    induction links with
    | nil => exact fun values => rfl
    | cons link links ih =>
      intro values
      rw [List.foldl_cons, ih, setLink]
      cases index link.1.kind with
      | none => rfl
      | some i => exact List.length_set
  rw [linkValues, hfold, List.length_replicate]

/-- **The links are returned** at the index of their slot. -/
lemma getElem_linkValues {i : ℕ} (hi : i < n) {link : Slot × ℕ} (hlink : link ∈ links)
    (hindex : index link.1.kind = some i)
    (honly : ∀ other ∈ links, index other.1.kind = some i → other = link) :
    (linkValues n index links)[i]? = some (encodeLink link.1 link.2) := by
  have hfold : ∀ values : List (BitVec 64), i < values.length →
      (values[i]? = some (encodeLink link.1 link.2) ∨ link ∈ links) →
      (links.foldl (setLink index) values)[i]? = some (encodeLink link.1 link.2) := by
    clear hlink
    induction links with
    | nil => exact fun values _ h => h.resolve_right List.not_mem_nil
    | cons other links ih =>
      intro values hlen hheld
      rw [List.foldl_cons, setLink]
      have honly' := fun x hx => honly x (List.mem_cons_of_mem other hx)
      cases hother : index other.1.kind with
      | none =>
        refine ih honly' values hlen (hheld.imp_right fun hmem => ?_)
        refine (List.mem_cons.mp hmem).resolve_left fun heq => ?_
        rw [← heq, hindex] at hother
        cases hother
      | some j =>
        refine ih honly' _ (by rw [List.length_set]; exact hlen) ?_
        rcases eq_or_ne j i with rfl | hne
        · rw [honly other List.mem_cons_self hother]
          exact Or.inl (List.getElem?_set_self hlen)
        · rcases hheld with hheld | hmem
          · exact Or.inl ((List.getElem?_set_ne hne).trans hheld)
          · refine Or.inr ((List.mem_cons.mp hmem).resolve_left fun heq => hne ?_)
            rw [← heq, hindex] at hother
            exact (Option.some.inj hother).symm
  exact hfold _ (by rw [List.length_replicate]; exact hi) (Or.inr hlink)

/-- The slots that are collected, by kind. -/
lemma mem_collectSlots {count la ordinal : ℕ} {tlv : List ℕ} {rebases : List (ℕ × ℕ)} {s : Slot} :
    s ∈ collectSlots count la tlv ordinal rebases ↔
      (∃ i < count, s = ⟨la + i * 8, i, .laPtr i⟩) ∨
      (∃ i off, tlv[i]? = some off ∧ s = ⟨off, ordinal, .tlvThunk i⟩) ∨
      ∃ i t, rebases[i]? = some t ∧ s = ⟨t.1, t.2, .rebase i⟩ := by
  rw [collectSlots, List.mem_append, List.mem_append, List.mem_map, List.mem_map, List.mem_map,
    or_assoc]
  refine or_congr ?_ (or_congr ?_ ?_)
  · exact exists_congr fun i => and_congr List.mem_range eq_comm
  · constructor
    · rintro ⟨⟨off, i⟩, hmem, rfl⟩
      exact ⟨i, off, List.mem_zipIdx_iff_getElem?.mp hmem, rfl⟩
    · rintro ⟨i, off, hoff, rfl⟩
      exact ⟨(off, i), List.mem_zipIdx_iff_getElem?.mpr hoff, rfl⟩
  · constructor
    · rintro ⟨⟨t, i⟩, hmem, rfl⟩
      exact ⟨i, t, List.mem_zipIdx_iff_getElem?.mp hmem, rfl⟩
    · rintro ⟨i, t, ht, rfl⟩
      exact ⟨(t, i), List.mem_zipIdx_iff_getElem?.mpr ht, rfl⟩

/-- A kind belongs to one slot. -/
lemma eq_of_kind_eq {count la ordinal : ℕ} {tlv : List ℕ} {rebases : List (ℕ × ℕ)} {s t : Slot}
    (hs : s ∈ collectSlots count la tlv ordinal rebases)
    (ht : t ∈ collectSlots count la tlv ordinal rebases) (hkind : s.kind = t.kind) : s = t := by
  rcases mem_collectSlots.mp hs with ⟨i, -, rfl⟩ | ⟨i, a, ha, rfl⟩ | ⟨i, a, ha, rfl⟩ <;>
    rcases mem_collectSlots.mp ht with ⟨j, -, rfl⟩ | ⟨j, b, hb, rfl⟩ | ⟨j, b, hb, rfl⟩ <;>
    first
    | exact SlotKind.noConfusion hkind
    | skip
  · rw [SlotKind.laPtr.inj hkind]
  · cases SlotKind.tlvThunk.inj hkind
    rw [Option.some.inj (ha.symm.trans hb)]
  · cases SlotKind.rebase.inj hkind
    rw [Option.some.inj (ha.symm.trans hb)]

lemma map_offset_collectSlots (count la ordinal : ℕ) (tlv : List ℕ) (rebases : List (ℕ × ℕ)) :
    (collectSlots count la tlv ordinal rebases).map (·.offset) =
      (List.range count).map (fun k => la + k * 8) ++ tlv ++ rebases.map Prod.fst := by
  have htlv : tlv.zipIdx.map Prod.fst = tlv := List.zipIdx_map_fst 0 tlv
  have hrebases : rebases.zipIdx.map (fun t => t.1.1) = rebases.map Prod.fst := by
    have htwice : rebases.zipIdx.map (fun t => t.1.1) =
        (rebases.zipIdx.map Prod.fst).map Prod.fst := List.map_map.symm
    rw [htwice, List.zipIdx_map_fst]
  rw [collectSlots, List.map_append, List.map_append, List.map_map, List.map_map, List.map_map]
  exact congrArg₂ _ (congrArg₂ _ rfl htlv) hrebases

lemma mem_place {segment i off : ℕ} {offsets : List ℕ} {values : List (BitVec 64)}
    {v : BitVec 64} (hoff : offsets[i]? = some off) (hv : values[i]? = some v) :
    (segment + off, v) ∈ place segment offsets values := by
  refine List.mem_of_getElem? (i := i) ?_
  rw [place, List.getElem?_zip_eq_some]
  refine ⟨?_, hv⟩
  rw [List.getElem?_map, hoff]
  rfl

lemma map_fst_place {segment : ℕ} {offsets : List ℕ} {values : List (BitVec 64)}
    (h : values.length = offsets.length) :
    (place segment offsets values).map Prod.fst = offsets.map (segment + ·) := by
  rw [place, List.map_fst_zip]
  rw [List.length_map, h]

/-- **What is written once is held.** -/
lemma foldl_update_of_mem {writes : List (ℕ × BitVec 64)} (hnodup : (writes.map Prod.fst).Nodup)
    {a : ℕ} {v : BitVec 64} (hmem : (a, v) ∈ writes) (image : ℕ → BitVec 64) :
    writes.foldl (fun image w => Function.update image w.1 w.2) image a = v := by
  have hkeep : ∀ (writes : List (ℕ × BitVec 64)) (image : ℕ → BitVec 64),
      a ∉ writes.map Prod.fst →
      writes.foldl (fun image w => Function.update image w.1 w.2) image a = image a := by
    intro writes
    induction writes with
    | nil => exact fun image _ => rfl
    | cons w writes ih =>
      intro image hnot
      rw [List.map_cons, List.mem_cons, not_or] at hnot
      rw [List.foldl_cons, ih _ hnot.2, Function.update_of_ne hnot.1]
  induction writes generalizing image with
  | nil => cases hmem
  | cons w writes ih =>
    rw [List.map_cons, List.nodup_cons] at hnodup
    rw [List.foldl_cons]
    rcases List.mem_cons.mp hmem with rfl | hmem
    · rw [hkeep writes _ hnodup.1]
      exact Function.update_self _ _ _
    · exact ih hnodup.2 hmem _

end Emit

section Image

/-- The links of a segment are those of its slots. -/
lemma Segment.mem_of_link {g : Segment} {link : Slot × ℕ} (hlink : link ∈ g.links) :
    link.1 ∈ g.slots := by
  have hmem : link.1 ∈ g.links.map Prod.fst := List.mem_map_of_mem hlink
  rw [Segment.links, chainSegment, map_fst_chainPages] at hmem
  exact mem_sortSlots.mp hmem

/-- A slot has one link. -/
lemma Segment.Fits.link_unique {g : Segment} (h : g.Fits) {link other : Slot × ℕ}
    (hlink : link ∈ g.links) (hother : other ∈ g.links) (heq : other.1 = link.1) :
    other = link := by
  have hnodup : (g.links.map Prod.fst).Nodup := by
    rw [Segment.links, chainSegment, map_fst_chainPages]
    exact (ascending_sortSlots h.distinct).imp fun hlt heq => by
      rw [heq] at hlt
      exact lt_irrefl _ hlt
  exact List.inj_on_of_nodup_map hnodup hother hlink heq

lemma SlotKind.eq_of_laPtr? {k : SlotKind} {i : ℕ} (h : k.laPtr? = some i) : k = .laPtr i := by
  cases k with
  | laPtr j => rw [Option.some.inj h]
  | tlvThunk j => cases h
  | rebase j => cases h

lemma SlotKind.eq_of_tlvThunk? {k : SlotKind} {i : ℕ} (h : k.tlvThunk? = some i) :
    k = .tlvThunk i := by
  cases k with
  | laPtr j => cases h
  | tlvThunk j => rw [Option.some.inj h]
  | rebase j => cases h

lemma SlotKind.eq_of_rebase? {k : SlotKind} {i : ℕ} (h : k.rebase? = some i) : k = .rebase i := by
  cases k with
  | laPtr j => cases h
  | tlvThunk j => cases h
  | rebase j => rw [Option.some.inj h]

/-- **What is returned for a segment**, put at the offsets it was asked for, is its links. -/
lemma mem_places {count la base size ordinal : ℕ} {tlv : List ℕ} {rebases : List (ℕ × ℕ)}
    {g : Segment} (hg : g = ⟨base, size, collectSlots count la tlv ordinal rebases⟩) (h : g.Fits)
    {link : Slot × ℕ} (hlink : link ∈ g.links) :
    let built := buildStartsInSegment count la base size tlv ordinal rebases
    (g.offset + link.1.offset, encodeLink link.1 link.2) ∈
      place base ((List.range count).map fun k => la + k * 8) built.laPtrSlotValues ++
        place base tlv built.tlvThunkLinkValues ++
        place base (rebases.map Prod.fst) built.rebaseLinkValues := by
  subst hg
  intro built
  have hmem := Segment.mem_of_link hlink
  have honly : ∀ other ∈ Segment.links _, other.1.kind = link.1.kind → other = link :=
    fun other hother hkind =>
      h.link_unique hlink hother (eq_of_kind_eq (Segment.mem_of_link hother) hmem hkind)
  rw [List.append_assoc, List.mem_append, List.mem_append]
  rcases mem_collectSlots.mp hmem with ⟨k, hk, hs⟩ | ⟨k, off, hoff, hs⟩ | ⟨k, t, ht, hs⟩
  · have hkind : link.1.kind = .laPtr k := by rw [hs]
    have hoffset : ((List.range count).map fun k => la + k * 8)[k]? = some link.1.offset := by
      rw [List.getElem?_map, List.getElem?_range hk, hs]
      rfl
    refine Or.inl (mem_place hoffset (getElem_linkValues hk hlink (by rw [hkind]; rfl) ?_))
    exact fun other hother hk' => honly other hother
      ((SlotKind.eq_of_laPtr? hk').trans hkind.symm)
  · have hkind : link.1.kind = .tlvThunk k := by rw [hs]
    have hk : k < tlv.length := (List.getElem?_eq_some_iff.mp hoff).1
    have hoffset : tlv[k]? = some link.1.offset := by
      rw [hoff, hs]
    refine Or.inr (Or.inl (mem_place hoffset (getElem_linkValues hk hlink (by rw [hkind]; rfl) ?_)))
    exact fun other hother hk' => honly other hother
      ((SlotKind.eq_of_tlvThunk? hk').trans hkind.symm)
  · have hkind : link.1.kind = .rebase k := by rw [hs]
    have hk : k < rebases.length := (List.getElem?_eq_some_iff.mp ht).1
    have hoffset : (rebases.map Prod.fst)[k]? = some link.1.offset := by
      rw [List.getElem?_map, ht, hs]
      rfl
    refine Or.inr (Or.inr (mem_place hoffset (getElem_linkValues hk hlink (by rw [hkind]; rfl) ?_)))
    exact fun other hother hk' => honly other hother
      ((SlotKind.eq_of_rebase? hk').trans hkind.symm)

/-- The addresses that the places of a segment write to. -/
lemma map_fst_places (count la base size ordinal : ℕ) (tlv : List ℕ) (rebases : List (ℕ × ℕ)) :
    let built := buildStartsInSegment count la base size tlv ordinal rebases
    (place base ((List.range count).map fun k => la + k * 8) built.laPtrSlotValues ++
        place base tlv built.tlvThunkLinkValues ++
        place base (rebases.map Prod.fst) built.rebaseLinkValues).map Prod.fst =
      (collectSlots count la tlv ordinal rebases).map fun s => base + s.offset := by
  intro built
  have htwice : ((collectSlots count la tlv ordinal rebases).map fun s => base + s.offset) =
      ((collectSlots count la tlv ordinal rebases).map (·.offset)).map (base + ·) :=
    List.map_map.symm
  rw [htwice, map_offset_collectSlots, List.map_append, List.map_append, List.map_append,
    List.map_append, map_fst_place, map_fst_place, map_fst_place]
  · exact (length_linkValues _ _ _).trans (List.length_map _).symm
  · exact length_linkValues _ _ _
  · refine (length_linkValues _ _ _).trans ?_
    rw [List.length_map, List.length_range]

/-- A segment without a page in the file has no slots. -/
lemma Segment.Fits.slots_eq_nil {g : Segment} (h : g.Fits) (hsize : g.fileSize = 0) :
    g.slots = [] := by
  refine List.eq_nil_iff_forall_not_mem.mpr fun s hs => ?_
  have hpage := h.inFile s hs
  rw [hsize] at hpage
  exact absurd hpage (Nat.not_lt_zero _)

variable {i : FixupInput}

lemma dataStarts_of_pos (h : 0 < i.dataSegmentFilesize) :
    i.dataStarts = some (buildStartsInSegment i.laPtrImports.length i.laPtrOffsetInSegment
      i.dataSegmentVmaddrOffset i.dataSegmentFilesize i.tlvThunkOffsets i.laPtrImports.length
      i.dataRebaseTargets) := if_pos h

/-- What is written to the data segment. -/
def FixupInput.dataWrites (i : FixupInput) : List (ℕ × BitVec 64) :=
  place i.dataSegmentVmaddrOffset
      ((List.range i.laPtrImports.length).map fun k => i.laPtrOffsetInSegment + k * 8)
      (buildChainedFixups i).laPtrSlotValues ++
    place i.dataSegmentVmaddrOffset i.tlvThunkOffsets (buildChainedFixups i).tlvThunkLinkValues ++
    place i.dataSegmentVmaddrOffset (i.dataRebaseTargets.map Prod.fst)
      (buildChainedFixups i).dataRebaseLinkValues

lemma dataWrites_of_zero (h : i.dataSegmentFilesize = 0) : i.dataWrites = [] := by
  have hstarts : i.dataStarts = none := if_neg (by omega)
  unfold FixupInput.dataWrites buildChainedFixups place
  dsimp only
  rw [hstarts]
  simp only [Option.map_none, Option.getD_none, List.zip_nil_right, List.append_nil]

lemma map_fst_dataWrites (h : i.data.Fits) :
    i.dataWrites.map Prod.fst = i.data.slots.map fun s => i.data.offset + s.offset := by
  rcases Nat.eq_zero_or_pos i.dataSegmentFilesize with hzero | hpos
  · rw [dataWrites_of_zero hzero, h.slots_eq_nil hzero]
    rfl
  · unfold FixupInput.dataWrites buildChainedFixups
    dsimp only
    rw [dataStarts_of_pos hpos]
    exact map_fst_places _ _ _ _ _ _ _

lemma mem_dataWrites (h : i.data.Fits) {link : Slot × ℕ} (hlink : link ∈ i.data.links) :
    (i.data.offset + link.1.offset, encodeLink link.1 link.2) ∈ i.dataWrites := by
  rcases Nat.eq_zero_or_pos i.dataSegmentFilesize with hzero | hpos
  · have hmem := Segment.mem_of_link hlink
    rw [h.slots_eq_nil hzero] at hmem
    cases hmem
  · unfold FixupInput.dataWrites buildChainedFixups
    dsimp only
    rw [dataStarts_of_pos hpos]
    exact mem_places rfl h hlink

/-- What is written to the text segment. -/
def FixupInput.textWrites (i : FixupInput) : List (ℕ × BitVec 64) :=
  match i.textRebase with
  | some r => place r.textSegmentVmaddrOffset (r.rebaseTargets.map Prod.fst)
      (buildChainedFixups i).textRebaseLinkValues
  | none => []

lemma textWrites_of_some {r : TextRebaseScope} (hr : i.textRebase = some r) :
    let built := buildStartsInSegment 0 0 r.textSegmentVmaddrOffset r.textSegmentVmsize [] 0
      r.rebaseTargets
    i.textWrites =
      place r.textSegmentVmaddrOffset ((List.range 0).map fun k => 0 + k * 8)
          built.laPtrSlotValues ++
        place r.textSegmentVmaddrOffset [] built.tlvThunkLinkValues ++
        place r.textSegmentVmaddrOffset (r.rebaseTargets.map Prod.fst) built.rebaseLinkValues := by
  intro built
  have hstarts : i.textStarts = some built := by
    rw [FixupInput.textStarts, hr]
    rfl
  unfold FixupInput.textWrites buildChainedFixups
  rw [hr]
  dsimp only
  rw [hstarts]
  rfl

lemma map_fst_fixups (g : Segment) :
    g.fixups.map Prod.fst = g.slots.map fun s => g.offset + s.offset := List.map_map

lemma Segment.Fits.nodup_fixups {g : Segment} (h : g.Fits) : (g.fixups.map Prod.fst).Nodup := by
  have htwice : (g.slots.map fun s => g.offset + s.offset) =
      (g.slots.map (·.offset)).map (g.offset + ·) := List.map_map.symm
  rw [map_fst_fixups, htwice]
  exact h.distinct.map fun a b hab => Nat.add_left_cancel hab

/-- Every slot has an address of its own. -/
lemma nodup_fixups (h : i.Encodable) : (i.fixups.map Prod.fst).Nodup := by
  rw [FixupInput.fixups]
  cases hr : i.textRebase with
  | none =>
    rw [Option.map_none, Option.getD_none, List.append_nil]
    exact h.data.nodup_fixups
  | some r =>
    rw [Option.map_some, Option.getD_some, List.map_append]
    refine List.nodup_append.mpr
      ⟨h.data.nodup_fixups, (h.text r hr).nodup_fixups, fun a ha b hb heq => ?_⟩
    rw [map_fst_fixups] at ha hb
    obtain ⟨s, hs, rfl⟩ := List.mem_map.mp ha
    obtain ⟨t, ht, rfl⟩ := List.mem_map.mp hb
    exact h.apart r hr s hs t ht heq

/-- **The emit pass puts every link into its slot.** -/
lemma emitted_held (h : i.Encodable) (image : ℕ → BitVec 64) :
    (∀ link ∈ i.data.links,
      emitted i image (i.data.offset + link.1.offset) = encodeLink link.1 link.2) ∧
    ∀ r ∈ i.textRebase, ∀ link ∈ r.segment.links,
      emitted i image (r.segment.offset + link.1.offset) = encodeLink link.1 link.2 := by
  have hwrites : i.writes = i.dataWrites ++ i.textWrites := rfl
  have htext : i.textWrites.map Prod.fst =
      ((i.textRebase.map fun r => r.segment.fixups).getD []).map Prod.fst := by
    cases hr : i.textRebase with
    | none =>
      unfold FixupInput.textWrites
      rw [hr]
      rfl
    | some r =>
      rw [textWrites_of_some hr, Option.map_some, Option.getD_some, map_fst_fixups]
      exact map_fst_places _ _ _ _ _ _ _
  have hnodup : (i.writes.map Prod.fst).Nodup := by
    rw [hwrites, List.map_append, map_fst_dataWrites h.data, htext, ← map_fst_fixups,
      ← List.map_append]
    exact nodup_fixups h
  refine ⟨fun link hlink => ?_, fun r hr link hlink => ?_⟩
  · refine foldl_update_of_mem hnodup ?_ image
    rw [hwrites]
    exact List.mem_append_left _ (mem_dataWrites h.data hlink)
  · refine foldl_update_of_mem hnodup ?_ image
    rw [hwrites, textWrites_of_some hr]
    exact List.mem_append_right _ (mem_places rfl (h.text r hr) hlink)

end Image

/-! ### The blob -/

section Blob

/-- **A record is read back**, wherever it stands. -/
lemma readSegmentStarts_startsBytes (before behind : List (BitVec 8)) {offset : ℕ}
    {starts : List ℕ} (hoffset : offset < 2 ^ 64) (hlength : starts.length < 2 ^ 16)
    (hstarts : ∀ start ∈ starts, start < 2 ^ 16) :
    readSegmentStarts (before ++ (startsBytes offset starts ++ behind)) before.length =
      ⟨pageSize, dyldChainedPtr64Offset, offset, starts⟩ := by
  have hfield : ∀ (front back : List (BitVec 8)) (k n off : ℕ),
      startsBytes offset starts = front ++ (toLe k n ++ back) → off = front.length →
      readLe (before ++ (startsBytes offset starts ++ behind)) (before.length + off) k =
        n % 256 ^ k := by
    rintro front back k n off hsplit rfl
    rw [readLe_append_right, hsplit, List.append_assoc, List.append_assoc]
    exact readLe_field front (back ++ behind) k n
  have hsize := hfield (toLe 4 (22 + 2 * starts.length)) _ 2 pageSize 4 rfl
    (length_toLe _ _).symm
  have hformat := hfield (toLe 4 (22 + 2 * starts.length) ++ toLe 2 pageSize) _ 2
    dyldChainedPtr64Offset 6 (by rw [startsBytes, List.append_assoc]) (by simp)
  have hseg := hfield (toLe 4 (22 + 2 * starts.length) ++ toLe 2 pageSize ++
    toLe 2 dyldChainedPtr64Offset) _ 8 offset 8
    (by rw [startsBytes, List.append_assoc, List.append_assoc]) (by simp)
  have hcount := hfield (toLe 4 (22 + 2 * starts.length) ++ toLe 2 pageSize ++
    toLe 2 dyldChainedPtr64Offset ++ toLe 8 offset ++ toLe 4 0) _ 2 starts.length 20
    (by rw [startsBytes, List.append_assoc, List.append_assoc, List.append_assoc,
      List.append_assoc]) (by simp)
  have htable : ∀ p start, starts[p]? = some start →
      readLe (before ++ (startsBytes offset starts ++ behind)) (before.length + 22 + 2 * p) 2 =
        start := by
    intro p start hp
    have hin := (List.getElem?_eq_some_iff.mp hp).1
    obtain ⟨front, hsplit, hfront⟩ : ∃ front,
        startsBytes offset starts = front ++ starts.flatMap (toLe 2) ∧ front.length = 22 :=
      ⟨toLe 4 (22 + 2 * starts.length) ++ toLe 2 pageSize ++ toLe 2 dyldChainedPtr64Offset ++
        toLe 8 offset ++ toLe 4 0 ++ toLe 2 starts.length,
        by simp only [startsBytes, List.append_assoc], by simp⟩
    have hread : 2 * p + 2 ≤ (starts.flatMap (toLe 2)).length := by
      rw [length_table]
      omega
    rw [Nat.add_assoc, readLe_append_right, hsplit, List.append_assoc, ← hfront,
      readLe_append_right, readLe_append_left hread, readLe_table hp]
    exact Nat.mod_eq_of_lt (hstarts start (List.mem_of_getElem? hp))
  have hpages : (List.range starts.length).map (fun p =>
      readLe (before ++ (startsBytes offset starts ++ behind)) (before.length + 22 + 2 * p) 2) =
      starts := by
    refine List.ext_getElem? fun p => ?_
    rw [List.getElem?_map]
    rcases Nat.lt_or_ge p starts.length with hp | hp
    · rw [List.getElem?_range hp, List.getElem?_eq_getElem hp]
      exact congrArg some (htable p _ (List.getElem?_eq_getElem hp))
    · rw [List.getElem?_eq_none_iff.mpr hp, List.getElem?_eq_none_iff.mpr
        (by rw [List.length_range]; exact hp)]
      rfl
  have hcount' : starts.length % 256 ^ 2 = starts.length :=
    Nat.mod_eq_of_lt (hlength.trans_eq (by norm_num))
  have hoffset' : offset % 256 ^ 8 = offset := Nat.mod_eq_of_lt (hoffset.trans_eq (by norm_num))
  rw [readSegmentStarts, hsize, hformat, hseg, hcount, hcount', hpages, hoffset']
  rfl

variable {i : FixupInput}

/-- The image header of the starts. -/
def FixupInput.startsInImage (i : FixupInput) : List (BitVec 8) :=
  toLe 4 i.segCount ++ ((List.range i.segCount).map i.segInfoOffset).flatMap (toLe 4)

lemma length_startsInImage (i : FixupInput) : i.startsInImage.length = 4 + 4 * i.segCount := by
  rw [FixupInput.startsInImage, List.length_append, length_toLe, length_table, List.length_map,
    List.length_range]

/-- The blob begins with its header and the starts. -/
lemma blob_eq (i : FixupInput) : ∃ header behind,
    (buildChainedFixups i).blob = header ++ (i.startsInImage ++
      (startsOf i.dataStarts ++ (startsOf i.textStarts ++ behind))) ∧
    header.length = fixupsHeaderSize ∧ readLe (buildChainedFixups i).blob 4 4 = fixupsHeaderSize := by
  obtain ⟨s, m, n, k, c, t, t', hblob⟩ : ∃ s m n k c t t', (buildChainedFixups i).blob =
      padTo s (padTo m ((toLe 4 0 ++ (toLe 4 fixupsHeaderSize ++ (toLe 4 n ++ (toLe 4 k ++
        (toLe 4 c ++ (toLe 4 1 ++ (toLe 4 0 ++ toLe 4 0))))))) ++ (i.startsInImage ++
        (startsOf i.dataStarts ++ startsOf i.textStarts))) ++ t) ++ t' :=
    ⟨_, _, _, _, _, _, _, rfl⟩
  have hpad : ∀ n bytes, ∃ zeros, padTo n bytes = bytes ++ zeros := fun n bytes => ⟨_, rfl⟩
  obtain ⟨z, hz⟩ := hpad m ((toLe 4 0 ++ (toLe 4 fixupsHeaderSize ++ (toLe 4 n ++ (toLe 4 k ++
    (toLe 4 c ++ (toLe 4 1 ++ (toLe 4 0 ++ toLe 4 0))))))) ++ (i.startsInImage ++
    (startsOf i.dataStarts ++ startsOf i.textStarts)))
  rw [hz] at hblob
  obtain ⟨z', hz'⟩ := hpad s ((toLe 4 0 ++ (toLe 4 fixupsHeaderSize ++ (toLe 4 n ++ (toLe 4 k ++
    (toLe 4 c ++ (toLe 4 1 ++ (toLe 4 0 ++ toLe 4 0))))))) ++ (i.startsInImage ++
    (startsOf i.dataStarts ++ startsOf i.textStarts)) ++ z ++ t)
  rw [hz'] at hblob
  simp only [List.append_assoc] at hblob
  refine ⟨toLe 4 0 ++ (toLe 4 fixupsHeaderSize ++ (toLe 4 n ++ (toLe 4 k ++
    (toLe 4 c ++ (toLe 4 1 ++ (toLe 4 0 ++ toLe 4 0)))))), z ++ (t ++ (z' ++ t')), ?_, ?_, ?_⟩
  · rw [hblob]
    simp only [List.append_assoc]
  · simp only [List.length_append, length_toLe]
    rfl
  · rw [hblob]
    exact readLe_field (toLe 4 0) _ 4 fixupsHeaderSize

lemma startsOf_data (h : 0 < i.dataSegmentFilesize) :
    startsOf i.dataStarts = startsBytes i.data.offset i.data.starts := by
  rw [dataStarts_of_pos h]
  rfl

/-- A record takes 22 bytes, and two for each page. -/
lemma length_startsOf_data (h : i.data.Fits) :
    (startsOf i.dataStarts).length ≤ 22 + 2 * pageCount i.dataSegmentFilesize := by
  rcases Nat.eq_zero_or_pos i.dataSegmentFilesize with hzero | hpos
  · have hnone : i.dataStarts = none := if_neg (by omega)
    rw [hnone]
    exact Nat.zero_le _
  · have hlen : i.data.starts.length = pageCount i.dataSegmentFilesize := h.length_starts
    rw [startsOf_data hpos, ← hlen]
    simp only [startsBytes, List.length_append, length_toLe, length_table]
    omega

/-- **The table of segments** is read back. -/
lemma read_table (h : i.Encodable) {header behind : List (BitVec 8)}
    (hblob : (buildChainedFixups i).blob = header ++ (i.startsInImage ++ behind))
    (hheader : header.length = fixupsHeaderSize) :
    readLe (buildChainedFixups i).blob fixupsHeaderSize 4 = i.segCount ∧
    ∀ seg < i.segCount, readLe (buildChainedFixups i).blob (fixupsHeaderSize + 4 + 4 * seg) 4 =
      i.segInfoOffset seg := by
  have hfits := h.offsets
  have hlength := length_startsOf_data h.data
  have hcount : i.segCount % 256 ^ 4 = i.segCount := Nat.mod_eq_of_lt (by norm_num; omega)
  rw [hblob, ← hheader]
  constructor
  · have hread := readLe_append_right header (i.startsInImage ++ behind) 0 4
    rw [Nat.add_zero] at hread
    rw [hread, FixupInput.startsInImage, List.append_assoc]
    exact (readLe_field [] _ 4 i.segCount).trans hcount
  · intro seg hseg
    have hentry : ((List.range i.segCount).map i.segInfoOffset)[seg]? =
        some (i.segInfoOffset seg) := by
      rw [List.getElem?_map, List.getElem?_range hseg]
      rfl
    have hin : 4 * seg + 4 ≤
        (((List.range i.segCount).map i.segInfoOffset).flatMap (toLe 4)).length := by
      rw [length_table, List.length_map, List.length_range]
      omega
    have hlt : i.segInfoOffset seg < 256 ^ 4 := by
      have hbound : i.segInfoOffset seg ≤ 4 + 4 * i.segCount + (startsOf i.dataStarts).length := by
        unfold FixupInput.segInfoOffset
        dsimp only
        split_ifs <;> omega
      norm_num
      omega
    have hfour : (toLe 4 i.segCount).length = 4 := length_toLe _ _
    rw [Nat.add_assoc, readLe_append_right, FixupInput.startsInImage, List.append_assoc]
    have hskip := readLe_append_right (toLe 4 i.segCount)
      (((List.range i.segCount).map i.segInfoOffset).flatMap (toLe 4) ++ behind) (4 * seg) 4
    rw [hfour] at hskip
    rw [hskip, readLe_append_left hin, readLe_table hentry, Nat.mod_eq_of_lt hlt]

lemma startsOf_text {r : TextRebaseScope} (hr : i.textRebase = some r) :
    startsOf i.textStarts = startsBytes r.segment.offset r.segment.starts := by
  rw [FixupInput.textStarts, hr]
  rfl

/-- A record of a segment that fits is read back. -/
lemma Segment.Fits.read {g : Segment} (h : g.Fits) (before behind : List (BitVec 8)) :
    readSegmentStarts (before ++ (startsBytes g.offset g.starts ++ behind)) before.length =
      g.record :=
  readSegmentStarts_startsBytes before behind h.offset_lt (by rw [h.length_starts]; exact h.pages)
    fun _ hstart => h.start_lt hstart

/-- **The records of the blob** are those of the segments. -/
lemma readStarts_blob (h : i.Encodable) :
    readStarts (buildChainedFixups i).blob = i.segments.map Segment.record := by
  obtain ⟨header, behind, hblob, hheader, hstarts⟩ := blob_eq i
  obtain ⟨hcount, hentry⟩ := read_table h hblob hheader
  unfold readStarts FixupInput.segments
  dsimp only
  rw [hstarts, hcount, List.map_filterMap]
  refine List.filterMap_congr fun seg hseg => ?_
  rw [hentry seg (List.mem_range.mp hseg)]
  unfold FixupInput.segInfoOffset FixupInput.segmentAt
  dsimp only
  have hprelude : (header ++ i.startsInImage).length =
      fixupsHeaderSize + (4 + 4 * i.segCount) := by
    rw [List.length_append, hheader, length_startsInImage]
  by_cases hdata : seg = i.dataSegIdx
  · rw [if_pos hdata, if_pos hdata]
    rcases Nat.eq_zero_or_pos i.dataSegmentFilesize with hzero | hpos
    · have hnone : i.dataStarts = none := if_neg (by omega)
      rw [hnone, if_neg (by omega : ¬ 0 < i.dataSegmentFilesize)]
      rfl
    · have hsome : i.dataStarts.isSome = true := by rw [dataStarts_of_pos hpos]; rfl
      rw [if_pos hsome, if_pos hpos, if_neg (by omega), hblob, ← hprelude, ← List.append_assoc,
        startsOf_data hpos]
      exact congrArg some (h.data.read _ _)
  · rw [if_neg hdata, if_neg hdata]
    cases hr : i.textRebase with
    | none => rfl
    | some r =>
      by_cases hidx : r.textSegIdx = seg
      · have hany : (some r).any (fun r => decide (r.textSegIdx = seg)) = true :=
          decide_eq_true hidx
        have hfilter : (some r).filter (fun r => decide (r.textSegIdx = seg)) = some r := by
          rw [Option.filter_some, if_pos (decide_eq_true hidx)]
        have hfront : (header ++ i.startsInImage ++ startsOf i.dataStarts).length =
            fixupsHeaderSize + (4 + 4 * i.segCount + (startsOf i.dataStarts).length) := by
          rw [List.length_append, hprelude]
          omega
        rw [if_pos hany, hfilter, if_neg (by omega), hblob, ← hfront, ← List.append_assoc,
          ← List.append_assoc, startsOf_text hr]
        exact congrArg some ((h.text r hr).read _ _)
      · have hany : ¬ (some r).any (fun r => decide (r.textSegIdx = seg)) = true := by
          simpa using hidx
        have hfilter : (some r).filter (fun r => decide (r.textSegIdx = seg)) = none := by
          rw [Option.filter_some, if_neg (by simpa using hidx)]
        rw [if_neg hany, hfilter]
        rfl

/-- The fixups at an index of the table. -/
def FixupInput.fixupsAt (i : FixupInput) (seg : ℕ) : List (ℕ × Fixup) :=
  ((i.segmentAt seg).map Segment.fixups).getD []

lemma flatMap_segments (i : FixupInput) :
    i.segments.flatMap Segment.fixups = (List.range i.segCount).flatMap i.fixupsAt := by
  rw [FixupInput.segments]
  induction List.range i.segCount with
  | nil => rfl
  | cons seg l ih =>
    rw [List.filterMap_cons, List.flatMap_cons, ← ih, FixupInput.fixupsAt]
    cases i.segmentAt seg with
    | none => rfl
    | some g => rfl

/-- The segments of the table have all the fixups. -/
lemma flatMap_segments_perm (h : i.Encodable) :
    (i.segments.flatMap Segment.fixups).Perm i.fixups := by
  have hdata : i.fixupsAt i.dataSegIdx = i.data.fixups := by
    rw [FixupInput.fixupsAt, FixupInput.segmentAt, if_pos rfl]
    rcases Nat.eq_zero_or_pos i.dataSegmentFilesize with hzero | hpos
    · rw [if_neg (by omega), Segment.fixups, h.data.slots_eq_nil hzero]
      rfl
    · rw [if_pos hpos]
      rfl
  have hperm := List.perm_cons_erase (List.mem_range.mpr h.dataIdx)
  rw [flatMap_segments]
  refine (hperm.flatMap_right _).trans ?_
  rw [List.flatMap_cons, hdata, FixupInput.fixups]
  refine List.Perm.append_left _ ?_
  have hnot : ∀ seg ∈ (List.range i.segCount).erase i.dataSegIdx, seg ≠ i.dataSegIdx :=
    fun seg hseg => ((List.nodup_range.mem_erase_iff).mp hseg).1
  cases hr : i.textRebase with
  | none =>
    refine List.Perm.of_eq (List.flatMap_eq_nil_iff.mpr fun seg hseg => ?_)
    rw [FixupInput.fixupsAt, FixupInput.segmentAt, if_neg (hnot seg hseg), hr]
    rfl
  | some r =>
    obtain ⟨hlt, hne⟩ := h.textIdx r hr
    have hmem : r.textSegIdx ∈ (List.range i.segCount).erase i.dataSegIdx :=
      List.nodup_range.mem_erase_iff.mpr ⟨hne, List.mem_range.mpr hlt⟩
    have htext : i.fixupsAt r.textSegIdx = r.segment.fixups := by
      rw [FixupInput.fixupsAt, FixupInput.segmentAt, if_neg hne, hr, Option.filter_some,
        if_pos (decide_eq_true rfl)]
      rfl
    have hrest : (((List.range i.segCount).erase i.dataSegIdx).erase r.textSegIdx).flatMap
        i.fixupsAt = [] := by
      refine List.flatMap_eq_nil_iff.mpr fun seg hseg => ?_
      obtain ⟨hseg', hseg⟩ := ((List.nodup_range.erase _).mem_erase_iff).mp hseg
      rw [FixupInput.fixupsAt, FixupInput.segmentAt, if_neg (hnot seg hseg), hr,
        Option.filter_some, if_neg (by simpa using Ne.symm hseg')]
      rfl
    refine ((List.perm_cons_erase hmem).flatMap_right _).trans ?_
    rw [List.flatMap_cons, htext, hrest, List.append_nil]
    exact List.Perm.refl _

lemma mem_segments {g : Segment} (hg : g ∈ i.segments) :
    g = i.data ∨ ∃ r ∈ i.textRebase, g = r.segment := by
  obtain ⟨seg, -, hseg⟩ := List.mem_filterMap.mp hg
  rw [FixupInput.segmentAt] at hseg
  split_ifs at hseg with hdata hpos
  · exact Or.inl (Option.some.inj hseg).symm
  · obtain ⟨r, hr, hseg⟩ := Option.map_eq_some_iff.mp hseg
    exact Or.inr ⟨r, (Option.filter_eq_some_iff.mp hr).1, hseg.symm⟩

end Blob

/-! ### The image -/

/-- The segments are walked one after another. -/
lemma walk_segments {gs : List Segment} {image : ℕ → BitVec 64} (hfits : ∀ g ∈ gs, g.Fits)
    (hheld : ∀ g ∈ gs, ∀ link ∈ g.links,
      image (g.offset + link.1.offset) = encodeLink link.1 link.2) :
    ∃ visited, (((gs.map Segment.record).mapM fun starts =>
      if starts.pointerFormat = dyldChainedPtr64Offset then
        walkPages image starts.segmentOffset starts.size 0 starts.pageStarts
      else none).map List.flatten) = some visited ∧ visited.Perm (gs.flatMap Segment.fixups) := by
  induction gs with
  | nil => exact ⟨[], rfl, List.Perm.refl _⟩
  | cons g gs ih =>
    obtain ⟨rest, hrest, hperm⟩ := ih (fun x hx => hfits x (List.mem_cons_of_mem g hx))
      (fun x hx => hheld x (List.mem_cons_of_mem g hx))
    obtain ⟨visited, hwalk, hperm'⟩ :=
      (hfits g List.mem_cons_self).walk (hheld g List.mem_cons_self)
    obtain ⟨lists, hlists, rfl⟩ := Option.map_eq_some_iff.mp hrest
    refine ⟨visited ++ lists.flatten, ?_, ?_⟩
    · have hrecord : (if g.record.pointerFormat = dyldChainedPtr64Offset then
          walkPages image g.record.segmentOffset g.record.size 0 g.record.pageStarts
        else none) = some visited := (if_pos rfl).trans hwalk
      rw [List.map_cons, List.mapM_cons, hrecord, hlists]
      rfl
    · rw [List.flatMap_cons]
      exact hperm'.append hperm

/-- **Chained fixups describe exactly the pointer slots.**  The loader finds every slot, once, with
the ordinal or the target that was given for it, and nothing else; the blob has a record for each
segment, in which the pages without slots are marked, and no others; and no next field is
truncated. -/
theorem chained_fixups_exact (i : FixupInput) (h : i.Encodable) (image : ℕ → BitVec 64) :
    (∃ visited, walkFixups (buildChainedFixups i).blob (emitted i image) = some visited ∧
      visited.Perm i.fixups ∧ (visited.map Prod.fst).Nodup) ∧
    List.Forall₂ Describes (readStarts (buildChainedFixups i).blob) i.segments ∧
    ∀ g ∈ i.segments, ∀ link ∈ g.links,
      link.2 < 2 ^ 12 ∧ nextField (encodeLink link.1 link.2) = link.2 := by
  have hfits : ∀ g ∈ i.segments, g.Fits := by
    intro g hg
    rcases mem_segments hg with rfl | ⟨r, hr, rfl⟩
    · exact h.data
    · exact h.text r hr
  obtain ⟨hdata, htext⟩ := emitted_held h image
  have hheld : ∀ g ∈ i.segments, ∀ link ∈ g.links,
      emitted i image (g.offset + link.1.offset) = encodeLink link.1 link.2 := by
    intro g hg
    rcases mem_segments hg with rfl | ⟨r, hr, rfl⟩
    · exact hdata
    · exact htext r hr
  refine ⟨?_, ?_, fun g hg link hlink => ?_⟩
  · obtain ⟨visited, hwalk, hperm⟩ := walk_segments hfits hheld
    have hfixups := hperm.trans (flatMap_segments_perm h)
    refine ⟨visited, ?_, hfixups, (hfixups.map _).nodup_iff.mpr (nodup_fixups h)⟩
    rw [walkFixups, readStarts_blob h]
    exact hwalk
  · rw [readStarts_blob h, List.forall₂_map_left_iff]
    exact List.forall₂_same.mpr fun g hg => (hfits g hg).describes
  · have hlt := (hfits g hg).stride_lt hlink
    exact ⟨hlt, nextField_encodeLink link.1 hlt⟩

/-- Three slots on two pages of a data segment of three pages, and one of a text segment. -/
theorem chained_fixups_three_pages :
    let i : FixupInput :=
      { laPtrImports := [([], 1)], dataSegmentVmaddrOffset := 0x8000, laPtrOffsetInSegment := 0
        dataSegmentFilesize := 0xC000, tlvThunkOffsets := [0x3FF8], segCount := 5, dataSegIdx := 3
        textRebase := some ⟨0x4000, 0x4000, 2, [(8, 0x100)]⟩
        dataRebaseTargets := [(0x8000, 0x200)] }
    (∃ visited, walkFixups (buildChainedFixups i).blob (emitted i fun _ => 0) = some visited ∧
      visited.Perm i.fixups ∧ (visited.map Prod.fst).Nodup) ∧
    List.Forall₂ Describes (readStarts (buildChainedFixups i).blob) i.segments ∧
    ∀ g ∈ i.segments, ∀ link ∈ g.links,
      link.2 < 2 ^ 12 ∧ nextField (encodeLink link.1 link.2) = link.2 := by
  intro i
  have hdata : i.data.Fits := ⟨by decide, by decide, by decide, by decide, by decide, by decide⟩
  have htext : ∀ r ∈ i.textRebase, r.segment.Fits := by
    rintro r hr
    cases hr
    exact ⟨by decide, by decide, by decide, by decide, by decide, by decide⟩
  refine chained_fixups_exact i ⟨hdata, htext, by decide, ?_, ?_, by decide⟩ fun _ => 0
  · rintro r hr
    cases hr
    decide
  · rintro r hr
    cases hr
    decide

end Torajs.Link
