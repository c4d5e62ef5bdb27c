import ToraJs.Regex.Text
import Mathlib.Algebra.Order.Group.Nat
import Mathlib.Tactic.IntervalCases
import Mathlib.Tactic.Ring
import Mathlib.Tactic.Linarith

/-!
# The UTF-8 encoder, and byte sequences as numbers

A byte sequence whose bytes after the first are continuation bytes is a number in mixed
radix: `seqVal` weighs each byte with the power of 64 of its place.  Among sequences of one
length the order of these numbers is the lexicographic order, and on the encodings of one
length `seqVal` is the code point up to a constant.  So the sequences between the encodings
of two code points are the encodings of the code points between them.
-/

namespace Torajs.Regex

/-- `utf8_encode_cp`: the generalised encoding, surrogates included. -/
def utf8EncodeCp (cp : ℕ) : List UInt8 :=
  let lead (bits : UInt8) (n : ℕ) : UInt8 := bits ||| UInt8.ofNat n
  let cont (n : ℕ) : UInt8 := 0x80 ||| UInt8.ofNat (n &&& 0x3F)
  if 0x10FFFF < cp then []
  else if cp < 0x80 then [UInt8.ofNat cp]
  else if cp < 0x800 then [lead 0xC0 (cp >>> 6), cont cp]
  else if cp < 0x10000 then [lead 0xE0 (cp >>> 12), cont (cp >>> 6), cont cp]
  else [lead 0xF0 (cp >>> 18), cont (cp >>> 12), cont (cp >>> 6), cont cp]

/-! ### Sequences as numbers -/

/-- A continuation byte. -/
def IsCont (b : UInt8) : Prop := 0x80 ≤ b ∧ b ≤ 0xBF

/-- The bytes after the first are continuation bytes. -/
def TailCont (w : List UInt8) : Prop := ∀ b ∈ w.tail, IsCont b

/-- The number a sequence stands for, each byte weighted by its place. -/
def seqVal : List UInt8 → ℕ
  | [] => 0
  | b :: w => b.toNat * 64 ^ w.length + seqVal w

/-- A continuation byte as a number. -/
lemma isCont_iff {b : UInt8} : IsCont b ↔ 0x80 ≤ b.toNat ∧ b.toNat ≤ 0xBF := Iff.rfl

/-- Continuation bytes throughout leave continuation bytes after the first. -/
lemma TailCont.of_forall {w : List UInt8} (h : ∀ b ∈ w, IsCont b) : TailCont w :=
  fun b hb => h b (List.mem_of_mem_tail hb)

/-- The tail of a sequence with continuation bytes after the first. -/
lemma TailCont.tail {b : UInt8} {w : List UInt8} (h : TailCont (b :: w)) : TailCont w :=
  TailCont.of_forall h

/-- The number of a run of continuation bytes lies between those of the least and the greatest
run, which are less than a full place apart. -/
lemma seqVal_cont_bounds {w : List UInt8} (h : ∀ b ∈ w, IsCont b) :
    seqVal (List.replicate w.length 0x80) ≤ seqVal w ∧
      seqVal w ≤ seqVal (List.replicate w.length 0xBF) ∧
      seqVal (List.replicate w.length 0xBF) < seqVal (List.replicate w.length 0x80)
        + 64 ^ w.length := by
  induction w with
  | nil => simp [seqVal]
  | cons b w ih =>
    obtain ⟨h1, h2, h3⟩ := ih fun c hc => h c (List.mem_cons_of_mem b hc)
    obtain ⟨hlo, hhi⟩ := isCont_iff.mp (h b List.mem_cons_self)
    have hpow : (64 : ℕ) ^ (w.length + 1) = 64 * 64 ^ w.length := by ring
    have hmlo : 0x80 * 64 ^ w.length ≤ b.toNat * 64 ^ w.length := Nat.mul_le_mul_right _ hlo
    have hmhi : b.toNat * 64 ^ w.length ≤ 0xBF * 64 ^ w.length := Nat.mul_le_mul_right _ hhi
    have h80 : (0x80 : UInt8).toNat = 0x80 := rfl
    have hBF : (0xBF : UInt8).toNat = 0xBF := rfl
    simp only [List.length_cons, List.replicate_succ, seqVal, List.length_replicate, hpow, h80, hBF]
    omega

/-- A smaller first byte makes a smaller number. -/
lemma seqVal_lt_of_head_lt {b c : UInt8} {v w : List UInt8} (hlen : v.length = w.length)
    (hv : ∀ x ∈ v, IsCont x) (hw : ∀ x ∈ w, IsCont x) (hbc : b < c) :
    seqVal (b :: v) < seqVal (c :: w) := by
  obtain ⟨-, hvhi, hgap⟩ := seqVal_cont_bounds hv
  obtain ⟨hwlo, -, -⟩ := seqVal_cont_bounds hw
  rw [← hlen] at hwlo
  have hbc' : b.toNat + 1 ≤ c.toNat := hbc
  have hmul : (b.toNat + 1) * 64 ^ v.length ≤ c.toNat * 64 ^ v.length :=
    Nat.mul_le_mul_right _ hbc'
  have hsplit : (b.toNat + 1) * 64 ^ v.length = b.toNat * 64 ^ v.length + 64 ^ v.length := by ring
  simp only [seqVal, ← hlen]
  omega

/-- The first bytes are ordered as the numbers are. -/
lemma head_le_of_seqVal_le {b c : UInt8} {v w : List UInt8} (hlen : v.length = w.length)
    (hv : ∀ x ∈ v, IsCont x) (hw : ∀ x ∈ w, IsCont x) (h : seqVal (b :: v) ≤ seqVal (c :: w)) :
    b ≤ c := by
  by_contra hlt
  have := seqVal_lt_of_head_lt hlen.symm hw hv (UInt8.not_le.mp hlt)
  omega

/-- Behind one first byte the numbers are ordered as those of the tails. -/
lemma seqVal_cons_le_cons {b : UInt8} {v w : List UInt8} (hlen : v.length = w.length) :
    seqVal (b :: v) ≤ seqVal (b :: w) ↔ seqVal v ≤ seqVal w := by
  simp only [seqVal, hlen]
  omega

/-- The number of a sequence is that of its bytes taken as numbers. -/
lemma seqVal_map {w : List UInt8} :
    seqVal w = (w.map UInt8.toNat).foldl (fun v b => v * 64 + b) 0 := by
  have hacc : ∀ (w : List UInt8) (v : ℕ),
      (w.map UInt8.toNat).foldl (fun v b => v * 64 + b) v = v * 64 ^ w.length + seqVal w := by
    intro w
    induction w with
    | nil => intro v; simp [seqVal]
    | cons b w ih =>
      intro v
      rw [List.map_cons, List.foldl_cons, ih, seqVal, List.length_cons, pow_succ]
      ring
  rw [hacc, Nat.zero_mul, Nat.zero_add]

/-- Continuation bytes after the first, as numbers. -/
lemma tailCont_map {w : List UInt8} :
    TailCont w ↔ ∀ n ∈ (w.map UInt8.toNat).tail, 0x80 ≤ n ∧ n ≤ 0xBF := by
  rw [← List.map_tail]
  simp only [TailCont, List.forall_mem_map, isCont_iff]

/-! ### The encodings of one length -/

/-- Set bits above a payload that fits below them. -/
lemma lead_or (lead k q : ℕ) {x : ℕ} (hx : x < 2 ^ k) (hlead : lead = 2 ^ k * q)
    (hfit : lead + x < 256) : (UInt8.ofNat lead ||| UInt8.ofNat x).toNat = lead + x := by
  rw [UInt8.toNat_or, UInt8.toNat_ofNat', UInt8.toNat_ofNat', Nat.mod_eq_of_lt (by omega),
    Nat.mod_eq_of_lt (by omega), hlead, Nat.two_pow_add_eq_or_of_lt hx]

/-- The last six bits of a number make a continuation byte. -/
lemma cont_or (x : ℕ) : (0x80 ||| UInt8.ofNat (x &&& 0x3F) : UInt8).toNat = 0x80 + x % 64 := by
  have hand : x &&& 0x3F = x % 64 := Nat.and_two_pow_sub_one_eq_mod x 6
  rw [hand]
  exact lead_or 0x80 7 1 (by omega) rfl (by omega)

/-- The bytes of an encoding as numbers. -/
lemma utf8EncodeCp_toNat {cp : ℕ} (hcp : cp ≤ 0x10FFFF) :
    (utf8EncodeCp cp).map UInt8.toNat =
      if cp < 0x80 then [cp]
      else if cp < 0x800 then [0xC0 + cp / 64, 0x80 + cp % 64]
      else if cp < 0x10000 then [0xE0 + cp / 4096, 0x80 + cp / 64 % 64, 0x80 + cp % 64]
      else [0xF0 + cp / 262144, 0x80 + cp / 4096 % 64, 0x80 + cp / 64 % 64, 0x80 + cp % 64] := by
  have h6 : cp >>> 6 = cp / 64 := Nat.shiftRight_eq_div_pow cp 6
  have h12 : cp >>> 12 = cp / 4096 := Nat.shiftRight_eq_div_pow cp 12
  have h18 : cp >>> 18 = cp / 262144 := Nat.shiftRight_eq_div_pow cp 18
  simp only [utf8EncodeCp, if_neg (Nat.not_lt.mpr hcp), h6, h12, h18]
  split_ifs with h1 h2 h3
  · simp only [List.map_cons, List.map_nil, UInt8.toNat_ofNat']
    rw [Nat.mod_eq_of_lt (by omega)]
  · simp only [List.map_cons, List.map_nil, cont_or]
    rw [show (0xC0 : UInt8) = UInt8.ofNat 0xC0 from rfl,
      lead_or 0xC0 5 6 (by omega) rfl (by omega)]
  · simp only [List.map_cons, List.map_nil, cont_or]
    rw [show (0xE0 : UInt8) = UInt8.ofNat 0xE0 from rfl,
      lead_or 0xE0 4 14 (by omega) rfl (by omega)]
  · simp only [List.map_cons, List.map_nil, cont_or]
    rw [show (0xF0 : UInt8) = UInt8.ofNat 0xF0 from rfl,
      lead_or 0xF0 3 30 (by omega) rfl (by omega)]

/-- `LEN_BOUNDS`: the code points that encode in `len` bytes. -/
def lenBounds : ℕ → ℕ × ℕ
  | 1 => (0x0000, 0x007F)
  | 2 => (0x0080, 0x07FF)
  | 3 => (0x0800, 0xFFFF)
  | _ => (0x10000, 0x10FFFF)

/-- The constant by which `seqVal` exceeds the code point. -/
def lenOffset : ℕ → ℕ
  | 1 => 0
  | 2 => 0xC0 * 64 + 0x80
  | 3 => (0xE0 * 64 + 0x80) * 64 + 0x80
  | _ => ((0xF0 * 64 + 0x80) * 64 + 0x80) * 64 + 0x80

/-- A code point of the window of a length. -/
def InWindow (len cp : ℕ) : Prop := (lenBounds len).1 ≤ cp ∧ cp ≤ (lenBounds len).2

/-- The lengths of encodings. -/
def IsLen (len : ℕ) : Prop := 1 ≤ len ∧ len ≤ 4

/-- The code points of the windows are those that have an encoding. -/
lemma InWindow.le {len cp : ℕ} (hlen : IsLen len) (h : InWindow len cp) : cp ≤ 0x10FFFF := by
  obtain ⟨h1, h4⟩ := hlen
  unfold InWindow at h
  interval_cases len <;> simp only [lenBounds] at h <;> omega

/-- Every code point is in the window of a length. -/
lemma exists_inWindow {cp : ℕ} (hcp : cp ≤ 0x10FFFF) : ∃ len, IsLen len ∧ InWindow len cp := by
  by_cases h1 : cp ≤ 0x7F
  · exact ⟨1, ⟨le_rfl, by omega⟩, Nat.zero_le _, h1⟩
  by_cases h2 : cp ≤ 0x7FF
  · exact ⟨2, ⟨by omega, by omega⟩, show 0x80 ≤ cp by omega, h2⟩
  by_cases h3 : cp ≤ 0xFFFF
  · exact ⟨3, ⟨by omega, by omega⟩, show 0x800 ≤ cp by omega, h3⟩
  · exact ⟨4, ⟨by omega, le_rfl⟩, show 0x10000 ≤ cp by omega, hcp⟩

/-- An encoding has the length of its window, continuation bytes after the first, and the
number of its code point, up to the constant. -/
lemma utf8EncodeCp_window {len cp : ℕ} (hlen : IsLen len) (h : InWindow len cp) :
    (utf8EncodeCp cp).length = len ∧ TailCont (utf8EncodeCp cp) ∧
      seqVal (utf8EncodeCp cp) = cp + lenOffset len := by
  have hmap := utf8EncodeCp_toNat (h.le hlen)
  have hlength : (utf8EncodeCp cp).length = ((utf8EncodeCp cp).map UInt8.toNat).length :=
    (List.length_map _).symm
  rw [hlength, tailCont_map, seqVal_map, hmap]
  obtain ⟨h1, h4⟩ := hlen
  obtain ⟨hlo, hhi⟩ := h
  interval_cases len <;> simp only [lenBounds] at hlo hhi <;> simp only [lenOffset]
  · rw [if_pos (by omega)]
    simp
  · rw [if_neg (by omega), if_pos (by omega)]
    simp
    omega
  · rw [if_neg (by omega), if_neg (by omega), if_pos (by omega)]
    simp
    omega
  · rw [if_neg (by omega), if_neg (by omega), if_neg (by omega)]
    simp
    omega

/-- A sequence with continuation bytes after the first is determined by its length and its
number, as far as the first byte fits. -/
lemma eq_utf8EncodeCp_of_seqVal {len cp : ℕ} (hlen : IsLen len) (h : InWindow len cp)
    {w : List UInt8} (hw : w.length = len) (htail : TailCont w)
    (hval : seqVal w = cp + lenOffset len) : w = utf8EncodeCp cp := by
  have hinj : Function.Injective UInt8.toNat := fun a b hab => UInt8.toNat_inj.mp hab
  refine List.map_injective_iff.mpr hinj ?_
  rw [utf8EncodeCp_toNat (h.le hlen)]
  rw [tailCont_map] at htail
  rw [seqVal_map] at hval
  have hlength : (w.map UInt8.toNat).length = len := by rw [List.length_map, hw]
  generalize w.map UInt8.toNat = ns at htail hval hlength
  obtain ⟨h1, h4⟩ := hlen
  obtain ⟨hlo, hhi⟩ := h
  interval_cases len <;> simp only [lenBounds] at hlo hhi <;> simp only [lenOffset] at hval
  · obtain ⟨a, rfl⟩ := List.length_eq_one_iff.mp hlength
    rw [if_pos (by omega)]
    simp at hval
    rw [hval]
  · obtain ⟨a, b, rfl⟩ := List.length_eq_two.mp hlength
    rw [if_neg (by omega), if_pos (by omega)]
    simp at hval htail
    simp
    omega
  · obtain ⟨a, b, c, rfl⟩ := List.length_eq_three.mp hlength
    rw [if_neg (by omega), if_neg (by omega), if_pos (by omega)]
    simp at hval htail
    simp
    omega
  · match ns, hlength with
    | [a, b, c, d], _ =>
      rw [if_neg (by omega), if_neg (by omega), if_neg (by omega)]
      simp at hval htail
      simp
      omega

/-- Encodings of which one begins another are one. -/
lemma utf8EncodeCp_eq_of_append {cp cq : ℕ} (hp : cp ≤ 0x10FFFF) (hq : cq ≤ 0x10FFFF)
    (h : utf8EncodeCp cp <+: utf8EncodeCp cq) : cp = cq := by
  have hmap : (utf8EncodeCp cp).map UInt8.toNat <+: (utf8EncodeCp cq).map UInt8.toNat :=
    h.map _
  rw [utf8EncodeCp_toNat hp, utf8EncodeCp_toNat hq] at hmap
  split_ifs at hmap <;> simp only [List.cons_prefix_cons, List.nil_prefix, List.prefix_nil,
    and_true, List.cons_ne_nil, and_false] at hmap <;> omega

/-! ### Decoding -/

/-- The masks of the decoder, as intervals and remainders. -/
lemma decode_masks (b : UInt8) :
    (b &&& 0x80 == 0) = decide (b.toNat < 0x80) ∧
      (b &&& 0xE0 == 0xC0) = decide (0xC0 ≤ b.toNat ∧ b.toNat < 0xE0) ∧
      (b &&& 0xF0 == 0xE0) = decide (0xE0 ≤ b.toNat ∧ b.toNat < 0xF0) ∧
      (b &&& 0xF8 == 0xF0) = decide (0xF0 ≤ b.toNat ∧ b.toNat < 0xF8) ∧
      (b &&& 0x1F).toNat = b.toNat % 32 ∧ (b &&& 0x0F).toNat = b.toNat % 16 ∧
      (b &&& 0x07).toNat = b.toNat % 8 ∧ (b &&& 0x3F).toNat = b.toNat % 64 := by
  have hall : ∀ n < 256,
      (UInt8.ofNat n &&& 0x80 == 0) = decide (n < 0x80) ∧
        (UInt8.ofNat n &&& 0xE0 == 0xC0) = decide (0xC0 ≤ n ∧ n < 0xE0) ∧
        (UInt8.ofNat n &&& 0xF0 == 0xE0) = decide (0xE0 ≤ n ∧ n < 0xF0) ∧
        (UInt8.ofNat n &&& 0xF8 == 0xF0) = decide (0xF0 ≤ n ∧ n < 0xF8) ∧
        (UInt8.ofNat n &&& 0x1F).toNat = n % 32 ∧ (UInt8.ofNat n &&& 0x0F).toNat = n % 16 ∧
        (UInt8.ofNat n &&& 0x07).toNat = n % 8 ∧ (UInt8.ofNat n &&& 0x3F).toNat = n % 64 := by
    decide +kernel
  have hb := hall b.toNat (UInt8.toNat_lt b)
  rwa [UInt8.ofNat_toNat] at hb

/-- Decoding the encoding of a code point gives the code point and the length. -/
theorem utf8DecodeCp_encode {cp : ℕ} (hcp : cp ≤ 0x10FFFF) (rest : List UInt8) :
    utf8DecodeCp (utf8EncodeCp cp ++ rest) 0 = (cp, (utf8EncodeCp cp).length) := by
  have hmap := utf8EncodeCp_toNat hcp
  have hor : ∀ {x y k : ℕ}, y < 2 ^ k → x <<< k ||| y = x * 2 ^ k + y := by
    intro x y k hy
    rw [← Nat.shiftLeft_add_eq_or_of_lt hy, Nat.shiftLeft_eq]
  unfold utf8DecodeCp byteAt
  simp only [decode_masks, Nat.zero_add]
  generalize utf8EncodeCp cp = w at hmap
  split_ifs at hmap with h1 h2 h3
  · obtain ⟨a, rfl, ha⟩ := List.map_eq_singleton_iff.mp hmap
    simp [ha, h1]
  · obtain ⟨a, w, rfl, ha, hw⟩ := List.map_eq_cons_iff.mp hmap
    obtain ⟨b, rfl, hb⟩ := List.map_eq_singleton_iff.mp hw
    have hx : cp / 64 % 32 = cp / 64 := Nat.mod_eq_of_lt (by omega)
    simp only [List.cons_append, List.nil_append, List.getD_cons_zero, List.getD_cons_succ, ha, hb,
      decide_eq_true_eq, List.length_cons, List.length_nil]
    rw [if_neg (by omega), if_pos (by omega), hor (k := 6) (by omega)]
    exact Prod.ext (by simp only; omega) rfl
  · obtain ⟨a, w, rfl, ha, hw⟩ := List.map_eq_cons_iff.mp hmap
    obtain ⟨b, w, rfl, hb, hw⟩ := List.map_eq_cons_iff.mp hw
    obtain ⟨c, rfl, hc⟩ := List.map_eq_singleton_iff.mp hw
    simp only [List.cons_append, List.nil_append, List.getD_cons_zero, List.getD_cons_succ, ha, hb,
      hc, decide_eq_true_eq, List.length_cons, List.length_nil]
    rw [if_neg (by omega), if_neg (by omega), if_pos (by omega)]
    have hmid : (((0x80 + cp / 64 % 64) % 64) <<< 6) ||| ((0x80 + cp % 64) % 64) = cp % 4096 := by
      rw [hor (k := 6) (by omega)]
      omega
    rw [Nat.or_assoc, hmid, hor (k := 12) (by omega)]
    exact Prod.ext (by simp only; omega) rfl
  · obtain ⟨a, w, rfl, ha, hw⟩ := List.map_eq_cons_iff.mp hmap
    obtain ⟨b, w, rfl, hb, hw⟩ := List.map_eq_cons_iff.mp hw
    obtain ⟨c, w, rfl, hc, hw⟩ := List.map_eq_cons_iff.mp hw
    obtain ⟨d, rfl, hd⟩ := List.map_eq_singleton_iff.mp hw
    simp only [List.cons_append, List.nil_append, List.getD_cons_zero, List.getD_cons_succ, ha, hb,
      hc, hd, decide_eq_true_eq, List.length_cons, List.length_nil]
    rw [if_neg (by omega), if_neg (by omega), if_neg (by omega), if_pos (by omega)]
    have hlow : (((0x80 + cp / 64 % 64) % 64) <<< 6) ||| ((0x80 + cp % 64) % 64) = cp % 4096 := by
      rw [hor (k := 6) (by omega)]
      omega
    have hmid : (((0x80 + cp / 4096 % 64) % 64) <<< 12) ||| (cp % 4096) = cp % 262144 := by
      rw [hor (k := 12) (by omega)]
      omega
    rw [Nat.or_assoc, Nat.or_assoc, hlow, hmid, hor (k := 18) (by omega)]
    exact Prod.ext (by simp only; omega) rfl

end Torajs.Regex
