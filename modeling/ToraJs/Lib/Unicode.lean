import Mathlib.Algebra.Order.Group.Nat
import Mathlib.Data.List.Basic
import Mathlib.Data.List.Chain

/-!
# Code points as bytes and as code units

Generalized UTF-8 writes every code point, surrogates included, in one to four bytes; UTF-16
writes it in one or two code units.  The bytes of a code point are the sequences of the table of
well-formed forms, no one of which begins another.

A string of code units is the code units of exactly one string of code points in which no high
surrogate stands right before a low one: its *joined* code points.
-/

namespace Torajs.Unicode

/-! ### Bytes -/

/-- Generalized UTF-8. -/
def enc (cp : ℕ) : List ℕ :=
  if cp < 0x80 then [cp]
  else if cp < 0x800 then [0xC0 + cp / 64, 0x80 + cp % 64]
  else if cp < 0x10000 then [0xE0 + cp / 4096, 0x80 + cp / 64 % 64, 0x80 + cp % 64]
  else [0xF0 + cp / 262144, 0x80 + cp / 4096 % 64, 0x80 + cp / 64 % 64, 0x80 + cp % 64]

/-- A byte that continues a sequence. -/
def IsTail (b : ℕ) : Prop := 0x80 ≤ b ∧ b < 0xC0

/-- The well-formed sequences with the code points they stand for. -/
inductive Form : List ℕ → ℕ → Prop
  | one {a : ℕ} : a < 0x80 → Form [a] a
  | two {a b : ℕ} : 0xC2 ≤ a → a < 0xE0 → IsTail b →
      Form [a, b] ((a - 0xC0) * 64 + (b - 0x80))
  | three {a b c : ℕ} : 0xE0 ≤ a → a < 0xF0 → IsTail b → IsTail c → (a = 0xE0 → 0xA0 ≤ b) →
      Form [a, b, c] ((a - 0xE0) * 4096 + (b - 0x80) * 64 + (c - 0x80))
  | four {a b c d : ℕ} : 0xF0 ≤ a → a < 0xF5 → IsTail b → IsTail c → IsTail d →
      (a = 0xF0 → 0x90 ≤ b) → (a = 0xF4 → b < 0x90) →
      Form [a, b, c, d]
        ((a - 0xF0) * 262144 + (b - 0x80) * 4096 + (c - 0x80) * 64 + (d - 0x80))

/-- The bytes of a code point are well formed. -/
lemma form_enc {cp : ℕ} (hcp : cp ≤ 0x10FFFF) : Form (enc cp) cp := by
  rw [enc]
  split_ifs with h1 h2 h3
  · exact Form.one h1
  · have hform : Form [0xC0 + cp / 64, 0x80 + cp % 64]
        ((0xC0 + cp / 64 - 0xC0) * 64 + (0x80 + cp % 64 - 0x80)) :=
      Form.two (by omega) (by omega) ⟨by omega, by omega⟩
    rwa [show (0xC0 + cp / 64 - 0xC0) * 64 + (0x80 + cp % 64 - 0x80) = cp by omega] at hform
  · have hform : Form [0xE0 + cp / 4096, 0x80 + cp / 64 % 64, 0x80 + cp % 64]
        ((0xE0 + cp / 4096 - 0xE0) * 4096 + (0x80 + cp / 64 % 64 - 0x80) * 64 +
          (0x80 + cp % 64 - 0x80)) :=
      Form.three (by omega) (by omega) ⟨by omega, by omega⟩ ⟨by omega, by omega⟩ (by omega)
    rwa [show (0xE0 + cp / 4096 - 0xE0) * 4096 + (0x80 + cp / 64 % 64 - 0x80) * 64 +
      (0x80 + cp % 64 - 0x80) = cp by omega] at hform
  · have hform : Form
        [0xF0 + cp / 262144, 0x80 + cp / 4096 % 64, 0x80 + cp / 64 % 64, 0x80 + cp % 64]
        ((0xF0 + cp / 262144 - 0xF0) * 262144 + (0x80 + cp / 4096 % 64 - 0x80) * 4096 +
          (0x80 + cp / 64 % 64 - 0x80) * 64 + (0x80 + cp % 64 - 0x80)) :=
      Form.four (by omega) (by omega) ⟨by omega, by omega⟩ ⟨by omega, by omega⟩
        ⟨by omega, by omega⟩ (by omega) (by omega)
    rwa [show (0xF0 + cp / 262144 - 0xF0) * 262144 + (0x80 + cp / 4096 % 64 - 0x80) * 4096 +
      (0x80 + cp / 64 % 64 - 0x80) * 64 + (0x80 + cp % 64 - 0x80) = cp by omega] at hform

/-- A well-formed sequence is the bytes of its code point. -/
lemma Form.eq_enc {bs : List ℕ} {cp : ℕ} (h : Form bs cp) : cp ≤ 0x10FFFF ∧ bs = enc cp := by
  cases h with
  | one ha => exact ⟨by omega, by rw [enc, if_pos ha]⟩
  | @two a b ha ha' hb =>
    obtain ⟨hb, hb'⟩ := hb
    refine ⟨by omega, ?_⟩
    rw [enc, if_neg (by omega), if_pos (by omega),
      show 0xC0 + ((a - 0xC0) * 64 + (b - 0x80)) / 64 = a by omega,
      show 0x80 + ((a - 0xC0) * 64 + (b - 0x80)) % 64 = b by omega]
  | @three a b c ha ha' hb hc hlong =>
    obtain ⟨hb, hb'⟩ := hb
    obtain ⟨hc, hc'⟩ := hc
    refine ⟨by omega, ?_⟩
    rw [enc, if_neg (by omega), if_neg (by omega), if_pos (by omega),
      show 0xE0 + ((a - 0xE0) * 4096 + (b - 0x80) * 64 + (c - 0x80)) / 4096 = a by omega,
      show 0x80 + ((a - 0xE0) * 4096 + (b - 0x80) * 64 + (c - 0x80)) / 64 % 64 = b by omega,
      show 0x80 + ((a - 0xE0) * 4096 + (b - 0x80) * 64 + (c - 0x80)) % 64 = c by omega]
  | @four a b c d ha ha' hb hc hd hlong hhigh =>
    obtain ⟨hb, hb'⟩ := hb
    obtain ⟨hc, hc'⟩ := hc
    obtain ⟨hd, hd'⟩ := hd
    generalize hn : (a - 0xF0) * 262144 + (b - 0x80) * 4096 + (c - 0x80) * 64 + (d - 0x80) = n
    refine ⟨by omega, ?_⟩
    rw [enc, if_neg (by omega), if_neg (by omega), if_neg (by omega),
      show 0xF0 + n / 262144 = a by omega, show 0x80 + n / 4096 % 64 = b by omega,
      show 0x80 + n / 64 % 64 = c by omega, show 0x80 + n % 64 = d by omega]

/-- **The well-formed sequences are the bytes of the code points.** -/
theorem form_iff {bs : List ℕ} {cp : ℕ} : Form bs cp ↔ cp ≤ 0x10FFFF ∧ bs = enc cp := by
  refine ⟨Form.eq_enc, ?_⟩
  rintro ⟨hcp, rfl⟩
  exact form_enc hcp

/-- The length of the sequence a byte leads. -/
def leadLength (a : ℕ) : ℕ :=
  if a < 0x80 then 1 else if a < 0xE0 then 2 else if a < 0xF0 then 3 else 4

lemma Form.length {bs : List ℕ} {cp : ℕ} (h : Form bs cp) :
    ∃ a tail, bs = a :: tail ∧ bs.length = leadLength a := by
  cases h with
  | one ha => exact ⟨_, _, rfl, by rw [leadLength, if_pos ha]; rfl⟩
  | two ha ha' hb => exact ⟨_, _, rfl, by rw [leadLength, if_neg (by omega), if_pos ha']; rfl⟩
  | three ha ha' hb hc hlong =>
    exact ⟨_, _, rfl, by rw [leadLength, if_neg (by omega), if_neg (by omega), if_pos ha']; rfl⟩
  | four ha ha' hb hc hd hlong hhigh =>
    exact ⟨_, _, rfl, by
      rw [leadLength, if_neg (by omega), if_neg (by omega), if_neg (by omega)]; rfl⟩

/-- **No well-formed sequence begins another.** -/
theorem Form.append_inj {bs bs' r r' : List ℕ} {cp cp' : ℕ} (h : Form bs cp) (h' : Form bs' cp')
    (heq : bs ++ r = bs' ++ r') : cp = cp' ∧ bs = bs' ∧ r = r' := by
  have hlen : bs.length = bs'.length := by
    obtain ⟨a, tail, rfl, hlen⟩ := h.length
    obtain ⟨a', tail', rfl, hlen'⟩ := h'.length
    rw [hlen, hlen', (List.cons.inj heq).1]
  obtain ⟨rfl, hr⟩ := List.append_inj heq hlen
  refine ⟨?_, rfl, hr⟩
  cases h <;> cases h' <;> rfl

/-! ### Reading bytes -/

/-- The code point of a sequence of its length. -/
def seqValue : List ℕ → ℕ
  | [a] => a
  | [a, b] => (a - 0xC0) * 64 + (b - 0x80)
  | [a, b, c] => (a - 0xE0) * 4096 + (b - 0x80) * 64 + (c - 0x80)
  | [a, b, c, d] => (a - 0xF0) * 262144 + (b - 0x80) * 4096 + (c - 0x80) * 64 + (d - 0x80)
  | _ => 0

lemma Form.seqValue {bs : List ℕ} {cp : ℕ} (h : Form bs cp) : seqValue bs = cp := by
  cases h <;> rfl

/-- The code point at the front of some bytes, and what is left. -/
def readPoint : List ℕ → Option (ℕ × List ℕ)
  | [] => none
  | a :: bs =>
    let w := (a :: bs).take (leadLength a)
    if seqValue w ≤ 0x10FFFF ∧ enc (seqValue w) = w then
      some (seqValue w, (a :: bs).drop (leadLength a))
    else none

/-- Bytes are read as a code point exactly when they begin with its bytes. -/
theorem readPoint_eq_some {bs r : List ℕ} {cp : ℕ} :
    readPoint bs = some (cp, r) ↔ cp ≤ 0x10FFFF ∧ bs = enc cp ++ r := by
  constructor
  · intro h
    cases bs with
    | nil => cases h
    | cons a bs =>
      rw [readPoint] at h
      obtain ⟨⟨hcp, henc⟩, h⟩ := Option.ite_none_right_eq_some.mp h
      obtain ⟨rfl, rfl⟩ := Prod.mk.inj (Option.some.inj h)
      rw [henc]
      exact ⟨hcp, (List.take_append_drop _ _).symm⟩
  · rintro ⟨hcp, rfl⟩
    have hform := form_enc hcp
    obtain ⟨a, tail, heq, hlen⟩ := hform.length
    have htake : (enc cp ++ r).take (leadLength a) = enc cp := by
      rw [← hlen, List.take_left]
    have hdrop : (enc cp ++ r).drop (leadLength a) = r := by
      rw [← hlen, List.drop_left]
    have hcons : enc cp ++ r = a :: (tail ++ r) := by
      rw [heq]
      rfl
    rw [hcons] at htake hdrop ⊢
    rw [readPoint, htake, hdrop, hform.seqValue]
    exact if_pos ⟨hcp, rfl⟩

/-! ### Surrogates and code units -/

/-- A high surrogate. -/
def IsHigh (u : ℕ) : Prop := 0xD800 ≤ u ∧ u < 0xDC00

/-- A low surrogate. -/
def IsLow (u : ℕ) : Prop := 0xDC00 ≤ u ∧ u < 0xE000

instance (b : ℕ) : Decidable (IsTail b) := inferInstanceAs (Decidable (_ ∧ _))

instance (u : ℕ) : Decidable (IsHigh u) := inferInstanceAs (Decidable (_ ∧ _))

instance (u : ℕ) : Decidable (IsLow u) := inferInstanceAs (Decidable (_ ∧ _))

/-- The code point of a surrogate pair. -/
def joinPair (hi lo : ℕ) : ℕ := 0x10000 + (hi - 0xD800) * 1024 + (lo - 0xDC00)

/-- The code units of a code point. -/
def units (cp : ℕ) : List ℕ :=
  if cp < 0x10000 then [cp] else [0xD800 + (cp - 0x10000) / 1024, 0xDC00 + (cp - 0x10000) % 1024]

/-- Code points in which no high surrogate stands right before a low one. -/
def Joined (cps : List ℕ) : Prop := cps.IsChain fun a b => ¬ (IsHigh a ∧ IsLow b)

lemma units_joinPair {hi lo : ℕ} (hhi : IsHigh hi) (hlo : IsLow lo) :
    units (joinPair hi lo) = [hi, lo] := by
  obtain ⟨h1, h2⟩ := hhi
  obtain ⟨h3, h4⟩ := hlo
  have hvalue : joinPair hi lo = 0x10000 + (hi - 0xD800) * 1024 + (lo - 0xDC00) := rfl
  generalize joinPair hi lo = cp at hvalue
  have hlarge : ¬ cp < 0x10000 := by omega
  rw [units, if_neg hlarge, show 0xD800 + (cp - 0x10000) / 1024 = hi by omega,
    show 0xDC00 + (cp - 0x10000) % 1024 = lo by omega]

lemma joinPair_bounds {hi lo : ℕ} (hhi : IsHigh hi) (hlo : IsLow lo) :
    0x10000 ≤ joinPair hi lo ∧ joinPair hi lo ≤ 0x10FFFF := by
  obtain ⟨h1, h2⟩ := hhi
  obtain ⟨h3, h4⟩ := hlo
  have hvalue : joinPair hi lo = 0x10000 + (hi - 0xD800) * 1024 + (lo - 0xDC00) := rfl
  generalize joinPair hi lo = cp at hvalue
  constructor <;> omega

/-- A code point behind the first plane is a surrogate pair. -/
lemma units_eq_pair {cp : ℕ} (hcp : cp ≤ 0x10FFFF) (hlarge : 0x10000 ≤ cp) :
    ∃ hi lo, IsHigh hi ∧ IsLow lo ∧ units cp = [hi, lo] ∧ joinPair hi lo = cp := by
  have hjoin : joinPair (0xD800 + (cp - 0x10000) / 1024) (0xDC00 + (cp - 0x10000) % 1024) = cp := by
    unfold joinPair
    omega
  exact ⟨_, _, ⟨by omega, by omega⟩, ⟨by omega, by omega⟩, if_neg (Nat.not_lt.mpr hlarge), hjoin⟩

lemma units_small {cp : ℕ} (h : cp < 0x10000) : units cp = [cp] := if_pos h

lemma IsHigh.small {u : ℕ} (h : IsHigh u) : u < 0x10000 := by
  have := h.2
  omega

lemma IsLow.small {u : ℕ} (h : IsLow u) : u < 0x10000 := by
  have := h.2
  omega

lemma IsLow.not_isHigh {u : ℕ} (h : IsLow u) : ¬ IsHigh u := fun h' => by
  have := h.1
  have := h'.2
  omega

lemma Joined.of_cons {c : ℕ} {cps : List ℕ} (h : Joined (c :: cps)) : Joined cps :=
  List.IsChain.tail h

/-- Joined code points that follow a high surrogate do not begin with the code unit of a low
one. -/
lemma Joined.head_not_low {cps : List ℕ} {hi lo : ℕ} {us : List ℕ} (h : Joined (hi :: cps))
    (hhi : IsHigh hi) (hlo : IsLow lo) (hcps : ∀ c ∈ cps, c ≤ 0x10FFFF)
    (hunits : cps.flatMap units = lo :: us) : False := by
  cases cps with
  | nil => cases hunits
  | cons c cps =>
    rw [List.flatMap_cons] at hunits
    rcases Nat.lt_or_ge c 0x10000 with hsmall | hlarge
    · rw [units_small hsmall] at hunits
      rw [(List.cons.inj hunits).1] at h
      exact (List.isChain_cons_cons.mp h).1 ⟨hhi, hlo⟩
    · obtain ⟨hi', lo', hhi', -, hpair, -⟩ := units_eq_pair (hcps c List.mem_cons_self) hlarge
      rw [hpair] at hunits
      rw [(List.cons.inj hunits).1] at hhi'
      exact hlo.not_isHigh hhi'

/-- **Joined code points with the same code units are the same.** -/
theorem Joined.units_inj {cps cps' : List ℕ} (h : Joined cps) (h' : Joined cps')
    (hcps : ∀ c ∈ cps, c ≤ 0x10FFFF) (hcps' : ∀ c ∈ cps', c ≤ 0x10FFFF)
    (heq : cps.flatMap units = cps'.flatMap units) : cps = cps' := by
  have hne : ∀ c, units c ≠ [] := by
    intro c hnil
    rw [units] at hnil
    split_ifs at hnil
  induction cps generalizing cps' with
  | nil =>
    cases cps' with
    | nil => rfl
    | cons c cps' =>
      rw [List.flatMap_nil, List.flatMap_cons] at heq
      exact absurd (List.append_eq_nil_iff.mp heq.symm).1 (hne c)
  | cons c cps ih =>
    cases cps' with
    | nil =>
      rw [List.flatMap_nil, List.flatMap_cons] at heq
      exact absurd (List.append_eq_nil_iff.mp heq).1 (hne c)
    | cons c' cps' =>
      have hrest := fun d hd => hcps d (List.mem_cons_of_mem _ hd)
      have hrest' := fun d hd => hcps' d (List.mem_cons_of_mem _ hd)
      rw [List.flatMap_cons, List.flatMap_cons] at heq
      rcases Nat.lt_or_ge c 0x10000 with hsmall | hlarge
      · rcases Nat.lt_or_ge c' 0x10000 with hsmall' | hlarge'
        · rw [units_small hsmall, units_small hsmall'] at heq
          obtain ⟨rfl, htail⟩ := List.cons.inj heq
          rw [ih h.of_cons h'.of_cons hrest hrest' htail]
        · obtain ⟨hi, lo, hhi, hlo, hpair, -⟩ :=
            units_eq_pair (hcps' c' List.mem_cons_self) hlarge'
          rw [units_small hsmall, hpair] at heq
          obtain ⟨rfl, htail⟩ := List.cons.inj heq
          exact (h.head_not_low hhi hlo hrest htail).elim
      · obtain ⟨hi, lo, hhi, hlo, hpair, hjoin⟩ := units_eq_pair (hcps c List.mem_cons_self) hlarge
        rcases Nat.lt_or_ge c' 0x10000 with hsmall' | hlarge'
        · rw [units_small hsmall', hpair] at heq
          obtain ⟨rfl, htail⟩ := List.cons.inj heq
          exact (h'.head_not_low hhi hlo hrest' htail.symm).elim
        · obtain ⟨hi', lo', -, -, hpair', hjoin'⟩ :=
            units_eq_pair (hcps' c' List.mem_cons_self) hlarge'
          rw [hpair, hpair'] at heq
          obtain ⟨rfl, htail⟩ := List.cons.inj heq
          obtain ⟨rfl, hrests⟩ := List.cons.inj htail
          rw [← hjoin, ← hjoin', ih h.of_cons h'.of_cons hrest hrest' hrests]

/-! ### Strings of code points -/

lemma enc_ne_nil (cp : ℕ) : enc cp ≠ [] := by
  intro hnil
  rw [enc] at hnil
  split_ifs at hnil

/-- The bytes behind the first are continuation bytes. -/
lemma isTail_of_mem_tail {cp b : ℕ} (hb : b ∈ (enc cp).tail) : IsTail b := by
  have htail : ∀ n, IsTail (0x80 + n % 64) := fun n => ⟨by omega, by omega⟩
  rw [enc] at hb
  split_ifs at hb
  · cases hb
  · rw [List.mem_singleton.mp hb]
    exact htail _
  · rcases List.mem_cons.mp hb with rfl | hb
    · exact htail _
    · rw [List.mem_singleton.mp hb]
      exact htail _
  · rcases List.mem_cons.mp hb with rfl | hb
    · exact htail _
    · rcases List.mem_cons.mp hb with rfl | hb
      · exact htail _
      · rw [List.mem_singleton.mp hb]
        exact htail _

/-- **The bytes give back the code points.** -/
theorem enc_inj {cps cps' : List ℕ} (hcps : ∀ c ∈ cps, c ≤ 0x10FFFF)
    (hcps' : ∀ c ∈ cps', c ≤ 0x10FFFF) (h : cps.flatMap enc = cps'.flatMap enc) : cps = cps' := by
  induction cps generalizing cps' with
  | nil =>
    cases cps' with
    | nil => rfl
    | cons c cps' =>
      rw [List.flatMap_nil, List.flatMap_cons] at h
      exact absurd (List.append_eq_nil_iff.mp h.symm).1 (enc_ne_nil c)
  | cons c cps ih =>
    cases cps' with
    | nil =>
      rw [List.flatMap_nil, List.flatMap_cons] at h
      exact absurd (List.append_eq_nil_iff.mp h).1 (enc_ne_nil c)
    | cons c' cps' =>
      rw [List.flatMap_cons, List.flatMap_cons] at h
      obtain ⟨rfl, -, hrest⟩ := (form_enc (hcps c List.mem_cons_self)).append_inj
        (form_enc (hcps' c' List.mem_cons_self)) h
      rw [ih (fun d hd => hcps d (List.mem_cons_of_mem _ hd))
        (fun d hd => hcps' d (List.mem_cons_of_mem _ hd)) hrest]

/-- **A byte that continues no sequence begins one.** -/
theorem exists_split_of_lead {cps p q : List ℕ} {a : ℕ} (ha : ¬ IsTail a)
    (h : cps.flatMap enc = p ++ a :: q) :
    ∃ cps₁ cps₂, cps = cps₁ ++ cps₂ ∧ cps₁.flatMap enc = p ∧ cps₂.flatMap enc = a :: q := by
  induction cps generalizing p with
  | nil => exact absurd h.symm (List.append_ne_nil_of_right_ne_nil _ (List.cons_ne_nil _ _))
  | cons c cps ih =>
    have hsplit := h
    rw [List.flatMap_cons, List.append_eq_append_iff] at hsplit
    rcases hsplit with ⟨p', rfl, hrest⟩ | ⟨bs, hbs, hrest⟩
    · obtain ⟨cps₁, cps₂, rfl, rfl, hlead⟩ := ih hrest
      exact ⟨c :: cps₁, cps₂, rfl, rfl, hlead⟩
    · cases p with
      | nil => exact ⟨[], c :: cps, rfl, rfl, h⟩
      | cons x p =>
        cases bs with
        | nil =>
          rw [List.append_nil] at hbs
          refine ⟨[c], cps, rfl, ?_, hrest.symm⟩
          rw [List.flatMap_singleton, hbs]
        | cons b bs =>
          obtain ⟨rfl, -⟩ := List.cons.inj hrest
          have hmem : a ∈ (enc c).tail := by
            rw [hbs]
            exact List.mem_append_right p List.mem_cons_self
          exact absurd (isTail_of_mem_tail hmem) ha

/-- A string that begins as a surrogate does begins with one. -/
lemma exists_surrogate {cps r : List ℕ} {b : ℕ} (hcps : ∀ c ∈ cps, c ≤ 0x10FFFF)
    (h : cps.flatMap enc = 0xED :: b :: r) :
    ∃ b' cps', cps = (0xD000 + (b - 0x80) * 64 + (b' - 0x80)) :: cps' ∧
      r = b' :: cps'.flatMap enc ∧ IsTail b ∧ IsTail b' := by
  cases cps with
  | nil => cases h
  | cons c cps =>
    have hform := form_enc (hcps c List.mem_cons_self)
    rw [List.flatMap_cons] at h
    generalize enc c = bs at hform h
    cases hform with
    | one ha =>
      obtain ⟨rfl, -⟩ := List.cons.inj h
      omega
    | two ha ha' hb =>
      obtain ⟨rfl, -⟩ := List.cons.inj h
      omega
    | four ha =>
      obtain ⟨rfl, -⟩ := List.cons.inj h
      omega
    | @three a b₁ b₂ ha ha' hb hb' hlong =>
      obtain ⟨rfl, htail⟩ := List.cons.inj h
      obtain ⟨rfl, rfl⟩ := List.cons.inj htail
      exact ⟨b₂, cps, rfl, rfl, hb, hb'⟩

/-- The bytes of a surrogate. -/
lemma enc_surrogate {cp : ℕ} (hlow : 0xD800 ≤ cp) (hhigh : cp < 0xE000) :
    enc cp = [0xED, 0x80 + cp / 64 % 64, 0x80 + cp % 64] := by
  rw [enc, if_neg (by omega), if_neg (by omega), if_pos (by omega),
    show 0xE0 + cp / 4096 = 0xED by omega]

/-! ### Joined code points -/

lemma joined_append {cps cps' : List ℕ} : Joined (cps ++ cps') ↔
    Joined cps ∧ Joined cps' ∧ ∀ a ∈ cps.getLast?, ∀ b ∈ cps'.head?, ¬ (IsHigh a ∧ IsLow b) :=
  List.isChain_append

lemma not_isHigh_joinPair {hi lo : ℕ} (hhi : IsHigh hi) (hlo : IsLow lo) :
    ¬ IsHigh (joinPair hi lo) := fun h => by
  have hlarge := (joinPair_bounds hhi hlo).1
  exact absurd h.small (Nat.not_lt.mpr hlarge)

lemma not_isLow_joinPair {hi lo : ℕ} (hhi : IsHigh hi) (hlo : IsLow lo) :
    ¬ IsLow (joinPair hi lo) := fun h => by
  have hlarge := (joinPair_bounds hhi hlo).1
  exact absurd h.small (Nat.not_lt.mpr hlarge)

/-- **A pair that meets at a seam is put as one code point**: the code points stay joined, and
the code units are the same. -/
theorem Joined.join {init rest : List ℕ} {hi lo : ℕ} (h : Joined (init ++ [hi]))
    (h' : Joined (lo :: rest)) (hhi : IsHigh hi) (hlo : IsLow lo) :
    Joined (init ++ joinPair hi lo :: rest) ∧
      (init ++ joinPair hi lo :: rest).flatMap units =
        (init ++ [hi]).flatMap units ++ (lo :: rest).flatMap units := by
  constructor
  · refine joined_append.mpr ⟨(joined_append.mp h).1, ?_, fun a _ b hb hpair => ?_⟩
    · cases rest with
      | nil => exact List.isChain_singleton _
      | cons c rest =>
        exact List.isChain_cons_cons.mpr
          ⟨fun hpair => not_isHigh_joinPair hhi hlo hpair.1, h'.of_cons⟩
    · obtain rfl := Option.some.inj hb
      exact not_isLow_joinPair hhi hlo hpair.2
  · rw [List.flatMap_append, List.flatMap_append, List.flatMap_singleton, List.flatMap_cons,
      List.flatMap_cons, units_joinPair hhi hlo, units_small hhi.small, units_small hlo.small,
      List.append_assoc]
    rfl

/-! ### Lone surrogates -/

/-- A surrogate that is not half of a pair. -/
def LoneSurrogate (s : List ℕ) : Prop :=
  ∃ p u r, s = p ++ u :: r ∧ (IsHigh u ∧ (∀ l ∈ r.head?, ¬ IsLow l) ∨
    IsLow u ∧ ∀ h ∈ p.getLast?, ¬ IsHigh h)

/-- A unit that is no high surrogate does not change what is lone behind it. -/
lemma loneSurrogate_cons {u : ℕ} {s : List ℕ} (hu : ¬ IsHigh u) :
    LoneSurrogate (u :: s) ↔ IsLow u ∨ LoneSurrogate s := by
  constructor
  · rintro ⟨p, v, r, hsplit, hlone⟩
    cases p with
    | nil =>
      obtain ⟨rfl, rfl⟩ := List.cons.inj hsplit
      rcases hlone with ⟨hhigh, -⟩ | ⟨hlow, -⟩
      · exact absurd hhigh hu
      · exact Or.inl hlow
    | cons q p =>
      obtain ⟨rfl, rfl⟩ := List.cons.inj hsplit
      refine Or.inr ⟨p, v, r, rfl, hlone.imp_right fun ⟨hlow, hprev⟩ => ⟨hlow, fun h hh => ?_⟩⟩
      exact hprev h (List.mem_getLast?_cons hh)
  · rintro (hlow | ⟨p, v, r, rfl, hlone⟩)
    · exact ⟨[], u, s, rfl, Or.inr ⟨hlow, (fun h hh => by cases hh)⟩⟩
    · refine ⟨u :: p, v, r, rfl, hlone.imp_right fun ⟨hlow, hprev⟩ => ⟨hlow, fun h hh => ?_⟩⟩
      cases p with
      | nil =>
        obtain rfl := Option.some.inj hh
        exact hu
      | cons q p => exact hprev h (by rwa [List.getLast?_cons_cons] at hh)

/-- Nor does a pair. -/
lemma loneSurrogate_pair {u lo : ℕ} {s : List ℕ} (hu : IsHigh u)
    (hlo : IsLow lo) : LoneSurrogate (u :: lo :: s) ↔ LoneSurrogate s := by
  have hlo' := hlo.not_isHigh
  constructor
  · rintro ⟨p, v, r, hsplit, hlone⟩
    match p, hsplit with
    | [], hsplit =>
      obtain ⟨rfl, rfl⟩ := List.cons.inj hsplit
      rcases hlone with ⟨-, hnext⟩ | ⟨hlow, -⟩
      · exact absurd hlo (hnext lo rfl)
      · exact absurd hu hlow.not_isHigh
    | [q], hsplit =>
      obtain ⟨rfl, htail⟩ := List.cons.inj hsplit
      obtain ⟨rfl, rfl⟩ := List.cons.inj htail
      rcases hlone with ⟨hhigh, -⟩ | ⟨-, hprev⟩
      · exact absurd hhigh hlo'
      · exact absurd hu (hprev _ rfl)
    | q :: q' :: p, hsplit =>
      obtain ⟨rfl, htail⟩ := List.cons.inj hsplit
      obtain ⟨rfl, rfl⟩ := List.cons.inj htail
      refine ⟨p, v, r, rfl, hlone.imp_right fun ⟨hlow, hprev⟩ => ⟨hlow, fun h hh => ?_⟩⟩
      exact hprev h (List.mem_getLast?_cons (List.mem_getLast?_cons hh))
  · rintro ⟨p, v, r, rfl, hlone⟩
    refine ⟨u :: lo :: p, v, r, rfl, hlone.imp_right fun ⟨hlow, hprev⟩ => ⟨hlow, fun h hh => ?_⟩⟩
    rw [List.getLast?_cons_cons] at hh
    cases p with
    | nil =>
      obtain rfl := Option.some.inj hh
      exact hlo'
    | cons q p => exact hprev h (by rwa [List.getLast?_cons_cons] at hh)

end Torajs.Unicode
