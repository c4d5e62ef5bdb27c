import ToraJs.Json.QuoteExact

/-!
# Strings in JSON text

One-byte payloads are quoted to the characters two-byte payloads are quoted to, so the quoted text
depends on the code units alone.  With what the passes of the reader do, quoting is undone by
reading, and a string is read exactly where one begins.
-/

namespace Torajs.Json

open Unicode

/-- The payload of a string holds its code units and nothing else. -/
def JsonSrc.Fits (data : JsonSrc) : Prop := data.base.length = stride data.latin1 * data.len

/-- The text of a string block. -/
structure StrBlock extends JsonSrc where
  fits : toJsonSrc.Fits

/-- The quoted text of some code units. -/
def quotedText (units : List ℕ) : List ℕ := 0x22 :: quotedChars none units ++ [0x22]

/-! ### One-byte payloads -/

lemma JsonSrc.units_latin1 {data : JsonSrc} (hlatin : data.latin1 = true)
    (hlen : data.len ≤ data.base.length) :
    data.units = (data.base.take data.len).map UInt8.toNat := by
  refine List.ext_getElem ?_ fun i hi hi' => ?_
  · rw [JsonSrc.length_units, List.length_map, List.length_take, Nat.min_eq_left hlen]
  · rw [JsonSrc.length_units] at hi
    simp only [JsonSrc.units, List.getElem_map, List.getElem_range, List.getElem_take]
    rw [JsonSrc.unit, if_pos hlatin, List.getD_eq_getElem?_getD,
      List.getElem?_eq_getElem (hi.trans_le hlen), Option.getD_some]

lemma narrow_not_lone {prev next : Option ℕ} {u : ℕ} (hu : u < 256) : ¬ IsLone prev u next := by
  rintro (⟨hhigh, -⟩ | ⟨hlow, -⟩)
  · have := hhigh.1
    omega
  · have := hlow.1
    omega

/-- A byte is quoted as a code unit is. -/
lemma bytePiece_eq {u : ℕ} (hu : u < 256) : bytePiece u = quotedUnit false u := by
  rw [bytePiece, quotedUnit]
  cases shortEscape u with
  | some e => rfl
  | none =>
    dsimp only
    by_cases hcontrol : u < 0x20
    · have hshift : u >>> 4 = u / 16 := Nat.shiftRight_eq_div_pow u 4
      have hmask : u &&& 0xF = u % 16 := Nat.and_two_pow_sub_one_eq_mod u 4
      rw [if_pos hcontrol, if_pos (Or.inl hcontrol), hexEscape_eq, hshift, hmask,
        show u / 4096 = 0 by omega, show u / 256 % 16 = 0 by omega,
        show u / 16 % 16 = u / 16 by omega]
      rfl
    · rw [if_neg hcontrol, if_neg (not_or.mpr ⟨hcontrol, Bool.false_ne_true⟩)]

/-- **The walk over bytes** writes the quoted characters. -/
lemma flatMap_bytePiece (prev : Option ℕ) (bytes : List UInt8) :
    bytes.flatMap (fun c => bytePiece c.toNat) = quotedChars prev (bytes.map UInt8.toNat) := by
  induction bytes generalizing prev with
  | nil => rfl
  | cons c bytes ih =>
    have hc : c.toNat < 256 := UInt8.toNat_lt c
    rw [List.flatMap_cons, List.map_cons, quotedChars, decide_eq_false (narrow_not_lone hc),
      ← bytePiece_eq hc, ih (some c.toNat)]

lemma writeEscaped_eq (bytes : List UInt8) :
    writeEscaped bytes = quotedText (bytes.map UInt8.toNat) := by
  rw [writeEscaped, flatMap_bytePiece none]
  rfl

/-- The sizing pass counts what is written. -/
lemma escapedLen_eq (bytes : List UInt8) : escapedLen bytes = (writeEscaped bytes).length := by
  have hpiece : ∀ c, (bytePiece c).length =
      if isShort c = true then 2 else if c < 0x20 then 6 else 1 := by
    intro c
    rw [bytePiece, isShort_eq]
    cases shortEscape c with
    | some e => rfl
    | none =>
      dsimp only [Option.isSome_none]
      rw [if_neg Bool.false_ne_true]
      split_ifs
      · rfl
      · rfl
  have hrun : ∀ (l : List UInt8) (a : ℕ), l.foldl
      (fun out c => out + if isShort c.toNat then 2 else if c.toNat < 0x20 then 6 else 1) a =
      a + (l.flatMap fun c => bytePiece c.toNat).length := by
    intro l
    induction l with
    | nil => exact fun a => rfl
    | cons c l ih =>
      intro a
      rw [List.foldl_cons, ih, List.flatMap_cons, List.length_append, hpiece, Nat.add_assoc]
  rw [escapedLen, hrun, writeEscaped, List.length_append, List.length_cons, List.length_singleton]
  omega

/-- Bytes that need no escape are quoted as they are. -/
lemma writeEscaped_of_plain {bytes : List UInt8} (h : needsEscape bytes = false) :
    writeEscaped bytes = 0x22 :: bytes.map UInt8.toNat ++ [0x22] := by
  have hpiece : ∀ c ∈ bytes, bytePiece c.toNat = [c.toNat] := by
    intro c hc
    have hplain := List.any_eq_false.mp h c hc
    simp only [Bool.or_eq_true, decide_eq_true_eq, not_or] at hplain
    obtain ⟨⟨hcontrol, hquote⟩, hslash⟩ := hplain
    have hshort : shortEscape c.toNat = none := by
      rw [shortEscape, if_neg hquote, if_neg hslash]
      rw [if_neg (by omega), if_neg (by omega), if_neg (by omega), if_neg (by omega),
        if_neg (by omega)]
    rw [bytePiece, hshort]
    exact if_neg hcontrol
  have hall : bytes.flatMap (fun c => bytePiece c.toNat) = bytes.map UInt8.toNat := by
    rw [List.flatMap_congr hpiece]
    exact List.map_eq_flatMap.symm
  rw [writeEscaped, hall]

/-! ### Both encodings -/

/-- The units a payload can hold. -/
def unitBound (latin1 : Bool) : ℕ := if latin1 then 256 else 65536

lemma JsonSrc.units_lt (data : JsonSrc) : ∀ u ∈ data.units, u < unitBound data.latin1 := by
  intro u hu
  obtain ⟨i, -, rfl⟩ := List.mem_map.mp hu
  cases hlatin : data.latin1 with
  | true =>
    rw [JsonSrc.unit, if_pos hlatin]
    exact UInt8.toNat_lt _
  | false => exact data.unit_lt i

lemma unitBound_le (latin1 : Bool) : 256 ≤ unitBound latin1 ∧ unitBound latin1 ≤ 65536 := by
  cases latin1 <;> decide

/-- Quoted characters are no wider than the code units. -/
lemma quotedText_lt (latin1 : Bool) {units : List ℕ} (hunits : ∀ u ∈ units, u < unitBound latin1) :
    ∀ v ∈ quotedText units, v < unitBound latin1 := by
  obtain ⟨hlow, hhigh⟩ := unitBound_le latin1
  have hchars : ∀ prev, ∀ v ∈ quotedChars prev units, v < unitBound latin1 := by
    induction units with
    | nil => exact fun prev v hv => absurd hv List.not_mem_nil
    | cons u units ih =>
      intro prev v hv
      have hu := hunits u List.mem_cons_self
      rcases List.mem_append.mp hv with hv | hv
      · rcases quotedUnit_cases (decide (IsLone prev u units.head?)) (hu.trans_le hhigh) with
          hascii | ⟨hsame, -⟩
        · exact (hascii v hv).trans_le (le_trans (by omega) hlow)
        · rw [hsame] at hv
          rw [List.mem_singleton.mp hv]
          exact hu
      · exact ih (fun w hw => hunits w (List.mem_cons_of_mem u hw)) (some u) v hv
  have hquote : 0x22 < unitBound latin1 := lt_of_lt_of_le (by omega) hlow
  intro v hv
  rcases List.mem_append.mp hv with hv | hv
  · rcases List.mem_cons.mp hv with rfl | hv
    · exact hquote
    · exact hchars none v hv
  · rw [List.mem_singleton.mp hv]
    exact hquote

/-- **Quoting writes the quoted text of the code units**, with the length that was counted. -/
theorem quoteStr_eq (data : StrBlock) :
    quoteStr data.toJsonSrc =
      if strMaxLen < (quotedText data.units).length then none
      else some ⟨writtenBytes data.latin1 (quotedText data.units),
        (quotedText data.units).length, data.latin1⟩ := by
  obtain ⟨data, hfits⟩ := data
  dsimp only
  rw [quoteStr]
  cases hlatin : data.latin1 with
  | false =>
    rw [if_neg Bool.false_ne_true]
    exact quoteUtf16_eq data
  | true =>
    have hlen : data.len ≤ data.base.length := by
      rw [hfits, hlatin, stride, if_pos rfl, Nat.one_mul]
    have hunits := JsonSrc.units_latin1 hlatin hlen
    have hbytes : (data.base.take data.len).length = data.len := by
      rw [List.length_take, Nat.min_eq_left hlen]
    rw [if_pos rfl, hunits, ← writeEscaped_eq]
    dsimp only
    by_cases hneeds : needsEscape (data.base.take data.len) = true
    · rw [if_pos hneeds, escapedLen_eq]
    · rw [if_neg hneeds, writeEscaped_of_plain (Bool.eq_false_of_not_eq_true hneeds)]
      have hcount : (0x22 :: (data.base.take data.len).map UInt8.toNat ++ [0x22]).length =
          data.len + 2 := by
        rw [List.length_append, List.length_cons, List.length_map, hbytes, List.length_singleton]
      have hwritten : writtenBytes true
          (0x22 :: (data.base.take data.len).map UInt8.toNat ++ [0x22]) =
          0x22 :: data.base.take data.len ++ [0x22] := by
        have hsame : ((data.base.take data.len).map UInt8.toNat).map UInt8.ofNat =
            data.base.take data.len := by
          rw [List.map_map]
          exact List.map_id'' (fun c => UInt8.ofNat_toNat) _
        rw [writtenBytes, if_pos rfl, List.map_append, List.map_cons, hsame]
        rfl
      rw [hcount, hwritten]

/-! ### What is read -/

/-- The characters of a string stand for code units. -/
lemma jsonChars_lt {chars out : List ℕ} (h : JsonChars chars out) (hchars : ∀ c ∈ chars, c < 65536) :
    ∀ u ∈ out, u < 65536 := by
  induction h with
  | nil => exact fun u hu => absurd hu List.not_mem_nil
  | unescaped _ _ _ _ ih =>
    obtain ⟨hc, hrest⟩ := List.forall_mem_cons.mp hchars
    exact List.forall_mem_cons.mpr ⟨hc, ih hrest⟩
  | escape he _ ih =>
    have hrest := (List.forall_mem_cons.mp (List.forall_mem_cons.mp hchars).2).2
    have hv := (escapeValue_le he).2.1
    exact List.forall_mem_cons.mpr ⟨by omega, ih hrest⟩
  | hex ha hb hc hd _ ih =>
    have hla := hexDigit_lt ha
    have hlb := hexDigit_lt hb
    have hlc := hexDigit_lt hc
    have hld := hexDigit_lt hd
    refine List.forall_mem_cons.mpr ⟨by omega, ih fun c hmem => hchars c ?_⟩
    simp only [List.mem_cons, hmem, or_true]

lemma fits_written (latin1 : Bool) (units : List ℕ) :
    JsonSrc.Fits ⟨writtenBytes latin1 units, units.length, latin1⟩ :=
  length_writtenBytes latin1 units

/-- Two bytes a unit are enough, and one when every unit fits in it. -/
lemma units_written_narrowest {out : List ℕ} (hout : ∀ u ∈ out, u < 65536) :
    JsonSrc.units ⟨writtenBytes (decide (∀ u ∈ out, u ≤ 0xFF)) out, out.length,
      decide (∀ u ∈ out, u ≤ 0xFF)⟩ = out := by
  refine units_written _ fun u hu => ?_
  split_ifs with hnarrow
  · exact Nat.lt_succ_of_le (of_decide_eq_true hnarrow u hu)
  · exact hout u hu

/-- A string that begins behind the whitespace is read. -/
theorem parseString_of_begins {data : JsonSrc} {pos : ℕ} {text out rest : List ℕ}
    (h : BeginsString (data.units.drop (skipWs data pos)) text out rest) :
    let latin1 := decide (∀ u ∈ out, u ≤ 0xFF)
    parseString data pos = .ok
      ⟨⟨writtenBytes latin1 out, out.length, latin1⟩, skipWs data pos + text.length⟩ := by
  obtain ⟨chars, rfl, hdrop, hjson⟩ := h
  rw [List.append_assoc, List.cons_append] at hdrop
  obtain ⟨hlt, hquote, hrest⟩ := JsonSrc.lt_len_of_drop hdrop
  obtain ⟨w, hscan, hwide⟩ := scanFrom_of_chars hjson 0 0 le_rfl hrest
  have hwrite := writeFrom_of_chars hjson le_rfl hrest
  have hin : ¬ data.len ≤ skipWs data pos + 1 + chars.length := by
    have htail := congrArg List.length hrest
    rw [List.length_drop, data.length_units, List.length_append, List.length_append,
      List.length_singleton] at htail
    omega
  have hopen : ¬ (data.len ≤ skipWs data pos ∨ data.ascii (skipWs data pos) ≠ 0x22) := by
    rw [not_or, not_not, JsonSrc.ascii_eq_iff (by omega) (by omega)]
    exact ⟨Nat.not_le.mpr hlt, hquote⟩
  have hlatin : decide (w ≤ 0xFF) = decide (∀ u ∈ out, u ≤ 0xFF) := by
    rw [decide_eq_decide, hwide]
    exact and_iff_right (Nat.zero_le _)
  rw [parseString]
  dsimp only
  rw [if_neg hopen, hscan]
  dsimp only
  rw [if_neg hin, hlatin, Nat.add_sub_cancel_left, hwrite, Nat.zero_add]
  simp only [List.length_append, List.length_cons, List.length_nil]
  congr 2
  omega

/-- **A string that is read begins behind the whitespace.** -/
theorem begins_of_parseString {data : JsonSrc} {pos : ℕ} {r : StrResult}
    (h : parseString data pos = .ok r) :
    ∃ text out rest, BeginsString (data.units.drop (skipWs data pos)) text out rest := by
  rw [parseString] at h
  dsimp only at h
  by_cases hopen : data.len ≤ skipWs data pos ∨ data.ascii (skipWs data pos) ≠ 0x22
  · rw [if_pos hopen] at h
    cases h
  · rw [if_neg hopen] at h
    rw [not_or, not_not, JsonSrc.ascii_eq_iff (by omega) (by omega)] at hopen
    obtain ⟨hlt, hquote⟩ := hopen
    cases hscan : scanFrom data (data.len - (skipWs data pos + 1)) (skipWs data pos + 1) 0 0 with
    | error e =>
      rw [hscan] at h
      cases h
    | ok s =>
      rw [hscan] at h
      by_cases hend : data.len ≤ s.1
      · have hnone := h
        obtain ⟨scan, outLen, widest⟩ := s
        dsimp only at hnone hend
        rw [if_pos hend] at hnone
        cases hnone
      · obtain ⟨chars, out, hchars, hjson⟩ := scanFrom_ok le_rfl hscan (Nat.not_le.mp hend)
        refine ⟨0x22 :: chars ++ [0x22], out, data.units.drop (s.1 + 1), chars, rfl, ?_, hjson⟩
        rw [JsonSrc.drop_units (Nat.not_le.mp hlt), hquote, hchars, List.append_assoc]
        rfl

/-! ### The round trip -/

/-- The whitespace before a text that begins with none is the whitespace that is skipped. -/
lemma skipWs_eq {data : JsonSrc} {pos k u : ℕ} {s : List ℕ} (hskip : IsSkipped (data.units.drop pos) k)
    (hdrop : data.units.drop (pos + k) = u :: s) : skipWs data pos = pos + k := by
  obtain ⟨k', hk', htake, hhead⟩ := skipWs_spec data pos
  have hget : ∀ i, (data.units.drop pos)[i]? = ((data.units.drop pos).drop i).head? :=
    fun i => List.head?_drop.symm
  have hblank : ∀ {i n : ℕ}, (∀ u ∈ (data.units.drop pos).take n, isJsonWs u = true) → i < n →
      ∀ v ∈ ((data.units.drop pos).drop i).head?, isJsonWs v = true := by
    intro i n hall hi v hv
    refine hall v (List.mem_of_getElem? (i := i) ?_)
    rw [List.getElem?_take_of_lt hi, hget]
    exact hv
  rw [hk']
  rw [← List.drop_drop] at hdrop
  rcases Nat.lt_trichotomy k k' with hlt | rfl | hgt
  · have hws := hblank htake hlt u (by rw [hdrop]; rfl)
    have hno := hskip.2 u (by rw [hdrop]; rfl)
    exact absurd (hws.symm.trans hno) Bool.noConfusion
  · rfl
  · obtain ⟨v, hv⟩ : ∃ v, ((data.units.drop pos).drop k').head? = some v := by
      have hlen := congrArg List.length hdrop
      rw [List.length_drop, List.length_cons] at hlen
      rw [← hget]
      exact ⟨_, List.getElem?_eq_getElem (by omega)⟩
    have hws := hblank hskip.1 hgt v hv
    have hno := hhead v hv
    exact absurd (hws.symm.trans hno) Bool.noConfusion

/-- What quoting a string has to do: the quoted text is a JSON string for the code units and hides
their lone surrogates, it is written with the length that was counted unless that is too long for
a string, and reading it gives the code units back. -/
def QuotesExactly (data : StrBlock) : Prop :=
  JsonChars (quotedChars none data.units) data.units ∧ ¬ LoneSurrogate (quotedText data.units) ∧
    if strMaxLen < (quotedText data.units).length then quoteStr data.toJsonSrc = none
    else ∃ q r, quoteStr data.toJsonSrc = some q ∧ q.Fits ∧ q.units = quotedText data.units ∧
      parseString q 0 = .ok r ∧ r.block.Fits ∧ r.block.units = data.units ∧ r.pos = q.len

/-- What reading a string has to do: whitespace is skipped, and a string is read when one begins
there; the block holds what the string stands for, two bytes a unit when one does not do, and the
cursor stands behind the closing quote. -/
def ReadsExactly (data : JsonSrc) (pos : ℕ) : Prop :=
  (∀ k text out rest, IsSkipped (data.units.drop pos) k →
    BeginsString (data.units.drop (pos + k)) text out rest → ∃ r, parseString data pos = .ok r) ∧
  ∀ r, parseString data pos = .ok r → ∃ k text out rest, IsSkipped (data.units.drop pos) k ∧
    BeginsString (data.units.drop (pos + k)) text out rest ∧ r.block.Fits ∧ r.block.units = out ∧
    (r.block.latin1 = true ↔ ∀ u ∈ out, u ≤ 0xFF) ∧ r.pos = pos + k + text.length

lemma readsExactly (data : JsonSrc) (pos : ℕ) : ReadsExactly data pos := by
  constructor
  · rintro k text out rest hskip hbegins
    obtain ⟨chars, htext, hdrop, -⟩ := id hbegins
    rw [htext, List.append_assoc, List.cons_append] at hdrop
    rw [← skipWs_eq hskip hdrop] at hbegins
    exact ⟨_, parseString_of_begins hbegins⟩
  · intro r hr
    obtain ⟨text, out, rest, hbegins⟩ := begins_of_parseString hr
    obtain ⟨k, hk, hskip⟩ := skipWs_spec data pos
    have hread := parseString_of_begins hbegins
    rw [hr] at hread
    obtain rfl := Except.ok.inj hread
    rw [hk] at hbegins
    refine ⟨k, text, out, rest, hskip, hbegins, fits_written _ _, ?_, decide_eq_true_iff, by rw [hk]⟩
    obtain ⟨chars, htext, hdrop, hjson⟩ := hbegins
    refine units_written_narrowest (jsonChars_lt hjson fun c hc => ?_)
    have hmem : c ∈ data.units.drop (pos + k) := by
      rw [hdrop, htext]
      exact List.mem_append_left _ (List.mem_append_left _ (List.mem_cons_of_mem _ hc))
    exact (data.units_lt c (List.mem_of_mem_drop hmem)).trans_le (unitBound_le _).2

lemma quotesExactly (data : StrBlock) : QuotesExactly data := by
  have hunits := data.units_lt
  have hwide : ∀ u ∈ data.units, u < 65536 := fun u hu =>
    (hunits u hu).trans_le (unitBound_le _).2
  have hjson := jsonChars_quotedChars none hwide
  refine ⟨hjson, ?_, ?_⟩
  · rw [quotedText, List.cons_append, loneSurrogate_plain (by decide) (by decide)]
    exact not_loneSurrogate_quotedChars hwide (fun h hh => by cases hh)
  · rw [quoteStr_eq]
    split_ifs with hlong
    · rfl
    · have hq := units_written data.latin1 (quotedText_lt data.latin1 hunits)
      generalize hquoted : (⟨writtenBytes data.latin1 (quotedText data.units),
        (quotedText data.units).length, data.latin1⟩ : JsonSrc) = q at hq ⊢
      have hlen : (quotedText data.units).length = q.len := by rw [← hquoted]
      have hskip : skipWs q 0 = 0 := by
        refine skipWs_eq (k := 0) ⟨fun u hu => absurd hu List.not_mem_nil, fun u hu => ?_⟩ hq
        rw [List.drop_zero, List.drop_zero, hq] at hu
        obtain rfl := Option.some.inj hu
        rfl
      have hbegins : BeginsString (q.units.drop (skipWs q 0)) (quotedText data.units) data.units
          [] := by
        rw [hskip, List.drop_zero]
        exact ⟨_, rfl, hq.trans (List.append_nil _).symm, hjson⟩
      refine ⟨q, _, rfl, hquoted ▸ fits_written _ _, hq, parseString_of_begins hbegins,
        fits_written _ _, units_written_narrowest hwide, ?_⟩
      rw [hskip, ← hlen, Nat.zero_add]

/-- No code unit is left out. -/
lemma length_le_quotedChars (prev : Option ℕ) (us : List ℕ) :
    us.length ≤ (quotedChars prev us).length := by
  induction us generalizing prev with
  | nil => exact le_rfl
  | cons u us ih =>
    have hunit : 0 < (quotedUnit (decide (IsLone prev u us.head?)) u).length := by
      rw [quotedUnit]
      cases shortEscape u with
      | some e => exact Nat.two_pos
      | none =>
        dsimp only
        split_ifs
        · exact Nat.succ_pos _
        · exact Nat.one_pos
    have hrest := ih (some u)
    rw [quotedChars, List.length_append, List.length_cons]
    omega

/-- **JSON strings.**  A string is quoted to a JSON string that is read back to its code units, or
refused when the quoted text is too long for a string; and behind whitespace a string is read
exactly where a JSON string begins. -/
theorem strings_exact :
    (∀ data : StrBlock, QuotesExactly data) ∧
      ∀ (data : JsonSrc) (pos : ℕ), ReadsExactly data pos :=
  ⟨quotesExactly, readsExactly⟩

/-- The longest string, of one byte a unit. -/
def longestBlock : StrBlock where
  base := List.replicate strMaxLen 0x61
  len := strMaxLen
  latin1 := true
  fits := by rw [JsonSrc.Fits, List.length_replicate, stride, if_pos rfl, Nat.one_mul]

/-- A string is read behind a space, where none begins; and the longest string cannot be
quoted. -/
theorem strings_refused :
    (∃ (data : StrBlock) (pos : ℕ) (r : StrResult), parseString data.toJsonSrc pos = .ok r ∧
      ¬ ∃ text out rest, BeginsString (data.units.drop pos) text out rest) ∧
      ∃ data : StrBlock, quoteStr data.toJsonSrc = none := by
  constructor
  · refine ⟨⟨JsonSrc.ofUnits [0x20, 0x22, 0x22], rfl⟩, 0, ⟨⟨[], 0, true⟩, 3⟩, rfl, ?_⟩
    rintro ⟨text, out, rest, chars, rfl, hdrop, -⟩
    have hfirst : (0x20 : ℕ) = 0x22 := (List.cons.inj hdrop).1
    exact absurd hfirst (by decide)
  · refine ⟨longestBlock, ?_⟩
    rw [quoteStr_eq, if_pos]
    have hlen : longestBlock.units.length = strMaxLen := longestBlock.toJsonSrc.length_units
    have hshort := length_le_quotedChars none longestBlock.units
    rw [quotedText, List.length_append, List.length_cons, List.length_singleton]
    omega

end Torajs.Json
