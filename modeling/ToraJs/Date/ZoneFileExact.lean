import ToraJs.Date.ZoneFile
import ToraJs.Date.Elements

/-!
# What a zone file says

The files of version 2 and 3 of RFC 8536 and the offset that such a file assigns to an instant:
time type 0 before the first transition, the type of the last transition from then on, and the
rule of the footer behind the last transition.  The reader finds the transitions in order; it
does not read the footer, it begins with the first standard type, and it does not look at the
indices of the types.
-/

namespace Torajs.Date

open BigEndian

namespace ZoneFile

/-! ### The rule of the footer -/

/-- A number in decimal, as it is written. -/
structure Numeral where
  digits : List (Fin 10)
  written : digits ≠ []
deriving DecidableEq

/-- What a numeral denotes. -/
def Numeral.value (n : Numeral) : ℤ := n.digits.foldl (fun v d => 10 * v + (d.val : ℤ)) 0

/-- A numeral in the file. -/
def Numeral.text (n : Numeral) : Bytes := n.digits.map fun d => UInt8.ofNat (48 + d.val)

/-- `[+|-]hh[:mm[:ss]]`. -/
structure Clock where
  sign : Option Bool
  hours : Numeral
  minutes : Option (Numeral × Option Numeral)
deriving DecidableEq

/-- The seconds of a clock; the sign is `true` for a minus. -/
def Clock.value (c : Clock) : ℤ :=
  (if c.sign = some true then -1 else 1) *
    (c.hours.value * 3600 +
      match c.minutes with
      | none => 0
      | some (minutes, none) => minutes.value * 60
      | some (minutes, some seconds) => minutes.value * 60 + seconds.value)

/-- A clock in the file. -/
def Clock.text (c : Clock) : Bytes :=
  (match c.sign with
    | none => []
    | some true => [ch '-']
    | some false => [ch '+']) ++
  c.hours.text ++
    match c.minutes with
    | none => []
    | some (minutes, none) => ch ':' :: minutes.text
    | some (minutes, some seconds) => ch ':' :: minutes.text ++ ch ':' :: seconds.text

/-- Minutes or seconds: two digits below 60. -/
def Numeral.Sixtieth (n : Numeral) : Prop := n.digits.length = 2 ∧ n.value < 60

/-- The hours go to a bound, and so do the digits that write them; the rest is sixtieths. -/
structure Clock.Within (c : Clock) (digits : ℕ) (hours : ℤ) : Prop where
  width : c.hours.digits.length ≤ digits
  hours : c.hours.value ≤ hours
  minutes : ∀ m ∈ c.minutes, m.1.Sixtieth ∧ ∀ s ∈ m.2, s.Sixtieth

/-- The day of a rule: `Jn`, which never counts the leap day, `n`, or `Mm.w.d`. -/
inductive RuleDay where
  | julian (n : Numeral)
  | zeroBased (n : Numeral)
  | weekday (month week day : Numeral)
deriving DecidableEq

/-- The day of a rule in the file. -/
def RuleDay.text : RuleDay → Bytes
  | .julian n => ch 'J' :: n.text
  | .zeroBased n => n.text
  | .weekday m w d => ch 'M' :: m.text ++ ch '.' :: w.text ++ ch '.' :: d.text

/-- The ranges of a day of a rule. -/
def RuleDay.Legal : RuleDay → Prop
  | .julian n => 1 ≤ n.value ∧ n.value ≤ 365
  | .zeroBased n => n.value ≤ 365
  | .weekday m w d =>
    (1 ≤ m.value ∧ m.value ≤ 12) ∧ (1 ≤ w.value ∧ w.value ≤ 5) ∧ d.value ≤ 6

/-- The first day from `day` on that is the `d`-th of the week; 1970-01-01 was a Thursday. -/
def nextWeekday (day d : ℤ) : ℤ := day + (d - (day + 4)) % 7

/-- The day of a rule in a year.  The fifth week is the last that has the day. -/
def RuleDay.dayOf (y : ℤ) : RuleDay → ℤ
  | .julian n => dayFromYear y + (n.value - 1) + if 60 ≤ n.value ∧ LeapYear y then 1 else 0
  | .zeroBased n => dayFromYear y + n.value
  | .weekday m w d =>
    let day := nextWeekday (calendarDay y m.value 1) d.value + 7 * (w.value - 1)
    if calendarDay y m.value (daysInMonth y m.value) < day then day - 7 else day

/-- `date[/time]`: when the clocks change, by the clock until then. -/
structure RuleDate where
  day : RuleDay
  time : Option Clock
deriving DecidableEq

/-- A date of a rule in the file. -/
def RuleDate.text (r : RuleDate) : Bytes :=
  r.day.text ++ match r.time with
    | none => []
    | some time => ch '/' :: time.text

/-- The local second of a date of a rule in a year; without a time it is two o'clock. -/
def RuleDate.secondOf (y : ℤ) (r : RuleDate) : ℤ :=
  r.day.dayOf y * 86400 + (r.time.map Clock.value).getD 7200

/-- Daylight saving time: the designation, the offset, and when it begins and ends. -/
structure Daylight where
  name : Bytes
  offset : Option Clock
  start : RuleDate
  stop : RuleDate
deriving DecidableEq

/-- `std offset [dst [offset] , start , end]`. -/
structure TzString where
  name : Bytes
  offset : Clock
  daylight : Option Daylight
deriving DecidableEq

/-- A rule in the file. -/
def TzString.text (r : TzString) : Bytes :=
  r.name ++ r.offset.text ++ match r.daylight with
    | none => []
    | some d =>
      d.name ++ (d.offset.map Clock.text).getD [] ++ ch ',' :: d.start.text ++ ch ',' :: d.stop.text

/-- The letters of a designation. -/
def letter (b : UInt8) : Prop := (ch 'A' ≤ b ∧ b ≤ ch 'Z') ∨ (ch 'a' ≤ b ∧ b ≤ ch 'z')

/-- A designation: three letters at least; in angle brackets also digits and signs. -/
def Designation (name : Bytes) : Prop :=
  (3 ≤ name.length ∧ ∀ b ∈ name, letter b) ∨
  ∃ inner, name = ch '<' :: inner ++ [ch '>'] ∧ 3 ≤ inner.length ∧
    ∀ b ∈ inner, letter b ∨ (ch '0' ≤ b ∧ b ≤ ch '9') ∨ b = ch '+' ∨ b = ch '-'

/-- The time of a rule: of a day in version 2; version 3 has a week to both sides. -/
def RuleDate.Legal (version : UInt8) (r : RuleDate) : Prop :=
  r.day.Legal ∧ ∀ time ∈ r.time,
    if version = ch '3' then time.Within 3 167 else time.Within 2 24 ∧ time.sign = none

/-- A rule by the grammar. -/
structure TzString.Legal (version : UInt8) (r : TzString) : Prop where
  name : Designation r.name
  offset : r.offset.Within 2 24
  daylight : ∀ d ∈ r.daylight, Designation d.name ∧ (∀ c ∈ d.offset, c.Within 2 24) ∧
    d.start.Legal version ∧ d.stop.Legal version

/-- Standard time, in seconds from UTC: the rule counts to the west. -/
def TzString.stdOffset (r : TzString) : ℤ := -r.offset.value

/-- Daylight saving time, in seconds from UTC: an hour ahead unless the rule says else. -/
def TzString.dstOffset (r : TzString) (d : Daylight) : ℤ :=
  (d.offset.map fun c => -c.value).getD (r.stdOffset + 3600)

/-- The second of UTC at which daylight saving time begins in a year. -/
def TzString.startAt (r : TzString) (d : Daylight) (y : ℤ) : ℤ := d.start.secondOf y - r.stdOffset

/-- The second of UTC at which daylight saving time ends in a year. -/
def TzString.stopAt (r : TzString) (d : Daylight) (y : ℤ) : ℤ := d.stop.secondOf y - r.dstOffset d

/-- Daylight saving time is in effect: it has begun, and its next end has not come. -/
def TzString.InDaylight (r : TzString) (d : Daylight) (t : ℤ) : Prop :=
  ∃ y, r.startAt d y ≤ t ∧ ∀ y', r.startAt d y < r.stopAt d y' → t < r.stopAt d y'

open Classical in
/-- The offset of a rule at a second of UTC. -/
noncomputable def TzString.offsetAt (r : TzString) (t : ℤ) : ℤ :=
  match r.daylight with
  | none => r.stdOffset
  | some d => if r.InDaylight d t then r.dstOffset d else r.stdOffset

/-! ### The blocks of a file -/

/-- The low bytes of a number that may be negative. -/
def toBeSigned (k : ℕ) (x : ℤ) : Bytes := toBe k (x % 256 ^ k).toNat

/-- A block of a file: the instants of the transitions and their types, the types with the index
of their designation, the designations, the leap seconds and the two rows of indicators. -/
structure Block where
  times : List ℤ
  indices : List UInt8
  types : List (TtInfo × UInt8)
  chars : Bytes
  leaps : List (ℤ × ℤ)
  isstd : List Bool
  isut : List Bool

/-- A type in the file. -/
def typeText (x : TtInfo × UInt8) : Bytes :=
  toBeSigned 4 x.1.utoff ++ ([if x.1.isdst then 1 else 0] ++ [x.2])

/-- An indicator in the file. -/
def indicator (b : Bool) : UInt8 := if b then 1 else 0

/-- A block in the file, its times in `k` bytes. -/
def Block.text (k : ℕ) (b : Block) : Bytes :=
  b.times.flatMap (toBeSigned k) ++ (b.indices ++ (b.types.flatMap typeText ++ (b.chars ++
    (b.leaps.flatMap (fun x => toBeSigned k x.1 ++ toBeSigned 4 x.2) ++
      (b.isstd.map indicator ++ b.isut.map indicator)))))

/-- The counts of a block, in the order of its header. -/
def Block.words (b : Block) : List ℕ :=
  [b.isut.length, b.isstd.length, b.leaps.length, b.times.length, b.types.length, b.chars.length]

/-- What a header begins with: the version and fifteen bytes of zero follow the magic. -/
def preamble (version : UInt8) : Bytes := magic ++ ([version] ++ List.replicate 15 0)

/-- The header of a block. -/
def Block.header (version : UInt8) (b : Block) : Bytes :=
  preamble version ++ b.words.flatMap (toBe 4)

/-- A number that fits in `k` bytes. -/
def Fits (k : ℕ) (x : ℤ) : Prop := -2 ^ (8 * k - 1) ≤ x ∧ x < 2 ^ (8 * k - 1)

/-- A block is well formed: its instants rise and fit in their bytes, each has a type, there is a
type and a designation, and the indicators are absent or complete. -/
structure Block.WellFormed (k : ℕ) (b : Block) : Prop where
  rising : b.times.Pairwise (· < ·)
  times : ∀ t ∈ b.times, Fits k t
  indexed : b.indices.length = b.times.length
  indices : ∀ i ∈ b.indices, i.toNat < b.types.length
  types : b.types ≠ []
  chars : b.chars ≠ []
  designated : ∀ x ∈ b.types, x.2.toNat < b.chars.length
  leapsRising : (b.leaps.map Prod.fst).Pairwise (· < ·)
  leaps : ∀ x ∈ b.leaps, Fits k x.1 ∧ Fits 4 x.2
  isstd : b.isstd = [] ∨ b.isstd.length = b.types.length
  isut : b.isut = [] ∨ b.isut.length = b.types.length
  counts : ∀ n ∈ b.words, n < 2 ^ 32

/-- The leap seconds that an instant of the file has counted. -/
def Block.leapsAt (b : Block) (t : ℤ) : ℤ :=
  ((b.leaps.filter fun x => x.1 ≤ t).getLast?.map Prod.snd).getD 0

/-- The offset of the type of an index. -/
def Block.utoffOf (b : Block) (i : ℕ) : ℤ := ((b.types[i]?).map fun x => x.1.utoff).getD 0

/-- The offset from the last transition at or before an instant on. -/
def Block.lastOffset (b : Block) (t : ℤ) : ℤ :=
  b.utoffOf (((b.indices.take (b.times.countP fun x => x ≤ t)).getLast?).getD 0).toNat

/-- A file of version 2 or 3: a block of 4-byte times, which only older readers use, a block of
8-byte times, and a rule, when there is one, that goes with the last transition. -/
structure File where
  version : UInt8
  v1 : Block
  v2 : Block
  footer : Option TzString
  version_mem : version = ch '2' ∨ version = ch '3'
  v1_wellFormed : v1.WellFormed 4
  v2_wellFormed : v2.WellFormed 8
  footer_legal : ∀ r ∈ footer, r.Legal version
  footer_follows : ∀ r ∈ footer, ∀ t ∈ v2.times.getLast?,
    r.offsetAt (t - v2.leapsAt t) = v2.lastOffset t

/-- The bytes of a file. -/
def File.text (f : File) : Bytes :=
  f.v1.header f.version ++ (f.v1.text 4 ++ (f.v2.header f.version ++ (f.v2.text 8 ++
    (ch '\n' :: (f.footer.map TzString.text).getD [] ++ [ch '\n']))))

/-- The rule of the footer at an instant of the file. -/
noncomputable def File.ruleAt (f : File) (t : ℤ) : Option ℤ :=
  f.footer.map fun r => r.offsetAt (t - f.v2.leapsAt t)

/-- The offset that a file assigns to an instant.  A file with transitions but without a rule
assigns none behind the last transition. -/
noncomputable def File.assigned (f : File) (t : ℤ) : Option ℤ :=
  match f.v2.times.head?, f.v2.times.getLast? with
  | some first, some last =>
    if t < first then some (f.v2.utoffOf 0)
    else if t < last then some (f.v2.lastOffset t)
    else f.ruleAt t
  | _, _ => some ((f.ruleAt t).getD (f.v2.utoffOf 0))

/-! ### The reader on a file -/

section OfFile

variable {k : ℕ} {b : Block} {version : UInt8} {before behind : Bytes}

/-- The counts of a block. -/
def Block.counts (b : Block) : Counts where
  isutcnt := b.isut.length
  isstdcnt := b.isstd.length
  leapcnt := b.leaps.length
  timecnt := b.times.length
  typecnt := b.types.length
  charcnt := b.chars.length

lemma length_header (version : UInt8) (b : Block) : (b.header version).length = headerLen := rfl

lemma length_toBeSigned (k : ℕ) (x : ℤ) : (toBeSigned k x).length = k := length_toBe _ _

lemma length_typeText (x : TtInfo × UInt8) : (typeText x).length = 6 := rfl

/-- A block has the size that its counts give. -/
lemma length_text (h : b.WellFormed k) : (b.text k).length = b.counts.blockSize k := by
  have htimes := length_flatMap_of_width (length_toBeSigned k) b.times
  have htypes := length_flatMap_of_width length_typeText b.types
  have hleaps := length_flatMap_of_width (k := k + 4)
    (fun x : ℤ × ℤ => (List.length_append).trans
      (congrArg₂ (· + ·) (length_toBeSigned k x.1) (length_toBeSigned 4 x.2))) b.leaps
  rw [Block.text, Counts.blockSize, List.length_append, List.length_append, List.length_append,
    List.length_append, List.length_append, List.length_append, htimes, htypes, hleaps, h.indexed,
    List.length_map, List.length_map]
  simp only [Block.counts]
  omega

/-- The counts of a header are read back. -/
lemma countsAt_header (hcounts : ∀ n ∈ b.words, n < 2 ^ 32) :
    countsAt (before ++ (b.header version ++ behind)) before.length = b.counts := by
  have hword : ∀ i n, b.words[i]? = some n →
      ofBe (field (before ++ (b.header version ++ behind)) (before.length + 20 + i * 4) 4) = n := by
    intro i n hget
    have hlt := hcounts n (List.mem_of_getElem? hget)
    have hsplit : before ++ (b.header version ++ behind) =
        (before ++ preamble version) ++ (b.words.flatMap (toBe 4) ++ behind) := by
      rw [Block.header, List.append_assoc, List.append_assoc]
    have hoff : (before ++ preamble version).length = before.length + 20 := List.length_append
    rw [hsplit, field_flatMap (length_toBe 4) hget hoff, ofBe_toBe (by norm_num; omega)]
  rw [countsAt, Block.counts, hword 0 _ rfl, hword 1 _ rfl, hword 2 _ rfl, hword 3 _ rfl,
    hword 4 _ rfl, hword 5 _ rfl]

/-- A number that fits in eight bytes is read back. -/
lemma signed_toBeSigned {x : ℤ} (h : Fits 8 x) : signed 64 (ofBe (toBeSigned 8 x)) = x := by
  unfold Fits at h
  rw [toBeSigned, ofBe_toBe (by norm_num; omega), signed]
  norm_num at h ⊢
  split_ifs <;> omega

/-- The numbers of a type are read back. -/
lemma ttInfo_typeText (x : TtInfo × UInt8) :
    ttInfo (ofBe (field (typeText x) 0 4)) ((field (typeText x) 4 1).headD 0) = x.1 := by
  have hmem := x.1.utoff_mem
  have hutoff : ofBe (field (typeText x) 0 4) = (x.1.utoff % 256 ^ 4).toNat := by
    rw [typeText, field_head (length_toBeSigned 4 _), toBeSigned, ofBe_toBe (by norm_num; omega)]
  have hflag : (field (typeText x) 4 1).headD 0 = if x.1.isdst then 1 else 0 := rfl
  rw [hutoff, hflag]
  have hback : asI32 ((x.1.utoff % 256 ^ 4).toNat : ℤ) = x.1.utoff := by
    unfold asI32
    norm_num
    omega
  have hdst : (((if x.1.isdst then 1 else 0 : UInt8)) != 0) = x.1.isdst := by
    cases x.1.isdst <;> rfl
  rw [ttInfo, TtInfo.mk.injEq]
  exact ⟨hback, hdst⟩

end OfFile

section Zone

variable (f : File)

/-- What follows the block of 8-byte times. -/
def File.foot : Bytes := ch '\n' :: (f.footer.map TzString.text).getD [] ++ [ch '\n']

/-- What precedes the second header. -/
def File.skipped : Bytes := f.v1.header f.version ++ f.v1.text 4

lemma File.text_eq :
    f.text = f.skipped ++ (f.v2.header f.version ++ (f.v2.text 8 ++ f.foot)) := by
  rw [File.text, File.skipped, File.foot, List.append_assoc]

lemma File.countsAt_zero : countsAt f.text 0 = f.v1.counts := by
  rw [File.text, ← List.nil_append (_ ++ _)]
  exact countsAt_header f.v1_wellFormed.counts

lemma File.secondHeader_eq : secondHeader f.text = f.skipped.length := by
  rw [secondHeader, f.countsAt_zero, File.skipped, List.length_append, length_header,
    length_text f.v1_wellFormed]

lemma File.secondCounts_eq : secondCounts f.text = f.v2.counts := by
  rw [secondCounts, f.secondHeader_eq, f.text_eq]
  exact countsAt_header f.v2_wellFormed.counts

/-- The two headers and the first block. -/
def File.start : Bytes := f.skipped ++ f.v2.header f.version

lemma File.text_eq_start : f.text = f.start ++ (f.v2.text 8 ++ f.foot) := by
  rw [f.text_eq, File.start, List.append_assoc]

lemma File.bodyStart_eq : f.start.length = bodyStart f.text := by
  rw [bodyStart, f.secondHeader_eq, File.start, List.length_append, length_header]

/-- The file of a zone is accepted. -/
lemma File.accepted : Accepted f.text := by
  have hlength : f.text.length = bodyStart f.text + ((f.v2.text 8).length + f.foot.length) := by
    rw [← f.bodyStart_eq, ← List.length_append, ← List.length_append, ← f.text_eq_start]
  have hbody := length_text f.v2_wellFormed
  have hstart : bodyStart f.text = secondHeader f.text + headerLen := rfl
  have hfirst : secondHeader f.text = headerLen + (countsAt f.text 0).blockSize 4 := rfl
  refine ⟨by omega, rfl, f.version_mem.imp (congrArg (fun v => [v])) (congrArg (fun v => [v])),
    by omega, ?_, ?_, ?_⟩
  · rw [f.secondHeader_eq, f.text_eq, Block.header, preamble, List.append_assoc, List.append_assoc]
    exact field_at rfl rfl
  · rw [f.secondCounts_eq]
    exact fun h => f.v2_wellFormed.types (List.length_eq_zero_iff.mp h)
  · rw [typeStart, indexStart, f.secondCounts_eq, hlength, hbody]
    simp only [Counts.blockSize]
    omega

/-- A row of fields in the second block is read back. -/
lemma File.field_row {α : Type} {row rest : Bytes} {l : List α} {write : α → Bytes} {k o i : ℕ}
    {a : α} (hwidth : ∀ a, (write a).length = k) (hget : l[i]? = some a)
    (htext : f.v2.text 8 = row ++ (l.flatMap write ++ rest))
    (ho : o = bodyStart f.text + row.length) : field f.text (o + i * k) k = write a := by
  have hsplit : f.text = (f.start ++ row) ++ (l.flatMap write ++ (rest ++ f.foot)) := by
    rw [f.text_eq_start, htext, List.append_assoc, List.append_assoc, List.append_assoc]
  rw [hsplit]
  exact field_flatMap hwidth hget (by rw [List.length_append, f.bodyStart_eq, ho])

/-- The zone of a file. -/
lemma File.zoneOf_text : zoneOf f.text =
    { transitions := f.v2.times
      types := f.v2.indices
      ttinfos := f.v2.types.map Prod.fst } := by
  have hcounts := f.secondCounts_eq
  have hindex : indexStart f.text =
      bodyStart f.text + (f.v2.times.flatMap (toBeSigned 8)).length := by
    rw [indexStart, hcounts, length_flatMap_of_width (length_toBeSigned 8)]
    rfl
  have htype : typeStart f.text =
      bodyStart f.text + (f.v2.times.flatMap (toBeSigned 8) ++ f.v2.indices).length := by
    rw [typeStart, hindex, hcounts, List.length_append, f.v2_wellFormed.indexed, Nat.add_assoc]
    rfl
  have htimes : (zoneOf f.text).transitions = f.v2.times.map id := by
    rw [zoneOf, hcounts]
    refine map_range_eq fun i t hget => ?_
    have hread : field f.text (bodyStart f.text + i * 8) 8 = toBeSigned 8 t :=
      f.field_row (length_toBeSigned 8) hget (List.nil_append _).symm rfl
    rw [hread, signed_toBeSigned (f.v2_wellFormed.times t (List.mem_of_getElem? hget))]
    rfl
  have hindices : (zoneOf f.text).types = f.v2.indices.map id := by
    rw [zoneOf, typeIndices, hcounts, Block.counts, ← f.v2_wellFormed.indexed]
    refine map_range_eq fun i b hget => ?_
    obtain ⟨rest, hrest⟩ : ∃ rest, f.v2.text 8 =
        f.v2.times.flatMap (toBeSigned 8) ++ (f.v2.indices.flatMap (fun b => [b]) ++ rest) :=
      ⟨_, by rw [List.flatMap_singleton']; rfl⟩
    have hwidth : ∀ b : UInt8, ([b] : Bytes).length = 1 := fun _ => rfl
    have hread := f.field_row hwidth hget hrest hindex
    rw [Nat.mul_one] at hread
    rw [hread]
    rfl
  have htypes : (zoneOf f.text).ttinfos = f.v2.types.map Prod.fst := by
    rw [zoneOf, hcounts]
    refine map_range_eq fun i x hget => ?_
    have hread : field f.text (typeStart f.text + i * 6) 6 = typeText x :=
      f.field_row length_typeText hget (List.append_assoc _ _ _).symm htype
    have hutoff : field (field f.text (typeStart f.text + i * 6) 6) 0 4 =
        field f.text (typeStart f.text + i * 6 + 0) 4 := field_field _ _ (by omega)
    have hflag : field (field f.text (typeStart f.text + i * 6) 6) 4 1 =
        field f.text (typeStart f.text + i * 6 + 4) 1 := field_field _ _ (by omega)
    rw [hread] at hutoff hflag
    rw [← hflag, ← Nat.add_zero (typeStart f.text + i * 6), ← hutoff, ttInfo_typeText]
  rw [List.map_id] at htimes hindices
  rw [← htimes, ← hindices, ← htypes]

end Zone

/-! ### The offsets that are given -/

section Offsets

/-- In a rising list the elements up to a bound come first. -/
lemma partitionPoint_eq_countP {l : List ℤ} (h : l.Pairwise (· < ·)) (t : ℤ) :
    Tz.partitionPoint (fun x => decide (x ≤ t)) l = l.countP fun x => x ≤ t := by
  induction l with
  | nil => rfl
  | cons x l ih =>
    obtain ⟨hx, hl⟩ := List.pairwise_cons.mp h
    rw [Tz.partitionPoint] at ih ⊢
    by_cases hle : x ≤ t
    · simp only [List.takeWhile_cons, List.countP_cons, decide_eq_true hle, if_true,
        List.length_cons, ih hl]
    · have hnone : l.countP (fun y => decide (y ≤ t)) = 0 :=
        List.countP_eq_zero.mpr fun y hy hyt => hle ((hx y hy).le.trans (of_decide_eq_true hyt))
      simp only [List.takeWhile_cons, List.countP_cons, decide_eq_false hle, hnone,
        Bool.false_eq_true, if_false, List.length_nil]

/-- The last element of a rising list is its greatest. -/
lemma le_getLast {l : List ℤ} (h : l.Pairwise (· < ·)) {x last : ℤ} (hlast : l.getLast? = some last)
    (hx : x ∈ l) : x ≤ last := by
  obtain ⟨front, rfl⟩ := List.getLast?_eq_some_iff.mp hlast
  rcases List.mem_append.mp hx with hfront | hend
  · exact ((List.pairwise_append.mp h).2.2 x hfront last (List.mem_singleton_self _)).le
  · exact (List.mem_singleton.mp hend).le

/-- The offset of the first type that is standard time, else of the first. -/
def Block.firstStandard (b : Block) : ℤ :=
  (((b.types.find? fun x => !x.1.isdst).or b.types.head?).map fun x => x.1.utoff).getD 0

/-- The zone of a block. -/
def Block.zone (b : Block) : Tz where
  transitions := b.times
  types := b.indices
  ttinfos := b.types.map Prod.fst

variable {b : Block} {t : ℤ}

lemma fst_infoOf (info : Option TtInfo) :
    (Tz.infoOf info).1 = (info.map fun i => i.utoff).getD 0 := by
  cases info <;> rfl

lemma zone_firstInfo (b : Block) : b.zone.firstInfo.1 = b.firstStandard := by
  rw [Tz.firstInfo, fst_infoOf, Block.firstStandard, Block.zone]
  simp only [List.find?_map, List.head?_map]
  cases hfind : b.types.find? ((fun i : TtInfo => !i.isdst) ∘ Prod.fst) with
  | none =>
    have hfind' : (b.types.find? fun x => !x.1.isdst) = none := hfind
    rw [hfind']
    cases b.types.head? <;> rfl
  | some x =>
    have hfind' : (b.types.find? fun x => !x.1.isdst) = some x := hfind
    rw [hfind']
    rfl

lemma zone_infoFrom (b : Block) (idx : ℕ) :
    (b.zone.infoFrom idx).1 = b.utoffOf ((b.indices[idx]?).getD 0).toNat := by
  rw [Tz.infoFrom, fst_infoOf, Block.utoffOf, Block.zone, List.getElem?_map, Option.map_map]
  rfl

/-- Before the first transition, and without one, the offset is that of the first standard
type. -/
lemma utoffAt_before (h : ∀ T ∈ b.times.head?, t < T) : b.zone.utoffAt t = b.firstStandard := by
  rw [← zone_firstInfo, Tz.utoffAt, Tz.infoAt, Block.zone]
  cases htimes : b.times with
  | nil => rfl
  | cons T times =>
    have hlt : t < T := h T (by rw [htimes]; rfl)
    simp only [if_pos hlt]

/-- From the first transition on the offset is that of the last transition. -/
lemma utoffAt_from (hb : b.WellFormed 8) {T : ℤ} (hT : b.times.head? = some T) (h : T ≤ t) :
    b.zone.utoffAt t = b.lastOffset t := by
  have hcount : 0 < b.times.countP fun x => x ≤ t :=
    List.countP_pos_iff.mpr ⟨T, List.mem_of_mem_head? hT, decide_eq_true h⟩
  have hle := List.countP_le_length (p := fun x => decide (x ≤ t)) (l := b.times)
  have hlast : b.indices[(b.times.countP fun x => x ≤ t) - 1]? =
      (b.indices.take (b.times.countP fun x => x ≤ t)).getLast? := by
    obtain ⟨i, hi⟩ : ∃ i, b.indices[(b.times.countP fun x => x ≤ t) - 1]? = some i :=
      ⟨_, List.getElem?_eq_getElem (by rw [hb.indexed]; omega)⟩
    rw [List.getLast?_take, if_neg (by omega), hi]
    rfl
  have hinfo : b.zone.infoAt t =
      b.zone.infoFrom (Tz.partitionPoint (fun x => decide (x ≤ t)) b.times - 1) := by
    rw [Tz.infoAt]
    cases htimes : b.times with
    | nil => rw [htimes] at hT; cases hT
    | cons _ times =>
      rw [htimes] at hT
      cases hT
      have hzone : b.zone.transitions = T :: times := htimes
      rw [hzone]
      simp only [if_neg (not_lt.mpr h)]
  rw [Tz.utoffAt, hinfo, zone_infoFrom, partitionPoint_eq_countP hb.rising, hlast, Block.lastOffset]

end Offsets

/-! ### When the reader is right -/

/-- The reader is right about a file of bytes: it does not read past the end, each index of a zone
that it gives is the index of a type, and if the bytes are a file of version 2 or 3, each instant
gets the offset that the file assigns to it. -/
structure Right (buf : Bytes) : Prop where
  inside : parseTzif buf ≠ .error .panics
  indices : ∀ tz, parseTzif buf = .ok tz → ∀ i ∈ tz.types, i.toNat < tz.ttinfos.length
  offsets : ∀ f : File, f.text = buf → ∃ tz, parseTzif buf = .ok tz ∧
    ∀ t, Fits 8 t → ∀ u, f.assigned t = some u → tz.utoffAt t = u

/-- What is left out does not show at an instant: before the first transition the first standard
type is as good as type 0, and behind the last one the rule says what the last transition said. -/
structure File.Served (f : File) (t : ℤ) : Prop where
  before : ∀ first ∈ f.v2.times.head?, t < first → f.v2.firstStandard = f.v2.utoffOf 0
  behind : ∀ last ∈ f.v2.times.getLast?, last ≤ t → ∀ u ∈ f.ruleAt t,
    f.v2.utoffOf ((f.v2.indices.getLast?).getD 0).toNat = u
  without : f.v2.times = [] → f.v2.firstStandard = (f.ruleAt t).getD (f.v2.utoffOf 0)

/-- The reader takes the second block of a file. -/
lemma File.parseTzif_text (f : File) : parseTzif f.text = .ok f.v2.zone := by
  rcases parseTzif_spec f.text with ⟨hparse, -⟩ | ⟨-, hnot⟩
  · rw [hparse, f.zoneOf_text]
    rfl
  · exact absurd f.accepted hnot

/-- The offset at an instant is the one that the file assigns when nothing that is left out
shows there, and only then. -/
lemma File.utoffAt_iff (f : File) (t : ℤ) :
    (∀ u, f.assigned t = some u → f.v2.zone.utoffAt t = u) ↔ f.Served t := by
  have hb := f.v2_wellFormed
  rcases htimes : f.v2.times with _ | ⟨first, times⟩
  · have hbefore : f.v2.zone.utoffAt t = f.v2.firstStandard :=
      utoffAt_before (by rw [htimes]; nofun)
    have hassigned : f.assigned t = some ((f.ruleAt t).getD (f.v2.utoffOf 0)) := by
      rw [File.assigned, htimes]
      rfl
    rw [hbefore, hassigned]
    constructor
    · intro h
      exact ⟨by rw [htimes]; nofun, by rw [htimes]; nofun, fun _ => h _ rfl⟩
    · rintro h u hu
      cases hu
      exact h.without htimes
  obtain ⟨last, hlast⟩ : ∃ last, f.v2.times.getLast? = some last := by
    rw [htimes]
    exact ⟨_, List.getLast?_eq_some_getLast (List.cons_ne_nil _ _)⟩
  have hfirst : f.v2.times.head? = some first := by
    rw [htimes]
    rfl
  have hbound : first ≤ last := le_getLast hb.rising hlast (List.mem_of_mem_head? hfirst)
  have hassigned : f.assigned t =
      if t < first then some (f.v2.utoffOf 0)
      else if t < last then some (f.v2.lastOffset t) else f.ruleAt t := by
    rw [File.assigned, hfirst, hlast]
  have hsome : f.v2.times ≠ [] := by
    rw [htimes]
    exact List.cons_ne_nil _ _
  by_cases hlt : t < first
  · have hbefore : f.v2.zone.utoffAt t = f.v2.firstStandard :=
      utoffAt_before (by rw [hfirst]; rintro _ ⟨⟩; exact hlt)
    rw [hassigned, if_pos hlt, hbefore]
    constructor
    · intro h
      refine ⟨fun _ _ _ => h _ rfl, ?_, fun hnil => absurd hnil hsome⟩
      rw [hlast]
      rintro _ ⟨⟩ hle
      omega
    · rintro h u hu
      cases hu
      exact h.before first hfirst hlt
  have hfrom := utoffAt_from hb hfirst (not_lt.mp hlt)
  rw [hassigned, if_neg hlt, hfrom]
  have hnotBefore : ∀ T ∈ f.v2.times.head?, t < T → f.v2.firstStandard = f.v2.utoffOf 0 := by
    rw [hfirst]
    rintro _ ⟨⟩ h
    exact absurd h hlt
  by_cases hbehind : t < last
  · rw [if_pos hbehind]
    refine iff_of_true (fun u hu => Option.some.inj hu) ⟨hnotBefore, ?_, fun h => absurd h hsome⟩
    rw [hlast]
    rintro _ ⟨⟩ hle
    omega
  · have hall : (f.v2.times.countP fun x => x ≤ t) = f.v2.indices.length := by
      rw [hb.indexed]
      refine List.countP_eq_length.mpr fun x hx => decide_eq_true ?_
      exact (le_getLast hb.rising hlast hx).trans (not_lt.mp hbehind)
    have hoffset : f.v2.lastOffset t =
        f.v2.utoffOf ((f.v2.indices.getLast?).getD 0).toNat := by
      rw [Block.lastOffset, hall, List.take_length]
    rw [if_neg hbehind, hoffset]
    constructor
    · intro h
      exact ⟨hnotBefore, fun _ _ _ u hu => h u hu, fun hnil => absurd hnil hsome⟩
    · intro h u hu
      exact h.behind last hlast (not_lt.mp hbehind) u hu

/-- **The reader is right exactly when** no index of an accepted file is too large, and nothing
that is left out shows at an instant of a file. -/
theorem right_iff (buf : Bytes) :
    Right buf ↔
      (Accepted buf → ∀ i ∈ typeIndices buf, i.toNat < (secondCounts buf).typecnt) ∧
      ∀ f : File, f.text = buf → ∀ t, Fits 8 t → f.Served t := by
  have hinside : parseTzif buf ≠ .error .panics := by
    rcases parseTzif_spec buf with ⟨h, -⟩ | ⟨h, -⟩ <;> rw [h] <;> nofun
  have hindices : (∀ tz, parseTzif buf = .ok tz → ∀ i ∈ tz.types, i.toNat < tz.ttinfos.length) ↔
      (Accepted buf → ∀ i ∈ typeIndices buf, i.toNat < (secondCounts buf).typecnt) := by
    have hlength : (zoneOf buf).ttinfos.length = (secondCounts buf).typecnt := by
      rw [zoneOf, List.length_map, List.length_range]
    rcases parseTzif_spec buf with ⟨hparse, haccepted⟩ | ⟨hparse, hnot⟩
    · rw [hparse]
      constructor
      · intro h _ i hi
        exact hlength ▸ h _ rfl i hi
      · rintro h _ ⟨⟩ i hi
        exact hlength.symm ▸ h haccepted i hi
    · rw [hparse]
      exact iff_of_true nofun fun haccepted => absurd haccepted hnot
  have hoffsets : ∀ f : File, f.text = buf →
      ((∃ tz, parseTzif buf = .ok tz ∧
        ∀ t, Fits 8 t → ∀ u, f.assigned t = some u → tz.utoffAt t = u) ↔
      ∀ t, Fits 8 t → f.Served t) := by
    rintro f rfl
    rw [f.parseTzif_text]
    constructor
    · rintro ⟨_, ⟨⟩, h⟩ t ht
      exact (f.utoffAt_iff t).mp (h t ht)
    · intro h
      exact ⟨_, rfl, fun t ht => (f.utoffAt_iff t).mpr (h t ht)⟩
  constructor
  · rintro ⟨-, h, hfiles⟩
    exact ⟨hindices.mp h, fun f hf => (hoffsets f hf).mp (hfiles f hf)⟩
  · rintro ⟨h, hfiles⟩
    exact ⟨hinside, hindices.mpr h, fun f hf => (hoffsets f hf).mpr (hfiles f hf)⟩

lemma zero_utoff_mem : (-2147483648 : ℤ) ≤ 0 ∧ (0 : ℤ) < 2147483648 := by omega

lemma hour_utoff_mem : (-2147483648 : ℤ) ≤ 3600 ∧ (3600 : ℤ) < 2147483648 := by omega

/-- A block with one transition, at the epoch: daylight saving time until then, and standard time
from then on. -/
def turnedBlock : Block where
  times := [0]
  indices := [1]
  types := [(⟨3600, true, hour_utoff_mem⟩, 0), (⟨0, false, zero_utoff_mem⟩, 0)]
  chars := [0]
  leaps := []
  isstd := []
  isut := []

lemma turnedBlock_wellFormed (k : ℕ) : turnedBlock.WellFormed k where
  rising := List.pairwise_singleton _ _
  times := by
    intro t ht
    rw [List.mem_singleton.mp ht, Fits]
    have hpow : (0 : ℤ) < 2 ^ (8 * k - 1) := by positivity
    omega
  indexed := rfl
  indices := by
    intro i hi
    rw [List.mem_singleton.mp hi]
    decide
  types := List.cons_ne_nil _ _
  chars := List.cons_ne_nil _ _
  designated := by
    intro x hx
    rcases List.mem_pair.mp hx with rfl | rfl <;> decide
  leapsRising := List.Pairwise.nil
  leaps := nofun
  isstd := Or.inl rfl
  isut := Or.inl rfl
  counts := by
    intro n hn
    have hwords : turnedBlock.words = [0, 0, 0, 1, 2, 1] := rfl
    rw [hwords] at hn
    simp only [List.mem_cons, List.not_mem_nil, or_false] at hn
    omega

/-- The file of the block. -/
def turnedFile : File where
  version := ch '2'
  v1 := turnedBlock
  v2 := turnedBlock
  footer := none
  version_mem := Or.inl rfl
  v1_wellFormed := turnedBlock_wellFormed _
  v2_wellFormed := turnedBlock_wellFormed _
  footer_legal := fun _ h => absurd h (Option.not_mem_none _)
  footer_follows := fun _ h => absurd h (Option.not_mem_none _)

/-- Before its first transition a zone may be in daylight saving time; the reader does not say
so. -/
theorem not_right : ¬ ∀ buf : Bytes, Right buf := by
  intro hright
  obtain ⟨tz, hparse, hoffset⟩ := (hright turnedFile.text).offsets turnedFile rfl
  rw [turnedFile.parseTzif_text] at hparse
  cases hparse
  have hserved : turnedFile.Served (-1) :=
    (turnedFile.utoffAt_iff (-1)).mp (hoffset (-1) (by unfold Fits; omega))
  have hsame : (0 : ℤ) = 3600 := hserved.before 0 rfl (by omega)
  omega

end ZoneFile

end Torajs.Date
