import ToraJs.Lib.BigEndian
import ToraJs.Date.LocalTime

/-!
# Zone files

The reader of a TZif file: `parse_tzif` of `tz.rs`.  It skips the block of 4-byte times by the
sizes its header gives, and takes from the block of 8-byte times the transitions, the type that
each switches to, and the types.  An index past the end of the file, or a sum past the word, stops
the program; the reader is shown to refuse such a file instead.
-/

namespace Torajs.Date

open BigEndian

namespace ZoneFile

/-- What ends the reading of a file: a refusal, or an index or a sum out of range. -/
inductive Stop where
  | refused
  | panics
deriving Repr, DecidableEq

/-- The result of a step of the reader. -/
abbrev Parse := Except Stop

/-- The size of the header. -/
def headerLen : ℕ := 44

/-- The number of values of a `usize`. -/
def usizeBound : ℕ := 2 ^ 64

/-- A result of checked arithmetic: what is past the word is refused. -/
def checked (n : ℕ) : Parse ℕ := if n < usizeBound then .ok n else .error .refused

/-- A result of plain arithmetic: what is past the word stops the program. -/
def plain (n : ℕ) : Parse ℕ := if n < usizeBound then .ok n else .error .panics

/-- An early return of no zone. -/
def refuseIf (c : Prop) [Decidable c] : Parse Unit := if c then .error .refused else .ok ()

/-- `buf[o..o + k]`, or the `k` bytes from `o` on one after the other. -/
def slice (buf : Bytes) (o k : ℕ) : Parse Bytes :=
  if o + k ≤ buf.length then .ok (field buf o k) else .error .panics

/-- `be_u32`. -/
def beU32 (buf : Bytes) (o : ℕ) : Parse ℕ := (slice buf o 4).map ofBe

/-- The sign of a number of `w` bits. -/
def signed (w : ℕ) (n : ℕ) : ℤ := if n < 2 ^ (w - 1) then n else n - 2 ^ w

/-- `be_i64`. -/
def beI64 (buf : Bytes) (o : ℕ) : Parse ℤ := (slice buf o 8).map fun bytes => signed 64 (ofBe bytes)

/-- The counts of a header. -/
structure Counts where
  isutcnt : ℕ
  isstdcnt : ℕ
  leapcnt : ℕ
  timecnt : ℕ
  typecnt : ℕ
  charcnt : ℕ
deriving Repr, DecidableEq

/-- `parse_counts`. -/
def parseCounts (buf : Bytes) (o : ℕ) : Parse Counts := do
  let stop ← plain (o + headerLen)
  refuseIf (buf.length < stop)
  let isutcnt ← beU32 buf (o + 20)
  let isstdcnt ← beU32 buf (o + 24)
  let leapcnt ← beU32 buf (o + 28)
  let timecnt ← beU32 buf (o + 32)
  let typecnt ← beU32 buf (o + 36)
  let charcnt ← beU32 buf (o + 40)
  return { isutcnt, isstdcnt, leapcnt, timecnt, typecnt, charcnt }

/-- The size of the block of 4-byte times, summed up with checked arithmetic. -/
def v1Block (h1 : Counts) : Parse ℕ := do
  let size ← checked (h1.timecnt * 4)
  let size ← checked (size + h1.timecnt)
  let types ← checked (h1.typecnt * 6)
  let size ← checked (size + types)
  let size ← checked (size + h1.charcnt)
  let leaps ← checked (h1.leapcnt * 8)
  let size ← checked (size + leaps)
  let size ← checked (size + h1.isstdcnt)
  checked (size + h1.isutcnt)

/-- The bytes that a header begins with. -/
def magic : Bytes := ascii ['T', 'Z', 'i', 'f']

/-- The header of the block of 4-byte times: the bytes it begins with, a version that has a second
block, and the counts. -/
def header1 (buf : Bytes) : Parse Counts := do
  refuseIf (buf.length < headerLen)
  let begins ← slice buf 0 4
  refuseIf (begins ≠ magic)
  let version ← slice buf 4 1
  refuseIf (version ≠ [ch '2'] ∧ version ≠ [ch '3'])
  parseCounts buf 0

/-- The header of the block of 8-byte times. -/
def header2 (buf : Bytes) (h2Off : ℕ) : Parse Counts := do
  let stop ← plain (h2Off + headerLen)
  refuseIf (buf.length < stop)
  let begins ← slice buf h2Off 4
  refuseIf (begins ≠ magic)
  let h2 ← parseCounts buf h2Off
  refuseIf (h2.typecnt = 0)
  return h2

/-- A type, from the number its offset is read as and the byte of its flag. -/
def ttInfo (utoff : ℕ) (isdst : UInt8) : TtInfo where
  utoff := asI32 utoff
  isdst := isdst != 0
  utoff_mem := by
    unfold asI32
    omega

/-- The type that stands at an offset. -/
def readType (buf : Bytes) (o : ℕ) : Parse TtInfo := do
  let utoff ← beU32 buf o
  let isdst ← slice buf (o + 4) 1
  return ttInfo utoff (isdst.headD 0)

/-- The transitions, their types and the types, behind the second header. -/
def v2Body (buf : Bytes) (body : ℕ) (h2 : Counts) : Parse Tz := do
  let transBytes ← checked (h2.timecnt * 8)
  let ttBytes ← checked (h2.typecnt * 6)
  let ttOff ← checked (body + transBytes)
  let ttOff ← checked (ttOff + h2.timecnt)
  let need ← checked (ttOff + ttBytes)
  refuseIf (buf.length < need)
  let transitions ← (List.range h2.timecnt).mapM fun i => beI64 buf (body + i * 8)
  let idxOff ← plain (body + transBytes)
  let types ← (List.range h2.timecnt).mapM fun i => (slice buf (idxOff + i) 1).map (·.headD 0)
  let ttinfos ← (List.range h2.typecnt).mapM fun i => readType buf (ttOff + i * 6)
  return { transitions, types, ttinfos }

/-- `parse_tzif`. -/
def parseTzif (buf : Bytes) : Parse Tz := do
  let h1 ← header1 buf
  let v1 ← v1Block h1
  let h2Off ← checked (headerLen + v1)
  let h2 ← header2 buf h2Off
  let body ← plain (h2Off + headerLen)
  v2Body buf body h2

/-! ### What is read -/

/-- The counts of the header at an offset. -/
def countsAt (buf : Bytes) (o : ℕ) : Counts where
  isutcnt := ofBe (field buf (o + 20) 4)
  isstdcnt := ofBe (field buf (o + 24) 4)
  leapcnt := ofBe (field buf (o + 28) 4)
  timecnt := ofBe (field buf (o + 32) 4)
  typecnt := ofBe (field buf (o + 36) 4)
  charcnt := ofBe (field buf (o + 40) 4)

/-- The size of a block whose times have `k` bytes. -/
def Counts.blockSize (k : ℕ) (c : Counts) : ℕ :=
  c.timecnt * k + c.timecnt + c.typecnt * 6 + c.charcnt + c.leapcnt * (k + 4) + c.isstdcnt +
    c.isutcnt

/-- Where the second header begins. -/
def secondHeader (buf : Bytes) : ℕ := headerLen + (countsAt buf 0).blockSize 4

/-- The counts of the second header. -/
def secondCounts (buf : Bytes) : Counts := countsAt buf (secondHeader buf)

/-- Where the block of 8-byte times begins. -/
def bodyStart (buf : Bytes) : ℕ := secondHeader buf + headerLen

/-- Where the indices of the types begin. -/
def indexStart (buf : Bytes) : ℕ := bodyStart buf + (secondCounts buf).timecnt * 8

/-- Where the types begin. -/
def typeStart (buf : Bytes) : ℕ := indexStart buf + (secondCounts buf).timecnt

/-- The file is accepted: it has two headers, a version with a second block, a type, and all the
bytes of the types. -/
structure Accepted (buf : Bytes) : Prop where
  first : headerLen ≤ buf.length
  magic₁ : field buf 0 4 = magic
  version : field buf 4 1 = [ch '2'] ∨ field buf 4 1 = [ch '3']
  second : bodyStart buf ≤ buf.length
  magic₂ : field buf (secondHeader buf) 4 = magic
  typecnt : (secondCounts buf).typecnt ≠ 0
  length : typeStart buf + (secondCounts buf).typecnt * 6 ≤ buf.length

/-- The bytes that say which type each transition switches to. -/
def typeIndices (buf : Bytes) : List UInt8 :=
  (List.range (secondCounts buf).timecnt).map fun i => (field buf (indexStart buf + i) 1).headD 0

/-- The zone of an accepted file. -/
def zoneOf (buf : Bytes) : Tz where
  transitions := (List.range (secondCounts buf).timecnt).map fun i =>
    signed 64 (ofBe (field buf (bodyStart buf + i * 8) 8))
  types := typeIndices buf
  ttinfos := (List.range (secondCounts buf).typecnt).map fun i =>
    ttInfo (ofBe (field buf (typeStart buf + i * 6) 4))
      ((field buf (typeStart buf + i * 6 + 4) 1).headD 0)

section Reading

variable {buf : Bytes} {o k n : ℕ} {α β : Type}

lemma ok_bind (a : α) (f : α → Parse β) : ((Except.ok a : Parse α) >>= f) = f a := rfl

lemma refuseIf_pos {c : Prop} [Decidable c] (h : c) (f : Unit → Parse β) :
    (refuseIf c >>= f) = .error .refused := by
  rw [refuseIf, if_pos h]
  rfl

lemma refuseIf_neg {c : Prop} [Decidable c] (h : ¬ c) (f : Unit → Parse β) :
    (refuseIf c >>= f) = f () := by
  rw [refuseIf, if_neg h]
  rfl

lemma plain_ok (h : n < usizeBound) : plain n = .ok n := if_pos h

lemma checked_ok (h : n < usizeBound) : checked n = .ok n := if_pos h

lemma slice_ok (h : o + k ≤ buf.length) : slice buf o k = .ok (field buf o k) := if_pos h

lemma beU32_ok (h : o + 4 ≤ buf.length) : beU32 buf o = .ok (ofBe (field buf o 4)) := by
  rw [beU32, slice_ok h]
  rfl

lemma beI64_ok (h : o + 8 ≤ buf.length) : beI64 buf o = .ok (signed 64 (ofBe (field buf o 8))) := by
  rw [beI64, slice_ok h]
  rfl

/-- A field of four bytes is below the word. -/
lemma ofBe_field_lt (buf : Bytes) (o : ℕ) : ofBe (field buf o 4) < 2 ^ 32 := by
  have hlt := ofBe_lt (field buf o 4)
  have hle := Nat.pow_le_pow_right (n := 256) (by omega) (length_field_le buf o 4)
  have hpow : (256 : ℕ) ^ 4 = 2 ^ 32 := by norm_num
  omega

/-- The counts of a header are read, where there is one. -/
lemma parseCounts_eq (h : o + headerLen ≤ buf.length) (ho : o + headerLen < usizeBound) :
    parseCounts buf o = .ok (countsAt buf o) := by
  rw [parseCounts, plain_ok ho, ok_bind, refuseIf_neg (by omega)]
  unfold headerLen at h
  rw [beU32_ok (by omega), ok_bind, beU32_ok (by omega), ok_bind, beU32_ok (by omega), ok_bind,
    beU32_ok (by omega), ok_bind, beU32_ok (by omega), ok_bind, beU32_ok (by omega), ok_bind]
  rfl

/-- The counts of a header are of four bytes. -/
lemma countsAt_lt (buf : Bytes) (o : ℕ) :
    (countsAt buf o).timecnt < 2 ^ 32 ∧ (countsAt buf o).typecnt < 2 ^ 32 ∧
      (countsAt buf o).blockSize 4 ≤ 22 * 2 ^ 32 := by
  have h1 := ofBe_field_lt buf (o + 20)
  have h2 := ofBe_field_lt buf (o + 24)
  have h3 := ofBe_field_lt buf (o + 28)
  have h4 := ofBe_field_lt buf (o + 32)
  have h5 := ofBe_field_lt buf (o + 36)
  have h6 := ofBe_field_lt buf (o + 40)
  refine ⟨h4, h5, ?_⟩
  simp only [Counts.blockSize, countsAt]
  omega

/-- A sum that stays in the word is the size of the block. -/
lemma v1Block_eq (c : Counts) (h : c.blockSize 4 < usizeBound) :
    v1Block c = .ok (c.blockSize 4) := by
  unfold Counts.blockSize at h
  rw [v1Block, checked_ok (by omega), ok_bind, checked_ok (by omega), ok_bind,
    checked_ok (by omega), ok_bind, checked_ok (by omega), ok_bind, checked_ok (by omega), ok_bind,
    checked_ok (by omega), ok_bind, checked_ok (by omega), ok_bind, checked_ok (by omega), ok_bind,
    checked_ok (by omega)]
  rfl

/-- Steps that all succeed succeed together. -/
lemma mapM_ok {l : List α} {f : α → Parse β} {g : α → β} (h : ∀ a ∈ l, f a = .ok (g a)) :
    l.mapM f = .ok (l.map g) := by
  induction l with
  | nil => rfl
  | cons a l ih =>
    rw [List.mapM_cons, h a List.mem_cons_self, ok_bind,
      ih fun b hb => h b (List.mem_cons_of_mem _ hb), ok_bind]
    rfl

end Reading

/-! ### What is accepted -/

section Acceptance

variable {buf : Bytes}

/-- The first header is taken when it is there, begins as it must and has a known version. -/
lemma header1_spec (buf : Bytes) :
    (header1 buf = .ok (countsAt buf 0) ∧ headerLen ≤ buf.length ∧ field buf 0 4 = magic ∧
      (field buf 4 1 = [ch '2'] ∨ field buf 4 1 = [ch '3'])) ∨
    header1 buf = .error .refused ∧ ¬ Accepted buf := by
  by_cases hlen : buf.length < headerLen
  · exact Or.inr ⟨refuseIf_pos hlen _, fun h => absurd h.first (by omega)⟩
  have hlen' : 44 ≤ buf.length := Nat.le_of_not_lt hlen
  by_cases hmagic : field buf 0 4 = magic
  · by_cases hversion : field buf 4 1 ≠ [ch '2'] ∧ field buf 4 1 ≠ [ch '3']
    · refine Or.inr ⟨?_, fun h => h.version.elim hversion.1 hversion.2⟩
      rw [header1, refuseIf_neg hlen, slice_ok (by omega), ok_bind,
        refuseIf_neg (not_not.mpr hmagic), slice_ok (by omega), ok_bind, refuseIf_pos hversion]
    · refine Or.inl ⟨?_, hlen', hmagic, by tauto⟩
      rw [header1, refuseIf_neg hlen, slice_ok (by omega), ok_bind,
        refuseIf_neg (not_not.mpr hmagic), slice_ok (by omega), ok_bind, refuseIf_neg hversion,
        parseCounts_eq (by unfold headerLen; omega) (by unfold headerLen usizeBound; omega)]
  · refine Or.inr ⟨?_, fun h => hmagic h.magic₁⟩
    rw [header1, refuseIf_neg hlen, slice_ok (by omega), ok_bind, refuseIf_pos hmagic]

/-- The second header is where the sizes of the first one put it. -/
lemma secondHeader_lt (buf : Bytes) : secondHeader buf + headerLen ≤ 23 * 2 ^ 32 := by
  have h := (countsAt_lt buf 0).2.2
  unfold secondHeader headerLen
  omega

/-- The second header is taken when it is there, begins as it must and counts a type. -/
lemma header2_spec (buf : Bytes) :
    (header2 buf (secondHeader buf) = .ok (secondCounts buf) ∧ bodyStart buf ≤ buf.length ∧
      field buf (secondHeader buf) 4 = magic ∧ (secondCounts buf).typecnt ≠ 0) ∨
    header2 buf (secondHeader buf) = .error .refused ∧ ¬ Accepted buf := by
  have hword : secondHeader buf + headerLen < usizeBound :=
    Nat.lt_of_le_of_lt (secondHeader_lt buf) (by unfold usizeBound; omega)
  by_cases hlen : buf.length < secondHeader buf + headerLen
  · refine Or.inr ⟨?_, fun h => absurd h.second (Nat.not_le_of_lt hlen)⟩
    rw [header2, plain_ok hword, ok_bind, refuseIf_pos hlen]
  have hlen' : secondHeader buf + headerLen ≤ buf.length := Nat.le_of_not_lt hlen
  have hslice : slice buf (secondHeader buf) 4 = .ok (field buf (secondHeader buf) 4) :=
    slice_ok (by unfold headerLen at hlen'; omega)
  by_cases hmagic : field buf (secondHeader buf) 4 = magic
  · have hcounts : parseCounts buf (secondHeader buf) = .ok (secondCounts buf) :=
      parseCounts_eq hlen' hword
    by_cases htypes : (secondCounts buf).typecnt = 0
    · refine Or.inr ⟨?_, fun h => h.typecnt htypes⟩
      rw [header2, plain_ok hword, ok_bind, refuseIf_neg hlen, hslice, ok_bind,
        refuseIf_neg (not_not.mpr hmagic), hcounts, ok_bind, refuseIf_pos htypes]
    · refine Or.inl ⟨?_, hlen', hmagic, htypes⟩
      rw [header2, plain_ok hword, ok_bind, refuseIf_neg hlen, hslice, ok_bind,
        refuseIf_neg (not_not.mpr hmagic), hcounts, ok_bind, refuseIf_neg htypes]
      rfl
  · refine Or.inr ⟨?_, fun h => hmagic h.magic₂⟩
    rw [header2, plain_ok hword, ok_bind, refuseIf_neg hlen, hslice, ok_bind, refuseIf_pos hmagic]

/-- A type is read where the file has its six bytes. -/
lemma readType_ok {o : ℕ} (h : o + 6 ≤ buf.length) :
    readType buf o = .ok (ttInfo (ofBe (field buf o 4)) ((field buf (o + 4) 1).headD 0)) := by
  rw [readType, beU32_ok (by omega), ok_bind, slice_ok (by omega), ok_bind]
  rfl

/-- The block of 8-byte times is read when the file has all its types. -/
lemma v2Body_spec (hsecond : bodyStart buf ≤ buf.length) :
    (v2Body buf (bodyStart buf) (secondCounts buf) = .ok (zoneOf buf) ∧
      typeStart buf + (secondCounts buf).typecnt * 6 ≤ buf.length) ∨
    v2Body buf (bodyStart buf) (secondCounts buf) = .error .refused ∧ ¬ Accepted buf := by
  obtain ⟨htimes, htypes, -⟩ := countsAt_lt buf (secondHeader buf)
  have hsmall := secondHeader_lt buf
  change (secondCounts buf).timecnt < 2 ^ 32 at htimes
  change (secondCounts buf).typecnt < 2 ^ 32 at htypes
  have hbody : bodyStart buf = secondHeader buf + headerLen := rfl
  have hindex : indexStart buf = bodyStart buf + (secondCounts buf).timecnt * 8 := rfl
  have htype : typeStart buf = indexStart buf + (secondCounts buf).timecnt := rfl
  have hword : typeStart buf + (secondCounts buf).typecnt * 6 < usizeBound := by
    unfold usizeBound
    omega
  rw [v2Body, checked_ok (by omega), ok_bind, checked_ok (by omega), ok_bind,
    checked_ok (by omega), ok_bind, ← hindex, checked_ok (by omega), ok_bind, ← htype,
    checked_ok hword, ok_bind]
  by_cases hlen : buf.length < typeStart buf + (secondCounts buf).typecnt * 6
  · exact Or.inr ⟨refuseIf_pos hlen _, fun h => absurd h.length (Nat.not_le_of_lt hlen)⟩
  refine Or.inl ⟨?_, Nat.le_of_not_lt hlen⟩
  have htimes' : (List.range (secondCounts buf).timecnt).mapM
      (fun i => beI64 buf (bodyStart buf + i * 8)) = .ok (zoneOf buf).transitions :=
    mapM_ok fun i hi => beI64_ok (by rw [List.mem_range] at hi; omega)
  have hindices : (List.range (secondCounts buf).timecnt).mapM
      (fun i => (slice buf (indexStart buf + i) 1).map (·.headD 0)) = .ok (zoneOf buf).types := by
    refine mapM_ok fun i hi => ?_
    rw [List.mem_range] at hi
    rw [slice_ok (by omega)]
    rfl
  have htypes' : (List.range (secondCounts buf).typecnt).mapM
      (fun i => readType buf (typeStart buf + i * 6)) = .ok (zoneOf buf).ttinfos :=
    mapM_ok fun i hi => readType_ok (by rw [List.mem_range] at hi; omega)
  rw [refuseIf_neg hlen, htimes', ok_bind, plain_ok (by omega), ok_bind, hindices,
    ok_bind, htypes', ok_bind]
  rfl

/-- **The reader is total**: it gives the zone of an accepted file and refuses all others; it never
reads past the end of a file. -/
theorem parseTzif_spec (buf : Bytes) :
    (parseTzif buf = .ok (zoneOf buf) ∧ Accepted buf) ∨
      parseTzif buf = .error .refused ∧ ¬ Accepted buf := by
  have hsmall := secondHeader_lt buf
  have hblock := (countsAt_lt buf 0).2.2
  have hv1 : v1Block (countsAt buf 0) = .ok ((countsAt buf 0).blockSize 4) :=
    v1Block_eq _ (Nat.lt_of_le_of_lt hblock (by unfold usizeBound; omega))
  have hoff : checked (headerLen + (countsAt buf 0).blockSize 4) = .ok (secondHeader buf) :=
    checked_ok (by unfold headerLen usizeBound; omega)
  have hbody : plain (secondHeader buf + headerLen) = .ok (bodyStart buf) :=
    plain_ok (Nat.lt_of_le_of_lt hsmall (by unfold usizeBound; omega))
  rcases header1_spec buf with ⟨h1, hfirst, hmagic₁, hversion⟩ | ⟨h1, hnot⟩
  · rcases header2_spec buf with ⟨h2, hsecond, hmagic₂, htypecnt⟩ | ⟨h2, hnot⟩
    · have hparse : parseTzif buf = v2Body buf (bodyStart buf) (secondCounts buf) := by
        rw [parseTzif, h1, ok_bind, hv1, ok_bind, hoff, ok_bind, h2, ok_bind, hbody, ok_bind]
      rcases v2Body_spec hsecond with ⟨h, hlength⟩ | ⟨h, hnot⟩
      · exact Or.inl ⟨hparse.trans h,
          ⟨hfirst, hmagic₁, hversion, hsecond, hmagic₂, htypecnt, hlength⟩⟩
      · exact Or.inr ⟨hparse.trans h, hnot⟩
    · refine Or.inr ⟨?_, hnot⟩
      rw [parseTzif, h1, ok_bind, hv1, ok_bind, hoff, ok_bind, h2]
      rfl
  · refine Or.inr ⟨?_, hnot⟩
    rw [parseTzif, h1]
    rfl

end Acceptance

end ZoneFile

end Torajs.Date
