import Mathlib.Data.BitVec
import Mathlib.Logic.Function.Basic
import Mathlib.Data.List.Basic
import ToraJs.Lib.LittleEndian

/-!
# Chained fixups

`chained_fixups.rs` and `chained_fixups_starts.rs` describe the pointer slots of an image to the
loader.  The slots of a segment are sorted and put into buckets by page; the slots of a bucket are
chained, each link holding the distance to the next in units of four bytes, with zero at the end;
and a table in the blob says where on its page each chain starts.

Offsets and sizes are natural numbers, cut to the width of the field they are written to.
-/

namespace Torajs.Link

open LittleEndian

/-! ### Links -/

/-- `PAGE_SIZE`. -/
def pageSize : ℕ := 0x4000

/-- `DYLD_CHAINED_PTR_64_OFFSET`. -/
def dyldChainedPtr64Offset : ℕ := 6

/-- `DYLD_CHAINED_PTR_START_NONE`. -/
def dyldChainedPtrStartNone : ℕ := 0xFFFF

/-- `FIXUPS_HEADER_SIZE`. -/
def fixupsHeaderSize : ℕ := 32

/-- `encode_bind_link`. -/
def encodeBindLink (ordinal nextStride : BitVec 32) (addend : BitVec 8) : BitVec 64 :=
  let ordinalField := ordinal.setWidth 64 &&& 0xFFFFFF
  let addendField := (addend.setWidth 64 &&& 0xFF) <<< 24
  let nextField := (nextStride.setWidth 64 &&& 0xFFF) <<< 51
  let bindBit := (1 : BitVec 64) <<< 63
  ordinalField ||| addendField ||| nextField ||| bindBit

/-- `encode_rebase_link`. -/
def encodeRebaseLink (targetOffsetInImage : BitVec 64) (nextStride : BitVec 32)
    (high8 : BitVec 8) : BitVec 64 :=
  let targetField := targetOffsetInImage &&& 0xFFFFFFFFF
  let high8Field := (high8.setWidth 64 &&& 0xFF) <<< 36
  let nextField := (nextStride.setWidth 64 &&& 0xFFF) <<< 51
  targetField ||| high8Field ||| nextField

/-! ### Chains -/

/-- `SlotKind`: where the link of a slot is returned. -/
inductive SlotKind
  | laPtr (i : ℕ)
  | tlvThunk (i : ℕ)
  | rebase (i : ℕ)
  deriving DecidableEq

/-- The index of a lazy pointer. -/
def SlotKind.laPtr? : SlotKind → Option ℕ
  | .laPtr i => some i
  | .tlvThunk _ | .rebase _ => none

/-- The index of a thread-local thunk. -/
def SlotKind.tlvThunk? : SlotKind → Option ℕ
  | .tlvThunk i => some i
  | .laPtr _ | .rebase _ => none

/-- The index of a rebase target. -/
def SlotKind.rebase? : SlotKind → Option ℕ
  | .rebase i => some i
  | .laPtr _ | .tlvThunk _ => none

/-- A slot of a segment, with its import ordinal or its target. -/
structure Slot where
  offset : ℕ
  payload : ℕ
  kind : SlotKind
  deriving DecidableEq

/-- The page of a slot. -/
def Slot.page (s : Slot) : ℕ := s.offset / pageSize

/-- The link of a slot. -/
def encodeLink (s : Slot) (nextStride : ℕ) : BitVec 64 :=
  match s.kind with
  | .laPtr _ | .tlvThunk _ =>
    encodeBindLink (BitVec.ofNat 32 s.payload) (BitVec.ofNat 32 nextStride) 0
  | .rebase _ => encodeRebaseLink (BitVec.ofNat 64 s.payload) (BitVec.ofNat 32 nextStride) 0

/-- The distances in a bucket, to the next slot each. -/
def strides : List Slot → List (Slot × ℕ)
  | [] => []
  | [s] => [(s, 0)]
  | s :: t :: rest => (s, (t.offset - s.offset) / 4) :: strides (t :: rest)

/-- The loop over the sorted slots: each bucket is chained, and starts its page. -/
def chainPages (pageStarts : List ℕ) (slots : List Slot) : List ℕ × List (Slot × ℕ) :=
  match slots with
  | [] => (pageStarts, [])
  | s :: rest =>
    let bucket := s :: rest.takeWhile fun t => t.page = s.page
    let starts := pageStarts.set s.page (s.offset - s.page * pageSize)
    let chained := chainPages starts (rest.dropWhile fun t => t.page = s.page)
    (chained.1, strides bucket ++ chained.2)
termination_by slots.length
decreasing_by
  have := (List.dropWhile_sublist (l := rest) fun t => decide (t.page = s.page)).length_le
  simp only [List.length_cons]
  omega

/-- A link is returned at its index. -/
def setLink (index : SlotKind → Option ℕ) (values : List (BitVec 64)) (link : Slot × ℕ) :
    List (BitVec 64) :=
  match index link.1.kind with
  | some i => values.set i (encodeLink link.1 link.2)
  | none => values

/-- The links of one kind, in the order of their indices. -/
def linkValues (n : ℕ) (index : SlotKind → Option ℕ) (links : List (Slot × ℕ)) :
    List (BitVec 64) :=
  links.foldl (setLink index) (List.replicate n 0)

/-- `StartsInSegment`. -/
structure StartsInSegment where
  bytes : List (BitVec 8)
  laPtrSlotValues : List (BitVec 64)
  tlvThunkLinkValues : List (BitVec 64)
  rebaseLinkValues : List (BitVec 64)

/-- The slots of a segment, as they are collected. -/
def collectSlots (laPtrCount laPtrOffset : ℕ) (tlvThunkOffsets : List ℕ) (tlvImportOrdinal : ℕ)
    (rebaseTargets : List (ℕ × ℕ)) : List Slot :=
  (List.range laPtrCount).map (fun i => ⟨laPtrOffset + i * 8, i, .laPtr i⟩) ++
    tlvThunkOffsets.zipIdx.map (fun t => ⟨t.1, tlvImportOrdinal, .tlvThunk t.2⟩) ++
    rebaseTargets.zipIdx.map fun t => ⟨t.1.1, t.1.2, .rebase t.2⟩

/-- The pages of a segment that are backed by the file. -/
def pageCount (segmentFileSize : ℕ) : ℕ := (segmentFileSize + (pageSize - 1)) / pageSize

/-- The `dyld_chained_starts_in_segment` record. -/
def startsBytes (segmentVmaddrOffset : ℕ) (pageStarts : List ℕ) : List (BitVec 8) :=
  toLe 4 (22 + 2 * pageStarts.length) ++ (toLe 2 pageSize ++ (toLe 2 dyldChainedPtr64Offset ++
    (toLe 8 segmentVmaddrOffset ++ (toLe 4 0 ++ (toLe 2 pageStarts.length ++
      pageStarts.flatMap (toLe 2))))))

/-- Slots are sorted by their offset. -/
def sortSlots (slots : List Slot) : List Slot :=
  slots.mergeSort fun s t => s.offset ≤ t.offset

/-- The chains of a segment. -/
def chainSegment (segmentFileSize : ℕ) (slots : List Slot) : List ℕ × List (Slot × ℕ) :=
  chainPages (List.replicate (pageCount segmentFileSize) dyldChainedPtrStartNone) (sortSlots slots)

/-- `build_starts_in_segment`. -/
def buildStartsInSegment (laPtrCount laPtrOffset segmentVmaddrOffset segmentFileSize : ℕ)
    (tlvThunkOffsets : List ℕ) (tlvImportOrdinal : ℕ) (rebaseTargets : List (ℕ × ℕ)) :
    StartsInSegment :=
  let slots := collectSlots laPtrCount laPtrOffset tlvThunkOffsets tlvImportOrdinal rebaseTargets
  let chained := chainSegment segmentFileSize slots
  { bytes := startsBytes segmentVmaddrOffset chained.1
    laPtrSlotValues := linkValues laPtrCount SlotKind.laPtr? chained.2
    tlvThunkLinkValues := linkValues tlvThunkOffsets.length SlotKind.tlvThunk? chained.2
    rebaseLinkValues := linkValues rebaseTargets.length SlotKind.rebase? chained.2 }

/-! ### The blob -/

/-- `TextRebaseScope`. -/
structure TextRebaseScope where
  textSegmentVmaddrOffset : ℕ
  textSegmentVmsize : ℕ
  textSegIdx : ℕ
  rebaseTargets : List (ℕ × ℕ)
  deriving DecidableEq

/-- What `build_chained_fixups` is called with; an import is its name and its library. -/
structure FixupInput where
  laPtrImports : List (List (BitVec 8) × BitVec 8)
  dataSegmentVmaddrOffset : ℕ
  laPtrOffsetInSegment : ℕ
  dataSegmentFilesize : ℕ
  tlvThunkOffsets : List ℕ
  segCount : ℕ
  dataSegIdx : ℕ
  textRebase : Option TextRebaseScope
  dataRebaseTargets : List (ℕ × ℕ)

/-- `ChainedFixupsBlob`. -/
structure ChainedFixupsBlob where
  blob : List (BitVec 8)
  laPtrSlotValues : List (BitVec 64)
  tlvThunkLinkValues : List (BitVec 64)
  textRebaseLinkValues : List (BitVec 64)
  dataRebaseLinkValues : List (BitVec 64)

/-- `round_up_4`. -/
def roundUp4 (value : ℕ) : ℕ := (value + 3) / 4 * 4

/-- Bytes are padded with zeros up to a length. -/
def padTo (n : ℕ) (bytes : List (BitVec 8)) : List (BitVec 8) :=
  bytes ++ List.replicate (n - bytes.length) 0

/-- The string table up to an import, and the packed entries. -/
def packImports : List (BitVec 8) → List (List (BitVec 8) × BitVec 8) →
    List (BitVec 8) × List (BitVec 8)
  | symbols, [] => ([], symbols)
  | symbols, (name, libOrdinal) :: rest =>
    let packed := libOrdinal.setWidth 32 ||| (BitVec.ofNat 32 symbols.length &&& 0x7FFFFF) <<< 9
    let packedRest := packImports (symbols ++ name ++ [0]) rest
    (toLe 4 packed.toNat ++ packedRest.1, packedRest.2)

/-- `import_tables`. -/
def importTables (imports : List (List (BitVec 8) × BitVec 8)) :
    List (BitVec 8) × List (BitVec 8) :=
  let tables := packImports [] imports
  (tables.1, padTo ((tables.2.length + 7) / 8 * 8) tables.2)

/-- `TLV_BOOTSTRAP_SYMBOL` is `__tlv_bootstrap`. -/
def tlvBootstrapSymbol : List (BitVec 8) :=
  "__tlv_bootstrap".toList.map fun c => BitVec.ofNat 8 c.toNat

/-- `LIBSYSTEM_LIB_ORDINAL`. -/
def libsystemLibOrdinal : BitVec 8 := 1

/-- The starts of the data segment; there are none without a page in the file. -/
def FixupInput.dataStarts (i : FixupInput) : Option StartsInSegment :=
  if 0 < i.dataSegmentFilesize then
    some (buildStartsInSegment i.laPtrImports.length i.laPtrOffsetInSegment
      i.dataSegmentVmaddrOffset i.dataSegmentFilesize i.tlvThunkOffsets i.laPtrImports.length
      i.dataRebaseTargets)
  else none

/-- The starts of the text segment. -/
def FixupInput.textStarts (i : FixupInput) : Option StartsInSegment :=
  i.textRebase.map fun r =>
    buildStartsInSegment 0 0 r.textSegmentVmaddrOffset r.textSegmentVmsize [] 0 r.rebaseTargets

/-- The bytes of a segment's starts. -/
def startsOf (s : Option StartsInSegment) : List (BitVec 8) := (s.map (·.bytes)).getD []

/-- The entry of a segment in `seg_info_offset`. -/
def FixupInput.segInfoOffset (i : FixupInput) (seg : ℕ) : ℕ :=
  let dataStartsOff := 4 + 4 * i.segCount
  let textStartsOff := dataStartsOff + (startsOf i.dataStarts).length
  if seg = i.dataSegIdx then if i.dataStarts.isSome then dataStartsOff else 0
  else if i.textRebase.any fun r => r.textSegIdx = seg then textStartsOff else 0

/-- `build_chained_fixups`. -/
def buildChainedFixups (i : FixupInput) : ChainedFixupsBlob :=
  let importsSeq := i.laPtrImports ++
    if i.tlvThunkOffsets.isEmpty then [] else [(tlvBootstrapSymbol, libsystemLibOrdinal)]
  let startsInImage := toLe 4 i.segCount ++ ((List.range i.segCount).map i.segInfoOffset).flatMap
    (toLe 4)
  let starts := startsInImage ++ (startsOf i.dataStarts ++ startsOf i.textStarts)
  let importsOffset := roundUp4 (fixupsHeaderSize + starts.length)
  let symbolsOffset := roundUp4 (importsOffset + 4 * importsSeq.length)
  let tables := importTables importsSeq
  let header := toLe 4 0 ++ (toLe 4 fixupsHeaderSize ++ (toLe 4 importsOffset ++
    (toLe 4 symbolsOffset ++ (toLe 4 importsSeq.length ++ (toLe 4 1 ++ (toLe 4 0 ++ toLe 4 0))))))
  { blob := padTo symbolsOffset (padTo importsOffset (header ++ starts) ++ tables.1) ++ tables.2
    laPtrSlotValues := (i.dataStarts.map (·.laPtrSlotValues)).getD []
    tlvThunkLinkValues := (i.dataStarts.map (·.tlvThunkLinkValues)).getD []
    textRebaseLinkValues := (i.textStarts.map (·.rebaseLinkValues)).getD []
    dataRebaseLinkValues := (i.dataStarts.map (·.rebaseLinkValues)).getD [] }

/-! ### The image -/

/-- The links are written to their slots. -/
def place (segment : ℕ) (offsets : List ℕ) (values : List (BitVec 64)) : List (ℕ × BitVec 64) :=
  (offsets.map (segment + ·)).zip values

/-- What the emit pass writes, by offset in the image. -/
def FixupInput.writes (i : FixupInput) : List (ℕ × BitVec 64) :=
  let built := buildChainedFixups i
  place i.dataSegmentVmaddrOffset
      ((List.range i.laPtrImports.length).map fun k => i.laPtrOffsetInSegment + k * 8)
      built.laPtrSlotValues ++
    place i.dataSegmentVmaddrOffset i.tlvThunkOffsets built.tlvThunkLinkValues ++
    place i.dataSegmentVmaddrOffset (i.dataRebaseTargets.map Prod.fst)
      built.dataRebaseLinkValues ++
    match i.textRebase with
    | some r => place r.textSegmentVmaddrOffset (r.rebaseTargets.map Prod.fst)
        built.textRebaseLinkValues
    | none => []

/-- The image behind the emit pass: the eight bytes at each offset. -/
def emitted (i : FixupInput) (image : ℕ → BitVec 64) : ℕ → BitVec 64 :=
  i.writes.foldl (fun image w => Function.update image w.1 w.2) image

/-! ### The loader -/

/-- What a link says about its slot. -/
inductive Fixup
  | bind (ordinal addend : ℕ)
  | rebase (target high8 : ℕ)
  deriving DecidableEq

/-- The `next` field of a link. -/
def nextField (link : BitVec 64) : ℕ := (link.extractLsb' 51 12).toNat

/-- A link, as `dyld` decodes it in format 6. -/
def decodeLink (link : BitVec 64) : Fixup :=
  if link.getLsbD 63 then
    .bind (link.extractLsb' 0 24).toNat (link.extractLsb' 24 8).toNat
  else .rebase (link.extractLsb' 0 36).toNat (link.extractLsb' 36 8).toNat

/-- A chain is walked from an address to the link whose `next` is zero; a chain that has more links
than there are places on a page is malformed. -/
def walkChain (image : ℕ → BitVec 64) : ℕ → ℕ → Option (List (ℕ × Fixup))
  | 0, _ => none
  | places + 1, address =>
    let link := image address
    if nextField link = 0 then some [(address, decodeLink link)]
    else (walkChain image places (address + 4 * nextField link)).map
      ((address, decodeLink link) :: ·)

/-- The chains of a segment are walked, page by page. -/
def walkPages (image : ℕ → BitVec 64) (segmentOffset size : ℕ) :
    ℕ → List ℕ → Option (List (ℕ × Fixup))
  | _, [] => some []
  | page, start :: starts =>
    if start = dyldChainedPtrStartNone then walkPages image segmentOffset size (page + 1) starts
    else if 0x8000 ≤ start then none
    else
      (walkChain image (size / 4) (segmentOffset + page * size + start)).bind fun chain =>
        (walkPages image segmentOffset size (page + 1) starts).map (chain ++ ·)

/-- The `dyld_chained_starts_in_segment` record at an offset of the blob. -/
structure SegmentStarts where
  size : ℕ
  pointerFormat : ℕ
  segmentOffset : ℕ
  pageStarts : List ℕ
  deriving DecidableEq

/-- A record is read. -/
def readSegmentStarts (blob : List (BitVec 8)) (off : ℕ) : SegmentStarts where
  size := readLe blob (off + 4) 2
  pointerFormat := readLe blob (off + 6) 2
  segmentOffset := readLe blob (off + 8) 8
  pageStarts := (List.range (readLe blob (off + 20) 2)).map fun p => readLe blob (off + 22 + 2 * p) 2

/-- The records of the segments that have one, in the order of the segments. -/
def readStarts (blob : List (BitVec 8)) : List SegmentStarts :=
  let startsOffset := readLe blob 4 4
  (List.range (readLe blob startsOffset 4)).filterMap fun seg =>
    let info := readLe blob (startsOffset + 4 + 4 * seg) 4
    if info = 0 then none else some (readSegmentStarts blob (startsOffset + info))

/-- The fixups that the loader finds in an image. -/
def walkFixups (blob : List (BitVec 8)) (image : ℕ → BitVec 64) : Option (List (ℕ × Fixup)) :=
  ((readStarts blob).mapM fun starts =>
    if starts.pointerFormat = dyldChainedPtr64Offset then
      walkPages image starts.segmentOffset starts.size 0 starts.pageStarts
    else none).map List.flatten

end Torajs.Link
