import Mathlib.Data.List.Basic
import Mathlib.Data.List.Sort
import ToraJs.Lib.LittleEndian

/-!
# The closure of what a link reaches

`dead_strip_reach_walk.rs` finds out which atoms of the members of a link are live.  A node is an
atom or a whole section; its out-edges are the relocations that lie in it.  What a relocation points
at is decoded from the bytes of its member (`dead_strip_reach_resolve.rs`), once in a link: the
edges of a node are kept as a span of an arena, by the bytes of the member
(`dead_strip_reach_edges.rs`), and the edges of an atom may be read from a table of the image
instead.  What an undefined name stands for is asked once in a closure, and where a row of the index
of the image is defined is looked up once in a link.

The bytes of a member are named by their address; two members with the same bytes have the same
tables.  The tables that are parsed out of the bytes are the model's data.  A position that the code
would read out of the bounds of a vector is an error here.  The probes of the diagnosis are not
modelled, nor are the predecessors that it records.
-/

namespace Torajs.Link.Reach

open LittleEndian

/-! ### Members and the image -/

/-- An archive and a member of it. -/
abbrev Key := ℕ × ℕ

scoped instance : LawfulBEq Key := inferInstance

/-- `Node`. -/
inductive Node
  | atom (key : Key) (sect atom : ℕ)
  | allSect (key : Key) (sect : ℕ)
  deriving DecidableEq

/-- The member of a node. -/
def Node.key : Node → Key
  | .atom key _ _ => key
  | .allSect key _ => key

/-- The section of a node, from 1 on. -/
def Node.sect : Node → ℕ
  | .atom _ sect _ => sect
  | .allSect _ sect => sect

/-- The atom of a node. -/
def Node.atom? : Node → Option ℕ
  | .atom _ _ a => some a
  | .allSect _ _ => none

/-- `MemberRelocEntry`. -/
structure Reloc where
  address : ℕ
  symbolnum : ℕ
  pcrel : Bool
  length : ℕ
  isExtern : Bool
  type : ℕ

/-- `NlEntry`. -/
structure NlEntry where
  name : String
  type : ℕ
  sect : ℕ
  value : ℕ

/-- The atoms of a section, with the relocations of the section, if they parse.  The atoms ascend, a
relocation lies in the section, and what has no storage in the file has no relocations. -/
structure Sect where
  addr : ℕ
  size : ℕ
  fileOff : ℕ
  noFileStorage : Bool
  atoms : List (ℕ × ℕ)
  relocs : Option (List Reloc)
  ascending : atoms.Pairwise fun a b => a.1 < b.1
  starts : ∀ a ∈ atoms, addr ≤ a.1
  few : atoms.length < 2 ^ 32
  inside : ∀ l ∈ relocs, ∀ e ∈ l, e.address < size
  bare : noFileStorage = true → relocs = some []

/-- The bytes of a member, with the tables that are parsed out of them; a defined name stands in a
section of a `u8` ordinal. -/
structure Member where
  data : List (BitVec 8)
  sects : List Sect
  nlist : List NlEntry
  defined : List (String × ℕ × ℕ)
  small : ∀ d ∈ defined, d.2.1 < 2 ^ 8

/-- An out-edge in a table of the image. -/
inductive TableEdge
  | loc (sect : ℕ) (atom : Option ℕ)
  | sym (row : ℕ)
  | foreign (k : ℕ)

/-- The runtime image: the bytes of each member, by their address, the symbol index with the owner
of each row, and the out-edge table of each member that has one. -/
structure Image where
  bytesOf : Key → ℕ
  member : ℕ → Member
  symbols : List (String × Key)
  cold : Key → Option (ℕ → ℕ → List TableEdge)
  nodup : (symbols.map Prod.fst).Nodup

/-- `find_symbol`. -/
def Image.findSymbol (im : Image) (name : String) : Option ℕ :=
  im.symbols.findIdx? fun s => s.1 = name

/-- `symbol_name`. -/
def Image.symbolName (im : Image) (row : ℕ) : Option String := im.symbols[row]?.map Prod.fst

/-! ### Targets -/

/-- `sect_of`. -/
def Member.sectOf (m : Member) (ord : ℕ) : Option Sect :=
  if ord = 0 then none else m.sects[ord - 1]?

/-- `covering_atom`. -/
def coveringAtom (atoms : List (ℕ × ℕ)) (addr : ℕ) : Option ℕ :=
  match (atoms.takeWhile fun a => a.1 ≤ addr).length with
  | 0 => none
  | i + 1 =>
    match atoms[i]? with
    | none => none
    | some a => if a.1 ≤ addr ∧ addr < a.2 then some i else none

/-- `atom_at`. -/
def atomAt (m : Member) (sect addr : ℕ) : Option ℕ :=
  (m.sectOf sect).bind fun sa => coveringAtom sa.atoms addr

/-- `local_node`. -/
def localNode (key : Key) (sect : ℕ) : Option ℕ → Node
  | some atom => .atom key sect atom
  | none => .allSect key sect

/-- `RelocTarget`. -/
inductive RelocTarget
  | loc (sect : ℕ) (atom : Option ℕ)
  | undef (row : ℕ) (name : String)

/-- `decode_reloc`. -/
def decodeReloc (siteSect : ℕ) (e : Reloc) (m : Member) : Option RelocTarget :=
  if e.isExtern then
    match m.nlist[e.symbolnum]? with
    | none => none
    | some entry =>
      if entry.type &&& 0x0E = 0 then some (.undef e.symbolnum entry.name)
      else if entry.type &&& 0x0E = 0x0E then
        some (.loc entry.sect (atomAt m entry.sect entry.value))
      else none
  else if e.type = 10 then none
  else
    let sect := e.symbolnum % 2 ^ 8
    let whole := some (.loc sect none)
    if e.type = 0 ∧ e.length = 3 ∧ e.pcrel = false then
      match m.sectOf siteSect with
      | none => whole
      | some sa =>
        let off := sa.fileOff + e.address
        if sa.noFileStorage = false ∧ off + 8 ≤ m.data.length then
          some (.loc sect (atomAt m sect (readLe m.data off 8)))
        else whole
    else whole

/-- What a closure is given: the image, the members that it walks, the names that the user's code
defines, and the names that dyld binds.  The members are a set, and a name that dyld binds is one
that the index lacks. -/
structure Setup where
  image : Image
  keys : List Key
  user : String → Bool
  dyldImports : List String
  nodup : keys.Nodup
  apart : ∀ name ∈ dyldImports, image.findSymbol name = none

/-- `MemberReach::defined`. -/
def Member.definedAt (m : Member) (name : String) : Option (ℕ × ℕ) :=
  (m.defined.find? fun d => d.1 = name).map Prod.snd

/-- `node_for_global_name`. -/
def nodeForGlobalName (su : Setup) (name : String) : Option Node :=
  (su.image.findSymbol name).bind fun row =>
    su.image.symbols[row]?.bind fun s =>
      if s.2 ∈ su.keys then
        let m := su.image.member (su.image.bytesOf s.2)
        (m.definedAt name).map fun d => localNode s.2 d.1 (atomAt m d.1 d.2)
      else none

/-- `resolve_undef`. -/
def resolveUndef (su : Setup) (name : String) : Option Node :=
  if su.user name || name ∈ su.dyldImports then none else nodeForGlobalName su name

/-- `resolve_reloc_target`. -/
def resolveRelocTarget (su : Setup) (key : Key) (siteSect : ℕ) (e : Reloc) : Option Node :=
  match decodeReloc siteSect e (su.image.member (su.image.bytesOf key)) with
  | none => none
  | some (.loc sect atom) => some (localNode key sect atom)
  | some (.undef _ name) => resolveUndef su name

/-! ### Relocations of a range -/

/-- `Table`. -/
inductive Table
  | descending (l : List Reloc)
  | sorted (l : List (ℕ × ℕ × Reloc))

/-- `partition_point`. -/
def partitionPoint {α : Type} (p : α → Bool) (l : List α) : ℕ := (l.takeWhile p).length

/-- The elements from one position up to another. -/
def slice {α : Type} (l : List α) (lo hi : ℕ) : List α := (l.take hi).drop lo

/-- The relocations with their positions, by address and position. -/
def sortRelocs (parsed : List Reloc) : List (ℕ × ℕ × Reloc) :=
  (parsed.zipIdx.map fun e => (e.1.address, e.2, e.1)).mergeSort fun a b =>
    a.1 < b.1 ∨ a.1 = b.1 ∧ a.2.1 ≤ b.2.1

/-- `index`. -/
def indexRelocs (parsed : List Reloc) : Table :=
  if parsed.Pairwise fun a b => b.address ≤ a.address then .descending parsed
  else .sorted (sortRelocs parsed)

/-- What `in_range` answers from the table of a section. -/
def Table.inRange (lo hi : ℕ) : Table → List Reloc
  | .descending t =>
    let from_ := partitionPoint (fun e => hi ≤ e.address) t
    slice t from_ (max (partitionPoint (fun e => lo ≤ e.address) t) from_)
  | .sorted t =>
    let from_ := partitionPoint (fun e => e.1 < lo) t
    let hits := slice t from_ (max (partitionPoint (fun e => e.1 < hi) t) from_)
    (hits.mergeSort fun a b => a.2.1 ≤ b.2.1).map fun e => e.2.2

/-! ### Edges -/

/-- `Edge`. -/
inductive Edge
  | loc (sect : ℕ) (atom : Option ℕ)
  | sym (row : ℕ)
  | name (id : ℕ)

/-- `ImportRef`. -/
inductive ImportRef
  | sym (row : ℕ)
  | foreign (name : String)

/-- `bytes_imports`: the undefined external rows of a member, in nlist order. -/
def imports (im : Image) (m : Member) : List (ℕ × ImportRef) :=
  m.nlist.zipIdx.filterMap fun (entry, row) =>
    if entry.type &&& 0x0E = 0 ∧ entry.type &&& 0x01 ≠ 0 then
      some (row, (im.findSymbol entry.name).elim (.foreign entry.name) .sym)
    else none

/-- `Decoded`, where a foreign import and a row that is no import are the same to the closure. -/
inductive Decoded
  | loc (sect : ℕ) (atom : Option ℕ)
  | sym (row : ℕ)
  | named (name : String)

/-- What `decode_edges` makes of a target. -/
def decoded (im : Image) (m : Member) : RelocTarget → Decoded
  | .loc sect atom => .loc sect atom
  | .undef row name =>
    match (imports im m).find? fun i => i.1 = row with
    | some (_, .sym s) => .sym s
    | some (_, .foreign _) => .named name
    | none => .named name

/-- A span of the arena: its start and its length. -/
abbrev Span := ℕ × ℕ

/-- `UNDECODED`. -/
def undecoded : Span := (0, 2 ^ 32 - 1)

/-- `Stored`: the table of a member, and the names of its foreign imports with their ids, once an
edge has named one. -/
structure Stored where
  table : ℕ → ℕ → List TableEdge
  foreign : List (String × Option ℕ)

/-- `EdgeIndex`: the slots are the positions of the bytes in `slots`; `tables` are those of the
relocations. -/
structure EdgeIndex where
  tables : ℕ × ℕ → Option Table
  slots : List ℕ
  stored : List (Option Stored)
  spans : ℕ × ℕ × Option ℕ → Span
  arena : List Edge
  names : List String

/-- `EdgeIndex::default`. -/
def EdgeIndex.init : EdgeIndex where
  tables _ := none
  slots := []
  stored := []
  spans _ := undecoded
  arena := []
  names := []

/-- `slot`; `decodeAll` is set by the diagnosis. -/
def EdgeIndex.slot (ix : EdgeIndex) (decodeAll : Bool) (im : Image) (key : Key) : ℕ × EdgeIndex :=
  match ix.slots.findIdx? fun b => b = im.bytesOf key with
  | some j => (j, ix)
  | none =>
    (ix.slots.length,
      { ix with
        slots := ix.slots ++ [im.bytesOf key]
        stored := ix.stored ++
          [if decodeAll then none else (im.cold key).map fun table => ⟨table, []⟩] })

/-- `name_id`. -/
def nameId (names : List String) (name : String) : ℕ × List String :=
  match names.findIdx? fun n => n = name with
  | some id => (id, names)
  | none => (names.length, names ++ [name])

/-- A decoded edge is pushed. -/
def pushDecoded (d : Decoded) (arena : List Edge) (names : List String) :
    List Edge × List String :=
  match d with
  | .loc sect atom => (arena ++ [.loc sect atom], names)
  | .sym row => (arena ++ [.sym row], names)
  | .named name =>
    let (id, names) := nameId names name
    (arena ++ [.name id], names)

/-- The edges of a list are pushed. -/
def pushAll : List Decoded → List Edge → List String → List Edge × List String
  | [], arena, names => (arena, names)
  | d :: ds, arena, names =>
    let (arena, names) := pushDecoded d arena names
    pushAll ds arena names

/-- The names of the foreign imports, without ids. -/
def foreignNames (imps : List (ℕ × ImportRef)) : List (String × Option ℕ) :=
  imps.filterMap fun i => match i.2 with
    | .foreign name => some (name, none)
    | .sym _ => none

/-- `foreign_id`. -/
def foreignId (foreign : List (String × Option ℕ)) (k : ℕ) (imps : List (ℕ × ImportRef))
    (names : List String) : Option (ℕ × List (String × Option ℕ) × List String) :=
  let foreign := if foreign = [] then foreignNames imps else foreign
  match foreign[k]? with
  | none => none
  | some (_, some id) => some (id, foreign, names)
  | some (name, none) =>
    let (id, names) := nameId names name
    some (id, foreign.set k (name, some id), names)

/-- `push_stored_edges`. -/
def pushStored (imps : List (ℕ × ImportRef)) :
    List TableEdge → List (String × Option ℕ) → List Edge → List String →
      Option (List (String × Option ℕ) × List Edge × List String)
  | [], foreign, arena, names => some (foreign, arena, names)
  | .loc sect atom :: es, foreign, arena, names =>
    pushStored imps es foreign (arena ++ [.loc sect atom]) names
  | .sym row :: es, foreign, arena, names =>
    pushStored imps es foreign (arena ++ [.sym row]) names
  | .foreign k :: es, foreign, arena, names =>
    match foreignId foreign k imps names with
    | none => none
    | some (id, foreign, names) => pushStored imps es foreign (arena ++ [.name id]) names

/-- Why a closure stops: a node of a member that is not walked, a section or an atom that is not
there, relocations that do not parse, or an arena of too many edges. -/
inductive Failure
  | vanished
  | bad
  | relocs
  | overflow (edges : ℕ)
  deriving DecidableEq

/-- `in_range`: the relocations of a section are indexed once in a link. -/
def EdgeIndex.inRange (ix : EdgeIndex) (b sect : ℕ) (sa : Sect) (lo hi : ℕ) :
    Except Failure (List Reloc × EdgeIndex) :=
  match ix.tables (b, sect) with
  | some t => .ok (t.inRange lo hi, ix)
  | none =>
    match sa.relocs with
    | none => .error .relocs
    | some parsed =>
      let t := indexRelocs parsed
      .ok (t.inRange lo hi, { ix with tables := Function.update ix.tables (b, sect) (some t) })

/-- The relocations of an atom, or of the section. -/
def rangeOf (sa : Sect) : Option ℕ → Option (ℕ × ℕ)
  | some a => sa.atoms[a]?.map fun r => (r.1 - sa.addr, r.2 - sa.addr)
  | none => some (0, sa.size)

/-- `decode_edges`. -/
def decodeEdges (im : Image) (m : Member) (sect : ℕ) (l : List Reloc) : List Decoded :=
  l.filterMap fun e => (decodeReloc sect e m).map (decoded im m)

/-- The edges of a node are decoded from the relocations into the arena. -/
def EdgeIndex.decodeRelocs (ix : EdgeIndex) (im : Image) (b sect : ℕ) (sa : Sect)
    (atom : Option ℕ) : Except Failure EdgeIndex :=
  match rangeOf sa atom with
  | none => .error .bad
  | some (lo, hi) =>
    match ix.inRange b sect sa lo hi with
    | .error e => .error e
    | .ok (l, ix) =>
      let (arena, names) :=
        pushAll (decodeEdges im (im.member b) sect l) ix.arena ix.names
      .ok { ix with arena := arena, names := names }

/-- The edges of a node are put into the arena, those of an atom from the table of the image if
there is one. -/
def EdgeIndex.decode (ix : EdgeIndex) (im : Image) (slot b sect : ℕ) (sa : Sect)
    (atom : Option ℕ) : Except Failure EdgeIndex :=
  let m := im.member b
  match atom, ix.stored[slot]? with
  | some a, some (some st) =>
    match pushStored (imports im m) (st.table sect a) st.foreign ix.arena ix.names with
    | none => .error .bad
    | some (foreign, arena, names) =>
      .ok { ix with
        stored := ix.stored.set slot (some { st with foreign := foreign })
        arena := arena
        names := names }
  | _, _ => ix.decodeRelocs im b sect sa atom

/-- A span is kept. -/
def EdgeIndex.keep (ix : EdgeIndex) (slot sect : ℕ) (atom : Option ℕ) (span : Span) : EdgeIndex :=
  { ix with spans := Function.update ix.spans (slot, sect, atom) span }

/-- `out_edges`. -/
def EdgeIndex.outEdges (ix : EdgeIndex) (im : Image) (slot b sect : ℕ) (sa : Sect)
    (atom : Option ℕ) : Except Failure (Span × EdgeIndex) :=
  let span := ix.spans (slot, sect, atom)
  if span ≠ undecoded then .ok (span, ix)
  else
    let start := ix.arena.length
    match ix.decode im slot b sect sa atom with
    | .error e => .error e
    | .ok ix =>
      let span := (start, ix.arena.length - start)
      if span.1 < 2 ^ 32 ∧ span.2 < 2 ^ 32 then .ok (span, ix.keep slot sect atom span)
      else .error (.overflow ix.arena.length)

/-! ### Answers -/

/-- The answers of a closure, and those of the link: the answer for each id of a name, the rows that
were asked about, those that a user definition answered, the names that nothing defines, the names
that refer to the user's code, and where each row is defined. -/
structure Answers where
  names : List (Option (Option Node))
  asked : List ℕ
  userRows : List ℕ
  unresolved : List String
  userRefs : List String
  symLoc : List ℕ

/-- `KNOWN`. -/
def known : ℕ := 2 ^ 63

/-- `DEFINED`. -/
def definedBit : ℕ := 2 ^ 62

/-- What `sym_loc` keeps of a row. -/
def packLoc (m : Member) (name : String) : ℕ :=
  match m.definedAt name with
  | none => known
  | some (sect, value) =>
    known ||| definedBit ||| sect <<< 32 ||| ((atomAt m sect value).elim 0 fun a => a + 1)

/-- The node that an entry of `sym_loc` stands for. -/
def unpackLoc (key : Key) (loc : ℕ) : Option Node :=
  if loc &&& definedBit ≠ 0 then
    some (localNode key (loc >>> 32 % 2 ^ 8)
      (if loc % 2 ^ 32 = 0 then none else some (loc % 2 ^ 32 - 1)))
  else none

/-- `sym_node`. -/
def symNode (su : Setup) (row : ℕ) (symLoc : List ℕ) : Option Node × List ℕ :=
  match su.image.symbols[row]? with
  | none => (none, symLoc)
  | some (name, key) =>
    if key ∈ su.keys then
      let symLoc := if symLoc = [] then List.replicate su.image.symbols.length 0 else symLoc
      let loc := symLoc.getD row 0
      let loc := if loc = 0 then packLoc (su.image.member (su.image.bytesOf key)) name else loc
      (unpackLoc key loc, symLoc.set row loc)
    else (none, symLoc)

/-- `ask_row`. -/
def askRow (su : Setup) (row : ℕ) (an : Answers) : Option Node × Answers :=
  if row ∈ an.asked then
    if row ∈ an.userRows then (none, an)
    else
      let (node, symLoc) := symNode su row an.symLoc
      (node, { an with symLoc := symLoc })
  else
    let name := (su.image.symbolName row).getD ""
    let an := { an with asked := row :: an.asked }
    if su.user name then
      (none, { an with userRows := row :: an.userRows, userRefs := name :: an.userRefs })
    else
      let (node, symLoc) := symNode su row an.symLoc
      (node, { an with
        symLoc := symLoc
        unresolved := if node.isNone then name :: an.unresolved else an.unresolved })

/-- `UndefMemo::set`. -/
def setAnswer (names : List (Option (Option Node))) (id : ℕ) (answer : Option Node) :
    List (Option (Option Node)) :=
  (names ++ List.replicate (id + 1 - names.length) none).set id (some answer)

/-- The answer for a name that was not asked about. -/
def freshName (su : Setup) (name : String) (an : Answers) : Option Node × Answers :=
  let an := if su.user name then { an with userRefs := name :: an.userRefs } else an
  if su.user name || name ∈ su.dyldImports then (none, an)
  else
    let (node, symLoc) :=
      match su.image.findSymbol name with
      | none => (none, an.symLoc)
      | some row => symNode su row an.symLoc
    (node, { an with
      symLoc := symLoc
      unresolved := if node.isNone then name :: an.unresolved else an.unresolved })

/-- `ask_name`. -/
def askName (su : Setup) (id : ℕ) (name : String) (an : Answers) : Option Node × Answers :=
  match an.names[id]? with
  | some (some answer) => (answer, an)
  | _ =>
    let (answer, an) := freshName su name an
    (answer, { an with names := setAnswer an.names id answer })

/-- The node that an edge makes live. -/
def askEdge (su : Setup) (key : Key) (names : List String) (e : Edge) (an : Answers) :
    Option Node × Answers :=
  match e with
  | .loc sect atom => (some (localNode key sect atom), an)
  | .sym row => askRow su row an
  | .name id => askName su id (names.getD id "") an

/-! ### Nodes that were visited, and marks -/

/-- `Seen`: where the bits of each section start, the bits of the atoms, and those of the
sections. -/
structure Seen where
  base : List (List ℕ)
  atoms : List Bool
  whole : List (List Bool)

/-- Where each section of a member starts. -/
def bases : ℕ → List ℕ → List ℕ
  | _, [] => []
  | n, count :: counts => n :: bases (n + count) counts

/-- Where each section of each member starts. -/
def allBases : ℕ → List (List ℕ) → List (List ℕ)
  | _, [] => []
  | n, counts :: rest => bases n counts :: allBases (n + counts.sum) rest

/-- `Seen::new`, by the number of the atoms of each section. -/
def Seen.new (counts : List (List ℕ)) : Seen where
  base := allBases 0 counts
  atoms := List.replicate (counts.map List.sum).sum false
  whole := counts.map fun c => List.replicate c.length false

/-- `Seen::insert`: whether the node is new. -/
def Seen.insert (seen : Seen) (i : ℕ) : Node → Except Failure (Bool × Seen)
  | .atom _ 0 _ => .ok (true, seen)
  | .atom _ (s + 1) a =>
    match seen.base[i]?.bind fun b => b[s]? with
    | none => .ok (true, seen)
    | some at_ =>
      match seen.atoms[at_ + a]? with
      | none => .error .bad
      | some bit => .ok (!bit, { seen with atoms := seen.atoms.set (at_ + a) true })
  | .allSect _ 0 => .ok (true, seen)
  | .allSect _ (s + 1) =>
    match seen.whole[i]?.bind fun b => b[s]? with
    | none => .ok (true, seen)
    | some bit =>
      .ok (!bit, { seen with whole := seen.whole.modify i fun bits => bits.set s true })

/-- The marks of a section: which atoms are live, and whether all are. -/
structure Marks where
  live : List Bool
  allLive : Bool

/-- An atom, or all of a section, is marked live. -/
def Marks.mark (marks : Marks) : Option ℕ → Option Marks
  | some a =>
      if a < marks.live.length then some { marks with live := marks.live.set a true } else none
  | none => some { live := marks.live.map fun _ => true, allLive := true }

/-! ### The walk -/

/-- `Walk` and `Walker`, with what the closure uses of the cache, and the worklist, the last node
that was pushed first. -/
structure Walker where
  slots : List ℕ
  marks : List (List Marks)
  seen : Seen
  answers : Answers
  index : EdgeIndex
  worklist : List Node

/-- The edges of a node are followed. -/
def follow (su : Setup) (key : Key) (names : List String) :
    List Edge → Answers → List Node → Answers × List Node
  | [], an, worklist => (an, worklist)
  | e :: es, an, worklist =>
    let (next, an) := askEdge su key names e an
    follow su key names es an (next.elim worklist fun n => n :: worklist)

/-- `expand`. -/
def expand (su : Setup) (w : Walker) (i : ℕ) (node : Node) : Except Failure Walker :=
  let b := su.image.bytesOf node.key
  match (su.image.member b).sectOf node.sect, w.marks[i]?.bind fun ms => ms[node.sect - 1]? with
  | some sa, some marks =>
    match marks.mark node.atom? with
    | none => .error .bad
    | some marks =>
      let w := { w with
        marks := w.marks.modify i fun ms => ms.set (node.sect - 1) marks }
      if sa.noFileStorage then .ok w
      else
        match w.slots[i]? with
        | none => .error .bad
        | some slot =>
          match w.index.outEdges su.image slot b node.sect sa node.atom? with
          | .error e => .error e
          | .ok (span, index) =>
            let edges := slice index.arena span.1 (span.1 + span.2)
            let (answers, worklist) :=
              follow su node.key index.names edges w.answers w.worklist
            .ok { w with index := index, answers := answers, worklist := worklist }
  | _, _ =>
    match node with
    | .atom _ _ _ => .error .bad
    | .allSect _ _ => .ok w

/-- A node of the worklist is visited. -/
def visit (su : Setup) (w : Walker) (node : Node) : Except Failure Walker :=
  match su.keys.findIdx? fun key => key = node.key with
  | none => .error .vanished
  | some i =>
    match w.seen.insert i node with
    | .error e => .error e
    | .ok (fresh, seen) =>
      if fresh then expand su { w with seen := seen } i node else .ok { w with seen := seen }

/-- The loop of `close`, for some number of steps. -/
def closeFor (su : Setup) : ℕ → Walker → Option (Except Failure Walker)
  | 0, _ => none
  | fuel + 1, w =>
    match w.worklist with
    | [] => some (.ok w)
    | node :: worklist =>
      match visit su { w with worklist := worklist } node with
      | .error e => some (.error e)
      | .ok w => closeFor su fuel w

/-- `ReachCache`, as far as the closures use it. -/
structure ReachCache where
  edges : EdgeIndex
  symLoc : List ℕ

/-- `ReachCache::default`. -/
def ReachCache.init : ReachCache := ⟨.init, []⟩

/-- The slots of some members. -/
def slotsOf (decodeAll : Bool) (im : Image) : List Key → EdgeIndex → List ℕ × EdgeIndex
  | [], ix => ([], ix)
  | key :: keys, ix =>
    let (j, ix) := ix.slot decodeAll im key
    let (js, ix) := slotsOf decodeAll im keys ix
    (j :: js, ix)

/-- `Walk::new` and `Walker::new`, with the roots on the worklist: the last one is popped first. -/
def Walker.new (decodeAll : Bool) (su : Setup) (cache : ReachCache) (roots : List Node) : Walker :=
  let (slots, index) := slotsOf decodeAll su.image su.keys cache.edges
  let sects := su.keys.map fun key => (su.image.member (su.image.bytesOf key)).sects
  { slots := slots
    marks := sects.map fun ss => ss.map fun sa => ⟨List.replicate sa.atoms.length false, false⟩
    seen := Seen.new (sects.map fun ss => ss.map fun sa => sa.atoms.length)
    answers := ⟨[], [], [], [], [], cache.symLoc⟩
    index := index
    worklist := roots.reverse }

/-- The cache that a closure leaves. -/
def Walker.cache (w : Walker) : ReachCache := ⟨w.index, w.answers.symLoc⟩

end Torajs.Link.Reach
