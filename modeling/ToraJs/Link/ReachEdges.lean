import ToraJs.Link.Reach

/-!
# The edges that a link keeps

The edge index answers what the relocations of a node list, whether it decodes them, reads them off
a table of the image, or has kept them from an earlier closure for a member of the same bytes.
-/

namespace Torajs.Link.Reach

/-! ### Ranges -/

section Ranges

variable {α : Type} {p q : α → Bool} {l : List α} {x : α}

/-- What is partitioned has the property up to the partition point. -/
lemma lt_partitionPoint_iff (hp : l.Pairwise fun a b => p b = true → p a = true) {i : ℕ}
    (hx : l[i]? = some x) : i < partitionPoint p l ↔ p x = true := by
  induction l generalizing i with
  | nil => cases hx
  | cons a l ih =>
    obtain ⟨ha, hl⟩ := List.pairwise_cons.mp hp
    rw [partitionPoint, List.takeWhile_cons]
    cases i with
    | zero =>
      obtain rfl := Option.some.inj hx
      cases hpa : p a <;> simp
    | succ i =>
      rw [List.getElem?_cons_succ] at hx
      cases hpa : p a with
      | true =>
        rw [if_pos rfl, List.length_cons, Nat.succ_lt_succ_iff]
        exact ih hl hx
      | false =>
        rw [if_neg Bool.false_ne_true]
        refine ⟨fun h => absurd h (Nat.not_lt_zero _), fun hpx => ?_⟩
        rw [ha x (List.mem_of_getElem? hx) hpx] at hpa
        cases hpa

lemma mem_slice {lo hi : ℕ} : x ∈ slice l lo hi ↔ ∃ i, lo ≤ i ∧ i < hi ∧ l[i]? = some x := by
  rw [slice, List.mem_iff_getElem?]
  constructor
  · rintro ⟨i, hi'⟩
    rw [List.getElem?_drop, List.getElem?_take] at hi'
    obtain ⟨hlt, hx⟩ := Option.ite_none_right_eq_some.mp hi'
    exact ⟨lo + i, Nat.le_add_right _ _, hlt, hx⟩
  · rintro ⟨i, hlo, hhi, hx⟩
    refine ⟨i - lo, ?_⟩
    rw [List.getElem?_drop, List.getElem?_take, Nat.add_sub_cancel' hlo, if_pos hhi, hx]

/-- The elements between two partition points. -/
lemma mem_slice_partition (hp : l.Pairwise fun a b => p b = true → p a = true)
    (hq : l.Pairwise fun a b => q b = true → q a = true) :
    x ∈ slice l (partitionPoint p l) (max (partitionPoint q l) (partitionPoint p l)) ↔
      x ∈ l ∧ q x = true ∧ p x = false := by
  rw [mem_slice]
  constructor
  · rintro ⟨i, hlo, hhi, hx⟩
    have hpx := lt_partitionPoint_iff hp hx
    have hqx := lt_partitionPoint_iff hq hx
    refine ⟨List.mem_of_getElem? hx, hqx.mp (by omega), ?_⟩
    exact Bool.eq_false_iff.mpr fun h => absurd (hpx.mpr h) (by omega)
  · rintro ⟨hmem, hqx, hpx⟩
    obtain ⟨i, hx⟩ := List.mem_iff_getElem?.mp hmem
    have hlt := (lt_partitionPoint_iff hq hx).mpr hqx
    have hge : ¬ i < partitionPoint p l := fun h => by
      rw [(lt_partitionPoint_iff hp hx).mp h] at hpx
      cases hpx
    exact ⟨i, by omega, by omega, hx⟩

end Ranges

/-- The sorted relocations are the relocations with their positions. -/
lemma mem_sortRelocs {parsed : List Reloc} {x : ℕ × ℕ × Reloc} :
    x ∈ sortRelocs parsed ↔ parsed[x.2.1]? = some x.2.2 ∧ x.1 = x.2.2.address := by
  obtain ⟨address, i, e⟩ := x
  rw [sortRelocs, List.mem_mergeSort, List.mem_map]
  constructor
  · rintro ⟨⟨e, i⟩, hmem, h⟩
    obtain ⟨rfl, rfl, rfl⟩ := by simpa using h
    exact ⟨List.mem_zipIdx_iff_getElem?.mp hmem, rfl⟩
  · rintro ⟨hget, haddress⟩
    exact ⟨(e, i), List.mem_zipIdx_iff_getElem?.mpr hget,
      congrArg (fun a => (a, i, e)) haddress.symm⟩

lemma sortRelocs_ascending (parsed : List Reloc) :
    (sortRelocs parsed).Pairwise fun a b => a.1 ≤ b.1 := by
  refine (List.pairwise_mergeSort ?_ ?_ _).imp fun {a b} h => ?_
  · intro a b c hab hbc
    rw [decide_eq_true_eq] at hab hbc ⊢
    omega
  · intro a b
    rw [Bool.or_eq_true, decide_eq_true_eq, decide_eq_true_eq]
    omega
  · rw [decide_eq_true_eq] at h
    omega

/-- **The relocations of a range** are those that lie in it. -/
lemma mem_inRange {parsed : List Reloc} {lo hi : ℕ} {e : Reloc} :
    e ∈ (indexRelocs parsed).inRange lo hi ↔ e ∈ parsed ∧ lo ≤ e.address ∧ e.address < hi := by
  rw [indexRelocs]
  split_ifs with hdesc
  · have hle : ∀ n : ℕ, parsed.Pairwise fun a b =>
        (decide (n ≤ b.address)) = true → (decide (n ≤ a.address)) = true := fun n =>
      hdesc.imp fun {a b} hab hb => by
        rw [decide_eq_true_eq] at hb ⊢
        exact hb.trans hab
    rw [Table.inRange, mem_slice_partition (hle hi) (hle lo)]
    simp only [decide_eq_true_eq, decide_eq_false_iff_not, Nat.not_le]
  · have hlt : ∀ n : ℕ, (sortRelocs parsed).Pairwise fun a b =>
        (decide (b.1 < n)) = true → (decide (a.1 < n)) = true := fun n =>
      (sortRelocs_ascending parsed).imp fun {a b} hab hb => by
        rw [decide_eq_true_eq] at hb ⊢
        exact Nat.lt_of_le_of_lt hab hb
    simp only [Table.inRange, List.mem_map, List.mem_mergeSort]
    constructor
    · rintro ⟨x, hx, rfl⟩
      obtain ⟨hx, hhi, hlo⟩ := (mem_slice_partition (hlt lo) (hlt hi)).mp hx
      obtain ⟨hget, haddress⟩ := mem_sortRelocs.mp hx
      rw [decide_eq_true_eq] at hhi
      rw [decide_eq_false_iff_not, Nat.not_lt] at hlo
      exact ⟨List.mem_of_getElem? hget, haddress ▸ hlo, haddress ▸ hhi⟩
    · rintro ⟨he, hlo, hhi⟩
      obtain ⟨i, hget⟩ := List.mem_iff_getElem?.mp he
      refine ⟨(e.address, i, e), (mem_slice_partition (hlt lo) (hlt hi)).mpr
        ⟨mem_sortRelocs.mpr ⟨hget, rfl⟩, decide_eq_true hhi, ?_⟩, rfl⟩
      exact decide_eq_false (Nat.not_lt.mpr hlo)

/-! ### What is listed -/

/-- A node lists an edge: a relocation that lies in it decodes to it. -/
def Lists (im : Image) (m : Member) (sect : ℕ) (atom : Option ℕ) (d : Decoded) : Prop :=
  ∃ sa l lo hi, m.sectOf sect = some sa ∧ sa.relocs = some l ∧ rangeOf sa atom = some (lo, hi) ∧
    ∃ e ∈ l, (lo ≤ e.address ∧ e.address < hi) ∧
      ∃ t, decodeReloc sect e m = some t ∧ decoded im m t = d

/-- What an edge of the arena stands for. -/
def Edge.reads (names : List String) : Edge → Option Decoded
  | .loc sect atom => some (.loc sect atom)
  | .sym row => some (.sym row)
  | .name id => names[id]?.map .named

/-- What an edge of a table of the image stands for. -/
def TableEdge.reads (imps : List (ℕ × ImportRef)) : TableEdge → Option Decoded
  | .loc sect atom => some (.loc sect atom)
  | .sym row => some (.sym row)
  | .foreign k => (foreignNames imps)[k]?.map fun f => .named f.1

/-- The tables of the image list what decoding the relocations would. -/
def StoredLists (im : Image) : Prop :=
  ∀ key table, im.cold key = some table → ∀ sect sa a,
    (im.member (im.bytesOf key)).sectOf sect = some sa → sa.noFileStorage = false →
    a < sa.atoms.length →
    (∀ x ∈ table sect a, (x.reads (imports im (im.member (im.bytesOf key)))).isSome) ∧
    ∀ d, (∃ x ∈ table sect a, x.reads (imports im (im.member (im.bytesOf key))) = some d) ↔
      Lists im (im.member (im.bytesOf key)) sect (some a) d

/-- Some edges of the arena stand for what has a property. -/
def Stand (names : List String) (edges : List Edge) (P : Decoded → Prop) : Prop :=
  (∀ e ∈ edges, ∃ d, e.reads names = some d ∧ P d) ∧
    ∀ d, P d → ∃ e ∈ edges, e.reads names = some d

section Names

variable {names names' : List String} {e : Edge} {d : Decoded}

lemma getElem?_of_prefix {α : Type} {l l' : List α} (h : l <+: l') {i : ℕ} {x : α}
    (hx : l[i]? = some x) : l'[i]? = some x := by
  obtain ⟨t, rfl⟩ := h
  rw [List.getElem?_append_left (List.getElem?_eq_some_iff.mp hx).1, hx]

lemma getElem?_concat_cases {α : Type} {l : List α} {i : ℕ} {x y : α}
    (h : (l ++ [x])[i]? = some y) : l[i]? = some y ∨ i = l.length ∧ x = y := by
  by_cases hlt : i < l.length
  · rw [List.getElem?_append_left hlt] at h
    exact Or.inl h
  · have hlt' := (List.getElem?_eq_some_iff.mp h).1
    rw [List.length_append, List.length_singleton] at hlt'
    obtain rfl : i = l.length := by omega
    rw [List.getElem?_concat_length] at h
    exact Or.inr ⟨rfl, Option.some.inj h⟩

lemma set_of_getElem? {α : Type} {l : List α} {i : ℕ} {x : α} (h : l[i]? = some x) :
    l.set i x = l := by
  obtain ⟨hlt, rfl⟩ := List.getElem?_eq_some_iff.mp h
  exact List.set_getElem_self hlt

/-- More names do not change what an edge stands for. -/
lemma reads_of_prefix (h : names <+: names') (he : e.reads names = some d) :
    e.reads names' = some d := by
  cases e with
  | loc sect atom => exact he
  | sym row => exact he
  | name id =>
    obtain ⟨name, hname, rfl⟩ := Option.map_eq_some_iff.mp he
    rw [Edge.reads, getElem?_of_prefix h hname, Option.map_some]

/-- A name gets an id that reads it back. -/
lemma nameId_spec (names : List String) (name : String) :
    (nameId names name).2[(nameId names name).1]? = some name ∧
      names <+: (nameId names name).2 := by
  rw [nameId]
  cases hfind : names.findIdx? fun n => n = name with
  | some id =>
    obtain ⟨hlt, heq, -⟩ := List.findIdx?_eq_some_iff_getElem.mp hfind
    refine ⟨?_, List.prefix_rfl⟩
    change names[id]? = some name
    rw [List.getElem?_eq_getElem hlt, of_decide_eq_true heq]
  | none => exact ⟨List.getElem?_concat_length, List.prefix_append _ _⟩

lemma pushAll_spec (ds : List Decoded) (arena : List Edge) (names : List String) :
    ∃ es, (pushAll ds arena names).1 = arena ++ es ∧ names <+: (pushAll ds arena names).2 ∧
      es.map (Edge.reads (pushAll ds arena names).2) = ds.map some := by
  induction ds generalizing arena names with
  | nil => exact ⟨[], (List.append_nil _).symm, List.prefix_rfl, rfl⟩
  | cons d ds ih =>
    obtain ⟨e, names', hpush, hpre, hreads⟩ : ∃ e names',
        pushDecoded d arena names = (arena ++ [e], names') ∧ names <+: names' ∧
          e.reads names' = some d := by
      cases d with
      | loc sect atom => exact ⟨_, _, rfl, List.prefix_rfl, rfl⟩
      | sym row => exact ⟨_, _, rfl, List.prefix_rfl, rfl⟩
      | named name =>
        obtain ⟨hid, hpre⟩ := nameId_spec names name
        exact ⟨_, _, rfl, hpre, congrArg (Option.map Decoded.named) hid⟩
    obtain ⟨es, harena, hnames, hes⟩ := ih (arena ++ [e]) names'
    rw [pushAll, hpush]
    refine ⟨e :: es, ?_, hpre.trans hnames, ?_⟩
    · rw [harena, List.append_assoc, List.singleton_append]
    · rw [List.map_cons, List.map_cons, hes, reads_of_prefix hnames hreads]

/-- The names of the foreign imports, where some have the ids that read them back. -/
def ForeignOk (imps : List (ℕ × ImportRef)) (names : List String)
    (foreign : List (String × Option ℕ)) : Prop :=
  foreign = [] ∨ foreign.map Prod.fst = (foreignNames imps).map Prod.fst ∧
    ∀ f ∈ foreign, ∀ id, f.2 = some id → names[id]? = some f.1

variable {imps : List (ℕ × ImportRef)} {foreign : List (String × Option ℕ)}

lemma ForeignOk.mono (h : ForeignOk imps names foreign) (hpre : names <+: names') :
    ForeignOk imps names' foreign :=
  h.imp_right fun ⟨hnames, hids⟩ =>
    ⟨hnames, fun f hf id hid => getElem?_of_prefix hpre (hids f hf id hid)⟩

/-- A foreign import gets an id that reads its name back. -/
lemma foreignId_spec (h : ForeignOk imps names foreign) {k : ℕ} {f : String × Option ℕ}
    (hk : (foreignNames imps)[k]? = some f) :
    ∃ id foreign' names', foreignId foreign k imps names = some (id, foreign', names') ∧
      names <+: names' ∧ names'[id]? = some f.1 ∧ ForeignOk imps names' foreign' := by
  have hfilled : ∃ foreign₁, (if foreign = [] then foreignNames imps else foreign) = foreign₁ ∧
      foreign₁.map Prod.fst = (foreignNames imps).map Prod.fst ∧
      ∀ f ∈ foreign₁, ∀ id, f.2 = some id → names[id]? = some f.1 := by
    by_cases hempty : foreign = []
    · refine ⟨foreignNames imps, if_pos hempty, rfl, fun f hf id hid => ?_⟩
      obtain ⟨i, -, hi⟩ := List.mem_filterMap.mp hf
      cases href : i.2 with
      | sym row => rw [href] at hi; cases hi
      | foreign name =>
        rw [href] at hi
        obtain rfl := Option.some.inj hi
        cases hid
    · obtain ⟨hnames, hids⟩ := h.resolve_left hempty
      exact ⟨foreign, if_neg hempty, hnames, hids⟩
  obtain ⟨foreign₁, hif, hnames, hids⟩ := hfilled
  obtain ⟨g, hg, hgf⟩ : ∃ g, foreign₁[k]? = some g ∧ g.1 = f.1 := by
    have hmap : (foreign₁.map Prod.fst)[k]? = some f.1 := by
      rw [hnames, List.getElem?_map, hk, Option.map_some]
    rw [List.getElem?_map] at hmap
    exact Option.map_eq_some_iff.mp hmap
  obtain ⟨name, id?⟩ := g
  rw [foreignId, hif]
  cases id? with
  | some id =>
    refine ⟨id, foreign₁, names, ?_, List.prefix_rfl, ?_, Or.inr ⟨hnames, hids⟩⟩
    · simp only [hg]
    · rw [← hgf]
      exact hids _ (List.mem_of_getElem? hg) id rfl
  | none =>
    obtain ⟨hid, hpre⟩ := nameId_spec names name
    refine ⟨(nameId names name).1, foreign₁.set k (name, some (nameId names name).1),
      (nameId names name).2, ?_, hpre, ?_, Or.inr ⟨?_, fun f' hf' id' hid' => ?_⟩⟩
    · simp only [hg]
    · rw [hid, ← hgf]
    · have hname : (foreign₁.map Prod.fst)[k]? = some name := by
        rw [List.getElem?_map, hg, Option.map_some]
      rw [List.map_set, set_of_getElem? hname, hnames]
    · rcases List.mem_or_eq_of_mem_set hf' with hf' | rfl
      · exact getElem?_of_prefix hpre (hids f' hf' id' hid')
      · obtain rfl := Option.some.inj hid'
        exact hid

lemma pushStored_spec {es : List TableEdge} (hes : ∀ x ∈ es, (x.reads imps).isSome)
    (h : ForeignOk imps names foreign) (arena : List Edge) :
    ∃ foreign' names' out, pushStored imps es foreign arena names =
        some (foreign', arena ++ out, names') ∧ names <+: names' ∧ ForeignOk imps names' foreign' ∧
      out.map (Edge.reads names') = es.map (TableEdge.reads imps) := by
  induction es generalizing foreign names arena with
  | nil => exact ⟨foreign, names, [], by rw [pushStored, List.append_nil], List.prefix_rfl, h, rfl⟩
  | cons x es ih =>
    have hrest : ∀ x ∈ es, (x.reads imps).isSome := fun y hy => hes y (List.mem_cons_of_mem _ hy)
    have hgo : ∀ (e : Edge) foreign₁ names₁, names <+: names₁ → ForeignOk imps names₁ foreign₁ →
        e.reads names₁ = x.reads imps →
        pushStored imps (x :: es) foreign arena names =
          pushStored imps es foreign₁ (arena ++ [e]) names₁ →
        ∃ foreign' names' out, pushStored imps (x :: es) foreign arena names =
            some (foreign', arena ++ out, names') ∧ names <+: names' ∧
          ForeignOk imps names' foreign' ∧
          out.map (Edge.reads names') = (x :: es).map (TableEdge.reads imps) := by
      intro e foreign₁ names₁ hpre hforeign hreads hstep
      obtain ⟨foreign', names', out, hpush, hnames, hforeign', hout⟩ :=
        ih hrest hforeign (arena ++ [e])
      refine ⟨foreign', names', e :: out, ?_, hpre.trans hnames, hforeign', ?_⟩
      · rw [hstep, hpush, List.append_assoc, List.singleton_append]
      · obtain ⟨d, hd⟩ := Option.isSome_iff_exists.mp (hes x List.mem_cons_self)
        rw [hd] at hreads
        rw [List.map_cons, List.map_cons, hout, hd, reads_of_prefix hnames hreads]
    cases x with
    | loc sect atom => exact hgo _ foreign names List.prefix_rfl h rfl (by rw [pushStored])
    | sym row => exact hgo _ foreign names List.prefix_rfl h rfl (by rw [pushStored])
    | foreign k =>
      obtain ⟨d, hd⟩ := Option.isSome_iff_exists.mp (hes _ List.mem_cons_self)
      obtain ⟨f, hk, hfd⟩ := Option.map_eq_some_iff.mp hd
      obtain ⟨id, foreign₁, names₁, hid, hpre, hname, hforeign⟩ := foreignId_spec h hk
      refine hgo (.name id) foreign₁ names₁ hpre hforeign ?_ ?_
      · rw [Edge.reads, hname, Option.map_some, TableEdge.reads, hk, Option.map_some]
      · rw [pushStored, hid]

end Names

/-! ### The index -/

/-- Edges that stand for a property still do when there are more names. -/
lemma Stand.mono {names names' : List String} {edges : List Edge} {P : Decoded → Prop}
    (h : Stand names edges P) (hpre : names <+: names') : Stand names' edges P := by
  refine ⟨fun e he => ?_, fun d hd => ?_⟩
  · obtain ⟨d, hreads, hd⟩ := h.1 e he
    exact ⟨d, reads_of_prefix hpre hreads, hd⟩
  · obtain ⟨e, he, hreads⟩ := h.2 d hd
    exact ⟨e, he, reads_of_prefix hpre hreads⟩

/-- Edges stand for what a list of edges is read as. -/
lemma stand_of_map {names : List String} {edges : List Edge} {ds : List (Option Decoded)}
    {P : Decoded → Prop} (hmap : edges.map (Edge.reads names) = ds)
    (hds : ∀ d ∈ ds, d.isSome) (hP : ∀ d, some d ∈ ds ↔ P d) : Stand names edges P := by
  subst hmap
  refine ⟨fun e he => ?_, fun d hd => ?_⟩
  · obtain ⟨d, hd⟩ := Option.isSome_iff_exists.mp (hds _ (List.mem_map_of_mem he))
    exact ⟨d, hd, (hP d).mp (hd ▸ List.mem_map_of_mem he)⟩
  · exact List.mem_map.mp ((hP d).mpr hd)

/-- A span of the arena holds the edges that a node lists. -/
structure Holds (im : Image) (ix : EdgeIndex) (b sect : ℕ) (atom : Option ℕ) (span : Span) :
    Prop where
  inside : span.1 + span.2 ≤ ix.arena.length
  stand : Stand ix.names (slice ix.arena span.1 (span.1 + span.2))
    (Lists im (im.member b) sect atom)

/-- The index is right: the tables are those of the relocations, the tables of the image are those
of the members, and the spans that are kept hold what their nodes list. -/
structure IndexOk (im : Image) (ix : EdgeIndex) : Prop where
  tables : ∀ b sect t, ix.tables (b, sect) = some t → ∃ sa l, (im.member b).sectOf sect = some sa ∧
    sa.relocs = some l ∧ t = indexRelocs l
  length : ix.stored.length = ix.slots.length
  stored : ∀ (j b : ℕ) (st : Stored), ix.slots[j]? = some b → ix.stored[j]? = some (some st) →
    (∃ key, im.bytesOf key = b ∧ im.cold key = some st.table) ∧
      ForeignOk (imports im (im.member b)) ix.names st.foreign
  fresh : ∀ (j sect : ℕ) (atom : Option ℕ), ix.slots.length ≤ j →
    ix.spans (j, sect, atom) = undecoded
  spans : ∀ (j b sect : ℕ) (atom : Option ℕ), ix.slots[j]? = some b →
    ix.spans (j, sect, atom) ≠ undecoded → Holds im ix b sect atom (ix.spans (j, sect, atom))

lemma indexOk_init (im : Image) : IndexOk im .init where
  tables _ _ _ h := by cases h
  length := rfl
  stored _ _ _ h := by cases h
  fresh _ _ _ _ := rfl
  spans _ _ _ _ h := by cases h

section Index

variable {im : Image} {ix ix' : EdgeIndex} {b sect j : ℕ} {atom : Option ℕ} {sa : Sect}

/-- A longer arena and more names do not change what a span holds. -/
lemma Holds.mono {span : Span} (h : Holds im ix b sect atom span)
    (harena : ix.arena <+: ix'.arena) (hnames : ix.names <+: ix'.names) :
    Holds im ix' b sect atom span := by
  obtain ⟨more, hmore⟩ := harena
  have hinside := h.inside
  refine ⟨?_, ?_⟩
  · rw [← hmore, List.length_append]
    omega
  · have hslice : slice ix'.arena span.1 (span.1 + span.2) =
        slice ix.arena span.1 (span.1 + span.2) := by
      rw [slice, slice, ← hmore, List.take_append_of_le_length hinside]
    rw [hslice]
    exact h.stand.mono hnames

/-- A member gets a slot of its bytes. -/
lemma slot_spec (h : IndexOk im ix) (decodeAll : Bool) (key : Key) :
    IndexOk im (ix.slot decodeAll im key).2 ∧
      (ix.slot decodeAll im key).2.slots[(ix.slot decodeAll im key).1]? = some (im.bytesOf key) ∧
      ix.slots <+: (ix.slot decodeAll im key).2.slots := by
  rw [EdgeIndex.slot]
  cases hfind : ix.slots.findIdx? fun b => b = im.bytesOf key with
  | some j =>
    obtain ⟨hlt, heq, -⟩ := List.findIdx?_eq_some_iff_getElem.mp hfind
    refine ⟨h, ?_, List.prefix_rfl⟩
    change ix.slots[j]? = _
    rw [List.getElem?_eq_getElem hlt, of_decide_eq_true heq]
  | none =>
    refine ⟨⟨h.tables, ?_, ?_, ?_, ?_⟩, List.getElem?_concat_length, List.prefix_append _ _⟩
    · rw [List.length_append, List.length_append, h.length, List.length_singleton,
        List.length_singleton]
    · intro j b st hj hst
      rcases getElem?_concat_cases hj with hj | ⟨rfl, rfl⟩
      · rcases getElem?_concat_cases hst with hst | ⟨rfl, -⟩
        · exact h.stored j b st hj hst
        · exact absurd (List.getElem?_eq_some_iff.mp hj).1 (by rw [h.length]; exact lt_irrefl _)
      · rcases getElem?_concat_cases hst with hst | ⟨-, hnew⟩
        · exact absurd (List.getElem?_eq_some_iff.mp hst).1 (by rw [h.length]; exact lt_irrefl _)
        · obtain ⟨-, hcold⟩ := Option.ite_none_left_eq_some.mp hnew
          obtain ⟨table, htable, rfl⟩ := Option.map_eq_some_iff.mp hcold
          exact ⟨⟨key, rfl, htable⟩, Or.inl rfl⟩
    · intro j sect atom hj
      refine h.fresh j sect atom ?_
      rw [List.length_append] at hj
      omega
    · intro j b sect atom hj hspan
      rcases getElem?_concat_cases hj with hj | ⟨rfl, -⟩
      · exact (h.spans j b sect atom hj hspan).mono List.prefix_rfl List.prefix_rfl
      · exact absurd (h.fresh _ sect atom (Nat.le_refl _)) hspan

/-- The relocations of a section are found, by the table or by their bytes. -/
lemma inRange_spec (h : IndexOk im ix) (hsect : (im.member b).sectOf sect = some sa) (lo hi : ℕ) :
    (∃ l parsed tables, ix.inRange b sect sa lo hi = .ok (l, { ix with tables := tables }) ∧
      IndexOk im { ix with tables := tables } ∧ sa.relocs = some parsed ∧
      ∀ e, e ∈ l ↔ e ∈ parsed ∧ lo ≤ e.address ∧ e.address < hi) ∨
    ix.inRange b sect sa lo hi = .error .relocs ∧ sa.relocs = none := by
  rw [EdgeIndex.inRange]
  cases htable : ix.tables (b, sect) with
  | some t =>
    obtain ⟨sa', parsed, hsect', hrelocs, rfl⟩ := h.tables b sect t htable
    obtain rfl := Option.some.inj (hsect.symm.trans hsect')
    exact Or.inl ⟨_, parsed, ix.tables, rfl, h, hrelocs, fun e => mem_inRange⟩
  | none =>
    cases hrelocs : sa.relocs with
    | none => exact Or.inr ⟨rfl, rfl⟩
    | some parsed =>
      refine Or.inl ⟨_, parsed, _, rfl, ?_, rfl, fun e => mem_inRange⟩
      refine ⟨fun b' sect' t ht => ?_, h.length, h.stored, h.fresh, fun j b' sect' atom hj hspan =>
        (h.spans j b' sect' atom hj hspan).mono List.prefix_rfl List.prefix_rfl⟩
      by_cases hkey : (b', sect') = (b, sect)
      · obtain ⟨rfl, rfl⟩ := Prod.mk.inj hkey
        have hnew : (some (indexRelocs parsed)) = some t := by
          rw [← ht]
          exact (Function.update_self (b', sect') _ ix.tables).symm
        exact ⟨sa, parsed, hsect, hrelocs, (Option.some.inj hnew).symm⟩
      · refine h.tables b' sect' t ?_
        rw [← ht]
        exact (Function.update_of_ne hkey _ ix.tables).symm

/-- An index keeps its order when edges are pushed. -/
lemma IndexOk.push (h : IndexOk im ix) (edges : List Edge) {names : List String}
    (hnames : ix.names <+: names) :
    IndexOk im { ix with arena := ix.arena ++ edges, names := names } where
  tables := h.tables
  length := h.length
  stored j b st hj hst := (h.stored j b st hj hst).imp_right fun hf => hf.mono hnames
  fresh := h.fresh
  spans j b sect atom hj hspan :=
    (h.spans j b sect atom hj hspan).mono (List.prefix_append _ _) hnames

/-- The edges of a node are decoded from the relocations. -/
lemma decodeRelocs_spec (h : IndexOk im ix) (hsect : (im.member b).sectOf sect = some sa)
    (hatom : ∀ a, atom = some a → a < sa.atoms.length) :
    (∃ ix' edges, ix.decodeRelocs im b sect sa atom = .ok ix' ∧ IndexOk im ix' ∧
      ix'.slots = ix.slots ∧ ix'.spans = ix.spans ∧ ix.names <+: ix'.names ∧
      ix'.arena = ix.arena ++ edges ∧
      Stand ix'.names edges (Lists im (im.member b) sect atom)) ∨
    ix.decodeRelocs im b sect sa atom = .error .relocs ∧ sa.relocs = none := by
  obtain ⟨lo, hi, hrange⟩ : ∃ lo hi, rangeOf sa atom = some (lo, hi) := by
    cases atom with
    | none => exact ⟨_, _, rfl⟩
    | some a =>
      obtain ⟨r, hget⟩ : ∃ r, sa.atoms[a]? = some r :=
        ⟨_, List.getElem?_eq_getElem (hatom a rfl)⟩
      exact ⟨_, _, by rw [rangeOf, hget, Option.map_some]⟩
  rw [EdgeIndex.decodeRelocs, hrange]
  rcases inRange_spec h hsect lo hi with ⟨l, parsed, tables, hl, hix, hrelocs, hmem⟩ | ⟨hl, hnone⟩
  · obtain ⟨edges, harena, hnames, hreads⟩ :=
      pushAll_spec (decodeEdges im (im.member b) sect l) ix.arena ix.names
    simp only [hl]
    refine Or.inl ⟨_, edges, rfl, ?_, rfl, rfl, hnames, harena, stand_of_map hreads ?_ ?_⟩
    · rw [harena]
      exact hix.push edges hnames
    · intro d hd
      obtain ⟨d, -, rfl⟩ := List.mem_map.mp hd
      rfl
    · intro d
      rw [List.mem_map_of_injective (Option.some_injective _), decodeEdges, List.mem_filterMap]
      constructor
      · rintro ⟨e, he, hd⟩
        obtain ⟨t, ht, htd⟩ := Option.map_eq_some_iff.mp hd
        obtain ⟨hparsed, hlohi⟩ := (hmem e).mp he
        exact ⟨sa, parsed, lo, hi, hsect, hrelocs, hrange, e, hparsed, hlohi, t, ht, htd⟩
      · rintro ⟨sa', parsed', lo', hi', hsect', hrelocs', hrange', e, he, hlohi, t, ht, htd⟩
        obtain rfl := Option.some.inj (hsect.symm.trans hsect')
        obtain rfl := Option.some.inj (hrelocs.symm.trans hrelocs')
        obtain ⟨rfl, rfl⟩ := Prod.mk.inj (Option.some.inj (hrange.symm.trans hrange'))
        exact ⟨e, (hmem e).mpr ⟨he, hlohi⟩, by rw [ht, Option.map_some, htd]⟩
  · simp only [hl]
    exact Or.inr ⟨trivial, hnone⟩

/-- **The edges of a node are found**, in the relocations or in the table of the image. -/
lemma decode_spec (h : IndexOk im ix) (hstored : StoredLists im) (hslot : ix.slots[j]? = some b)
    (hsect : (im.member b).sectOf sect = some sa) (hstorage : sa.noFileStorage = false)
    (hatom : ∀ a, atom = some a → a < sa.atoms.length) :
    (∃ ix' edges, ix.decode im j b sect sa atom = .ok ix' ∧ IndexOk im ix' ∧
      ix'.slots = ix.slots ∧ ix'.spans = ix.spans ∧ ix.names <+: ix'.names ∧
      ix'.arena = ix.arena ++ edges ∧
      Stand ix'.names edges (Lists im (im.member b) sect atom)) ∨
    ix.decode im j b sect sa atom = .error .relocs ∧ sa.relocs = none := by
  rw [EdgeIndex.decode.eq_def]
  cases atom with
  | none => exact decodeRelocs_spec h hsect hatom
  | some a =>
    cases hst : ix.stored[j]? with
    | none => exact decodeRelocs_spec h hsect hatom
    | some st? =>
      cases st? with
      | none => exact decodeRelocs_spec h hsect hatom
      | some st =>
        obtain ⟨⟨key, hkey, hcold⟩, hforeign⟩ := h.stored j b st hslot hst
        subst hkey
        obtain ⟨hvalid, hlists⟩ :=
          hstored key st.table hcold sect sa a hsect hstorage (hatom a rfl)
        obtain ⟨foreign', names', edges, hpush, hnames, hforeign', hreads⟩ :=
          pushStored_spec hvalid hforeign ix.arena
        simp only [hpush]
        have hok := h.push edges hnames
        refine Or.inl ⟨_, edges, rfl, ⟨hok.tables, ?_, ?_, hok.fresh, ?_⟩, rfl, rfl, hnames, rfl,
          stand_of_map hreads ?_ ?_⟩
        · rw [List.length_set]
          exact hok.length
        · intro j' b' st' hj' hst'
          by_cases hjj : j = j'
          · subst hjj
            obtain rfl := Option.some.inj (hslot.symm.trans hj')
            have hnew := hst'.symm.trans
              (List.getElem?_set_self (List.getElem?_eq_some_iff.mp hst).1)
            obtain rfl := Option.some.inj (Option.some.inj hnew)
            exact ⟨⟨key, rfl, hcold⟩, hforeign'⟩
          · exact hok.stored j' b' st' hj' ((List.getElem?_set_ne hjj).symm.trans hst')
        · intro j' b' sect' atom' hj' hspan
          exact (hok.spans j' b' sect' atom' hj' hspan).mono List.prefix_rfl List.prefix_rfl
        · intro d hd
          obtain ⟨x, hx, rfl⟩ := List.mem_map.mp hd
          exact hvalid x hx
        · intro d
          rw [List.mem_map]
          exact hlists d

lemma keep_spans_self (span : Span) : (ix.keep j sect atom span).spans (j, sect, atom) = span := by
  simp only [EdgeIndex.keep, Function.update_self]

lemma keep_spans_of_ne {span : Span} {k : ℕ × ℕ × Option ℕ} (hk : k ≠ (j, sect, atom)) :
    (ix.keep j sect atom span).spans k = ix.spans k := by
  simp only [EdgeIndex.keep, Function.update_of_ne hk]

/-- A span that holds what its node lists may be kept. -/
lemma IndexOk.keep (h : IndexOk im ix) (hslot : ix.slots[j]? = some b) {span : Span}
    (hholds : Holds im ix b sect atom span) : IndexOk im (ix.keep j sect atom span) := by
  refine ⟨h.tables, h.length, h.stored, fun j' sect' atom' hj' => ?_,
    fun j' b' sect' atom' hj' hspan => ?_⟩
  · have hne : (j', sect', atom') ≠ (j, sect, atom) := fun heq => by
      rw [(Prod.mk.inj heq).1] at hj'
      exact absurd (List.getElem?_eq_some_iff.mp hslot).1 (Nat.not_lt.mpr hj')
    rw [keep_spans_of_ne hne]
    exact h.fresh j' sect' atom' hj'
  · by_cases hkey : (j', sect', atom') = (j, sect, atom)
    · rw [hkey, keep_spans_self]
      obtain ⟨hjj, hrest⟩ := Prod.mk.inj hkey
      obtain ⟨hss, haa⟩ := Prod.mk.inj hrest
      subst hjj hss haa
      obtain rfl := Option.some.inj (hslot.symm.trans hj')
      exact ⟨hholds.inside, hholds.stand⟩
    · rw [keep_spans_of_ne hkey] at hspan ⊢
      have hold := h.spans j' b' sect' atom' hj' hspan
      exact ⟨hold.inside, hold.stand⟩

/-- **The out-edges of a node** are what it lists, now or when they were kept. -/
lemma outEdges_spec (h : IndexOk im ix) (hstored : StoredLists im) (hslot : ix.slots[j]? = some b)
    (hsect : (im.member b).sectOf sect = some sa) (hstorage : sa.noFileStorage = false)
    (hatom : ∀ a, atom = some a → a < sa.atoms.length) :
    (∃ span ix', ix.outEdges im j b sect sa atom = .ok (span, ix') ∧ IndexOk im ix' ∧
      ix'.slots = ix.slots ∧ ix.names <+: ix'.names ∧ Holds im ix' b sect atom span) ∨
    (∃ edges, ix.outEdges im j b sect sa atom = .error (.overflow edges) ∧ 2 ^ 32 ≤ edges) ∨
    ix.outEdges im j b sect sa atom = .error .relocs ∧ sa.relocs = none := by
  rw [EdgeIndex.outEdges]
  by_cases hkept : ix.spans (j, sect, atom) = undecoded
  · rw [if_neg fun hne => hne hkept]
    rcases decode_spec h hstored hslot hsect hstorage hatom with
      ⟨ix', edges, hdecode, hix', hslots, hspans, hnames, harena, hstand⟩ | ⟨hdecode, hnone⟩
    · simp only [hdecode]
      have hlength : ix'.arena.length = ix.arena.length + edges.length := by
        rw [harena, List.length_append]
      have hholds : Holds im ix' b sect atom
          (ix.arena.length, ix'.arena.length - ix.arena.length) := by
        refine ⟨by change ix.arena.length + (ix'.arena.length - ix.arena.length) ≤ _; omega, ?_⟩
        have hslice : slice ix'.arena ix.arena.length
            (ix.arena.length + (ix'.arena.length - ix.arena.length)) = edges := by
          have hend : ix.arena.length + (ix'.arena.length - ix.arena.length) =
              ix'.arena.length := by omega
          rw [hend, slice, List.take_length, harena, List.drop_left]
        change Stand ix'.names (slice ix'.arena ix.arena.length
          (ix.arena.length + (ix'.arena.length - ix.arena.length))) _
        rw [hslice]
        exact hstand
      split_ifs with hfits
      · exact Or.inl ⟨_, _, rfl, hix'.keep (hslots ▸ hslot) hholds, hslots, hnames,
          ⟨hholds.inside, hholds.stand⟩⟩
      · refine Or.inr (Or.inl ⟨_, rfl, ?_⟩)
        omega
    · simp only [hdecode]
      exact Or.inr (Or.inr ⟨trivial, hnone⟩)
  · rw [if_pos hkept]
    exact Or.inl ⟨_, _, rfl, h, rfl, List.prefix_rfl, h.spans j b sect atom hslot hkept⟩

end Index

end Torajs.Link.Reach
