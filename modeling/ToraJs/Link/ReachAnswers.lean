import ToraJs.Link.ReachEdges

/-!
# What the edges make live

An edge is answered as the name of its relocation resolves, whether the answer is looked up, kept
for the closure by the id of the name, or kept for the link by the row of the index.
-/

namespace Torajs.Link.Reach

/-! ### Names -/

/-- What a decoded edge makes live. -/
def resolveDecoded (su : Setup) (key : Key) : Decoded → Option Node
  | .loc sect atom => some (localNode key sect atom)
  | .sym row => (su.image.symbolName row).bind (resolveUndef su)
  | .named name => resolveUndef su name

section Names

variable {im : Image} {m : Member} {row : ℕ} {name : String}

/-- A row that is found has the name. -/
lemma symbolName_of_findSymbol (h : im.findSymbol name = some row) :
    im.symbolName row = some name := by
  obtain ⟨hlt, heq, -⟩ := List.findIdx?_eq_some_iff_getElem.mp h
  rw [Image.symbolName, List.getElem?_eq_getElem hlt, Option.map_some, of_decide_eq_true heq]

/-- The row of a name is found. -/
lemma findSymbol_of_symbolName (h : im.symbolName row = some name) :
    im.findSymbol name = some row := by
  obtain ⟨s, hs, rfl⟩ := Option.map_eq_some_iff.mp h
  obtain ⟨hlt, rfl⟩ := List.getElem?_eq_some_iff.mp hs
  refine List.findIdx?_eq_some_iff_getElem.mpr ⟨hlt, decide_eq_true rfl, fun j hj heq => ?_⟩
  have hjlt : j < im.symbols.length := hj.trans hlt
  have hget : ∀ k (hk : k < im.symbols.length),
      (im.symbols.map Prod.fst)[k]? = some (im.symbols[k]).1 := fun k hk => by
    rw [List.getElem?_map, List.getElem?_eq_getElem hk, Option.map_some]
  have hsame : (im.symbols.map Prod.fst)[j]? = (im.symbols.map Prod.fst)[row]? := by
    rw [hget j hjlt, hget row hlt, of_decide_eq_true heq]
  have hinj := (List.nodup_iff_getElem?_ne_getElem?.mp im.nodup) j row hj
    (by rw [List.length_map]; exact hlt)
  exact hinj hsame

/-- An import that the index holds is the row of the name of its own row. -/
lemma findSymbol_of_import {s : ℕ} {entry : NlEntry} (hentry : m.nlist[row]? = some entry)
    (h : (imports im m).find? (fun i => i.1 = row) = some (row, .sym s)) :
    im.findSymbol entry.name = some s := by
  obtain ⟨⟨entry', row'⟩, hmem, himport⟩ := List.mem_filterMap.mp (List.mem_of_find?_eq_some h)
  obtain ⟨-, himport⟩ := Option.ite_none_right_eq_some.mp himport
  obtain ⟨rfl, href⟩ := Prod.mk.inj (Option.some.inj himport)
  obtain rfl := Option.some.inj (hentry.symm.trans (List.mem_zipIdx_iff_getElem?.mp hmem))
  cases hfind : im.findSymbol entry.name with
  | none =>
    rw [hfind] at href
    cases href
  | some s' =>
    rw [hfind] at href
    exact congrArg some (ImportRef.sym.inj href)

/-- What an undefined target decodes to names its name. -/
lemma decoded_undef (im : Image) {entry : NlEntry} (hentry : m.nlist[row]? = some entry) :
    decoded im m (.undef row entry.name) = .named entry.name ∨
      ∃ s, decoded im m (.undef row entry.name) = .sym s ∧ im.symbolName s = some entry.name := by
  rw [decoded]
  cases hfind : (imports im m).find? fun i => i.1 = row with
  | none => exact Or.inl rfl
  | some i =>
    obtain ⟨row', ref⟩ := i
    have hrow : decide (row' = row) = true :=
      List.find?_some (p := fun i : ℕ × ImportRef => decide (i.1 = row)) hfind
    obtain rfl : row' = row := of_decide_eq_true hrow
    cases ref with
    | foreign name => exact Or.inl rfl
    | sym s => exact Or.inr ⟨s, rfl, symbolName_of_findSymbol (findSymbol_of_import hentry hfind)⟩

/-- A relocation points at an undefined row, at what covers an address, or at a section. -/
lemma decodeReloc_cases {sect : ℕ} {e : Reloc} {t : RelocTarget}
    (h : decodeReloc sect e m = some t) :
    (∃ row entry, m.nlist[row]? = some entry ∧ t = .undef row entry.name) ∨
      (∃ s addr, t = .loc s (atomAt m s addr)) ∨ ∃ s, t = .loc s none := by
  rw [decodeReloc] at h
  by_cases hextern : e.isExtern = true
  · rw [if_pos hextern] at h
    cases hentry : m.nlist[e.symbolnum]? with
    | none => rw [hentry] at h; cases h
    | some entry =>
      simp only [hentry] at h
      split_ifs at h with hundef hsect
      · exact Or.inl ⟨_, entry, hentry, (Option.some.inj h).symm⟩
      · exact Or.inr (Or.inl ⟨_, _, (Option.some.inj h).symm⟩)
  · rw [if_neg hextern] at h
    by_cases haddend : e.type = 10
    · rw [if_pos haddend] at h
      cases h
    · rw [if_neg haddend] at h
      have hwhole : some (RelocTarget.loc (e.symbolnum % 2 ^ 8) none) = some t →
          (∃ row entry, m.nlist[row]? = some entry ∧ t = .undef row entry.name) ∨
            (∃ s addr, t = .loc s (atomAt m s addr)) ∨ ∃ s, t = .loc s none := fun h =>
        Or.inr (Or.inr ⟨_, (Option.some.inj h).symm⟩)
      by_cases hunsigned : e.type = 0 ∧ e.length = 3 ∧ e.pcrel = false
      · simp only [if_pos hunsigned] at h
        cases hsa : m.sectOf sect with
        | none =>
          simp only [hsa] at h
          exact hwhole h
        | some sa =>
          simp only [hsa] at h
          split_ifs at h
          · exact Or.inr (Or.inl ⟨_, _, (Option.some.inj h).symm⟩)
          · exact hwhole h
      · simp only [if_neg hunsigned] at h
        exact hwhole h

end Names

section Targets

variable {su : Setup} {key : Key} {sect : ℕ}

/-- **A relocation makes live what its decoded edge does.** -/
lemma resolve_of_decode {e : Reloc} {t : RelocTarget}
    (ht : decodeReloc sect e (su.image.member (su.image.bytesOf key)) = some t) :
    resolveDecoded su key (decoded su.image (su.image.member (su.image.bytesOf key)) t) =
      resolveRelocTarget su key sect e := by
  rw [resolveRelocTarget, ht]
  rcases decodeReloc_cases ht with ⟨row, entry, hentry, rfl⟩ | ⟨s, addr, rfl⟩ | ⟨s, rfl⟩
  · rcases decoded_undef su.image hentry with hnamed | ⟨s, hsym, hname⟩
    · rw [hnamed]
      rfl
    · rw [hsym, resolveDecoded, hname]
      rfl
  · rfl
  · rfl

/-- A row that a node lists is in the index. -/
lemma symbolName_of_lists {im : Image} {m : Member} {atom : Option ℕ} {row : ℕ}
    (h : Lists im m sect atom (.sym row)) : ∃ name, im.symbolName row = some name := by
  obtain ⟨sa, l, lo, hi, -, -, -, e, -, -, t, ht, hd⟩ := h
  rcases decodeReloc_cases ht with ⟨row', entry, hentry, rfl⟩ | ⟨s, addr, rfl⟩ | ⟨s, rfl⟩
  · rcases decoded_undef im hentry with hnamed | ⟨s, hsym, hname⟩
    · rw [hnamed] at hd
      cases hd
    · rw [hsym] at hd
      exact ⟨_, Decoded.sym.inj hd ▸ hname⟩
  · cases hd
  · cases hd

end Targets

/-! ### Where the rows are defined -/

/-- The node of a row, when its owner is walked and defines it. -/
def rowNode (su : Setup) (row : ℕ) : Option Node :=
  su.image.symbols[row]?.bind fun s =>
    if s.2 ∈ su.keys then
      let m := su.image.member (su.image.bytesOf s.2)
      (m.definedAt s.1).map fun d => localNode s.2 d.1 (atomAt m d.1 d.2)
    else none

/-- What is kept of the rows is where they are defined. -/
def SymLocOk (im : Image) (symLoc : List ℕ) : Prop :=
  symLoc = [] ∨ ∀ row name key, im.symbols[row]? = some (name, key) →
    row < symLoc.length ∧ (symLoc.getD row 0 = 0 ∨
      symLoc.getD row 0 = packLoc (im.member (im.bytesOf key)) name)

section Rows

variable {su : Setup} {row : ℕ} {name : String} {key : Key}

lemma nodeForGlobalName_of_row (su : Setup) (h : su.image.symbolName row = some name) :
    nodeForGlobalName su name = rowNode su row := by
  rw [nodeForGlobalName, findSymbol_of_symbolName h, Option.bind_some, rowNode]
  obtain ⟨s, hs, rfl⟩ := Option.map_eq_some_iff.mp h
  rw [hs]
  rfl

/-- An atom that covers an address is one of its section. -/
lemma lt_of_atomAt {m : Member} {sect addr a : ℕ} (h : atomAt m sect addr = some a) :
    ∃ sa, m.sectOf sect = some sa ∧ a < sa.atoms.length := by
  obtain ⟨sa, hsa, hcover⟩ := Option.bind_eq_some_iff.mp h
  refine ⟨sa, hsa, ?_⟩
  rw [coveringAtom] at hcover
  split at hcover
  · cases hcover
  · split at hcover
    · cases hcover
    · rename_i r hr
      obtain ⟨-, hi⟩ := Option.ite_none_right_eq_some.mp hcover
      obtain rfl := Option.some.inj hi
      exact (List.getElem?_eq_some_iff.mp hr).1

/-- An entry of `sym_loc` of a row that its owner defines. -/
def packed (sect atom : ℕ) : ℕ := known ||| definedBit ||| sect <<< 32 ||| atom

lemma packed_defined (sect atom : ℕ) : packed sect atom &&& definedBit ≠ 0 := by
  have hbit : (packed sect atom).testBit 62 = true := by
    have hdefined : definedBit.testBit 62 = true := by decide
    simp only [packed, Nat.testBit_or, hdefined, Bool.or_true, Bool.true_or]
  intro hzero
  have hfalse := congrArg (fun n => n.testBit 62) hzero
  have hdefined : definedBit.testBit 62 = true := by decide
  simp only [Nat.testBit_and, hbit, hdefined, Nat.zero_testBit, Bool.and_self] at hfalse
  cases hfalse

lemma packed_sect {sect atom : ℕ} (hsect : sect < 2 ^ 8) (hatom : atom < 2 ^ 32) :
    packed sect atom >>> 32 % 2 ^ 8 = sect := by
  have hknown : known >>> 32 % 2 ^ 8 = 0 := by decide
  have hdefined : definedBit >>> 32 % 2 ^ 8 = 0 := by decide
  have hzero : atom >>> 32 = 0 := by rw [Nat.shiftRight_eq_div_pow, Nat.div_eq_of_lt hatom]
  rw [packed, Nat.shiftRight_or_distrib, Nat.shiftRight_or_distrib, Nat.shiftRight_or_distrib,
    Nat.or_mod_two_pow, Nat.or_mod_two_pow, Nat.or_mod_two_pow, hknown, hdefined, hzero,
    Nat.shiftLeft_shiftRight, Nat.mod_eq_of_lt hsect, Nat.zero_mod, Nat.or_zero, Nat.zero_or,
    Nat.zero_or]

lemma packed_atom (sect : ℕ) {atom : ℕ} (hatom : atom < 2 ^ 32) :
    packed sect atom % 2 ^ 32 = atom := by
  have hknown : known % 2 ^ 32 = 0 := by decide
  have hdefined : definedBit % 2 ^ 32 = 0 := by decide
  have hshift : sect <<< 32 % 2 ^ 32 = 0 := by
    rw [Nat.shiftLeft_eq]
    exact Nat.mul_mod_left sect (2 ^ 32)
  rw [packed, Nat.or_mod_two_pow, Nat.or_mod_two_pow, Nat.or_mod_two_pow, hknown, hdefined, hshift,
    Nat.mod_eq_of_lt hatom, Nat.or_zero, Nat.or_zero, Nat.zero_or]

/-- An entry is read back. -/
lemma unpackLoc_packLoc (key : Key) (m : Member) (name : String) :
    unpackLoc key (packLoc m name) =
      (m.definedAt name).map fun d => localNode key d.1 (atomAt m d.1 d.2) := by
  rw [packLoc]
  cases hdefined : m.definedAt name with
  | none =>
    have hknown : ¬ known &&& definedBit ≠ 0 := by decide
    exact if_neg hknown
  | some d =>
    obtain ⟨sect, value⟩ := d
    have hsect : sect < 2 ^ 8 := by
      obtain ⟨d, hfind, hd⟩ := Option.map_eq_some_iff.mp hdefined
      have hsmall := m.small d (List.mem_of_find?_eq_some hfind)
      rwa [hd] at hsmall
    have hatom : ((atomAt m sect value).elim 0 fun a => a + 1) < 2 ^ 32 := by
      cases hat : atomAt m sect value with
      | none => exact Nat.two_pow_pos 32
      | some a =>
        obtain ⟨sa, -, ha⟩ := lt_of_atomAt hat
        exact Nat.lt_of_le_of_lt ha sa.few
    change unpackLoc key (packed sect ((atomAt m sect value).elim 0 fun a => a + 1)) = _
    rw [unpackLoc, if_pos (packed_defined _ _), packed_sect hsect hatom, packed_atom _ hatom,
      Option.map_some]
    cases atomAt m sect value with
    | none => rfl
    | some a => rfl

lemma packLoc_ne_zero (m : Member) (name : String) : packLoc m name ≠ 0 := by
  rw [packLoc]
  split
  · decide
  · rename_i sect value _
    intro hzero
    refine packed_defined sect ((atomAt m sect value).elim 0 fun a => a + 1) ?_
    rw [packed, hzero, Nat.zero_and]

/-- **A row is where its owner defines it**, looked up now or kept. -/
lemma symNode_spec (su : Setup) (row : ℕ) {symLoc : List ℕ} (h : SymLocOk su.image symLoc) :
    (symNode su row symLoc).1 = rowNode su row ∧ SymLocOk su.image (symNode su row symLoc).2 := by
  rw [symNode, rowNode]
  cases hrow : su.image.symbols[row]? with
  | none => exact ⟨rfl, h⟩
  | some s =>
    obtain ⟨name, key⟩ := s
    rw [Option.bind_some]
    by_cases hkey : key ∈ su.keys
    · simp only [if_pos hkey]
      have hlt := (List.getElem?_eq_some_iff.mp hrow).1
      -- the list as it is once it is allocated
      obtain ⟨filled, hfilled, hkept⟩ : ∃ filled,
          (if symLoc = [] then List.replicate su.image.symbols.length 0 else symLoc) = filled ∧
          ∀ row name key, su.image.symbols[row]? = some (name, key) →
            row < filled.length ∧ (filled.getD row 0 = 0 ∨
              filled.getD row 0 = packLoc (su.image.member (su.image.bytesOf key)) name) := by
        by_cases hempty : symLoc = []
        · refine ⟨_, if_pos hempty, fun row name key hrow => ?_⟩
          have hlt := (List.getElem?_eq_some_iff.mp hrow).1
          refine ⟨by rwa [List.length_replicate], Or.inl ?_⟩
          rw [List.getD_eq_getElem?_getD, List.getElem?_replicate, if_pos hlt, Option.getD_some]
        · exact ⟨symLoc, if_neg hempty, h.resolve_left hempty⟩
      rw [hfilled]
      have hloc : (if filled.getD row 0 = 0 then
          packLoc (su.image.member (su.image.bytesOf key)) name else filled.getD row 0) =
          packLoc (su.image.member (su.image.bytesOf key)) name := by
        rcases (hkept row name key hrow).2 with hzero | hpacked
        · rw [if_pos hzero]
        · rw [hpacked, if_neg (packLoc_ne_zero _ _)]
      rw [hloc, unpackLoc_packLoc]
      refine ⟨rfl, Or.inr fun row' name' key' hrow' => ?_⟩
      obtain ⟨hlt', hentry⟩ := hkept row' name' key' hrow'
      refine ⟨by rwa [List.length_set], ?_⟩
      by_cases hrows : row = row'
      · subst hrows
        obtain ⟨rfl, rfl⟩ := Prod.mk.inj (Option.some.inj (hrow.symm.trans hrow'))
        right
        rw [List.getD_eq_getElem?_getD, List.getElem?_set_self hlt', Option.getD_some]
      · rwa [List.getD_eq_getElem?_getD, List.getElem?_set_ne hrows,
          ← List.getD_eq_getElem?_getD]
    · simp only [if_neg hkey]
      exact ⟨trivial, h⟩

end Rows

/-! ### Answers -/

/-- What a closure has answered is right. -/
structure AnswersOk (su : Setup) (names : List String) (an : Answers) : Prop where
  memo : ∀ (id : ℕ) (answer : Option Node), an.names[id]? = some (some answer) →
    ∃ name, names[id]? = some name ∧ answer = resolveUndef su name
  users : ∀ row ∈ an.asked, ∀ name, su.image.symbolName row = some name →
    (row ∈ an.userRows ↔ su.user name = true)
  unasked : ∀ row ∈ an.userRows, row ∈ an.asked
  symLoc : SymLocOk su.image an.symLoc

section Answers

variable {su : Setup} {names : List String} {an : Answers} {row id : ℕ} {name : String}

lemma AnswersOk.mono {names' : List String} (h : AnswersOk su names an)
    (hpre : names <+: names') : AnswersOk su names' an := by
  refine ⟨fun id answer hid => ?_, h.users, h.unasked, h.symLoc⟩
  obtain ⟨name, hname, hanswer⟩ := h.memo id answer hid
  exact ⟨name, getElem?_of_prefix hpre hname, hanswer⟩

/-- A name of the index is no dyld import. -/
lemma resolveUndef_of_row (hrow : su.image.symbolName row = some name) :
    resolveUndef su name = if su.user name then none else rowNode su row := by
  have hdyld : name ∉ su.dyldImports := fun hmem => by
    have hnone := su.apart name hmem
    rw [findSymbol_of_symbolName hrow] at hnone
    cases hnone
  rw [resolveUndef, nodeForGlobalName_of_row su hrow]
  simp only [hdyld, decide_false, Bool.or_false]

/-- **A row is answered** as its name is. -/
lemma askRow_spec (h : AnswersOk su names an) (hrow : su.image.symbolName row = some name) :
    (askRow su row an).1 = resolveUndef su name ∧ AnswersOk su names (askRow su row an).2 := by
  obtain ⟨hnode, hsymLoc⟩ := symNode_spec su row h.symLoc
  rw [resolveUndef_of_row hrow, askRow]
  by_cases hasked : row ∈ an.asked
  · have huser := h.users row hasked name hrow
    rw [if_pos hasked]
    by_cases hmem : row ∈ an.userRows
    · rw [if_pos hmem, if_pos (huser.mp hmem)]
      exact ⟨rfl, h⟩
    · rw [if_neg hmem, if_neg fun hu => hmem (huser.mpr hu)]
      exact ⟨hnode, h.memo, h.users, h.unasked, hsymLoc⟩
  · rw [if_neg hasked, hrow, Option.getD_some]
    have hmem : row ∉ an.userRows := fun hmem => hasked (h.unasked row hmem)
    by_cases huser : su.user name = true
    · simp only [if_pos huser]
      refine ⟨trivial, h.memo, fun row' hrow' name' hname' => ?_, fun row' hrow' => ?_, h.symLoc⟩
      · rcases List.mem_cons.mp hrow' with rfl | hold
        · obtain rfl := Option.some.inj (hrow.symm.trans hname')
          exact ⟨fun _ => huser, fun _ => List.mem_cons_self⟩
        · rw [← h.users row' hold name' hname', List.mem_cons]
          exact or_iff_right fun heq => hasked (heq ▸ hold)
      · rcases List.mem_cons.mp hrow' with rfl | hold
        · exact List.mem_cons_self
        · exact List.mem_cons_of_mem _ (h.unasked row' hold)
    · simp only [if_neg huser]
      refine ⟨hnode, h.memo, fun row' hrow' name' hname' => ?_, fun row' hrow' =>
        List.mem_cons_of_mem _ (h.unasked row' hrow'), hsymLoc⟩
      rcases List.mem_cons.mp hrow' with rfl | hold
      · obtain rfl := Option.some.inj (hrow.symm.trans hname')
        exact ⟨fun hin => absurd hin hmem, fun hu => absurd hu huser⟩
      · exact h.users row' hold name' hname'

lemma setAnswer_cases {l : List (Option (Option Node))} {answer x : Option Node} {j : ℕ}
    (h : (setAnswer l id answer)[j]? = some (some x)) :
    j = id ∧ x = answer ∨ l[j]? = some (some x) := by
  have hlength : id < (l ++ List.replicate (id + 1 - l.length) none).length := by
    rw [List.length_append, List.length_replicate]
    omega
  by_cases hj : id = j
  · subst hj
    rw [setAnswer, List.getElem?_set_self hlength] at h
    exact Or.inl ⟨rfl, (Option.some.inj (Option.some.inj h)).symm⟩
  · rw [setAnswer, List.getElem?_set_ne hj] at h
    by_cases hlt : j < l.length
    · rw [List.getElem?_append_left hlt] at h
      exact Or.inr h
    · rw [List.getElem?_append_right (Nat.not_lt.mp hlt), List.getElem?_replicate] at h
      obtain ⟨-, h⟩ := Option.ite_none_right_eq_some.mp h
      cases h

lemma freshName_spec (h : AnswersOk su names an) (name : String) :
    (freshName su name an).1 = resolveUndef su name ∧
      AnswersOk su names (freshName su name an).2 := by
  have hrefs : AnswersOk su names
      (if su.user name then { an with userRefs := name :: an.userRefs } else an) := by
    split
    · exact ⟨h.memo, h.users, h.unasked, h.symLoc⟩
    · exact h
  rw [freshName, resolveUndef]
  by_cases hnone : (su.user name || decide (name ∈ su.dyldImports)) = true
  · simp only [if_pos hnone]
    exact ⟨trivial, hrefs⟩
  · simp only [if_neg hnone]
    rw [nodeForGlobalName]
    cases hfind : su.image.findSymbol name with
    | none => exact ⟨rfl, hrefs.memo, hrefs.users, hrefs.unasked, hrefs.symLoc⟩
    | some row =>
      obtain ⟨hnode, hsymLoc⟩ := symNode_spec su row hrefs.symLoc
      refine ⟨?_, hrefs.memo, hrefs.users, hrefs.unasked, hsymLoc⟩
      have hglobal := nodeForGlobalName_of_row su (symbolName_of_findSymbol hfind)
      rw [nodeForGlobalName, hfind] at hglobal
      exact hnode.trans hglobal.symm

/-- **A name is answered**, once in a closure. -/
lemma askName_spec (h : AnswersOk su names an) (hname : names[id]? = some name) :
    (askName su id name an).1 = resolveUndef su name ∧
      AnswersOk su names (askName su id name an).2 := by
  have hfresh : (freshName su name an).1 = resolveUndef su name ∧
      AnswersOk su names { (freshName su name an).2 with
        names := setAnswer (freshName su name an).2.names id (freshName su name an).1 } := by
    obtain ⟨hanswer, hok⟩ := freshName_spec h name
    refine ⟨hanswer, fun j x hj => ?_, hok.users, hok.unasked, hok.symLoc⟩
    rcases setAnswer_cases hj with ⟨rfl, rfl⟩ | hold
    · exact ⟨name, hname, hanswer⟩
    · exact hok.memo j x hold
  rw [askName.eq_def]
  cases hmemo : an.names[id]? with
  | none => exact hfresh
  | some kept =>
    cases kept with
    | none => exact hfresh
    | some answer =>
      obtain ⟨name', hname', rfl⟩ := h.memo id answer hmemo
      obtain rfl := Option.some.inj (hname.symm.trans hname')
      exact ⟨rfl, h⟩

/-- **An edge is answered** as what it stands for. -/
lemma askEdge_spec (h : AnswersOk su names an) (key : Key) {m : Member} {sect : ℕ}
    {atom : Option ℕ} {e : Edge} {d : Decoded} (hreads : e.reads names = some d)
    (hlists : Lists su.image m sect atom d) :
    (askEdge su key names e an).1 = resolveDecoded su key d ∧
      AnswersOk su names (askEdge su key names e an).2 := by
  cases e with
  | loc sect atom =>
    obtain rfl := Option.some.inj hreads
    exact ⟨rfl, h⟩
  | sym row =>
    obtain rfl := Option.some.inj hreads
    obtain ⟨name, hname⟩ := symbolName_of_lists hlists
    rw [resolveDecoded, hname, Option.bind_some]
    exact askRow_spec h hname
  | name id =>
    obtain ⟨name, hname, rfl⟩ := Option.map_eq_some_iff.mp hreads
    have hget : names.getD id "" = name := by
      rw [List.getD_eq_getElem?_getD, hname, Option.getD_some]
    rw [askEdge, hget]
    exact askName_spec h hname

/-- The edges of a node are followed: what they make live is put on the list. -/
lemma follow_spec (key : Key) {m : Member} {sect : ℕ} {atom : Option ℕ} {edges : List Edge}
    (h : AnswersOk su names an)
    (hedges : ∀ e ∈ edges, ∃ d, e.reads names = some d ∧ Lists su.image m sect atom d)
    (worklist : List Node) :
    AnswersOk su names (follow su key names edges an worklist).1 ∧
      ∀ n, n ∈ (follow su key names edges an worklist).2 ↔ n ∈ worklist ∨
        ∃ e ∈ edges, ∃ d, e.reads names = some d ∧ resolveDecoded su key d = some n := by
  induction edges generalizing an worklist with
  | nil =>
    refine ⟨h, fun n => ⟨Or.inl, fun hn => hn.resolve_right ?_⟩⟩
    rintro ⟨e, he, -⟩
    cases he
  | cons e edges ih =>
    obtain ⟨d, hreads, hlists⟩ := hedges e List.mem_cons_self
    obtain ⟨hnext, hok⟩ := askEdge_spec h key hreads hlists
    obtain ⟨hok', hmem⟩ := ih hok (fun e he => hedges e (List.mem_cons_of_mem _ he))
      ((resolveDecoded su key d).elim worklist fun n => n :: worklist)
    rw [follow]
    simp only [hnext]
    have hpush : ∀ n, n ∈ (resolveDecoded su key d).elim worklist (fun n => n :: worklist) ↔
        n ∈ worklist ∨ resolveDecoded su key d = some n := by
      intro n
      cases resolveDecoded su key d with
      | none => exact ⟨Or.inl, fun hn => hn.resolve_right nofun⟩
      | some x =>
        rw [Option.elim_some, List.mem_cons, or_comm, Option.some_inj, eq_comm]
    refine ⟨hok', fun n => (hmem n).trans ?_⟩
    rw [hpush n, or_assoc]
    refine or_congr_right ⟨?_, ?_⟩
    · rintro (hn | ⟨e', he', hd'⟩)
      · exact ⟨e, List.mem_cons_self, d, hreads, hn⟩
      · exact ⟨e', List.mem_cons_of_mem _ he', hd'⟩
    · rintro ⟨e', he', d', hreads', hn⟩
      rcases List.mem_cons.mp he' with rfl | he'
      · obtain rfl := Option.some.inj (hreads.symm.trans hreads')
        exact Or.inl hn
      · exact Or.inr ⟨e', he', d', hreads', hn⟩

end Answers

end Torajs.Link.Reach
