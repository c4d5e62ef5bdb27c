import ToraJs.Lib.Worklist
import ToraJs.Link.ReachAnswers

/-!
# The closure is exact

A closure marks the least set that contains the roots and is closed under the relocations, whatever
closures of the link came before it.
-/

namespace Torajs.Link.Reach

/-! ### What is asked for -/

/-- What is live: the roots; the atoms of a section that is reached as a whole; and what a
relocation makes live that lies in a live atom, or anywhere in a section that is reached as a
whole. -/
inductive Live (su : Setup) (roots : Node → Prop) : Node → Prop
  | root {n : Node} (h : roots n) : Live su roots n
  | within {key : Key} {sect a : ℕ} {sa : Sect} (h : Live su roots (.allSect key sect))
      (hsect : (su.image.member (su.image.bytesOf key)).sectOf sect = some sa)
      (ha : a < sa.atoms.length) : Live su roots (.atom key sect a)
  | inAtom {key : Key} {sect a : ℕ} {sa : Sect} {l : List Reloc} {e : Reloc} {r : ℕ × ℕ} {n : Node}
      (h : Live su roots (.atom key sect a))
      (hsect : (su.image.member (su.image.bytesOf key)).sectOf sect = some sa)
      (hrelocs : sa.relocs = some l) (he : e ∈ l) (ha : sa.atoms[a]? = some r)
      (hlo : r.1 ≤ sa.addr + e.address) (hhi : sa.addr + e.address < r.2)
      (htarget : resolveRelocTarget su key sect e = some n) : Live su roots n
  | inSect {key : Key} {sect : ℕ} {sa : Sect} {l : List Reloc} {e : Reloc} {n : Node}
      (h : Live su roots (.allSect key sect))
      (hsect : (su.image.member (su.image.bytesOf key)).sectOf sect = some sa)
      (hrelocs : sa.relocs = some l) (he : e ∈ l)
      (htarget : resolveRelocTarget su key sect e = some n) : Live su roots n

/-- A node of a member that is walked; an atom is one of its section. -/
def Valid (su : Setup) (n : Node) : Prop :=
  n.key ∈ su.keys ∧ ∀ a, n.atom? = some a →
    ∃ sa, (su.image.member (su.image.bytesOf n.key)).sectOf n.sect = some sa ∧ a < sa.atoms.length

/-- The caches that closures of a link leave, and the lookups of their roots. -/
inductive Used (decodeAll : Bool) (im : Image) : ReachCache → Prop
  | init : Used decodeAll im .init
  | root {cache : ReachCache} (su : Setup) (row : ℕ) (him : su.image = im)
      (h : Used decodeAll im cache) :
      Used decodeAll im { cache with symLoc := (symNode su row cache.symLoc).2 }
  | close {cache : ReachCache} {su : Setup} {roots : List Node} {fuel : ℕ} {w : Walker}
      (him : su.image = im) (hroots : ∀ n ∈ roots, Valid su n) (h : Used decodeAll im cache)
      (hclose : closeFor su fuel (Walker.new decodeAll su cache roots) = some (.ok w)) :
      Used decodeAll im w.cache

/-- The marks are exact. -/
def Exact (su : Setup) (roots : List Node) (w : Walker) : Prop :=
  ∀ (i : ℕ) (key : Key) (s : ℕ) (sa : Sect), su.keys[i]? = some key →
    (su.image.member (su.image.bytesOf key)).sects[s]? = some sa →
    ∃ marks : Marks, (w.marks[i]?.bind fun ms => ms[s]?) = some marks ∧
      marks.live.length = sa.atoms.length ∧
      (marks.allLive = true ↔ Live su (· ∈ roots) (.allSect key (s + 1))) ∧
      ∀ a < sa.atoms.length,
        marks.live[a]? = some true ↔ Live su (· ∈ roots) (.atom key (s + 1) a)

/-! ### Bits -/

section Bits

lemma sum_take_le (l : List ℕ) (s : ℕ) : (l.take s).sum ≤ l.sum := by
  conv_rhs => rw [← List.take_append_drop s l, List.sum_append]
  exact Nat.le_add_right _ _

/-- The elements before one position fit before a later one, with the element itself. -/
lemma sum_take_add_le {l : List ℕ} {s s' c : ℕ} (h : l[s]? = some c) (hlt : s < s') :
    (l.take s).sum + c ≤ (l.take s').sum := by
  have hsucc : (l.take (s + 1)).sum = (l.take s).sum + c := by
    rw [List.take_add_one, h, Option.toList_some, List.sum_append, List.sum_singleton]
  have hle := sum_take_le (l.take s') (s + 1)
  rwa [List.take_take, Nat.min_eq_left hlt, hsucc] at hle

lemma bases_getElem? (counts : List ℕ) (n s : ℕ) :
    (bases n counts)[s]? = counts[s]?.map fun _ => n + (counts.take s).sum := by
  induction counts generalizing n s with
  | nil => rfl
  | cons c counts ih =>
    cases s with
    | zero => rfl
    | succ s =>
      rw [bases, List.getElem?_cons_succ, List.getElem?_cons_succ, ih, List.take_succ_cons,
        List.sum_cons, Nat.add_assoc]

lemma allBases_getElem? (counts : List (List ℕ)) (n i : ℕ) :
    (allBases n counts)[i]? =
      counts[i]?.map fun cs => bases (n + ((counts.map List.sum).take i).sum) cs := by
  induction counts generalizing n i with
  | nil => rfl
  | cons cs counts ih =>
    cases i with
    | zero => rfl
    | succ i =>
      rw [allBases, List.getElem?_cons_succ, List.getElem?_cons_succ, ih, List.map_cons,
        List.take_succ_cons, List.sum_cons, Nat.add_assoc]

/-- Where the bits of a section start. -/
def startOf (counts : List (List ℕ)) (i s : ℕ) : ℕ :=
  ((counts.map List.sum).take i).sum + ((counts.getD i []).take s).sum

/-- The number of the atoms of a section. -/
def countOf (counts : List (List ℕ)) (i s : ℕ) : Option ℕ := counts[i]?.bind fun cs => cs[s]?

variable {counts : List (List ℕ)} {i i' s s' c c' a a' : ℕ}

lemma base_eq : ((allBases 0 counts)[i]?.bind fun b => b[s]?) =
    (countOf counts i s).map fun _ => startOf counts i s := by
  rw [allBases_getElem?, countOf, startOf]
  cases hi : counts[i]? with
  | none => rfl
  | some cs =>
    rw [Option.map_some, Option.bind_some, Option.bind_some, bases_getElem?, Nat.zero_add,
      List.getD_eq_getElem?_getD, hi, Option.getD_some]

/-- The bits of a section lie behind those of the sections before it. -/
lemma startOf_spec (h : countOf counts i s = some c) :
    ∃ cs, counts[i]? = some cs ∧ cs[s]? = some c ∧
      startOf counts i s = ((counts.map List.sum).take i).sum + (cs.take s).sum := by
  obtain ⟨cs, hi, hs⟩ := Option.bind_eq_some_iff.mp h
  exact ⟨cs, hi, hs, by rw [startOf, List.getD_eq_getElem?_getD, hi, Option.getD_some]⟩

lemma startOf_add_le (h : countOf counts i s = some c) :
    startOf counts i s + c ≤ (counts.map List.sum).sum := by
  obtain ⟨cs, hi, hs, hstart⟩ := startOf_spec h
  have hin := sum_take_add_le hs (Nat.lt_add_one s)
  have hle := sum_take_le cs (s + 1)
  have hsum : (counts.map List.sum)[i]? = some cs.sum := by
    rw [List.getElem?_map, hi, Option.map_some]
  have hout := sum_take_add_le hsum (Nat.lt_add_one i)
  have hall := sum_take_le (counts.map List.sum) (i + 1)
  omega

/-- The bits of a section lie before those of a section behind it. -/
lemma startOf_add_le_of_lt (h : countOf counts i s = some c) (h' : countOf counts i' s' = some c')
    (hlt : i < i' ∨ i = i' ∧ s < s') : startOf counts i s + c ≤ startOf counts i' s' := by
  obtain ⟨cs, hi, hs, hstart⟩ := startOf_spec h
  obtain ⟨cs', hi', hs', hstart'⟩ := startOf_spec h'
  rcases hlt with hlt | ⟨rfl, hlt⟩
  · have hin := sum_take_add_le hs (Nat.lt_add_one s)
    have hle := sum_take_le cs (s + 1)
    have hsum : (counts.map List.sum)[i]? = some cs.sum := by
      rw [List.getElem?_map, hi, Option.map_some]
    have hout := sum_take_add_le hsum hlt
    omega
  · obtain rfl := Option.some.inj (hi.symm.trans hi')
    have hin := sum_take_add_le hs hlt
    omega

/-- **No two atoms share a bit.** -/
lemma bit_injective (h : countOf counts i s = some c) (h' : countOf counts i' s' = some c')
    (ha : a < c) (ha' : a' < c') (heq : startOf counts i s + a = startOf counts i' s' + a') :
    i = i' ∧ s = s' ∧ a = a' := by
  have hfar := fun hlt => startOf_add_le_of_lt h h' hlt
  have hnear := fun hlt => startOf_add_le_of_lt h' h hlt
  have hi : i = i' := by
    rcases Nat.lt_trichotomy i i' with hlt | heq' | hgt
    · have := hfar (Or.inl hlt)
      omega
    · exact heq'
    · have := hnear (Or.inl hgt)
      omega
  subst hi
  have hs : s = s' := by
    rcases Nat.lt_trichotomy s s' with hlt | heq' | hgt
    · have := hfar (Or.inr ⟨rfl, hlt⟩)
      omega
    · exact heq'
    · have := hnear (Or.inr ⟨rfl, hgt⟩)
      omega
  subst hs
  exact ⟨rfl, rfl, by omega⟩

end Bits

/-! ### Nodes that were visited -/

/-- The number of the atoms of each section that is walked. -/
def countsOf (su : Setup) : List (List ℕ) :=
  su.keys.map fun key =>
    (su.image.member (su.image.bytesOf key)).sects.map fun sa => sa.atoms.length

/-- The bits that are not set. -/
def Seen.unset (seen : Seen) : ℕ :=
  seen.atoms.count false + (seen.whole.map (List.count false)).sum

/-- The bits are those of the nodes that were visited. -/
structure SeenOk (su : Setup) (seen : Seen) (visited : Node → Prop) : Prop where
  base : seen.base = allBases 0 (countsOf su)
  length : seen.atoms.length = ((countsOf su).map List.sum).sum
  atoms : ∀ (i : ℕ) (key : Key) (s c a : ℕ), su.keys[i]? = some key →
    countOf (countsOf su) i s = some c → a < c →
    (seen.atoms[startOf (countsOf su) i s + a]? = some true ↔ visited (.atom key (s + 1) a))
  whole : ∀ (i : ℕ) (key : Key) (s c : ℕ), su.keys[i]? = some key →
    countOf (countsOf su) i s = some c →
    ∃ bit, (seen.whole[i]?.bind fun b => b[s]?) = some bit ∧
      (bit = true ↔ visited (.allSect key (s + 1)))
  shape : ∀ i s, countOf (countsOf su) i s = none → (seen.whole[i]?.bind fun b => b[s]?) = none

section Lists

variable {α : Type} {l : List α} {i : ℕ} {x y : α}

lemma modify_eq_set {f : α → α} (h : l[i]? = some x) : l.modify i f = l.set i (f x) := by
  refine List.ext_getElem? fun j => ?_
  rw [List.getElem?_modify, List.getElem?_set]
  have hlt := (List.getElem?_eq_some_iff.mp h).1
  by_cases hij : i = j
  · subst hij
    obtain ⟨-, rfl⟩ := List.getElem?_eq_some_iff.mp h
    simp [hlt]
  · simp [hij]

/-- One entry of a table is replaced. -/
lemma getElem?_modify_set {ll : List (List α)} {i s : ℕ}
    (h : (ll[i]?.bind fun l => l[s]?) = some x) (y : α) (i' s' : ℕ) :
    ((ll.modify i fun l => l.set s y)[i']?.bind fun l => l[s']?) =
      if i' = i ∧ s' = s then some y else ll[i']?.bind fun l => l[s']? := by
  obtain ⟨l, hi, hs⟩ := Option.bind_eq_some_iff.mp h
  rw [modify_eq_set hi]
  by_cases hii : i' = i
  · subst hii
    rw [List.getElem?_set_self (List.getElem?_eq_some_iff.mp hi).1, Option.bind_some]
    by_cases hss : s' = s
    · subst hss
      rw [if_pos ⟨rfl, rfl⟩, List.getElem?_set_self (List.getElem?_eq_some_iff.mp hs).1]
    · rw [if_neg fun h => hss h.2, List.getElem?_set_ne (Ne.symm hss), hi, Option.bind_some]
  · rw [if_neg fun h => hii h.1, List.getElem?_set_ne (Ne.symm hii)]

lemma count_set_true {l : List Bool} (h : l[i]? = some false) :
    (l.set i true).count false + 1 = l.count false := by
  induction l generalizing i with
  | nil => cases h
  | cons b l ih =>
    cases i with
    | zero =>
      obtain rfl := Option.some.inj h
      rw [List.set_cons_zero, List.count_cons_of_ne (by decide), List.count_cons_self]
    | succ i =>
      have hrest := ih h
      rw [List.set_cons_succ, List.count_cons, List.count_cons]
      omega

lemma sum_map_set {g : α → ℕ} (h : l[i]? = some x) :
    ((l.set i y).map g).sum + g x = (l.map g).sum + g y := by
  induction l generalizing i with
  | nil => cases h
  | cons a l ih =>
    cases i with
    | zero =>
      obtain rfl := Option.some.inj h
      rw [List.set_cons_zero, List.map_cons, List.map_cons, List.sum_cons, List.sum_cons]
      omega
    | succ i =>
      have hrest := ih h
      rw [List.set_cons_succ, List.map_cons, List.map_cons, List.sum_cons, List.sum_cons]
      omega

end Lists

section Visited

variable {su : Setup} {seen : Seen} {visited : Node → Prop} {i : ℕ} {key : Key} {s c a : ℕ}

lemma countOf_countsOf (hkey : su.keys[i]? = some key) (s : ℕ) :
    countOf (countsOf su) i s =
      (su.image.member (su.image.bytesOf key)).sects[s]?.map fun sa => sa.atoms.length := by
  rw [countOf, countsOf, List.getElem?_map, hkey, Option.map_some, Option.bind_some,
    List.getElem?_map]

/-- A key is walked at one position. -/
lemma key_injective {i' : ℕ} (h : su.keys[i]? = some key) (h' : su.keys[i']? = some key) :
    i = i' :=
  (List.getElem?_inj (List.getElem?_eq_some_iff.mp h).1 su.nodup).mp (h.trans h'.symm)

/-- A new closure has visited nothing. -/
lemma seenOk_new (su : Setup) : SeenOk su (Seen.new (countsOf su)) fun _ => False := by
  refine ⟨rfl, List.length_replicate, fun i key s c a _ _ _ => ?_, fun i key s c _ hc => ?_,
    fun i s hc => ?_⟩
  · refine iff_of_false (fun htrue => ?_) id
    rw [Seen.new, List.getElem?_replicate] at htrue
    obtain ⟨-, hfalse⟩ := Option.ite_none_right_eq_some.mp htrue
    cases hfalse
  · obtain ⟨cs, hi, hs⟩ := Option.bind_eq_some_iff.mp hc
    refine ⟨false, ?_, iff_of_false Bool.false_ne_true id⟩
    rw [Seen.new, List.getElem?_map, hi, Option.map_some, Option.bind_some,
      List.getElem?_replicate, if_pos (List.getElem?_eq_some_iff.mp hs).1]
  · rw [Seen.new, List.getElem?_map]
    cases hi : (countsOf su)[i]? with
    | none => rfl
    | some cs =>
      rw [countOf, hi, Option.bind_some] at hc
      rw [Option.map_some, Option.bind_some, List.getElem?_replicate,
        if_neg (Nat.not_lt.mpr (List.getElem?_eq_none_iff.mp hc))]

/-- **An atom is new once.** -/
lemma insert_atom (h : SeenOk su seen visited) (hkey : su.keys[i]? = some key)
    (hc : countOf (countsOf su) i s = some c) (ha : a < c) :
    (visited (.atom key (s + 1) a) ∧
      seen.insert i (.atom key (s + 1) a) = .ok (false, seen)) ∨
    (¬ visited (.atom key (s + 1) a) ∧ ∃ seen',
      seen.insert i (.atom key (s + 1) a) = .ok (true, seen') ∧ seen'.unset < seen.unset ∧
      SeenOk su seen' fun n => visited n ∨ n = .atom key (s + 1) a) := by
  have hbase : (seen.base[i]?.bind fun b => b[s]?) = some (startOf (countsOf su) i s) := by
    rw [h.base, base_eq, hc, Option.map_some]
  have hlt : startOf (countsOf su) i s + a < seen.atoms.length := by
    have hle := startOf_add_le hc
    rw [h.length]
    omega
  have hbit := h.atoms i key s c a hkey hc ha
  cases hget : seen.atoms[startOf (countsOf su) i s + a]? with
  | none => exact absurd hlt (Nat.not_lt.mpr (List.getElem?_eq_none_iff.mp hget))
  | some bit =>
    rw [Seen.insert, hbase]
    simp only [hget]
    cases bit with
    | true =>
      left
      rw [set_of_getElem? hget]
      exact ⟨hbit.mp hget, rfl⟩
    | false =>
      right
      refine ⟨fun hv => ?_, _, rfl, ?_, h.base, ?_, ?_, ?_, h.shape⟩
      · rw [hbit.mpr hv] at hget
        cases hget
      · have hcount := count_set_true hget
        have hless : (seen.atoms.set (startOf (countsOf su) i s + a) true).count false <
            seen.atoms.count false := by omega
        exact Nat.add_lt_add_right hless _
      · rw [List.length_set]
        exact h.length
      · intro i' key' s' c' a' hkey' hc' ha'
        by_cases hsame : startOf (countsOf su) i s + a = startOf (countsOf su) i' s' + a'
        · obtain ⟨rfl, rfl, rfl⟩ := bit_injective hc hc' ha ha' hsame
          obtain rfl := Option.some.inj (hkey.symm.trans hkey')
          rw [List.getElem?_set_self hlt]
          exact iff_of_true rfl (Or.inr rfl)
        · rw [List.getElem?_set_ne hsame, h.atoms i' key' s' c' a' hkey' hc' ha']
          refine (or_iff_left fun heq => hsame ?_).symm
          obtain ⟨rfl, hs, rfl⟩ := Node.atom.inj heq
          obtain rfl := key_injective hkey hkey'
          obtain rfl : s' = s := by omega
          rfl
      · intro i' key' s' c' hkey' hc'
        obtain ⟨bit, hget', hbit'⟩ := h.whole i' key' s' c' hkey' hc'
        exact ⟨bit, hget', hbit'.trans (or_iff_left nofun).symm⟩

/-- **A section is new once.** -/
lemma insert_whole (h : SeenOk su seen visited) (hkey : su.keys[i]? = some key)
    (hc : countOf (countsOf su) i s = some c) :
    (visited (.allSect key (s + 1)) ∧
      seen.insert i (.allSect key (s + 1)) = .ok (false, seen)) ∨
    (¬ visited (.allSect key (s + 1)) ∧ ∃ seen',
      seen.insert i (.allSect key (s + 1)) = .ok (true, seen') ∧ seen'.unset < seen.unset ∧
      SeenOk su seen' fun n => visited n ∨ n = .allSect key (s + 1)) := by
  obtain ⟨bit, hbit, hvisited⟩ := h.whole i key s c hkey hc
  obtain ⟨bits, hi, hs⟩ := Option.bind_eq_some_iff.mp hbit
  rw [Seen.insert, hbit]
  cases bit with
  | true =>
    left
    have hsame : seen.whole.modify i (fun bits => bits.set s true) = seen.whole := by
      rw [modify_eq_set hi, set_of_getElem? hs, set_of_getElem? hi]
    simp only [hsame]
    exact ⟨hvisited.mp rfl, rfl⟩
  | false =>
    right
    have hget := getElem?_modify_set hbit true
    refine ⟨fun hv => Bool.false_ne_true (hvisited.mpr hv), _, rfl, ?_, h.base, h.length,
      ?_, ?_, ?_⟩
    · have hcount := count_set_true hs
      have hsum := sum_map_set (g := List.count false) (y := bits.set s true) hi
      have hless : ((seen.whole.modify i fun bits => bits.set s true).map (List.count false)).sum <
          (seen.whole.map (List.count false)).sum := by
        rw [modify_eq_set hi]
        omega
      exact Nat.add_lt_add_left hless _
    · intro i' key' s' c' a' hkey' hc' ha'
      exact (h.atoms i' key' s' c' a' hkey' hc' ha').trans (or_iff_left nofun).symm
    · intro i' key' s' c' hkey' hc'
      rw [hget]
      by_cases hsame : i' = i ∧ s' = s
      · obtain ⟨rfl, rfl⟩ := hsame
        obtain rfl := Option.some.inj (hkey.symm.trans hkey')
        exact ⟨true, if_pos ⟨rfl, rfl⟩, iff_of_true rfl (Or.inr rfl)⟩
      · obtain ⟨bit, hget', hbit'⟩ := h.whole i' key' s' c' hkey' hc'
        refine ⟨bit, (if_neg hsame).trans hget', hbit'.trans (or_iff_left fun heq => hsame ?_).symm⟩
        obtain ⟨rfl, hs'⟩ := Node.allSect.inj heq
        exact ⟨key_injective hkey' hkey, by omega⟩
    · intro i' s' hc'
      rw [hget, if_neg]
      · exact h.shape i' s' hc'
      · rintro ⟨rfl, rfl⟩
        rw [hc] at hc'
        cases hc'

/-- A node that has no bit is not recorded. -/
lemma SeenOk.outside (h : SeenOk su seen visited) {n : Node}
    (hn : ∀ (i : ℕ) (s c : ℕ), su.keys[i]? = some n.key → countOf (countsOf su) i s = some c →
      n.sect ≠ s + 1) :
    SeenOk su seen fun m => visited m ∨ m = n := by
  refine ⟨h.base, h.length, fun i key s c a hkey hc ha => ?_, fun i key s c hkey hc => ?_, h.shape⟩
  · refine (h.atoms i key s c a hkey hc ha).trans (or_iff_left fun heq => ?_).symm
    subst heq
    exact hn i s c hkey hc rfl
  · obtain ⟨bit, hget, hbit⟩ := h.whole i key s c hkey hc
    refine ⟨bit, hget, hbit.trans (or_iff_left fun heq => ?_).symm⟩
    subst heq
    exact hn i s c hkey hc rfl

end Visited

/-! ### Marks -/

/-- The marks are those of the nodes that were visited. -/
def MarksOk (su : Setup) (marks : List (List Marks)) (visited : Node → Prop) : Prop :=
  ∀ (i : ℕ) (key : Key) (s : ℕ) (sa : Sect), su.keys[i]? = some key →
    (su.image.member (su.image.bytesOf key)).sects[s]? = some sa →
    ∃ mk : Marks, (marks[i]?.bind fun ms => ms[s]?) = some mk ∧
      mk.live.length = sa.atoms.length ∧
      (mk.allLive = true ↔ visited (.allSect key (s + 1))) ∧
      ∀ a < sa.atoms.length, mk.live[a]? = some true ↔
        visited (.atom key (s + 1) a) ∨ visited (.allSect key (s + 1))

section Marking

variable {su : Setup} {marks : List (List Marks)} {visited : Node → Prop} {i s : ℕ} {key : Key}
  {sa : Sect}

@[simp] lemma key_localNode (sect : ℕ) (atom : Option ℕ) : (localNode key sect atom).key = key := by
  cases atom <;> rfl

@[simp] lemma sect_localNode (sect : ℕ) (atom : Option ℕ) :
    (localNode key sect atom).sect = sect := by
  cases atom <;> rfl

@[simp] lemma atom_localNode (sect : ℕ) (atom : Option ℕ) :
    (localNode key sect atom).atom? = atom := by
  cases atom <;> rfl

lemma localNode_self (n : Node) : localNode n.key n.sect n.atom? = n := by
  cases n <;> rfl

/-- The marks of one section. -/
lemma mark_spec {mk : Marks} {atom : Option ℕ} (hlength : mk.live.length = sa.atoms.length)
    (hall : mk.allLive = true ↔ visited (.allSect key (s + 1)))
    (hlive : ∀ a < sa.atoms.length, mk.live[a]? = some true ↔
      visited (.atom key (s + 1) a) ∨ visited (.allSect key (s + 1)))
    (hatom : ∀ a, atom = some a → a < sa.atoms.length) :
    ∃ mk', mk.mark atom = some mk' ∧ mk'.live.length = sa.atoms.length ∧
      (mk'.allLive = true ↔
        visited (.allSect key (s + 1)) ∨ .allSect key (s + 1) = localNode key (s + 1) atom) ∧
      ∀ a < sa.atoms.length, mk'.live[a]? = some true ↔
        (visited (.atom key (s + 1) a) ∨ .atom key (s + 1) a = localNode key (s + 1) atom) ∨
          visited (.allSect key (s + 1)) ∨ .allSect key (s + 1) = localNode key (s + 1) atom := by
  cases atom with
  | some a₀ =>
    have ha₀ : a₀ < mk.live.length := hlength ▸ hatom a₀ rfl
    have hne : Node.allSect key (s + 1) ≠ localNode key (s + 1) (some a₀) := nofun
    refine ⟨_, if_pos ha₀, by rw [List.length_set, hlength], hall.trans (or_iff_left hne).symm,
      fun a ha => Iff.trans ?_ (or_congr_right (or_iff_left hne).symm)⟩
    change (mk.live.set a₀ true)[a]? = some true ↔ _
    by_cases heq : a₀ = a
    · subst heq
      rw [List.getElem?_set_self ha₀]
      exact iff_of_true rfl (Or.inl (Or.inr rfl))
    · rw [List.getElem?_set_ne heq, hlive a ha]
      refine or_congr_left (or_iff_left fun h => heq ?_).symm
      exact (Node.atom.inj h).2.2.symm
  | none =>
    refine ⟨_, rfl, by rw [List.length_map, hlength], iff_of_true rfl (Or.inr rfl), fun a ha => ?_⟩
    have hget : (mk.live.map fun _ => true)[a]? = some true := by
      rw [List.getElem?_map, List.getElem?_eq_getElem (hlength ▸ ha), Option.map_some]
    exact iff_of_true hget (Or.inr (Or.inr rfl))

/-- **A node is marked.** -/
lemma marksOk_mark (h : MarksOk su marks visited) (hkey : su.keys[i]? = some key)
    (hsa : (su.image.member (su.image.bytesOf key)).sects[s]? = some sa) {atom : Option ℕ}
    (hatom : ∀ a, atom = some a → a < sa.atoms.length) :
    ∃ mk mk', (marks[i]?.bind fun ms => ms[s]?) = some mk ∧ mk.mark atom = some mk' ∧
      MarksOk su (marks.modify i fun ms => ms.set s mk') fun m =>
        visited m ∨ m = localNode key (s + 1) atom := by
  obtain ⟨mk, hget, hlength, hall, hlive⟩ := h i key s sa hkey hsa
  obtain ⟨mk', hmark, hlength', hall', hlive'⟩ := mark_spec hlength hall hlive hatom
  refine ⟨mk, mk', hget, hmark, fun i' key' s' sa' hkey' hsa' => ?_⟩
  rw [getElem?_modify_set hget mk' i' s']
  by_cases hsame : i' = i ∧ s' = s
  · obtain ⟨rfl, rfl⟩ := hsame
    obtain rfl := Option.some.inj (hkey.symm.trans hkey')
    obtain rfl := Option.some.inj (hsa.symm.trans hsa')
    exact ⟨mk', if_pos ⟨rfl, rfl⟩, hlength', hall', hlive'⟩
  · obtain ⟨old, hold, hlengthOld, hallOld, hliveOld⟩ := h i' key' s' sa' hkey' hsa'
    have hother : ∀ m : Node, m.key = key' → m.sect = s' + 1 →
        m ≠ localNode key (s + 1) atom := fun m hk hs heq => by
      rw [heq, key_localNode] at hk
      rw [heq, sect_localNode] at hs
      subst hk
      exact hsame ⟨key_injective hkey' hkey, by omega⟩
    refine ⟨old, (if_neg hsame).trans hold, hlengthOld, ?_, fun a ha => ?_⟩
    · exact hallOld.trans (or_iff_left (hother _ rfl rfl)).symm
    · exact (hliveOld a ha).trans (or_congr (or_iff_left (hother _ rfl rfl)).symm
        (or_iff_left (hother _ rfl rfl)).symm)

/-- A node outside the sections is not marked. -/
lemma MarksOk.outside (h : MarksOk su marks visited) {n : Node}
    (hn : (su.image.member (su.image.bytesOf n.key)).sectOf n.sect = none) :
    MarksOk su marks fun m => visited m ∨ m = n := by
  intro i key s sa hkey hsa
  obtain ⟨mk, hget, hlength, hall, hlive⟩ := h i key s sa hkey hsa
  have hother : ∀ m : Node, m.key = key → m.sect = s + 1 → m ≠ n := fun m hk hs heq => by
    subst heq
    rw [hk, hs, Member.sectOf, if_neg s.succ_ne_zero, Nat.add_sub_cancel, hsa] at hn
    cases hn
  refine ⟨mk, hget, hlength, hall.trans (or_iff_left (hother _ rfl rfl)).symm, fun a ha => ?_⟩
  exact (hlive a ha).trans (or_congr (or_iff_left (hother _ rfl rfl)).symm
    (or_iff_left (hother _ rfl rfl)).symm)

/-- A new closure has marked nothing. -/
lemma marksOk_new (su : Setup) :
    MarksOk su (su.keys.map fun key => (su.image.member (su.image.bytesOf key)).sects.map fun sa =>
      ⟨List.replicate sa.atoms.length false, false⟩) fun _ => False := by
  intro i key s sa hkey hsa
  refine ⟨⟨List.replicate sa.atoms.length false, false⟩, ?_, List.length_replicate,
    iff_of_false Bool.false_ne_true id,
    fun a ha => iff_of_false (fun htrue => ?_) fun h => h.elim id id⟩
  · rw [List.getElem?_map, hkey, Option.map_some, Option.bind_some, List.getElem?_map, hsa,
      Option.map_some]
  · rw [List.getElem?_replicate, if_pos ha] at htrue
    cases htrue

end Marking

/-! ### The walk -/

/-- A node leads to what its edges make live. -/
def Next (su : Setup) (n n' : Node) : Prop :=
  ∃ d, Lists su.image (su.image.member (su.image.bytesOf n.key)) n.sect n.atom? d ∧
    resolveDecoded su n.key d = some n'

/-- What holds in the loop of `close`, but for the bits. -/
structure WalkerOk (su : Setup) (roots : List Node) (visited : Node → Prop) (w : Walker) :
    Prop where
  index : IndexOk su.image w.index
  slots : ∀ (i : ℕ) (key : Key), su.keys[i]? = some key →
    ∃ j : ℕ, w.slots[i]? = some j ∧ w.index.slots[j]? = some (su.image.bytesOf key)
  answers : AnswersOk su w.index.names w.answers
  marks : MarksOk su w.marks visited
  walking : Worklist.Walking (Next su) (· ∈ roots) visited w.worklist
  valid : ∀ n ∈ w.worklist, Valid su n

/-- Why a closure has stopped. -/
def Stuck (su : Setup) (reached : Node → Prop) : Failure → Prop
  | .relocs => ∃ n sa, reached n ∧
      (su.image.member (su.image.bytesOf n.key)).sectOf n.sect = some sa ∧ sa.relocs = none
  | .overflow edges => 2 ^ 32 ≤ edges
  | _ => False

section Walk

variable {su : Setup} {roots : List Node} {visited : Node → Prop} {w : Walker} {node : Node}
  {i : ℕ}

/-- What a relocation makes live is a node of a member that is walked. -/
lemma Valid.next {n n' : Node} (h : Valid su n) (hnext : Next su n n') : Valid su n' := by
  have hcover : ∀ key ∈ su.keys, ∀ sect addr,
      Valid su
        (localNode key sect (atomAt (su.image.member (su.image.bytesOf key)) sect addr)) := by
    intro key hkey sect addr
    refine ⟨by rwa [key_localNode], fun a ha => ?_⟩
    rw [atom_localNode] at ha
    rw [key_localNode, sect_localNode]
    exact lt_of_atomAt ha
  have hname : ∀ name, resolveUndef su name = some n' → Valid su n' := by
    intro name hname
    obtain ⟨-, hglobal⟩ := Option.ite_none_left_eq_some.mp hname
    obtain ⟨row, -, hrow⟩ := Option.bind_eq_some_iff.mp hglobal
    obtain ⟨s, -, hs⟩ := Option.bind_eq_some_iff.mp hrow
    obtain ⟨hkey, hdefined⟩ := Option.ite_none_right_eq_some.mp hs
    obtain ⟨d, -, rfl⟩ := Option.map_eq_some_iff.mp hdefined
    exact hcover s.2 hkey d.1 d.2
  obtain ⟨d, ⟨sa, l, lo, hi, hsect, -, -, e, -, -, t, ht, rfl⟩, hd⟩ := hnext
  rw [resolve_of_decode ht, resolveRelocTarget, ht] at hd
  rcases decodeReloc_cases ht with ⟨row, entry, -, rfl⟩ | ⟨s, addr, rfl⟩ | ⟨s, rfl⟩
  · exact hname entry.name hd
  · obtain rfl := Option.some.inj hd
    exact hcover n.key h.1 s addr
  · obtain rfl := Option.some.inj hd
    exact ⟨h.1, fun a ha => absurd ha (Option.some_ne_none a).symm⟩

/-- **A node is expanded.** -/
lemma expand_spec (hstored : StoredLists su.image) (hkey : su.keys[i]? = some node.key)
    (hvalid : Valid su node)
    (hindex : IndexOk su.image w.index)
    (hslots : ∀ (i : ℕ) (key : Key), su.keys[i]? = some key →
      ∃ j : ℕ, w.slots[i]? = some j ∧ w.index.slots[j]? = some (su.image.bytesOf key))
    (hanswers : AnswersOk su w.index.names w.answers) (hmarks : MarksOk su w.marks visited)
    (hwalking : Worklist.Walking (Next su) (· ∈ roots) visited (node :: w.worklist))
    (hrest : ∀ n ∈ w.worklist, Valid su n) :
    (∃ w', expand su w i node = .ok w' ∧ w'.seen = w.seen ∧
      WalkerOk su roots (fun n => visited n ∨ n = node) w' ∧
      ((su.image.member (su.image.bytesOf node.key)).sectOf node.sect = none →
        w'.worklist = w.worklist)) ∨
    ∃ e, expand su w i node = .error e ∧ Stuck su (Worklist.Reached (Next su) (· ∈ roots)) e := by
  have hreached := hwalking.pending_reached node List.mem_cons_self
  cases hsect : (su.image.member (su.image.bytesOf node.key)).sectOf node.sect with
  | none =>
    -- the section of an atom is there
    have hwhole : ∃ key sect, node = .allSect key sect := by
      cases node with
      | atom key sect a =>
        obtain ⟨sa, hsa, -⟩ := hvalid.2 a rfl
        rw [hsa] at hsect
        cases hsect
      | allSect key sect => exact ⟨key, sect, rfl⟩
    have hleads : ∀ n, n ∈ w.worklist ↔ Next su node n ∨ n ∈ w.worklist := by
      refine fun n => (or_iff_right ?_).symm
      rintro ⟨d, ⟨sa, l, lo, hi, hsa, -⟩, -⟩
      rw [hsa] at hsect
      cases hsect
    obtain ⟨key, sect, rfl⟩ := hwhole
    have hexpand : expand su w i (.allSect key sect) = .ok w := by simp only [expand, hsect]
    exact Or.inl ⟨w, hexpand, rfl, ⟨hindex, hslots, hanswers, hmarks.outside hsect,
      hwalking.visit hleads, hrest⟩, fun _ => rfl⟩
  | some sa =>
    obtain ⟨s, hs, hsa⟩ : ∃ s, node.sect = s + 1 ∧
        (su.image.member (su.image.bytesOf node.key)).sects[s]? = some sa := by
      obtain ⟨hzero, hsa⟩ := Option.ite_none_left_eq_some.mp hsect
      exact ⟨node.sect - 1, by omega, hsa⟩
    have hatom : ∀ a, node.atom? = some a → a < sa.atoms.length := by
      intro a ha
      obtain ⟨sa', hsa', hlt⟩ := hvalid.2 a ha
      obtain rfl := Option.some.inj (hsect.symm.trans hsa')
      exact hlt
    have hnode : localNode node.key (s + 1) node.atom? = node := by rw [← hs, localNode_self]
    obtain ⟨mk, mk', hget, hmark, hmarks'⟩ := marksOk_mark hmarks hkey hsa hatom
    rw [hnode] at hmarks'
    have hpred : node.sect - 1 = s := by omega
    by_cases hstorage : sa.noFileStorage = true
    · have hexpand : expand su w i node =
          .ok { w with marks := w.marks.modify i fun ms => ms.set s mk' } := by
        simp only [expand, hsect, hpred, hget, hmark, if_pos hstorage]
      have hleads : ∀ n, n ∈ w.worklist ↔ Next su node n ∨ n ∈ w.worklist := by
        refine fun n => (or_iff_right ?_).symm
        rintro ⟨d, ⟨sa', l, lo, hi, hsa', hl, -, e, he, -⟩, -⟩
        obtain rfl := Option.some.inj (hsect.symm.trans hsa')
        rw [sa.bare hstorage] at hl
        obtain rfl := Option.some.inj hl
        cases he
      exact Or.inl ⟨_, hexpand, rfl, ⟨hindex, hslots, hanswers, hmarks',
        hwalking.visit hleads, hrest⟩, nofun⟩
    · obtain ⟨j, hj, hslot⟩ := hslots i node.key hkey
      rcases outEdges_spec hindex hstored hslot hsect (Bool.eq_false_iff.mpr hstorage) hatom with
        ⟨span, index, hout, hindex', hslots', hnames, hholds⟩ | ⟨edges, hout, hlarge⟩ |
        ⟨hout, hnone⟩
      · obtain ⟨hanswers', hfollow⟩ :=
          follow_spec node.key (hanswers.mono hnames) hholds.stand.1 w.worklist
        have hexpand : expand su w i node = .ok { w with
            marks := w.marks.modify i fun ms => ms.set s mk'
            index := index
            answers := (follow su node.key index.names
              (slice index.arena span.1 (span.1 + span.2)) w.answers w.worklist).1
            worklist := (follow su node.key index.names
              (slice index.arena span.1 (span.1 + span.2)) w.answers w.worklist).2 } := by
          simp only [expand, hsect, hpred, hget, hmark, if_neg hstorage, hj, hout]
        have hleads : ∀ n, n ∈ (follow su node.key index.names
            (slice index.arena span.1 (span.1 + span.2)) w.answers w.worklist).2 ↔
              Next su node n ∨ n ∈ w.worklist := by
          refine fun n => (hfollow n).trans (or_comm.trans (or_congr_left ⟨?_, ?_⟩))
          · rintro ⟨e, he, d, hreads, hresolve⟩
            obtain ⟨d', hreads', hlists⟩ := hholds.stand.1 e he
            obtain rfl := Option.some.inj (hreads.symm.trans hreads')
            exact ⟨d, hlists, hresolve⟩
          · rintro ⟨d, hlists, hresolve⟩
            obtain ⟨e, he, hreads⟩ := hholds.stand.2 d hlists
            exact ⟨e, he, d, hreads, hresolve⟩
        refine Or.inl ⟨_, hexpand, rfl, ⟨hindex', fun i key hkey => ?_, hanswers', hmarks',
          hwalking.visit hleads, fun n hn => ?_⟩, nofun⟩
        · rw [hslots']
          exact hslots i key hkey
        · rcases (hleads n).mp hn with hnext | hold
          · exact hvalid.next hnext
          · exact hrest n hold
      · refine Or.inr ⟨.overflow edges, ?_, hlarge⟩
        simp only [expand, hsect, hpred, hget, hmark, if_neg hstorage, hj, hout]
      · refine Or.inr ⟨.relocs, ?_, node, sa, hreached, hsect, hnone⟩
        simp only [expand, hsect, hpred, hget, hmark, if_neg hstorage, hj, hout]

/-- A node is met again, or it is new, or it has no bit. -/
lemma insert_spec {seen : Seen} (h : SeenOk su seen visited) (hkey : su.keys[i]? = some node.key)
    (hvalid : Valid su node) :
    (visited node ∧ seen.insert i node = .ok (false, seen)) ∨
    (∃ seen', seen.insert i node = .ok (true, seen') ∧ seen'.unset < seen.unset ∧
      SeenOk su seen' fun n => visited n ∨ n = node) ∨
    (seen.insert i node = .ok (true, seen) ∧
      (su.image.member (su.image.bytesOf node.key)).sectOf node.sect = none ∧
      SeenOk su seen fun n => visited n ∨ n = node) := by
  cases node with
  | atom key sect a =>
    obtain ⟨sa, hsa, ha⟩ := hvalid.2 a rfl
    obtain ⟨hzero, hget⟩ := Option.ite_none_left_eq_some.mp hsa
    obtain ⟨s, rfl⟩ := Nat.exists_eq_succ_of_ne_zero hzero
    have hc : countOf (countsOf su) i s = some sa.atoms.length := by
      rw [countOf_countsOf hkey, show (_ : Member).sects[s]? = some sa from hget, Option.map_some]
    rcases insert_atom h hkey hc ha with ⟨hold, hinsert⟩ | ⟨-, seen', hinsert, hless, hseen'⟩
    · exact Or.inl ⟨hold, hinsert⟩
    · exact Or.inr (Or.inl ⟨seen', hinsert, hless, hseen'⟩)
  | allSect key sect =>
    cases sect with
    | zero => exact Or.inr (Or.inr ⟨rfl, rfl, h.outside fun _ _ _ _ _ => nofun⟩)
    | succ s =>
      cases hc : countOf (countsOf su) i s with
      | some c =>
        rcases insert_whole h hkey hc with ⟨hold, hinsert⟩ | ⟨-, seen', hinsert, hless, hseen'⟩
        · exact Or.inl ⟨hold, hinsert⟩
        · exact Or.inr (Or.inl ⟨seen', hinsert, hless, hseen'⟩)
      | none =>
        refine Or.inr (Or.inr ⟨?_, ?_, h.outside fun i' s' c' hkey' hc' hs' => ?_⟩)
        · rw [Seen.insert, h.shape i s hc]
        · rw [countOf_countsOf hkey] at hc
          exact Option.map_eq_none_iff.mp hc
        · obtain rfl := key_injective hkey hkey'
          obtain rfl : s = s' := Nat.succ.inj hs'
          rw [hc] at hc'
          cases hc'

/-- **A node of the worklist is visited**: it was visited before and is dropped, or it is visited
now, where fewer bits are left to set or the worklist is shorter. -/
lemma visit_spec (hstored : StoredLists su.image) {rest : List Node}
    (h : WalkerOk su roots visited w) (hseen : SeenOk su w.seen visited)
    (hlist : w.worklist = node :: rest) :
    (∃ w' visited', visit su { w with worklist := rest } node = .ok w' ∧
      WalkerOk su roots visited' w' ∧ SeenOk su w'.seen visited' ∧
      (w'.seen.unset < w.seen.unset ∨ w'.seen.unset = w.seen.unset ∧ w'.worklist = rest)) ∨
    ∃ e, visit su { w with worklist := rest } node = .error e ∧
      Stuck su (Worklist.Reached (Next su) (· ∈ roots)) e := by
  have hwalking := h.walking
  rw [hlist] at hwalking
  have hvalid : Valid su node := h.valid node (hlist ▸ List.mem_cons_self)
  have hrest : ∀ n ∈ rest, Valid su n := fun n hn => h.valid n (hlist ▸ List.mem_cons_of_mem _ hn)
  obtain ⟨i, hfind⟩ : ∃ i, (su.keys.findIdx? fun key => key = node.key) = some i := by
    cases hfind : su.keys.findIdx? fun key => key = node.key with
    | some i => exact ⟨i, rfl⟩
    | none =>
      have hne := List.findIdx?_eq_none_iff.mp hfind node.key hvalid.1
      exact absurd rfl (of_decide_eq_false hne)
  have hkey : su.keys[i]? = some node.key := by
    obtain ⟨hlt, heq, -⟩ := List.findIdx?_eq_some_iff_getElem.mp hfind
    rw [List.getElem?_eq_getElem hlt, of_decide_eq_true heq]
  have hexpand := fun seen => expand_spec (w := { w with worklist := rest, seen := seen }) hstored
    hkey hvalid h.index h.slots h.answers h.marks hwalking hrest
  rcases insert_spec hseen hkey hvalid with ⟨hold, hinsert⟩ | ⟨seen, hinsert, hless, hseen'⟩ |
    ⟨hinsert, hnone, hseen'⟩
  · refine Or.inl ⟨{ w with worklist := rest }, visited, ?_, ⟨h.index, h.slots, h.answers, h.marks,
      hwalking.drop hold, hrest⟩, hseen, Or.inr ⟨rfl, rfl⟩⟩
    simp only [visit, hfind, hinsert]
    rfl
  · have hvisit : visit su { w with worklist := rest } node =
        expand su { w with worklist := rest, seen := seen } i node := by
      simp only [visit, hfind, hinsert, if_true]
    rw [hvisit]
    rcases hexpand seen with ⟨w', hok, hsame, hw', -⟩ | hstuck
    · refine Or.inl ⟨w', _, hok, hw', ?_, Or.inl ?_⟩
      · rw [hsame]
        exact hseen'
      · rw [hsame]
        exact hless
    · exact Or.inr hstuck
  · have hvisit : visit su { w with worklist := rest } node =
        expand su { w with worklist := rest, seen := w.seen } i node := by
      simp only [visit, hfind, hinsert, if_true]
    rw [hvisit]
    rcases hexpand w.seen with ⟨w', hok, hsame, hw', hworklist⟩ | hstuck
    · refine Or.inl ⟨w', _, hok, hw', ?_, Or.inr ⟨?_, hworklist hnone⟩⟩
      · rw [hsame]
        exact hseen'
      · rw [hsame]
    · exact Or.inr hstuck

/-- **The loop ends**, and what was visited is what the roots reach. -/
lemma closeFor_spec (hstored : StoredLists su.image) {visited : Node → Prop} {w : Walker}
    (h : WalkerOk su roots visited w) (hseen : SeenOk su w.seen visited) :
    (∃ fuel w', closeFor su fuel w = some (.ok w') ∧
      WalkerOk su roots (Worklist.Reached (Next su) (· ∈ roots)) w' ∧ w'.worklist = []) ∨
    ∃ fuel e, closeFor su fuel w = some (.error e) ∧
      Stuck su (Worklist.Reached (Next su) (· ∈ roots)) e := by
  -- fewer bits are left to set, or as many and the worklist is shorter
  induction hunset : w.seen.unset using Nat.strong_induction_on generalizing w visited with
  | _ bits ihbits =>
    induction hlength : w.worklist.length generalizing w visited with
    | zero =>
      have hempty := List.length_eq_zero_iff.mp hlength
      have hwalking := h.walking
      rw [hempty] at hwalking
      have hvisited : visited = Worklist.Reached (Next su) (· ∈ roots) :=
        funext fun n => propext (hwalking.done n)
      refine Or.inl ⟨1, w, ?_, hvisited ▸ h, hempty⟩
      rw [closeFor, hempty]
    | succ n ihlist =>
      obtain ⟨node, rest, hlist⟩ := List.exists_cons_of_length_eq_add_one hlength
      rcases visit_spec hstored h hseen hlist with
        ⟨w₁, visited₁, hvisit, h₁, hseen₁, hmeasure⟩ | ⟨e, hvisit, hstuck⟩
      · have hrest : (∃ fuel w', closeFor su fuel w₁ = some (.ok w') ∧
            WalkerOk su roots (Worklist.Reached (Next su) (· ∈ roots)) w' ∧ w'.worklist = []) ∨
            ∃ fuel e, closeFor su fuel w₁ = some (.error e) ∧
              Stuck su (Worklist.Reached (Next su) (· ∈ roots)) e := by
          rcases hmeasure with hless | ⟨hsame, hshort⟩
          · exact ihbits _ (hunset ▸ hless) h₁ hseen₁ rfl
          · refine ihlist h₁ hseen₁ (hsame.trans hunset) ?_
            rw [hlist, List.length_cons] at hlength
            rw [hshort]
            omega
        rcases hrest with ⟨fuel, w', hclose, hend⟩ | ⟨fuel, e, hclose, hstuck⟩
        · refine Or.inl ⟨fuel + 1, w', ?_, hend⟩
          rw [closeFor, hlist]
          simp only [hvisit, hclose]
        · refine Or.inr ⟨fuel + 1, e, ?_, hstuck⟩
          rw [closeFor, hlist]
          simp only [hvisit, hclose]
      · refine Or.inr ⟨1, e, ?_, hstuck⟩
        rw [closeFor, hlist]
        simp only [hvisit]

end Walk

/-! ### The caches of a link -/

section Caches

variable {im : Image} {su : Setup} {decodeAll : Bool}

/-- The members of a closure get slots of their bytes. -/
lemma slotsOf_spec (decodeAll : Bool) (keys : List Key) {ix : EdgeIndex} (h : IndexOk im ix) :
    IndexOk im (slotsOf decodeAll im keys ix).2 ∧
      ix.slots <+: (slotsOf decodeAll im keys ix).2.slots ∧
      ∀ (i : ℕ) (key : Key), keys[i]? = some key → ∃ j : ℕ,
        (slotsOf decodeAll im keys ix).1[i]? = some j ∧
          (slotsOf decodeAll im keys ix).2.slots[j]? = some (im.bytesOf key) := by
  induction keys generalizing ix with
  | nil => exact ⟨h, List.prefix_rfl, fun i key hkey => by cases hkey⟩
  | cons key keys ih =>
    obtain ⟨hslot, hget, hpre⟩ := slot_spec h decodeAll key
    obtain ⟨hrest, hpre', hslots⟩ := ih hslot
    refine ⟨hrest, hpre.trans hpre', fun i key' hkey' => ?_⟩
    cases i with
    | zero =>
      obtain rfl := Option.some.inj hkey'
      exact ⟨_, rfl, getElem?_of_prefix hpre' hget⟩
    | succ i => exact hslots i key' hkey'

/-- A new closure over a right cache. -/
lemma walkerOk_new (decodeAll : Bool) {cache : ReachCache} (hindex : IndexOk su.image cache.edges)
    (hsymLoc : SymLocOk su.image cache.symLoc) {roots : List Node}
    (hroots : ∀ n ∈ roots, Valid su n) :
    WalkerOk su roots (fun _ => False) (Walker.new decodeAll su cache roots) ∧
      SeenOk su (Walker.new decodeAll su cache roots).seen fun _ => False := by
  obtain ⟨hix, -, hslots⟩ := slotsOf_spec decodeAll su.keys hindex
  have hmarks := marksOk_new su
  have hseen := seenOk_new su
  rw [countsOf] at hseen
  refine ⟨⟨hix, hslots, ⟨nofun, nofun, nofun, hsymLoc⟩, ?_,
    Worklist.Walking.init fun n => List.mem_reverse.symm, fun n hn => ?_⟩, ?_⟩
  · rw [Walker.new]
    simpa only [List.map_map, Function.comp_def] using hmarks
  · exact hroots n (List.mem_reverse.mp hn)
  · rw [Walker.new]
    simpa only [List.map_map, Function.comp_def] using hseen

/-- More steps do not change what a closure answers. -/
lemma closeFor_mono {fuel fuel' : ℕ} (hle : fuel ≤ fuel') {w : Walker}
    {r : Except Failure Walker} (h : closeFor su fuel w = some r) :
    closeFor su fuel' w = some r := by
  induction fuel generalizing fuel' w with
  | zero => cases h
  | succ fuel ih =>
    obtain ⟨k, rfl⟩ := Nat.exists_eq_add_of_le hle
    rw [Nat.add_right_comm, closeFor]
    rw [closeFor] at h
    cases hlist : w.worklist with
    | nil =>
      rw [hlist] at h
      exact h
    | cons node rest =>
      simp only [hlist] at h ⊢
      cases hvisit : visit su { w with worklist := rest } node with
      | error e =>
        simp only [hvisit] at h ⊢
        exact h
      | ok w₁ =>
        simp only [hvisit] at h ⊢
        exact ih (Nat.le_add_right _ _) h

/-- **The caches of a link are right.** -/
lemma Used.cacheOk (hstored : StoredLists im) {cache : ReachCache} (h : Used decodeAll im cache) :
    IndexOk im cache.edges ∧ SymLocOk im cache.symLoc := by
  induction h with
  | init => exact ⟨indexOk_init im, Or.inl rfl⟩
  | root su row him h ih =>
    subst him
    exact ⟨ih.1, (symNode_spec su row ih.2).2⟩
  | @close cache su roots fuel w him hroots h hclose ih =>
    subst him
    obtain ⟨hnew, hseen⟩ := walkerOk_new decodeAll ih.1 ih.2 hroots
    rcases closeFor_spec hstored hnew hseen with
      ⟨fuel', w', hclose', hok, -⟩ | ⟨fuel', e, hclose', -⟩
    · have hsame := (closeFor_mono (Nat.le_max_left fuel fuel') hclose).symm.trans
        (closeFor_mono (Nat.le_max_right fuel fuel') hclose')
      obtain rfl := Except.ok.inj (Option.some.inj hsame)
      exact ⟨hok.index, hok.answers.symLoc⟩
    · have hsame := (closeFor_mono (Nat.le_max_left fuel fuel') hclose).symm.trans
        (closeFor_mono (Nat.le_max_right fuel fuel') hclose')
      cases hsame

end Caches

/-! ### The least set -/

section Least

variable {su : Setup} {roots : Node → Prop} {n : Node}

/-- What a relocation of a node makes live is what the node leads to. -/
lemma next_of_reloc {sa : Sect} {l : List Reloc} {lo hi : ℕ} {e : Reloc} {n n' : Node}
    (hsect : (su.image.member (su.image.bytesOf n.key)).sectOf n.sect = some sa)
    (hrelocs : sa.relocs = some l) (hrange : rangeOf sa n.atom? = some (lo, hi)) (he : e ∈ l)
    (hlo : lo ≤ e.address) (hhi : e.address < hi)
    (htarget : resolveRelocTarget su n.key n.sect e = some n') : Next su n n' := by
  cases ht : decodeReloc n.sect e (su.image.member (su.image.bytesOf n.key)) with
  | none =>
    rw [resolveRelocTarget, ht] at htarget
    cases htarget
  | some t =>
    exact ⟨_, ⟨sa, l, lo, hi, hsect, hrelocs, hrange, e, he, ⟨hlo, hhi⟩, t, ht, rfl⟩,
      (resolve_of_decode ht).trans htarget⟩

/-- **What is live is what the walk reaches**, and the atoms of the sections that it reaches as a
whole. -/
lemma live_iff : Live su roots n ↔ Worklist.Reached (Next su) roots n ∨
    ∃ key sect a sa, n = .atom key sect a ∧ Worklist.Reached (Next su) roots (.allSect key sect) ∧
      (su.image.member (su.image.bytesOf key)).sectOf sect = some sa ∧ a < sa.atoms.length := by
  constructor
  · intro h
    induction h with
    | root h => exact Or.inl (.root h)
    | @within key sect a sa h hsect ha ih =>
      have hwhole := ih.resolve_right fun ⟨_, _, _, _, hn, _⟩ => by cases hn
      exact Or.inr ⟨key, sect, a, sa, rfl, hwhole, hsect, ha⟩
    | @inAtom key sect a sa l e r n h hsect hrelocs he ha hlo hhi htarget ih =>
      rcases ih with hatom | ⟨key', sect', a', sa', hn, hwhole, -, -⟩
      · have hrange : rangeOf sa (some a) = some (r.1 - sa.addr, r.2 - sa.addr) := by
          rw [rangeOf, ha, Option.map_some]
        exact Or.inl (.step hatom (next_of_reloc (n := .atom key sect a) hsect hrelocs hrange he
          (by omega) (by omega) htarget))
      · obtain ⟨rfl, rfl, rfl⟩ := Node.atom.inj hn
        exact Or.inl (.step hwhole (next_of_reloc (n := .allSect key sect) hsect hrelocs rfl he
          (Nat.zero_le _) (sa.inside l hrelocs e he) htarget))
    | @inSect key sect sa l e n h hsect hrelocs he htarget ih =>
      have hwhole := ih.resolve_right fun ⟨_, _, _, _, hn, _⟩ => by cases hn
      exact Or.inl (.step hwhole (next_of_reloc (n := .allSect key sect) hsect hrelocs rfl he
        (Nat.zero_le _) (sa.inside l hrelocs e he) htarget))
  · have hlive : ∀ n, Worklist.Reached (Next su) roots n → Live su roots n := by
      intro n h
      induction h with
      | root h => exact .root h
      | @step n n' h hnext ih =>
        obtain ⟨d, ⟨sa, l, lo, hi, hsect, hrelocs, hrange, e, he, ⟨hlo, hhi⟩, t, ht, rfl⟩, hd⟩ :=
          hnext
        rw [resolve_of_decode ht] at hd
        cases n with
        | atom key sect a =>
          obtain ⟨r, hr, hbounds⟩ := Option.map_eq_some_iff.mp hrange
          obtain ⟨rfl, rfl⟩ := Prod.mk.inj hbounds
          exact .inAtom ih hsect hrelocs he hr (by omega) (by omega) hd
        | allSect key sect => exact .inSect ih hsect hrelocs he hd
    rintro (h | ⟨key, sect, a, sa, rfl, hwhole, hsect, ha⟩)
    · exact hlive n h
    · exact .within (hlive _ hwhole) hsect ha

end Least

/-- **The closure is exact.**  After any closures of the link, a closure over valid roots ends, and
it marks what is live; or it stops at relocations that do not parse, in a section that is live,
or at an arena of `2 ^ 32` edges. -/
theorem close_exact {decodeAll : Bool} {im : Image} (hstored : StoredLists im)
    {cache : ReachCache} (hcache : Used decodeAll im cache) {su : Setup} (him : su.image = im)
    {roots : List Node} (hroots : ∀ n ∈ roots, Valid su n) :
    (∃ fuel w, closeFor su fuel (Walker.new decodeAll su cache roots) = some (.ok w) ∧
      Exact su roots w) ∨
    ∃ fuel e, closeFor su fuel (Walker.new decodeAll su cache roots) = some (.error e) ∧
      Stuck su (Live su (· ∈ roots)) e := by
  subst him
  obtain ⟨hindex, hsymLoc⟩ := hcache.cacheOk hstored
  obtain ⟨hnew, hseen⟩ := walkerOk_new decodeAll hindex hsymLoc hroots
  rcases closeFor_spec hstored hnew hseen with ⟨fuel, w, hclose, hok, -⟩ | ⟨fuel, e, hclose, hstuck⟩
  · refine Or.inl ⟨fuel, w, hclose, fun i key s sa hkey hsa => ?_⟩
    obtain ⟨mk, hget, hlength, hall, hlive⟩ := hok.marks i key s sa hkey hsa
    have hsect : (su.image.member (su.image.bytesOf key)).sectOf (s + 1) = some sa := hsa
    refine ⟨mk, hget, hlength, hall.trans ?_, fun a ha => (hlive a ha).trans ?_⟩
    · rw [live_iff]
      exact (or_iff_left fun ⟨_, _, _, _, hn, _⟩ => by cases hn).symm
    · rw [live_iff]
      refine or_congr_right ⟨fun hwhole => ⟨key, s + 1, a, sa, rfl, hwhole, hsect, ha⟩, ?_⟩
      rintro ⟨key', sect', a', sa', hn, hwhole, -, -⟩
      obtain ⟨rfl, rfl, rfl⟩ := Node.atom.inj hn
      exact hwhole
  · refine Or.inr ⟨fuel, e, hclose, ?_⟩
    cases e with
    | relocs =>
      obtain ⟨n, sa, hreached, hsect, hnone⟩ := hstuck
      exact ⟨n, sa, live_iff.mpr (Or.inl hreached), hsect, hnone⟩
    | overflow edges => exact hstuck
    | vanished => exact hstuck
    | bad => exact hstuck

/-- A section of two atoms, the first of which refers to the second. -/
def smallSect : Sect where
  addr := 0
  size := 8
  fileOff := 0
  noFileStorage := false
  atoms := [(0, 4), (4, 8)]
  relocs := some [⟨0, 0, true, 2, true, 2⟩]
  ascending := by decide
  starts := by decide
  few := by decide
  inside := by
    intro l hl e he
    obtain rfl := Option.mem_some_iff.mp hl
    obtain rfl := List.mem_singleton.mp he
    decide
  bare := nofun

/-- An image of two members with the same bytes. -/
def smallImage : Image where
  bytesOf _ := 0
  member _ := ⟨[], [smallSect], [⟨"callee", 0x0E, 1, 4⟩], [("callee", 1, 4)], by decide⟩
  symbols := [("callee", (0, 0))]
  cold _ := none
  nodup := by decide

/-- The closure over both members. -/
def smallSetup : Setup where
  image := smallImage
  keys := [(0, 0), (0, 1)]
  user _ := false
  dyldImports := []
  nodup := by decide
  apart := nofun

/-- The closure of the first atom of the second member. -/
theorem close_exact_small :
    (∃ fuel w, closeFor smallSetup fuel (Walker.new false smallSetup .init [.atom (0, 1) 1 0]) =
      some (.ok w) ∧ Exact smallSetup [.atom (0, 1) 1 0] w) ∨
    ∃ fuel e, closeFor smallSetup fuel (Walker.new false smallSetup .init [.atom (0, 1) 1 0]) =
      some (.error e) ∧ Stuck smallSetup (Live smallSetup (· ∈ [.atom (0, 1) 1 0])) e := by
  have hstored : StoredLists smallImage := fun key table hcold => by cases hcold
  refine close_exact hstored .init rfl fun n hn => ?_
  obtain rfl := List.mem_singleton.mp hn
  refine ⟨by decide, fun a ha => ⟨smallSect, rfl, ?_⟩⟩
  obtain rfl := Option.some.inj ha
  decide

end Torajs.Link.Reach
