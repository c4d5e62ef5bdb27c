import Mathlib.Data.List.Nodup

/-!
# Insertion-ordered dictionaries

A dictionary is the list of its entries in insertion order, at most one for each key.
Putting a present key replaces its value where it stands, putting an absent one appends,
and erasing leaves the other entries in their order.

The lookup lemmas say that the list is a finite map; the rest is about the order.
-/

namespace OrderedDict

variable {K V : Type*} [DecidableEq K]

/-- The value of a key. -/
def find (d : List (K × V)) (k : K) : Option V := (d.find? fun e => e.1 = k).map Prod.snd

/-- Set the value of a key, in place when the key is present. -/
def put (d : List (K × V)) (k : K) (v : V) : List (K × V) :=
  if k ∈ d.map Prod.fst then d.map fun e => if e.1 = k then (k, v) else e else d ++ [(k, v)]

/-- Remove a key. -/
def erase (d : List (K × V)) (k : K) : List (K × V) := d.filter fun e => e.1 ≠ k

/-- No key has two entries. -/
def NodupKeys (d : List (K × V)) : Prop := (d.map Prod.fst).Nodup

omit [DecidableEq K] in
/-- The empty dictionary. -/
lemma nodupKeys_nil : NodupKeys ([] : List (K × V)) := List.nodup_nil

/-- A key has a value exactly when it has an entry. -/
lemma find_isSome_iff {d : List (K × V)} {k : K} :
    (find d k).isSome = true ↔ k ∈ d.map Prod.fst := by
  simp only [find, Option.isSome_map, List.find?_isSome, decide_eq_true_eq, List.mem_map]

/-- The entries of the dictionary are what it finds. -/
lemma find_eq_some_iff {d : List (K × V)} (hd : NodupKeys d) {k : K} {v : V} :
    find d k = some v ↔ (k, v) ∈ d := by
  induction d with
  | nil => simp [find]
  | cons e d ih =>
    obtain ⟨hnot, hd'⟩ := List.nodup_cons.mp hd
    have ih := ih hd'
    unfold find at ih ⊢
    by_cases he : e.1 = k
    · rw [List.find?_cons_of_pos (by simpa using he)]
      simp only [Option.map_some, Option.some.injEq, List.mem_cons]
      constructor
      · rintro rfl
        exact Or.inl (by rw [← he])
      · rintro (h | h)
        · rw [← h]
        · exact absurd (List.mem_map.mpr ⟨(k, v), h, he.symm⟩) hnot
    · rw [List.find?_cons_of_neg (by simpa using he), ih, List.mem_cons]
      constructor
      · exact Or.inr
      · rintro (h | h)
        · exact absurd (by rw [← h]) he
        · exact h

/-- A present key is replaced in place. -/
lemma put_of_mem {d : List (K × V)} {k : K} (h : k ∈ d.map Prod.fst) (v : V) :
    put d k v = d.map fun e => if e.1 = k then (k, v) else e := if_pos h

/-- An absent key is appended. -/
lemma put_of_notMem {d : List (K × V)} {k : K} (h : k ∉ d.map Prod.fst) (v : V) :
    put d k v = d ++ [(k, v)] := if_neg h

/-- Putting leaves the keys in their order and adds an absent key at the end. -/
lemma keys_put (d : List (K × V)) (k : K) (v : V) :
    (put d k v).map Prod.fst =
      if k ∈ d.map Prod.fst then d.map Prod.fst else d.map Prod.fst ++ [k] := by
  unfold put
  split_ifs with h
  · rw [List.map_map]
    apply List.map_congr_left
    intro e _
    simp only [Function.comp_apply]
    split_ifs with he
    · exact he.symm
    · rfl
  · simp

/-- Putting keeps the keys distinct. -/
lemma nodupKeys_put {d : List (K × V)} (hd : NodupKeys d) (k : K) (v : V) :
    NodupKeys (put d k v) := by
  unfold NodupKeys
  rw [keys_put]
  split_ifs with h
  · exact hd
  · rw [List.nodup_append]
    exact ⟨hd, List.nodup_singleton k, by simpa using fun a b hb => fun hak => h (by
      rw [← hak]; exact List.mem_map.mpr ⟨(a, b), hb, rfl⟩)⟩

/-- Erasing keeps the keys distinct. -/
lemma nodupKeys_erase {d : List (K × V)} (hd : NodupKeys d) (k : K) : NodupKeys (erase d k) :=
  hd.sublist ((List.filter_sublist (l := d)).map Prod.fst)

/-- A key that was put has the value it was given. -/
theorem find_put_self (d : List (K × V)) (k : K) (v : V) : find (put d k v) k = some v := by
  unfold put
  split_ifs with h
  · induction d with
    | nil => simp at h
    | cons e d ih =>
      by_cases he : e.1 = k
      · simp [find, he]
      · have hmem : k ∈ d.map Prod.fst := by simpa [Ne.symm he] using h
        have := ih hmem
        simpa [find, he] using this
  · have hnone : d.find? (fun e => decide (e.1 = k)) = none := by
      rw [List.find?_eq_none]
      intro e he hek
      exact h (List.mem_map.mpr ⟨e, he, by simpa using hek⟩)
    simp [find, List.find?_append, hnone]

/-- Putting a key leaves the other keys alone. -/
theorem find_put_ne {d : List (K × V)} {k k' : K} (hne : k' ≠ k) (v : V) :
    find (put d k v) k' = find d k' := by
  unfold put
  split_ifs with h
  · clear h
    induction d with
    | nil => rfl
    | cons e d ih =>
      by_cases he : e.1 = k
      · have hek' : e.1 ≠ k' := fun h => hne (by rw [← h, he])
        simpa [find, he, Ne.symm hne, hek'] using ih
      · by_cases hek : e.1 = k'
        · simp [find, hek, hne]
        · simpa [find, he, hek] using ih
  · simp [find, List.find?_append, Ne.symm hne]

/-- An erased key has no value. -/
theorem find_erase_self (d : List (K × V)) (k : K) : find (erase d k) k = none := by
  simp [find, erase, List.find?_eq_none]

/-- Erasing a key leaves the other keys alone. -/
theorem find_erase_ne {d : List (K × V)} {k k' : K} (hne : k' ≠ k) :
    find (erase d k) k' = find d k' := by
  unfold find erase
  rw [List.find?_filter]
  congr 1
  congr 1
  funext e
  by_cases he : e.1 = k' <;> simp [he, hne]

/-- Erasing an absent key changes nothing. -/
lemma erase_of_notMem {d : List (K × V)} {k : K} (h : k ∉ d.map Prod.fst) : erase d k = d := by
  apply List.filter_eq_self.mpr
  intro e he
  simp only [ne_eq, decide_not, Bool.not_eq_true', decide_eq_false_iff_not]
  exact fun hek => h (List.mem_map.mpr ⟨e, he, hek⟩)

/-- The keys around an entry differ from its key. -/
lemma NodupKeys.notMem_of_split {a b : List (K × V)} {k : K} {v : V}
    (h : NodupKeys (a ++ (k, v) :: b)) : k ∉ a.map Prod.fst ∧ k ∉ b.map Prod.fst := by
  unfold NodupKeys at h
  rw [List.map_append, List.map_cons] at h
  have hperm := List.nodup_middle.mp h
  rw [List.nodup_cons, List.mem_append, not_or] at hperm
  exact hperm.1

/-- Erasing takes out the entry of the key. -/
lemma erase_split {a b : List (K × V)} {k : K} {v : V} (h : NodupKeys (a ++ (k, v) :: b)) :
    erase (a ++ (k, v) :: b) k = a ++ b := by
  obtain ⟨ha, hb⟩ := h.notMem_of_split
  have ha' := erase_of_notMem ha
  have hb' := erase_of_notMem hb
  unfold erase at ha' hb' ⊢
  rw [List.filter_append, ha', List.filter_cons_of_neg (by simp), hb']

/-- Putting rewrites the entry of the key. -/
lemma put_split {a b : List (K × V)} {k : K} {v : V} (h : NodupKeys (a ++ (k, v) :: b)) (w : V) :
    put (a ++ (k, v) :: b) k w = a ++ (k, w) :: b := by
  obtain ⟨ha, hb⟩ := h.notMem_of_split
  have hsame : ∀ l : List (K × V), k ∉ l.map Prod.fst →
      l.map (fun e => if e.1 = k then (k, w) else e) = l := by
    intro l hl
    rw [List.map_congr_left (g := id), List.map_id]
    intro e he
    rw [if_neg (fun hek => hl (List.mem_map.mpr ⟨e, he, hek⟩)), id]
  rw [put_of_mem (by simp), List.map_append, List.map_cons, hsame a ha, hsame b hb, if_pos rfl]

end OrderedDict
