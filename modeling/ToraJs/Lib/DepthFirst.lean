import Mathlib.Algebra.Order.BigOperators.Group.List
import Mathlib.Algebra.GroupWithZero.Nat
import Mathlib.Algebra.Order.Group.Nat
import Mathlib.Logic.Function.Basic
import ToraJs.Lib.Dominance

/-!
# Iterative depth-first search

The usual loop over an explicit stack with two kinds of entries: a node to visit, and a
visited node to finish once everything pushed above it is done.  The finished nodes, last
one first, are a reverse postorder.

The proof looks at the *trail*: the stack from bottom to top, followed by the finished
nodes.  Finishing a node does not move it in the trail, so "some visited node before it in
the trail has an edge to it" holds of every entry but the root throughout, and of the
finished list in the end.
-/

namespace DepthFirst

open Dominance (Path Reachable)

variable {α : Type*}

/-- A stack entry: a node to visit, or a visited node to finish. -/
inductive Item (α : Type*) where
  | visit (v : α)
  | final (v : α)

/-- The node of an entry. -/
def Item.node : Item α → α
  | .visit v | .final v => v

section Loop

variable [DecidableEq α] (succ : α → List α)

/-- The loop: the stack (top first), the visited nodes and the finished nodes (last
first). -/
def search : ℕ → List (Item α) → (α → Bool) → List α → Option (List α)
  | _, [], _, post => some post
  | 0, _ :: _, _, _ => none
  | fuel + 1, .final v :: stack, visited, post => search fuel stack visited (v :: post)
  | fuel + 1, .visit v :: stack, visited, post =>
    if visited v then search fuel stack visited post
    else
      let visited' := Function.update visited v true
      let pushed := (succ v).filter fun t => !visited' t
      search fuel (pushed.reverse.map .visit ++ .final v :: stack) visited' post

end Loop

/-! ### Trails -/

section Trail

variable (succ : α → List α) (root : α)

/-- The entry after `before` is the root's first entry, or has a predecessor among the
finals before it. -/
def Led (before : List (Item α)) (x : Item α) : Prop :=
  (before = [] ∧ x.node = root) ∨ ∃ p, .final p ∈ before ∧ x.node ∈ succ p

/-- Every entry of a list is led, after the entries of `before`. -/
def AllLed : List (Item α) → List (Item α) → Prop
  | _, [] => True
  | before, x :: rest => Led succ root before x ∧ AllLed (before ++ [x]) rest

variable {succ root}

lemma Led.mono {before before' : List (Item α)} {x : Item α} (hne : before ≠ [])
    (hsub : ∀ p, Item.final p ∈ before → .final p ∈ before') (h : Led succ root before x) :
    Led succ root before' x := by
  obtain ⟨h, _⟩ | ⟨p, hp, hx⟩ := h
  · exact absurd h hne
  · exact Or.inr ⟨p, hsub p hp, hx⟩

lemma AllLed.mono {rest : List (Item α)} : ∀ {before before' : List (Item α)}, before ≠ [] →
    (∀ p, Item.final p ∈ before → .final p ∈ before') → AllLed succ root before rest →
    AllLed succ root before' rest := by
  induction rest with
  | nil => exact fun _ _ _ => trivial
  | cons x rest ih =>
    intro before before' hne hsub h
    refine ⟨h.1.mono hne hsub, ih (by simp) ?_ h.2⟩
    intro p hp
    rcases List.mem_append.mp hp with hp | hp
    · exact List.mem_append_left _ (hsub p hp)
    · exact List.mem_append_right _ hp

lemma allLed_append {xs ys : List (Item α)} : ∀ {before : List (Item α)},
    AllLed succ root before (xs ++ ys) ↔
      AllLed succ root before xs ∧ AllLed succ root (before ++ xs) ys := by
  induction xs with
  | nil => simp [AllLed]
  | cons x xs ih =>
    intro before
    rw [List.cons_append, AllLed, AllLed, ih, List.append_assoc, List.singleton_append, and_assoc]

/-- Entries that follow a final of one of their predecessors are led. -/
lemma allLed_pushed {v : α} {ts : List α} (hts : ∀ t ∈ ts, t ∈ succ v) :
    ∀ {before : List (Item α)}, .final v ∈ before → AllLed succ root before (ts.map .visit) := by
  induction ts with
  | nil => exact fun _ => trivial
  | cons t ts ih =>
    intro before hv
    refine ⟨Or.inr ⟨v, hv, hts t List.mem_cons_self⟩, ih ?_ (List.mem_append_left _ hv)⟩
    exact fun t' ht' => hts t' (List.mem_cons_of_mem _ ht')

/-- Every entry after the first has a predecessor before it. -/
lemma AllLed.exists_pred {A B : List (Item α)} {x : Item α} {before : List (Item α)}
    (h : AllLed succ root before (A ++ x :: B)) (hne : before ++ A ≠ []) :
    ∃ p, .final p ∈ before ++ A ∧ x.node ∈ succ p := by
  rw [allLed_append] at h
  obtain ⟨h, _⟩ | h := h.2.1
  · exact absurd h hne
  · exact h

/-- The stack from bottom to top, then the finished nodes. -/
def trail (stack : List (Item α)) (post : List α) : List (Item α) :=
  stack.reverse ++ post.map .final

/-- The nodes of the finals of a trail. -/
def finals (l : List (Item α)) : List α :=
  l.filterMap fun
    | .final v => some v
    | .visit _ => none

lemma mem_finals {l : List (Item α)} {v : α} : v ∈ finals l ↔ .final v ∈ l := by
  rw [finals, List.mem_filterMap]
  constructor
  · rintro ⟨x, hx, hv⟩
    cases x with
    | visit _ => cases hv
    | final w => rwa [← Option.some.inj hv]
  · exact fun h => ⟨_, h, rfl⟩

lemma finals_append (l l' : List (Item α)) : finals (l ++ l') = finals l ++ finals l' :=
  List.filterMap_append

lemma finals_map_visit (ts : List α) : finals (ts.map .visit) = [] := by
  induction ts with
  | nil => rfl
  | cons t ts ih => simp [finals]

lemma finals_map_final (vs : List α) : finals (vs.map .final) = vs := by
  induction vs with
  | nil => rfl
  | cons v vs ih => simp [finals]

/-! ### The invariant -/

/-- What holds before every round. -/
structure Inv (succ : α → List α) (root : α) (stack : List (Item α)) (visited : α → Bool)
    (post : List α) : Prop where
  led : AllLed succ root [] (trail stack post)
  visited_iff : ∀ v, visited v = true ↔ v ∈ finals (trail stack post)
  nodup : (finals (trail stack post)).Nodup
  closed : ∀ v, visited v = true → ∀ t ∈ succ v, visited t = true ∨ .visit t ∈ stack
  start : visited root = true ∨ .visit root ∈ stack
  reach : ∀ x ∈ trail stack post, Reachable (fun b c => c ∈ succ b) root x.node

lemma trail_cons (x : Item α) (stack : List (Item α)) (post : List α) :
    trail (x :: stack) post = stack.reverse ++ x :: post.map .final := by
  simp [trail]

/-- Finishing a node leaves the trail as it is. -/
lemma trail_final (v : α) (stack : List (Item α)) (post : List α) :
    trail (.final v :: stack) post = trail stack (v :: post) := by
  simp [trail]

lemma inv_init : Inv succ root [.visit root] (fun _ => false) [] where
  led := ⟨Or.inl ⟨rfl, rfl⟩, trivial⟩
  visited_iff v := by simp [trail, finals]
  nodup := by simp [trail, finals]
  closed v h := by cases h
  start := Or.inr List.mem_cons_self
  reach x hx := by
    obtain rfl : x = .visit root := by simpa [trail] using hx
    exact Reachable.root

lemma Inv.finish {v : α} {stack : List (Item α)} {visited : α → Bool} {post : List α}
    (h : Inv succ root (.final v :: stack) visited post) :
    Inv succ root stack visited (v :: post) where
  led := trail_final v stack post ▸ h.led
  visited_iff := trail_final v stack post ▸ h.visited_iff
  nodup := trail_final v stack post ▸ h.nodup
  closed w hw t ht := (h.closed w hw t ht).imp_right fun hmem => by simpa using hmem
  start := h.start.imp_right fun hmem => by simpa using hmem
  reach := trail_final v stack post ▸ h.reach

lemma Inv.skip {v : α} {stack : List (Item α)} {visited : α → Bool} {post : List α}
    (h : Inv succ root (.visit v :: stack) visited post) (hv : visited v = true) :
    Inv succ root stack visited post := by
  have hfinals : finals (trail (.visit v :: stack) post) = finals (trail stack post) := by
    rw [trail_cons, trail, finals_append, finals_append]
    rfl
  have hmem : ∀ {w : α}, (visited w = true ∨ Item.visit w ∈ .visit v :: stack) →
      visited w = true ∨ .visit w ∈ stack := by
    rintro w (hw | hw)
    · exact Or.inl hw
    · rcases List.mem_cons.mp hw with heq | hw
      · cases heq
        exact Or.inl hv
      · exact Or.inr hw
  refine ⟨?_, hfinals ▸ h.visited_iff, hfinals ▸ h.nodup,
    fun w hw t ht => hmem (h.closed w hw t ht), hmem h.start, ?_⟩
  · have hled := h.led
    rw [trail_cons, allLed_append, List.nil_append] at hled
    rw [trail, allLed_append, List.nil_append]
    refine ⟨hled.1, hled.2.2.mono (by simp) fun p hp => ?_⟩
    simpa using hp
  · intro x hx
    apply h.reach
    rw [trail_cons]
    rw [trail] at hx
    rcases List.mem_append.mp hx with hx | hx
    · exact List.mem_append_left _ hx
    · exact List.mem_append_right _ (List.mem_cons_of_mem _ hx)

section Expand

variable [DecidableEq α]

omit [DecidableEq α] in
lemma trail_expand (v : α) (ts : List α) (stack : List (Item α)) (post : List α) :
    trail (ts.reverse.map .visit ++ .final v :: stack) post =
      stack.reverse ++ .final v :: (ts.map .visit ++ post.map .final) := by
  simp [trail, List.map_reverse]

/-- Visiting a node replaces its entry by its final and the unvisited successors. -/
lemma Inv.expand {v : α} {stack : List (Item α)} {visited : α → Bool} {post : List α}
    (h : Inv succ root (.visit v :: stack) visited post) (hv : visited v = false) :
    Inv succ root
      (((succ v).filter fun t => !Function.update visited v true t).reverse.map .visit ++
        .final v :: stack)
      (Function.update visited v true) post := by
  set visited' := Function.update visited v true with hvisited'
  set pushed := (succ v).filter fun t => !visited' t with hpushed
  have hvisited : ∀ w, visited' w = true ↔ w = v ∨ visited w = true := by
    intro w
    by_cases hw : w = v
    · simp [hvisited', hw]
    · simp [hvisited', hw]
  have hsub : ∀ t ∈ pushed, t ∈ succ v := fun t ht => (List.mem_filter.mp ht).1
  have hold : finals (trail (.visit v :: stack) post) = finals stack.reverse ++ post := by
    rw [trail_cons, finals_append]
    exact congrArg _ (finals_map_final post)
  have hnew : finals (trail (pushed.reverse.map .visit ++ .final v :: stack) post) =
      finals stack.reverse ++ v :: post := by
    have hcons : finals (.final v :: (pushed.map .visit ++ post.map .final)) =
        v :: finals (pushed.map .visit ++ post.map .final) := rfl
    rw [trail_expand, finals_append, hcons, finals_append, finals_map_visit, finals_map_final,
      List.nil_append]
  have hreach := h.reach (.visit v) (by simp [trail])
  have hmem : ∀ {w : α}, (visited w = true ∨ Item.visit w ∈ .visit v :: stack) →
      visited' w = true ∨
        .visit w ∈ pushed.reverse.map Item.visit ++ .final v :: stack := by
    rintro w (hw | hw)
    · exact Or.inl ((hvisited w).mpr (Or.inr hw))
    · rcases List.mem_cons.mp hw with heq | hw
      · cases heq
        exact Or.inl ((hvisited v).mpr (Or.inl rfl))
      · exact Or.inr (by simp [hw])
  refine ⟨?_, ?_, ?_, ?_, hmem h.start, ?_⟩
  · have hled := h.led
    rw [trail_cons, allLed_append, List.nil_append] at hled
    rw [trail_expand, allLed_append, List.nil_append]
    refine ⟨hled.1, hled.2.1, allLed_append.mpr ⟨allLed_pushed hsub (by simp), ?_⟩⟩
    refine hled.2.2.mono (by simp) fun p hp => ?_
    have hp : Item.final p ∈ stack := by simpa using hp
    simp [hp]
  · intro w
    rw [hnew, hvisited, h.visited_iff w, hold, List.mem_append, List.mem_append, List.mem_cons]
    tauto
  · have hnotin : v ∉ finals stack.reverse ++ post := by
      rw [← hold, ← h.visited_iff v, hv]
      exact Bool.false_ne_true
    rw [hnew]
    have hperm : (finals stack.reverse ++ v :: post).Perm (v :: (finals stack.reverse ++ post)) :=
      List.perm_middle
    exact hperm.nodup_iff.mpr (List.nodup_cons.mpr ⟨hnotin, hold ▸ h.nodup⟩)
  · intro w hw t ht
    rcases (hvisited w).mp hw with rfl | hw
    · by_cases hvt : visited' t = true
      · exact Or.inl hvt
      · have htp : t ∈ pushed := List.mem_filter.mpr ⟨ht, by simpa using hvt⟩
        exact Or.inr (by simp [htp])
    · exact hmem (h.closed w hw t ht)
  · intro x hx
    rw [trail_expand] at hx
    rcases List.mem_append.mp hx with hx | hx
    · exact h.reach x (by rw [trail_cons]; exact List.mem_append_left _ hx)
    · rcases List.mem_cons.mp hx with rfl | hx
      · exact hreach
      · rcases List.mem_append.mp hx with hx | hx
        · obtain ⟨t, ht, rfl⟩ := List.mem_map.mp hx
          exact hreach.step (hsub t ht)
        · apply h.reach x
          rw [trail_cons]
          exact List.mem_append_right _ (List.mem_cons_of_mem _ hx)

end Expand

end Trail

/-! ### The search finds a reverse postorder -/

/-- What the finished list is: the reachable nodes without repetition, the root first,
and before every other node one of its predecessors. -/
structure IsReversePostorder (succ : α → List α) (root : α) (order : List α) : Prop where
  nodup : order.Nodup
  head : order.head? = some root
  mem_iff : ∀ b, b ∈ order ↔ Reachable (fun b c => c ∈ succ b) root b
  pred : ∀ A b B, order = A ++ b :: B → A ≠ [] → ∃ p ∈ A, b ∈ succ p

lemma Inv.isReversePostorder {succ : α → List α} {root : α} {visited : α → Bool} {post : List α}
    (h : Inv succ root [] visited post) : IsReversePostorder succ root post := by
  have htrail : trail [] post = post.map .final := rfl
  have hfinals : finals (trail [] post) = post := by rw [htrail, finals_map_final]
  have hvisited : ∀ v, visited v = true ↔ v ∈ post := fun v => by rw [h.visited_iff v, hfinals]
  have hroot : visited root = true := h.start.resolve_right (by simp)
  have hpred : ∀ A b B, post = A ++ b :: B → A ≠ [] → ∃ p ∈ A, b ∈ succ p := by
    rintro A b B rfl hA
    have hled := h.led
    rw [htrail, List.map_append, List.map_cons] at hled
    obtain ⟨p, hp, hb⟩ := hled.exists_pred (by simpa using hA)
    exact ⟨p, by simpa using hp, hb⟩
  refine ⟨hfinals ▸ h.nodup, ?_, fun b => ⟨fun hb => ?_, fun hb => ?_⟩, hpred⟩
  · cases post with
    | nil => simpa using (hvisited root).mp hroot
    | cons b rest =>
      obtain ⟨_, hb⟩ | ⟨p, hp, _⟩ := h.led.1
      · exact congrArg some hb
      · simp at hp
  · exact h.reach (.final b) (by rw [htrail]; exact List.mem_map.mpr ⟨b, hb, rfl⟩)
  · rw [← hvisited]
    refine Reachable.rec_on_step (P := fun b => visited b = true) hroot (fun b c _ hb he => ?_) hb
    exact (h.closed b hb c he).resolve_right (by simp)

section Termination

variable [DecidableEq α] {succ : α → List α} {root : α}

/-- The stack entries still to be pushed. -/
def work (succ : α → List α) (nodes : List α) (visited : α → Bool) : ℕ :=
  (nodes.map fun v => if visited v then 0 else (succ v).length + 1).sum

lemma work_update (succ : α → List α) {nodes : List α} {visited : α → Bool} {v : α} (hv : v ∈ nodes)
    (hnew : visited v = false) :
    work succ nodes (Function.update visited v true) + (succ v).length + 1 ≤
      work succ nodes visited := by
  have hle : ∀ l : List α, work succ l (Function.update visited v true) ≤ work succ l visited := by
    intro l
    apply List.sum_le_sum
    intro w _
    by_cases hw : w = v
    · simp [hw]
    · simp [hw]
  induction nodes with
  | nil => cases hv
  | cons w nodes ih =>
    have hcons : ∀ u : α → Bool, work succ (w :: nodes) u =
        (if u w then 0 else (succ w).length + 1) + work succ nodes u := fun u => by
      rw [work, List.map_cons, List.sum_cons, work]
    rw [hcons, hcons]
    by_cases hw : w = v
    · subst hw
      have := hle nodes
      simp only [Function.update_self, if_true, hnew, Bool.false_eq_true, if_false]
      omega
    · have hv' : v ∈ nodes := (List.mem_cons.mp hv).resolve_left (Ne.symm hw)
      have := ih hv'
      rw [Function.update_of_ne hw]
      omega

/-- Enough rounds give a reverse postorder. -/
lemma search_spec {nodes : List α} (hclosed : ∀ v ∈ nodes, ∀ t ∈ succ v, t ∈ nodes) (fuel : ℕ) :
    ∀ {stack : List (Item α)} {visited : α → Bool} {post : List α},
      Inv succ root stack visited post → (∀ x ∈ stack, x.node ∈ nodes) →
      work succ nodes visited + stack.length ≤ fuel →
      ∃ order, search succ fuel stack visited post = some order ∧
        IsReversePostorder succ root order := by
  induction fuel with
  | zero =>
    intro stack visited post hinv _ hfuel
    obtain rfl : stack = [] := List.length_eq_zero_iff.mp (by omega)
    exact ⟨post, rfl, hinv.isReversePostorder⟩
  | succ fuel ih =>
    intro stack visited post hinv hnodes hfuel
    cases stack with
    | nil => exact ⟨post, rfl, hinv.isReversePostorder⟩
    | cons x stack =>
      rw [List.length_cons] at hfuel
      have hrest : ∀ x ∈ stack, x.node ∈ nodes := fun y hy => hnodes y (List.mem_cons_of_mem _ hy)
      cases x with
      | final v =>
        rw [search]
        exact ih hinv.finish hrest (by omega)
      | visit v =>
        have hv : v ∈ nodes := hnodes _ List.mem_cons_self
        rw [search]
        split_ifs with hvis
        · exact ih (hinv.skip hvis) hrest (by omega)
        · have hvis : visited v = false := by simpa using hvis
          refine ih (hinv.expand hvis) ?_ ?_
          · intro x hx
            rcases List.mem_append.mp hx with hx | hx
            · obtain ⟨t, ht, rfl⟩ := List.mem_map.mp hx
              exact hclosed v hv t (List.mem_filter.mp (List.mem_reverse.mp ht)).1
            · rcases List.mem_cons.mp hx with rfl | hx
              · exact hv
              · exact hrest x hx
          · have hwork := work_update succ hv hvis
            have hlen := List.length_filter_le
              (fun t => !Function.update visited v true t) (succ v)
            simp only [List.length_append, List.length_map, List.length_reverse, List.length_cons]
            omega

/-- **The search from the root.** -/
theorem search_root {nodes : List α} (hclosed : ∀ v ∈ nodes, ∀ t ∈ succ v, t ∈ nodes)
    (hroot : root ∈ nodes) {fuel : ℕ} (hfuel : work succ nodes (fun _ => false) + 1 ≤ fuel) :
    ∃ order, search succ fuel [.visit root] (fun _ => false) [] = some order ∧
      IsReversePostorder succ root order := by
  refine search_spec hclosed fuel inv_init ?_ hfuel
  intro x hx
  obtain rfl : x = .visit root := by simpa using hx
  exact hroot

end Termination

/-! ### Renaming -/

/-- An entry under another name. -/
def Item.map {β : Type*} (φ : α → β) : Item α → Item β
  | .visit v => .visit (φ v)
  | .final v => .final (φ v)

/-- The search follows a renaming of the nodes: it finishes the renamed nodes in the same
order. -/
lemma search_map {β : Type*} [DecidableEq α] [DecidableEq β] {succ : α → List α}
    {succ' : β → List β} {φ : α → β} {N : α → Prop}
    (hinj : ∀ a b, N a → N b → φ a = φ b → a = b) (hclosed : ∀ a, N a → ∀ t ∈ succ a, N t)
    (hsucc : ∀ a, N a → succ' (φ a) = (succ a).map φ) (fuel : ℕ) :
    ∀ (stack : List (Item α)) (visited : α → Bool) (visited' : β → Bool) (post : List α),
      (∀ x ∈ stack, N x.node) → (∀ a, N a → visited' (φ a) = visited a) →
      search succ' fuel (stack.map (Item.map φ)) visited' (post.map φ) =
        (search succ fuel stack visited post).map (List.map φ) := by
  induction fuel with
  | zero =>
    intro stack visited visited' post _ _
    cases stack <;> rfl
  | succ fuel ih =>
    intro stack visited visited' post hstack hvis
    cases stack with
    | nil => rfl
    | cons x stack =>
      have hrest : ∀ y ∈ stack, N y.node := fun y hy => hstack y (List.mem_cons_of_mem _ hy)
      have hx := hstack x List.mem_cons_self
      cases x with
      | final v =>
        rw [List.map_cons, Item.map, search, search, ← List.map_cons]
        exact ih stack visited visited' (v :: post) hrest hvis
      | visit v =>
        have hv : N v := hx
        rw [List.map_cons, Item.map, search, search, hvis v hv]
        by_cases hseen : visited v
        · rw [if_pos hseen, if_pos hseen]
          exact ih stack visited visited' post hrest hvis
        · rw [if_neg hseen, if_neg hseen]
          have hvis' : ∀ a, N a → Function.update visited' (φ v) true (φ a) =
              Function.update visited v true a := by
            intro a ha
            by_cases hav : a = v
            · rw [hav, Function.update_self, Function.update_self]
            · rw [Function.update_of_ne hav,
                Function.update_of_ne fun h => hav (hinj a v ha hv h)]
              exact hvis a ha
          have hpushed : ((succ' (φ v)).filter fun t => !Function.update visited' (φ v) true t) =
              ((succ v).filter fun t => !Function.update visited v true t).map φ := by
            rw [hsucc v hv, List.filter_map]
            refine congrArg (List.map φ) (List.filter_congr fun t ht => ?_)
            exact congrArg Bool.not (hvis' t (hclosed v hv t ht))
          dsimp only
          rw [hpushed, ← ih _ _ _ post ?_ hvis']
          · simp [Item.map, Function.comp_def, List.map_reverse]
          · intro y hy
            rcases List.mem_append.mp hy with hy | hy
            · obtain ⟨t, ht, rfl⟩ := List.mem_map.mp hy
              exact hclosed v hv t (List.mem_filter.mp (List.mem_reverse.mp ht)).1
            · rcases List.mem_cons.mp hy with rfl | hy
              · exact hv
              · exact hrest y hy

end DepthFirst
