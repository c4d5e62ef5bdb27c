import Mathlib.Data.List.Perm.Subperm
import Mathlib.Data.List.Nodup
import Mathlib.Data.Option.Basic
import Mathlib.Data.Set.Insert

/-!
# Sequentialising a parallel copy

A list of pending moves is one parallel assignment: every destination is to receive
the argument that its move had before any of them ran.  The loop below emits a move
whose destination no other pending move reads; when there is none, it parks the first
destination's value in a temporary and lets the readers of that destination read the
temporary.

Nothing here knows what a location holds or what code is: a `Backend` says how emitted
code runs, and the rule `Shuffle.sequentialize_spec` needs one fact about the emission
of a single move and one about parking.
-/

namespace ParallelCopy

/-- A pending move: `arg` goes to `dst`, and is read from `src` when it sits in a
location. -/
structure Move (L A : Type) where
  dst : L
  src : Option L
  arg : A

section Loop

variable {L A I : Type} [DecidableEq L]

/-- Some move other than the `i`-th reads the location. -/
def readByOther (ms : List (Move L A)) (i : ℕ) (l : L) : Bool :=
  (ms.eraseIdx i).any fun m => m.src == some l

/-- The first move whose destination no other move reads. -/
def ready (ms : List (Move L A)) : Option ℕ :=
  (List.range ms.length).find? fun i =>
    match ms[i]? with
    | some m => !readByOther ms i m.dst
    | none => false

/-- Every reader of `x` reads `y` instead. -/
def redirect (x y : L) (ms : List (Move L A)) : List (Move L A) :=
  ms.map fun m => if m.src = some x then { m with src := some y } else m

/-- The loop over the pending moves.  `emit` and `park` give code, or fail; parking
also fails when the temporary is still read. -/
def sequentialize (emit : Move L A → Option (List I)) (park : L → Option (L × List I)) :
    ℕ → List (Move L A) → Option (List I)
  | _, [] => some []
  | 0, _ :: _ => none
  | fuel + 1, m :: ms =>
    match ready (m :: ms) with
    | some i => do
      let next ← (m :: ms)[i]?
      let code ← emit next
      let rest ← sequentialize emit park fuel ((m :: ms).eraseIdx i)
      return code ++ rest
    | none => do
      let (y, code) ← park m.dst
      if (m :: ms).any (fun m' => m'.src == some y) then none
      else
        let rest ← sequentialize emit park fuel (redirect m.dst y (m :: ms))
        return code ++ rest

/-! ### Which move comes next -/

/-- The chosen move's destination is read by no other move. -/
lemma ready_some {ms : List (Move L A)} {i : ℕ} (h : ready ms = some i) :
    ∃ m, ms[i]? = some m ∧ ∀ m' ∈ ms.eraseIdx i, m'.src ≠ some m.dst := by
  have hi := List.find?_some h
  cases hm : ms[i]? with
  | none => simp [hm] at hi
  | some m =>
    refine ⟨m, rfl, fun m' hm' hsrc => ?_⟩
    have hread : readByOther ms i m.dst = true :=
      List.any_eq_true.mpr ⟨m', hm', by simpa using hsrc⟩
    simp [hm, hread] at hi

/-- When every destination is read by another move, every destination is read. -/
lemma ready_none {ms : List (Move L A)} (h : ready ms = none) {m : Move L A} (hm : m ∈ ms) :
    ∃ m' ∈ ms, m'.src = some m.dst := by
  obtain ⟨i, hi, rfl⟩ := List.getElem_of_mem hm
  have hblocked := List.find?_eq_none.mp h i (List.mem_range.mpr hi)
  simp only [List.getElem?_eq_getElem hi, Bool.not_eq_true', Bool.not_eq_false] at hblocked
  obtain ⟨m', hm', hsrc⟩ := List.any_eq_true.mp hblocked
  exact ⟨m', List.mem_of_mem_eraseIdx hm', by simpa using hsrc⟩

/-- Then every move reads some destination: there are as many readers as destinations,
and the destinations are distinct. -/
lemma src_mem_of_ready_none {ms : List (Move L A)} (hnd : (ms.map Move.dst).Nodup)
    (h : ready ms = none) {m : Move L A} (hm : m ∈ ms) : ∃ m' ∈ ms, m.src = some m'.dst := by
  have hsub : ms.map (fun m => some m.dst) ⊆ ms.map Move.src := by
    intro o ho
    obtain ⟨m₁, hm₁, rfl⟩ := List.mem_map.mp ho
    obtain ⟨m', hm', hsrc⟩ := ready_none h hm₁
    exact List.mem_map.mpr ⟨m', hm', hsrc⟩
  have hnd' : (ms.map fun m => some m.dst).Nodup := by
    have := hnd.map (f := some) (Option.some_injective L)
    rwa [List.map_map] at this
  have hperm : (ms.map fun m => some m.dst).Perm (ms.map Move.src) :=
    (List.subperm_of_subset hnd' hsub).perm_of_length_le (by simp)
  have hmem : m.src ∈ ms.map fun m => some m.dst :=
    hperm.mem_iff.mpr (List.mem_map.mpr ⟨m, hm, rfl⟩)
  obtain ⟨m', hm', heq⟩ := List.mem_map.mp hmem
  exact ⟨m', hm', heq.symm⟩

/-! ### Parking -/

lemma map_dst_redirect (x y : L) (ms : List (Move L A)) :
    (redirect x y ms).map Move.dst = ms.map Move.dst := by
  rw [redirect, List.map_map]
  apply List.map_congr_left
  intro m _
  simp only [Function.comp_apply]
  split <;> rfl

lemma mem_redirect {x y : L} {ms : List (Move L A)} {m' : Move L A}
    (h : m' ∈ redirect x y ms) :
    ∃ m ∈ ms, m'.dst = m.dst ∧ m'.arg = m.arg ∧
      (m.src = some x ∧ m'.src = some y ∨ m.src ≠ some x ∧ m'.src = m.src) := by
  obtain ⟨m, hm, rfl⟩ := List.mem_map.mp h
  refine ⟨m, hm, ?_⟩
  by_cases hx : m.src = some x
  · simp [hx]
  · simp [hx]

/-- Once the readers of the first destination are redirected, the first move is next. -/
lemma ready_redirect {m : Move L A} {ms : List (Move L A)} {y : L} (hy : y ≠ m.dst) :
    ready (redirect m.dst y (m :: ms)) = some 0 := by
  have hfree : readByOther (redirect m.dst y (m :: ms)) 0 m.dst = false := by
    rw [readByOther, List.any_eq_false]
    intro m' hm' hsrc
    obtain ⟨m₁, _, _, _, hcase⟩ := mem_redirect (List.mem_of_mem_eraseIdx hm')
    have hsrc : m'.src = some m.dst := by simpa using hsrc
    rcases hcase with ⟨_, h⟩ | ⟨hne, h⟩
    · exact hy (Option.some.inj (h ▸ hsrc))
    · exact hne (h ▸ hsrc)
  have hhead : ∃ m₁, (redirect m.dst y (m :: ms))[0]? = some m₁ ∧ m₁.dst = m.dst := by
    refine ⟨_, rfl, ?_⟩
    dsimp only
    split <;> rfl
  obtain ⟨m₁, hm₁, hdst⟩ := hhead
  have hlen : (redirect m.dst y (m :: ms)).length = ms.length + 1 := by simp [redirect]
  rw [ready, hlen, List.range_succ_eq_map, List.find?_cons]
  simp [hm₁, hdst, hfree]

end Loop

/-! ### Running the emitted code -/

/-- How code acts on machine states, and which locations a run may have changed.
`Keeps X s t` says that `t` agrees with `s` outside the locations of `X`. -/
structure Backend (σ L V I : Type) where
  run : List I → σ → σ
  run_nil : ∀ s, run [] s = s
  run_append : ∀ a b s, run (a ++ b) s = run b (run a s)
  read : σ → L → V
  Keeps : Set L → σ → σ → Prop
  keeps_refl : ∀ X s, Keeps X s s
  keeps_trans : ∀ {X s t u}, Keeps X s t → Keeps X t u → Keeps X s u
  keeps_mono : ∀ {X Y s t}, X ⊆ Y → Keeps X s t → Keeps Y s t
  keeps_read : ∀ {X s t l}, Keeps X s t → l ∉ X → read t l = read s l

/-- What the emission of single moves and of parking copies provides.  Arguments are
wanted in the locations `lanes`; emitting a move may overwrite `scratch` besides the
destination, and parking overwrites one location of `temps`.  `Sits s src a` says that
the argument `a` is still to be had from `src` in the state `s`. -/
structure Shuffle {σ L V I : Type} (B : Backend σ L V I) (A : Type) where
  lanes : Set L
  scratch : Set L
  temps : Set L
  lanes_scratch : ∀ l ∈ lanes, l ∉ scratch
  lanes_temps : ∀ l ∈ lanes, l ∉ temps
  temps_scratch : ∀ l ∈ temps, l ∉ scratch
  Sits : σ → Option L → A → Prop
  want : L → A → V
  sits_keeps : ∀ {X s t src a}, Sits s src a → B.Keeps X s t →
    X ⊆ lanes ∪ scratch ∪ temps → (∀ l, src = some l → l ∉ X) → Sits t src a
  emit : Move L A → Option (List I)
  emit_spec : ∀ m s, m.dst ∈ lanes → Sits s m.src m.arg → ∃ code, emit m = some code ∧
    B.read (B.run code s) m.dst = want m.dst m.arg ∧
    B.Keeps (insert m.dst scratch) s (B.run code s)
  park : L → Option (L × List I)
  park_spec : ∀ l s, l ∈ lanes → ∃ y code, park l = some (y, code) ∧ y ∈ temps ∧
    B.Keeps {y} s (B.run code s) ∧
    ∀ a, Sits s (some l) a → Sits (B.run code s) (some y) a

namespace Shuffle

variable {σ L V I A : Type} [DecidableEq L] {B : Backend σ L V I}

/-- The state is ready for the pending moves: the destinations are distinct lanes, and
every argument is still where its move reads it. -/
structure Pending (S : Shuffle B A) (s : σ) (ms : List (Move L A)) : Prop where
  nodup : (ms.map Move.dst).Nodup
  lane : ∀ m ∈ ms, m.dst ∈ S.lanes
  source : ∀ m ∈ ms, ∀ l, m.src = some l → l ∉ S.scratch
  sits : ∀ m ∈ ms, S.Sits s m.src m.arg

/-- The locations that the pending moves may change. -/
def writes (S : Shuffle B A) (ms : List (Move L A)) : Set L :=
  {l | ∃ m ∈ ms, m.dst = l} ∪ S.scratch ∪ S.temps

/-- One round with a move whose destination no other move reads. -/
lemma place_step (S : Shuffle B A) {s : σ} {ms : List (Move L A)} {i : ℕ}
    (h : S.Pending s ms) (hi : ready ms = some i) :
    ∃ m code, ms[i]? = some m ∧ S.emit m = some code ∧
      B.read (B.run code s) m.dst = S.want m.dst m.arg ∧
      B.Keeps (insert m.dst S.scratch) s (B.run code s) ∧
      S.Pending (B.run code s) (ms.eraseIdx i) := by
  obtain ⟨m, hm, hfree⟩ := ready_some hi
  have hmem : m ∈ ms := List.mem_of_getElem? hm
  obtain ⟨code, hcode, hread, hkeeps⟩ := S.emit_spec m s (h.lane m hmem) (h.sits m hmem)
  refine ⟨m, code, hm, hcode, hread, hkeeps, ?_, ?_, ?_, ?_⟩
  · rw [← List.eraseIdx_map]
    exact h.nodup.sublist (List.eraseIdx_sublist _ _)
  · exact fun m' hm' => h.lane m' (List.mem_of_mem_eraseIdx hm')
  · exact fun m' hm' => h.source m' (List.mem_of_mem_eraseIdx hm')
  · intro m' hm'
    have hmem' := List.mem_of_mem_eraseIdx hm'
    refine S.sits_keeps (h.sits m' hmem') hkeeps ?_ ?_
    · rintro l (rfl | hl)
      · exact Or.inl (Or.inl (h.lane m hmem))
      · exact Or.inl (Or.inr hl)
    · rintro l hl (rfl | hl')
      · exact hfree m' hm' hl
      · exact h.source m' hmem' l hl hl'

/-- One round with a cycle: the temporary is not read by any pending move. -/
lemma park_step (S : Shuffle B A) {s : σ} {m : Move L A} {ms : List (Move L A)}
    (h : S.Pending s (m :: ms)) (hnone : ready (m :: ms) = none) :
    ∃ y code, S.park m.dst = some (y, code) ∧ y ∈ S.temps ∧
      (∀ m' ∈ m :: ms, m'.src ≠ some y) ∧
      B.Keeps {y} s (B.run code s) ∧
      S.Pending (B.run code s) (redirect m.dst y (m :: ms)) := by
  have hlane := h.lane m List.mem_cons_self
  obtain ⟨y, code, hpark, hy, hkeeps, hsits⟩ := S.park_spec m.dst s hlane
  have hunread : ∀ m' ∈ m :: ms, m'.src ≠ some y := by
    intro m' hm' hsrc
    obtain ⟨m₂, hm₂, heq⟩ := src_mem_of_ready_none h.nodup hnone hm'
    rw [hsrc, Option.some.injEq] at heq
    exact S.lanes_temps _ (h.lane m₂ hm₂) (heq ▸ hy)
  refine ⟨y, code, hpark, hy, hunread, hkeeps, ?_, ?_, ?_, ?_⟩
  · rw [map_dst_redirect]
    exact h.nodup
  · intro m' hm'
    obtain ⟨m₁, hm₁, hdst, _⟩ := mem_redirect hm'
    exact hdst ▸ h.lane m₁ hm₁
  · intro m' hm' l hl
    obtain ⟨m₁, hm₁, _, _, ⟨_, hsrc⟩ | ⟨_, hsrc⟩⟩ := mem_redirect hm'
    · rw [hsrc, Option.some.injEq] at hl
      exact hl ▸ S.temps_scratch y hy
    · exact h.source m₁ hm₁ l (hsrc ▸ hl)
  · intro m' hm'
    obtain ⟨m₁, hm₁, _, harg, ⟨hx, hsrc⟩ | ⟨_, hsrc⟩⟩ := mem_redirect hm'
    · rw [hsrc, harg]
      exact hsits _ (hx ▸ h.sits m₁ hm₁)
    · rw [hsrc, harg]
      refine S.sits_keeps (h.sits m₁ hm₁) hkeeps (fun l hl => Or.inr (hl ▸ hy)) ?_
      rintro l hl rfl
      exact hunread m₁ hm₁ hl

/-- What is left to show of the code for the pending moves. -/
def Copies (S : Shuffle B A) (ms : List (Move L A)) (s t : σ) : Prop :=
  (∀ m ∈ ms, B.read t m.dst = S.want m.dst m.arg) ∧ B.Keeps (S.writes ms) s t

omit [DecidableEq L] in
/-- A placed move keeps its value while the rest of the moves run. -/
lemma copies_of_placed (S : Shuffle B A) {s t u : σ} {ms : List (Move L A)} {i : ℕ}
    {m : Move L A} (h : S.Pending s ms) (hm : ms[i]? = some m)
    (hread : B.read t m.dst = S.want m.dst m.arg)
    (hkeeps : B.Keeps (insert m.dst S.scratch) s t) (hrest : S.Copies (ms.eraseIdx i) t u) :
    S.Copies ms s u := by
  have hmem : m ∈ ms := List.mem_of_getElem? hm
  have hperm : ms.Perm (m :: ms.eraseIdx i) := by
    obtain ⟨hi, rfl⟩ := List.getElem?_eq_some_iff.mp hm
    exact (List.getElem_cons_eraseIdx_perm hi).symm
  have hnd : m.dst ∉ (ms.eraseIdx i).map Move.dst := by
    have := (hperm.map Move.dst).nodup_iff.mp h.nodup
    exact (List.nodup_cons.mp this).1
  have hout : m.dst ∉ S.writes (ms.eraseIdx i) := by
    rintro ((⟨m', hm', heq⟩ | hs) | ht)
    · exact hnd (List.mem_map.mpr ⟨m', hm', heq⟩)
    · exact S.lanes_scratch _ (h.lane m hmem) hs
    · exact S.lanes_temps _ (h.lane m hmem) ht
  constructor
  · intro m' hm'
    rcases List.mem_cons.mp (hperm.mem_iff.mp hm') with rfl | hm''
    · rw [B.keeps_read hrest.2 hout, hread]
    · exact hrest.1 m' hm''
  · refine B.keeps_trans (B.keeps_mono ?_ hkeeps) (B.keeps_mono ?_ hrest.2)
    · rintro l (rfl | hl)
      · exact Or.inl (Or.inl ⟨m, hmem, rfl⟩)
      · exact Or.inl (Or.inr hl)
    · rintro l ((⟨m', hm', heq⟩ | hs) | ht)
      · exact Or.inl (Or.inl ⟨m', List.mem_of_mem_eraseIdx hm', heq⟩)
      · exact Or.inl (Or.inr hs)
      · exact Or.inr ht

/-- A round that parks a value changes neither the destinations nor the arguments. -/
lemma copies_of_parked (S : Shuffle B A) {s t u : σ} {ms : List (Move L A)} {x y : L}
    (hy : y ∈ S.temps) (hkeeps : B.Keeps {y} s t) (hrest : S.Copies (redirect x y ms) t u) :
    S.Copies ms s u := by
  have hdst : ∀ m ∈ ms, ∃ m' ∈ redirect x y ms, m'.dst = m.dst ∧ m'.arg = m.arg := by
    intro m hm
    refine ⟨_, List.mem_map.mpr ⟨m, hm, rfl⟩, ?_⟩
    split <;> exact ⟨rfl, rfl⟩
  constructor
  · intro m hm
    obtain ⟨m', hm', hd, ha⟩ := hdst m hm
    rw [← hd, ← ha]
    exact hrest.1 m' hm'
  · refine B.keeps_trans (B.keeps_mono ?_ hkeeps) (B.keeps_mono ?_ hrest.2)
    · rintro l rfl
      exact Or.inr hy
    · rintro l ((⟨m', hm', heq⟩ | hs) | ht)
      · obtain ⟨m, hm, hd, _⟩ := mem_redirect hm'
        exact Or.inl (Or.inl ⟨m, hm, hd ▸ heq⟩)
      · exact Or.inl (Or.inr hs)
      · exact Or.inr ht

/-- A round with a ready move, given the rounds after it. -/
lemma sequentialize_ready (S : Shuffle B A) {ms : List (Move L A)} {s : σ} {fuel i : ℕ}
    (h : S.Pending s ms) (hi : ready ms = some i)
    (ih : ∀ t, S.Pending t (ms.eraseIdx i) → ∃ code,
      sequentialize S.emit S.park fuel (ms.eraseIdx i) = some code ∧
        S.Copies (ms.eraseIdx i) t (B.run code t)) :
    ∃ code, sequentialize S.emit S.park (fuel + 1) ms = some code ∧
      S.Copies ms s (B.run code s) := by
  obtain ⟨m, code, hm, hcode, hread, hkeeps, hpending⟩ := S.place_step h hi
  obtain ⟨rest, hrest, hcopies⟩ := ih _ hpending
  refine ⟨code ++ rest, ?_, ?_⟩
  · cases ms with
    | nil => simp at hm
    | cons m₀ ms => simp [sequentialize, hi, hm, hcode, hrest]
  · rw [B.run_append]
    exact S.copies_of_placed h hm hread hkeeps hcopies

/-- **The loop implements the parallel copy.** Two rounds for each pending move are
enough; every destination ends with its argument, and nothing else changes but the
scratch locations and temporaries. -/
theorem sequentialize_spec (S : Shuffle B A) (n : ℕ) :
    ∀ {ms : List (Move L A)} {s : σ} {fuel : ℕ}, ms.length = n → 2 * n ≤ fuel →
      S.Pending s ms → ∃ code, sequentialize S.emit S.park fuel ms = some code ∧
        S.Copies ms s (B.run code s) := by
  induction n with
  | zero =>
    intro ms s fuel hlen _ _
    obtain rfl := List.length_eq_zero_iff.mp hlen
    refine ⟨[], by cases fuel <;> rfl, ?_⟩
    rw [B.run_nil]
    exact ⟨by simp, B.keeps_refl _ _⟩
  | succ n ih =>
    intro ms s fuel hlen hfuel h
    have hround : ∀ {ms' : List (Move L A)} {t : σ} {f i : ℕ}, ms'.length = n + 1 →
        2 * n ≤ f → S.Pending t ms' → ready ms' = some i →
        ∃ code, sequentialize S.emit S.park (f + 1) ms' = some code ∧
          S.Copies ms' t (B.run code t) := by
      intro ms' t f i hlen' hf hp hi
      have hlt : i < ms'.length := by
        obtain ⟨m, hm, _⟩ := ready_some hi
        exact (List.getElem?_eq_some_iff.mp hm).1
      refine S.sequentialize_ready hp hi fun u hu => ih ?_ hf hu
      rw [List.length_eraseIdx_of_lt hlt, hlen', Nat.add_sub_cancel]
    obtain ⟨m, tl, rfl⟩ : ∃ m tl, ms = m :: tl := List.exists_cons_of_length_eq_add_one hlen
    obtain ⟨fuel, rfl⟩ : ∃ f, fuel = f + 2 := ⟨fuel - 2, by omega⟩
    cases hready : ready (m :: tl) with
    | some i => exact hround hlen (by omega) h hready
    | none =>
      -- after parking, the first move is ready: no move reads its destination any more
      obtain ⟨y, code, hpark, hy, hunread, hkeeps, hpending⟩ := S.park_step h hready
      have hne : y ≠ m.dst := by
        rintro rfl
        exact S.lanes_temps _ (h.lane m List.mem_cons_self) hy
      obtain ⟨rest, hrest, hcopies⟩ := hround (f := fuel)
        (by rw [redirect, List.length_map, hlen]) (by omega) hpending (ready_redirect hne)
      have hany : (m :: tl).any (fun m' => m'.src == some y) = false := by
        rw [List.any_eq_false]
        intro m' hm'
        simpa using hunread m' hm'
      refine ⟨code ++ rest, ?_, ?_⟩
      · rw [sequentialize, hready]
        simp only [hpark, hany, hrest, Option.bind_eq_bind, Option.bind_some, Bool.false_eq_true,
          if_false, Option.pure_def]
      · rw [B.run_append]
        exact S.copies_of_parked hy hkeeps hcopies

end Shuffle

end ParallelCopy
