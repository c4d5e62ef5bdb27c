import ToraJs.Str.Compose

/-!
# Normalization against UAX #15

The loop of the composition keeps the index of the last starter and the greatest class of the
marks behind it.  With these it finds out what is blocked among the marks, but a starter behind
marks it takes as not blocked.  A text is normalized as UAX #15 asks for exactly when no such
starter has a composite with the last starter.
-/

namespace Torajs.Str

open ClassOrder

variable {T : NormTables}

/-! ### The loop -/

/-- What the state of the loop says about the code points written: where the last starter is, and
the greatest class behind it. -/
inductive Tracks (T : NormTables) : ComposeState → Prop
  | marks {st : ComposeState} (hw : st.lastStarterW = none)
      (h : ∀ y ∈ st.out, T.lookupCcc y ≠ 0) : Tracks T st
  | starter {st : ComposeState} {pre between : List ℕ} {s : ℕ}
      (hw : st.lastStarterW = some pre.length) (hs : IsLastStarter T st.out pre s between)
      (hle : ∀ b ∈ between, T.lookupCcc b ≤ st.maxCccSinceStarter)
      (hmax : st.maxCccSinceStarter = 0 ∨ ∃ b ∈ between, T.lookupCcc b = st.maxCccSinceStarter) :
      Tracks T st

/-- A starter that has a composite with the last starter, behind marks. -/
def ClashAt (T : NormTables) (xs : List ℕ) (c : ℕ) : Prop :=
  ∃ pre s between, IsLastStarter T xs pre s between ∧ between ≠ [] ∧ T.lookupCcc c = 0 ∧
    (primaryComposite T s c).isSome = true

/-- A text in which, when it is composed by the definition, a starter arrives that has a composite
with the last starter while marks stand between the two. -/
def Clash (T : NormTables) (ds : List ℕ) : Prop :=
  ∃ xs c ys zs, ds = xs ++ c :: ys ∧ IsComposition T xs zs ∧ ClashAt T zs c

/-- The loop combines a character with the last starter when it finds it not blocked. -/
lemma combineStarter_some {st : ComposeState} {pre between : List ℕ} {s : ℕ}
    (hw : st.lastStarterW = some pre.length) (hs : IsLastStarter T st.out pre s between) (c : ℕ) :
    combineStarter T st c =
      if T.lookupCcc c ≠ 0 ∧ st.maxCccSinceStarter ≥ T.lookupCcc c then none
      else (primaryComposite T s c).map fun p => pre ++ p :: between := by
  have hget : st.out[pre.length]? = some s := by
    rw [hs.split]
    simp
  have hset : ∀ p, st.out.set pre.length p = pre ++ p :: between := by
    intro p
    rw [hs.split]
    simp
  simp only [combineStarter, hw, Option.bind_eq_bind, Option.bind_some, hget, hset]
  split_ifs
  · rfl
  · cases primaryComposite T s c <;> rfl

/-- Without a starter nothing is combined. -/
lemma combineStarter_none {st : ComposeState} (hw : st.lastStarterW = none) (c : ℕ) :
    combineStarter T st c = none := by
  simp [combineStarter, hw]

/-- A character that is written is tracked. -/
lemma Tracks.keep {st : ComposeState} (h : Tracks T st) {c : ℕ}
    (hnone : combineStarter T st c = none) : Tracks T (composeStep T st c) := by
  simp only [composeStep, hnone]
  by_cases hc : T.lookupCcc c = 0
  · have hs : IsLastStarter T (st.out ++ [c]) st.out c [] := ⟨rfl, hc, by simp⟩
    refine .starter ?_ hs (by simp) ?_
    · rw [if_pos hc]
    · exact Or.inl (if_pos hc)
  · cases h with
    | marks hw hall =>
      refine .marks ?_ fun y hy => ?_
      · dsimp only
        rw [if_neg hc, hw]
      · rcases List.mem_append.mp hy with hy | hy
        · exact hall y hy
        · exact List.mem_singleton.mp hy ▸ hc
    | @starter pre between s hw hs hle hmax =>
      have hs' : IsLastStarter T (st.out ++ [c]) pre s (between ++ [c]) := by
        refine ⟨by rw [hs.split, List.append_assoc, List.cons_append], hs.starter, fun b hb => ?_⟩
        rcases List.mem_append.mp hb with hb | hb
        · exact hs.last b hb
        · exact List.mem_singleton.mp hb ▸ hc
      refine .starter ?_ hs' ?_ ?_
      · dsimp only
        rw [if_neg hc, hw]
      · intro b hb
        dsimp only
        rw [if_neg hc]
        rcases List.mem_append.mp hb with hb | hb
        · have hbmax := hle b hb
          split_ifs <;> omega
        · rw [List.mem_singleton.mp hb]
          split_ifs <;> omega
      · dsimp only
        rw [if_neg hc]
        split_ifs with hgt
        · exact Or.inr ⟨c, by simp, rfl⟩
        · rcases hmax with hzero | ⟨b, hb, hbmax⟩
          · exact Or.inl hzero
          · exact Or.inr ⟨b, List.mem_append_left _ hb, hbmax⟩

/-- The loop keeps track of the last starter. -/
lemma Tracks.step {st : ComposeState} (h : Tracks T st) (c : ℕ) :
    Tracks T (composeStep T st c) := by
  have hkeep : combineStarter T st c = none → Tracks T (composeStep T st c) := h.keep
  cases h with
  | marks hw hall => exact hkeep (combineStarter_none hw c)
  | @starter pre between s hw hs hle hmax =>
    cases hcomb : combineStarter T st c with
    | none => exact hkeep hcomb
    | some out =>
      have hcode := combineStarter_some hw hs c
      rw [hcomb] at hcode
      split_ifs at hcode
      obtain ⟨p, hp, rfl⟩ := Option.map_eq_some_iff.mp hcode.symm
      simp only [composeStep, hcomb]
      exact .starter hw ⟨rfl, primaryComposite_starter hp, hs.last⟩ hle hmax

/-- The loop takes the step of the definition, or there is a clash and it combines the starter
that the definition keeps. -/
lemma composeStep_cases {st : ComposeState} (h : Tracks T st) (c : ℕ) :
    (ComposesTo T st.out c (composeStep T st c).out ∧ ¬ ClashAt T st.out c) ∨
      ∃ pre s between p, IsLastStarter T st.out pre s between ∧ between ≠ [] ∧
        T.lookupCcc c = 0 ∧ primaryComposite T s c = some p ∧
        (composeStep T st c).out = pre ++ p :: between := by
  cases h with
  | marks hw hall =>
    have hno : ∀ pre s between, ¬ IsLastStarter T st.out pre s between := by
      intro pre s between hs
      exact hall s (hs.split ▸ by simp) hs.starter
    refine Or.inl ⟨?_, fun ⟨pre, s, between, hs, _⟩ => hno pre s between hs⟩
    simp only [composeStep, combineStarter_none hw]
    exact .keep fun pre s between hs => absurd hs (hno pre s between)
  | @starter pre between s hw hs hle hmax =>
    have hcode := combineStarter_some hw hs c
    by_cases hclash : between ≠ [] ∧ T.lookupCcc c = 0 ∧ (primaryComposite T s c).isSome = true
    · obtain ⟨hne, hc, hp⟩ := hclash
      obtain ⟨p, hp⟩ := Option.isSome_iff_exists.mp hp
      rw [if_neg (by simp [hc]), hp] at hcode
      refine Or.inr ⟨pre, s, between, p, hs, hne, hc, hp, ?_⟩
      simp only [composeStep, hcode, Option.map_some]
    · have hno : ¬ ClashAt T st.out c := by
        rintro ⟨pre', s', between', hs', hrest⟩
        obtain ⟨rfl, rfl, rfl⟩ := hs.unique hs'
        exact hclash hrest
      refine Or.inl ⟨?_, hno⟩
      have hkeep : Blocked T between c ∨ primaryComposite T s c = none →
          ComposesTo T st.out c (st.out ++ [c]) := by
        intro h
        refine .keep fun pre' s' between' hs' => ?_
        obtain ⟨rfl, rfl, rfl⟩ := hs.unique hs'
        exact h
      by_cases hguard : T.lookupCcc c ≠ 0 ∧ st.maxCccSinceStarter ≥ T.lookupCcc c
      · rw [if_pos hguard] at hcode
        simp only [composeStep, hcode]
        refine hkeep (Or.inl ?_)
        rcases hmax with hzero | ⟨b, hb, hbmax⟩
        · exact absurd hguard.2 (by omega)
        · exact ⟨b, hb, Or.inr (by omega)⟩
      · rw [if_neg hguard] at hcode
        cases hp : primaryComposite T s c with
        | none =>
          rw [hp, Option.map_none] at hcode
          simp only [composeStep, hcode]
          exact hkeep (Or.inr hp)
        | some p =>
          rw [hp, Option.map_some] at hcode
          simp only [composeStep, hcode]
          refine .combine hs ?_ hp
          rintro ⟨b, hb, hzero | hle'⟩
          · exact hs.last b hb hzero
          · have hbmax := hle b hb
            by_cases hc : T.lookupCcc c = 0
            · exact hclash ⟨List.ne_nil_of_mem hb, hc, by rw [hp]; rfl⟩
            · exact hguard ⟨hc, by omega⟩

/-! ### Texts that have come apart -/

/-- The text of the loop has a starter with a longer decomposition where that of the definition
has one that is out of reach. -/
structure Diverged (T : NormTables) (ys zs pre : List ℕ) (s q : ℕ) (rest rest' : List ℕ) : Prop where
  left : ys = pre ++ s :: rest
  right : zs = pre ++ q :: rest'
  passed : ∃ r ∈ rest, T.lookupCcc r = 0
  starter : T.lookupCcc q = 0
  longer : (decomposeRecurse T false s).length < (decomposeRecurse T false q).length

/-- Texts that have come apart are different. -/
lemma Diverged.ne {ys zs pre rest rest' : List ℕ} {s q : ℕ}
    (h : Diverged T ys zs pre s q rest rest') : ys ≠ zs := by
  intro heq
  rw [h.left, h.right, List.append_right_inj, List.cons.injEq] at heq
  have hlonger := h.longer
  rw [heq.1] at hlonger
  exact absurd hlonger (lt_irrefl _)

/-- The definition does not reach a starter that has another one behind it. -/
lemma ComposesTo.of_passed {ys zs pre rest : List ℕ} {s c : ℕ} (h : ComposesTo T ys c zs)
    (hy : ys = pre ++ s :: rest) (hpassed : ∃ r ∈ rest, T.lookupCcc r = 0) :
    ∃ rest', zs = pre ++ s :: rest' ∧ ∃ r ∈ rest', T.lookupCcc r = 0 := by
  obtain ⟨r, hr, hzero⟩ := hpassed
  cases h with
  | keep _ =>
    refine ⟨rest ++ [c], ?_, r, List.mem_append_left _ hr, hzero⟩
    rw [hy, List.append_assoc, List.cons_append]
  | @combine pre' between s' _ p hs hb hp =>
    -- the last starter is in the rest
    have hsplit := hy.symm.trans hs.split
    rcases List.append_eq_append_iff.mp hsplit with ⟨us, hus, hvs⟩ | ⟨us, hus, hvs⟩
    · cases us with
      | nil =>
        rw [List.nil_append, List.cons.injEq] at hvs
        exact absurd hzero (hs.last r (hvs.2 ▸ hr))
      | cons u us =>
        rw [List.cons_append, List.cons.injEq] at hvs
        refine ⟨us ++ p :: between, ?_, p, by simp, primaryComposite_starter hp⟩
        rw [hus, ← hvs.1, List.append_assoc, List.cons_append]
    · cases us with
      | nil =>
        rw [List.nil_append, List.cons.injEq] at hvs
        exact absurd hzero (hs.last r (hvs.2.symm ▸ hr))
      | cons u us =>
        rw [List.cons_append, List.cons.injEq] at hvs
        refine absurd hzero (hs.last r ?_)
        rw [hvs.2]
        simp [hr]

/-- The loop does not change what is in front of its last starter, and at that it adds to the
decomposition. -/
lemma composeStep_of_passed {st : ComposeState} (h : Tracks T st) {c q : ℕ} {pre rest : List ℕ}
    (hout : st.out = pre ++ q :: rest) (hq : T.lookupCcc q = 0) :
    ∃ q' rest', (composeStep T st c).out = pre ++ q' :: rest' ∧ T.lookupCcc q' = 0 ∧
      (decomposeRecurse T false q).length ≤ (decomposeRecurse T false q').length := by
  cases hcomb : combineStarter T st c with
  | none =>
    refine ⟨q, rest ++ [c], ?_, hq, le_rfl⟩
    simp only [composeStep, hcomb]
    rw [hout, List.append_assoc, List.cons_append]
  | some out =>
    have hnext : (composeStep T st c).out = out := by simp only [composeStep, hcomb]
    rw [hnext]
    cases h with
    | marks hw hall =>
      rw [combineStarter_none hw] at hcomb
      exact absurd hcomb (by simp)
    | @starter pre' between s hw hs hle hmax =>
      rw [combineStarter_some hw hs] at hcomb
      split_ifs at hcomb
      obtain ⟨p, hp, rfl⟩ := Option.map_eq_some_iff.mp hcomb
      have hsplit := hout.symm.trans hs.split
      have hlen := congrArg List.length (decomposeRecurse_primaryComposite hp false)
      rw [List.length_append] at hlen
      rcases List.append_eq_append_iff.mp hsplit with ⟨us, hus, hvs⟩ | ⟨us, hus, hvs⟩
      · cases us with
        | nil =>
          rw [List.nil_append, List.cons.injEq] at hvs
          rw [List.append_nil] at hus
          refine ⟨p, between, by rw [hus], primaryComposite_starter hp, ?_⟩
          rw [hvs.1]
          omega
        | cons u us =>
          rw [List.cons_append, List.cons.injEq] at hvs
          refine ⟨q, us ++ p :: between, ?_, hq, le_rfl⟩
          rw [hus, ← hvs.1, List.append_assoc, List.cons_append]
      · cases us with
        | nil =>
          rw [List.nil_append, List.cons.injEq] at hvs
          rw [List.append_nil] at hus
          refine ⟨p, between, by rw [hus], primaryComposite_starter hp, ?_⟩
          rw [← hvs.1]
          omega
        | cons u us =>
          rw [List.cons_append, List.cons.injEq] at hvs
          refine absurd hq (hs.last q ?_)
          rw [hvs.2]
          simp

/-- Texts that have come apart stay apart. -/
lemma Diverged.step {st : ComposeState} (ht : Tracks T st) {ys zs pre rest rest' : List ℕ}
    {s q c : ℕ} (h : Diverged T ys st.out pre s q rest rest') (hc : ComposesTo T ys c zs) :
    ∃ q' us us', Diverged T zs (composeStep T st c).out pre s q' us us' := by
  obtain ⟨us, hus, hpassed⟩ := hc.of_passed h.left h.passed
  obtain ⟨q', us', hus', hq', hle⟩ := composeStep_of_passed ht (c := c) h.right h.starter
  exact ⟨q', us, us', hus, hus', hpassed, hq', lt_of_lt_of_le h.longer hle⟩

/-- At a clash the texts come apart. -/
lemma diverged_of_clash {xs pre between : List ℕ} {s c p : ℕ}
    (hs : IsLastStarter T xs pre s between) (hc : T.lookupCcc c = 0)
    (hp : primaryComposite T s c = some p) (hm : mapping T false c = none) :
    Diverged T (xs ++ [c]) (pre ++ p :: between) pre s p (between ++ [c]) between := by
  have hlen := congrArg List.length (decomposeRecurse_primaryComposite hp false)
  rw [List.length_append, decomposeRecurse_of_none hm, List.length_singleton] at hlen
  refine ⟨?_, rfl, ⟨c, by simp, hc⟩, primaryComposite_starter hp, by omega⟩
  rw [hs.split, List.append_assoc, List.cons_append]

/-! ### Runs -/

/-- A text with one more character clashes when it did before or when that character does. -/
lemma clash_snoc {ds zs : List ℕ} {c : ℕ} (h : IsComposition T ds zs) :
    Clash T (ds ++ [c]) ↔ Clash T ds ∨ ClashAt T zs c := by
  constructor
  · rintro ⟨xs, x, ys, us, heq, hu, hclash⟩
    rcases List.eq_nil_or_concat ys with rfl | ⟨ys, y, rfl⟩
    · obtain ⟨rfl, hx⟩ := List.append_inj' heq rfl
      obtain rfl := List.singleton_inj.mp hx
      exact Or.inr (h.unique hu ▸ hclash)
    · rw [List.concat_eq_append, ← List.cons_append, ← List.append_assoc] at heq
      obtain ⟨rfl, -⟩ := List.append_inj' heq rfl
      exact Or.inl ⟨xs, x, ys, us, rfl, hu, hclash⟩
  · rintro (⟨xs, x, ys, us, rfl, hu, hclash⟩ | hclash)
    · exact ⟨xs, x, ys ++ [c], us, by rw [List.append_assoc, List.cons_append], hu, hclash⟩
    · exact ⟨ds, c, [], zs, rfl, h, hclash⟩

/-- The loop from the first character on. -/
def composeRun (T : NormTables) (c : ℕ) (cs : List ℕ) : ComposeState :=
  cs.foldl (composeStep T) (composeStart T c)

/-- The composition of a text that is not empty. -/
lemma compose_cons (c : ℕ) (cs : List ℕ) : compose T (c :: cs) = (composeRun T c cs).out := by
  cases cs with
  | nil => rfl
  | cons d ds => rfl

/-- The loop keeps track of the last starter throughout. -/
lemma tracks_composeRun (c : ℕ) (cs : List ℕ) : Tracks T (composeRun T c cs) := by
  induction cs using List.reverseRecOn with
  | nil =>
    by_cases hc : T.lookupCcc c = 0
    · have hs : IsLastStarter T [c] [] c [] := ⟨rfl, hc, by simp⟩
      refine .starter ?_ hs (by simp) (Or.inl rfl)
      simp [composeRun, composeStart, hc]
    · refine .marks ?_ fun y hy => List.mem_singleton.mp hy ▸ hc
      simp [composeRun, composeStart, hc]
  | append_singleton cs x ih =>
    unfold composeRun at *
    rw [List.foldl_append, List.foldl_cons, List.foldl_nil]
    exact ih.step x

/-- A first character is composed to itself. -/
lemma isComposition_singleton (c : ℕ) : IsComposition T [c] [c] := by
  have hkeep : ComposesTo T [] c [c] :=
    .keep fun pre s between hs => absurd hs.split (by simp)
  exact .step .nil hkeep

/-- The loop against the definition, over a whole text: they agree as long as there is no clash,
and have come apart from the first one on. -/
theorem composeRun_spec (c : ℕ) (cs : List ℕ) (hm : ∀ x ∈ cs, mapping T false x = none) :
    ∃ ys, IsComposition T (c :: cs) ys ∧
      ((ys = (composeRun T c cs).out ∧ ¬ Clash T (c :: cs)) ∨
        (Clash T (c :: cs) ∧ ∃ pre s q rest rest',
          Diverged T ys (composeRun T c cs).out pre s q rest rest')) := by
  induction cs using List.reverseRecOn with
  | nil =>
    refine ⟨[c], isComposition_singleton c, Or.inl ⟨rfl, ?_⟩⟩
    have hsnoc : Clash T [c] ↔ Clash T [] ∨ ClashAt T [] c := clash_snoc .nil
    rw [hsnoc]
    rintro (⟨xs, x, ys, zs, heq, -⟩ | ⟨pre, s, between, hs, -⟩)
    · exact absurd heq (by simp)
    · exact absurd hs.split (by simp)
  | append_singleton cs x ih =>
    have hx := hm x (by simp)
    have ht := tracks_composeRun (T := T) c cs
    have hrun : composeRun T c (cs ++ [x]) = composeStep T (composeRun T c cs) x := by
      unfold composeRun
      rw [List.foldl_append, List.foldl_cons, List.foldl_nil]
    obtain ⟨ys, hys, h⟩ := ih fun y hy => hm y (List.mem_append_left _ hy)
    rw [hrun, ← List.cons_append, clash_snoc hys]
    rcases h with ⟨rfl, hno⟩ | ⟨hclash, pre, s, q, rest, rest', hdiv⟩
    · rcases composeStep_cases ht x with ⟨hstep, hnone⟩ | ⟨pre, s, between, p, hs, hne, hc, hp, hout⟩
      · exact ⟨_, .step hys hstep, Or.inl ⟨rfl, not_or.mpr ⟨hno, hnone⟩⟩⟩
      · have hkeep : ComposesTo T (composeRun T c cs).out x ((composeRun T c cs).out ++ [x]) := by
          refine .keep fun pre' s' between' hs' => Or.inl ?_
          obtain ⟨rfl, rfl, rfl⟩ := hs.unique hs'
          obtain ⟨b, hb⟩ := List.exists_mem_of_ne_nil _ hne
          exact ⟨b, hb, Or.inr (hc ▸ Nat.zero_le _)⟩
        refine ⟨_, .step hys hkeep, Or.inr ⟨Or.inr ⟨pre, s, between, hs, hne, hc, ?_⟩, ?_⟩⟩
        · rw [hp]
          rfl
        · exact ⟨pre, s, p, _, _, hout ▸ diverged_of_clash hs hc hp hx⟩
    · obtain ⟨zs, hzs⟩ := exists_composesTo T ys x
      obtain ⟨q', us, us', hdiv'⟩ := hdiv.step ht hzs
      exact ⟨zs, .step hys hzs, Or.inr ⟨Or.inl hclash, pre, s, q', us, us', hdiv'⟩⟩

/-- The code composes a text without mappings as the definition does exactly when nothing
clashes. -/
theorem isComposition_compose_iff {ds : List ℕ} (hm : ∀ x ∈ ds, mapping T false x = none) :
    IsComposition T ds (compose T ds) ↔ ¬ Clash T ds := by
  cases ds with
  | nil =>
    refine iff_of_true .nil ?_
    rintro ⟨xs, c, ys, zs, heq, -⟩
    exact absurd heq (by simp)
  | cons c cs =>
    obtain ⟨ys, hys, h⟩ := composeRun_spec c cs fun x hx => hm x (List.mem_cons_of_mem c hx)
    rw [compose_cons]
    rcases h with ⟨rfl, hno⟩ | ⟨hclash, pre, s, q, rest, rest', hdiv⟩
    · exact iff_of_true hys hno
    · refine iff_of_false (fun hcode => ?_) (not_not_intro hclash)
      exact hdiv.ne (hys.unique hcode)

/-! ### Forms -/

/-- A code point without a compatibility mapping has no mapping. -/
lemma mapping_false_of_none {compat : Bool} {x : ℕ} (h : mapping T compat x = none) :
    mapping T false x = none := by
  cases compat with
  | false => exact h
  | true =>
    unfold mapping at *
    split_ifs at h ⊢
    split at h
    · exact absurd h (by simp)
    · rfl

/-- The form that is not composed. -/
def NormForm.decomposed : NormForm → NormForm
  | .nfc | .nfd => .nfd
  | .nfkc | .nfkd => .nfkd

/-- What UAX #15 asks of the normalization of a text: it is the form, normalizing again changes
nothing, it decomposes to the decomposed form, and it may be computed from that. -/
structure MeetsUax15 (T : NormTables) (form : NormForm) (xs : List ℕ) : Prop where
  isForm : IsForm T form xs (normalize T form xs)
  idempotent : normalize T form (normalize T form xs) = normalize T form xs
  decomposed : normalize T form.decomposed (normalize T form xs) =
    normalize T form.decomposed xs
  recomposed : normalize T form (normalize T form.decomposed xs) = normalize T form xs

/-- A clash in the composition that the definition asks for, on the way to a form. -/
def FormClash (T : NormTables) (form : NormForm) (xs : List ℕ) : Prop :=
  form.flags.2 = true ∧ ∃ us ds, IsDecomposition T form.flags.1 xs us ∧
    IsOrderOf T.lookupCcc us ds ∧ Clash T ds

/-- The decomposition is the decomposed form. -/
lemma normalize_decomposed (form : NormForm) (xs : List ℕ) :
    normalize T form.decomposed xs = decompose T form.flags.1 xs := by
  cases form <;> rfl

/-- A form that is not composed is the decomposition. -/
lemma normalize_of_not_compose {form : NormForm} (h : form.flags.2 = false) (xs : List ℕ) :
    normalize T form xs = decompose T form.flags.1 xs := by
  simp [normalize, normalizeWith, h]

/-- A form that is composed is the composition of the decomposition. -/
lemma normalize_of_compose {form : NormForm} (h : form.flags.2 = true) (xs : List ℕ) :
    normalize T form xs = compose T (decompose T form.flags.1 xs) := by
  simp [normalize, normalizeWith, h]

/-- A clash is one in the decomposition. -/
lemma formClash_iff {form : NormForm} {xs : List ℕ} :
    FormClash T form xs ↔ form.flags.2 = true ∧ Clash T (decompose T form.flags.1 xs) := by
  refine and_congr_right fun _ => ⟨?_, fun h => ?_⟩
  · rintro ⟨us, ds, hu, hd, h⟩
    rwa [decompose_eq_order, ← hu.eq_flatMap, ← hd.eq_order]
  · exact ⟨_, _, isDecomposition_flatMap _ xs, isOrderOf_canonicalOrder _, h⟩

/-- The code computes a composed form exactly when nothing clashes. -/
lemma isForm_normalize_iff {form : NormForm} (hf : form.flags.2 = true) (xs : List ℕ) :
    IsForm T form xs (normalize T form xs) ↔ ¬ Clash T (decompose T form.flags.1 xs) := by
  rw [isForm_iff, hf, normalize_of_compose hf]
  exact isComposition_compose_iff fun x hx => mapping_false_of_none (mapping_of_mem_decompose hx)

/-- The normalization of a text meets UAX #15 exactly when there is no clash on the way to the
form. -/
theorem meetsUax15_iff (T : NormTables) (form : NormForm) (xs : List ℕ) :
    MeetsUax15 T form xs ↔ ¬ FormClash T form xs := by
  have hdd := decompose_decompose (T := T) form.flags.1 xs
  rw [formClash_iff]
  cases hf : form.flags.2 with
  | false =>
    have hnorm := fun ys => normalize_of_not_compose (T := T) hf ys
    refine iff_of_true ⟨?_, ?_, ?_, ?_⟩ (by simp)
    · rw [isForm_iff, hf]
      exact hnorm xs
    · rw [hnorm, hnorm, hdd]
    · rw [normalize_decomposed, normalize_decomposed, hnorm, hdd]
    · rw [normalize_decomposed, hnorm, hnorm, hdd]
  | true =>
    have hnorm := fun ys => normalize_of_compose (T := T) hf ys
    have hform := isForm_normalize_iff (T := T) hf xs
    rw [eq_self_iff_true, true_and, ← hform]
    refine ⟨fun h => h.isForm, fun h => ?_⟩
    have hcomp := (isForm_iff.mp h)
    rw [hf, if_pos rfl] at hcomp
    have hback := hcomp.decompose_eq
    refine ⟨h, ?_, ?_, ?_⟩
    · rw [hnorm (normalize T form xs), hback, hnorm xs]
    · rw [normalize_decomposed, normalize_decomposed, hback]
    · rw [normalize_decomposed, hnorm, hnorm, hdd]

/-! ### A letter, a mark and a vowel -/

/-- The rows of the tables for U+1100, U+0301 and U+1161: there is one, for the class of the
mark. -/
def acuteTables : NormTables where
  lookupDecomp _ := none
  lookupCcc cp := if cp = 0x301 then 230 else 0
  lookupComposite _ _ := none
  depth _ := 0
  depth_lt := by simp
  composite_decomp := by simp
  composite_starter := by simp
  composite_not_hangul := by simp
  hangul_starter cp h := by
    refine if_neg fun hcp => ?_
    rw [hcp] at h
    exact absurd h (by decide)
  jamo_decomp := by simp

/-- In a leading consonant, an acute accent and a vowel the code composes a syllable over the
accent. -/
theorem not_meetsUax15_jamo : ¬ MeetsUax15 acuteTables .nfc [0x1100, 0x301, 0x1161] := by
  have hnone : ∀ x ∈ [0x1100, 0x301, 0x1161], mapping acuteTables false x = none := by decide
  have hdecompose : decompose acuteTables false [0x1100, 0x301, 0x1161] =
      [0x1100, 0x301, 0x1161] := by
    rw [decompose, flatMap_decomposeRecurse_of_final hnone]
    decide
  have hfirst := isComposition_singleton (T := acuteTables) 0x1100
  have hcomp : IsComposition acuteTables [0x1100, 0x301] [0x1100, 0x301] := by
    have hlast : IsLastStarter acuteTables [0x1100] [] 0x1100 [] := ⟨rfl, by decide, by simp⟩
    have hkeep : ComposesTo acuteTables [0x1100] 0x301 [0x1100, 0x301] := by
      refine .keep fun pre s between hs => Or.inr ?_
      obtain ⟨-, rfl, -⟩ := hs.unique hlast
      decide
    exact .step hfirst hkeep
  intro h
  refine (isForm_normalize_iff rfl _).mp h.isForm ?_
  exact ⟨[0x1100, 0x301], 0x1161, [], [0x1100, 0x301], hdecompose, hcomp, [], 0x1100, [0x301],
    ⟨rfl, by decide, by decide⟩, by simp, by decide, by decide⟩

end Torajs.Str
