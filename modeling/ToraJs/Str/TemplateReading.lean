import ToraJs.Str.ReplaceSubst

/-!
# The reading of a template

A template is read as a list of pieces, once by the units themselves and once by their first
bytes.  The two readings are the same exactly where `readsTrue` accepts the template.  Where they
differ, three different units for the match and its surroundings tell their expansions apart.
-/

namespace Torajs.Str

/-- A piece of an expansion. -/
inductive Piece
  | unit (u : ℕ)
  | matched
  | before
  | after
  deriving DecidableEq, Repr

/-- What a piece stands for. -/
def Piece.expand (matched pre post : List ℕ) : Piece → List ℕ
  | .unit u => [u]
  | .matched => matched
  | .before => pre
  | .after => post

/-- The pieces of a template whose units are classified by `low`. -/
def readTemplate (low : ℕ → ℕ) : List ℕ → List Piece
  | [] => []
  | [u] => [.unit u]
  | u :: c :: r =>
    if low u = 0x24 then
      match namedPiece (low c) (.unit u) Piece.matched .before .after with
      | some p => p :: readTemplate low r
      | none => .unit u :: readTemplate low (c :: r)
    else .unit u :: readTemplate low (c :: r)

/-- The reading by the first bytes. -/
def lowReading (t : List ℕ) : List Piece := readTemplate (· % 256) t

/-- The reading by the units. -/
def exactReading (t : List ℕ) : List Piece := readTemplate id t

/-! ### One step of a reading -/

variable {low : ℕ → ℕ} {u c : ℕ} {r : List ℕ}

lemma readTemplate_of_ne (h : low u ≠ 0x24) (r : List ℕ) :
    readTemplate low (u :: r) = .unit u :: readTemplate low r := by
  cases r with
  | nil => rfl
  | cons c r => rw [readTemplate, if_neg h]

lemma readTemplate_of_some {p : Piece} (h : low u = 0x24)
    (hp : namedPiece (low c) (.unit u) Piece.matched .before .after = some p) (r : List ℕ) :
    readTemplate low (u :: c :: r) = p :: readTemplate low r := by
  rw [readTemplate, if_pos h, hp]

lemma readTemplate_of_none (h : low u = 0x24)
    (hp : namedPiece (low c) (.unit u) Piece.matched .before .after = none) (r : List ℕ) :
    readTemplate low (u :: c :: r) = .unit u :: readTemplate low (c :: r) := by
  rw [readTemplate, if_pos h, hp]

lemma lowReading_of_ne (h : u % 256 ≠ 0x24) (r : List ℕ) :
    lowReading (u :: r) = .unit u :: lowReading r :=
  @readTemplate_of_ne (· % 256) u h r

lemma lowReading_of_some {p : Piece} (h : u % 256 = 0x24)
    (hp : namedPiece (c % 256) (.unit u) Piece.matched .before .after = some p) (r : List ℕ) :
    lowReading (u :: c :: r) = p :: lowReading r :=
  @readTemplate_of_some (· % 256) u c p h hp r

lemma lowReading_of_none (h : u % 256 = 0x24)
    (hp : namedPiece (c % 256) (.unit u) Piece.matched .before .after = none) (r : List ℕ) :
    lowReading (u :: c :: r) = .unit u :: lowReading (c :: r) :=
  @readTemplate_of_none (· % 256) u c h hp r

lemma exactReading_of_ne (h : u ≠ 0x24) (r : List ℕ) :
    exactReading (u :: r) = .unit u :: exactReading r :=
  @readTemplate_of_ne id u h r

lemma exactReading_of_some {p : Piece}
    (hp : namedPiece c (.unit 0x24) Piece.matched .before .after = some p) (r : List ℕ) :
    exactReading (0x24 :: c :: r) = p :: exactReading r :=
  @readTemplate_of_some id 0x24 c p rfl hp r

lemma exactReading_of_none
    (hp : namedPiece c (.unit 0x24) Piece.matched .before .after = none) (r : List ℕ) :
    exactReading (0x24 :: c :: r) = .unit 0x24 :: exactReading (c :: r) :=
  @readTemplate_of_none id 0x24 c rfl hp r

/-- A reading has a piece for each unit at most. -/
lemma length_readTemplate_le (low : ℕ → ℕ) (t : List ℕ) :
    (readTemplate low t).length ≤ t.length := by
  fun_induction readTemplate low t with
  | case1 => exact le_rfl
  | case2 u => exact le_rfl
  | case3 u c r hu p hp ih =>
    rw [List.length_cons, List.length_cons, List.length_cons]
    omega
  | case4 u c r hu hp ih =>
    rw [List.length_cons, List.length_cons]
    omega
  | case5 u c r hu ih =>
    rw [List.length_cons, List.length_cons]
    omega

/-- The characters of a reference are four. -/
lemma namedPiece_eq_some {α : Type} {p unit matched pre post : α}
    (h : namedPiece c unit matched pre post = some p) :
    c = 0x24 ∧ p = unit ∨ c = 0x26 ∧ p = matched ∨ c = 0x60 ∧ p = pre ∨ c = 0x27 ∧ p = post := by
  rw [namedPiece] at h
  split_ifs at h with h1 h2 h3 h4
  · exact Or.inl ⟨h1, (Option.some.inj h).symm⟩
  · exact Or.inr (Or.inl ⟨h2, (Option.some.inj h).symm⟩)
  · exact Or.inr (Or.inr (Or.inl ⟨h3, (Option.some.inj h).symm⟩))
  · exact Or.inr (Or.inr (Or.inr ⟨h4, (Option.some.inj h).symm⟩))

lemma namedPiece_eq_none {α : Type} {unit matched pre post : α} :
    namedPiece c unit matched pre post = none ↔
      c ≠ 0x24 ∧ c ≠ 0x26 ∧ c ≠ 0x60 ∧ c ≠ 0x27 := by
  rw [namedPiece]
  split_ifs with h1 h2 h3 h4
  · exact ⟨nofun, fun h => absurd h1 h.1⟩
  · exact ⟨nofun, fun h => absurd h2 h.2.1⟩
  · exact ⟨nofun, fun h => absurd h3 h.2.2.1⟩
  · exact ⟨nofun, fun h => absurd h4 h.2.2.2⟩
  · exact ⟨fun _ => ⟨h1, h2, h3, h4⟩, fun _ => rfl⟩

lemma isLowTrigger_eq_false :
    isLowTrigger c = false ↔ c % 256 ≠ 0x24 ∧ c % 256 ≠ 0x26 ∧ c % 256 ≠ 0x60 ∧
      c % 256 ≠ 0x27 := by
  simp only [isLowTrigger, Bool.or_eq_false_iff, beq_eq_false_iff_ne, and_assoc]

lemma isTrigger_eq_false :
    isTrigger c = false ↔ c ≠ 0x24 ∧ c ≠ 0x26 ∧ c ≠ 0x60 ∧ c ≠ 0x27 := by
  simp only [isTrigger, Bool.or_eq_false_iff, beq_eq_false_iff_ne, and_assoc]

lemma isLowTrigger_of_isTrigger (h : isTrigger c = true) : isLowTrigger c = true := by
  simp only [isTrigger, Bool.or_eq_true, beq_iff_eq] at h
  rcases h with ((rfl | rfl) | rfl) | rfl <;> rfl

/-- `GetSubstitution` expands the pieces of the exact reading. -/
lemma getSubstitution_eq (matched pre post t : List ℕ) :
    getSubstitution matched pre post t =
      (exactReading t).flatMap (Piece.expand matched pre post) := by
  fun_induction getSubstitution matched pre post t with
  | case1 r ih => rw [ih]; rfl
  | case2 r ih => rw [ih]; rfl
  | case3 r ih => rw [ih]; rfl
  | case4 r ih => rw [ih]; rfl
  | case5 u r h1 h2 h3 h4 ih =>
    rw [ih]
    by_cases hu : u = 0x24
    · cases r with
      | nil => rfl
      | cons c r =>
        subst hu
        have hnone : namedPiece c (Piece.unit 0x24) Piece.matched .before .after = none :=
          namedPiece_eq_none.mpr ⟨fun h => h1 r rfl (by rw [h]), fun h => h2 r rfl (by rw [h]),
            fun h => h3 r rfl (by rw [h]), fun h => h4 r rfl (by rw [h])⟩
        rw [exactReading_of_none hnone]
        rfl
    · rw [exactReading_of_ne hu]
      rfl
  | case6 => rfl

/-! ### One step of the condition -/

lemma readsTrue_dollar (v : ℕ) (r : List ℕ) : readsTrue false (0x24 :: v :: r) =
    ((isTrigger v || !isLowTrigger v) && readsTrue false r) := rfl

lemma readsTrue_low (hne : u ≠ 0x24) (hlow : u % 256 = 0x24) (r : List ℕ) :
    readsTrue false (u :: r) = readsTrue true r := by
  rw [readsTrue.eq_def]
  simp only [hne, hlow, if_false, if_true]

lemma readsTrue_unit (hlow : u % 256 ≠ 0x24) (r : List ℕ) :
    readsTrue false (u :: r) = readsTrue false r := by
  have hne : u ≠ 0x24 := fun h => hlow (by rw [h])
  rw [readsTrue.eq_def]
  simp only [hne, hlow, if_false]

lemma readsTrue_pair (v : ℕ) (r : List ℕ) :
    readsTrue true (0x24 :: v :: r) = ((v == 0x24) && readsTrue true r) := rfl

lemma readsTrue_behind (hne : u ≠ 0x24) (r : List ℕ) :
    readsTrue true (u :: r) = (!isLowTrigger u && readsTrue false r) := by
  rw [readsTrue.eq_def]
  simp only [hne, if_false]

/-- What is no character of a reference by its first byte is none by itself. -/
lemma isTrigger_eq_false_of_low (h : isLowTrigger c = false) : isTrigger c = false := by
  by_contra htrue
  rw [isLowTrigger_of_isTrigger (Bool.eq_true_of_not_eq_false htrue)] at h
  cases h

/-! ### Accepted templates are read the same -/

lemma lowReading_of_readsTrue (t : List ℕ) :
    (readsTrue false t = true → lowReading t = exactReading t) ∧
      ∀ u, u % 256 = 0x24 → readsTrue true t = true →
        lowReading (u :: t) = .unit u :: exactReading t := by
  induction hlen : t.length using Nat.strong_induction_on generalizing t with
  | _ n ih =>
    subst hlen
    cases t with
    | nil => exact ⟨fun _ => rfl, fun u hu _ => rfl⟩
    | cons v r =>
      have ihr := ih r.length (Nat.lt_succ_self _) r rfl
      constructor
      · intro htrue
        by_cases hlow : v % 256 = 0x24
        · by_cases hv : v = 0x24
          · subst hv
            cases r with
            | nil => rfl
            | cons c r =>
              have ihr' := (ih r.length (by simp only [List.length_cons]; omega) r rfl).1
              rw [readsTrue_dollar, Bool.and_eq_true, Bool.or_eq_true] at htrue
              rcases htrue with ⟨htrigger | hlow, hr⟩
              · simp only [isTrigger, Bool.or_eq_true, beq_iff_eq] at htrigger
                rcases htrigger with ((rfl | rfl) | rfl) | rfl <;>
                  exact congrArg (_ :: ·) (ihr' hr)
              · rw [Bool.not_eq_true'] at hlow
                have hlow' := isLowTrigger_eq_false.mp hlow
                have hne' := isTrigger_eq_false.mp (isTrigger_eq_false_of_low hlow)
                rw [lowReading_of_none rfl (namedPiece_eq_none.mpr hlow'),
                  exactReading_of_none (namedPiece_eq_none.mpr hne'),
                  lowReading_of_ne hlow'.1, exactReading_of_ne hne'.1]
                exact congrArg (_ :: _ :: ·) (ihr' hr)
          · rw [readsTrue_low hv hlow] at htrue
            rw [exactReading_of_ne hv]
            exact ihr.2 v hlow htrue
        · have hv : v ≠ 0x24 := fun h => hlow (by rw [h])
          rw [readsTrue_unit hlow] at htrue
          rw [lowReading_of_ne hlow, exactReading_of_ne hv]
          exact congrArg (_ :: ·) (ihr.1 htrue)
      · intro u hu htrue
        by_cases hv : v = 0x24
        · subst hv
          cases r with
          | nil => cases htrue
          | cons c r =>
            have ihr' := (ih r.length (by simp only [List.length_cons]; omega) r rfl).2
            rw [readsTrue_pair, Bool.and_eq_true, beq_iff_eq] at htrue
            obtain ⟨rfl, hr⟩ := htrue
            rw [lowReading_of_some hu rfl]
            exact congrArg (_ :: ·) (ihr' 0x24 rfl hr)
        · rw [readsTrue_behind hv, Bool.and_eq_true, Bool.not_eq_true'] at htrue
          have hlow' := isLowTrigger_eq_false.mp htrue.1
          rw [lowReading_of_none hu (namedPiece_eq_none.mpr hlow'), lowReading_of_ne hlow'.1,
            exactReading_of_ne hv]
          exact congrArg (_ :: _ :: ·) (ihr.1 htrue.2)

/-! ### Other templates are not -/

/-- The step of the reading by first bytes at a unit that looks like `$`. -/
lemma lowReading_step (hu : u % 256 = 0x24) (c : ℕ) (r : List ℕ) :
    (isLowTrigger c = true ∧ ∃ p, lowReading (u :: c :: r) = p :: lowReading r ∧
      (c % 256 = 0x24 ∧ p = .unit u ∨ c % 256 ≠ 0x24 ∧ ∀ w, p ≠ .unit w)) ∨
    isLowTrigger c = false ∧ lowReading (u :: c :: r) = .unit u :: lowReading (c :: r) := by
  cases hp : namedPiece (c % 256) (Piece.unit u) .matched .before .after with
  | none =>
    refine Or.inr ⟨isLowTrigger_eq_false.mpr (namedPiece_eq_none.mp hp), ?_⟩
    exact lowReading_of_none hu hp r
  | some p =>
    refine Or.inl ⟨?_, p, lowReading_of_some hu hp r, ?_⟩
    · by_contra hlow
      rw [namedPiece_eq_none.mpr (isLowTrigger_eq_false.mp (Bool.eq_false_of_not_eq_true hlow))]
        at hp
      cases hp
    · rcases namedPiece_eq_some hp with ⟨hc, rfl⟩ | ⟨hc, rfl⟩ | ⟨hc, rfl⟩ | ⟨hc, rfl⟩
      · exact Or.inl ⟨hc, rfl⟩
      · exact Or.inr ⟨by omega, nofun⟩
      · exact Or.inr ⟨by omega, nofun⟩
      · exact Or.inr ⟨by omega, nofun⟩

/-- The step of the exact reading at a `$`. -/
lemma exactReading_step (c : ℕ) (r : List ℕ) :
    (isTrigger c = true ∧ ∃ p, exactReading (0x24 :: c :: r) = p :: exactReading r ∧
      (c = 0x24 ∧ p = .unit 0x24 ∨ c ≠ 0x24 ∧ c < 256 ∧ ∀ w, p ≠ .unit w)) ∨
    isTrigger c = false ∧ exactReading (0x24 :: c :: r) = .unit 0x24 :: .unit c :: exactReading r := by
  cases hp : namedPiece c (Piece.unit 0x24) .matched .before .after with
  | none =>
    have hne := namedPiece_eq_none.mp hp
    refine Or.inr ⟨isTrigger_eq_false.mpr hne, ?_⟩
    rw [exactReading_of_none hp, exactReading_of_ne hne.1]
  | some p =>
    refine Or.inl ⟨?_, p, exactReading_of_some hp r, ?_⟩
    · by_contra hne
      rw [namedPiece_eq_none.mpr (isTrigger_eq_false.mp (Bool.eq_false_of_not_eq_true hne))] at hp
      cases hp
    · rcases namedPiece_eq_some hp with ⟨hc, rfl⟩ | ⟨hc, rfl⟩ | ⟨hc, rfl⟩ | ⟨hc, rfl⟩
      · exact Or.inl ⟨hc, rfl⟩
      · exact Or.inr ⟨by omega, by omega, nofun⟩
      · exact Or.inr ⟨by omega, by omega, nofun⟩
      · exact Or.inr ⟨by omega, by omega, nofun⟩

/-- Reading by first bytes gives no more pieces, also where it has taken one `$` too many. -/
lemma length_lowReading_le (t : List ℕ) :
    (lowReading t).length ≤ (exactReading t).length ∧
      (lowReading t).length ≤ (exactReading (0x24 :: t)).length := by
  induction hlen : t.length using Nat.strong_induction_on generalizing t with
  | _ n ih =>
    subst hlen
    cases t with
    | nil => exact ⟨le_rfl, Nat.zero_le _⟩
    | cons v r =>
      obtain ⟨ihr, ihr'⟩ := ih r.length (Nat.lt_succ_self _) r rfl
      -- one unit more on the exact side, whatever the unit is
      have hmore : ∀ (c : ℕ) (r' : List ℕ), r'.length ≤ r.length →
          (lowReading r').length ≤ (exactReading (c :: r')).length := by
        intro c r' hle
        obtain ⟨hr, hr'⟩ := ih r'.length (Nat.lt_succ_of_le hle) r' rfl
        by_cases hc : c = 0x24
        · rw [hc]
          exact hr'
        · rw [exactReading_of_ne hc, List.length_cons]
          omega
      have hfirst : (lowReading (v :: r)).length ≤ (exactReading (v :: r)).length := by
        by_cases hlow : v % 256 = 0x24
        · cases r with
          | nil => exact le_rfl
          | cons c r =>
            have hexact : (exactReading (c :: r)).length + 1 ≤ (exactReading (v :: c :: r)).length ∨
                v = 0x24 ∧ isTrigger c = true ∧
                  (exactReading (v :: c :: r)).length = (exactReading r).length + 1 := by
              by_cases hv : v = 0x24
              · subst hv
                rcases exactReading_step c r with ⟨htrigger, p, hp, -⟩ | ⟨hnone, hp⟩
                · exact Or.inr ⟨rfl, htrigger, by rw [hp, List.length_cons]⟩
                · rw [hp, exactReading_of_ne (isTrigger_eq_false.mp hnone).1]
                  exact Or.inl le_rfl
              · rw [exactReading_of_ne hv]
                exact Or.inl le_rfl
            have hr := hmore c r (Nat.le_succ _)
            have hr' := (ih r.length (by simp only [List.length_cons]; omega) r rfl).1
            rcases lowReading_step hlow c r with ⟨-, p, hp, -⟩ | ⟨hnone, hp⟩ <;>
              rw [hp, List.length_cons]
            · omega
            · rcases hexact with hexact | ⟨-, htrigger, -⟩
              · omega
              · rw [isLowTrigger_of_isTrigger htrigger] at hnone
                cases hnone
        · rw [lowReading_of_ne hlow, exactReading_of_ne fun h => hlow (by rw [h]),
            List.length_cons, List.length_cons]
          omega
      refine ⟨hfirst, ?_⟩
      rcases exactReading_step v r with ⟨-, p, hp, hkind⟩ | ⟨hnone, hp⟩
      · rw [hp, List.length_cons]
        rcases hkind with ⟨rfl, -⟩ | ⟨hv, hbyte, -⟩
        · cases r with
          | nil => exact le_rfl
          | cons c r =>
            rcases lowReading_step (u := 0x24) rfl c r with ⟨-, p, hp, -⟩ | ⟨-, hp⟩ <;>
              rw [hp, List.length_cons]
            · have := hmore c r (Nat.le_succ _)
              omega
            · omega
        · rw [lowReading_of_ne (by omega), List.length_cons]
          omega
      · rw [hp, ← exactReading_of_ne (isTrigger_eq_false.mp hnone).1, List.length_cons]
        omega

/-- A reading by first bytes that has taken one unit too many stays behind. -/
lemma lowReading_ne_cons (p : Piece) (t : List ℕ) : lowReading t ≠ p :: exactReading t := by
  intro h
  have := (length_lowReading_le t).1
  rw [h, List.length_cons] at this
  omega

/-- The first piece is the first unit itself or no unit. -/
lemma head_lowReading (v : ℕ) (r : List ℕ) :
    ∃ p rest, lowReading (v :: r) = p :: rest ∧ ∀ w, p = .unit w → w = v := by
  by_cases hlow : v % 256 = 0x24
  · cases r with
    | nil => exact ⟨.unit v, [], rfl, fun w hw => (Piece.unit.inj hw).symm⟩
    | cons c r =>
      rcases lowReading_step hlow c r with ⟨-, p, hp, ⟨-, rfl⟩ | ⟨-, hp'⟩⟩ | ⟨-, hp⟩
      · exact ⟨_, _, hp, fun w hw => (Piece.unit.inj hw).symm⟩
      · exact ⟨_, _, hp, fun w hw => absurd hw (hp' w)⟩
      · exact ⟨_, _, hp, fun w hw => (Piece.unit.inj hw).symm⟩
  · exact ⟨_, _, lowReading_of_ne hlow r, fun w hw => (Piece.unit.inj hw).symm⟩

lemma lowReading_ne_of_not_readsTrue (t : List ℕ) :
    (readsTrue false t = false → lowReading t ≠ exactReading t) ∧
      ∀ u, u % 256 = 0x24 → readsTrue true t = false →
        lowReading (u :: t) ≠ .unit u :: exactReading t := by
  induction hlen : t.length using Nat.strong_induction_on generalizing t with
  | _ n ih =>
    subst hlen
    cases t with
    | nil => exact ⟨nofun, nofun⟩
    | cons v r =>
      have ihr := ih r.length (Nat.lt_succ_self _) r rfl
      constructor
      · intro hfalse
        by_cases hlow : v % 256 = 0x24
        · by_cases hv : v = 0x24
          · subst hv
            cases r with
            | nil => cases hfalse
            | cons c r =>
              have ihr' := (ih r.length (by simp only [List.length_cons]; omega) r rfl).1
              rw [readsTrue_dollar] at hfalse
              rcases exactReading_step c r with ⟨htrigger, -⟩ | ⟨hnone, hexact⟩
              · rw [htrigger, Bool.true_or, Bool.true_and] at hfalse
                simp only [isTrigger, Bool.or_eq_true, beq_iff_eq] at htrigger
                rcases htrigger with ((rfl | rfl) | rfl) | rfl <;>
                  exact fun h => ihr' hfalse (List.cons.inj h).2
              · rw [hexact]
                rcases lowReading_step hlow c r with ⟨-, p, hp, ⟨-, rfl⟩ | ⟨-, hp'⟩⟩ | ⟨hlow', hp⟩
                · rw [hp]
                  exact fun h => lowReading_ne_cons _ r (List.cons.inj h).2
                · rw [hp]
                  exact fun h => hp' _ (List.cons.inj h).1
                · rw [hnone, hlow', Bool.false_or, Bool.not_false, Bool.true_and] at hfalse
                  rw [hp, lowReading_of_ne (isLowTrigger_eq_false.mp hlow').1]
                  exact fun h => ihr' hfalse (List.cons.inj (List.cons.inj h).2).2
          · rw [readsTrue_low hv hlow] at hfalse
            rw [exactReading_of_ne hv]
            exact ihr.2 v hlow hfalse
        · rw [readsTrue_unit hlow] at hfalse
          rw [lowReading_of_ne hlow, exactReading_of_ne fun h => hlow (by rw [h])]
          exact fun h => ihr.1 hfalse (List.cons.inj h).2
      · intro u hu hfalse
        by_cases hv : v = 0x24
        · subst hv
          have htaken : ∀ r, lowReading (u :: 0x24 :: r) = .unit u :: lowReading r :=
            fun r => lowReading_of_some hu rfl r
          rw [htaken]
          cases r with
          | nil => exact fun h => nomatch (List.cons.inj h).2
          | cons c r =>
            have ihr' := (ih r.length (by simp only [List.length_cons]; omega) r rfl).2
            intro h
            have hrest := (List.cons.inj h).2
            by_cases hc : c = 0x24
            · subst hc
              rw [readsTrue_pair, beq_self_eq_true, Bool.true_and] at hfalse
              exact ihr' 0x24 rfl hfalse hrest
            · obtain ⟨p, rest, hhead, hunit⟩ := head_lowReading c r
              rw [hhead] at hrest
              rcases exactReading_step c r with ⟨-, q, hq, ⟨hc', -⟩ | ⟨-, hbyte, hq'⟩⟩ | ⟨-, hq⟩
              · exact hc hc'
              · rw [lowReading_of_ne (by omega)] at hhead
                rw [hq, ← (List.cons.inj hhead).1] at hrest
                exact hq' c (List.cons.inj hrest).1.symm
              · rw [hq] at hrest
                exact hc (hunit _ (List.cons.inj hrest).1).symm
        · rw [readsTrue_behind hv] at hfalse
          rw [exactReading_of_ne hv]
          rcases lowReading_step hu v r with ⟨-, p, hp, ⟨-, rfl⟩ | ⟨-, hp'⟩⟩ | ⟨hlow', hp⟩
          · rw [hp]
            exact fun h => lowReading_ne_cons _ r (List.cons.inj h).2
          · rw [hp]
            exact fun h => hp' _ (List.cons.inj h).1
          · rw [hlow', Bool.not_false, Bool.true_and] at hfalse
            rw [hp, lowReading_of_ne (isLowTrigger_eq_false.mp hlow').1]
            exact fun h => ihr.1 hfalse (List.cons.inj (List.cons.inj h).2).2

/-- **The readings are the same exactly on the accepted templates.** -/
theorem lowReading_eq_iff (t : List ℕ) :
    lowReading t = exactReading t ↔ readsTrue false t = true := by
  refine ⟨fun h => ?_, (lowReading_of_readsTrue t).1⟩
  by_contra hfalse
  exact (lowReading_ne_of_not_readsTrue t).1 (Bool.eq_false_of_not_eq_true hfalse) h

/-- Units of Latin-1 are their first bytes. -/
lemma readsTrue_of_latin1 {t : List ℕ} (h : ∀ u ∈ t, u < 256) :
    lowReading t = exactReading t := by
  have hlow : ∀ (low : ℕ → ℕ), (∀ u ∈ t, low u = u) → readTemplate low t = exactReading t := by
    clear h
    intro low
    fun_induction readTemplate low t with
    | case1 => exact fun _ => rfl
    | case2 u => exact fun _ => rfl
    | case3 u c r hu p hp ih =>
      intro h
      rw [h u List.mem_cons_self] at hu
      rw [h c (List.mem_cons_of_mem _ List.mem_cons_self)] at hp
      rw [ih fun w hw => h w (List.mem_cons_of_mem _ (List.mem_cons_of_mem _ hw))]
      exact (@readTemplate_of_some id u c p hu hp r).symm
    | case4 u c r hu hp ih =>
      intro h
      rw [h u List.mem_cons_self] at hu
      rw [h c (List.mem_cons_of_mem _ List.mem_cons_self)] at hp
      rw [ih fun w hw => h w (List.mem_cons_of_mem _ hw)]
      exact (@readTemplate_of_none id u c hu hp r).symm
    | case5 u c r hu ih =>
      intro h
      rw [h u List.mem_cons_self] at hu
      rw [ih fun w hw => h w (List.mem_cons_of_mem _ hw)]
      exact (@readTemplate_of_ne id u hu (c :: r)).symm
  exact hlow _ fun u hu => Nat.mod_eq_of_lt (h u hu)

/-! ### Telling pieces apart -/

/-- The unit a piece stands for, when the match and its surroundings are one unit each. -/
def Piece.single (a b c : ℕ) : Piece → ℕ
  | .unit u => u
  | .matched => a
  | .before => b
  | .after => c

lemma flatMap_expand_single (a b c : ℕ) (ps : List Piece) :
    ps.flatMap (Piece.expand [a] [b] [c]) = ps.map (Piece.single a b c) := by
  induction ps with
  | nil => rfl
  | cons p ps ih =>
    rw [List.flatMap_cons, List.map_cons, ih]
    cases p <;> rfl

/-- Two triples of units tell all pieces apart. -/
lemma eq_of_map_single {ps qs : List Piece}
    (h1 : ps.map (Piece.single 1 2 3) = qs.map (Piece.single 1 2 3))
    (h2 : ps.map (Piece.single 4 5 6) = qs.map (Piece.single 4 5 6)) : ps = qs := by
  induction ps generalizing qs with
  | nil => exact (List.map_eq_nil_iff.mp h1.symm).symm
  | cons p ps ih =>
    cases qs with
    | nil => cases h1
    | cons q qs =>
      rw [List.map_cons, List.map_cons] at h1 h2
      obtain ⟨hp1, hps1⟩ := List.cons.inj h1
      obtain ⟨hp2, hps2⟩ := List.cons.inj h2
      rw [ih hps1 hps2]
      congr 1
      cases p <;> cases q <;> simp only [Piece.single] at hp1 hp2 <;> first | rfl | omega | skip
      rw [hp1]

end Torajs.Str
