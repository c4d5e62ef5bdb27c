import Mathlib.Data.Nat.Digits.Defs
import Mathlib.Tactic.Linarith
import Mathlib.Tactic.Ring

/-!
# The layout of a BigInt

A BigInt is a sign and a magnitude, the magnitude a little-endian list of 64-bit limbs.
The invariant of the layout is that the top limb is not zero and that zero carries no
sign; under it a BigInt is determined by the integer it denotes.
-/

namespace Torajs

/-- A BigInt cell: `sign` is set on negative numbers, `words` are the limbs from the least
significant one up. -/
structure BigInt where
  sign : Bool
  words : List ℕ
deriving DecidableEq, Repr

namespace BigInt

/-- One more than the largest limb. -/
def limbBase : ℕ := 2 ^ 64

/-- Every limb fits its word. -/
def LimbsOk (ws : List ℕ) : Prop := ∀ w ∈ ws, w < limbBase

instance (ws : List ℕ) : Decidable (LimbsOk ws) := inferInstanceAs (Decidable (∀ w ∈ ws, _))

/-- The natural number a list of limbs denotes. -/
def limbsVal (ws : List ℕ) : ℕ := Nat.ofDigits limbBase ws

/-- The integer a BigInt denotes. -/
def toInt (b : BigInt) : ℤ := if b.sign then -(limbsVal b.words : ℤ) else limbsVal b.words

/-- The top limb, where there is one, is not zero. -/
def NoTopZero (ws : List ℕ) : Prop := ws.getLast? ≠ some 0

instance (ws : List ℕ) : Decidable (NoTopZero ws) := inferInstanceAs (Decidable (_ ≠ _))

/-- The canonical form: limbs in range, no zero top limb, no signed zero. -/
structure Canonical (b : BigInt) : Prop where
  limbs : LimbsOk b.words
  top : NoTopZero b.words
  zero : b.words = [] → b.sign = false

instance (b : BigInt) : Decidable b.Canonical :=
  decidable_of_iff (LimbsOk b.words ∧ NoTopZero b.words ∧ (b.words = [] → b.sign = false))
    ⟨fun h => ⟨h.1, h.2.1, h.2.2⟩, fun h => ⟨h.limbs, h.top, h.zero⟩⟩

/-! ### Values of limb lists -/

@[simp] lemma limbsVal_nil : limbsVal [] = 0 := rfl

@[simp] lemma limbsVal_cons (w : ℕ) (ws : List ℕ) :
    limbsVal (w :: ws) = w + limbBase * limbsVal ws := by
  simp [limbsVal, Nat.ofDigits_cons]

lemma limbBase_pos : 0 < limbBase := Nat.two_pow_pos 64

/-- Limbs without a top zero are the digits of their value. -/
lemma digits_limbsVal {ws : List ℕ} (hok : LimbsOk ws) (htop : NoTopZero ws) :
    Nat.digits limbBase (limbsVal ws) = ws := by
  apply Nat.digits_ofDigits limbBase (by norm_num [limbBase]) ws hok
  intro hne hlast
  exact htop (by rw [List.getLast?_eq_some_getLast hne, hlast])

/-- Limb lists without a top zero that denote one number are equal. -/
lemma limbs_eq_of_val_eq {ws vs : List ℕ} (hws : LimbsOk ws) (hwt : NoTopZero ws)
    (hvs : LimbsOk vs) (hvt : NoTopZero vs) (h : limbsVal ws = limbsVal vs) : ws = vs := by
  rw [← digits_limbsVal hws hwt, h, digits_limbsVal hvs hvt]

/-- A limb list without a top zero denotes zero only when it is empty. -/
lemma limbsVal_eq_zero_iff {ws : List ℕ} (hok : LimbsOk ws) (htop : NoTopZero ws) :
    limbsVal ws = 0 ↔ ws = [] := by
  constructor
  · intro h
    exact limbs_eq_of_val_eq hok htop (by simp [LimbsOk]) (by simp [NoTopZero]) (by simpa using h)
  · rintro rfl
    rfl

/-- Under the invariant a BigInt is determined by the integer it denotes. -/
theorem eq_of_toInt_eq {a b : BigInt} (ha : a.Canonical) (hb : b.Canonical)
    (h : a.toInt = b.toInt) : a = b := by
  have hval : limbsVal a.words = limbsVal b.words := by
    unfold toInt at h
    split_ifs at h <;> omega
  have hwords := limbs_eq_of_val_eq ha.limbs ha.top hb.limbs hb.top hval
  have hsign : a.sign = b.sign := by
    by_cases hz : a.words = []
    · rw [ha.zero hz, hb.zero (hwords ▸ hz)]
    · have hne : limbsVal a.words ≠ 0 := mt (limbsVal_eq_zero_iff ha.limbs ha.top).mp hz
      unfold toInt at h
      cases hsa : a.sign <;> cases hsb : b.sign <;>
        simp only [hsa, hsb, if_true, Bool.false_eq_true, if_false] at h ⊢ <;> omega
  cases a
  cases b
  simp_all

end BigInt

end Torajs
