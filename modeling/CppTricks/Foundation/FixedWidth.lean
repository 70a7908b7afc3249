import Mathlib.Data.Int.Order.Basic

/-! Arithmetic in `int`, where a result out of range is undefined. -/
namespace Foundation

def intMax : ℕ := 2147483647

def int? (x : ℤ) : Option ℤ := if -intMax - 1 ≤ x ∧ x ≤ intMax then some x else none

def nat? (x : ℕ) : Option ℕ := if x ≤ intMax then some x else none

/-- An unsigned number converted to `int`. -/
def toInt (x : ℕ) : ℤ := Int.bmod x 4294967296

/-- The values of `int`. -/
def IsInt (x : ℤ) : Prop := -intMax - 1 ≤ x ∧ x ≤ intMax

instance (x : ℤ) : Decidable (IsInt x) := inferInstanceAs (Decidable (_ ∧ _))

theorem int?_of_isInt {x : ℤ} (h : IsInt x) : int? x = some x := if_pos h

theorem int?_of_not_isInt {x : ℤ} (h : ¬IsInt x) : int? x = none := if_neg h

theorem int?_eq_some {x : ℤ} (hlo : 0 ≤ x + intMax) (hhi : x ≤ intMax) : int? x = some x :=
  if_pos ⟨by omega, hhi⟩

theorem int?_of_nonneg {x : ℤ} (h : 0 ≤ x) : int? x = if x ≤ intMax then some x else none := by
  unfold int?
  congr 1
  exact propext ⟨fun hx => hx.2, fun hx => ⟨by omega, hx⟩⟩

theorem nat?_eq_some {x : ℕ} (h : x ≤ intMax) : nat? x = some x := if_pos h

theorem toInt_eq {x : ℕ} (h : x ≤ intMax) : toInt x = x := by
  have hmax : intMax = 2147483647 := rfl
  unfold toInt
  exact Int.bmod_eq_of_le (by omega) (by omega)

theorem toInt_le (x : ℕ) : toInt x ≤ x := by
  have hmod := Nat.mod_le x 4294967296
  have hmodEmod : (x : ℤ) % (4294967296 : ℕ) = (x % 4294967296 : ℕ) := by omega
  unfold toInt Int.bmod
  dsimp only
  split <;> omega

theorem toInt_lt {x : ℕ} (h : intMax < x) : toInt x < x := by
  have hmax : intMax = 2147483647 := rfl
  have hmod := Nat.mod_lt x (show 0 < 4294967296 by decide)
  have hmodEmod : (x : ℤ) % (4294967296 : ℕ) = (x % 4294967296 : ℕ) := by omega
  unfold toInt Int.bmod
  dsimp only
  split <;> omega

end Foundation
