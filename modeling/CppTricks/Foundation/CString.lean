import Mathlib.Data.List.Basic

/-! Strings in memory, up to a terminator `z`. -/
namespace Foundation

variable {α : Type} [DecidableEq α] {z : α} {text : List α}

def nul : Char := Char.ofNat 0

/-- What is in front of the terminator. -/
def cString (z : α) (cells : List α) : List α := cells.takeWhile (· ≠ z)

def strlen (z : α) (cells : List α) : ℕ := (cString z cells).length

theorem cString_append (h : z ∉ text) (rest : List α) : cString z (text ++ z :: rest) = text := by
  unfold cString
  rw [List.takeWhile_append_of_pos, List.takeWhile_cons_of_neg, List.append_nil]
  · simp
  · intro c hc
    rw [decide_eq_true_eq]
    exact fun heq => h (heq ▸ hc)

theorem strlen_append (h : z ∉ text) (rest : List α) :
    strlen z (text ++ z :: rest) = text.length := by
  unfold strlen
  rw [cString_append h]

end Foundation
