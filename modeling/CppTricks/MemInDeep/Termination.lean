import CppTricks.MemInDeep.Grammar

/-! Every parsing function returns, and leaves a suffix of the tokens it was given. -/
namespace CppTricks.MemInDeep

variable {ν : Type}

/-! ### The tokens left -/

/-- Whatever the function returns, the tokens left are a suffix of `st`. -/
def LeavesSuffix {α : Type} (r : Outcome ν α) (st : Stream ν) : Prop :=
  ∀ x st', r = some (x, st') → st' <:+ st

namespace LeavesSuffix

variable {α β : Type} {st st₁ : Stream ν}

theorem stop (x : Except String α) (h : st₁ <:+ st) :
    LeavesSuffix (some (x, st₁) : Outcome ν α) st := by
  rintro y st' hy
  cases hy
  exact h

theorem andThen {r : Outcome ν α} {rest : α → Stream ν → Outcome ν β} (hr : LeavesSuffix r st)
    (hrest : ∀ v st₁, st₁ <:+ st → LeavesSuffix (rest v st₁) st) :
    LeavesSuffix (r.andThen rest) st := by
  intro x st' hx
  match r, hr, hx with
  | some (.error msg, st₁), hr, hx =>
    cases hx
    exact hr _ _ rfl
  | some (.ok v, st₁), hr, hx => exact hrest v st₁ (hr _ _ rfl) x st' hx

theorem trans {r : Outcome ν α} (hr : LeavesSuffix r st₁) (h : st₁ <:+ st) : LeavesSuffix r st :=
  fun x st' hx => (hr x st' hx).trans h

end LeavesSuffix

theorem getNextToken_suffix (st : Stream ν) : getNextToken st <:+ st := List.tail_suffix st

structure SuffixStable (ν : Type) (fuel : ℕ) : Prop where
  paren : ∀ st : Stream ν, LeavesSuffix (parseParenExpr fuel st) st
  args : ∀ as (st : Stream ν), LeavesSuffix (parseArgs fuel as st) st
  identifier : ∀ name (st : Stream ν), LeavesSuffix (parseIdentifierExpr fuel name st) st
  primary : ∀ st : Stream ν, LeavesSuffix (parsePrimary fuel st) st
  binOpRHS : ∀ p lhs (st : Stream ν), LeavesSuffix (parseBinOpRHS fuel p lhs st) st
  expression : ∀ st : Stream ν, LeavesSuffix (parseExpression fuel st) st

theorem suffixStable (ν : Type) (fuel : ℕ) : SuffixStable ν fuel := by
  induction fuel with
  | zero => constructor <;> intros <;> intro x st' hx <;> cases hx
  | succ fuel ih =>
    have hnext : ∀ {st st₁ : Stream ν}, st₁ <:+ st → getNextToken st₁ <:+ st :=
      fun h => (getNextToken_suffix _).trans h
    constructor
    case paren =>
      intro st
      apply ((ih.expression _).trans (getNextToken_suffix st)).andThen
      intro v st₁ h
      split
      · exact .stop _ (hnext h)
      · exact .stop _ h
    case args =>
      intro as st
      apply (ih.expression st).andThen
      intro v st₁ h
      split
      · exact .stop _ h
      · exact (ih.args _ _).trans (hnext h)
      · exact .stop _ h
    case identifier =>
      intro name st
      rw [parseIdentifierExpr]
      dsimp only
      have hst := getNextToken_suffix st
      split
      · refine LeavesSuffix.andThen ?_ fun args st₁ h => .stop _ (hnext h)
        split
        · exact .stop _ (hnext hst)
        · exact (ih.args _ _).trans (hnext hst)
      · exact .stop _ hst
    case primary =>
      intro st
      rw [parsePrimary]
      split
      · exact ih.identifier _ _
      · exact .stop _ (getNextToken_suffix st)
      · exact ih.paren _
      · exact .stop _ List.suffix_rfl
    case binOpRHS =>
      intro p lhs st
      rw [parseBinOpRHS]
      dsimp only
      split
      · exact .stop _ List.suffix_rfl
      split
      · apply ((ih.primary _).trans (getNextToken_suffix st)).andThen
        intro rhs st₁ h
        refine LeavesSuffix.andThen ?_ fun rhs st₂ h => (ih.binOpRHS _ _ _).trans h
        split
        · exact (ih.binOpRHS _ _ _).trans h
        · exact .stop _ h
      · exact .stop _ List.suffix_rfl
    case expression =>
      intro st
      exact (ih.primary st).andThen fun lhs st₁ h => (ih.binOpRHS _ _ _).trans h

/-! ### Returning -/

def Returns {α : Type} (r : Outcome ν α) : Prop := ∃ x, r = some x

theorem Returns.andThen {α β : Type} {r : Outcome ν α} {rest : α → Stream ν → Outcome ν β}
    (hr : Returns r) (hrest : ∀ v st, r = some (.ok v, st) → Returns (rest v st)) :
    Returns (r.andThen rest) := by
  obtain ⟨⟨res, st⟩, rfl⟩ := hr
  cases res with
  | error msg => exact ⟨_, rfl⟩
  | ok v => exact hrest v st rfl

theorem length_lt_of_parsePrimary {fuel : ℕ} {st st' : Stream ν} {e : ExprAST ν}
    (h : parsePrimary fuel st = some (.ok e, st')) : st'.length < st.length := by
  obtain ⟨ts, rfl, hd⟩ := (sound ν fuel).primary _ _ _ h
  have hpos := List.length_pos_iff.mpr (hd.ne_nil (by simp))
  rw [List.length_append]
  omega

theorem length_lt_of_parseExpression {fuel : ℕ} {st st' : Stream ν} {e : ExprAST ν}
    (h : parseExpression fuel st = some (.ok e, st')) : st'.length < st.length := by
  obtain ⟨ts, rfl, hd, -⟩ := (sound ν fuel).expression _ _ _ h
  have hpos := List.length_pos_iff.mpr (hd.ne_nil (by simp))
  rw [List.length_append]
  omega

theorem length_getNextToken (st : Stream ν) (h : curTok st ≠ .tokEof) :
    (getNextToken st).length + 1 = st.length := by
  conv_rhs => rw [eq_cons_of_curTok rfl h]
  rfl

/-- Fuel that is linear in the number of tokens left is enough for every function. -/
structure Total (ν : Type) (fuel : ℕ) : Prop where
  paren : ∀ st : Stream ν, curTok st ≠ .tokEof → 4 * st.length + 1 ≤ fuel →
    Returns (parseParenExpr fuel st)
  args : ∀ as (st : Stream ν), 4 * st.length + 4 ≤ fuel → Returns (parseArgs fuel as st)
  identifier : ∀ name (st : Stream ν), curTok st ≠ .tokEof → 4 * st.length + 1 ≤ fuel →
    Returns (parseIdentifierExpr fuel name st)
  primary : ∀ st : Stream ν, 4 * st.length + 2 ≤ fuel → Returns (parsePrimary fuel st)
  binOpRHS : ∀ p lhs (st : Stream ν), 4 * st.length + 2 ≤ fuel →
    Returns (parseBinOpRHS fuel p lhs st)
  expression : ∀ st : Stream ν, 4 * st.length + 3 ≤ fuel → Returns (parseExpression fuel st)

theorem total (ν : Type) (fuel : ℕ) : Total ν fuel := by
  induction fuel with
  | zero => constructor <;> intros <;> omega
  | succ fuel ih =>
    constructor
    case paren =>
      intro st hst hfuel
      have hlen := length_getNextToken st hst
      apply (ih.expression _ (by omega)).andThen
      intro v st₁ _
      split <;> exact ⟨_, rfl⟩
    case args =>
      intro as st hfuel
      apply (ih.expression _ (by omega)).andThen
      intro v st₁ hv
      have hlt := length_lt_of_parseExpression hv
      split
      · exact ⟨_, rfl⟩
      · rename_i hcomma
        have hlen := length_getNextToken st₁ (by simp [hcomma])
        exact ih.args _ _ (by omega)
      · exact ⟨_, rfl⟩
    case identifier =>
      intro name st hst hfuel
      have hlen := length_getNextToken st hst
      rw [parseIdentifierExpr]
      dsimp only
      split
      · rename_i hopen
        have hlen' := length_getNextToken (getNextToken st) (by simp [hopen])
        refine Returns.andThen ?_ fun args st₁ _ => ⟨_, rfl⟩
        split
        · exact ⟨_, rfl⟩
        · exact ih.args _ _ (by omega)
      · exact ⟨_, rfl⟩
    case primary =>
      intro st hfuel
      rw [parsePrimary]
      split
      · rename_i name hname
        exact ih.identifier _ _ (by simp [hname]) (by omega)
      · exact ⟨_, rfl⟩
      · rename_i hopen
        exact ih.paren _ (by simp [hopen]) (by omega)
      · exact ⟨_, rfl⟩
    case binOpRHS =>
      intro p lhs st hfuel
      rw [parseBinOpRHS]
      dsimp only
      split
      · exact ⟨_, rfl⟩
      split
      · rename_i c hc
        have hlen := length_getNextToken st (by simp [hc])
        apply (ih.primary _ (by omega)).andThen
        intro rhs st₁ hrhs
        have hlt := length_lt_of_parsePrimary hrhs
        refine Returns.andThen ?_ fun rhs' st₂ hrhs' => ?_
        · split
          · exact ih.binOpRHS _ _ _ (by omega)
          · exact ⟨_, rfl⟩
        · have hle : st₂.length ≤ st₁.length := by
            split at hrhs'
            · exact ((suffixStable ν fuel).binOpRHS _ _ _ _ _ hrhs').length_le
            · cases hrhs'
              exact Nat.le_refl _
          exact ih.binOpRHS _ _ _ (by omega)
      · exact ⟨_, rfl⟩
    case expression =>
      intro st hfuel
      apply (ih.primary _ (by omega)).andThen
      intro lhs st₁ hlhs
      have hlt := length_lt_of_parsePrimary hlhs
      exact ih.binOpRHS _ _ _ (by omega)

end CppTricks.MemInDeep
