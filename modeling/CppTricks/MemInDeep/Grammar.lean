import CppTricks.MemInDeep.Parser

/-! The expression grammar the parser accepts, and soundness of the parser for it. -/
namespace CppTricks.MemInDeep

inductive Nonterminal
  | comparison
  | sum
  | product
  | primary
  | arguments

variable {ν : Type}

/-- Derivations of a token list from a nonterminal, with the trees they stand for: one tree for an
expression, one for each of the arguments of a call. -/
inductive Derives : Nonterminal → Stream ν → List (ExprAST ν) → Prop
  | numberExpr (v : ν) : Derives .primary [.tokNumber v] [.numberExpr v]
  | variableExpr (x : String) : Derives .primary [.tokIdentifier x] [.variableExpr x]
  | parenExpr {ts e} : Derives .comparison ts [e] →
      Derives .primary (.char '(' :: ts ++ [.char ')']) [e]
  | callExpr (f : String) {ts args} : Derives .arguments ts args →
      Derives .primary (.tokIdentifier f :: .char '(' :: ts ++ [.char ')']) [.callExpr f args]
  | ofPrimary {ts es} : Derives .primary ts es → Derives .product ts es
  | times {tl tr l r} : Derives .product tl [l] → Derives .primary tr [r] →
      Derives .product (tl ++ .char '*' :: tr) [.binaryExpr '*' l r]
  | ofProduct {ts es} : Derives .product ts es → Derives .sum ts es
  | plus {tl tr l r} : Derives .sum tl [l] → Derives .product tr [r] →
      Derives .sum (tl ++ .char '+' :: tr) [.binaryExpr '+' l r]
  | minus {tl tr l r} : Derives .sum tl [l] → Derives .product tr [r] →
      Derives .sum (tl ++ .char '-' :: tr) [.binaryExpr '-' l r]
  | ofSum {ts es} : Derives .sum ts es → Derives .comparison ts es
  | less {tl tr l r} : Derives .comparison tl [l] → Derives .sum tr [r] →
      Derives .comparison (tl ++ .char '<' :: tr) [.binaryExpr '<' l r]
  | noArguments : Derives .arguments [] []
  | lastArgument {ts e} : Derives .comparison ts [e] → Derives .arguments ts [e]
  | moreArguments {ts ts' e e' es} : Derives .comparison ts [e] →
      Derives .arguments ts' (e' :: es) →
      Derives .arguments (ts ++ .char ',' :: ts') (e :: e' :: es)

theorem Derives.ne_nil {N : Nonterminal} {ts : Stream ν} {es : List (ExprAST ν)}
    (h : Derives N ts es) (hN : N ≠ .arguments) : ts ≠ [] := by
  induction h with
  | noArguments | lastArgument | moreArguments => exact absurd rfl hN
  | ofPrimary _ ih | ofProduct _ ih | ofSum _ ih => exact ih (by simp)
  | _ => simp

/-- The nonterminal whose operators all have at least the precedence `p`. -/
def nonterminalAt (p : ℤ) : Nonterminal :=
  if p ≤ 10 then .comparison else if p ≤ 20 then .sum else if p ≤ 40 then .product else .primary

theorem Derives.weaken {p q : ℤ} (hpq : p ≤ q) {ts : Stream ν} {es : List (ExprAST ν)}
    (h : Derives (nonterminalAt q) ts es) : Derives (nonterminalAt p) ts es := by
  unfold nonterminalAt at h ⊢
  split_ifs at h ⊢ <;>
    first
    | omega
    | exact h
    | exact h.ofSum
    | exact h.ofProduct
    | exact h.ofProduct.ofSum
    | exact h.ofPrimary
    | exact h.ofPrimary.ofProduct
    | exact h.ofPrimary.ofProduct.ofSum

theorem Derives.ofPrimaryAt (p : ℤ) {ts : Stream ν} {es : List (ExprAST ν)}
    (h : Derives .primary ts es) : Derives (nonterminalAt p) ts es := by
  apply Derives.weaken (q := max p 41) (le_max_left _ _)
  unfold nonterminalAt
  rw [if_neg (by omega), if_neg (by omega), if_neg (by omega)]
  exact h

/-- A character with a precedence is one of the four installed operators. -/
theorem installed_of_getTokPrecedence {c : Char} (h : 0 ≤ getTokPrecedence (.char c : Token ν)) :
    c = '<' ∨ c = '+' ∨ c = '-' ∨ c = '*' := by
  by_contra hc
  simp only [not_or] at hc
  obtain ⟨hlt, hplus, hminus, htimes⟩ := hc
  have hzero : binopPrecedence c = 0 := by
    unfold binopPrecedence
    split <;> simp_all
  simp only [getTokPrecedence, hzero] at h
  split at h <;> simp at h

/-- Two operands joined by an operator of precedence `q`. -/
theorem Derives.binaryAt {c : Char} {tl tr : Stream ν} {l r : ExprAST ν}
    (hc : 0 ≤ getTokPrecedence (.char c : Token ν))
    (hl : Derives (nonterminalAt (getTokPrecedence (.char c : Token ν))) tl [l])
    (hr : Derives (nonterminalAt (getTokPrecedence (.char c : Token ν) + 1)) tr [r]) :
    Derives (nonterminalAt (getTokPrecedence (.char c : Token ν))) (tl ++ .char c :: tr)
      [.binaryExpr c l r] := by
  rcases installed_of_getTokPrecedence hc with rfl | rfl | rfl | rfl
  · exact .less hl hr
  · exact .plus hl hr
  · exact .minus hl hr
  · exact .times hl hr

/-! ### Soundness -/

theorem eq_cons_of_curTok {st : Stream ν} {t : Token ν} (h : curTok st = t) (ht : t ≠ .tokEof) :
    st = t :: getNextToken st := by
  match st, h with
  | [], h => exact absurd h.symm ht
  | t' :: st, h =>
    obtain rfl : t' = t := h
    rfl

/-- What each parsing function has consumed when it returns a tree. -/
structure Sound (ν : Type) (fuel : ℕ) : Prop where
  paren : ∀ (st st' : Stream ν) e, parseParenExpr fuel st = some (.ok e, st') →
    curTok st = .char '(' → ∃ ts, st = ts ++ st' ∧ Derives .primary ts [e]
  args : ∀ as (st st' : Stream ν) out, parseArgs fuel as st = some (.ok out, st') →
    ∃ ts new, out = as ++ new ∧ new ≠ [] ∧ st = ts ++ st' ∧ Derives .arguments ts new ∧
      curTok st' = .char ')'
  identifier : ∀ name (st st' : Stream ν) e, parseIdentifierExpr fuel name st = some (.ok e, st') →
    curTok st = .tokIdentifier name → ∃ ts, st = ts ++ st' ∧ Derives .primary ts [e]
  primary : ∀ (st st' : Stream ν) e, parsePrimary fuel st = some (.ok e, st') →
    ∃ ts, st = ts ++ st' ∧ Derives .primary ts [e]
  binOpRHS : ∀ p lhs (st st' : Stream ν) e tl, parseBinOpRHS fuel p lhs st = some (.ok e, st') →
    0 ≤ p → Derives (nonterminalAt p) tl [lhs] →
    Derives (nonterminalAt (getTokPrecedence (curTok st))) tl [lhs] →
    ∃ ts, st = ts ++ st' ∧ Derives (nonterminalAt p) (tl ++ ts) [e] ∧
      getTokPrecedence (curTok st') < p
  expression : ∀ (st st' : Stream ν) e, parseExpression fuel st = some (.ok e, st') →
    ∃ ts, st = ts ++ st' ∧ Derives .comparison ts [e] ∧ getTokPrecedence (curTok st') < 0

namespace Sound

variable {fuel : ℕ}

private theorem paren_succ (ih : Sound ν fuel) (st st' : Stream ν) (e : ExprAST ν)
    (h : parseParenExpr (fuel + 1) st = some (.ok e, st')) (hst : curTok st = .char '(') :
    ∃ ts, st = ts ++ st' ∧ Derives .primary ts [e] := by
  obtain ⟨v, st₁, hv, hrest⟩ := Outcome.andThen_eq_ok h
  obtain ⟨ts, hts, hd, -⟩ := ih.expression _ _ _ hv
  split at hrest
  · rename_i hclose
    obtain ⟨rfl, rfl⟩ : v = e ∧ getNextToken st₁ = st' := by simpa using hrest
    refine ⟨_, ?_, .parenExpr hd⟩
    rw [eq_cons_of_curTok hst (by simp), hts, eq_cons_of_curTok hclose (by simp)]
    simp [getNextToken]
  · simp [logError] at hrest

private theorem args_succ (ih : Sound ν fuel) (as : List (ExprAST ν)) (st st' : Stream ν)
    (out : List (ExprAST ν)) (h : parseArgs (fuel + 1) as st = some (.ok out, st')) :
    ∃ ts new, out = as ++ new ∧ new ≠ [] ∧ st = ts ++ st' ∧ Derives .arguments ts new ∧
      curTok st' = .char ')' := by
  obtain ⟨v, st₁, hv, hrest⟩ := Outcome.andThen_eq_ok h
  obtain ⟨ts, hts, hd, -⟩ := ih.expression _ _ _ hv
  split at hrest
  · rename_i hclose
    obtain ⟨rfl, rfl⟩ : as ++ [v] = out ∧ st₁ = st' := by simpa using hrest
    exact ⟨ts, [v], rfl, by simp, hts, .lastArgument hd, hclose⟩
  · rename_i hcomma
    obtain ⟨ts', new, hout, hnew, hts', hd', hclose⟩ := ih.args _ _ _ _ hrest
    obtain ⟨e', es, rfl⟩ := List.exists_cons_of_ne_nil hnew
    refine ⟨ts ++ .char ',' :: ts', v :: e' :: es, by simp [hout], by simp, ?_,
      .moreArguments hd hd', hclose⟩
    rw [hts, eq_cons_of_curTok hcomma (by simp), hts']
    simp
  · simp [logError] at hrest

private theorem identifier_succ (ih : Sound ν fuel) (name : String) (st st' : Stream ν)
    (e : ExprAST ν) (h : parseIdentifierExpr (fuel + 1) name st = some (.ok e, st'))
    (hst : curTok st = .tokIdentifier name) : ∃ ts, st = ts ++ st' ∧ Derives .primary ts [e] := by
  have hcons := eq_cons_of_curTok hst (by simp)
  rw [parseIdentifierExpr] at h
  dsimp only at h
  split at h
  · rename_i hopen
    obtain ⟨args, st₁, hargs, hrest⟩ := Outcome.andThen_eq_ok h
    obtain ⟨rfl, rfl⟩ : ExprAST.callExpr name args = e ∧ getNextToken st₁ = st' := by
      simpa using hrest
    obtain ⟨ts, hts, hd, hclose⟩ : ∃ ts, getNextToken (getNextToken st) = ts ++ st₁ ∧
        Derives .arguments ts args ∧ curTok st₁ = .char ')' := by
      split at hargs
      · rename_i hclose
        obtain ⟨rfl, rfl⟩ : [] = args ∧ getNextToken (getNextToken st) = st₁ := by
          simpa using hargs
        exact ⟨[], rfl, .noArguments, hclose⟩
      · obtain ⟨ts, new, rfl, -, hts, hd, hclose⟩ := ih.args _ _ _ _ hargs
        exact ⟨ts, hts, hd, hclose⟩
    refine ⟨_, ?_, .callExpr name hd⟩
    rw [hcons, eq_cons_of_curTok hopen (by simp), hts, eq_cons_of_curTok hclose (by simp)]
    simp [getNextToken]
  · obtain ⟨rfl, rfl⟩ : ExprAST.variableExpr name = e ∧ getNextToken st = st' := by simpa using h
    exact ⟨_, hcons, .variableExpr name⟩

private theorem primary_succ (ih : Sound ν fuel) (st st' : Stream ν) (e : ExprAST ν)
    (h : parsePrimary (fuel + 1) st = some (.ok e, st')) :
    ∃ ts, st = ts ++ st' ∧ Derives .primary ts [e] := by
  rw [parsePrimary] at h
  split at h
  · rename_i name hname
    exact ih.identifier _ _ _ _ h hname
  · rename_i v hv
    obtain ⟨rfl, rfl⟩ : ExprAST.numberExpr v = e ∧ getNextToken st = st' := by
      simpa [parseNumberExpr] using h
    exact ⟨_, eq_cons_of_curTok hv (by simp), .numberExpr v⟩
  · rename_i hopen
    exact ih.paren _ _ _ h hopen
  · simp [logError] at h

/-- One turn of the loop: the pending `lhs` derives from the nonterminal of the operator that
follows it, so the merged tree derives from the nonterminal of that operator too. -/
private theorem binOpRHS_succ (ih : Sound ν fuel) (p : ℤ) (lhs : ExprAST ν) (st st' : Stream ν)
    (e : ExprAST ν) (tl : Stream ν) (h : parseBinOpRHS (fuel + 1) p lhs st = some (.ok e, st'))
    (hp : 0 ≤ p) (hlp : Derives (nonterminalAt p) tl [lhs])
    (hlq : Derives (nonterminalAt (getTokPrecedence (curTok st))) tl [lhs]) :
    ∃ ts, st = ts ++ st' ∧ Derives (nonterminalAt p) (tl ++ ts) [e] ∧
      getTokPrecedence (curTok st') < p := by
  rw [parseBinOpRHS] at h
  dsimp only at h
  split at h
  · rename_i hstop
    obtain ⟨rfl, rfl⟩ : lhs = e ∧ st = st' := by simpa using h
    exact ⟨[], rfl, by simpa using hlp, hstop⟩
  rename_i hgo
  split at h
  · rename_i c hc
    rw [hc] at h hgo hlq
    have hpq : p ≤ getTokPrecedence (.char c : Token ν) := not_lt.mp hgo
    obtain ⟨rhs₁, st₁, hprim, hrest⟩ := Outcome.andThen_eq_ok h
    obtain ⟨rhs, st₂, hrhs, hloop⟩ := Outcome.andThen_eq_ok hrest
    obtain ⟨ts₁, hts₁, hd₁⟩ := ih.primary _ _ _ hprim
    -- the right operand takes every tighter operator, so the next one binds no tighter
    obtain ⟨ts₂, hts₂, hd₂, hnext⟩ : ∃ ts₂, st₁ = ts₂ ++ st₂ ∧
        Derives (nonterminalAt (getTokPrecedence (.char c : Token ν) + 1)) (ts₁ ++ ts₂) [rhs] ∧
        getTokPrecedence (curTok st₂) ≤ getTokPrecedence (.char c : Token ν) := by
      split at hrhs
      · obtain ⟨ts₂, hts₂, hd₂, hlt⟩ := ih.binOpRHS _ _ _ _ _ ts₁ hrhs (by omega)
          (hd₁.ofPrimaryAt _) (hd₁.ofPrimaryAt _)
        exact ⟨ts₂, hts₂, hd₂, by omega⟩
      · rename_i hle
        obtain ⟨rfl, rfl⟩ : rhs₁ = rhs ∧ st₁ = st₂ := by simpa using hrhs
        exact ⟨[], rfl, by simpa using hd₁.ofPrimaryAt _, not_lt.mp hle⟩
    have hmerged := Derives.binaryAt (by omega) hlq hd₂
    obtain ⟨ts₃, hts₃, hd₃, hlt⟩ := ih.binOpRHS _ _ _ _ _ _ hloop hp (hmerged.weaken hpq)
      (hmerged.weaken hnext)
    refine ⟨.char c :: (ts₁ ++ ts₂) ++ ts₃, ?_, by simpa using hd₃, hlt⟩
    rw [eq_cons_of_curTok hc (by simp), hts₁, hts₂, hts₃]
    simp
  · simp [logError] at h

private theorem expression_succ (ih : Sound ν fuel) (st st' : Stream ν) (e : ExprAST ν)
    (h : parseExpression (fuel + 1) st = some (.ok e, st')) :
    ∃ ts, st = ts ++ st' ∧ Derives .comparison ts [e] ∧ getTokPrecedence (curTok st') < 0 := by
  obtain ⟨lhs, st₁, hprim, hrest⟩ := Outcome.andThen_eq_ok h
  obtain ⟨ts₁, hts₁, hd₁⟩ := ih.primary _ _ _ hprim
  obtain ⟨ts₂, hts₂, hd₂, hlt⟩ := ih.binOpRHS _ _ _ _ _ ts₁ hrest le_rfl (hd₁.ofPrimaryAt _)
    (hd₁.ofPrimaryAt _)
  exact ⟨ts₁ ++ ts₂, by rw [hts₁, hts₂, List.append_assoc], hd₂, hlt⟩

end Sound

theorem sound (ν : Type) (fuel : ℕ) : Sound ν fuel := by
  induction fuel with
  | zero => constructor <;> intros <;> simp_all [parseParenExpr, parseArgs, parseIdentifierExpr,
      parsePrimary, parseBinOpRHS, parseExpression]
  | succ fuel ih =>
    exact ⟨ih.paren_succ, ih.args_succ, ih.identifier_succ, ih.primary_succ, ih.binOpRHS_succ,
      ih.expression_succ⟩

end CppTricks.MemInDeep
