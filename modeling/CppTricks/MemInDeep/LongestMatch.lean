import CppTricks.MemInDeep.RoundTrip
import CppTricks.MemInDeep.Termination

/-! Where an expression ends: in front of whatever does not go on with it, and nowhere else. -/
namespace CppTricks.MemInDeep

variable {ν : Type}

/-- No call goes on from the phrase: no parenthesis follows a name that it ends in. -/
def NoCall (ts rest : Stream ν) : Prop :=
  ∀ x, ts.getLast? = some (.tokIdentifier x) → curTok rest ≠ .char '('

/-- An expression ends in front of `rest`, which begins with no operator either. -/
def Ends (ts rest : Stream ν) : Prop := getTokPrecedence (curTok rest) < 0 ∧ NoCall ts rest

/-! ### The expression ends there -/

theorem Gives.parenExpr {ts : Stream ν} {e : ExprAST ν} (h : Derives .comparison ts [e])
    (k : Stream ν) : Gives (parsePrimary · (.char '(' :: ts ++ [.char ')'] ++ k)) (.ok e, k) := by
  obtain ⟨fuel, hexpr⟩ := (complete h).expression (.char ')' :: k)
    (by simp [curTok, getTokPrecedence, binopPrecedence]) (by simp [curTok])
  beta_reduce at hexpr
  refine .succ (.succ ⟨fuel, ?_⟩)
  rw [List.append_assoc]
  change (parseExpression fuel (ts ++ .char ')' :: k)).andThen _ = _
  rw [hexpr]
  rfl

theorem Gives.callExpr (f : String) {ts : Stream ν} {args : List (ExprAST ν)}
    (h : Derives .arguments ts args) (k : Stream ν) :
    Gives (parsePrimary · (.tokIdentifier f :: .char '(' :: ts ++ [.char ')'] ++ k))
      (.ok (.callExpr f args), k) := by
  refine .succ (.succ ?_)
  rw [List.append_assoc]
  by_cases hargs : args = []
  · subst hargs
    obtain rfl : ts = [] := by cases h with | noArguments => rfl
    exact ⟨0, rfl⟩
  · obtain ⟨fuel, hloop⟩ := complete h hargs [] (.char ')' :: k) rfl
    beta_reduce at hloop
    refine ⟨fuel, ?_⟩
    have hfirst := h.curTok_ne_close hargs (.char ')' :: k)
    refine (parseIdentifierExpr_call fuel f (_ :: .char '(' :: (ts ++ .char ')' :: k)) rfl
      hfirst).trans ?_
    change (parseArgs fuel [] (ts ++ .char ')' :: k)).andThen _ = _
    rw [hloop]
    rfl

/-- Only a name looks at what follows it. -/
theorem Gives.primary {ts : Stream ν} {e : ExprAST ν} (h : Derives .primary ts [e]) {k : Stream ν}
    (hk : NoCall ts k) : Gives (parsePrimary · (ts ++ k)) (.ok e, k) := by
  cases h with
  | numberExpr v => exact ⟨1, rfl⟩
  | variableExpr x => exact ⟨2, parseIdentifierExpr_variable 0 x (.tokIdentifier x :: k) (hk x rfl)⟩
  | parenExpr h => exact .parenExpr h k
  | callExpr f h => exact .callExpr f h k

/-- The phrase `ts` of the tree `e` ends in the primary phrase `tp`. Whatever follows, the parser
reads all of it once it reads `tp`. -/
def LastPrimary (N : Nonterminal) (ts : Stream ν) (e : ExprAST ν) (tp : Stream ν)
    (ep : ExprAST ν) : Prop :=
  ∀ k p x, p ≤ strength N → getTokPrecedence (curTok k) ≤ strength N →
    Gives (parsePrimary · (tp ++ k)) (.ok ep, k) → Gives (parseBinOpRHS · p e k) x →
    Gives (parseFrom p (ts ++ k)) x

theorem LastPrimary.binary {N M : Nonterminal} {tl tr tp : Stream ν} {l r ep : ExprAST ν} {c : Char}
    (hc : getTokPrecedence (.char c : Token ν) = strength N) (hopen : c ≠ '(')
    (hNM : strength N < strength M)
    (hl : ∀ k p x, p ≤ strength N → getTokPrecedence (curTok k) ≤ strength N →
      curTok k ≠ .char '(' → Gives (parseBinOpRHS · p l k) x → Gives (parseFrom p (tl ++ k)) x)
    (hr : LastPrimary M tr r tp ep) :
    LastPrimary N (tl ++ .char c :: tr) (.binaryExpr c l r) tp ep := by
  intro k p x hp hk hprim hloop
  rw [List.append_assoc]
  refine hl _ p x hp (le_of_eq hc) (by simpa [curTok] using hopen) (.binOp_step (hc ▸ hp) ?_ hloop)
  exact hr k _ _ (by omega) (by omega) hprim (.binOp_stop (by omega))

theorem Derives.exists_lastPrimary {N : Nonterminal} {ts : Stream ν} {es : List (ExprAST ν)}
    (h : Derives N ts es) (hN : N ≠ .arguments) : ∃ e front tp ep, es = [e] ∧ ts = front ++ tp ∧
      Derives .primary tp [ep] ∧ LastPrimary N ts e tp ep := by
  have hprimary : ∀ {ts : Stream ν} {e : ExprAST ν}, Derives .primary ts [e] →
      ∃ e' front tp ep, [e] = [e'] ∧ ts = front ++ tp ∧ Derives .primary tp [ep] ∧
        LastPrimary .primary ts e' tp ep := fun {ts e} h =>
    ⟨e, [], ts, e, rfl, rfl, h, fun k p x _ _ hprim hloop => .from_primary hprim hloop⟩
  have hbinary : ∀ {N M : Nonterminal} {tl tr : Stream ν} {l r : ExprAST ν} {c : Char},
      getTokPrecedence (.char c : Token ν) = strength N → c ≠ '(' → strength N < strength M →
      (∀ k p x, p ≤ strength N → getTokPrecedence (curTok k) ≤ strength N → curTok k ≠ .char '(' →
        Gives (parseBinOpRHS · p l k) x → Gives (parseFrom p (tl ++ k)) x) →
      (∃ e front tp ep, [r] = [e] ∧ tr = front ++ tp ∧ Derives .primary tp [ep] ∧
        LastPrimary M tr e tp ep) →
      ∃ e front tp ep, [ExprAST.binaryExpr c l r] = [e] ∧ tl ++ .char c :: tr = front ++ tp ∧
        Derives .primary tp [ep] ∧ LastPrimary N (tl ++ .char c :: tr) e tp ep := by
    rintro N M tl tr l r c hc hopen hNM hl ⟨_, front, tp, ep, ⟨⟩, rfl, hp, hr⟩
    exact ⟨_, tl ++ .char c :: front, tp, ep, rfl, by simp, hp, .binary hc hopen hNM hl hr⟩
  induction h with
  | numberExpr v => exact hprimary (.numberExpr v)
  | variableExpr x => exact hprimary (.variableExpr x)
  | parenExpr h _ => exact hprimary (.parenExpr h)
  | callExpr f h _ => exact hprimary (.callExpr f h)
  | ofPrimary _ ih | ofProduct _ ih | ofSum _ ih =>
    obtain ⟨e, front, tp, ep, he, hts, hp, hr⟩ := ih (by simp)
    refine ⟨e, front, tp, ep, he, hts, hp, fun k p x hp hk => ?_⟩
    exact hr k p x (Int.le_trans hp (by decide)) (Int.le_trans hk (by decide))
  | times hl _ _ ihr | plus hl _ _ ihr | minus hl _ _ ihr | less hl _ _ ihr =>
    exact hbinary rfl (by decide) (by decide) (complete hl _ rfl) (ihr (by simp))
  | noArguments | lastArgument | moreArguments => exact absurd rfl hN

theorem NoCall.of_append {front ts k : Stream ν} (h : NoCall (front ++ ts) k) (hts : ts ≠ []) :
    NoCall ts k := by
  intro x hx
  apply h x
  rwa [List.getLast?_append_of_ne_nil _ hts]

/-- An expression is read up to where it ends. -/
theorem Derives.gives {ts : Stream ν} {e : ExprAST ν} (h : Derives .comparison ts [e])
    {k : Stream ν} (hk : Ends ts k) : Gives (parseExpression · (ts ++ k)) (.ok e, k) := by
  obtain ⟨_, front, tp, ep, ⟨⟩, rfl, hp, hlast⟩ := h.exists_lastPrimary (by simp)
  have hprim := Gives.primary hp (hk.2.of_append (hp.ne_nil (by simp)))
  have hle : getTokPrecedence (curTok k) ≤ strength .comparison := by
    have hneg := hk.1
    simp only [strength]
    omega
  exact .expression (hlast k 0 _ (by decide) hle hprim (.binOp_stop hk.1))

/-! ### It ends nowhere else -/

/-- At least one token of `st` was taken, and after the last of them no call goes on. -/
def Stops (st st' : Stream ν) : Prop := ∃ ts, ts ≠ [] ∧ st = ts ++ st' ∧ NoCall ts st'

theorem Stops.of_suffix {st st₁ st' : Stream ν} (h : Stops st₁ st') (hsuffix : st₁ <:+ st) :
    Stops st st' := by
  obtain ⟨ts, hne, rfl, hcall⟩ := h
  obtain ⟨front, rfl⟩ := hsuffix
  refine ⟨front ++ ts, by simp [hne], (List.append_assoc _ _ _).symm, ?_⟩
  intro x hx
  rw [List.getLast?_append_of_ne_nil _ hne] at hx
  exact hcall x hx

theorem Stops.of_curTok {st st₁ : Stream ν} {t : Token ν} (hcur : curTok st₁ = t)
    (heof : t ≠ .tokEof) (hname : ∀ x, t ≠ .tokIdentifier x) (hsuffix : st₁ <:+ st) :
    Stops st (getNextToken st₁) := by
  refine Stops.of_suffix ⟨[t], by simp, eq_cons_of_curTok hcur heof, ?_⟩ hsuffix
  intro x hx
  exact absurd (Option.some.inj hx) (hname x)

structure StopsStable (ν : Type) (fuel : ℕ) : Prop where
  paren : ∀ (st st' : Stream ν) e, parseParenExpr fuel st = some (.ok e, st') → Stops st st'
  identifier : ∀ name (st st' : Stream ν) e, parseIdentifierExpr fuel name st = some (.ok e, st') →
    curTok st = .tokIdentifier name → Stops st st'
  primary : ∀ (st st' : Stream ν) e, parsePrimary fuel st = some (.ok e, st') → Stops st st'
  binOpRHS : ∀ p lhs (st st' : Stream ν) e, parseBinOpRHS fuel p lhs st = some (.ok e, st') →
    st' = st ∨ Stops st st'
  expression : ∀ (st st' : Stream ν) e, parseExpression fuel st = some (.ok e, st') → Stops st st'

theorem stopsStable (ν : Type) (fuel : ℕ) : StopsStable ν fuel := by
  induction fuel with
  | zero => constructor <;> intros <;> contradiction
  | succ fuel ih =>
    have hsuffix := suffixStable ν fuel
    constructor
    case paren =>
      intro st st' e h
      obtain ⟨v, st₁, hv, hrest⟩ := Outcome.andThen_eq_ok h
      have hst₁ := ((hsuffix.expression _) _ _ hv).trans (getNextToken_suffix st)
      split at hrest
      · rename_i hclose
        cases hrest
        exact .of_curTok hclose (by simp) (by simp) hst₁
      · cases hrest
    case identifier =>
      intro name st st' e h hname
      rw [parseIdentifierExpr] at h
      dsimp only at h
      split at h
      · rename_i hopen
        obtain ⟨args, st₁, hargs, hrest⟩ := Outcome.andThen_eq_ok h
        cases hrest
        have hst := (getNextToken_suffix (getNextToken st)).trans (getNextToken_suffix st)
        split at hargs
        · rename_i hclose
          cases hargs
          exact .of_curTok hclose (by simp) (by simp) hst
        · obtain ⟨-, -, -, -, -, -, hclose⟩ := (sound ν fuel).args _ _ _ _ hargs
          exact .of_curTok hclose (by simp) (by simp) (((hsuffix.args _ _) _ _ hargs).trans hst)
      · rename_i hopen
        cases h
        refine ⟨[.tokIdentifier name], by simp, eq_cons_of_curTok hname (by simp), ?_⟩
        exact fun _ _ => hopen
    case primary =>
      intro st st' e h
      rw [parsePrimary] at h
      split at h
      · rename_i hname
        exact ih.identifier _ _ _ _ h hname
      · rename_i hnumber
        cases h
        exact .of_curTok hnumber (by simp) (by simp) List.suffix_rfl
      · exact ih.paren _ _ _ h
      · cases h
    case binOpRHS =>
      intro p lhs st st' e h
      rw [parseBinOpRHS] at h
      dsimp only at h
      split at h
      · cases h
        exact Or.inl rfl
      split at h
      · obtain ⟨rhs, st₁, hprim, hrest⟩ := Outcome.andThen_eq_ok h
        obtain ⟨rhs', st₂, hclimb, hloop⟩ := Outcome.andThen_eq_ok hrest
        have hst₁ : Stops st st₁ := (ih.primary _ _ _ hprim).of_suffix (getNextToken_suffix st)
        have hsuffix₁ : st₁ <:+ st := by
          obtain ⟨ts, -, rfl, -⟩ := hst₁
          exact List.suffix_append ts st₁
        have hst₂ : st₂ <:+ st ∧ Stops st st₂ := by
          split at hclimb
          · refine ⟨((hsuffix.binOpRHS _ _ _) _ _ hclimb).trans hsuffix₁, ?_⟩
            rcases ih.binOpRHS _ _ _ _ _ hclimb with rfl | hstops
            · exact hst₁
            · exact hstops.of_suffix hsuffix₁
          · cases hclimb
            exact ⟨hsuffix₁, hst₁⟩
        rcases ih.binOpRHS _ _ _ _ _ hloop with rfl | hstops
        · exact Or.inr hst₂.2
        · exact Or.inr (hstops.of_suffix hst₂.1)
      · cases h
    case expression =>
      intro st st' e h
      obtain ⟨lhs, st₁, hprim, hloop⟩ := Outcome.andThen_eq_ok h
      have hst₁ := ih.primary _ _ _ hprim
      rcases ih.binOpRHS _ _ _ _ _ hloop with rfl | hstops
      · exact hst₁
      · exact hstops.of_suffix ((hsuffix.primary _) _ _ hprim)

/-- What the parser takes for an expression is one, and it ends where the parser stops. -/
theorem exists_ends_of_parseExpression {fuel : ℕ} {st st' : Stream ν} {e : ExprAST ν}
    (h : parseExpression fuel st = some (.ok e, st')) :
    ∃ ts, st = ts ++ st' ∧ Derives .comparison ts [e] ∧ Ends ts st' := by
  obtain ⟨ts, rfl, hd, hprec⟩ := (sound ν fuel).expression _ _ _ h
  obtain ⟨ts', -, hts, hcall⟩ := (stopsStable ν fuel).expression _ _ _ h
  obtain rfl := List.append_cancel_right hts
  exact ⟨ts, rfl, hd, hprec, hcall⟩

end CppTricks.MemInDeep
