import CppTricks.MemInDeep.Acceptance

/-! Printing an expression with minimal parentheses and parsing the result gives it back. -/
namespace CppTricks.MemInDeep

variable {ν : Type}

/-! ### The printer -/

def parenthesise (b : Bool) (ts : Stream ν) : Stream ν :=
  if b then .char '(' :: ts ++ [.char ')'] else ts

/-- An operator expression whose operator has a precedence below `p`. -/
def ExprAST.bindsBelow (p : ℤ) : ExprAST ν → Bool
  | .binaryExpr op _ _ => binopPrecedence op < p
  | _ => false

mutual

/-- A left child needs parentheses when it binds strictly weaker than its parent, a right child
when it binds weaker or equally. -/
def ExprAST.print : ExprAST ν → Stream ν
  | .numberExpr v => [.tokNumber v]
  | .variableExpr x => [.tokIdentifier x]
  | .binaryExpr op l r =>
    parenthesise (l.bindsBelow (binopPrecedence op)) l.print ++
      .char op :: parenthesise (r.bindsBelow (binopPrecedence op + 1)) r.print
  | .callExpr f args => .tokIdentifier f :: .char '(' :: printArgs args ++ [.char ')']

def printArgs : List (ExprAST ν) → Stream ν
  | [] => []
  | [e] => e.print
  | e :: e' :: es => e.print ++ .char ',' :: printArgs (e' :: es)

end

mutual

def ExprAST.Installed : ExprAST ν → Prop
  | .numberExpr _ => True
  | .variableExpr _ => True
  | .binaryExpr op l r => op ∈ ['<', '+', '-', '*'] ∧ l.Installed ∧ r.Installed
  | .callExpr _ args => installedArgs args

def installedArgs : List (ExprAST ν) → Prop
  | [] => True
  | e :: es => e.Installed ∧ installedArgs es

end

theorem getTokPrecedence_installed {op : Char} (h : op ∈ ['<', '+', '-', '*']) :
    getTokPrecedence (.char op : Token ν) = binopPrecedence op ∧ 0 ≤ binopPrecedence op := by
  simp only [List.mem_cons, List.not_mem_nil, or_false] at h
  rcases h with rfl | rfl | rfl | rfl <;> simp [getTokPrecedence, binopPrecedence]

/-- The tightest nonterminal a printed tree derives from. -/
def ExprAST.nonterminal : ExprAST ν → Nonterminal
  | .binaryExpr op _ _ => nonterminalAt (binopPrecedence op)
  | _ => .primary

theorem Derives.ofNonterminal {e : ExprAST ν} {ts : Stream ν} (h : Derives e.nonterminal ts [e]) :
    Derives .comparison ts [e] := by
  cases e with
  | binaryExpr op l r =>
    have hw := Derives.weaken (min_le_right 10 (binopPrecedence op)) h
    rwa [nonterminalAt, if_pos (min_le_left _ _)] at hw
  | _ => exact h.ofPrimary.ofProduct.ofSum

theorem Derives.parenthesise {p : ℤ} {e : ExprAST ν} (h : Derives e.nonterminal e.print [e]) :
    Derives (nonterminalAt p) (parenthesise (e.bindsBelow p) e.print) [e] := by
  unfold MemInDeep.parenthesise
  split_ifs with hb
  · exact h.ofNonterminal.parenExpr.ofPrimaryAt p
  · cases e with
    | binaryExpr op l r =>
      have hle : p ≤ binopPrecedence op := by simpa [ExprAST.bindsBelow] using hb
      exact h.weaken hle
    | _ => exact h.ofPrimaryAt p

mutual

theorem derives_print : (e : ExprAST ν) → e.Installed → Derives e.nonterminal e.print [e]
  | .numberExpr v, _ => .numberExpr v
  | .variableExpr x, _ => .variableExpr x
  | .binaryExpr op l r, h => by
    rw [ExprAST.Installed] at h
    obtain ⟨hop, hl, hr⟩ := h
    obtain ⟨hprec, hpos⟩ := getTokPrecedence_installed (ν := ν) hop
    rw [ExprAST.print, ExprAST.nonterminal, ← hprec]
    refine .binaryAt (by omega) ?_ ?_
    · exact (derives_print l hl).parenthesise
    · exact (derives_print r hr).parenthesise
  | .callExpr f args, h => by
    rw [ExprAST.Installed] at h
    rw [ExprAST.print]
    exact .callExpr f (derives_printArgs args h)

theorem derives_printArgs : (es : List (ExprAST ν)) → installedArgs es →
    Derives .arguments (printArgs es) es
  | [], _ => .noArguments
  | [e], h => by
    rw [installedArgs] at h
    rw [printArgs]
    exact .lastArgument (derives_print e h.1).ofNonterminal
  | e :: e' :: es, h => by
    rw [installedArgs] at h
    rw [printArgs]
    exact .moreArguments (derives_print e h.1).ofNonterminal (derives_printArgs (e' :: es) h.2)

end

/-! ### Completeness of the parser for the grammar -/

/-- `f` has the result `x` from some fuel on. -/
def Gives {α : Type} (f : ℕ → Outcome ν α) (x : Except String α × Stream ν) : Prop :=
  ∃ fuel, f fuel = some x

def parseFrom (p : ℤ) (st : Stream ν) (fuel : ℕ) : Outcome ν (ExprAST ν) :=
  (parsePrimary fuel st).andThen fun lhs st => parseBinOpRHS fuel p lhs st

namespace Gives

variable {p : ℤ} {lhs rhs e : ExprAST ν} {st st₁ st₂ : Stream ν}
  {x : Except String (ExprAST ν) × Stream ν}

theorem succ {α : Type} {f : ℕ → Outcome ν α} {y : Except String α × Stream ν}
    (h : Gives (fun fuel => f (fuel + 1)) y) : Gives f y := by
  obtain ⟨fuel, hf⟩ := h
  exact ⟨fuel + 1, hf⟩

theorem from_primary (hprim : Gives (parsePrimary · st) (.ok lhs, st₁))
    (hloop : Gives (parseBinOpRHS · p lhs st₁) x) : Gives (parseFrom p st) x := by
  obtain ⟨f₁, h₁⟩ := hprim
  obtain ⟨f₂, h₂⟩ := hloop
  refine ⟨max f₁ f₂, ?_⟩
  have hprim' := eq_some_of_le (fun n => (fuelStable ν n).primary st) (Nat.le_max_left f₁ f₂) h₁
  have hloop' :=
    eq_some_of_le (fun n => (fuelStable ν n).binOpRHS p lhs st₁) (Nat.le_max_right f₁ f₂) h₂
  unfold parseFrom
  rw [hprim']
  exact hloop'

theorem expression (h : Gives (parseFrom 0 st) x) : Gives (parseExpression · st) x := h.succ

theorem binOp_stop (h : getTokPrecedence (curTok st) < p) :
    Gives (parseBinOpRHS · p lhs st) (.ok lhs, st) := by
  refine ⟨1, ?_⟩
  change parseBinOpRHS 1 p lhs st = _
  rw [parseBinOpRHS]
  exact if_pos h

/-- One turn of the loop. The code climbs only when a tighter operator follows; otherwise the
climb would stop at once, so it may be taken in both cases. -/
theorem binOp_step {c : Char} (hp : p ≤ getTokPrecedence (.char c : Token ν))
    (hrhs : Gives (parseFrom (getTokPrecedence (.char c : Token ν) + 1) st) (.ok rhs, st₂))
    (hloop : Gives (parseBinOpRHS · p (.binaryExpr c lhs rhs) st₂) x) :
    Gives (parseBinOpRHS · p lhs (.char c :: st)) x := by
  obtain ⟨f₁, h₁⟩ := hrhs
  obtain ⟨f₂, h₂⟩ := hloop
  obtain ⟨rhs₁, st₁, hprim, hclimb⟩ := Outcome.andThen_eq_ok h₁
  refine ⟨max f₁ f₂ + 1, ?_⟩
  have hprim' := eq_some_of_le (fun n => (fuelStable ν n).primary st) (Nat.le_max_left f₁ f₂) hprim
  have hclimb' := eq_some_of_le (fun n => (fuelStable ν n).binOpRHS _ rhs₁ st₁)
    (Nat.le_max_left f₁ f₂) hclimb
  have hloop' :=
    eq_some_of_le (fun n => (fuelStable ν n).binOpRHS p _ st₂) (Nat.le_max_right f₁ f₂) h₂
  generalize max f₁ f₂ = fuel at *
  have hrhs : (if getTokPrecedence (.char c : Token ν) < getTokPrecedence (curTok st₁) then
      parseBinOpRHS fuel (getTokPrecedence (.char c : Token ν) + 1) rhs₁ st₁
      else some (.ok rhs₁, st₁)) = some (.ok rhs, st₂) := by
    split_ifs with hnext
    · exact hclimb'
    · match fuel, hclimb' with
      | fuel + 1, hclimb' =>
        rwa [parseBinOpRHS, if_pos (by omega)] at hclimb'
  change parseBinOpRHS (fuel + 1) p lhs (.char c :: st) = some x
  rw [parseBinOpRHS]
  change (if getTokPrecedence (.char c : Token ν) < p then _ else
    (parsePrimary fuel st).andThen _) = some x
  rw [if_neg (not_lt.mpr hp), hprim']
  change Outcome.andThen (if getTokPrecedence (.char c : Token ν) < getTokPrecedence (curTok st₁)
    then parseBinOpRHS fuel (getTokPrecedence (.char c : Token ν) + 1) rhs₁ st₁
    else some (.ok rhs₁, st₁)) (fun rhs st => parseBinOpRHS fuel p (.binaryExpr c lhs rhs) st) = _
  rw [hrhs]
  exact hloop'

end Gives

theorem parseIdentifierExpr_variable (fuel : ℕ) (name : String) (st : Stream ν)
    (h : curTok (getNextToken st) ≠ .char '(') :
    parseIdentifierExpr (fuel + 1) name st =
      some (.ok (.variableExpr name), getNextToken st) := by
  rw [parseIdentifierExpr]
  dsimp only
  split
  · contradiction
  · rfl

theorem parseIdentifierExpr_call (fuel : ℕ) (name : String) (st : Stream ν)
    (hopen : curTok (getNextToken st) = .char '(')
    (hclose : curTok (getNextToken (getNextToken st)) ≠ .char ')') :
    parseIdentifierExpr (fuel + 1) name st =
      (parseArgs fuel [] (getNextToken (getNextToken st))).andThen fun args st =>
        some (.ok (.callExpr name args), getNextToken st) := by
  rw [parseIdentifierExpr]
  dsimp only
  split
  · split
    · contradiction
    · rfl
  · contradiction

theorem parseArgs_last {st st' : Stream ν} {arg : ExprAST ν} {fuel : ℕ}
    (h : parseExpression fuel st = some (.ok arg, st')) (hclose : curTok st' = .char ')')
    (args : List (ExprAST ν)) :
    parseArgs (fuel + 1) args st = some (.ok (args ++ [arg]), st') := by
  rw [parseArgs, h, Outcome.andThen, hclose]
  rfl

/-- A phrase that can be an argument does not begin with a closing parenthesis. -/
theorem Derives.curTok_ne_close {N : Nonterminal} {ts : Stream ν} {es : List (ExprAST ν)}
    (h : Derives N ts es) (hes : es ≠ []) (k : Stream ν) : curTok (ts ++ k) ≠ .char ')' := by
  induction h generalizing k with
  | ofPrimary _ ih | ofProduct _ ih | ofSum _ ih | lastArgument _ ih => exact ih hes k
  | times _ _ ih _ | plus _ _ ih _ | minus _ _ ih _ | less _ _ ih _ | moreArguments _ _ ih _ =>
    rw [List.append_assoc]
    exact ih (by simp) _
  | noArguments => exact absurd rfl hes
  | _ => simp [curTok]

/-- The weakest precedence of an operator that an expression of this kind leaves to its context. -/
def strength : Nonterminal → ℤ
  | .comparison => 10
  | .sum => 20
  | .product => 40
  | _ => 41

/-- The parser reads a phrase in front of `k` as the loop with the finished tree as left operand
would continue, and the arguments of a call up to the closing parenthesis. -/
def Complete : Nonterminal → Stream ν → List (ExprAST ν) → Prop
  | .arguments, ts, es => es ≠ [] → ∀ as k, curTok k = .char ')' →
      Gives (parseArgs · as (ts ++ k)) (.ok (as ++ es), k)
  | N, ts, es => ∀ e, es = [e] → ∀ k p x, p ≤ strength N →
      getTokPrecedence (curTok k) ≤ strength N → curTok k ≠ .char '(' →
      Gives (parseBinOpRHS · p e k) x → Gives (parseFrom p (ts ++ k)) x

theorem Complete.expression {ts : Stream ν} {e : ExprAST ν} (h : Complete .comparison ts [e])
    (k : Stream ν) (hprec : getTokPrecedence (curTok k) < 0) (hopen : curTok k ≠ .char '(') :
    Gives (parseExpression · (ts ++ k)) (.ok e, k) := by
  have hle : getTokPrecedence (curTok k) ≤ strength .comparison := by
    simp only [strength]
    omega
  exact .expression (h e rfl k 0 _ (by decide) hle hopen (.binOp_stop hprec))

theorem Complete.ofPrimary {ts : Stream ν} {e : ExprAST ν}
    (h : ∀ k, curTok k ≠ .char '(' → Gives (parsePrimary · (ts ++ k)) (.ok e, k)) :
    Complete .primary ts [e] := by
  rintro _ ⟨⟩ k p x - - hopen hloop
  exact .from_primary (h k hopen) hloop

/-- A left operand of kind `N`, its operator, and a right operand that leaves that operator. -/
theorem Complete.binary {N M : Nonterminal} {tl tr : Stream ν} {l r : ExprAST ν} {c : Char}
    (hN : N ≠ .arguments) (hM : M ≠ .arguments)
    (hc : getTokPrecedence (.char c : Token ν) = strength N) (hNM : strength N < strength M)
    (hl : Complete N tl [l]) (hr : Complete M tr [r]) :
    Complete N (tl ++ .char c :: tr) [.binaryExpr c l r] := by
  have hl' : ∀ k p x, p ≤ strength N → getTokPrecedence (curTok k) ≤ strength N →
      curTok k ≠ .char '(' → Gives (parseBinOpRHS · p l k) x → Gives (parseFrom p (tl ++ k)) x := by
    cases N <;> first | exact absurd rfl hN | exact hl l rfl
  have hr' : ∀ k p x, p ≤ strength M → getTokPrecedence (curTok k) ≤ strength M →
      curTok k ≠ .char '(' → Gives (parseBinOpRHS · p r k) x → Gives (parseFrom p (tr ++ k)) x := by
    cases M <;> first | exact absurd rfl hM | exact hr r rfl
  have hgoal : ∀ k p x, p ≤ strength N → getTokPrecedence (curTok k) ≤ strength N →
      curTok k ≠ .char '(' → Gives (parseBinOpRHS · p (.binaryExpr c l r) k) x →
      Gives (parseFrom p (tl ++ .char c :: tr ++ k)) x := by
    intro k p x hp hk hopen hloop
    rw [List.append_assoc]
    have hcopen : c ≠ '(' := by
      rintro rfl
      have : (-1 : ℤ) = strength N := by simpa [getTokPrecedence, binopPrecedence] using hc
      cases N <;> simp [strength] at this
    refine hl' _ p x hp (le_of_eq hc) (by simpa [curTok] using hcopen) ?_
    refine .binOp_step (hc ▸ hp) ?_ hloop
    exact hr' k _ _ (by omega) (by omega) hopen (.binOp_stop (by omega))
  cases N <;> first | exact absurd rfl hN | (rintro _ ⟨⟩; exact hgoal)

theorem Complete.parenExpr {ts : Stream ν} {e : ExprAST ν} (h : Complete .comparison ts [e]) :
    Complete .primary (.char '(' :: ts ++ [.char ')']) [e] := by
  refine .ofPrimary fun k _ => .succ (.succ ?_)
  obtain ⟨fuel, hexpr⟩ := h.expression (.char ')' :: k)
    (by simp [curTok, getTokPrecedence, binopPrecedence]) (by simp [curTok])
  beta_reduce at hexpr
  refine ⟨fuel, ?_⟩
  rw [List.append_assoc]
  change (parseExpression fuel (ts ++ .char ')' :: k)).andThen _ = _
  rw [hexpr]
  rfl

theorem Complete.callExpr (f : String) {ts : Stream ν} {args : List (ExprAST ν)}
    (hd : Derives .arguments ts args) (h : Complete .arguments ts args) :
    Complete .primary (.tokIdentifier f :: .char '(' :: ts ++ [.char ')']) [.callExpr f args] := by
  refine .ofPrimary fun k _ => .succ (.succ ?_)
  rw [List.append_assoc]
  by_cases hargs : args = []
  · subst hargs
    obtain rfl : ts = [] := by cases hd with | noArguments => rfl
    exact ⟨0, rfl⟩
  · obtain ⟨fuel, hloop⟩ := h hargs [] (.char ')' :: k) rfl
    beta_reduce at hloop
    refine ⟨fuel, ?_⟩
    have hfirst := hd.curTok_ne_close hargs (.char ')' :: k)
    refine (parseIdentifierExpr_call fuel f (_ :: .char '(' :: (ts ++ .char ')' :: k)) rfl
      hfirst).trans ?_
    change (parseArgs fuel [] (ts ++ .char ')' :: k)).andThen _ = _
    rw [hloop]
    rfl

/-- The parser is complete for the grammar. -/
theorem complete {N : Nonterminal} {ts : Stream ν} {es : List (ExprAST ν)}
    (h : Derives N ts es) : Complete N ts es := by
  induction h with
  | numberExpr v => exact .ofPrimary fun k _ => ⟨1, rfl⟩
  | variableExpr x =>
    refine .ofPrimary fun k hopen => ⟨2, ?_⟩
    exact parseIdentifierExpr_variable 0 x (.tokIdentifier x :: k) hopen
  | parenExpr _ ih => exact ih.parenExpr
  | callExpr f hd ih => exact ih.callExpr f hd
  | ofPrimary _ ih | ofProduct _ ih | ofSum _ ih =>
    intro e he k p x hp hk
    exact ih e he k p x (Int.le_trans hp (by decide)) (Int.le_trans hk (by decide))
  | times _ _ ihl ihr | plus _ _ ihl ihr | minus _ _ ihl ihr | less _ _ ihl ihr =>
    exact .binary (by simp) (by simp) rfl (by decide) ihl ihr
  | noArguments => exact fun hes => absurd rfl hes
  | lastArgument _ ih =>
    intro _ as k hclose
    obtain ⟨fuel, hexpr⟩ := ih.expression k (by simp [hclose, getTokPrecedence, binopPrecedence])
      (by simp [hclose])
    exact ⟨fuel + 1, parseArgs_last hexpr hclose as⟩
  | @moreArguments ts ts' e e' es _ _ ih ih' =>
    intro _ as k hclose
    obtain ⟨f₁, h₁⟩ := ih.expression (.char ',' :: ts' ++ k)
      (by simp [curTok, getTokPrecedence, binopPrecedence]) (by simp [curTok])
    obtain ⟨f₂, h₂⟩ := ih' (by simp) (as ++ [e]) k hclose
    have hexpr := eq_some_of_le (fun n => (fuelStable ν n).expression _)
      (Nat.le_max_left f₁ f₂) h₁
    have hloop := eq_some_of_le (fun n => (fuelStable ν n).args _ _) (Nat.le_max_right f₁ f₂) h₂
    refine ⟨max f₁ f₂ + 1, ?_⟩
    rw [List.append_assoc]
    change (parseExpression (max f₁ f₂) (ts ++ (.char ',' :: ts' ++ k))).andThen _ = _
    rw [hexpr]
    change parseArgs (max f₁ f₂) (as ++ [e]) (ts' ++ k) = _
    rw [hloop, List.append_assoc, List.singleton_append]

/-- Printing a tree of installed operators and parsing the tokens in front of any continuation that
starts with neither an operator nor `(` gives the tree back and stops at the continuation. -/
theorem parseExpression_print (e : ExprAST ν) (he : e.Installed) (k : Stream ν)
    (hop : ¬ IsOperator (curTok k)) (hopen : curTok k ≠ .char '(') (fuel : ℕ)
    (hfuel : 4 * (e.print ++ k).length + 3 ≤ fuel) :
    parseExpression fuel (e.print ++ k) = some (.ok e, k) := by
  have hprec : getTokPrecedence (curTok k) < 0 := not_le.mp fun hle => hop (isOperator_iff.mpr hle)
  obtain ⟨fuel', h⟩ := (complete (derives_print e he).ofNonterminal).expression k hprec hopen
  obtain ⟨x, hx⟩ := (total ν fuel).expression _ hfuel
  have hstable := fun n => (fuelStable ν n).expression (e.print ++ k)
  have h' := eq_some_of_le hstable (Nat.le_max_left fuel' fuel) h
  have hx' := eq_some_of_le hstable (Nat.le_max_right fuel' fuel) hx
  rw [hx, ← hx', h']

example :
    parseExpression 20
      [.tokIdentifier "a", .char '-', .tokNumber 1, .char '*', .tokNumber 2] =
    some (.ok (.binaryExpr '-' (.variableExpr "a")
      (.binaryExpr '*' (.numberExpr 1) (.numberExpr 2))), []) := by
  rfl

/-- `a - (b < f(1, 2)) * 3` in front of a semicolon. -/
theorem parseExpression_print_nested :
    let e : ExprAST ℕ := .binaryExpr '-' (.variableExpr "a") (.binaryExpr '*' (.binaryExpr '<'
      (.variableExpr "b") (.callExpr "f" [.numberExpr 1, .numberExpr 2])) (.numberExpr 3))
    parseExpression 67 (e.print ++ [.char ';']) = some (.ok e, [.char ';']) :=
  parseExpression_print _ (by simp [ExprAST.Installed, installedArgs]) [.char ';']
    (by simp [IsOperator, curTok]) (by simp [curTok]) 67 (by decide)

end CppTricks.MemInDeep
