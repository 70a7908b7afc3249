import CppTricks.MemInDeep.Termination

/-! What the expression parser accepts: the tokens it consumes are the yield of the tree, up to
grouping parentheses, and derive from the grammar. -/
namespace CppTricks.MemInDeep

variable {ν : Type}

def IsOperator (t : Token ν) : Prop :=
  t = .char '<' ∨ t = .char '+' ∨ t = .char '-' ∨ t = .char '*'

theorem isOperator_iff {t : Token ν} : IsOperator t ↔ 0 ≤ getTokPrecedence t := by
  constructor
  · rintro (rfl | rfl | rfl | rfl) <;> simp [getTokPrecedence, binopPrecedence]
  · intro h
    cases t with
    | char c => simpa [IsOperator] using installed_of_getTokPrecedence h
    | _ => simp [getTokPrecedence] at h

mutual

def ExprAST.yield : ExprAST ν → Stream ν
  | .numberExpr v => [.tokNumber v]
  | .variableExpr x => [.tokIdentifier x]
  | .binaryExpr op l r => l.yield ++ .char op :: r.yield
  | .callExpr f args => .tokIdentifier f :: .char '(' :: yieldArgs args ++ [.char ')']

def yieldArgs : List (ExprAST ν) → Stream ν
  | [] => []
  | [e] => e.yield
  | e :: e' :: es => e.yield ++ .char ',' :: yieldArgs (e' :: es)

end

/-- Delete the grouping parentheses: an opening parenthesis belongs to a call when it follows an
identifier, and a closing one when its partner on the stack does. -/
def dropGrouping : List Bool → Bool → Stream ν → Stream ν
  | _, _, [] => []
  | stack, true, .char '(' :: ts => .char '(' :: dropGrouping (true :: stack) false ts
  | stack, false, .char '(' :: ts => dropGrouping (false :: stack) false ts
  | true :: stack, _, .char ')' :: ts => .char ')' :: dropGrouping stack false ts
  | false :: stack, _, .char ')' :: ts => dropGrouping stack false ts
  | stack, _, .tokIdentifier x :: ts => .tokIdentifier x :: dropGrouping stack true ts
  | stack, _, t :: ts => t :: dropGrouping stack false ts

/-- Reading a derived phrase keeps its yield and restores the stack. -/
theorem dropGrouping_derives {N : Nonterminal} {ts : Stream ν} {es : List (ExprAST ν)}
    (h : Derives N ts es) :
    ∃ afterName, ∀ stack k,
      dropGrouping stack false (ts ++ k) = yieldArgs es ++ dropGrouping stack afterName k := by
  have hbinary : ∀ {c tl tr} {l r : ExprAST ν}, (c = '<' ∨ c = '+' ∨ c = '-' ∨ c = '*') →
      (∃ b, ∀ stack k,
        dropGrouping stack false (tl ++ k) = yieldArgs [l] ++ dropGrouping stack b k) →
      (∃ b, ∀ stack k,
        dropGrouping stack false (tr ++ k) = yieldArgs [r] ++ dropGrouping stack b k) →
      ∃ b, ∀ stack k, dropGrouping stack false (tl ++ .char c :: tr ++ k) =
        yieldArgs [.binaryExpr c l r] ++ dropGrouping stack b k := by
    rintro c tl tr l r hc ⟨bl, hl⟩ ⟨br, hr⟩
    refine ⟨br, fun stack k => ?_⟩
    rw [List.append_assoc, hl]
    rcases hc with rfl | rfl | rfl | rfl <;>
      simp [dropGrouping, hr, yieldArgs, ExprAST.yield]
  induction h with
  | numberExpr v => exact ⟨false, fun stack k => by simp [dropGrouping, yieldArgs, ExprAST.yield]⟩
  | variableExpr x => exact ⟨true, fun stack k => by simp [dropGrouping, yieldArgs, ExprAST.yield]⟩
  | parenExpr _ ih =>
    obtain ⟨b, hb⟩ := ih
    refine ⟨false, fun stack k => ?_⟩
    cases b <;> simp [dropGrouping, hb]
  | callExpr f _ ih =>
    obtain ⟨b, hb⟩ := ih
    refine ⟨false, fun stack k => ?_⟩
    cases b <;> simp [dropGrouping, hb, yieldArgs, ExprAST.yield]
  | ofPrimary _ ih | ofProduct _ ih | ofSum _ ih | lastArgument _ ih => exact ih
  | times _ _ ihl ihr | plus _ _ ihl ihr | minus _ _ ihl ihr | less _ _ ihl ihr =>
    exact hbinary (by simp) ihl ihr
  | noArguments => exact ⟨false, fun stack k => by simp [yieldArgs]⟩
  | moreArguments _ _ ih ih' =>
    obtain ⟨b, hb⟩ := ih
    obtain ⟨b', hb'⟩ := ih'
    refine ⟨b', fun stack k => ?_⟩
    rw [List.append_assoc, hb]
    cases b <;> simp [dropGrouping, hb', yieldArgs]

example :
    dropGrouping (ν := ℕ) [] false
      [.char '(', .tokIdentifier "f", .char '(', .char ')', .char ')'] =
    [.tokIdentifier "f", .char '(', .char ')'] := by decide

/-- A tree is returned only for a derivable prefix with that yield, up to grouping, that no
operator follows; without such a prefix the result is `nullptr`. -/
theorem parseExpression_accepts (st : Stream ν) (fuel : ℕ) (hfuel : 4 * st.length + 3 ≤ fuel) :
    (∀ e rest, parseExpression fuel st = some (.ok e, rest) →
      ∃ consumed, st = consumed ++ rest ∧ dropGrouping [] false consumed = e.yield ∧
        Derives .comparison consumed [e] ∧ ¬ IsOperator (curTok rest)) ∧
    ((¬ ∃ consumed rest e, st = consumed ++ rest ∧ Derives .comparison consumed [e] ∧
        ¬ IsOperator (curTok rest)) →
      ∃ msg rest, parseExpression fuel st = some (.error msg, rest)) := by
  have haccept : ∀ e rest, parseExpression fuel st = some (.ok e, rest) →
      ∃ consumed, st = consumed ++ rest ∧ dropGrouping [] false consumed = e.yield ∧
        Derives .comparison consumed [e] ∧ ¬ IsOperator (curTok rest) := by
    intro e rest h
    obtain ⟨consumed, hst, hd, hlt⟩ := (sound ν fuel).expression _ _ _ h
    obtain ⟨b, hb⟩ := dropGrouping_derives hd
    refine ⟨consumed, hst, ?_, hd, fun hop => ?_⟩
    · simpa [dropGrouping, yieldArgs] using hb [] []
    · have hle := isOperator_iff.mp hop
      omega
  refine ⟨haccept, fun hnone => ?_⟩
  obtain ⟨⟨res, rest⟩, hres⟩ := (total ν fuel).expression st hfuel
  cases res with
  | error msg => exact ⟨msg, rest, hres⟩
  | ok e =>
    obtain ⟨consumed, hst, -, hd, hop⟩ := haccept e rest hres
    exact absurd ⟨consumed, rest, e, hst, hd, hop⟩ hnone

/-- `(x)` is a group and is read back as `x`. -/
theorem parseExpression_accepts_group :
    ∃ consumed, [.char '(', .tokIdentifier "x", .char ')'] = consumed ++ [] ∧
      dropGrouping [] false consumed = (.variableExpr "x" : ExprAST ℕ).yield ∧
      Derives .comparison consumed [.variableExpr "x"] ∧
      ¬ IsOperator (curTok ([] : Stream ℕ)) :=
  (parseExpression_accepts [.char '(', .tokIdentifier "x", .char ')'] 15 (by decide)).1 _ [] rfl

end CppTricks.MemInDeep
