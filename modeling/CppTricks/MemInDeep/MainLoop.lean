import CppTricks.MemInDeep.Lexer
import CppTricks.MemInDeep.Termination

/-! The interpreter loop of `mem_in_deep/main.cpp`, and why it always gets on. -/
namespace CppTricks.MemInDeep

variable {ν : Type}

structure PrototypeAST where
  name : String
  args : List String

structure FunctionAST (ν : Type) where
  proto : PrototypeAST
  body : ExprAST ν

/-- `while (getNextToken() == tok_identifier) ArgNames.push_back(IdentifierStr);` after its first
`getNextToken`. -/
def parseArgNames : Stream ν → List String × Stream ν
  | .tokIdentifier identifierStr :: st =>
    let (argNames, st) := parseArgNames st
    (identifierStr :: argNames, st)
  | st => ([], st)

def parsePrototype (st : Stream ν) : Outcome ν PrototypeAST :=
  match curTok st with
  | .tokIdentifier fnName =>
    let st := getNextToken st
    match curTok st with
    | .char '(' =>
      let (argNames, st) := parseArgNames (getNextToken st)
      match curTok st with
      | .char ')' => some (.ok ⟨fnName, argNames⟩, getNextToken st)
      | _ => logError "Expected ')' in prototype" st
    | _ => logError "Expected '(' in prototype" st
  | _ => logError "Expected function name in prototype" st

def parseDefinition (fuel : ℕ) (st : Stream ν) : Outcome ν (FunctionAST ν) :=
  (parsePrototype (getNextToken st)).andThen fun proto st =>
    (parseExpression fuel st).andThen fun e st => some (.ok ⟨proto, e⟩, st)

def parseTopLevelExpr (fuel : ℕ) (st : Stream ν) : Outcome ν (FunctionAST ν) :=
  (parseExpression fuel st).andThen fun e st => some (.ok ⟨⟨"__anon_expr", []⟩, e⟩, st)

def parseExtern (st : Stream ν) : Outcome ν PrototypeAST := parsePrototype (getNextToken st)

/-- What a function printed to `stderr`, and the tokens it left. -/
abbrev Printed (ν : Type) := Option (String × Stream ν)

/-- Print that it was parsed, or what `LogError` says, and then skip a token. -/
def handle {α : Type} (parsed : String) : Outcome ν α → Printed ν
  | none => none
  | some (.ok _, st) => some (parsed, st)
  | some (.error msg, st) => some ("LogError: " ++ msg ++ "\n", getNextToken st)

def handleDefinition (fuel : ℕ) (st : Stream ν) : Printed ν :=
  handle "Parsed a function definition.\n" (parseDefinition fuel st)

def handleExtern (st : Stream ν) : Printed ν := handle "Parsed an extern\n" (parseExtern st)

def handleTopLevelExpression (fuel : ℕ) (st : Stream ν) : Printed ν :=
  handle "Parsed a top-level expr\n" (parseTopLevelExpr fuel st)

/-- What an iteration of `MainLoop` that does not return does after its prompt. -/
def iteration (fuel : ℕ) (st : Stream ν) : Printed ν :=
  match curTok st with
  | .char ';' => some ("", getNextToken st)
  | .tokDef => handleDefinition fuel st
  | .tokExtern => handleExtern st
  | _ => handleTopLevelExpression fuel st

def mainLoop : ℕ → Stream ν → Option (String × Stream ν)
  | 0, _ => none
  | fuel + 1, st =>
    match curTok st with
    | .tokEof => some ("ready >", st)
    | _ => do
      let (out, st) ← iteration fuel st
      let (outs, st) ← mainLoop fuel st
      return ("ready >" ++ out ++ outs, st)

/-! ### What the parsers leave -/

theorem parseArgNames_suffix (st : Stream ν) : (parseArgNames st).2 <:+ st := by
  fun_induction parseArgNames st with
  | case1 identifierStr st argNames st' hrest ih =>
    rw [hrest] at ih
    exact ih.trans (List.suffix_cons _ st)
  | case2 st => exact List.suffix_rfl

theorem suffix_getNextToken {st st' : Stream ν} (h : st' <:+ st) (hlt : st'.length < st.length) :
    st' <:+ getNextToken st := by
  cases st with
  | nil => exact absurd hlt (Nat.not_lt_zero _)
  | cons tok st =>
    rcases List.suffix_cons_iff.mp h with rfl | htail
    · exact absurd hlt (Nat.lt_irrefl _)
    · exact htail

theorem getNextToken_mono {st st' : Stream ν} (h : st' <:+ st) :
    getNextToken st' <:+ getNextToken st := by
  cases st' with
  | nil => exact List.nil_suffix
  | cons tok st' =>
    have hle := h.length_le
    exact suffix_getNextToken ((List.suffix_cons tok st').trans h) hle

theorem parsePrototype_leaves (st : Stream ν) : LeavesSuffix (parsePrototype st) st := by
  have hname := getNextToken_suffix st
  have hopen := (getNextToken_suffix (getNextToken st)).trans hname
  have hargs := (parseArgNames_suffix _).trans hopen
  unfold parsePrototype
  split
  · dsimp only
    split
    · split
      · exact .stop _ ((getNextToken_suffix _).trans hargs)
      · exact .stop _ hargs
    · exact .stop _ hname
  · exact .stop _ List.suffix_rfl

theorem parseDefinition_leaves (fuel : ℕ) (st : Stream ν) :
    LeavesSuffix (parseDefinition fuel st) (getNextToken st) := by
  apply (parsePrototype_leaves (getNextToken st)).andThen
  intro proto st₁ h₁
  apply (((suffixStable ν fuel).expression st₁).trans h₁).andThen
  intro e st₂ h₂
  exact .stop _ h₂

theorem parseTopLevelExpr_leaves (fuel : ℕ) (st : Stream ν) :
    LeavesSuffix (parseTopLevelExpr fuel st) st := by
  apply ((suffixStable ν fuel).expression st).andThen
  intro e st₁ h₁
  exact .stop _ h₁

/-! ### Returning -/

theorem parsePrototype_returns (st : Stream ν) : Returns (parsePrototype st) := by
  unfold parsePrototype
  split
  · dsimp only
    split
    · split
      · exact ⟨_, rfl⟩
      · exact ⟨_, rfl⟩
    · exact ⟨_, rfl⟩
  · exact ⟨_, rfl⟩

theorem parseDefinition_returns {fuel : ℕ} {st : Stream ν} (hfuel : 4 * st.length + 3 ≤ fuel) :
    Returns (parseDefinition fuel st) := by
  apply (parsePrototype_returns _).andThen
  intro proto st₁ hproto
  have hle := ((parsePrototype_leaves _ _ _ hproto).trans (getNextToken_suffix st)).length_le
  apply ((total ν fuel).expression st₁ (by omega)).andThen
  intro e st₂ _
  exact ⟨_, rfl⟩

theorem parseTopLevelExpr_returns {fuel : ℕ} {st : Stream ν} (hfuel : 4 * st.length + 3 ≤ fuel) :
    Returns (parseTopLevelExpr fuel st) := by
  apply ((total ν fuel).expression st hfuel).andThen
  intro e st₁ _
  exact ⟨_, rfl⟩

/-! ### Getting on -/

/-- The function returned after at least one `getNextToken`. -/
def GetsOn (r : Printed ν) (st : Stream ν) : Prop :=
  ∃ out st', r = some (out, st') ∧ st' <:+ getNextToken st

/-- Skipping a token after a failure is enough, and after a success the parser must have taken
one. -/
theorem handle_getsOn {α : Type} (parsed : String) {r : Outcome ν α} {st : Stream ν}
    (hr : Returns r) (hleaves : LeavesSuffix r st)
    (hok : ∀ v st', r = some (.ok v, st') → st' <:+ getNextToken st) :
    GetsOn (handle parsed r) st := by
  obtain ⟨⟨x, st'⟩, rfl⟩ := hr
  cases x with
  | ok v => exact ⟨_, st', rfl, hok v st' rfl⟩
  | error msg => exact ⟨_, _, rfl, getNextToken_mono (hleaves _ _ rfl)⟩

theorem iteration_getsOn {fuel : ℕ} {st : Stream ν} (hfuel : 4 * st.length + 3 ≤ fuel) :
    GetsOn (iteration fuel st) st := by
  have hnext := getNextToken_suffix st
  unfold iteration
  split
  · exact ⟨_, _, rfl, List.suffix_rfl⟩
  · have hleaves := parseDefinition_leaves fuel st
    apply handle_getsOn _ (parseDefinition_returns hfuel) (hleaves.trans hnext)
    intro v st' hv
    exact hleaves _ _ hv
  · have hleaves := parsePrototype_leaves (getNextToken st)
    apply handle_getsOn _ (parsePrototype_returns _) (hleaves.trans hnext)
    intro v st' hv
    exact hleaves _ _ hv
  · apply handle_getsOn _ (parseTopLevelExpr_returns hfuel) (parseTopLevelExpr_leaves fuel st)
    intro v st' hv
    obtain ⟨e, st₁, hexpr, hrest⟩ := Outcome.andThen_eq_ok hv
    obtain ⟨-, rfl⟩ : _ ∧ st₁ = st' := by simpa using hrest
    exact suffix_getNextToken ((suffixStable ν fuel).expression _ _ _ hexpr)
      (length_lt_of_parseExpression hexpr)

theorem mainLoop_returns {fuel : ℕ} {st : Stream ν} (hfuel : 4 * st.length + 4 ≤ fuel) :
    ∃ out st', mainLoop fuel st = some (out, st') ∧ curTok st' = .tokEof := by
  induction fuel generalizing st with
  | zero => omega
  | succ fuel ih =>
    unfold mainLoop
    split
    · rename_i heof
      exact ⟨_, st, rfl, heof⟩
    · rename_i htok
      have hgetsOn : GetsOn (iteration fuel st) st := iteration_getsOn (by omega)
      obtain ⟨out, st₁, hiter, hsuffix⟩ := hgetsOn
      have hlen := length_getNextToken st htok
      have hle := hsuffix.length_le
      have hrest : 4 * st₁.length + 4 ≤ fuel := by omega
      obtain ⟨outs, st₂, hloop, heof⟩ := ih hrest
      exact ⟨"ready >" ++ out ++ outs, st₂, by simp [hiter, hloop], heof⟩

/-- Wherever they are called, the recursive parsing functions return. -/
theorem parsers_return {fuel : ℕ} {st : Stream ν} (hfuel : 4 * st.length + 5 ≤ fuel) :
    Returns (parseExpression fuel st) ∧ Returns (parsePrimary fuel st) ∧
      Returns (parseParenExpr fuel st) ∧ (∀ name, Returns (parseIdentifierExpr fuel name st)) ∧
      (∀ exprPrec lhs, Returns (parseBinOpRHS fuel exprPrec lhs st)) := by
  obtain ⟨fuel, rfl⟩ : ∃ n, fuel = n + 1 := ⟨fuel - 1, by omega⟩
  have hnext := (getNextToken_suffix st).length_le
  have hargs := (getNextToken_suffix (getNextToken st)).length_le
  have htotal := total ν (fuel + 1)
  refine ⟨htotal.expression st (by omega), htotal.primary st (by omega), ?_, ?_, ?_⟩
  · unfold parseParenExpr
    apply ((total ν fuel).expression _ (by omega)).andThen
    intro v st₁ _
    split
    · exact ⟨_, rfl⟩
    · exact ⟨_, rfl⟩
  · intro name
    unfold parseIdentifierExpr
    dsimp only
    split
    · refine Returns.andThen ?_ fun args st₁ _ => ⟨_, rfl⟩
      split
      · exact ⟨_, rfl⟩
      · exact (total ν fuel).args _ _ (by omega)
    · exact ⟨_, rfl⟩
  · intro exprPrec lhs
    exact htotal.binOpRHS exprPrec lhs st (by omega)

/-- `MainLoop` returns on every input, each of its iterations takes a token, and every parsing
function returns. -/
theorem mainLoop_progress (strtod : String → ν) (input : List Char) :
    (∀ l, curTok (tokens strtod l) = (gettok strtod l).1 ∧
      getNextToken (tokens strtod l) = tokens strtod (gettok strtod l).2) ∧
      (∀ fuel, 4 * (tokens strtod (.start input)).length + 4 ≤ fuel →
        ∃ out st', mainLoop fuel (tokens strtod (.start input)) = some (out, st') ∧
          curTok st' = .tokEof) ∧
      (∀ fuel (st : Stream ν), 4 * st.length + 5 ≤ fuel →
        (curTok st ≠ .tokEof → ∃ out st', iteration fuel st = some (out, st') ∧
          st' <:+ getNextToken st ∧ st'.length < st.length) ∧
        Returns (parseDefinition fuel st) ∧ Returns (parseExtern st) ∧
        Returns (parseTopLevelExpr fuel st) ∧ Returns (parseExpression fuel st) ∧
        Returns (parsePrimary fuel st) ∧ Returns (parseParenExpr fuel st) ∧
        (∀ name, Returns (parseIdentifierExpr fuel name st)) ∧
        (∀ exprPrec lhs, Returns (parseBinOpRHS fuel exprPrec lhs st))) := by
  refine ⟨fun l => ⟨curTok_tokens strtod l, getNextToken_tokens strtod l⟩,
    fun fuel => mainLoop_returns, ?_⟩
  intro fuel st hfuel
  refine ⟨?_, parseDefinition_returns (by omega), parsePrototype_returns _,
    parseTopLevelExpr_returns (by omega), parsers_return hfuel⟩
  intro htok
  have hgetsOn : GetsOn (iteration fuel st) st := iteration_getsOn (by omega)
  obtain ⟨out, st', hiter, hsuffix⟩ := hgetsOn
  have hlen := length_getNextToken st htok
  have hle := hsuffix.length_le
  exact ⟨out, st', hiter, hsuffix, by omega⟩

end CppTricks.MemInDeep
