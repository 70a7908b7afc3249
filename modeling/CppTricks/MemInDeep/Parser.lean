import Mathlib.Data.Int.Order.Basic
import Mathlib.Data.List.Basic

/-! The recursive-descent and operator-precedence parser of `mem_in_deep/main.cpp`.
A number token carries its `NumVal` and an identifier its `IdentifierStr`, which `gettok` fills in
with the token and the parser reads before it asks for the next one. -/
namespace CppTricks.MemInDeep

inductive Token (ν : Type)
  | tokEof
  | tokDef
  | tokExtern
  | tokIdentifier (identifierStr : String)
  | tokNumber (numVal : ν)
  | char (c : Char)
  deriving DecidableEq

inductive ExprAST (ν : Type)
  | numberExpr (val : ν)
  | variableExpr (name : String)
  | binaryExpr (op : Char) (lhs rhs : ExprAST ν)
  | callExpr (callee : String) (args : List (ExprAST ν))

variable {ν : Type}

/-- `CurTok` and the tokens `gettok` still delivers; an exhausted input delivers `tok_eof`. -/
abbrev Stream (ν : Type) := List (Token ν)

def curTok (st : Stream ν) : Token ν := st.headD .tokEof

def getNextToken (st : Stream ν) : Stream ν := st.tail

/-- A parsing function stops with a tree, or with `nullptr` after the message `LogError` printed.
`none` stands for a run that was cut off. -/
abbrev Outcome (ν α : Type) := Option (Except String α × Stream ν)

/-- `if (!V) return nullptr;` and then the rest of the function. -/
def Outcome.andThen {α β : Type} (r : Outcome ν α) (rest : α → Stream ν → Outcome ν β) :
    Outcome ν β :=
  match r with
  | none => none
  | some (.error msg, st) => some (.error msg, st)
  | some (.ok v, st) => rest v st

def logError {α : Type} (msg : String) (st : Stream ν) : Outcome ν α := some (.error msg, st)

def parseNumberExpr (numVal : ν) (st : Stream ν) : Outcome ν (ExprAST ν) :=
  some (.ok (.numberExpr numVal), getNextToken st)

/-- `BinopPrecedence[c]` as `main` fills the table; an absent key reads as `0`. -/
def binopPrecedence : Char → ℤ
  | '<' => 10
  | '+' => 20
  | '-' => 20
  | '*' => 40
  | _ => 0

def getTokPrecedence : Token ν → ℤ
  | .char c =>
    if c.toNat < 128 then
      let tokPrec := binopPrecedence c
      if tokPrec ≤ 0 then -1 else tokPrec
    else -1
  | _ => -1

mutual

def parseParenExpr : ℕ → Stream ν → Outcome ν (ExprAST ν)
  | 0, _ => none
  | fuel + 1, st =>
    (parseExpression fuel (getNextToken st)).andThen fun v st =>
      match curTok st with
      | .char ')' => some (.ok v, getNextToken st)
      | _ => logError "expected ')'" st

def parseArgs : ℕ → List (ExprAST ν) → Stream ν → Outcome ν (List (ExprAST ν))
  | 0, _, _ => none
  | fuel + 1, args, st =>
    (parseExpression fuel st).andThen fun arg st =>
      match curTok st with
      | .char ')' => some (.ok (args ++ [arg]), st)
      | .char ',' => parseArgs fuel (args ++ [arg]) (getNextToken st)
      | _ => logError "Exp ')' " st

def parseIdentifierExpr : ℕ → String → Stream ν → Outcome ν (ExprAST ν)
  | 0, _, _ => none
  | fuel + 1, idName, st =>
    let st := getNextToken st
    match curTok st with
    | .char '(' =>
      let st := getNextToken st
      let args : Outcome ν (List (ExprAST ν)) := match curTok st with
        | .char ')' => some (.ok [], st)
        | _ => parseArgs fuel [] st
      args.andThen fun args st => some (.ok (.callExpr idName args), getNextToken st)
    | _ => some (.ok (.variableExpr idName), st)

def parsePrimary : ℕ → Stream ν → Outcome ν (ExprAST ν)
  | 0, _ => none
  | fuel + 1, st =>
    match curTok st with
    | .tokIdentifier identifierStr => parseIdentifierExpr fuel identifierStr st
    | .tokNumber numVal => parseNumberExpr numVal st
    | .char '(' => parseParenExpr fuel st
    | _ => logError "unk tok" st

def parseBinOpRHS : ℕ → ℤ → ExprAST ν → Stream ν → Outcome ν (ExprAST ν)
  | 0, _, _, _ => none
  | fuel + 1, exprPrec, lhs, st =>
    let tokPrec := getTokPrecedence (curTok st)
    if tokPrec < exprPrec then some (.ok lhs, st)
    else
      -- `ExprPrec` is never negative, and only a character has a precedence above `-1`
      match curTok st with
      | .char binOp =>
        (parsePrimary fuel (getNextToken st)).andThen fun rhs st =>
          let nextPrec := getTokPrecedence (curTok st)
          let rhs : Outcome ν (ExprAST ν) :=
            if tokPrec < nextPrec then parseBinOpRHS fuel (tokPrec + 1) rhs st
            else some (.ok rhs, st)
          rhs.andThen fun rhs st => parseBinOpRHS fuel exprPrec (.binaryExpr binOp lhs rhs) st
      | _ => logError "unk tok" st

def parseExpression : ℕ → Stream ν → Outcome ν (ExprAST ν)
  | 0, _ => none
  | fuel + 1, st =>
    (parsePrimary fuel st).andThen fun lhs st => parseBinOpRHS fuel 0 lhs st

end

/-! ### More fuel never changes a result -/

theorem Outcome.andThen_eq_ok {α β : Type} {r : Outcome ν α} {rest : α → Stream ν → Outcome ν β}
    {w : β} {st' : Stream ν} (h : r.andThen rest = some (.ok w, st')) :
    ∃ v st, r = some (.ok v, st) ∧ rest v st = some (.ok w, st') := by
  match r, h with
  | some (.ok v, st), h => exact ⟨v, st, rfl, h⟩
  | some (.error _, _), h => cases h

/-- `r'` has the result of `r` wherever `r` has one. -/
def Extends {α : Type} (r r' : Outcome ν α) : Prop := ∀ x, r = some x → r' = some x

namespace Extends

theorem refl {α : Type} (r : Outcome ν α) : Extends r r := fun _ h => h

theorem andThen {α β : Type} {r r' : Outcome ν α} {rest rest' : α → Stream ν → Outcome ν β}
    (hr : Extends r r') (hrest : ∀ v st, Extends (rest v st) (rest' v st)) :
    Extends (r.andThen rest) (r'.andThen rest') := by
  intro x hx
  match r, hr, hx with
  | some (.error msg, st), hr, hx => rw [hr _ rfl]; exact hx
  | some (.ok v, st), hr, hx => rw [hr _ rfl]; exact hrest v st x hx

end Extends

/-- Every parsing function keeps its result when it is given one more unit of fuel. -/
structure FuelStable (ν : Type) (fuel : ℕ) : Prop where
  paren : ∀ st : Stream ν, Extends (parseParenExpr fuel st) (parseParenExpr (fuel + 1) st)
  args : ∀ as (st : Stream ν), Extends (parseArgs fuel as st) (parseArgs (fuel + 1) as st)
  identifier : ∀ name (st : Stream ν),
    Extends (parseIdentifierExpr fuel name st) (parseIdentifierExpr (fuel + 1) name st)
  primary : ∀ st : Stream ν, Extends (parsePrimary fuel st) (parsePrimary (fuel + 1) st)
  binOpRHS : ∀ p lhs (st : Stream ν),
    Extends (parseBinOpRHS fuel p lhs st) (parseBinOpRHS (fuel + 1) p lhs st)
  expression : ∀ st : Stream ν, Extends (parseExpression fuel st) (parseExpression (fuel + 1) st)

theorem fuelStable (ν : Type) (fuel : ℕ) : FuelStable ν fuel := by
  induction fuel with
  | zero => constructor <;> intros <;> intro x hx <;> cases hx
  | succ fuel ih =>
    constructor
    case paren =>
      intro st
      exact (ih.expression _).andThen fun v st => .refl _
    case args =>
      intro as st
      apply (ih.expression _).andThen
      intro v st
      split
      · exact .refl _
      · exact ih.args _ _
      · exact .refl _
    case identifier =>
      intro name st
      rw [parseIdentifierExpr, parseIdentifierExpr]
      dsimp only
      split
      · refine Extends.andThen ?_ fun v st => .refl _
        split
        · exact .refl _
        · exact ih.args _ _
      · exact .refl _
    case primary =>
      intro st
      rw [parsePrimary, parsePrimary]
      split
      · exact ih.identifier _ _
      · exact .refl _
      · exact ih.paren _
      · exact .refl _
    case binOpRHS =>
      intro p lhs st
      rw [parseBinOpRHS, parseBinOpRHS]
      dsimp only
      split
      · exact .refl _
      split
      · apply (ih.primary _).andThen
        intro v st
        refine Extends.andThen ?_ fun v st => ih.binOpRHS _ _ _
        split
        · exact ih.binOpRHS _ _ _
        · exact .refl _
      · exact .refl _
    case expression =>
      intro st
      exact (ih.primary _).andThen fun v st => ih.binOpRHS _ _ _

/-- A function of the fuel that only ever gains results has one result from some fuel on. -/
theorem eq_some_of_le {α : Type} {f : ℕ → Outcome ν α}
    (hf : ∀ fuel, Extends (f fuel) (f (fuel + 1))) {fuel fuel' : ℕ} (hle : fuel ≤ fuel')
    {x : Except String α × Stream ν} (h : f fuel = some x) : f fuel' = some x := by
  induction hle with
  | refl => exact h
  | step _ ih => exact hf _ _ ih

end CppTricks.MemInDeep
