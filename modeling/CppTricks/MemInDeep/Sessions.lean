import CppTricks.MemInDeep.Lexing
import CppTricks.MemInDeep.LongestMatch
import CppTricks.MemInDeep.MainLoop

/-! Whole sessions of `mem_in_deep/main.cpp`: the programs it takes, and what it prints. -/
namespace CppTricks.MemInDeep

variable {ν : Type}

/-! ### The grammar of programs -/

/-- `prototype ::= id '(' id* ')'` -/
def PrototypeAST.print (p : PrototypeAST) : Stream ν :=
  .tokIdentifier p.name :: .char '(' :: (p.args.map .tokIdentifier ++ [.char ')'])

inductive Item (ν : Type)
  | semicolon
  | definition (f : FunctionAST ν)
  | external (p : PrototypeAST)
  | expression (e : ExprAST ν)

/-- `top ::= definition | external | expression | ';'`, where each expression is as long as it can
be. -/
inductive Program : Stream ν → List (Item ν) → Prop
  | nil : Program [] []
  | semicolon {rest items} : Program rest items →
      Program (.char ';' :: rest) (.semicolon :: items)
  | definition (p : PrototypeAST) {ts e rest items} : Derives .comparison ts [e] → Ends ts rest →
      Program rest items →
      Program (.tokDef :: (p.print ++ (ts ++ rest))) (.definition ⟨p, e⟩ :: items)
  | external (p : PrototypeAST) {rest items} : Program rest items →
      Program (.tokExtern :: (p.print ++ rest)) (.external p :: items)
  | expression {ts e rest items} : Derives .comparison ts [e] → Ends ts rest →
      Program rest items → Program (ts ++ rest) (.expression e :: items)

def Item.message : Item ν → String
  | semicolon => ""
  | definition _ => "Parsed a function definition.\n"
  | external _ => "Parsed an extern\n"
  | expression _ => "Parsed a top-level expr\n"

/-- What `MainLoop` prints: a prompt before each answer, and one before it returns. -/
def transcript : List String → String
  | [] => "ready >"
  | out :: outs => "ready >" ++ out ++ transcript outs

def IsError (out : String) : Prop := "LogError: ".toList <+: out.toList

instance (out : String) : Decidable (IsError out) := inferInstanceAs (Decidable (_ <+: _))

theorem Item.not_isError_message (item : Item ν) : ¬IsError item.message := by
  cases item with
  | semicolon => exact (by decide : ¬IsError "")
  | definition f => exact (by decide : ¬IsError "Parsed a function definition.\n")
  | external p => exact (by decide : ¬IsError "Parsed an extern\n")
  | expression e => exact (by decide : ¬IsError "Parsed a top-level expr\n")

theorem isError_logError (msg : String) : IsError ("LogError: " ++ msg ++ "\n") := by
  unfold IsError
  rw [String.toList_append, String.toList_append, List.append_assoc]
  exact List.prefix_append _ _

/-! ### Prototypes -/

theorem parseArgNames_map (args : List String) (st : Stream ν) :
    parseArgNames (args.map .tokIdentifier ++ .char ')' :: st) = (args, .char ')' :: st) := by
  induction args with
  | nil => rfl
  | cons name args ih =>
    rw [List.map_cons, List.cons_append, parseArgNames, ih]

theorem eq_of_parseArgNames (st : Stream ν) :
    st = (parseArgNames st).1.map .tokIdentifier ++ (parseArgNames st).2 := by
  fun_induction parseArgNames st with
  | case1 identifierStr st argNames st' hrest ih =>
    rw [hrest] at ih
    exact congrArg (_ :: ·) ih
  | case2 st => rfl

theorem parsePrototype_print (p : PrototypeAST) (rest : Stream ν) :
    parsePrototype (p.print ++ rest) = some (.ok p, rest) := by
  have hargs := parseArgNames_map p.args rest
  unfold parsePrototype PrototypeAST.print
  simp only [List.cons_append, List.append_assoc, List.nil_append, curTok, getNextToken,
    List.headD_cons, List.tail_cons, hargs]

theorem eq_of_parsePrototype {p : PrototypeAST} {st st' : Stream ν}
    (h : parsePrototype st = some (.ok p, st')) : st = p.print ++ st' := by
  unfold parsePrototype at h
  split at h
  · rename_i fnName hname
    dsimp only at h
    split at h
    · rename_i hopen
      split at h
      · rename_i hclose
        have hargs := eq_of_parseArgNames (getNextToken (getNextToken st))
        rw [eq_cons_of_curTok hclose (by simp)] at hargs
        cases h
        calc st = .tokIdentifier fnName :: .char '(' :: getNextToken (getNextToken st) :=
              (eq_cons_of_curTok hname (by simp)).trans
                (congrArg (_ :: ·) (eq_cons_of_curTok hopen (by simp)))
          _ = .tokIdentifier fnName :: .char '(' :: _ := congrArg (_ :: _ :: ·) hargs
          _ = _ := by simp [PrototypeAST.print]
      · cases h
    · cases h
  · cases h

/-! ### Iterations -/

/-- An expression begins with a name, a number or a parenthesis. -/
theorem Derives.exists_head {N : Nonterminal} {ts : Stream ν} {es : List (ExprAST ν)}
    (h : Derives N ts es) (hN : N ≠ .arguments) : ∃ t ts', ts = t :: ts' ∧
      ((∃ x, t = .tokIdentifier x) ∨ (∃ v, t = .tokNumber v) ∨ t = .char '(') := by
  induction h with
  | numberExpr v => exact ⟨_, [], rfl, Or.inr (Or.inl ⟨v, rfl⟩)⟩
  | variableExpr x => exact ⟨_, [], rfl, Or.inl ⟨x, rfl⟩⟩
  | parenExpr => exact ⟨_, _, rfl, Or.inr (Or.inr rfl)⟩
  | callExpr f => exact ⟨_, _, rfl, Or.inl ⟨f, rfl⟩⟩
  | ofPrimary _ ih | ofProduct _ ih | ofSum _ ih => exact ih (by simp)
  | times _ _ ih _ | plus _ _ ih _ | minus _ _ ih _ | less _ _ ih _ =>
    obtain ⟨t, ts', rfl, ht⟩ := ih (by simp)
    exact ⟨t, _, rfl, ht⟩
  | noArguments | lastArgument | moreArguments => exact absurd rfl hN

theorem Gives.eq_some {st : Stream ν} {x : Except String (ExprAST ν) × Stream ν}
    (h : Gives (parseExpression · st) x) {fuel : ℕ} (hfuel : 4 * st.length + 3 ≤ fuel) :
    parseExpression fuel st = some x := by
  obtain ⟨fuel', h⟩ := h
  obtain ⟨y, hy⟩ := (total ν fuel).expression _ hfuel
  have hstable := fun n => (fuelStable ν n).expression st
  have h' := eq_some_of_le hstable (Nat.le_max_left fuel' fuel) h
  have hy' := eq_some_of_le hstable (Nat.le_max_right fuel' fuel) hy
  rw [hy, ← hy', h']

theorem iteration_expression {fuel : ℕ} {st : Stream ν} (hsemi : curTok st ≠ .char ';')
    (hdef : curTok st ≠ .tokDef) (hext : curTok st ≠ .tokExtern) :
    iteration fuel st = handleTopLevelExpression fuel st := by
  unfold iteration
  split <;> first | contradiction | rfl

theorem Program.iteration {st : Stream ν} {items : List (Item ν)} (h : Program st items)
    {fuel : ℕ} (hfuel : 4 * st.length + 3 ≤ fuel) (heof : curTok st ≠ .tokEof) :
    ∃ item items' st', items = item :: items' ∧ Program st' items' ∧
      iteration fuel st = some (item.message, st') := by
  cases h with
  | nil => exact absurd rfl heof
  | @semicolon rest items h => exact ⟨_, items, rest, rfl, h, rfl⟩
  | @definition p ts e rest items hd hends h =>
    have hlen : 4 * (ts ++ rest).length + 3 ≤ fuel := by
      simp only [List.length_cons, List.length_append] at hfuel ⊢
      omega
    refine ⟨_, items, rest, rfl, h, ?_⟩
    change handle _ ((parsePrototype (p.print ++ (ts ++ rest))).andThen _) = _
    rw [parsePrototype_print]
    change handle _ ((parseExpression fuel (ts ++ rest)).andThen _) = _
    rw [(hd.gives hends).eq_some hlen]
    rfl
  | @external p rest items h =>
    refine ⟨_, items, rest, rfl, h, ?_⟩
    change handle _ (parsePrototype (p.print ++ rest)) = _
    rw [parsePrototype_print]
    rfl
  | @expression ts e rest items hd hends h =>
    refine ⟨_, items, rest, rfl, h, ?_⟩
    obtain ⟨t, ts', hts, ht⟩ := hd.exists_head (by simp)
    have hcur : curTok (ts ++ rest) = t := by
      rw [hts]
      rfl
    rw [iteration_expression]
    · unfold handleTopLevelExpression parseTopLevelExpr
      rw [(hd.gives hends).eq_some hfuel]
      rfl
    all_goals
      rw [hcur]
      rcases ht with ⟨x, rfl⟩ | ⟨v, rfl⟩ | rfl <;> simp

theorem eq_ok_of_handle {α : Type} {parsed out : String} {r : Outcome ν α} {st' : Stream ν}
    (h : handle parsed r = some (out, st')) (hout : ¬IsError out) :
    ∃ v, r = some (.ok v, st') ∧ out = parsed := by
  match r, h with
  | some (.ok v, st), h =>
    cases h
    exact ⟨v, rfl, rfl⟩
  | some (.error msg, st), h =>
    cases h
    exact absurd (isError_logError msg) hout

/-- What an iteration takes without an error is an item. -/
theorem exists_item_of_iteration {fuel : ℕ} {st st' : Stream ν} {out : String}
    (h : iteration fuel st = some (out, st')) (hout : ¬IsError out) :
    ∃ item : Item ν, ∀ items, Program st' items → Program st (item :: items) := by
  unfold iteration at h
  split at h
  · rename_i hsemi
    cases h
    refine ⟨.semicolon, fun items hp => ?_⟩
    rw [eq_cons_of_curTok hsemi (by simp)]
    exact .semicolon hp
  · rename_i hdef
    obtain ⟨f, hf, -⟩ := eq_ok_of_handle h hout
    obtain ⟨p, st₁, hproto, hrest⟩ := Outcome.andThen_eq_ok hf
    obtain ⟨e, st₂, hexpr, hok⟩ := Outcome.andThen_eq_ok hrest
    cases hok
    obtain ⟨ts, rfl, hd, hends⟩ := exists_ends_of_parseExpression hexpr
    refine ⟨.definition ⟨p, e⟩, fun items hp => ?_⟩
    rw [eq_cons_of_curTok hdef (by simp), eq_of_parsePrototype hproto]
    exact .definition p hd hends hp
  · rename_i hext
    obtain ⟨p, hproto, -⟩ := eq_ok_of_handle h hout
    refine ⟨.external p, fun items hp => ?_⟩
    rw [eq_cons_of_curTok hext (by simp), eq_of_parsePrototype hproto]
    exact .external p hp
  · obtain ⟨f, hf, -⟩ := eq_ok_of_handle h hout
    obtain ⟨e, st₁, hexpr, hok⟩ := Outcome.andThen_eq_ok hf
    cases hok
    obtain ⟨ts, rfl, hd, hends⟩ := exists_ends_of_parseExpression hexpr
    exact ⟨.expression e, fun items hp => .expression hd hends hp⟩

/-! ### Sessions -/

theorem tokEof_not_mem_tokens (strtod : String → ν) (l : Lexer) : .tokEof ∉ tokens strtod l := by
  fun_induction tokens strtod l with
  | case1 => exact List.not_mem_nil
  | case2 l h ih =>
    rw [List.mem_cons, not_or]
    refine ⟨fun heof => h ?_, ih⟩
    rw [← heof]
    rfl

/-- What the loop prints for the tokens that are left. -/
theorem mainLoop_run {fuel : ℕ} {st : Stream ν} (hfuel : 4 * st.length + 4 ≤ fuel)
    (heof : .tokEof ∉ st) : ∃ outs, mainLoop fuel st = some (transcript outs, []) ∧
      (∀ items, Program st items → outs = items.map Item.message) ∧
      ((∀ out ∈ outs, ¬IsError out) → ∃ items, Program st items) := by
  induction fuel generalizing st with
  | zero => omega
  | succ fuel ih =>
    cases st with
    | nil =>
      refine ⟨[], rfl, ?_, fun _ => ⟨[], .nil⟩⟩
      intro items h
      generalize hst : ([] : Stream ν) = st at h
      cases h with
      | nil => rfl
      | semicolon | definition | external => cases hst
      | expression hd =>
        have hnil := List.append_eq_nil_iff.mp hst.symm
        exact absurd hnil.1 (hd.ne_nil (by simp))
    | cons t st =>
      have htok : curTok (t :: st) ≠ .tokEof := fun h => heof (h ▸ List.mem_cons_self)
      have hstep : 4 * (t :: st).length + 3 ≤ fuel := Nat.le_of_succ_le_succ hfuel
      obtain ⟨out, st₁, hiter, hsuffix⟩ := iteration_getsOn hstep
      have hle : st₁.length ≤ st.length := hsuffix.length_le
      have hrest : 4 * st₁.length + 4 ≤ fuel := by
        rw [List.length_cons] at hfuel
        omega
      obtain ⟨outs, hloop, hprogram, hexists⟩ :=
        ih hrest fun hmem => heof (List.mem_cons_of_mem t (hsuffix.subset hmem))
      refine ⟨out :: outs, ?_, ?_, ?_⟩
      · unfold mainLoop
        split
        · contradiction
        · simp [hiter, hloop, transcript]
      · intro items h
        obtain ⟨item, items', st', rfl, h', hiter'⟩ := h.iteration hstep htok
        rw [hiter] at hiter'
        obtain ⟨rfl, rfl⟩ := Prod.mk.inj (Option.some.inj hiter')
        rw [List.map_cons, hprogram items' h']
      · intro hout
        rw [List.forall_mem_cons] at hout
        obtain ⟨items, h⟩ := hexists hout.2
        obtain ⟨item, hitem⟩ := exists_item_of_iteration hiter hout.1
        exact ⟨item :: items, hitem items h⟩

def main (strtod : String → ν) (fuel : ℕ) (input : List Char) : Option String :=
  (mainLoop fuel (tokens strtod (.start input))).map fun r => "ready> " ++ r.1

/-- A session answers without an error if and only if its tokens are a program, and then it answers
each item in turn. -/
theorem main_transcript (strtod : String → ν) (input : List Char) {fuel : ℕ}
    (hfuel : 4 * (tokens strtod (.start input)).length + 4 ≤ fuel) :
    ∃ outs, main strtod fuel input = some ("ready> " ++ transcript outs) ∧
      ((∀ out ∈ outs, ¬IsError out) ↔ ∃ items, Program (tokens strtod (.start input)) items) ∧
      ∀ items, Program (tokens strtod (.start input)) items → outs = items.map Item.message := by
  obtain ⟨outs, hloop, hprogram, hexists⟩ :=
    mainLoop_run hfuel (tokEof_not_mem_tokens strtod (.start input))
  refine ⟨outs, ?_, ⟨hexists, ?_⟩, hprogram⟩
  · rw [main, hloop]
    rfl
  · rintro ⟨items, h⟩ out hout
    rw [hprogram items h] at hout
    obtain ⟨item, -, rfl⟩ := List.mem_map.mp hout
    exact item.not_isError_message

theorem main_transcript_definition :
    ∃ outs, main id (4 * (tokens id (.start "def f(x y) x+y; f(1".toList)).length + 4)
        "def f(x y) x+y; f(1".toList = some ("ready> " ++ transcript outs) ∧
      ((∀ out ∈ outs, ¬IsError out) ↔
        ∃ items, Program (tokens id (.start "def f(x y) x+y; f(1".toList)) items) ∧
      ∀ items, Program (tokens id (.start "def f(x y) x+y; f(1".toList)) items →
        outs = items.map Item.message :=
  main_transcript id _ (Nat.le_refl _)

/-! ### Written programs -/

section Written

variable (strtod : String → ν)

theorem tokens_of_gettoks {l : Lexer} {st : Stream ν}
    (h : gettoks strtod (st.length + 1) l = st ++ [.tokEof]) (heof : .tokEof ∉ st) :
    tokens strtod l = st := by
  induction st generalizing l with
  | nil =>
    have htok : (gettok strtod l).1 = .tokEof := List.head_eq_of_cons_eq h
    rw [tokens, dif_pos]
    rw [htok]
    rfl
  | cons t st ih =>
    rw [List.mem_cons, not_or] at heof
    have htok : (gettok strtod l).1 = t := List.head_eq_of_cons_eq h
    have hrest : gettoks strtod (st.length + 1) (gettok strtod l).2 = st ++ [.tokEof] :=
      List.tail_eq_of_cons_eq h
    rw [tokens, dif_neg, htok, ih hrest heof.2]
    intro hisEof
    exact heof.1 (htok ▸ eq_tokEof_of_isEof hisEof).symm

theorem tokens_spells {lead text : List Char} {ts : List Lexeme} (hlead : Separators lead)
    (htext : Spells ts text) :
    tokens strtod (.start (lead ++ text)) = ts.map (Lexeme.token strtod) := by
  have hspace : Separators (' ' :: lead) := .cons (.space (by decide)) hlead
  have hread := gettoks_spells strtod htext 1
  rw [← gettoks_separators strtod hspace] at hread
  apply tokens_of_gettoks
  · rw [List.length_map]
    exact hread
  · intro hmem
    obtain ⟨t, -, ht⟩ := List.mem_map.mp hmem
    cases t <;> cases ht

/-- A program, written with white space and comments between its tokens, is answered item by
item. -/
theorem main_spells {lead text : List Char} {ts : List Lexeme} (hlead : Separators lead)
    (htext : Spells ts text) {items : List (Item ν)}
    (h : Program (ts.map (Lexeme.token strtod)) items) {fuel : ℕ}
    (hfuel : 4 * ts.length + 4 ≤ fuel) :
    main strtod fuel (lead ++ text) = some ("ready> " ++ transcript (items.map Item.message)) := by
  have htokens := tokens_spells strtod hlead htext
  have hlen : 4 * (ts.map (Lexeme.token strtod)).length + 4 ≤ fuel := by rwa [List.length_map]
  have heof := tokEof_not_mem_tokens strtod (.start (lead ++ text))
  rw [htokens] at heof
  obtain ⟨outs, hloop, hprogram, -⟩ := mainLoop_run hlen heof
  rw [main, htokens, hloop, hprogram items h]
  rfl

private def one : Lexeme := .tokNumber ⟨'1', [], by decide, List.all_eq_true.mp (by decide)⟩

private def semicolon : Lexeme := .char ⟨';', by decide, by decide, by decide, by decide⟩

theorem main_spells_one :
    main id 16 "\n1#(\r; 1".toList = some ("ready> " ++
      "ready >Parsed a top-level expr\nready >ready >Parsed a top-level expr\nready >") := by
  have hlead : Separators ['\n'] := .cons (.space (by decide)) .nil
  have hcomment : Separator ['#', '(', '\r'] :=
    .comment (List.forall_mem_singleton.mpr (by decide)) (by decide)
  have htext : Spells [one, semicolon, one] "1#(\r; 1".toList :=
    .cons one hcomment .nil (.cons semicolon (.space (by decide)) .nil (.last one .nil))
  have hone : Derives .comparison [.tokNumber "1"] [.numberExpr "1"] :=
    (Derives.numberExpr "1").ofPrimary.ofProduct.ofSum
  have hends : ∀ rest : Stream String, curTok rest = .char ';' ∨ rest = [] →
      Ends [.tokNumber "1"] rest := by
    rintro rest (hsemi | rfl)
    · exact ⟨by rw [hsemi]; decide, fun x hx => by cases hx⟩
    · exact ⟨by decide, fun x hx => by cases hx⟩
  have h : Program ([one, semicolon, one].map (Lexeme.token id))
      [.expression (.numberExpr "1"), .semicolon, .expression (.numberExpr "1")] :=
    .expression hone (hends _ (Or.inl rfl))
      (.semicolon (.expression hone (hends _ (Or.inr rfl)) .nil))
  exact main_spells id hlead htext h (by decide)

end Written

end CppTricks.MemInDeep
