import CppTricks.Foundation.Marks
import CppTricks.Tagger.Corpus
import Mathlib.Algebra.Order.Field.Rat
import Mathlib.Data.List.DropRight
import Mathlib.Tactic.FieldSimp
import Mathlib.Tactic.Positivity

/-! `eval_gene_tagger.py`: the entities of two corpus files and the scores. -/
namespace CppTricks.Tagger
open Foundation

structure NeTypeCounts where
  tp : ℕ
  fp : ℕ
  tn : ℕ
  fn : ℕ
  deriving DecidableEq

structure Evaluator where
  tp : ℕ
  tn : ℕ
  fp : ℕ
  fn : ℕ
  classCounts : NeTypeCounts
  deriving DecidableEq

def gene : List Char := ['G', 'E', 'N', 'E']

/-- The entity that a stream is in. Behind its end `start` is kept. -/
structure Current where
  type : Option (List Char)
  start : Option ℕ
  deriving DecidableEq

structure Comparison where
  evaluator : Evaluator
  pred : Current
  gs : Current
  total : ℕ
  deriving DecidableEq

def Comparison.init : Comparison := ⟨⟨0, 0, 0, 0, ⟨0, 0, 0, 0⟩⟩, ⟨none, none⟩, ⟨none, none⟩, 0⟩

def head : List Char → Except Raised Char
  | [] => .error .indexError
  | c :: _ => .ok c

def typeOf (tag : List Char) : List Char := (tag.splitOn '-').getLastD []

/-- Whether the current entity ends at a token. -/
def ends (curr : Option (List Char)) (tag : Option (List Char)) : Except Raised Bool :=
  match curr, tag with
  | none, _ => .ok false
  | some _, none => .ok true
  | some type, some tag => do
    let c ← head tag
    return c = 'O' || c = 'B' || (type ≠ typeOf tag && c = 'I')

/-- Whether an entity starts at a token. -/
def starts (curr : Option (List Char)) : Option (List Char) → Except Raised Bool
  | none => .ok false
  | some tag => do
    let c ← head tag
    return c = 'B' || (curr = none && c = 'I') || (curr.any (· ≠ typeOf tag) && c = 'I')

def Evaluator.countClass (ev : Evaluator) (c : Option (List Char))
    (f : NeTypeCounts → NeTypeCounts) : Except Raised Evaluator :=
  if c = some gene then .ok { ev with classCounts := f ev.classCounts } else .error .keyError

def Evaluator.matchUp (ev : Evaluator) (gs pred : Current) (gsEnds predEnds : Bool) :
    Except Raised Evaluator :=
  if gsEnds && predEnds then
    if gs.start = pred.start ∧ gs.type = pred.type then
      { ev with tp := ev.tp + 1 }.countClass pred.type fun n => { n with tp := n.tp + 1 }
    else do
      let ev ← { ev with fp := ev.fp + 1, fn := ev.fn + 1 }.countClass pred.type
        fun n => { n with fp := n.fp + 1 }
      ev.countClass gs.type fun n => { n with fn := n.fn + 1 }
  else if gsEnds then
    { ev with fn := ev.fn + 1 }.countClass gs.type fun n => { n with fn := n.fn + 1 }
  else if predEnds then
    { ev with fp := ev.fp + 1 }.countClass pred.type fun n => { n with fp := n.fp + 1 }
  else if pred.type = none then
    -- the source asks twice for the prediction, and never for the gold standard
    .ok { ev with
      tn := ev.tn + 1
      classCounts := { ev.classCounts with tn := ev.classCounts.tn + 1 } }
  else .ok ev

/-- The current entity behind a token. -/
def Current.update (curr : Current) (ended started : Bool) (type : List Char) (total : ℕ) :
    Current :=
  let curr := if ended then { curr with type := none } else curr
  if started then ⟨some type, some total⟩ else curr

/-- `tag==None and "O" or tag.split("-")[-1]` -/
def neType (tag : Option (List Char)) : List Char := tag.elim ['O'] typeOf

def compareToken (s : Comparison) (gold prediction : Option Token) : Except Raised Comparison :=
  if gold.map Prod.fst ≠ prediction.map Prod.fst then .error (.systemExit 1)
  else do
    let gsTag := gold.map Prod.snd
    let predTag := prediction.map Prod.snd
    let predEnds ← ends s.pred.type predTag
    let gsEnds ← ends s.gs.type gsTag
    let predStart ← starts s.pred.type predTag
    let gsStarts ← starts s.gs.type gsTag
    let evaluator ← s.evaluator.matchUp s.gs s.pred gsEnds predEnds
    return {
      evaluator
      pred := s.pred.update predEnds predStart (neType predTag) s.total
      gs := s.gs.update gsEnds gsStarts (neType gsTag) s.total
      total := s.total + 1 }

def compareFrom (s : Comparison) : List (Option Token) → List (Option Token) →
    Except Raised Comparison
  | [], _ => .ok s
  | _ :: _, [] => .error .stopIteration
  | gold :: golds, prediction :: predictions => do
    compareFrom (← compareToken s gold prediction) golds predictions

def compare (goldStandard prediction : List (Option Token)) : Except Raised Evaluator :=
  Comparison.evaluator <$> compareFrom .init goldStandard prediction

inductive Line
  | counts (found expected correct : ℕ)
  | header
  | scores (prec rec_ fscore : ℚ)
  deriving DecidableEq

/-- `n / float(m)`, or `1` if there are none -/
def ratio (n m : ℕ) : ℚ := if m = 0 then 1 else n / m

def classScores (c : NeTypeCounts) : Line :=
  let cRec := ratio c.tp (c.tp + c.fn)
  let cPrec := ratio c.tp (c.tp + c.fp)
  let fscore := if cPrec + cRec = 0 then 0 else 2 * cPrec * cRec / (cPrec + cRec)
  .scores cPrec cRec fscore

/-- What is printed, and how it ends. -/
def printScores (ev : Evaluator) : List Line × Except Raised Unit :=
  let prec := ratio ev.tp (ev.tp + ev.fp)
  let rec_ := ratio ev.tp (ev.tp + ev.fn)
  let printed := [.counts (ev.tp + ev.fp) (ev.tp + ev.fn) ev.tp, .header]
  -- the F-score of all classes is computed without the test that guards that of a class
  if prec + rec_ = 0 then (printed, .error .zeroDivisionError)
  else (printed ++ [classScores ev.classCounts], .ok ())

def corpusIterator (corpusFile : List Char) : List (Option Token) :=
  (readlines corpusFile).map readToken

def evaluate (keyFile predictionFile : List Char) : List Line × Except Raised Unit :=
  match compare (corpusIterator keyFile) (corpusIterator predictionFile) with
  | .error e => ([], .error e)
  | .ok ev => printScores ev

/-! ### The entities of a stream -/

/-- What a tag says of the entities around its token. -/
def markOf : Option (List Char) → Mark (List Char)
  | none => .outside
  | some [] => .plain
  | some (c :: cs) =>
    if c = 'O' then .outside
    else if c = 'B' then .begins (typeOf (c :: cs))
    else if c = 'I' then .inside (typeOf (c :: cs))
    else .plain

/-- The entities that end among the tokens, from number `i` on. -/
def entitiesFrom (curr : Option (ℕ × List Char)) (i : ℕ) (ls : List (Option Token)) :
    Finset (Stretch (List Char)) :=
  Mark.stretches curr i (ls.map fun l => markOf (l.map Prod.snd))

def entities (ls : List (Option Token)) : Finset (Stretch (List Char)) := entitiesFrom none 0 ls

/-- The variables of a stream hold its open entity. -/
def Tracks (cur : Current) (curr : Option (ℕ × List Char)) : Prop :=
  cur.type = curr.map Prod.snd ∧ ∀ entity ∈ curr, cur.start = some entity.1

variable {cur gs pred : Current} {curr gsCurr predCurr : Option (ℕ × List Char)}
  {tag : Option (List Char)} {i : ℕ}

theorem ends_eq (curr : Option (List Char)) (htag : tag ≠ some []) :
    ends curr tag = .ok (curr.any (markOf tag).closes) := by
  cases curr with
  | none => rfl
  | some type =>
    rcases tag with _ | _ | ⟨c, cs⟩
    · rfl
    · exact absurd rfl htag
    · unfold ends markOf head
      dsimp only [bind, Except.bind, pure, Except.pure]
      split_ifs with hO hB hI <;> simp [*, Mark.closes]

theorem starts_eq (curr : Option (List Char)) (htag : tag ≠ some []) :
    starts curr tag = .ok ((markOf tag).opens curr).isSome := by
  rcases tag with _ | _ | ⟨c, cs⟩
  · rfl
  · exact absurd rfl htag
  · unfold starts markOf head
    dsimp only [bind, Except.bind, pure, Except.pure]
    split_ifs with hO hB hI
    · simp [hO, Mark.opens]
    · simp [hB, Mark.opens]
    · subst hI
      cases curr with
      | none => rfl
      | some type =>
        by_cases htype : type = typeOf ('I' :: cs) <;> simp [htype, Mark.opens]
    · simp [hB, hI, Mark.opens]

theorem opens_markOf {curr : Option (List Char)} {type : List Char}
    (h : (markOf tag).opens curr = some type) : type = neType tag := by
  rcases tag with _ | _ | ⟨c, cs⟩
  · cases h
  · cases h
  · unfold markOf at h
    dsimp only at h
    split_ifs at h
    · cases h
    · exact (Option.some.inj h).symm
    · unfold Mark.opens at h
      dsimp only at h
      split_ifs at h
      exact (Option.some.inj h).symm
    · cases h

theorem Tracks.any_closes (h : Tracks cur curr) (i : ℕ) (tag : Option (List Char)) :
    cur.type.any (markOf tag).closes = (Mark.closed curr i (markOf tag)).isSome := by
  rw [h.1]
  cases curr with
  | none => rfl
  | some entity => cases hc : (markOf tag).closes entity.2 <;> simp [Mark.closed, hc]

theorem Tracks.update (h : Tracks cur curr) (i : ℕ) (tag : Option (List Char)) :
    Tracks (cur.update (cur.type.any (markOf tag).closes) ((markOf tag).opens cur.type).isSome
      (neType tag) i) (Mark.next curr i (markOf tag)) := by
  obtain ⟨htype, hstart⟩ := h
  unfold Mark.next Current.update
  rw [htype]
  cases hopens : (markOf tag).opens (curr.map Prod.snd) with
  | some type =>
    obtain rfl := opens_markOf hopens
    exact ⟨rfl, fun entity he => Option.some.inj he ▸ rfl⟩
  | none =>
    cases curr with
    | none => exact ⟨htype, fun entity he => absurd he (Option.not_mem_none entity)⟩
    | some entity =>
      cases hc : (markOf tag).closes entity.2 with
      | true => simp [Tracks, hc]
      | false =>
        have hany : ¬(Option.map Prod.snd (some entity)).any (markOf tag).closes = true := by
          simp [hc]
        rw [Option.filter_some_pos (by rw [hc]; rfl), if_neg hany]
        exact ⟨htype, hstart⟩

theorem Tracks.of_mem_closed (h : Tracks cur curr) {mark : Mark (List Char)}
    {e : Stretch (List Char)} (he : e ∈ Mark.closed curr i mark) :
    cur.type = some e.type ∧ cur.start = some e.start ∧ e.stop = i := by
  obtain ⟨entity, hcurr, he⟩ := Option.bind_eq_some_iff.mp he
  split_ifs at he
  obtain rfl := Option.some.inj he
  exact ⟨by rw [h.1, hcurr]; rfl, h.2 entity hcurr, rfl⟩

/-! ### What is counted -/

/-- What `ev'` has counted since `ev`, where the entities `gold` and `found` have ended. -/
structure Adds (ev ev' : Evaluator) (gold found : Finset (Stretch (List Char))) : Prop where
  tp_eq : ev'.tp = ev.tp + (gold ∩ found).card
  found_eq : ev'.tp + ev'.fp = ev.tp + ev.fp + found.card
  expected_eq : ev'.tp + ev'.fn = ev.tp + ev.fn + gold.card
  ofClass : ev.classCounts = ⟨ev.tp, ev.fp, ev.tn, ev.fn⟩ →
    ev'.classCounts = ⟨ev'.tp, ev'.fp, ev'.tn, ev'.fn⟩

variable {ev ev' : Evaluator} {a b : Option (Stretch (List Char))}

theorem countClass_some (ev : Evaluator) (type : List Char) (f : NeTypeCounts → NeTypeCounts) :
    ev.countClass (some type) f =
      if type = gene then .ok { ev with classCounts := f ev.classCounts }
      else .error .keyError := by
  unfold Evaluator.countClass
  simp only [Option.some.injEq]

theorem matchUp_both (ev : Evaluator) {e e' : Stretch (List Char)} (hstop : e.stop = e'.stop)
    (htype : gs.type = some e.type) (hstart : gs.start = some e.start)
    (htype' : pred.type = some e'.type) (hstart' : pred.start = some e'.start) :
    if e.type = gene ∧ e'.type = gene then
      ∃ ev', ev.matchUp gs pred true true = .ok ev' ∧ Adds ev ev' {e} {e'}
    else ev.matchUp gs pred true true = .error .keyError := by
  unfold Evaluator.matchUp
  simp only [Bool.and_self, if_true, htype, hstart, htype', hstart', countClass_some]
  by_cases hee : e = e'
  · subst hee
    simp only [and_self, if_true]
    by_cases hgene : e.type = gene
    · simp only [hgene, if_true]
      exact ⟨_, rfl, by simp, Nat.add_right_comm _ _ _, Nat.add_right_comm _ _ _,
        fun hc => by simp [hc]⟩
    · simp only [hgene, if_false]
  · have hne : ¬(some e.start = some e'.start ∧ some e.type = some e'.type) := by
      rintro ⟨hs, ht⟩
      apply hee
      cases e
      cases e'
      simp_all
    have hdisjoint : ({e} ∩ {e'} : Finset (Stretch (List Char))) = ∅ := by
      rw [← Finset.disjoint_iff_inter_eq_empty, Finset.disjoint_singleton]
      exact hee
    rw [if_neg hne]
    by_cases hgene' : e'.type = gene
    · by_cases hgene : e.type = gene
      · simp only [hgene, hgene', if_true, and_self, bind, Except.bind]
        exact ⟨_, rfl, by simp [hdisjoint], rfl, rfl, fun hc => by simp [hc]⟩
      · simp only [hgene, hgene', if_false, if_true, false_and, bind, Except.bind]
    · simp only [hgene', if_false, and_false, bind, Except.bind]

/-- The entities that end at one token are counted, unless one of them has no class. -/
theorem matchUp_spec (ev : Evaluator)
    (ha : ∀ e ∈ a, gs.type = some e.type ∧ gs.start = some e.start ∧ e.stop = i)
    (hb : ∀ e ∈ b, pred.type = some e.type ∧ pred.start = some e.start ∧ e.stop = i) :
    if (∀ e ∈ a, e.type = gene) ∧ ∀ e ∈ b, e.type = gene then
      ∃ ev', ev.matchUp gs pred a.isSome b.isSome = .ok ev' ∧ Adds ev ev' a.toFinset b.toFinset
    else ev.matchUp gs pred a.isSome b.isSome = .error .keyError := by
  cases a with
  | none =>
    cases b with
    | none =>
      unfold Evaluator.matchUp
      simp only [Option.not_mem_none, IsEmpty.forall_iff, implies_true, and_self, if_true,
        Option.isSome_none, Bool.and_false, Bool.false_eq_true, if_false]
      split_ifs
      · exact ⟨_, rfl, rfl, rfl, rfl, fun hc => by simp [hc]⟩
      · exact ⟨_, rfl, rfl, rfl, rfl, id⟩
    | some e' =>
      obtain ⟨htype, -, -⟩ := hb e' rfl
      unfold Evaluator.matchUp
      simp only [Option.not_mem_none, IsEmpty.forall_iff, implies_true, true_and,
        Option.mem_some_iff, forall_eq', Option.isSome_none, Option.isSome_some, Bool.false_and,
        Bool.false_eq_true, if_false, if_true, htype, countClass_some]
      by_cases hgene : e'.type = gene
      · simp only [hgene, if_true]
        exact ⟨_, rfl, rfl, rfl, rfl, fun hc => by simp [hc]⟩
      · simp only [hgene, if_false]
  | some e =>
    obtain ⟨htype, hstart, hstop⟩ := ha e rfl
    cases b with
    | none =>
      unfold Evaluator.matchUp
      simp only [Option.not_mem_none, IsEmpty.forall_iff, implies_true, and_true,
        Option.mem_some_iff, forall_eq', Option.isSome_none, Option.isSome_some, Bool.and_false,
        Bool.false_eq_true, if_false, if_true, htype, countClass_some]
      by_cases hgene : e.type = gene
      · simp only [hgene, if_true]
        exact ⟨_, rfl, rfl, rfl, rfl, fun hc => by simp [hc]⟩
      · simp only [hgene, if_false]
    | some e' =>
      obtain ⟨htype', hstart', hstop'⟩ := hb e' rfl
      simp only [Option.mem_some_iff, forall_eq']
      exact matchUp_both ev (hstop.trans hstop'.symm) htype hstart htype' hstart'

theorem Adds.refl (ev : Evaluator) : Adds ev ev ∅ ∅ := ⟨rfl, rfl, rfl, id⟩

/-- The entities that end at one token, and those that end behind it. -/
theorem Adds.cons {ev'' : Evaluator} {gold prediction : Option Token}
    {golds predictions : List (Option Token)}
    (h : Adds ev ev' (Mark.closed gsCurr i (markOf (gold.map Prod.snd))).toFinset
      (Mark.closed predCurr i (markOf (prediction.map Prod.snd))).toFinset)
    (hrest : Adds ev' ev''
      (entitiesFrom (Mark.next gsCurr i (markOf (gold.map Prod.snd))) (i + 1) golds)
      (entitiesFrom (Mark.next predCurr i (markOf (prediction.map Prod.snd))) (i + 1)
        predictions)) :
    Adds ev ev'' (entitiesFrom gsCurr i (gold :: golds))
      (entitiesFrom predCurr i (prediction :: predictions)) := by
  unfold entitiesFrom at hrest ⊢
  rw [List.map_cons, List.map_cons]
  constructor
  · rw [Mark.card_inter_stretches_cons, hrest.tp_eq, h.tp_eq, Nat.add_assoc]
  · rw [Mark.card_stretches_cons, hrest.found_eq, h.found_eq, Nat.add_assoc]
  · rw [Mark.card_stretches_cons, hrest.expected_eq, h.expected_eq, Nat.add_assoc]
  · exact fun hc => hrest.ofClass (h.ofClass hc)

/-! ### Runs -/

/-- No tag of the stream is empty. -/
def Tagged (ls : List (Option Token)) : Prop := ∀ l ∈ ls, l.map Prod.snd ≠ some []

theorem compareToken_spec {s : Comparison} {gold prediction : Option Token}
    (hgs : Tracks s.gs gsCurr) (hpred : Tracks s.pred predCurr)
    (hgold : gold.map Prod.snd ≠ some []) (hprediction : prediction.map Prod.snd ≠ some [])
    (hwords : gold.map Prod.fst = prediction.map Prod.fst) :
    let a := Mark.closed gsCurr s.total (markOf (gold.map Prod.snd))
    let b := Mark.closed predCurr s.total (markOf (prediction.map Prod.snd))
    if (∀ e ∈ a, e.type = gene) ∧ ∀ e ∈ b, e.type = gene then
      ∃ s', compareToken s gold prediction = .ok s' ∧ s'.total = s.total + 1 ∧
        Adds s.evaluator s'.evaluator a.toFinset b.toFinset ∧
        Tracks s'.gs (Mark.next gsCurr s.total (markOf (gold.map Prod.snd))) ∧
        Tracks s'.pred (Mark.next predCurr s.total (markOf (prediction.map Prod.snd)))
    else compareToken s gold prediction = .error .keyError := by
  intro a b
  have hspec := matchUp_spec (a := a) (b := b) s.evaluator (fun e => hgs.of_mem_closed)
    (fun e => hpred.of_mem_closed)
  have hgsEnds := hgs.any_closes s.total (gold.map Prod.snd)
  have hpredEnds := hpred.any_closes s.total (prediction.map Prod.snd)
  have hstep : compareToken s gold prediction =
      (s.evaluator.matchUp s.gs s.pred a.isSome b.isSome).map fun ev =>
        ⟨ev, s.pred.update (s.pred.type.any (markOf (prediction.map Prod.snd)).closes)
            ((markOf (prediction.map Prod.snd)).opens s.pred.type).isSome
            (neType (prediction.map Prod.snd)) s.total,
          s.gs.update (s.gs.type.any (markOf (gold.map Prod.snd)).closes)
            ((markOf (gold.map Prod.snd)).opens s.gs.type).isSome
            (neType (gold.map Prod.snd)) s.total, s.total + 1⟩ := by
    unfold compareToken
    rw [if_neg (not_not_intro hwords)]
    dsimp only
    rw [ends_eq _ hprediction, ends_eq _ hgold, starts_eq _ hprediction, starts_eq _ hgold]
    dsimp only [bind, Except.bind]
    rw [hgsEnds, hpredEnds]
    cases s.evaluator.matchUp s.gs s.pred a.isSome b.isSome <;> rfl
  split_ifs with hgene
  · rw [if_pos hgene] at hspec
    obtain ⟨ev', hok, hadds⟩ := hspec
    rw [hstep, hok]
    exact ⟨_, rfl, rfl, hadds, hgs.update _ _, hpred.update _ _⟩
  · rw [if_neg hgene] at hspec
    rw [hstep, hspec]
    rfl

theorem compareFrom_cons (s : Comparison) (gold prediction : Option Token)
    (golds predictions : List (Option Token)) :
    compareFrom s (gold :: golds) (prediction :: predictions) =
      compareToken s gold prediction >>= fun s' => compareFrom s' golds predictions := rfl

theorem forall_mem_entitiesFrom_cons {l : Option Token} {ls : List (Option Token)}
    {p : Stretch (List Char) → Prop} : (∀ e ∈ entitiesFrom curr i (l :: ls), p e) ↔
      (∀ e ∈ Mark.closed curr i (markOf (l.map Prod.snd)), p e) ∧
        ∀ e ∈ entitiesFrom (Mark.next curr i (markOf (l.map Prod.snd))) (i + 1) ls, p e := by
  unfold entitiesFrom
  rw [List.map_cons, Mark.stretches_cons]
  simp only [Finset.mem_union, Option.mem_toFinset, or_imp, forall_and]

/-- The comparison comes to the end of the gold standard if the words are the same and every entity
that ends has the one class. -/
theorem compareFrom_ok_iff {s : Comparison} {golds predictions : List (Option Token)}
    (hgs : Tracks s.gs gsCurr) (hpred : Tracks s.pred predCurr) (hgolds : Tagged golds)
    (hpredictions : Tagged predictions) : (∃ s', compareFrom s golds predictions = .ok s') ↔
      golds.map (·.map Prod.fst) <+: predictions.map (·.map Prod.fst) ∧
        (∀ e ∈ entitiesFrom gsCurr s.total golds, e.type = gene) ∧
        ∀ e ∈ entitiesFrom predCurr s.total (predictions.take golds.length), e.type = gene := by
  induction golds generalizing s gsCurr predCurr predictions with
  | nil =>
    refine iff_of_true ⟨s, rfl⟩ ⟨List.nil_prefix, ?_, ?_⟩
    · exact fun e he => absurd he (Finset.notMem_empty e)
    · exact fun e he => absurd he (Finset.notMem_empty e)
  | cons gold golds ih =>
    cases predictions with
    | nil =>
      refine iff_of_false ?_ ?_
      · rintro ⟨s', h⟩
        cases h
      · rintro ⟨hpre, -⟩
        cases List.prefix_nil.mp hpre
    | cons prediction predictions =>
      obtain ⟨hgold, hgolds⟩ := List.forall_mem_cons.mp hgolds
      obtain ⟨hprediction, hpredictions⟩ := List.forall_mem_cons.mp hpredictions
      rw [compareFrom_cons, List.map_cons, List.map_cons, List.cons_prefix_cons, List.length_cons,
        List.take_succ_cons, forall_mem_entitiesFrom_cons, forall_mem_entitiesFrom_cons]
      by_cases hwords : gold.map Prod.fst = prediction.map Prod.fst
      · have hspec := compareToken_spec hgs hpred hgold hprediction hwords
        dsimp only at hspec
        split_ifs at hspec with hgene
        · obtain ⟨s', hok, htotal, -, hgs', hpred'⟩ := hspec
          have hrest := ih hgs' hpred' hgolds hpredictions
          rw [htotal] at hrest
          rw [hok]
          refine hrest.trans ?_
          tauto
        · rw [hspec]
          refine iff_of_false ?_ ?_
          · rintro ⟨s', h⟩
            cases h
          · tauto
      · refine iff_of_false ?_ (fun h => hwords h.1.1)
        rintro ⟨s', h⟩
        rw [compareToken, if_pos hwords] at h
        cases h

theorem adds_compareFrom {s s' : Comparison} {golds predictions : List (Option Token)}
    (hgs : Tracks s.gs gsCurr) (hpred : Tracks s.pred predCurr) (hgolds : Tagged golds)
    (hpredictions : Tagged predictions) (h : compareFrom s golds predictions = .ok s') :
    Adds s.evaluator s'.evaluator (entitiesFrom gsCurr s.total golds)
      (entitiesFrom predCurr s.total (predictions.take golds.length)) := by
  induction golds generalizing s gsCurr predCurr predictions with
  | nil =>
    obtain rfl := Except.ok.inj h
    exact Adds.refl _
  | cons gold golds ih =>
    cases predictions with
    | nil => cases h
    | cons prediction predictions =>
      obtain ⟨hgold, hgolds⟩ := List.forall_mem_cons.mp hgolds
      obtain ⟨hprediction, hpredictions⟩ := List.forall_mem_cons.mp hpredictions
      rw [compareFrom_cons] at h
      by_cases hwords : gold.map Prod.fst = prediction.map Prod.fst
      · have hspec := compareToken_spec hgs hpred hgold hprediction hwords
        dsimp only at hspec
        split_ifs at hspec with hgene
        · obtain ⟨s₁, hok, htotal, hadds, hgs', hpred'⟩ := hspec
          rw [hok] at h
          have hrest := ih hgs' hpred' hgolds hpredictions h
          rw [htotal] at hrest
          exact hadds.cons hrest
        · rw [hspec] at h
          cases h
      · rw [compareToken, if_pos hwords] at h
        cases h

/-! ### The files -/

/-- The last field of a line that does not end in a blank. -/
theorem getLastD_splitOn_ne_nil {line : List Char} (hne : line ≠ [])
    (hlast : line.getLast hne ≠ ' ') :
    (line.splitOn ' ').getLastD [] ≠ [] := by
  induction line with
  | nil => exact absurd rfl hne
  | cons c cs ih =>
    rw [List.splitOn_cons_eq_if_modifyHead]
    cases cs with
    | nil =>
      have hc : (c == ' ') = false := beq_false_of_ne hlast
      simp [hc]
    | cons c' cs =>
      have hrest := ih (List.cons_ne_nil _ _) (by rwa [List.getLast_cons_cons] at hlast)
      obtain ⟨field, fields, hfields⟩ :=
        List.exists_cons_of_ne_nil (List.splitOn_ne_nil ' ' (c' :: cs))
      rw [hfields] at hrest ⊢
      split_ifs
      · exact hrest
      · cases fields with
        | nil => exact List.cons_ne_nil _ _
        | cons field' fields => exact hrest

theorem tagged_corpusIterator (corpusFile : List Char) : Tagged (corpusIterator corpusFile) := by
  intro l hl htag
  obtain ⟨line, -, rfl⟩ := List.mem_map.mp hl
  unfold readToken at htag
  dsimp only at htag
  split_ifs at htag with hline
  · cases htag
  refine getLastD_splitOn_ne_nil hline ?_ (Option.some.inj htag)
  have hspace : ¬isSpace ((strip line).getLast hline) = true :=
    List.rdropWhile_last_not isSpace (line.dropWhile isSpace) hline
  intro hblank
  rw [hblank] at hspace
  exact hspace (by decide)

/-- The lines for the entities of the key and those that were found. -/
def scoresOf (gold found : Finset (Stretch (List Char))) : List Line :=
  [.counts found.card gold.card (gold ∩ found).card, .header,
    .scores (ratio (gold ∩ found).card found.card) (ratio (gold ∩ found).card gold.card)
      (ratio (2 * (gold ∩ found).card) (gold.card + found.card))]

theorem ratio_nonneg (n m : ℕ) : 0 ≤ ratio n m := by
  unfold ratio
  split_ifs
  · exact zero_le_one
  · positivity

theorem ratio_eq_zero_iff {n m : ℕ} : ratio n m = 0 ↔ n = 0 ∧ m ≠ 0 := by
  unfold ratio
  split_ifs with hm
  · simp [hm]
  · rw [div_eq_zero_iff, Nat.cast_eq_zero, Nat.cast_eq_zero]
    tauto

theorem ratio_add_ratio_eq_zero_iff {n m k : ℕ} :
    ratio n m + ratio n k = 0 ↔ n = 0 ∧ m ≠ 0 ∧ k ≠ 0 := by
  rw [add_eq_zero_iff_of_nonneg (ratio_nonneg n m) (ratio_nonneg n k), ratio_eq_zero_iff,
    ratio_eq_zero_iff]
  tauto

theorem fscore_eq {n m k : ℕ} (hm : n ≤ m) (hk : n ≤ k) (h : ratio n m + ratio n k ≠ 0) :
    2 * ratio n m * ratio n k / (ratio n m + ratio n k) = ratio (2 * n) (k + m) := by
  rw [Ne, ratio_add_ratio_eq_zero_iff] at h
  obtain rfl | hn := Nat.eq_zero_or_pos n
  · obtain rfl | hm0 := Nat.eq_zero_or_pos m
    · obtain rfl | hk0 := Nat.eq_zero_or_pos k
      · norm_num [ratio]
      · simp [ratio, hk0.ne']
    · obtain rfl : k = 0 := by
        by_contra hk0
        exact h ⟨rfl, hm0.ne', hk0⟩
      simp [ratio, hm0.ne']
  · have hm0 : m ≠ 0 := by omega
    have hk0 : k ≠ 0 := by omega
    have hsum : k + m ≠ 0 := by omega
    unfold ratio
    rw [if_neg hm0, if_neg hk0, if_neg hsum]
    push_cast
    field_simp

/-- The F-score of all classes is a division by zero if there are genes and some were found, but
none of them. -/
theorem printScores_eq {gold found : Finset (Stretch (List Char))} {ev : Evaluator}
    (h : Adds Comparison.init.evaluator ev gold found) : printScores ev =
      if gold ≠ ∅ ∧ found ≠ ∅ ∧ gold ∩ found = ∅ then
        ([.counts found.card gold.card 0, .header], .error .zeroDivisionError)
      else (scoresOf gold found, .ok ()) := by
  have htp : ev.tp = (gold ∩ found).card := h.tp_eq.trans (Nat.zero_add _)
  have hfound : ev.tp + ev.fp = found.card := h.found_eq.trans (Nat.zero_add _)
  have hexpected : ev.tp + ev.fn = gold.card := h.expected_eq.trans (Nat.zero_add _)
  have hzero : ratio (gold ∩ found).card found.card + ratio (gold ∩ found).card gold.card = 0 ↔
      gold ≠ ∅ ∧ found ≠ ∅ ∧ gold ∩ found = ∅ := by
    rw [ratio_add_ratio_eq_zero_iff, Finset.card_eq_zero, Ne, Finset.card_eq_zero, Ne,
      Finset.card_eq_zero]
    tauto
  unfold printScores classScores scoresOf
  rw [h.ofClass rfl]
  dsimp only
  rw [hfound, hexpected, htp]
  simp only [hzero]
  split_ifs with hnone
  · rw [hnone.2.2, Finset.card_empty]
  · rw [fscore_eq (Finset.card_le_card Finset.inter_subset_right)
      (Finset.card_le_card Finset.inter_subset_left) (hzero.not.mpr hnone)]
    rfl

/-- The evaluation of two files comes to its end if the words of the key are a beginning of those
of the prediction, every entity that ends is a gene, and of the genes, if there are any and some
were found, one is found. -/
theorem evaluate_eq_ok_iff (keyFile predictionFile : List Char) (lines : List Line) :
    let golds := corpusIterator keyFile
    let predictions := corpusIterator predictionFile
    let gold := entities golds
    let found := entities (predictions.take golds.length)
    evaluate keyFile predictionFile = (lines, .ok ()) ↔
      golds.map (·.map Prod.fst) <+: predictions.map (·.map Prod.fst) ∧
        (∀ e ∈ gold, e.type = gene) ∧ (∀ e ∈ found, e.type = gene) ∧
        ¬(gold ≠ ∅ ∧ found ≠ ∅ ∧ gold ∩ found = ∅) ∧ lines = scoresOf gold found := by
  intro golds predictions gold found
  have hinit : ∀ {cur : Current}, cur = ⟨none, none⟩ → Tracks cur none := by
    rintro cur rfl
    exact ⟨rfl, fun entity he => absurd he (Option.not_mem_none entity)⟩
  have hgolds := tagged_corpusIterator keyFile
  have hpredictions := tagged_corpusIterator predictionFile
  have hok := compareFrom_ok_iff (s := .init) (hinit rfl) (hinit rfl) hgolds hpredictions
  cases hrun : compareFrom .init golds predictions with
  | error e =>
    have hevaluate : evaluate keyFile predictionFile = ([], .error e) := by
      unfold evaluate compare
      rw [hrun]
      rfl
    rw [hevaluate]
    refine iff_of_false (fun h => nomatch congrArg Prod.snd h) ?_
    rintro ⟨hwords, hgold, hfound, -⟩
    obtain ⟨s', hrun'⟩ := hok.mpr ⟨hwords, hgold, hfound⟩
    cases hrun.symm.trans hrun'
  | ok s' =>
    have hevaluate : evaluate keyFile predictionFile = printScores s'.evaluator := by
      unfold evaluate compare
      rw [hrun]
      rfl
    obtain ⟨hwords, hgold, hfound⟩ := hok.mp ⟨s', hrun⟩
    have hadds : Adds Comparison.init.evaluator s'.evaluator gold found :=
      adds_compareFrom (hinit rfl) (hinit rfl) hgolds hpredictions hrun
    rw [hevaluate, printScores_eq hadds]
    split_ifs with hnone
    · exact iff_of_false (fun h => nomatch congrArg Prod.snd h) fun h => h.2.2.2.1 hnone
    · constructor
      · intro h
        exact ⟨hwords, hgold, hfound, hnone, (congrArg Prod.fst h).symm⟩
      · rintro ⟨-, -, -, -, rfl⟩
        rfl

end CppTricks.Tagger
