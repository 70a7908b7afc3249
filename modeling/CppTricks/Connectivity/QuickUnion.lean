import CppTricks.Foundation.Labelling
import CppTricks.Foundation.Forest
import Mathlib.Algebra.Group.Nat.Even
import Mathlib.Data.List.Basic

/-! The connectivity problem: `quick_find` with a flat colouring and `quick_union` with a
forest of parent pointers. `none` stands for an access outside an array, or outside `vpq`. -/
namespace CppTricks.Connectivity
open Foundation

/-- What the loop over `vpq` carries: `int id[N]` and the text printed so far. -/
structure Links where
  id : List ℕ
  result : String

/-- `for (i = 0; i < N; i++) id[i] = i;`. The source fixes `N = 20`. -/
def initial (N : ℕ) : Links := ⟨List.range N, ""⟩

def announce (p q : ℕ) : String := toString p ++ "-" ++ (toString q ++ " ")

/-- `if (id[i] == t) id[i] = id[q];` -/
def relabel (t q : ℕ) (id : List ℕ) (i : ℕ) : Option (List ℕ) := do
  let x ← id[i]?
  if x = t then
    let y ← id[q]?
    return id.set i y
  else return id

def quickFindBody (N : ℕ) (st : Links) (p q : ℕ) : Option Links := do
  let idp ← st.id[p]?
  let idq ← st.id[q]?
  if idp = idq then return st
  else
    let id ← (List.range N).foldlM (relabel idp q) st.id
    return ⟨id, st.result ++ announce p q⟩

/-- `for (i = a; i != id[i]; i = id[i])`, run for at most `fuel` tests of the condition. -/
def chase (id : List ℕ) : ℕ → ℕ → Option ℕ
  | 0, _ => none
  | fuel + 1, i => do
    let parent ← id[i]?
    if i ≠ parent then chase id fuel parent else return i

def quickUnionBody (fuel : ℕ) (st : Links) (p q : ℕ) : Option Links := do
  let i ← chase st.id fuel p
  let j ← chase st.id fuel q
  if i = j then return st
  else return ⟨st.id.set i j, st.result ++ announce p q⟩

def pairLoop (body : Links → ℕ → ℕ → Option Links) : List ℕ → Links → Option Links
  | [], st => some st
  | [_], _ => none
  | p :: q :: rest, st => do
    let st' ← body st p q
    pairLoop body rest st'

def quickFind (N : ℕ) (vpq : List ℕ) : Option String :=
  (pairLoop (quickFindBody N) vpq (initial N)).map Links.result

def quickUnion (N fuel : ℕ) (vpq : List ℕ) : Option String :=
  (pairLoop (quickUnionBody fuel) vpq (initial N)).map Links.result

def pairsOf : List ℕ → List (ℕ × ℕ)
  | p :: q :: rest => (p, q) :: pairsOf rest
  | _ => []

open Classical in
/-- The pairs, in input order, that the pairs before them do not already connect. -/
noncomputable def novelPairs (earlier : List (ℕ × ℕ)) : List (ℕ × ℕ) → List (ℕ × ℕ)
  | [] => []
  | pq :: rest =>
    if Connected earlier pq.1 pq.2 then novelPairs (earlier ++ [pq]) rest
    else pq :: novelPairs (earlier ++ [pq]) rest

def render : List (ℕ × ℕ) → String
  | [] => ""
  | pq :: rest => announce pq.1 pq.2 ++ render rest

open Classical in
/-- A loop body that keeps `Inv` and prints exactly the novel pairs, over the nodes below `N`. -/
def Refines (N : ℕ) (body : Links → ℕ → ℕ → Option Links)
    (Inv : List (ℕ × ℕ) → List ℕ → Prop) : Prop :=
  ∀ earlier st p q, Inv earlier st.id → p < N → q < N → ∃ st', body st p q = some st' ∧
    Inv (earlier ++ [(p, q)]) st'.id ∧
    st'.result = if Connected earlier p q then st.result else st.result ++ announce p q

/-- One pair after the other: the invariant reaches the end of `vpq` with the novel pairs
printed in order. -/
theorem pairLoop_refines {N : ℕ} {body : Links → ℕ → ℕ → Option Links}
    {Inv : List (ℕ × ℕ) → List ℕ → Prop} (hbody : Refines N body Inv) (vpq : List ℕ)
    (heven : Even vpq.length) (hvpq : ∀ x ∈ vpq, x < N) (earlier : List (ℕ × ℕ)) (st : Links)
    (hinv : Inv earlier st.id) :
    ∃ st', pairLoop body vpq st = some st' ∧ Inv (earlier ++ pairsOf vpq) st'.id ∧
      st'.result = st.result ++ render (novelPairs earlier (pairsOf vpq)) := by
  induction vpq using pairsOf.induct generalizing earlier st with
  | case1 p q rest ih =>
    obtain ⟨st₁, hst₁, hinv₁, hres₁⟩ := hbody earlier st p q hinv (hvpq p (by simp))
      (hvpq q (by simp))
    obtain ⟨st₂, hst₂, hinv₂, hres₂⟩ := ih (by simpa [Nat.even_add_one] using heven)
      (fun x hx => hvpq x (by simp [hx])) (earlier ++ [(p, q)]) st₁ hinv₁
    refine ⟨st₂, by simp [pairLoop, hst₁, hst₂], by simpa [pairsOf] using hinv₂, ?_⟩
    rw [hres₂, hres₁]
    simp only [pairsOf, novelPairs]
    split_ifs <;> simp [render, String.append_assoc]
  | case2 vpq hvpq' =>
    match vpq, heven, hvpq' with
    | [], _, _ =>
      exact ⟨st, rfl, by simpa [pairsOf] using hinv, by simp [pairsOf, novelPairs, render]⟩
    | [_], heven, _ => exact absurd heven Nat.not_even_one
    | p :: q :: rest, _, hne => exact (hne p q rest rfl).elim

/-! ### `quick_find` -/

/-- The relabelling loop rewrites every `t` met so far; `id[q]` is not one of them. -/
private theorem relabel_range {t q y : ℕ} {id : List ℕ} (hq : id[q]? = some y) (hy : y ≠ t)
    (k : ℕ) (hk : k ≤ id.length) :
    ∃ id', (List.range k).foldlM (relabel t q) id = some id' ∧ id'.length = id.length ∧
      ∀ x, id'[x]? = if x < k ∧ id[x]? = some t then some y else id[x]? := by
  induction k with
  | zero => exact ⟨id, rfl, rfl, by simp⟩
  | succ k ih =>
    obtain ⟨id', hfold, hlen, hget⟩ := ih (by omega)
    have hq' : id'[q]? = some y := by
      rw [hget, hq]
      simp [hy]
    have hk' : k < id.length := by omega
    have hidk : id'[k]? = id[k]? := by simp [hget k]
    rw [List.range_succ, List.foldlM_append, hfold]
    simp only [Option.bind_eq_bind, Option.bind_some, List.foldlM_cons, List.foldlM_nil, relabel,
      hidk, hq', List.getElem?_eq_getElem hk']
    by_cases ht : id[k] = t
    · refine ⟨id'.set k y, by simp [ht], by simp [hlen], ?_⟩
      intro x
      rw [List.getElem?_set, hget x]
      by_cases hx : k = x
      · subst x
        simp [hlen, hk', ht]
      · have : x < k + 1 ↔ x < k := by omega
        simp [hx, this]
    · refine ⟨id', by simp [ht], hlen, ?_⟩
      intro x
      rw [hget x]
      by_cases hx : x = k
      · subst x
        simp [hk', ht]
      · have : x < k + 1 ↔ x < k := by omega
        simp [this]

/-- Equal entries of `id` mark exactly the connected nodes. -/
def Coloured (N : ℕ) (pairs : List (ℕ × ℕ)) (id : List ℕ) : Prop :=
  id.length = N ∧ Represents {x | x < N} (fun x => id[x]?) (Connected pairs)

theorem quickFindBody_refines (N : ℕ) : Refines N (quickFindBody N) (Coloured N) := by
  intro earlier st p q ⟨hlen, hrep⟩ hp hq
  have hp' : st.id[p]? = some st.id[p] := List.getElem?_eq_getElem (by omega)
  have hq' : st.id[q]? = some st.id[q] := List.getElem?_eq_getElem (by omega)
  have hpq : st.id[p]? = st.id[q]? ↔ Connected earlier p q := hrep hp hq
  simp only [quickFindBody, hp', hq', Option.bind_eq_bind, Option.bind_some]
  by_cases hc : st.id[p] = st.id[q]
  · have he : st.id[p]? = st.id[q]? := by rw [hp', hq', hc]
    refine ⟨st, by simp [hc], ⟨hlen, hrep.append_pair hp hq he⟩, ?_⟩
    rw [if_pos (hpq.mp he)]
  · have hne : ¬ Connected earlier p q := fun h => hc (by simpa [hp', hq'] using hpq.mpr h)
    obtain ⟨id', hfold, hlen', hget⟩ := relabel_range hq' (Ne.symm hc) N (by omega)
    refine ⟨⟨id', st.result ++ announce p q⟩, by simp [hc, hfold], ⟨by simp [hlen', hlen], ?_⟩, ?_⟩
    · apply (hrep.merge hp hq).congr
      intro x hx
      have hx' : x < N := hx
      simp [merge, hget x, hx', hp', hq']
    · rw [if_neg hne]

/-! ### `quick_union` -/

def parentOf (id : List ℕ) (x : ℕ) : ℕ := (id[x]?).getD x

theorem chase_of_rootOf {N fuel : ℕ} (hfuel : N ≤ fuel) {id : List ℕ} (hlen : id.length = N)
    (hmem : ∀ x < N, parentOf id x < N) {a r : ℕ} (ha : a < N) (h : RootOf (parentOf id) a r) :
    chase id fuel a = some r := by
  have hroot := h.isRoot
  obtain ⟨n, hn, hr⟩ := h.exists_lt_card (s := Finset.range N) (by simpa using hmem) (by simpa)
  rw [Finset.card_range] at hn
  replace hfuel : n < fuel := by omega
  clear hn h
  induction fuel generalizing n a with
  | zero => omega
  | succ fuel ih =>
    have hget : id[a]? = some (parentOf id a) := by
      simp [parentOf, List.getElem?_eq_getElem (show a < id.length by omega)]
    simp only [chase, hget, Option.bind_eq_bind, Option.bind_some]
    by_cases hstop : a = parentOf id a
    · rw [if_neg (by simpa using hstop), ← hr, Function.iterate_fixed hstop.symm]
      rfl
    · rw [if_pos hstop]
      match n, hr with
      | 0, hr =>
        obtain rfl : a = r := hr
        exact absurd hroot.symm hstop
      | n + 1, hr => exact ih (hmem a ha) n hr (by omega)

/-- The parent pointers stay among the nodes, every climb ends, and equal roots mark exactly
the connected nodes. -/
structure Rooted (N fuel : ℕ) (pairs : List (ℕ × ℕ)) (id : List ℕ) : Prop where
  length_eq : id.length = N
  parent_lt : ∀ x < N, parentOf id x < N
  exists_root : ∀ x < N, ∃ r, RootOf (parentOf id) x r
  represents : Represents {x | x < N} (chase id fuel) (Connected pairs)

theorem Rooted.chase_root {N fuel : ℕ} (hfuel : N ≤ fuel) {pairs : List (ℕ × ℕ)} {id : List ℕ}
    (h : Rooted N fuel pairs id) {a : ℕ} (ha : a < N) :
    ∃ r, chase id fuel a = some r ∧ id[r]? = some r := by
  obtain ⟨r, hr⟩ := h.exists_root a ha
  have hrN : r < N := hr.mem (s := {x | x < N}) h.parent_lt ha
  refine ⟨r, chase_of_rootOf hfuel h.length_eq h.parent_lt ha hr, ?_⟩
  have hself := hr.isRoot
  have hlen := h.length_eq
  unfold parentOf at hself
  rw [List.getElem?_eq_getElem (by omega)] at hself
  rw [List.getElem?_eq_getElem (by omega)]
  exact congrArg some hself

private theorem parentOf_set {id : List ℕ} {i j : ℕ} (hi : i < id.length) :
    parentOf (id.set i j) = Function.update (parentOf id) i j := by
  funext x
  by_cases hx : x = i
  · subst x
    simp [parentOf, hi]
  · simp [parentOf, Ne.symm hx, Function.update_of_ne hx]

theorem quickUnionBody_refines {N fuel : ℕ} (hfuel : N ≤ fuel) :
    Refines N (quickUnionBody fuel) (Rooted N fuel) := by
  intro earlier st p q ⟨hlen, hmem, hroots, hrep⟩ hp hq
  obtain ⟨i, hi⟩ := hroots p hp
  obtain ⟨j, hj⟩ := hroots q hq
  have hpi := chase_of_rootOf hfuel hlen hmem hp hi
  have hqj := chase_of_rootOf hfuel hlen hmem hq hj
  have hpq : chase st.id fuel p = chase st.id fuel q ↔ Connected earlier p q := hrep hp hq
  simp only [quickUnionBody, hpi, hqj, Option.bind_eq_bind, Option.bind_some]
  by_cases hij : i = j
  · have he : chase st.id fuel p = chase st.id fuel q := by rw [hpi, hqj, hij]
    refine ⟨st, by simp [hij], ⟨hlen, hmem, hroots, hrep.append_pair hp hq he⟩, ?_⟩
    rw [if_pos (hpq.mp he)]
  have hne : ¬ Connected earlier p q := fun h => hij (by simpa [hpi, hqj] using hpq.mpr h)
  have hiN : i < N := hi.mem (s := {x | x < N}) hmem hp
  have hjN : j < N := hj.mem (s := {x | x < N}) hmem hq
  have hset := parentOf_set (j := j) (show i < st.id.length by omega)
  have hmem' : ∀ x < N, parentOf (st.id.set i j) x < N := by
    intro x hx
    rw [hset]
    by_cases hxi : x = i
    · simpa [hxi] using hjN
    · simpa [Function.update_of_ne hxi] using hmem x hx
  have hlink : ∀ {x r}, RootOf (parentOf st.id) x r →
      RootOf (parentOf (st.id.set i j)) x (if r = i then j else r) := by
    intro x r h
    rw [hset]
    exact h.link hi.isRoot hj.isRoot hij
  refine ⟨⟨st.id.set i j, st.result ++ announce p q⟩, by simp [hij], ⟨by simpa using hlen, hmem',
    fun x hx => ?_, ?_⟩, by rw [if_neg hne]⟩
  · obtain ⟨r, hr⟩ := hroots x hx
    exact ⟨_, hlink hr⟩
  · -- the new root of every node is the merge of the old ones
    apply (hrep.merge hp hq).congr
    intro x hx
    obtain ⟨r, hr⟩ := hroots x hx
    rw [chase_of_rootOf hfuel (by simpa using hlen) hmem' hx (hlink hr)]
    simp only [merge, chase_of_rootOf hfuel hlen hmem hx hr, hpi, hqj, Option.some.injEq]
    split_ifs <;> rfl

/-! ### Both programs from `id[i] = i` -/

theorem coloured_initial (N : ℕ) : Coloured N [] (initial N).id := by
  refine ⟨List.length_range, fun a ha b hb => ?_⟩
  have ha' : a < N := ha
  have hb' : b < N := hb
  simp [initial, ha', hb']

theorem rooted_initial {N fuel : ℕ} (hfuel : N ≤ fuel) : Rooted N fuel [] (initial N).id := by
  have hself : ∀ x < N, parentOf (initial N).id x = x := by
    intro x hx
    simp [parentOf, initial, hx]
  have hmem : ∀ x < N, parentOf (initial N).id x < N := fun x hx => by rwa [hself x hx]
  have hroot : ∀ x < N, RootOf (parentOf (initial N).id) x x := fun x hx => .self (hself x hx)
  refine ⟨List.length_range, hmem, fun x hx => ⟨x, hroot x hx⟩, fun a ha b hb => ?_⟩
  have hlen : (initial N).id.length = N := List.length_range
  rw [chase_of_rootOf hfuel hlen hmem ha (hroot a ha),
    chase_of_rootOf hfuel hlen hmem hb (hroot b hb), Option.some.injEq, Connected.nil_iff]

private theorem even_length_take {l : List ℕ} (h : Even l.length) (k : ℕ) :
    Even (l.take (2 * k)).length := by
  rw [List.length_take]
  rcases Nat.le_total (2 * k) l.length with hk | hk
  · rw [Nat.min_eq_left hk]
    exact ⟨k, by omega⟩
  · rwa [Nat.min_eq_right hk]

/-- Both programs print the pairs that earlier pairs do not connect, and after every pair the
colours of the one and the roots of the other give the same partition of the nodes. -/
theorem quickFind_quickUnion_agree (N fuel : ℕ) (hfuel : N ≤ fuel) (vpq : List ℕ)
    (heven : Even vpq.length) (hvpq : ∀ x ∈ vpq, x < N) :
    quickFind N vpq = some (render (novelPairs [] (pairsOf vpq))) ∧
      quickUnion N fuel vpq = some (render (novelPairs [] (pairsOf vpq))) ∧
      ∀ k, ∃ find union,
        pairLoop (quickFindBody N) (vpq.take (2 * k)) (initial N) = some find ∧
        pairLoop (quickUnionBody fuel) (vpq.take (2 * k)) (initial N) = some union ∧
        (∀ a < N, ∃ r, chase union.id fuel a = some r ∧ union.id[r]? = some r) ∧
        ∀ a < N, ∀ b < N,
          (find.id[a]? = find.id[b]? ↔ Connected (pairsOf (vpq.take (2 * k))) a b) ∧
          (chase union.id fuel a = chase union.id fuel b ↔
            Connected (pairsOf (vpq.take (2 * k))) a b) := by
  have hfind := pairLoop_refines (quickFindBody_refines N)
  have hunion := pairLoop_refines (quickUnionBody_refines hfuel)
  refine ⟨?_, ?_, fun k => ?_⟩
  · obtain ⟨st, hst, -, hres⟩ := hfind vpq heven hvpq [] _ (coloured_initial N)
    unfold quickFind
    rw [hst, Option.map_some, hres]
    simp [initial]
  · obtain ⟨st, hst, -, hres⟩ := hunion vpq heven hvpq [] _ (rooted_initial hfuel)
    unfold quickUnion
    rw [hst, Option.map_some, hres]
    simp [initial]
  · have heven' := even_length_take heven k
    have hvpq' : ∀ x ∈ vpq.take (2 * k), x < N := fun x hx => hvpq x (List.mem_of_mem_take hx)
    obtain ⟨find, hf, ⟨-, hcolour⟩, -⟩ := hfind _ heven' hvpq' [] _ (coloured_initial N)
    obtain ⟨union, hu, hrooted, -⟩ := hunion _ heven' hvpq' [] _ (rooted_initial hfuel)
    refine ⟨find, union, hf, hu, fun a ha => hrooted.chase_root hfuel ha, fun a ha b hb => ⟨?_, ?_⟩⟩
    · exact hcolour ha hb
    · exact hrooted.represents ha hb

example : quickUnion 10 10 [3, 4, 4, 9, 8, 0, 3, 9] = some "3-4 4-9 8-0 " := by decide +kernel

theorem quickFind_quickUnion_agree_three :
    quickFind 3 [0, 1, 1, 0] = some (render (novelPairs [] (pairsOf [0, 1, 1, 0]))) :=
  (quickFind_quickUnion_agree 3 3 (by decide) [0, 1, 1, 0] (by decide) (by decide)).1

end CppTricks.Connectivity
