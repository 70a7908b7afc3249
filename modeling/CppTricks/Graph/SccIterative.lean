import CppTricks.Foundation.StackSearch
import CppTricks.Graph.Scc

/-! `dfs_iterative_impl`: a search with a stack, plugged into `scc`. -/
namespace CppTricks.Graph.Scc
open Foundation

variable {K : Type} [DecidableEq K]

/-- The body of `for w in G[v]`; the top of `S` is in front. -/
def push (p : List K × TraverseInfo K) (w : K) : List K × TraverseInfo K :=
  if w ∈ p.2.explored then p else (w :: p.1, p.2.explore w)

/-- `while not S.empty()`; `none` is a failed key lookup, or more rounds than the fuel. -/
def popAll (G : AdjList K) : ℕ → List K → TraverseInfo K → Option (TraverseInfo K)
  | 0, _, _ => none
  | _ + 1, [], tr => some tr
  | fuel + 1, v :: stack, tr => do
    let ends ← G.lookup v
    let (stack, tr) := ends.foldl push (stack, tr)
    popAll G fuel stack (tr.finish v)

def dfsIterativeImpl (fuel : ℕ) : Dfs K := fun G sv tr => do
  let tr := tr.explore sv
  let copyT := tr.gT
  let tr ← popAll G fuel [sv] tr
  return (tr.gT - copyT, tr)

/-! ### The code runs the search with a stack -/

namespace TraverseInfo

def exploreAll (tr : TraverseInfo K) (ws : List K) : TraverseInfo K :=
  { tr with explored := tr.explored ∪ ws.toFinset }

variable (tr : TraverseInfo K)

theorem exploreAll_of_subset {ws : List K} (h : ∀ w ∈ ws, w ∈ tr.explored) :
    tr.exploreAll ws = tr := by
  have hsame : tr.explored ∪ ws.toFinset = tr.explored :=
    Finset.union_eq_left.mpr fun w hw => h w (List.mem_toFinset.mp hw)
  unfold exploreAll
  rw [hsame]

theorem exploreAll_after (ws L : List K) :
    (tr.exploreAll ws).after L = (tr.after L).exploreAll ws := by
  induction L generalizing tr with
  | nil => rfl
  | cons v L ih =>
    have hcomm : ((tr.exploreAll ws).explore v).finish v =
        ((tr.explore v).finish v).exploreAll ws := by
      simp [exploreAll, explore, finish, Finset.insert_union]
    exact (congrArg (after · L) hcomm).trans (ih _)

theorem explore_of_mem {v : K} (h : v ∈ tr.explored) : tr.explore v = tr := by
  unfold explore
  rw [Finset.insert_eq_of_mem h]

end TraverseInfo

variable {G : AdjList K}

theorem foldl_push (ws stack : List K) (tr : TraverseInfo K) :
    ws.foldl push (stack, tr) =
      ((fresh tr.explored ws).reverse ++ stack, tr.exploreAll (fresh tr.explored ws)) := by
  induction ws generalizing stack tr with
  | nil =>
    have hsame : tr.exploreAll [] = tr := tr.exploreAll_of_subset nofun
    rw [List.foldl_nil, fresh, hsame]
    rfl
  | cons w ws ih =>
    rw [List.foldl_cons]
    by_cases hw : w ∈ tr.explored
    · have hpush : push (stack, tr) w = (stack, tr) := if_pos hw
      rw [hpush, ih, fresh, if_pos hw]
    · have hpush : push (stack, tr) w = (w :: stack, tr.explore w) := if_neg hw
      have hall : (tr.explore w).exploreAll (fresh (insert w tr.explored) ws) =
          tr.exploreAll (w :: fresh (insert w tr.explored) ws) := by
        simp [TraverseInfo.exploreAll, TraverseInfo.explore]
      rw [hpush, ih, fresh, if_neg hw, List.reverse_cons, ← List.append_cons, ← hall]
      rfl

private theorem card_left {E : Finset K} {new : List K} (hnodup : new.Nodup)
    (hnew : ∀ w ∈ new, w ∈ G ∧ w ∉ E) :
    (left G (E ∪ new.toFinset)).card + new.length = (left G E).card := by
  have hsub : new.toFinset ⊆ left G E := by
    intro w hw
    obtain ⟨hwG, hwE⟩ := hnew w (List.mem_toFinset.mp hw)
    exact Finset.mem_sdiff.mpr ⟨List.mem_toFinset.mpr (AList.mem_keys.mp hwG), hwE⟩
  have hleft : left G (E ∪ new.toFinset) = left G E \ new.toFinset := by
    unfold left
    rw [Finset.sdiff_union_distrib, ← Finset.sdiff_sdiff_left']
  rw [hleft, ← List.toFinset_card_of_nodup hnodup, Finset.card_sdiff_add_card_eq_card hsub]

theorem popAll_spec (hG : G.EndsAreKeys) (fuel : ℕ) (stack : List K) (hstack : ∀ v ∈ stack, v ∈ G)
    (tr : TraverseInfo K) (hexplored : ∀ v ∈ stack, v ∈ tr.explored)
    (hfuel : stack.length + (left G tr.explored).card < fuel) :
    ∃ L, Pops G.ends tr.explored stack L ∧ popAll G fuel stack tr = some (tr.after L) := by
  induction fuel generalizing stack tr with
  | zero => exact absurd hfuel (Nat.not_lt_zero _)
  | succ fuel ih =>
    cases stack with
    | nil => exact ⟨[], .nil _, rfl⟩
    | cons v stack =>
      have hv : v ∈ G := hstack v List.mem_cons_self
      have hnew : ∀ w ∈ fresh tr.explored (G.ends v), w ∈ G ∧ w ∉ tr.explored := by
        intro w hw
        obtain ⟨hends, hout⟩ := mem_fresh.mp hw
        exact ⟨hG v hv w hends, hout⟩
      have hcard := card_left (nodup_fresh tr.explored (G.ends v)) hnew
      have hstack' : ∀ u ∈ (fresh tr.explored (G.ends v)).reverse ++ stack,
          u ∈ G ∧ u ∈ tr.explored ∪ (fresh tr.explored (G.ends v)).toFinset := by
        intro u hu
        cases List.mem_append.mp hu with
        | inl hfresh =>
          rw [List.mem_reverse] at hfresh
          exact ⟨(hnew u hfresh).1, Finset.mem_union_right _ (List.mem_toFinset.mpr hfresh)⟩
        | inr hold =>
          have hmem := List.mem_cons_of_mem v hold
          exact ⟨hstack u hmem, Finset.mem_union_left _ (hexplored u hmem)⟩
      have hfuel' : ((fresh tr.explored (G.ends v)).reverse ++ stack).length +
          (left G (tr.explored ∪ (fresh tr.explored (G.ends v)).toFinset)).card < fuel := by
        rw [List.length_cons] at hfuel
        rw [List.length_append, List.length_reverse]
        omega
      obtain ⟨L, hL, hrun⟩ := ih ((fresh tr.explored (G.ends v)).reverse ++ stack)
        (fun u hu => (hstack' u hu).1) ((tr.exploreAll (fresh tr.explored (G.ends v))).finish v)
        (fun u hu => (hstack' u hu).2) hfuel'
      refine ⟨v :: L, .pop hL, ?_⟩
      -- what has been put on the stack leaves it, so that it is explored by the end anyway
      have hsub : ∀ w ∈ fresh tr.explored (G.ends v), w ∈ ((tr.finish v).after L).explored := by
        intro w hw
        rw [TraverseInfo.explored_after, Finset.mem_union, List.mem_toFinset]
        exact .inr ((hL.mem_iff w).mpr
          (.inl (List.mem_append_left stack (List.mem_reverse.mpr hw))))
      have hafter : ((tr.exploreAll (fresh tr.explored (G.ends v))).finish v).after L =
          tr.after (v :: L) := by
        have hcons : tr.after (v :: L) = ((tr.explore v).finish v).after L := rfl
        rw [hcons, tr.explore_of_mem (hexplored v List.mem_cons_self),
          ← ((tr.finish v).after L).exploreAll_of_subset hsub, ← TraverseInfo.exploreAll_after]
        rfl
      rw [popAll, AdjList.lookup_eq_ends hv, Option.bind_eq_bind, Option.bind_some, foldl_push,
        ← hafter]
      exact hrun

theorem dfsIterativeImpl_spec (hG : G.EndsAreKeys) {fuel : ℕ} (hfuel : G.keys.length < fuel)
    {w : K} (hw : w ∈ G) {t : TraverseInfo K} (hout : w ∉ t.explored) :
    ∃ L, Pops G.ends (insert w t.explored) [w] L ∧
      dfsIterativeImpl fuel G w t = some (L.length, t.after L) := by
  have hlen : [w].length + (left G (insert w t.explored)).card < fuel := by
    have hlt := left_insert_lt hw hout
    have hle : (left G t.explored).card ≤ G.keys.length := card_left_le t.explored
    rw [List.length_singleton]
    omega
  obtain ⟨L, hL, hrun⟩ := popAll_spec hG fuel [w] (fun v hv => List.mem_singleton.mp hv ▸ hw)
    (t.explore w) (fun v hv => List.mem_singleton.mp hv ▸ Finset.mem_insert_self w t.explored) hlen
  have hwL : w ∈ (t.after L).explored := by
    rw [TraverseInfo.explored_after, Finset.mem_union, List.mem_toFinset]
    exact .inr ((hL.mem_iff w).mpr (.inl (List.mem_singleton.mpr rfl)))
  rw [TraverseInfo.explore_after, TraverseInfo.explore_of_mem _ hwL] at hrun
  have hcopy : (t.explore w).gT = t.gT := rfl
  refine ⟨L, hL, ?_⟩
  simp [dfsIterativeImpl, hrun, hcopy, TraverseInfo.gT_after]

theorem sweep_iterative_spec (hG : G.EndsAreKeys) {fuel : ℕ} (hfuel : G.keys.length < fuel)
    (ws : List K) (hws : ∀ w ∈ ws, w ∈ G) (t : TraverseInfo K) :
    ∃ bs, StackSweep G.ends t.explored ws bs ∧
      sweep (dfsIterativeImpl fuel) G ws t =
        some (bs.map fun b => (b.1, b.2.length), t.after (bs.flatMap Prod.snd)) := by
  induction ws generalizing t with
  | nil => exact ⟨[], .nil _, rfl⟩
  | cons w ws ih =>
    have hws' : ∀ v ∈ ws, v ∈ G := fun v hv => hws v (List.mem_cons_of_mem w hv)
    by_cases hw : w ∈ t.explored
    · obtain ⟨bs, hbs, hrun⟩ := ih hws' t
      exact ⟨bs, .skip hw hbs, by rw [sweep, if_pos hw, hrun]⟩
    · obtain ⟨L, hL, hrun⟩ := dfsIterativeImpl_spec hG hfuel (hws w List.mem_cons_self) hw
      obtain ⟨bs, hbs, hrest⟩ := ih hws' (t.after L)
      rw [TraverseInfo.explored_after] at hbs
      exact ⟨(w, L) :: bs, .visit hw hL hbs, sweep_cons hw hrun hrest⟩

theorem dfsIterativeImpl_explores (hG : G.EndsAreKeys) {fuel : ℕ} (hfuel : G.keys.length < fuel) :
    Explores (dfsIterativeImpl fuel) G := by
  intro ws hws t
  obtain ⟨bs, hbs, hrun⟩ := sweep_iterative_spec hG hfuel ws hws t
  exact ⟨bs, hbs.exploration, hrun⟩

/-! ### The order in which the first sweep numbers the vertices -/

theorem mem_of_path {x y : K} (hx : x ∈ G) (h : HasPath G.ends y x) : y ∈ G := by
  cases h.cases_head with
  | inl heq => rwa [heq]
  | inr hsteps =>
    obtain ⟨z, hstep, -⟩ := hsteps
    exact AdjList.mem_of_mem_ends hstep

theorem exists_component (hG : G.EndsAreKeys) {v : K} (hv : v ∈ G) :
    ∃ c, Component G c ∧ v ∈ c := by
  classical
  refine ⟨G.keys.toFinset.filter fun u => Linked G.ends v u, ⟨v, hv, ?_⟩, ?_⟩
  · intro u
    rw [Finset.mem_filter, List.mem_toFinset, ← AList.mem_keys]
    exact and_iff_right_of_imp fun hlink => hG.path hv hlink.1
  · rw [Finset.mem_filter, List.mem_toFinset, ← AList.mem_keys]
    exact ⟨hv, .refl v⟩

/-- In the order `L` each vertex comes no later than some vertex of the component of every vertex
it reaches. -/
def ComponentsLast (G : AdjList K) (L : List K) : Prop :=
  ∀ x ∈ G, ∀ y, HasPath G.ends y x → ∃ z ∈ G, Linked G.ends x z ∧ L.idxOf y ≤ L.idxOf z

section

variable {n : ℕ} {sourceGr grInv renameGr : AdjList ℕ} {f : ℕ → ℕ} {bs : List (ℕ × List ℕ)}

private theorem invert_iterative_spec (hinv : Reversal sourceGr grInv) {fuel : ℕ}
    (hfuel : sourceGr.keys.length < fuel) :
    ∃ bs, StackSweep grInv.ends ∅ sourceGr.keys.reverse bs ∧
      invert (dfsIterativeImpl fuel) sourceGr grInv =
        some (TraverseInfo.start.after (bs.flatMap Prod.snd)) ∧
      (bs.flatMap Prod.snd).Nodup ∧ ∀ v, v ∈ bs.flatMap Prod.snd ↔ v ∈ sourceGr := by
  have hclosed : grInv.EndsAreKeys := hinv.endsAreKeys fun u v => AdjList.mem_of_mem_ends
  have hlen : grInv.keys.length < fuel := by rwa [hinv.length_keys]
  obtain ⟨bs, hbs, hrun⟩ := sweep_iterative_spec hclosed hlen sourceGr.keys.reverse
    (fun v hv => (hinv.mem_iff v).mpr (AList.mem_keys.mpr (List.mem_reverse.mp hv)))
    (TraverseInfo.start : TraverseInfo ℕ)
  refine ⟨bs, hbs, ?_, hinv.explored hbs.exploration⟩
  rw [invert, hrun]
  rfl

private theorem Numbered.mem_of_mem_block (h : Numbered sourceGr n f renameGr)
    (hbs : Exploration renameGr.ends ∅ sourceGr.keys.reverse bs) {b : ℕ × List ℕ} (hb : b ∈ bs)
    {x : ℕ} (hx : x ∈ b.2) : ∃ v ∈ sourceGr, f v = x := by
  obtain ⟨w, hw, hreach⟩ := (hbs.mem_iff x).mp (List.mem_flatMap.mpr ⟨b, hb, hx⟩)
  rw [← h.renamed.mem_iff]
  exact (h.renamed.endsAreKeys h.endsAreKeys).path ((h.mem_reverse_keys w).mp hw) hreach.path

/-- The component, in the graph before it was renamed, of the vertex that is searched from. -/
private noncomputable def componentOf (sourceGr renameGr : AdjList ℕ) (f : ℕ → ℕ)
    (b : ℕ × List ℕ) : Finset ℕ := by
  classical
  exact sourceGr.keys.toFinset.filter fun v => Linked renameGr.ends b.1 (f v)

private theorem mem_componentOf {b : ℕ × List ℕ} {v : ℕ} :
    v ∈ componentOf sourceGr renameGr f b ↔ v ∈ sourceGr ∧ Linked renameGr.ends b.1 (f v) := by
  classical
  unfold componentOf
  rw [Finset.mem_filter, List.mem_toFinset, AList.mem_keys]

/-- As many searches as there are components find one component each. -/
private theorem Numbered.linked_of_length (h : Numbered sourceGr n f renameGr)
    (hbs : Exploration renameGr.ends ∅ sourceGr.keys.reverse bs) {comps : List (Finset ℕ)}
    (hcomps : ∀ c, c ∈ comps ↔ Component sourceGr c) (hlen : comps.length ≤ bs.length) :
    ∀ b ∈ bs, ∀ x ∈ b.2, Linked renameGr.ends b.1 x := by
  have hempty : Closed renameGr.ends ∅ := fun a ha => absurd ha (Finset.notMem_empty a)
  have hroot : ∀ b ∈ bs, b.1 ∈ b.2 := fun b hb => hbs.mem_of_linked hempty b hb b.1 (.refl b.1)
  have hsub : bs.map (componentOf sourceGr renameGr f) ⊆ comps := by
    intro c hc
    obtain ⟨b, hb, rfl⟩ := List.mem_map.mp hc
    obtain ⟨u, hu, hfu⟩ := h.mem_of_mem_block hbs hb (hroot b hb)
    rw [hcomps]
    refine ⟨u, hu, ?_⟩
    intro v
    rw [mem_componentOf, ← hfu]
    constructor
    · intro hv
      exact (h.renamed.linked_iff h.endsAreKeys h.injOn hu hv.1).mp hv.2
    · intro hlink
      have hv := h.endsAreKeys.path hu hlink.1
      exact ⟨hv, (h.renamed.linked_iff h.endsAreKeys h.injOn hu hv).mpr hlink⟩
  have hnodup : (bs.map (componentOf sourceGr renameGr f)).Nodup := by
    rw [List.Nodup, List.pairwise_map]
    apply (List.nodup_flatMap.mp hbs.nodup).2.imp_of_mem
    intro b b' hb hb' hdis heq
    obtain ⟨u, hu, hfu⟩ := h.mem_of_mem_block hbs hb (hroot b hb)
    have hself : u ∈ componentOf sourceGr renameGr f b :=
      mem_componentOf.mpr ⟨hu, hfu ▸ .refl (f u)⟩
    have hother := (mem_componentOf.mp (heq ▸ hself)).2
    rw [hfu] at hother
    exact hdis (hroot b hb) (hbs.mem_of_linked hempty b' hb' b.1 hother)
  -- so the searches meet every component
  have hperm := (List.subperm_of_subset hnodup hsub).perm_of_length_le
    (by rwa [List.length_map])
  intro b hb x hx
  obtain ⟨v, hv, rfl⟩ := h.mem_of_mem_block hbs hb hx
  obtain ⟨c, hc, hvc⟩ := exists_component h.endsAreKeys hv
  obtain ⟨b', hb', rfl⟩ := List.mem_map.mp (hperm.mem_iff.mpr ((hcomps c).mpr hc))
  have hlink := (mem_componentOf.mp hvc).2
  have hv' : f v ∈ b'.2 := hbs.mem_of_linked hempty b' hb' (f v) hlink
  rwa [hbs.eq_of_mem hb hb' hx hv']

/-- The iterative search gives the sizes of the components exactly when the order in which the
vertices leave the stack, in the first sweep, is like the order of finishing times. -/
theorem scc_iterative_eq_iff {fuel : ℕ} (hn : 1 ≤ n) (hkeys : sourceGr.keys = List.range' 1 n)
    (hG : sourceGr.EndsAreKeys) (hinv : Reversal sourceGr grInv) (hfuel : n < fuel) :
    (∃ sizes, scc (dfsIterativeImpl fuel) sourceGr grInv = some sizes ∧
      scc (dfsSeparateRecursionImpl fuel) sourceGr grInv = some sizes) ↔
    ∃ bs, StackSweep grInv.ends ∅ sourceGr.keys.reverse bs ∧
      ComponentsLast sourceGr (bs.flatMap Prod.snd) := by
  have hlen : sourceGr.keys.length < fuel := by rwa [hkeys, List.length_range']
  obtain ⟨os, hos, hinvert, hnodup, hL⟩ := invert_iterative_spec hinv hlen
  obtain ⟨renameGr, bs, -, -, hnumbered, hbs, hscc⟩ :=
    scc_of_invert hn hkeys hG hinvert hnodup hL fun renameGr hends hlenR =>
      dfsIterativeImpl_explores hends (by rwa [hlenR])
  obtain ⟨-, -, -, comps, -, -, -, -, -, hrec, hcompsNodup, hcomps, hsorted⟩ :=
    scc_sizes hn hkeys hG hinv (Nat.le_of_lt hfuel)
  rw [hscc, hrec]
  constructor
  · intro h
    obtain ⟨sizes, hiter, hsizes⟩ := h
    rw [← hsizes] at hiter
    have hcounts := List.append_cancel_right (Option.some.inj hiter)
    have hcompsLen : comps.length ≤ bs.length := by
      have hlength := congrArg List.length hcounts
      rw [List.length_insertionSort, List.length_map, List.length_map] at hlength
      exact Nat.le_of_eq hlength.symm
    have hlinked := hnumbered.linked_of_length hbs hcomps hcompsLen
    refine ⟨os, hos, ?_⟩
    intro x hx y hyx
    have hy : y ∈ sourceGr := mem_of_path hx hyx
    have hall : ∀ v ∈ sourceGr, (os.flatMap Prod.snd).idxOf v + 1 ∈ sourceGr.keys.reverse := by
      intro v hv
      rw [hnumbered.mem_reverse_keys, hnumbered.renamed.mem_iff]
      exact ⟨v, hv, rfl⟩
    obtain ⟨z', hxz, hle⟩ := hbs.rank_of_linked (fun a ha => absurd ha (Finset.notMem_empty a))
      hnumbered.descending hlinked (Finset.notMem_empty _) (hall x hx) (Finset.notMem_empty _)
      (hall y hy) (hnumbered.renamed.path hG hy hyx)
    obtain ⟨z, hz, rfl, -⟩ := hnumbered.renamed.exists_of_path hG hx hxz.1
    exact ⟨z, hz, (hnumbered.renamed.linked_iff hG hnumbered.injOn hx hz).mp hxz,
      Nat.le_of_succ_le_succ hle⟩
  · intro h
    obtain ⟨os', hos', hlast⟩ := h
    obtain rfl := hos'.unique hos
    have hranked : Ranked sourceGr n (fun v => (os'.flatMap Prod.snd).idxOf v + 1) renameGr :=
      ⟨hnumbered, fun x hx y hyx =>
        (hlast x hx y hyx).imp fun _ h => ⟨h.1, h.2.1, Nat.succ_le_succ h.2.2⟩⟩
    obtain ⟨cs, hcsNodup, hcs, hsizes⟩ := hranked.components_of_sweep hbs
    have hperm : cs.Perm comps := (List.perm_ext_iff_of_nodup hcsNodup hcompsNodup).mpr
      fun c => (hcs c).trans (hcomps c).symm
    have hsame : (bs.map fun b => b.2.length).insertionSort (· ≥ ·) = comps.map Finset.card := by
      rw [← hsizes]
      exact List.Perm.eq_of_pairwise' (List.pairwise_insertionSort _ _) hsorted
        ((List.perm_insertionSort _ _).trans (hperm.map Finset.card))
    exact ⟨_, congrArg some (congrArg (· ++ [0, 0, 0, 0, 0]) hsame), rfl⟩

theorem scc_iterative_eq_iff_edge :
    ∃ bs, StackSweep (edgeGr 1 2).ends ∅ (edgeGr 2 1).keys.reverse bs ∧
      ComponentsLast (edgeGr 2 1) (bs.flatMap Prod.snd) :=
  (@scc_iterative_eq_iff 2 (edgeGr 2 1) (edgeGr 1 2) 3 (by decide) rfl
    (edgeGr_endsAreKeys (.inr rfl) (.inl rfl)) (edgeGr_reversal (.inr rfl) (.inl rfl))
    (by decide)).mp ⟨[1, 1, 0, 0, 0, 0, 0], by decide, by decide⟩

/-- An edge from 1 to 2: the search with a stack numbers 2 first, although 1 reaches it. -/
theorem scc_iterative_ne_edge :
    scc (dfsIterativeImpl 3) (edgeGr 1 2) (edgeGr 2 1) = some [2, 0, 0, 0, 0, 0] ∧
      scc (dfsSeparateRecursionImpl 3) (edgeGr 1 2) (edgeGr 2 1) =
        some [1, 1, 0, 0, 0, 0, 0] := by
  decide

end

end CppTricks.Graph.Scc
