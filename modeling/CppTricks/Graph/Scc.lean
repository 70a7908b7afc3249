import CppTricks.Graph.GraphUtil
import Mathlib.Data.Finset.Card
import Mathlib.Data.List.Sort
import Mathlib.Order.Interval.Set.Defs

/-! Kosaraju's algorithm: a search of the reversed graph, a renaming by finishing times and two
sweeps of the renamed graph. -/
namespace CppTricks.Graph.Scc
open Foundation

variable {K : Type} [DecidableEq K]

structure TraverseInfo (K : Type) where
  gT : ℕ
  gFinals : AList fun _ : K => ℕ
  explored : Finset K

namespace TraverseInfo

def start : TraverseInfo K := ⟨0, ∅, ∅⟩

def explore (tr : TraverseInfo K) (vertex : K) : TraverseInfo K :=
  { tr with explored := insert vertex tr.explored }

/-- `tr.g_t += 1; tr.g_finals[vertex] = tr.g_t` -/
def finish (tr : TraverseInfo K) (vertex : K) : TraverseInfo K :=
  { tr with gT := tr.gT + 1, gFinals := tr.gFinals.insert vertex (tr.gT + 1) }

end TraverseInfo

/-- `__dfs`; `none` is a failed key lookup, or a recursion deeper than the fuel. -/
def visit (G : AdjList K) : ℕ → K → TraverseInfo K → Option (TraverseInfo K)
  | 0, _, _ => none
  | fuel + 1, vertex, tr => do
    let tr := tr.explore vertex
    let ends ← G.lookup vertex
    let tr ← ends.foldlM (fun tr w => if w ∈ tr.explored then some tr else visit G fuel w tr) tr
    return tr.finish vertex

/-- A search from one vertex, which returns how many vertices it has finished. -/
abbrev Dfs (K : Type) := AdjList K → K → TraverseInfo K → Option (ℕ × TraverseInfo K)

def dfsSeparateRecursionImpl (fuel : ℕ) : Dfs K := fun G sv tr => do
  let copyT := tr.gT
  let tr ← visit G fuel sv tr
  return (tr.gT - copyT, tr)

/-- `for vertex in vertices: if vertex not in t.explored: dfs(G, vertex, t)`, with the vertices it
searches from and what the searches return. -/
def sweep (dfs : Dfs K) (G : AdjList K) :
    List K → TraverseInfo K → Option (List (K × ℕ) × TraverseInfo K)
  | [], t => some ([], t)
  | vertex :: vertices, t =>
    if vertex ∈ t.explored then sweep dfs G vertices t else do
      let (size, t) ← dfs G vertex t
      let (calls, t) ← sweep dfs G vertices t
      return ((vertex, size) :: calls, t)

def invert (dfs : Dfs K) (sourceGr grInv : AdjList K) : Option (TraverseInfo K) := do
  let (_, t) ← sweep dfs grInv sourceGr.keys.reverse .start
  return t

def scc (dfs : Dfs ℕ) (sourceGr grInv : AdjList ℕ) : Option (List ℕ) :=
  if sourceGr.keys = [] then none else do
    let constRange := sourceGr.keys
    let t ← invert dfs sourceGr grInv
    let renameGr ← graphRename sourceGr t.gFinals
    let (tops, t) ← sweep dfs renameGr constRange.reverse { t with explored := ∅ }
    let (sizes, _) ← sweep dfs renameGr (tops.map Prod.fst) { t with explored := ∅ }
    return (sizes.map Prod.snd ++ [0, 0, 0, 0, 0]).insertionSort (· ≥ ·)

/-! ### What a search leaves behind -/

namespace TraverseInfo

/-- The state after the vertices of the list have been explored and finished in this order. -/
def after (tr : TraverseInfo K) (L : List K) : TraverseInfo K :=
  L.foldl (fun tr v => (tr.explore v).finish v) tr

variable (tr : TraverseInfo K)

theorem after_append (L₁ L₂ : List K) : tr.after (L₁ ++ L₂) = (tr.after L₁).after L₂ :=
  List.foldl_append

theorem after_concat (L : List K) (v : K) :
    tr.after (L ++ [v]) = ((tr.after L).explore v).finish v := after_append tr L [v]

theorem explore_after (v : K) (L : List K) : (tr.explore v).after L = (tr.after L).explore v := by
  induction L generalizing tr with
  | nil => rfl
  | cons w L ih =>
    have hcomm : ((tr.explore v).explore w).finish w = ((tr.explore w).finish w).explore v := by
      simp [explore, finish, Finset.insert_comm]
    exact (congrArg (after · L) hcomm).trans (ih _)

theorem gT_after (L : List K) : (tr.after L).gT = tr.gT + L.length := by
  induction L using List.reverseRecOn with
  | nil => rfl
  | append_singleton L v ih =>
    rw [after_concat, List.length_append, List.length_singleton, ← Nat.add_assoc, ← ih]
    rfl

theorem explored_after (L : List K) : (tr.after L).explored = tr.explored ∪ L.toFinset := by
  induction L using List.reverseRecOn with
  | nil => simp [after]
  | append_singleton L v ih =>
    rw [after_concat, show (((tr.after L).explore v).finish v).explored =
      insert v (tr.after L).explored from rfl, ih]
    ext x
    simp

/-- The finishing times count the vertices in the order of the list. -/
theorem lookup_after {L : List K} (hL : L.Nodup) {v : K} (hv : v ∈ L) :
    (tr.after L).gFinals.lookup v = some (tr.gT + L.idxOf v + 1) := by
  induction L using List.reverseRecOn with
  | nil => simp at hv
  | append_singleton L w ih =>
    rw [List.nodup_append_comm, List.singleton_append, List.nodup_cons] at hL
    rw [after_concat, show (((tr.after L).explore w).finish w).gFinals =
      (tr.after L).gFinals.insert w ((tr.after L).gT + 1) from rfl, gT_after]
    by_cases hvw : v = w
    · subst v
      rw [AList.lookup_insert, List.idxOf_append_of_notMem hL.1]
      simp
    · have hvL : v ∈ L := by simpa [hvw] using hv
      rw [AList.lookup_insert_ne hvw, ih hL.2 hvL, List.idxOf_append_of_mem hvL]

end TraverseInfo

/-! ### The code runs the abstract search -/

variable {G : AdjList K}

/-- The keys that are left to explore. -/
def left (G : AdjList K) (E : Finset K) : Finset K := G.keys.toFinset \ E

theorem card_left_le (E : Finset K) : (left G E).card ≤ G.keys.length :=
  (Finset.card_le_card Finset.sdiff_subset).trans (List.toFinset_card_le _)

theorem left_mono {E E' : Finset K} (h : E ⊆ E') : (left G E').card ≤ (left G E).card :=
  Finset.card_le_card (Finset.sdiff_subset_sdiff (Finset.Subset.refl _) h)

theorem left_insert_lt {E : Finset K} {v : K} (hv : v ∈ G) (hout : v ∉ E) :
    (left G (insert v E)).card < (left G E).card := by
  refine Finset.card_lt_card ⟨Finset.sdiff_subset_sdiff (Finset.Subset.refl _)
    (Finset.subset_insert v E), fun hsub => ?_⟩
  have hmem : v ∈ left G E := by simp [left, hout, ← AList.mem_keys, hv]
  simpa [left] using hsub hmem

/-- The loop over the ends of a vertex, given what a visit with this fuel does. -/
private theorem foldlM_visit {fuel : ℕ}
    (hvisit : ∀ v ∈ G, ∀ tr : TraverseInfo K, v ∉ tr.explored → (left G tr.explored).card ≤ fuel →
      ∃ L, Finishes G.ends (insert v tr.explored) (G.ends v) L ∧
        visit G fuel v tr = some (tr.after (L ++ [v])))
    (ws : List K) (hws : ∀ w ∈ ws, w ∈ G) (tr : TraverseInfo K)
    (hfuel : (left G tr.explored).card ≤ fuel) :
    ∃ L, Finishes G.ends tr.explored ws L ∧
      ws.foldlM (fun tr w => if w ∈ tr.explored then some tr else visit G fuel w tr) tr =
        some (tr.after L) := by
  induction ws generalizing tr with
  | nil => exact ⟨[], .nil _, rfl⟩
  | cons w ws ih =>
    have hws' : ∀ v ∈ ws, v ∈ G := fun v hv => hws v (List.mem_cons_of_mem w hv)
    by_cases hw : w ∈ tr.explored
    · obtain ⟨L, hL, hrun⟩ := ih hws' tr hfuel
      exact ⟨L, .skip hw hL, by simpa [hw] using hrun⟩
    · obtain ⟨L₁, h₁, hrun₁⟩ := hvisit w (hws w (by simp)) tr hw hfuel
      have hexplored := tr.explored_after (L₁ ++ [w])
      obtain ⟨L₂, h₂, hrun₂⟩ := ih hws' (tr.after (L₁ ++ [w]))
        (Nat.le_trans (left_mono (by rw [hexplored]; exact Finset.subset_union_left)) hfuel)
      rw [hexplored] at h₂
      exact ⟨L₁ ++ [w] ++ L₂, .visit hw h₁ h₂,
        by rw [tr.after_append]; simpa [hw, hrun₁] using hrun₂⟩

theorem visit_spec (hG : G.EndsAreKeys) (fuel : ℕ) (v : K) (hv : v ∈ G) (tr : TraverseInfo K)
    (hout : v ∉ tr.explored) (hfuel : (left G tr.explored).card ≤ fuel) :
    ∃ L, Finishes G.ends (insert v tr.explored) (G.ends v) L ∧
      visit G fuel v tr = some (tr.after (L ++ [v])) := by
  induction fuel generalizing v tr with
  | zero =>
    have := left_insert_lt hv hout
    omega
  | succ fuel ih =>
    have hlt := left_insert_lt hv hout
    obtain ⟨L, hL, hrun⟩ := foldlM_visit ih (G.ends v) (hG v hv) (tr.explore v)
      (Nat.lt_succ_iff.mp (Nat.lt_of_lt_of_le hlt hfuel))
    refine ⟨L, hL, ?_⟩
    rw [visit, AdjList.lookup_eq_ends hv, Option.bind_eq_bind, Option.bind_some, hrun,
      Option.bind_eq_bind, Option.bind_some, TraverseInfo.explore_after, TraverseInfo.after_concat]
    rfl

theorem dfsSeparateRecursionImpl_spec (hG : G.EndsAreKeys) {fuel : ℕ} (hfuel : G.keys.length ≤ fuel)
    {w : K} (hw : w ∈ G) {t : TraverseInfo K} (hout : w ∉ t.explored) :
    ∃ L, Finishes G.ends (insert w t.explored) (G.ends w) L ∧
      dfsSeparateRecursionImpl fuel G w t = some ((L ++ [w]).length, t.after (L ++ [w])) := by
  have hleft : (left G t.explored).card ≤ fuel := (card_left_le t.explored).trans hfuel
  obtain ⟨L, hL, hrun⟩ := visit_spec hG fuel w hw t hout hleft
  refine ⟨L, hL, ?_⟩
  simp [dfsSeparateRecursionImpl, hrun, TraverseInfo.gT_after]

/-- A vertex that is not explored yet is searched from before the others. -/
theorem sweep_cons {dfs : Dfs K} {w : K} {ws L : List K} {t : TraverseInfo K}
    {bs : List (K × List K)} (hout : w ∉ t.explored)
    (hdfs : dfs G w t = some (L.length, t.after L))
    (hrest : sweep dfs G ws (t.after L) =
      some (bs.map fun b => (b.1, b.2.length), (t.after L).after (bs.flatMap Prod.snd))) :
    sweep dfs G (w :: ws) t = some (((w, L) :: bs).map fun b => (b.1, b.2.length),
      t.after (((w, L) :: bs).flatMap Prod.snd)) := by
  rw [sweep, if_neg hout, hdfs, List.flatMap_cons, TraverseInfo.after_append]
  simp [hrest]

theorem sweep_spec (hG : G.EndsAreKeys) {fuel : ℕ} (hfuel : G.keys.length ≤ fuel) (ws : List K)
    (hws : ∀ w ∈ ws, w ∈ G) (t : TraverseInfo K) :
    ∃ bs, Sweep G.ends t.explored ws bs ∧
      sweep (dfsSeparateRecursionImpl fuel) G ws t =
        some (bs.map fun b => (b.1, b.2.length), t.after (bs.flatMap Prod.snd)) := by
  induction ws generalizing t with
  | nil => exact ⟨[], .nil _, rfl⟩
  | cons w ws ih =>
    have hws' : ∀ v ∈ ws, v ∈ G := fun v hv => hws v (List.mem_cons_of_mem w hv)
    by_cases hw : w ∈ t.explored
    · obtain ⟨bs, hbs, hrun⟩ := ih hws' t
      exact ⟨bs, .skip hw hbs, by rw [sweep, if_pos hw, hrun]⟩
    · obtain ⟨L, hL, hrun⟩ := dfsSeparateRecursionImpl_spec hG hfuel (hws w List.mem_cons_self) hw
      obtain ⟨bs, hbs, hrest⟩ := ih hws' (t.after (L ++ [w]))
      rw [TraverseInfo.explored_after] at hbs
      exact ⟨(w, L ++ [w]) :: bs, .visit hw hL hbs, sweep_cons hw hrun hrest⟩

/-- Each search explores what its vertex reaches, and returns how many vertices it has numbered. -/
def Explores (dfs : Dfs K) (G : AdjList K) : Prop :=
  ∀ ws : List K, (∀ w ∈ ws, w ∈ G) → ∀ t : TraverseInfo K, ∃ bs,
    Exploration G.ends t.explored ws bs ∧
      sweep dfs G ws t = some (bs.map fun b => (b.1, b.2.length), t.after (bs.flatMap Prod.snd))

theorem dfsSeparateRecursionImpl_explores (hG : G.EndsAreKeys) {fuel : ℕ}
    (hfuel : G.keys.length ≤ fuel) : Explores (dfsSeparateRecursionImpl fuel) G := by
  intro ws hws t
  obtain ⟨bs, hbs, hrun⟩ := sweep_spec hG hfuel ws hws t
  exact ⟨bs, hbs.exploration, hrun⟩

/-! ### The components -/

/-- `grInv` has the edges of `G`, turned round. -/
structure Reversal (G grInv : AdjList K) : Prop where
  mem_iff : ∀ v, v ∈ grInv ↔ v ∈ G
  ends_iff : ∀ u v, v ∈ grInv.ends u ↔ u ∈ G.ends v

/-- What `enc_digraph_to_select_in_edges` makes of a graph is its reversal. -/
theorem reversal_of_enc {grInv : AdjList K} (hG : G.EndsAreKeys)
    (hrun : encDigraphToSelectInEdges G = some grInv) : Reversal G grInv := by
  obtain ⟨inv, hrun', hinv⟩ := encDigraphToSelectInEdges_inverted hG
  obtain rfl := Option.some.inj (hrun.symm.trans hrun')
  exact ⟨hinv.mem_iff, fun u v => hinv.mem_ends_iff⟩

namespace Reversal

variable {grInv : AdjList K}

theorem endsAreKeys (h : Reversal G grInv) (hG : ∀ u v, v ∈ G.ends u → u ∈ G) :
    grInv.EndsAreKeys :=
  fun u _ v hv => (h.mem_iff v).mpr (hG v u ((h.ends_iff u v).mp hv))

theorem path_iff (h : Reversal G grInv) {u v : K} :
    HasPath grInv.ends u v ↔ HasPath G.ends v u := by
  unfold HasPath
  rw [← Relation.reflTransGen_swap]
  have hswap : (Function.swap fun a b => b ∈ grInv.ends a) = fun a b => b ∈ G.ends a := by
    funext a b
    exact propext (h.ends_iff b a)
  rw [hswap]

theorem linked_iff (h : Reversal G grInv) {u v : K} :
    Linked grInv.ends u v ↔ Linked G.ends u v := by
  unfold Linked
  rw [h.path_iff, h.path_iff, and_comm]

/-- The first sweep explores every key once. -/
theorem explored (h : Reversal G grInv) {bs : List (K × List K)}
    (hbs : Exploration grInv.ends ∅ G.keys.reverse bs) :
    (bs.flatMap Prod.snd).Nodup ∧ ∀ v, v ∈ bs.flatMap Prod.snd ↔ v ∈ G := by
  have hclosed : grInv.EndsAreKeys := h.endsAreKeys fun u v => AdjList.mem_of_mem_ends
  refine ⟨hbs.nodup, ?_⟩
  intro v
  rw [hbs.mem_iff]
  constructor
  · intro hreach
    obtain ⟨w, hw, hreach⟩ := hreach
    rw [List.mem_reverse, ← AList.mem_keys, ← h.mem_iff] at hw
    exact (h.mem_iff v).mp (hclosed.path hw hreach.path)
  · intro hv
    exact ⟨v, List.mem_reverse.mpr (AList.mem_keys.mp hv), .refl (Finset.notMem_empty v)⟩

theorem length_keys (h : Reversal G grInv) : grInv.keys.length = G.keys.length := by
  have hperm : grInv.keys.Perm G.keys := (List.perm_ext_iff_of_nodup grInv.keys_nodup
    G.keys_nodup).mpr fun v => by rw [← AList.mem_keys, ← AList.mem_keys, h.mem_iff]
  exact hperm.length_eq

end Reversal

def Component (G : AdjList K) (c : Finset K) : Prop := ∃ u ∈ G, ∀ v, v ∈ c ↔ Linked G.ends u v

/-- The first sweep lists the keys in finishing order. -/
private theorem invert_spec {grInv : AdjList K} (hinv : Reversal G grInv) {fuel : ℕ}
    (hfuel : G.keys.length ≤ fuel) :
    ∃ L, invert (dfsSeparateRecursionImpl fuel) G grInv = some (TraverseInfo.start.after L) ∧
      L.Nodup ∧ (∀ v, v ∈ L ↔ v ∈ G) ∧
      ∀ x ∈ G, ∀ y, HasPath G.ends y x → ∃ z ∈ G, Linked G.ends x z ∧ L.idxOf y ≤ L.idxOf z := by
  have hclosed : grInv.EndsAreKeys := hinv.endsAreKeys fun u v => AdjList.mem_of_mem_ends
  have hlen : grInv.keys.length ≤ fuel := by rwa [hinv.length_keys]
  obtain ⟨bs, hbs, hrun⟩ := sweep_spec hclosed hlen G.keys.reverse
    (fun v hv => (hinv.mem_iff v).mpr (AList.mem_keys.mpr (List.mem_reverse.mp hv)))
    (TraverseInfo.start : TraverseInfo K)
  have hfinishes : Finishes grInv.ends ∅ G.keys.reverse (bs.flatMap Prod.snd) := hbs.finishes
  obtain ⟨hnodup, hmem⟩ := hinv.explored hbs.exploration
  refine ⟨_, by rw [invert, hrun]; rfl, hnodup, hmem, fun x hx y hyx => ?_⟩
  have hreach : Reach grInv.ends ∅ x y :=
    .of_path (fun a ha => absurd ha (Finset.notMem_empty a)) (Finset.notMem_empty y)
      (hinv.path_iff.mpr hyx)
  obtain ⟨z, hz, hxz, hzx, hle⟩ := hfinishes.exists_linked ((hmem x).mpr hx) hreach
  exact ⟨z, (hmem z).mp hz, hinv.linked_iff.mp ⟨hxz.path, hzx.path⟩, hle⟩

private theorem insertionSort_append_zeros (l : List ℕ) (k : ℕ) :
    (l ++ List.replicate k 0).insertionSort (· ≥ ·) =
      l.insertionSort (· ≥ ·) ++ List.replicate k 0 := by
  refine List.Perm.eq_of_pairwise' (r := (· ≥ ·)) (List.pairwise_insertionSort _ _) ?_ ?_
  · rw [List.pairwise_append]
    refine ⟨List.pairwise_insertionSort _ _, ?_, fun a _ b hb => ?_⟩
    · exact List.pairwise_replicate_of_refl
    · rw [List.eq_of_mem_replicate hb]
      exact Nat.zero_le a
  · exact (List.perm_insertionSort _ _).trans ((List.perm_insertionSort _ l).symm.append_right _)

section

variable {n : ℕ} {sourceGr renameGr : AdjList ℕ} {f : ℕ → ℕ} {bs : List (ℕ × List ℕ)}

private theorem mem_iff_of_keys (hkeys : sourceGr.keys = List.range' 1 n) (v : ℕ) :
    v ∈ sourceGr ↔ v ∈ Set.Icc 1 n := by
  rw [AList.mem_keys, hkeys, List.mem_range'_1, Set.mem_Icc]
  omega

/-- What the descending sweep over the renamed graph starts from: the renaming permutes the
vertices. -/
structure Numbered (sourceGr : AdjList ℕ) (n : ℕ) (f : ℕ → ℕ) (renameGr : AdjList ℕ) : Prop where
  keys : sourceGr.keys = List.range' 1 n
  endsAreKeys : sourceGr.EndsAreKeys
  bijOn : Set.BijOn f (Set.Icc 1 n) (Set.Icc 1 n)
  renamed : Renamed sourceGr f renameGr

/-- A vertex that reaches another is renamed below the last of its component. -/
structure Ranked (sourceGr : AdjList ℕ) (n : ℕ) (f : ℕ → ℕ) (renameGr : AdjList ℕ) : Prop
    extends Numbered sourceGr n f renameGr where
  rank : ∀ x ∈ sourceGr, ∀ y, HasPath sourceGr.ends y x →
    ∃ z ∈ sourceGr, Linked sourceGr.ends x z ∧ f y ≤ f z

namespace Numbered

theorem injOn (h : Numbered sourceGr n f renameGr) : Set.InjOn f {v | v ∈ sourceGr} :=
  h.bijOn.injOn.mono fun v hv => (mem_iff_of_keys h.keys v).mp hv

theorem mem_renameGr (h : Numbered sourceGr n f renameGr) (x : ℕ) :
    x ∈ renameGr ↔ x ∈ Set.Icc 1 n := by
  rw [h.renamed.mem_iff]
  constructor
  · rintro ⟨v, hv, rfl⟩
    exact h.bijOn.mapsTo ((mem_iff_of_keys h.keys v).mp hv)
  · intro hx
    obtain ⟨v, hv, rfl⟩ := h.bijOn.surjOn hx
    exact ⟨v, (mem_iff_of_keys h.keys v).mpr hv, rfl⟩

theorem mem_reverse_keys (h : Numbered sourceGr n f renameGr) (v : ℕ) :
    v ∈ sourceGr.keys.reverse ↔ v ∈ renameGr := by
  rw [List.mem_reverse, ← AList.mem_keys, mem_iff_of_keys h.keys, h.mem_renameGr]

theorem descending (h : Numbered sourceGr n f renameGr) :
    sourceGr.keys.reverse.Pairwise (· > ·) := by
  rw [h.keys, List.pairwise_reverse]
  exact List.pairwise_lt_range'

theorem length_keys (h : Numbered sourceGr n f renameGr) : renameGr.keys.length = n := by
  have hlen : renameGr.keys.length = sourceGr.keys.length := by
    refine ((List.perm_ext_iff_of_nodup renameGr.keys_nodup sourceGr.keys_nodup).mpr
      fun v => ?_).length_eq
    rw [← AList.mem_keys, ← h.mem_reverse_keys, List.mem_reverse]
  rw [hlen, h.keys, List.length_range']

end Numbered

/-- Each search of the descending sweep over the renamed graph finds one component. -/
private theorem Ranked.mem_block_iff (h : Ranked sourceGr n f renameGr)
    (hbs : Exploration renameGr.ends ∅ sourceGr.keys.reverse bs) :
    ∀ b ∈ bs, ∀ x, x ∈ b.2 ↔ Linked renameGr.ends b.1 x := by
  have hkey : ∀ v, v ∈ renameGr.keys.toFinset ↔ v ∈ renameGr := by
    intro v
    rw [List.mem_toFinset, AList.mem_keys]
  exact hbs.mem_iff_linked (N := renameGr.keys.toFinset)
    (fun a ha b hb => (hkey b).mpr
      (h.renamed.endsAreKeys h.endsAreKeys a ((hkey a).mp ha) b hb))
    (fun x hx y hy hyx => by
      obtain ⟨v, hv, rfl⟩ := (h.renamed.mem_iff x).mp ((hkey x).mp hx)
      obtain ⟨u, hu, rfl⟩ := (h.renamed.mem_iff y).mp ((hkey y).mp hy)
      obtain ⟨z, hz, hvz, hle⟩ :=
        h.rank v hv u ((h.renamed.path_iff h.endsAreKeys h.injOn hu hv).mp hyx)
      exact ⟨f z, (h.renamed.linked_iff h.endsAreKeys h.injOn hv hz).mpr hvz, hle⟩)
    (fun a ha => absurd ha (Finset.notMem_empty a))
    (fun v hv => (hkey v).mpr ((h.mem_reverse_keys v).mp hv)) h.descending
    (fun v hv _ => (h.mem_reverse_keys v).mpr ((hkey v).mp hv))

private def named (sourceGr : AdjList ℕ) (f : ℕ → ℕ) (b : ℕ × List ℕ) : Finset ℕ :=
  sourceGr.keys.toFinset.filter fun v => f v ∈ b.2

private theorem mem_named {b : ℕ × List ℕ} {v : ℕ} :
    v ∈ named sourceGr f b ↔ v ∈ sourceGr ∧ f v ∈ b.2 := by
  unfold named
  rw [Finset.mem_filter, List.mem_toFinset, AList.mem_keys]

namespace Ranked

/-- A search from the new name of `u` finds the component of `u`. -/
private theorem exists_mem_named_iff (h : Ranked sourceGr n f renameGr)
    (hbs : Exploration renameGr.ends ∅ sourceGr.keys.reverse bs) {b : ℕ × List ℕ} (hb : b ∈ bs) :
    ∃ u ∈ sourceGr, ∀ v, v ∈ named sourceGr f b ↔ Linked sourceGr.ends u v := by
  have hmem := (h.mem_reverse_keys b.1).mp (hbs.fst_mem b hb)
  have hblock := h.mem_block_iff hbs b hb
  obtain ⟨u, hu, hfu⟩ := (h.renamed.mem_iff b.1).mp hmem
  refine ⟨u, hu, fun v => ?_⟩
  rw [mem_named, hblock, ← hfu]
  constructor
  · rintro ⟨hv, hlink⟩
    exact (h.renamed.linked_iff h.endsAreKeys h.injOn hu hv).mp hlink
  · intro hlink
    have hv := h.endsAreKeys.path hu hlink.1
    exact ⟨hv, (h.renamed.linked_iff h.endsAreKeys h.injOn hu hv).mpr hlink⟩

private theorem nodup_named (h : Ranked sourceGr n f renameGr)
    (hbs : Exploration renameGr.ends ∅ sourceGr.keys.reverse bs) :
    (bs.map (named sourceGr f)).Nodup := by
  rw [List.Nodup, List.pairwise_map]
  apply (List.nodup_flatMap.mp hbs.nodup).2.imp_of_mem
  intro b b' hb _ hdis heq
  obtain ⟨u, hu, hnamed⟩ := h.exists_mem_named_iff hbs hb
  have hself : u ∈ named sourceGr f b := (hnamed u).mpr (.refl u)
  exact hdis (mem_named.mp hself).2 (mem_named.mp (heq ▸ hself)).2

private theorem mem_named_iff_component (h : Ranked sourceGr n f renameGr)
    (hbs : Exploration renameGr.ends ∅ sourceGr.keys.reverse bs) (c : Finset ℕ) :
    c ∈ bs.map (named sourceGr f) ↔ Component sourceGr c := by
  rw [List.mem_map]
  constructor
  · rintro ⟨b, hb, rfl⟩
    exact h.exists_mem_named_iff hbs hb
  · rintro ⟨u, hu, hc⟩
    have hfu : f u ∈ bs.flatMap Prod.snd := by
      rw [hbs.mem_iff]
      refine ⟨f u, ?_, .refl (Finset.notMem_empty _)⟩
      rw [h.mem_reverse_keys, h.mem_renameGr]
      exact h.bijOn.mapsTo ((mem_iff_of_keys h.keys u).mp hu)
    obtain ⟨b, hb, hmem⟩ := List.mem_flatMap.mp hfu
    obtain ⟨w, _, hnamed⟩ := h.exists_mem_named_iff hbs hb
    have hwu : Linked sourceGr.ends w u := (hnamed u).mp (mem_named.mpr ⟨hu, hmem⟩)
    refine ⟨b, hb, Finset.ext fun v => ?_⟩
    rw [hnamed, hc]
    exact ⟨hwu.symm.trans, hwu.trans⟩

private theorem card_named (h : Ranked sourceGr n f renameGr)
    (hbs : Exploration renameGr.ends ∅ sourceGr.keys.reverse bs) {b : ℕ × List ℕ} (hb : b ∈ bs) :
    (named sourceGr f b).card = b.2.length := by
  have hmem := (h.mem_reverse_keys b.1).mp (hbs.fst_mem b hb)
  have hblock := h.mem_block_iff hbs b hb
  have himage : (named sourceGr f b).image f = b.2.toFinset := by
    ext x
    rw [Finset.mem_image, List.mem_toFinset]
    constructor
    · rintro ⟨v, hv, rfl⟩
      exact (mem_named.mp hv).2
    · intro hx
      have hxG := (h.renamed.endsAreKeys h.endsAreKeys).path hmem ((hblock x).mp hx).1
      obtain ⟨v, hv, rfl⟩ := (h.renamed.mem_iff x).mp hxG
      exact ⟨v, mem_named.mpr ⟨hv, hx⟩, rfl⟩
  have hinj : Set.InjOn f (named sourceGr f b) := fun v hv w hw =>
    h.injOn (mem_named.mp hv).1 (mem_named.mp hw).1
  have hnodup := (List.nodup_flatMap.mp hbs.nodup).1 b hb
  rw [← List.toFinset_card_of_nodup hnodup, ← himage, Finset.card_image_of_injOn hinj]

/-- The searches of that sweep count the components, each one once. -/
theorem components_of_sweep (h : Ranked sourceGr n f renameGr)
    (hbs : Exploration renameGr.ends ∅ sourceGr.keys.reverse bs) :
    ∃ comps : List (Finset ℕ), comps.Nodup ∧ (∀ c, c ∈ comps ↔ Component sourceGr c) ∧
      comps.map Finset.card = bs.map fun b => b.2.length := by
  refine ⟨bs.map (named sourceGr f), h.nodup_named hbs, h.mem_named_iff_component hbs, ?_⟩
  rw [List.map_map]
  exact List.map_congr_left fun b hb => h.card_named hbs hb

end Ranked

/-- The places of a list of all the vertices, counted from 1. -/
private theorem bijOn_idxOf {L : List ℕ} (hnodup : L.Nodup) (hL : ∀ v, v ∈ L ↔ v ∈ Set.Icc 1 n) :
    Set.BijOn (fun v => L.idxOf v + 1) (Set.Icc 1 n) (Set.Icc 1 n) := by
  have hlen : L.length = n := by
    have hperm : L.Perm (List.range' 1 n) := (List.perm_ext_iff_of_nodup hnodup
      List.nodup_range').mpr fun v => by rw [hL, List.mem_range'_1, Set.mem_Icc]; omega
    rw [hperm.length_eq, List.length_range']
  refine ⟨fun v hv => ?_, fun v hv w _ heq => ?_, fun x hx => ?_⟩
  · have hlt := List.idxOf_lt_length_of_mem ((hL v).mpr hv)
    rw [hlen] at hlt
    exact ⟨Nat.le_add_left 1 _, hlt⟩
  · exact (List.idxOf_inj ((hL v).mpr hv)).mp (Nat.succ.inj heq)
  · rw [Set.mem_Icc] at hx
    have hlt : x - 1 < L.length := by omega
    refine ⟨L[x - 1], (hL _).mp (List.getElem_mem hlt), ?_⟩
    change L.idxOf L[x - 1] + 1 = x
    rw [hnodup.idxOf_getElem]
    omega

/-- Whatever search is plugged in, the third sweep repeats the searches of the second one. -/
theorem scc_of_invert {dfs : Dfs ℕ} {grInv : AdjList ℕ} {L : List ℕ} (hn : 1 ≤ n)
    (hkeys : sourceGr.keys = List.range' 1 n) (hG : sourceGr.EndsAreKeys)
    (hinvert : invert dfs sourceGr grInv = some (TraverseInfo.start.after L)) (hnodup : L.Nodup)
    (hL : ∀ v, v ∈ L ↔ v ∈ sourceGr)
    (hdfs : ∀ renameGr : AdjList ℕ, renameGr.EndsAreKeys → renameGr.keys.length = n →
      Explores dfs renameGr) :
    ∃ renameGr bs, (∀ v ∈ sourceGr,
        (TraverseInfo.start.after L).gFinals.lookup v = some (L.idxOf v + 1)) ∧
      graphRename sourceGr (TraverseInfo.start.after L).gFinals = some renameGr ∧
      Numbered sourceGr n (fun v => L.idxOf v + 1) renameGr ∧
      Exploration renameGr.ends ∅ sourceGr.keys.reverse bs ∧
      scc dfs sourceGr grInv =
        some ((bs.map fun b => b.2.length).insertionSort (· ≥ ·) ++ [0, 0, 0, 0, 0]) := by
  have hmemG := mem_iff_of_keys hkeys
  have hbij := bijOn_idxOf hnodup fun v => by rw [hL, hmemG]
  have hfinal : ∀ v ∈ sourceGr,
      (TraverseInfo.start.after L).gFinals.lookup v = some (L.idxOf v + 1) := by
    intro v hv
    rw [TraverseInfo.lookup_after _ hnodup ((hL v).mpr hv)]
    simp [TraverseInfo.start]
  obtain ⟨renameGr, hrename, hren⟩ := graphRename_eq hG hfinal
    (hbij.injOn.mono fun v hv => (hmemG v).mp hv)
  have hnumbered : Numbered sourceGr n (fun v => L.idxOf v + 1) renameGr :=
    ⟨hkeys, hG, hbij, hren⟩
  have hexplores := hdfs renameGr (hren.endsAreKeys hG) hnumbered.length_keys
  obtain ⟨bs, hbs, hrun⟩ := hexplores sourceGr.keys.reverse
    (fun v hv => (hnumbered.mem_reverse_keys v).mp hv)
    { TraverseInfo.start.after L with explored := ∅ }
  obtain ⟨bs', hbs', hagain⟩ := hexplores (bs.map Prod.fst)
    (fun v hv => by
      obtain ⟨b, hb, rfl⟩ := List.mem_map.mp hv
      exact (hnumbered.mem_reverse_keys b.1).mp (hbs.fst_mem b hb))
    { (({ TraverseInfo.start.after L with explored := ∅ } : TraverseInfo ℕ).after
        (bs.flatMap Prod.snd)) with explored := ∅ }
  refine ⟨renameGr, bs, hfinal, hrename, hnumbered, hbs, ?_⟩
  have hne : sourceGr.keys ≠ [] := by
    rw [hkeys]
    exact List.ne_nil_of_length_pos (by rw [List.length_range']; omega)
  have hnames : (bs.map fun b => (b.1, b.2.length)).map Prod.fst = bs.map Prod.fst := by
    rw [List.map_map]
    rfl
  have hcounts : (bs.map fun b => (b.1, b.2.length)).map Prod.snd =
      bs.map fun b => b.2.length := by
    rw [List.map_map]
    rfl
  unfold scc
  rw [if_neg hne]
  simp only [Option.bind_eq_bind, Option.bind_some, hinvert, hrename, hrun, hnames, hagain,
    hbs.map_length_again hbs', hcounts]
  exact congrArg some (insertionSort_append_zeros (bs.map fun b => b.2.length) 5)

/-- `scc` returns the sizes of the components, largest first, and five zeros; the finishing times
number the vertices, so that the renamed graph is isomorphic, and no key lookup fails. -/
theorem scc_sizes {fuel : ℕ} {grInv : AdjList ℕ} (hn : 1 ≤ n)
    (hkeys : sourceGr.keys = List.range' 1 n) (hG : sourceGr.EndsAreKeys)
    (hinv : Reversal sourceGr grInv) (hfuel : n ≤ fuel) :
    ∃ t renameGr f, ∃ comps : List (Finset ℕ),
      invert (dfsSeparateRecursionImpl fuel) sourceGr grInv = some t ∧
      (∀ v ∈ sourceGr, t.gFinals.lookup v = some (f v)) ∧
      Set.BijOn f (Set.Icc 1 n) (Set.Icc 1 n) ∧
      graphRename sourceGr t.gFinals = some renameGr ∧ Renamed sourceGr f renameGr ∧
      scc (dfsSeparateRecursionImpl fuel) sourceGr grInv =
        some (comps.map Finset.card ++ [0, 0, 0, 0, 0]) ∧
      comps.Nodup ∧ (∀ c, c ∈ comps ↔ Component sourceGr c) ∧
      (comps.map Finset.card).Pairwise (· ≥ ·) := by
  have hlen : sourceGr.keys.length ≤ fuel := by rwa [hkeys, List.length_range']
  obtain ⟨L, hinvert, hnodup, hL, hrank⟩ := invert_spec hinv hlen
  obtain ⟨renameGr, bs, hfinal, hrename, hnumbered, hbs, hscc⟩ :=
    scc_of_invert hn hkeys hG hinvert hnodup hL fun renameGr hends hlenR =>
      dfsSeparateRecursionImpl_explores hends (by rwa [hlenR])
  have hranked : Ranked sourceGr n (fun v => L.idxOf v + 1) renameGr :=
    ⟨hnumbered, fun x hx y hyx =>
      (hrank x hx y hyx).imp fun _ h => ⟨h.1, h.2.1, Nat.succ_le_succ h.2.2⟩⟩
  obtain ⟨cs, hcsNodup, hcs, hsizes⟩ := hranked.components_of_sweep hbs
  have hperm := List.perm_insertionSort (fun a b : Finset ℕ => a.card ≥ b.card) cs
  have hsorted := List.map_insertionSort (fun a b : Finset ℕ => a.card ≥ b.card)
    (fun a b : ℕ => a ≥ b) Finset.card cs fun _ _ _ _ => Iff.rfl
  refine ⟨_, renameGr, _, cs.insertionSort fun a b => a.card ≥ b.card, hinvert, hfinal,
    hnumbered.bijOn, hrename, hnumbered.renamed, ?_, hperm.nodup_iff.mpr hcsNodup, fun c => ?_, ?_⟩
  · rw [hscc, hsorted, hsizes]
  · rw [hperm.mem_iff, hcs]
  · rw [hsorted]
    exact List.pairwise_insertionSort _ _

def edgeGr (u v : ℕ) : AdjList ℕ :=
  [⟨1, if u = 1 then [v] else []⟩, ⟨2, if u = 2 then [v] else []⟩].toAList

theorem ends_edgeGr {u : ℕ} (hu : u = 1 ∨ u = 2) (v w : ℕ) :
    (edgeGr u v).ends w = if w = u then [v] else [] := by
  by_cases h₁ : 1 = w
  · subst w
    obtain rfl | rfl := hu <;> rfl
  · by_cases h₂ : 2 = w
    · subst w
      obtain rfl | rfl := hu <;> rfl
    · have hw : w ≠ u := by omega
      simp [AdjList.ends, edgeGr, List.dlookup_cons_ne, Ne.symm h₁, Ne.symm h₂, hw]

theorem mem_edgeGr (u v w : ℕ) : w ∈ edgeGr u v ↔ w = 1 ∨ w = 2 := by
  rw [AList.mem_keys, show (edgeGr u v).keys = [1, 2] from rfl]
  simp

theorem edgeGr_endsAreKeys {u v : ℕ} (hu : u = 1 ∨ u = 2) (hv : v = 1 ∨ v = 2) :
    (edgeGr u v).EndsAreKeys := by
  intro x _ w hw
  rw [ends_edgeGr hu] at hw
  split at hw
  · rw [mem_edgeGr, List.mem_singleton.mp hw]
    exact hv
  · cases hw

theorem edgeGr_reversal {u v : ℕ} (hu : u = 1 ∨ u = 2) (hv : v = 1 ∨ v = 2) :
    Reversal (edgeGr u v) (edgeGr v u) where
  mem_iff x := by rw [mem_edgeGr, mem_edgeGr]
  ends_iff x y := by
    rw [ends_edgeGr hu, ends_edgeGr hv]
    split <;> split <;> simp_all

theorem scc_sizes_edge :
    ∃ comps : List (Finset ℕ),
      scc (dfsSeparateRecursionImpl 2) (edgeGr 1 2) (edgeGr 2 1) =
        some (comps.map Finset.card ++ [0, 0, 0, 0, 0]) := by
  obtain ⟨-, -, -, comps, -, -, -, -, -, hrun, -⟩ := @scc_sizes 2 (edgeGr 1 2) 2
    (edgeGr 2 1) (by decide) rfl (edgeGr_endsAreKeys (.inl rfl) (.inr rfl))
    (edgeGr_reversal (.inl rfl) (.inr rfl)) (by decide)
  exact ⟨comps, hrun⟩

end

end CppTricks.Graph.Scc
