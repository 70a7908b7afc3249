import CppTricks.Foundation.DepthFirst
import CppTricks.Foundation.Loops
import Mathlib.Data.List.AList
import Mathlib.Data.Set.Function

/-! Graphs as dictionaries of adjacency lists, and their transforms. -/
namespace CppTricks.Graph
open Foundation

/-- A dictionary from each vertex to the ends of its edges, in the order it is enumerated in. -/
abbrev AdjList (K : Type) := AList fun _ : K => List K

variable {K K' : Type} [DecidableEq K] [DecidableEq K'] {G : AdjList K} {u v : K}

namespace AdjList

/-- The ends of the edges from a vertex. -/
def ends (G : AdjList K) (v : K) : List K := (G.lookup v).getD []

/-- Every endpoint of an edge is a key. -/
def EndsAreKeys (G : AdjList K) : Prop := ∀ v ∈ G, ∀ w ∈ G.ends v, w ∈ G

theorem lookup_eq_ends (h : v ∈ G) : G.lookup v = some (G.ends v) := by
  obtain ⟨l, hl⟩ := Option.isSome_iff_exists.mp (AList.lookup_isSome.mpr h)
  unfold ends
  rw [hl, Option.getD_some]

theorem EndsAreKeys.path (h : G.EndsAreKeys) (hu : u ∈ G) (hpath : HasPath G.ends u v) : v ∈ G := by
  induction hpath with
  | refl => exact hu
  | tail _ hstep ih => exact h _ ih _ hstep

theorem mem_entries_iff {e : Sigma fun _ : K => List K} :
    e ∈ G.entries ↔ e.1 ∈ G ∧ e.2 = G.ends e.1 := by
  rw [show e ∈ G.entries ↔ e.2 ∈ G.lookup e.1 from AList.mem_lookup_iff.symm]
  constructor
  · intro h
    exact ⟨AList.lookup_isSome.mp (Option.isSome_iff_exists.mpr ⟨_, h⟩),
      by rw [ends, Option.mem_def.mp h, Option.getD_some]⟩
  · rintro ⟨hmem, heq⟩
    rw [heq, Option.mem_def, lookup_eq_ends hmem]

theorem endsAreKeys_of_entries (h : ∀ e ∈ G.entries, ∀ w ∈ e.2, w ∈ G.keys) : G.EndsAreKeys :=
  fun v hv w hw => AList.mem_keys.mpr (h ⟨v, G.ends v⟩ (mem_entries_iff.mpr ⟨hv, rfl⟩) w hw)

theorem mem_of_mem_ends (h : v ∈ G.ends u) : u ∈ G := by
  by_contra hu
  simp [ends, AList.lookup_eq_none.mpr hu] at h

end AdjList

/-! ### `enc_digraph_to_select_in_edges` -/

def appendIn (k : K) (copyGr : AdjList K) (elem : K) : Option (AdjList K) := do
  let starts ← copyGr.lookup elem
  return copyGr.insert elem (starts ++ [k])

def selectEntry (g copyGr : AdjList K) (entry : Sigma fun _ : K => List K) :
    Option (AdjList K) := do
  let ends ← g.lookup entry.1
  ends.foldlM (appendIn entry.1) copyGr

/-- `none` is a failed key lookup. -/
def encDigraphToSelectInEdges (g : AdjList K) : Option (AdjList K) :=
  let copyGr := g.keys.foldl (fun copyGr k => copyGr.insert k []) ∅
  g.entries.foldlM (selectEntry g) copyGr

/-- `copyGr` has the keys of `g`, and for every edge among the entries that are done its start in
the list of its end. -/
structure Selected (g : AdjList K) (done : List (Sigma fun _ : K => List K)) (copyGr : AdjList K) :
    Prop where
  mem_iff : ∀ v, v ∈ copyGr ↔ v ∈ g
  ends : ∀ v, copyGr.ends v = done.flatMap fun e => List.replicate (e.2.count v) e.1

theorem lookup_foldl_insert (ks : List K) (copyGr : AdjList K) (v : K) :
    (ks.foldl (fun copyGr k => copyGr.insert k []) copyGr).lookup v =
      if v ∈ ks then some [] else copyGr.lookup v := by
  induction ks generalizing copyGr with
  | nil => rfl
  | cons k ks ih =>
    rw [List.foldl_cons, ih]
    by_cases hv : v ∈ ks
    · rw [if_pos hv, if_pos (List.mem_cons_of_mem k hv)]
    · by_cases hk : v = k
      · subst hk
        rw [if_neg hv, if_pos List.mem_cons_self, AList.lookup_insert]
      · rw [if_neg hv, if_neg (by simp [hk, hv]), AList.lookup_insert_ne hk]

/-- Before the second loop every key has an empty list. -/
theorem selected_nil (g : AdjList K) :
    Selected g [] (g.keys.foldl (fun copyGr k => copyGr.insert k []) ∅) := by
  have hlookup := lookup_foldl_insert g.keys ∅
  constructor
  · intro v
    rw [← AList.lookup_isSome, hlookup, AList.mem_keys]
    by_cases hv : v ∈ g.keys
    · simp [hv]
    · simp [hv]
  · intro v
    unfold AdjList.ends
    rw [hlookup]
    by_cases hv : v ∈ g.keys
    · simp [hv]
    · simp [hv]

theorem foldlM_appendIn (k : K) (l : List K) (copyGr : AdjList K) (hl : ∀ e ∈ l, e ∈ copyGr) :
    ∃ copyGr', l.foldlM (appendIn k) copyGr = some copyGr' ∧
      (∀ v, v ∈ copyGr' ↔ v ∈ copyGr) ∧
      ∀ v, copyGr'.ends v = copyGr.ends v ++ List.replicate (l.count v) k := by
  induction l generalizing copyGr with
  | nil => exact ⟨copyGr, rfl, fun v => Iff.rfl, by simp⟩
  | cons e l ih =>
    rw [List.forall_mem_cons] at hl
    have hmem : ∀ v, v ∈ copyGr.insert e (copyGr.ends e ++ [k]) ↔ v ∈ copyGr := by
      intro v
      rw [AList.mem_insert, or_iff_right_of_imp]
      rintro rfl
      exact hl.1
    obtain ⟨copyGr', hrun, hmem', hends⟩ := ih (copyGr.insert e (copyGr.ends e ++ [k]))
      fun v hv => (hmem v).mpr (hl.2 v hv)
    refine ⟨copyGr', ?_, fun v => (hmem' v).trans (hmem v), ?_⟩
    · rw [List.foldlM_cons, appendIn, AdjList.lookup_eq_ends hl.1]
      exact hrun
    · intro v
      rw [hends]
      by_cases hv : v = e
      · subst hv
        rw [AdjList.ends, AList.lookup_insert, Option.getD_some, List.append_assoc,
          List.count_cons_self, List.singleton_append, List.replicate_succ]
      · rw [AdjList.ends, AList.lookup_insert_ne hv, List.count_cons_of_ne (Ne.symm hv)]
        rfl

theorem Selected.step {done : List (Sigma fun _ : K => List K)} {copyGr : AdjList K}
    {e : Sigma fun _ : K => List K} (h : Selected G done copyGr) (hG : G.EndsAreKeys)
    (he : e ∈ G.entries) :
    ∃ copyGr', selectEntry G copyGr e = some copyGr' ∧ Selected G (done ++ [e]) copyGr' := by
  obtain ⟨hkey, hends⟩ := AdjList.mem_entries_iff.mp he
  obtain ⟨copyGr', hrun, hmem, hcopied⟩ := foldlM_appendIn e.1 (G.ends e.1) copyGr
    fun v hv => (h.mem_iff v).mpr (hG e.1 hkey v hv)
  refine ⟨copyGr', ?_, fun v => (hmem v).trans (h.mem_iff v), ?_⟩
  · rw [selectEntry, AdjList.lookup_eq_ends hkey]
    exact hrun
  · intro v
    rw [hcopied, h.ends, List.flatMap_append, List.flatMap_singleton, hends]

theorem encDigraphToSelectInEdges_selected (hG : G.EndsAreKeys) :
    ∃ inv, encDigraphToSelectInEdges G = some inv ∧ Selected G G.entries inv :=
  foldlM_prefix (P := fun done copyGr => Selected G done copyGr) (f := selectEntry G) G.entries
    (fun _ _ _ hpre h => h.step hG (hpre.subset (List.mem_append_right _ List.mem_cons_self)))
    _ (selected_nil G)

/-- Among entries with different keys only that of `u` adds `u` to a list. -/
theorem count_flatMap_entries {l : List (Sigma fun _ : K => List K)} (hl : l.NodupKeys) (u v : K) :
    (l.flatMap fun e => List.replicate (e.2.count v) e.1).count u =
      ((l.dlookup u).getD []).count v := by
  induction l with
  | nil => rfl
  | cons e l ih =>
    obtain ⟨k, ends⟩ := e
    rw [List.nodupKeys_cons] at hl
    rw [List.flatMap_cons, List.count_append, ih hl.2, List.count_replicate]
    by_cases hk : u = k
    · subst hk
      rw [List.dlookup_eq_none.mpr hl.1, List.dlookup_cons_eq]
      simp
    · rw [List.dlookup_cons_ne l ⟨k, ends⟩ hk]
      simp [Ne.symm hk]

/-- `inv` has the edges of `g` turned round, each as often as `g` has it. -/
structure Inverted (g inv : AdjList K) : Prop where
  mem_iff : ∀ v, v ∈ inv ↔ v ∈ g
  count_ends : ∀ u v, (inv.ends v).count u = (g.ends u).count v

theorem encDigraphToSelectInEdges_inverted (hG : G.EndsAreKeys) :
    ∃ inv, encDigraphToSelectInEdges G = some inv ∧ Inverted G inv := by
  obtain ⟨inv, hrun, hmem, hends⟩ := encDigraphToSelectInEdges_selected hG
  refine ⟨inv, hrun, hmem, ?_⟩
  intro u v
  rw [hends, count_flatMap_entries G.nodupKeys]
  rfl

namespace Inverted

variable {inv g' : AdjList K}

theorem mem_ends_iff (h : Inverted G inv) : u ∈ inv.ends v ↔ v ∈ G.ends u := by
  rw [← List.count_pos_iff, h.count_ends, List.count_pos_iff]

theorem endsAreKeys (h : Inverted G inv) : inv.EndsAreKeys := by
  intro v _ u hu
  rw [h.mem_ends_iff] at hu
  exact (h.mem_iff u).mpr (AdjList.mem_of_mem_ends hu)

theorem of_perm {inv' : AdjList K} (h : Inverted G inv) (hperm : inv'.entries.Perm inv.entries) :
    Inverted G inv' where
  mem_iff v := (AList.mem_of_perm hperm).trans (h.mem_iff v)
  count_ends u v := by
    rw [AdjList.ends, AList.perm_lookup hperm]
    exact h.count_ends u v

theorem ends_perm (h : Inverted G inv) (h' : Inverted inv g') (v : K) :
    (g'.ends v).Perm (G.ends v) := by
  rw [List.perm_iff_count]
  intro u
  rw [h'.count_ends, h.count_ends]

end Inverted

/-! ### `graph_rename` -/

def renameEnd (recoder : AList fun _ : K => K') (name : K') (grCopy : AdjList K') (elem : K) :
    Option (AdjList K') := do
  let ends ← grCopy.lookup name
  let elem ← recoder.lookup elem
  return grCopy.insert name (ends ++ [elem])

def renameEntry (recoder : AList fun _ : K => K') (grCopy : AdjList K')
    (entry : Sigma fun _ : K => List K) : Option (AdjList K') := do
  let name ← recoder.lookup entry.1
  entry.2.foldlM (renameEnd recoder name) (grCopy.insert name [])

/-- `none` is a failed key lookup. -/
def graphRename (G : AdjList K) (recoder : AList fun _ : K => K') : Option (AdjList K') :=
  G.entries.foldlM (renameEntry recoder) ∅

/-- `G'` is `G` with every vertex `v` called `f v`. -/
structure Renamed (G : AdjList K) (f : K → K') (G' : AdjList K') : Prop where
  ends : ∀ v ∈ G, G'.ends (f v) = (G.ends v).map f
  mem_iff : ∀ x, x ∈ G' ↔ ∃ v ∈ G, f v = x

private theorem renameEnd_all {recoder : AList fun _ : K => K'} {f : K → K'} {name : K'}
    {grCopy : AdjList K'} (l : List K) (hl : ∀ e ∈ l, recoder.lookup e = some (f e))
    (hname : grCopy.lookup name = some []) :
    ∃ grCopy', l.foldlM (renameEnd recoder name) grCopy = some grCopy' ∧
      grCopy'.lookup name = some (l.map f) ∧
      ∀ x, x ≠ name → grCopy'.lookup x = grCopy.lookup x := by
  refine foldlM_prefix (P := fun l g => g.lookup name = some (l.map f) ∧
    ∀ x, x ≠ name → g.lookup x = grCopy.lookup x) l (fun t e g ht hg => ?_) grCopy
    ⟨hname, fun _ _ => rfl⟩
  refine ⟨g.insert name (t.map f ++ [f e]), ?_, ?_, fun x hx => ?_⟩
  · simp [renameEnd, hg.1, hl e (ht.subset (by simp))]
  · rw [AList.lookup_insert, List.map_append, List.map_singleton]
  · rw [AList.lookup_insert_ne hx, hg.2 x hx]

/-- `g` holds the renamed entries of the list. -/
private structure RenamedEntries (f : K → K') (done : List (Sigma fun _ : K => List K))
    (g : AdjList K') : Prop where
  lookup : ∀ e ∈ done, g.lookup (f e.1) = some (e.2.map f)
  mem_iff : ∀ x, x ∈ g ↔ ∃ e ∈ done, f e.1 = x

/-- One more entry, of a vertex whose new name is not in use. -/
private theorem RenamedEntries.step {recoder : AList fun _ : K => K'} {f : K → K'}
    {done : List (Sigma fun _ : K => List K)} {g : AdjList K'} (h : RenamedEntries f done g)
    {e : Sigma fun _ : K => List K} (hname : recoder.lookup e.1 = some (f e.1))
    (hends : ∀ w ∈ e.2, recoder.lookup w = some (f w)) (hnew : ∀ d ∈ done, f d.1 ≠ f e.1) :
    ∃ g', renameEntry recoder g e = some g' ∧ RenamedEntries f (done ++ [e]) g' := by
  obtain ⟨g', hrun, hself, hother⟩ := renameEnd_all e.2 hends
    (show (g.insert (f e.1) []).lookup (f e.1) = some [] from AList.lookup_insert g)
  have hmem : ∀ x, x ∈ g' ↔ x = f e.1 ∨ x ∈ g := by
    intro x
    by_cases hx : x = f e.1
    · subst x
      simp [← AList.lookup_isSome, hself]
    · rw [← AList.lookup_isSome, hother x hx, AList.lookup_insert_ne hx, AList.lookup_isSome,
        or_iff_right hx]
  refine ⟨g', by simp [renameEntry, hname, hrun], fun d hd => ?_, fun x => ?_⟩
  · obtain hd | hd := List.mem_append.mp hd
    · have hne := hnew d hd
      rw [hother _ hne, AList.lookup_insert_ne hne, h.lookup d hd]
    · rw [List.mem_singleton.mp hd, hself]
  · rw [hmem, h.mem_iff]
    constructor
    · rintro (rfl | ⟨d, hd, rfl⟩)
      · exact ⟨e, by simp, rfl⟩
      · exact ⟨d, by simp [hd], rfl⟩
    · rintro ⟨d, hd, rfl⟩
      obtain hd | hd := List.mem_append.mp hd
      · exact .inr ⟨d, hd, rfl⟩
      · exact .inl (by rw [List.mem_singleton.mp hd])

/-- Renaming by a function that tells the vertices apart gives an isomorphic graph. -/
theorem graphRename_eq {recoder : AList fun _ : K => K'} {f : K → K'} (hG : G.EndsAreKeys)
    (hf : ∀ v ∈ G, recoder.lookup v = some (f v)) (hinj : Set.InjOn f {v | v ∈ G}) :
    ∃ G', graphRename G recoder = some G' ∧ Renamed G f G' := by
  have hkeys : ∀ done e, done ++ [e] <+: G.entries → ∀ d ∈ done, f d.1 ≠ f e.1 := by
    intro done e hpre d hd heq
    have hdG := (AdjList.mem_entries_iff.mp (hpre.subset (List.mem_append_left _ hd))).1
    have heG := (AdjList.mem_entries_iff.mp (hpre.subset (by simp : e ∈ done ++ [e]))).1
    have hnodup := (hpre.sublist.map Sigma.fst).nodup G.keys_nodup
    rw [List.map_append, List.nodup_append'] at hnodup
    exact hnodup.2.2 (List.mem_map_of_mem hd) (by simp [hinj hdG heG heq])
  obtain ⟨G', hrun, hlookup, hmem⟩ := foldlM_prefix (P := RenamedEntries f)
    (f := renameEntry recoder) G.entries
    (fun done e g hpre hg => by
      obtain ⟨hv, hends⟩ := AdjList.mem_entries_iff.mp (hpre.subset (by simp : e ∈ done ++ [e]))
      exact hg.step (hf e.1 hv) (fun w hw => hf w (hG e.1 hv w (hends ▸ hw))) (hkeys done e hpre))
    ∅ ⟨by simp, by simp⟩
  refine ⟨G', hrun, fun v hv => ?_, fun x => ?_⟩
  · rw [AdjList.ends, hlookup ⟨v, G.ends v⟩ (AdjList.mem_entries_iff.mpr ⟨hv, rfl⟩),
      Option.getD_some]
  · rw [hmem]
    constructor
    · rintro ⟨e, he, rfl⟩
      exact ⟨e.1, (AdjList.mem_entries_iff.mp he).1, rfl⟩
    · rintro ⟨v, hv, rfl⟩
      exact ⟨⟨v, G.ends v⟩, AdjList.mem_entries_iff.mpr ⟨hv, rfl⟩, rfl⟩

namespace Renamed

variable {f : K → K'} {G' : AdjList K'}

theorem endsAreKeys (h : Renamed G f G') (hG : G.EndsAreKeys) : G'.EndsAreKeys := by
  intro x hx y hy
  obtain ⟨v, hv, rfl⟩ := (h.mem_iff x).mp hx
  rw [h.ends v hv] at hy
  obtain ⟨w, hw, rfl⟩ := List.mem_map.mp hy
  exact (h.mem_iff _).mpr ⟨w, hG v hv w hw, rfl⟩

theorem path (h : Renamed G f G') (hG : G.EndsAreKeys) (hu : u ∈ G) (hpath : HasPath G.ends u v) :
    HasPath G'.ends (f u) (f v) := by
  induction hpath with
  | refl => exact .refl
  | @tail a b hua hstep ih =>
    apply ih.tail
    rw [h.ends a (hG.path hu hua)]
    exact List.mem_map_of_mem hstep

theorem exists_of_path (h : Renamed G f G') (hG : G.EndsAreKeys) (hu : u ∈ G) {y : K'}
    (hpath : HasPath G'.ends (f u) y) : ∃ v ∈ G, f v = y ∧ HasPath G.ends u v := by
  induction hpath with
  | refl => exact ⟨u, hu, rfl, .refl⟩
  | tail _ hstep ih =>
    obtain ⟨a, ha, rfl, hua⟩ := ih
    rw [h.ends a ha] at hstep
    obtain ⟨b, hb, rfl⟩ := List.mem_map.mp hstep
    exact ⟨b, hG a ha b hb, rfl, hua.tail hb⟩

theorem path_iff (h : Renamed G f G') (hG : G.EndsAreKeys) (hinj : Set.InjOn f {v | v ∈ G})
    (hu : u ∈ G) (hv : v ∈ G) : HasPath G'.ends (f u) (f v) ↔ HasPath G.ends u v := by
  refine ⟨fun hpath => ?_, h.path hG hu⟩
  obtain ⟨w, hw, heq, huw⟩ := h.exists_of_path hG hu hpath
  rwa [hinj hw hv heq] at huw

/-- The renamed graph has the components of the graph. -/
theorem linked_iff (h : Renamed G f G') (hG : G.EndsAreKeys) (hinj : Set.InjOn f {v | v ∈ G})
    (hu : u ∈ G) (hv : v ∈ G) : Linked G'.ends (f u) (f v) ↔ Linked G.ends u v :=
  and_congr (h.path_iff hG hinj hu hv) (h.path_iff hG hinj hv hu)

end Renamed

/-- The transform of the edges keeps their multiplicities, twice gives the graph back whatever order
the entries are enumerated in, and renaming with different names gives an isomorphic graph. -/
theorem transforms_preserve (g : AdjList K) (recoder : AList fun _ : K => K') (f : K → K')
    (hg : g.EndsAreKeys) (hrecoder : ∀ v ∈ g, recoder.lookup v = some (f v))
    (hinj : Set.InjOn f {v | v ∈ g}) :
    (∃ inv, encDigraphToSelectInEdges g = some inv ∧ (∀ v, v ∈ inv ↔ v ∈ g) ∧
      (∀ u v, (inv.ends v).count u = (g.ends u).count v) ∧
      ∀ inv' : AdjList K, inv'.entries.Perm inv.entries →
        ∃ g', encDigraphToSelectInEdges inv' = some g' ∧ (∀ v, v ∈ g' ↔ v ∈ g) ∧
          ∀ v, (g'.ends v).Perm (g.ends v)) ∧
    ∃ grCopy, graphRename g recoder = some grCopy ∧ (∀ x, x ∈ grCopy ↔ ∃ v ∈ g, f v = x) ∧
      (∀ k ∈ g, grCopy.ends (f k) = (g.ends k).map f) ∧
      ∀ u ∈ g, ∀ v ∈ g, Linked grCopy.ends (f u) (f v) ↔ Linked g.ends u v := by
  constructor
  · obtain ⟨inv, hrun, hinv⟩ := encDigraphToSelectInEdges_inverted hg
    refine ⟨inv, hrun, hinv.mem_iff, hinv.count_ends, ?_⟩
    intro inv' hperm
    have hinv' := hinv.of_perm hperm
    obtain ⟨g', hrun', hg'⟩ := encDigraphToSelectInEdges_inverted hinv'.endsAreKeys
    exact ⟨g', hrun', fun v => (hg'.mem_iff v).trans (hinv'.mem_iff v), hinv'.ends_perm hg'⟩
  · obtain ⟨grCopy, hrun, hrenamed⟩ := graphRename_eq hg hrecoder hinj
    exact ⟨grCopy, hrun, hrenamed.mem_iff, hrenamed.ends, fun u hu v hv =>
      hrenamed.linked_iff hg hinj hu hv⟩

def parallelGr : AdjList ℕ := [⟨1, [2, 2]⟩, ⟨2, [1]⟩, ⟨3, []⟩].toAList

def parallelRecoder : AList fun _ : ℕ => ℕ := [⟨1, 10⟩, ⟨2, 20⟩, ⟨3, 30⟩].toAList

theorem transforms_preserve_parallel :
    (∃ inv, encDigraphToSelectInEdges parallelGr = some inv ∧ (∀ v, v ∈ inv ↔ v ∈ parallelGr) ∧
      ∀ u v, (inv.ends v).count u = (parallelGr.ends u).count v) ∧
    ∃ grCopy, graphRename parallelGr parallelRecoder = some grCopy ∧
      ∀ u ∈ parallelGr, ∀ v ∈ parallelGr,
        Linked grCopy.ends (10 * u) (10 * v) ↔ Linked parallelGr.ends u v := by
  have hg : parallelGr.EndsAreKeys := AdjList.endsAreKeys_of_entries (by decide)
  have hkeys : ∀ v ∈ parallelGr.keys, parallelRecoder.lookup v = some (10 * v) := by decide
  have hinj : Set.InjOn (10 * · : ℕ → ℕ) {v | v ∈ parallelGr} :=
    fun u _ v _ huv => Nat.eq_of_mul_eq_mul_left (by decide) huv
  obtain ⟨⟨inv, hrun, hmem, hcount, -⟩, grCopy, hrename, -, -, hlinked⟩ :=
    transforms_preserve parallelGr parallelRecoder (10 * ·) hg
      (fun v hv => hkeys v (AList.mem_keys.mp hv)) hinj
  exact ⟨⟨inv, hrun, hmem, hcount⟩, grCopy, hrename, hlinked⟩

end CppTricks.Graph
