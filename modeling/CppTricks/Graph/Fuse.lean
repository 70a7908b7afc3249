import CppTricks.Graph.MinCut
import Mathlib.Data.List.FinRange

/-! `fuse` contracts an edge of the graph that the work graph represents. -/
namespace CppTricks.Graph.MinCut
open Foundation

variable {V : Type} [DecidableEq V] {m : ℕ} {st : WorkGraph V m}

def rename (new old v : V) : V := if v = old then new else v

theorem rename_of_ne {new old v : V} (h : v ≠ old) : rename new old v = v := if_neg h

theorem rename_idem {new old : V} (h : new ≠ old) (v : V) :
    rename new old (rename new old v) = rename new old v := by
  unfold rename
  split <;> simp_all

theorem rename_ne {new old : V} (h : new ≠ old) (v : V) : rename new old v ≠ old := by
  unfold rename
  split
  · exact h
  · assumption

/-- The work graph holds the edges from `b i` to `e i`, except those from a vertex to itself. -/
structure Represents (b e : Fin m → V) (st : WorkGraph V m) : Prop where
  work : ∀ i, b i ≠ e i → (st.edges i).work = (b i, e i)
  begin_mem : ∀ i, b i ∈ st.graph
  end_mem : ∀ i, e i ∈ st.graph
  nodup : ∀ k L, st.graph.lookup k = some L → L.Nodup
  mem_list : ∀ k L, st.graph.lookup k = some L → ∀ i, i ∈ L ↔ b i = k ∧ e i ≠ k

theorem exists_lookup {k : V} (h : k ∈ st.graph) : ∃ L, st.graph.lookup k = some L :=
  Option.isSome_iff_exists.mp (AList.lookup_isSome.mpr h)

/-! ### The loops of `fuse` -/

theorem small_all {idxNew : V} {L : List (Fin m)} (hL : st.graph.lookup idxNew = some L)
    (bands : List (Fin m)) :
    ∃ st', bands.foldlM (smallStep idxNew) st = some st' ∧
      (∀ i, st'.edges i = if i ∈ bands then (st.edges i).setBegin idxNew else st.edges i) ∧
      st'.graph.lookup idxNew = some (L ++ bands) ∧
      ∀ k, k ≠ idxNew → st'.graph.lookup k = st.graph.lookup k := by
  refine foldlM_prefix (P := fun t st' =>
    (∀ i, st'.edges i = if i ∈ t then (st.edges i).setBegin idxNew else st.edges i) ∧
      st'.graph.lookup idxNew = some (L ++ t) ∧
      ∀ k, k ≠ idxNew → st'.graph.lookup k = st.graph.lookup k) bands
    (fun t band st' _ ⟨hedges, hnew, hother⟩ => ?_) st
    ⟨fun i => by simp, by simpa using hL, fun _ _ => rfl⟩
  refine ⟨(st'.modify band (·.setBegin idxNew)).setList idxNew (L ++ t ++ [band]), ?_,
    fun i => ?_, ?_, fun k hk => ?_⟩
  · simp [smallStep, WorkGraph.modify, hnew]
  · simp only [WorkGraph.setList, WorkGraph.modify, Function.update_apply, hedges, List.mem_append,
      List.mem_singleton]
    by_cases hi : i = band
    · subst i
      by_cases ht : band ∈ t <;> simp [ht, Edge.setBegin]
    · simp [hi]
  · unfold WorkGraph.setList
    rw [AList.lookup_insert, List.append_assoc]
  · exact (AList.lookup_insert_ne hk).trans (hother k hk)

theorem redirect_all (st : WorkGraph V m) (new old : V) (T : List (Fin m)) (hT : T.Nodup) :
    ∃ st', T.foldl (redirect new old) (st, []) =
        (st', T.filter fun i => (st.edges i).begin = rename new old (st.edges i).end) ∧
      st'.graph = st.graph ∧
      ∀ i, st'.edges i =
        if i ∈ T then (st.edges i).setEnd (rename new old (st.edges i).end) else st.edges i := by
  induction T using List.reverseRecOn with
  | nil => exact ⟨st, by simp, rfl, fun i => by simp⟩
  | append_singleton T i ih =>
    rw [List.nodup_append_comm, List.singleton_append, List.nodup_cons] at hT
    obtain ⟨st₁, hrun, hgraph, hedges⟩ := ih hT.2
    have hi : st₁.edges i = st.edges i := by rw [hedges, if_neg hT.1]
    obtain ⟨st₂, hst₂, hgraph₂, hedges₂⟩ : ∃ st₂,
        (if (st₁.edges i).end = old then st₁.modify i (·.setEnd new) else st₁) = st₂ ∧
        st₂.graph = st.graph ∧ st₂.edges =
          Function.update st₁.edges i ((st.edges i).setEnd (rename new old (st.edges i).end)) := by
      refine ⟨_, rfl, ?_, ?_⟩
      · split
        · exact hgraph
        · exact hgraph
      · rw [hi, rename]
        split
        · unfold WorkGraph.modify
          rw [hi]
        · rw [show (st.edges i).setEnd (st.edges i).end = st₁.edges i by rw [hi]; rfl,
            Function.update_eq_self]
    refine ⟨st₂, ?_, hgraph₂, fun j => ?_⟩
    · rw [List.foldl_append, hrun, List.foldl_cons, List.foldl_nil, redirect, hst₂, hedges₂,
        Function.update_self, List.filter_append]
      by_cases hloop : (st.edges i).begin = rename new old (st.edges i).end
      · simp [Edge.begin, Edge.end, Edge.setEnd] at hloop ⊢
        simp [hloop]
      · simp [Edge.begin, Edge.end, Edge.setEnd] at hloop ⊢
        simp [hloop]
    · rw [hedges₂, Function.update_apply, hedges]
      by_cases hji : j = i
      · subst j
        simp
      · simp [hji]

theorem remove_all (rs T : List (Fin m)) (hrs : rs.Nodup) (hsub : ∀ i ∈ rs, i ∈ T)
    (hT : T.Nodup) : rs.foldlM remove T = some (T.filter (· ∉ rs)) := by
  induction rs generalizing T with
  | nil => simp
  | cons r rs ih =>
    rw [List.nodup_cons] at hrs
    have hmem := hsub r (by simp)
    rw [List.foldlM_cons, remove, if_pos hmem, Option.bind_eq_bind, Option.bind_some,
      ih _ hrs.2 (fun i hi => (List.mem_erase_of_ne (by rintro rfl; exact hrs.1 hi)).mpr
        (hsub i (List.mem_cons_of_mem r hi))) (hT.erase r), hT.erase_eq_filter, List.filter_filter]
    congr 1
    apply List.filter_congr
    intro i _
    by_cases hir : i = r <;> simp [hir]

/-- One step of `long_term` updates the list of the vertex its edge ends in. -/
theorem longTermStep_eq (new old : V) {band : Fin m} {T : List (Fin m)}
    (hT : st.graph.lookup (st.edges band).end = some T) (hnodup : T.Nodup) :
    ∃ st', longTermStep new old st band = some st' ∧
      (∀ i, st'.edges i =
        if i ∈ T then (st.edges i).setEnd (rename new old (st.edges i).end) else st.edges i) ∧
      st'.graph.lookup (st.edges band).end = some (T.filter fun i =>
        (st.edges i).begin ≠ rename new old (st.edges i).end) ∧
      ∀ k, k ≠ (st.edges band).end → st'.graph.lookup k = st.graph.lookup k := by
  obtain ⟨st₁, hredirect, hgraph, hedges⟩ := redirect_all st new old T hnodup
  have hremove := remove_all (T.filter fun i =>
    (st.edges i).begin = rename new old (st.edges i).end) T (hnodup.filter _)
    (fun i hi => (List.mem_filter.mp hi).1) hnodup
  refine ⟨st₁.setList (st.edges band).end (T.filter fun i =>
    (st.edges i).begin ≠ rename new old (st.edges i).end), ?_, hedges, ?_, fun k hk => ?_⟩
  · have hkeep : (T.filter fun i => i ∉ T.filter fun i =>
        (st.edges i).begin = rename new old (st.edges i).end) =
        T.filter fun i => (st.edges i).begin ≠ rename new old (st.edges i).end := by
      apply List.filter_congr
      intro i hi
      simp [hi]
    rw [longTermStep, hT, Option.bind_eq_bind, Option.bind_some, hredirect]
    simp only [hremove, Option.bind_some, hkeep]
    rfl
  · unfold WorkGraph.setList
    rw [AList.lookup_insert]
  · unfold WorkGraph.setList
    rw [AList.lookup_insert_ne hk, hgraph]

/-! ### The state between the loops and inside `long_term` -/

/-- The lists of the vertices `done` have been rebuilt after the list of `y` was moved to `x`. -/
structure Fusing (b e : Fin m → V) (x y : V) (st : WorkGraph V m) (done : List V)
    (st' : WorkGraph V m) : Prop where
  source : ∀ i, (st'.edges i).source = (st.edges i).source
  work : ∀ i, b i ≠ e i → (st'.edges i).work =
    (rename x y (b i), if rename x y (b i) ∈ done then rename x y (e i) else e i)
  list : ∀ k ∈ st.graph, k ≠ y → ∃ L, st'.graph.lookup k = some L ∧ L.Nodup ∧ ∀ i, i ∈ L ↔
    rename x y (b i) = k ∧ b i ≠ e i ∧ (k ∈ done → rename x y (e i) ≠ k)
  mem_iff : ∀ k, k ∈ st'.graph ↔ k ∈ st.graph

section

variable {b e : Fin m → V} {x y : V}

private theorem rename_eq_iff {k : V} (hk : k ≠ y) (v : V) :
    rename x y v = k ↔ v = k ∨ v = y ∧ k = x := by
  unfold rename
  split <;> grind

theorem Represents.small (h : Represents b e st) (hxy : x ≠ y) (hx : x ∈ st.graph)
    {bands : List (Fin m)} (hbands : st.graph.lookup y = some bands) :
    ∃ st', bands.foldlM (smallStep x) st = some st' ∧ Fusing b e x y st [] st' := by
  obtain ⟨L, hL⟩ := exists_lookup hx
  obtain ⟨st', hrun, hedges, hnew, hother⟩ := small_all hL bands
  have hmem := h.mem_list y bands hbands
  refine ⟨st', hrun, fun i => ?_, fun i hi => ?_, fun k hk hky => ?_, fun k => ?_⟩
  · rw [hedges]
    split <;> rfl
  · rw [hedges, if_neg (List.not_mem_nil)]
    have hwork := h.work i hi
    by_cases hb : b i = y
    · rw [if_pos ((hmem i).mpr ⟨hb, fun he => hi (hb.trans he.symm)⟩), Edge.setBegin, hwork,
        rename, if_pos hb]
    · rw [if_neg fun hin => hb ((hmem i).mp hin).1, hwork, rename_of_ne hb]
  · by_cases hkx : k = x
    · subst k
      refine ⟨L ++ bands, hnew, List.nodup_append'.mpr ⟨h.nodup x L hL, h.nodup y bands hbands,
        fun i hi hi' => hxy ?_⟩, fun i => ?_⟩
      · rw [← ((h.mem_list x L hL i).mp hi).1, ((hmem i).mp hi').1]
      · rw [List.mem_append, h.mem_list x L hL, hmem, rename_eq_iff hky]
        grind
    · obtain ⟨M, hM⟩ := exists_lookup hk
      refine ⟨M, by rw [hother k hkx, hM], h.nodup k M hM, fun i => ?_⟩
      rw [h.mem_list k M hM, rename_eq_iff hky]
      grind
  · rw [← AList.lookup_isSome, ← AList.lookup_isSome]
    by_cases hkx : k = x
    · rw [hkx, hnew, hL]
      rfl
    · rw [hother k hkx]

theorem Fusing.begin_eq {st' : WorkGraph V m} {done : List V} (h : Fusing b e x y st done st')
    {i : Fin m} (hi : b i ≠ e i) : (st'.edges i).begin = rename x y (b i) := by
  unfold Edge.begin
  rw [h.work i hi]

/-- The redirected end of an edge that is not a loop yet. -/
theorem Fusing.rename_end {st' : WorkGraph V m} {done : List V} (h : Fusing b e x y st done st')
    (hxy : x ≠ y) {i : Fin m} (hi : b i ≠ e i) :
    rename x y (st'.edges i).end = rename x y (e i) := by
  rw [Edge.end, h.work i hi]
  split
  · exact rename_idem hxy (e i)
  · rfl

/-- One step of `long_term` rebuilds one list, whether or not it has been rebuilt before. -/
theorem Fusing.step {st' : WorkGraph V m} {done : List V} (h : Fusing b e x y st done st')
    (hxy : x ≠ y) {band : Fin m} (hb : b band = y) (he : e band ≠ y) (hk : e band ∈ st.graph) :
    ∃ st'', longTermStep x y st' band = some st'' ∧
      Fusing b e x y st (done ++ [e band]) st'' := by
  have hend : (st'.edges band).end = e band := by
    rw [Edge.end, h.work band (by rw [hb]; exact he.symm), rename_of_ne he]
    split <;> rfl
  obtain ⟨T, hT, hnodup, hmem⟩ := h.list (e band) hk he
  rw [← hend] at hT
  obtain ⟨st'', hrun, hedges, hself, hother⟩ := longTermStep_eq x y hT hnodup
  rw [hend] at hself hother
  refine ⟨st'', hrun, fun i => ?_, fun i hi => ?_, fun k hkG hky => ?_, fun k => ?_⟩
  · rw [hedges]
    split
    · exact h.source i
    · exact h.source i
  · rw [hedges]
    by_cases hiT : i ∈ T
    · have hbk := ((hmem i).mp hiT).1
      rw [if_pos hiT, Edge.setEnd, h.rename_end hxy hi, if_pos (by simp [hbk])]
      exact Prod.ext (h.begin_eq hi) rfl
    · -- an edge that has left the list was redirected before
      rw [if_neg hiT, h.work i hi]
      by_cases hbk : rename x y (b i) = e band
      · have hdone : e band ∈ done := by
          by_contra hnot
          exact hiT ((hmem i).mpr ⟨hbk, hi, fun hin => absurd hin hnot⟩)
        rw [hbk, if_pos hdone, if_pos (List.mem_append_left _ hdone)]
      · simp [hbk]
  · by_cases hke : k = e band
    · subst k
      refine ⟨_, hself, hnodup.filter _, fun i => ?_⟩
      rw [List.mem_filter, hmem, decide_eq_true_eq]
      constructor
      · rintro ⟨⟨hbk, hi, -⟩, hloop⟩
        rw [h.begin_eq hi, h.rename_end hxy hi, hbk] at hloop
        exact ⟨hbk, hi, fun _ => hloop.symm⟩
      · rintro ⟨hbk, hi, hout⟩
        have hne := hout (by simp)
        refine ⟨⟨hbk, hi, fun _ => hne⟩, ?_⟩
        rw [h.begin_eq hi, h.rename_end hxy hi, hbk]
        exact hne.symm
    · obtain ⟨L, hL, hLnodup, hLmem⟩ := h.list k hkG hky
      refine ⟨L, by rw [hother k hke, hL], hLnodup, fun i => ?_⟩
      rw [hLmem, List.mem_append, List.mem_singleton, or_iff_left hke]
  · rw [← h.mem_iff, ← AList.lookup_isSome, ← AList.lookup_isSome]
    by_cases hke : k = e band
    · rw [hke, hself, ← hend, hT]
      rfl
    · rw [hother k hke]

/-- A vertex with an edge into the old one has been rebuilt at the end of `long_term`. -/
private theorem Represents.mem_rebuilt (h : Represents b e st)
    (hsymm : ∀ i, b i ≠ e i → ∃ j, b j = e i ∧ e j = b i) {bands : List (Fin m)}
    (hbands : st.graph.lookup y = some bands) {i : Fin m} (hi : b i ≠ e i) (hy : e i = y) :
    b i ∈ bands.map e := by
  obtain ⟨j, hbj, hej⟩ := hsymm i hi
  refine List.mem_map.mpr ⟨j, (h.mem_list y bands hbands j).mpr ⟨hbj.trans hy, ?_⟩, hej⟩
  rw [hej, ← hy]
  exact hi

/-- An edge from a vertex that has not been rebuilt is not moved by the renaming. -/
private theorem Represents.rename_of_notMem (h : Represents b e st)
    (hsymm : ∀ i, b i ≠ e i → ∃ j, b j = e i ∧ e j = b i) {bands : List (Fin m)}
    (hbands : st.graph.lookup y = some bands) (hx : x ∈ bands.map e) {i : Fin m}
    (hi : b i ≠ e i) (hnot : rename x y (b i) ∉ bands.map e) :
    rename x y (e i) = e i ∧ e i ≠ rename x y (b i) := by
  have hby : b i ≠ y := by
    intro hby
    unfold rename at hnot
    rw [if_pos hby] at hnot
    exact hnot hx
  rw [rename_of_ne hby] at hnot ⊢
  exact ⟨rename_of_ne fun hey => hnot (h.mem_rebuilt hsymm hbands hi hey), hi.symm⟩

theorem Fusing.mem_erase_iff {st' : WorkGraph V m} {done : List V}
    (h : Fusing b e x y st done st') (k : V) :
    k ∈ st'.graph.erase y ↔ k ∈ st.graph ∧ k ≠ y := by
  rw [AList.mem_erase, h.mem_iff, and_comm]

theorem Fusing.rename_mem_erase {st' : WorkGraph V m} {done : List V}
    (h : Fusing b e x y st done st') (hxy : x ≠ y) (hx : x ∈ st.graph) {v : V}
    (hv : v ∈ st.graph) : rename x y v ∈ st'.graph.erase y := by
  rw [h.mem_erase_iff]
  refine ⟨?_, rename_ne hxy v⟩
  unfold rename
  split
  · exact hx
  · exact hv

/-- The lists hold the renamed edges once no edge is left to move. -/
theorem Fusing.mem_list_erase {st' : WorkGraph V m} {done : List V}
    (h : Fusing b e x y st done st')
    (hstable : ∀ i, b i ≠ e i → rename x y (b i) ∉ done →
      rename x y (e i) = e i ∧ e i ≠ rename x y (b i)) {k : V} {L : List (Fin m)}
    (hL : (st'.graph.erase y).lookup k = some L) :
    L.Nodup ∧ ∀ i, i ∈ L ↔ rename x y (b i) = k ∧ rename x y (e i) ≠ k := by
  have hk := (h.mem_erase_iff k).mp (AList.lookup_isSome.mp (by rw [hL]; rfl))
  obtain ⟨M, hM, hnodup, hmem⟩ := h.list k hk.1 hk.2
  rw [AList.lookup_erase_ne hk.2, hM] at hL
  obtain rfl := Option.some.inj hL
  refine ⟨hnodup, fun i => ?_⟩
  rw [hmem]
  constructor
  · rintro ⟨rfl, hi, hout⟩
    refine ⟨rfl, ?_⟩
    by_cases hin : rename x y (b i) ∈ done
    · exact hout hin
    · rw [(hstable i hi hin).1]
      exact (hstable i hi hin).2
  · rintro ⟨rfl, hne⟩
    exact ⟨rfl, fun hi => hne (by rw [hi]), fun _ => hne⟩

/-- Without the old vertex the work graph represents the renamed edges. -/
theorem Fusing.represents {st' : WorkGraph V m} {done : List V}
    (h : Fusing b e x y st done st') (hst : Represents b e st) (hxy : x ≠ y) (hx : x ∈ st.graph)
    (hstable : ∀ i, b i ≠ e i → rename x y (b i) ∉ done →
      rename x y (e i) = e i ∧ e i ≠ rename x y (b i)) :
    Represents (rename x y ∘ b) (rename x y ∘ e) { st' with graph := st'.graph.erase y } where
  work i hi := by
    have hne : b i ≠ e i := fun heq => hi (congrArg _ heq)
    refine (h.work i hne).trans (Prod.ext rfl ?_)
    by_cases hin : rename x y (b i) ∈ done
    · exact if_pos hin
    · exact (if_neg hin).trans (hstable i hne hin).1.symm
  begin_mem i := h.rename_mem_erase hxy hx (hst.begin_mem i)
  end_mem i := h.rename_mem_erase hxy hx (hst.end_mem i)
  nodup _ _ hL := (h.mem_list_erase hstable hL).1
  mem_list _ _ hL := (h.mem_list_erase hstable hL).2

/-- A contraction of the edge `cut`, in a graph where every edge has one back. -/
theorem Represents.fuse (h : Represents b e st)
    (hsymm : ∀ i, b i ≠ e i → ∃ j, b j = e i ∧ e j = b i) {cut : Fin m} (hcut : b cut ≠ e cut) :
    ∃ st', fuse st cut = some st' ∧
      Represents (rename (b cut) (e cut) ∘ b) (rename (b cut) (e cut) ∘ e) st' ∧
      (∀ i, (st'.edges i).source = (st.edges i).source) ∧
      ∀ k, k ∈ st'.graph ↔ k ∈ st.graph ∧ k ≠ e cut := by
  obtain ⟨bands, hbands⟩ := exists_lookup (h.end_mem cut)
  have hband := h.mem_list (e cut) bands hbands
  obtain ⟨st₁, hsmall, h₁⟩ := h.small hcut (h.begin_mem cut) hbands
  obtain ⟨st₂, hlong, h₂⟩ := foldlM_prefix
    (P := fun t st₂ => Fusing b e (b cut) (e cut) st (t.map e) st₂)
    (f := longTermStep (b cut) (e cut)) bands
    (fun t band st₂ ht hst₂ => by
      obtain ⟨hb, he⟩ := (hband band).mp (ht.subset (by simp))
      rw [List.map_append, List.map_singleton]
      exact hst₂.step hcut hb he (h.end_mem band)) st₁ h₁
  have hx := h.mem_rebuilt hsymm hbands hcut rfl
  refine ⟨{ st₂ with graph := st₂.graph.erase (e cut) }, ?_,
    h₂.represents h hcut (h.begin_mem cut) fun i hi =>
      h.rename_of_notMem hsymm hbands hx hi, h₂.source, h₂.mem_erase_iff⟩
  have hbegin : (st.edges cut).begin = b cut := by rw [Edge.begin, h.work cut hcut]
  have hend : (st.edges cut).end = e cut := by rw [Edge.end, h.work cut hcut]
  unfold MinCut.fuse
  dsimp only
  rw [hbegin, hend, if_neg hcut, hbands]
  simp [hsmall, hlong]

end

end CppTricks.Graph.MinCut
