import CppTricks.Foundation.BreadthFirst
import CppTricks.Foundation.Heap
import CppTricks.Graph.GraphUtil

/-! `search_in_graph.py`: vertices as linked objects, and a breadth-first search over them. -/
namespace CppTricks.Graph
open Foundation

/-- The ends are names until `recode_graph` has made them references. -/
structure Vertex (K : Type) where
  self : K
  ends : List K ⊕ List ℕ
  explored : Bool
  distance : ℕ

abbrev Vertices (K : Type) := Heap (Vertex K)

abbrev Store (K : Type) := AList fun _ : K => ℕ

namespace Vertex

variable {K : Type} [DecidableEq K]

def init (own : K) (ends : List K) : Vertex K := ⟨own, .inl ends, false, 0⟩

def createAll (g : AdjList K) : Store K × Vertices K :=
  g.entries.foldl (fun p entry =>
    let made := p.2.allocate (init entry.1 entry.2)
    (p.1.insert entry.1 made.1, made.2)) (∅, .empty)

/-- The body of the loop over `store.items()`; `none` is a failed key lookup. -/
def link (store : Store K) (vertices : Vertices K) (name : K) : Option (Vertices K) := do
  let a ← store.lookup name
  let vertex ← vertices.objects a
  let rawEnds ← vertex.ends.getLeft?
  let refEnds ← rawEnds.mapM store.lookup
  return vertices.modify a fun vertex => { vertex with ends := .inr refEnds }

/-- `order` is the order in which `store.items()` comes. -/
def recodeGraph (g : AdjList K) (order : List K) : Option (Store K × Vertices K) := do
  let made := createAll g
  let vertices ← order.foldlM (link made.1) made.2
  return (made.1, vertices)

end Vertex

section Bfs

variable {K : Type} [DecidableEq K]

def mark (v : ℕ) (p : Vertices K × List ℕ) (w : ℕ) : Option (Vertices K × List ℕ) := do
  let end' ← p.1.objects w
  if end'.explored then return p
  let vertex ← p.1.objects v
  let distance := vertex.distance + 1
  return (p.1.modify w fun x => { x with explored := true, distance := distance }, p.2 ++ [w])

/-- `while not Q.empty()`, with the names printed so far; `none` is also that it takes more than
`fuel` rounds. -/
def bfsLoop : ℕ → Vertices K → List ℕ → List K → Option (Vertices K × List K)
  | 0, _, _, _ => none
  | _ + 1, vertices, [], printed => some (vertices, printed)
  | fuel + 1, vertices, v :: queue, printed => do
    let vertex ← vertices.objects v
    let ends ← vertex.ends.getRight?
    let (vertices, queue) ← ends.foldlM (mark v) (vertices, queue)
    bfsLoop fuel vertices queue (printed ++ [vertex.self])

structure Exit (K : Type) where
  graphStore : Store K
  vertices : Vertices K
  printed : List K

def Exit.vertex? (e : Exit K) (name : K) : Option (Vertex K) :=
  (e.graphStore.lookup name).bind e.vertices.objects

/-- `truthy` is what a name counts as in `assert start`. -/
def bfsExpensiveImpl (truthy : K → Bool) (g : AdjList K) (order : List K) (start : K) (fuel : ℕ) :
    Option (Exit K) := do
  guard (truthy start)
  guard (g.entries ≠ [])
  let (graphStore, vertices) ← Vertex.recodeGraph g order
  let a ← graphStore.lookup start
  let vertices := vertices.modify a fun x => { x with explored := true }
  let (vertices, printed) ← bfsLoop fuel vertices [a] []
  return ⟨graphStore, vertices, printed⟩

end Bfs

/-! ### The objects as a graph -/

variable {K : Type} [DecidableEq K] {g : AdjList K} {addr : K → ℕ} {store : Store K}
  {vertices : Vertices K} {order : List K} {s t : BreadthFirst K} {start v w : K} {queue : List ℕ}

/-- The vertices have their objects, made by `Vertex(own, ends)`. -/
private def Created (entries : List (Sigma fun _ : K => List K)) (p : Store K × Vertices K) :
    Prop :=
  ∀ e ∈ entries, ∃ a, p.1.lookup e.1 = some a ∧ p.2.objects a = some (Vertex.init e.1 e.2)

private theorem createAll_created (g : AdjList K) : Created g.entries (Vertex.createAll g) := by
  have hall : ∀ done, done <+: g.entries → Created done (done.foldl (fun p entry =>
      let made := p.2.allocate (Vertex.init entry.1 entry.2)
      (p.1.insert entry.1 made.1, made.2)) (∅, .empty)) := by
    intro done
    induction done using List.reverseRecOn with
    | nil => exact fun _ e he => nomatch he
    | append_singleton done e ih =>
      intro hpre
      have hcreated := ih ((List.prefix_append done [e]).trans hpre)
      have hnodup := (hpre.sublist.map Sigma.fst).nodup g.keys_nodup
      rw [List.map_append, List.nodup_append'] at hnodup
      rw [List.foldl_append, List.foldl_cons, List.foldl_nil]
      intro d hd
      dsimp only
      cases List.mem_append.mp hd with
      | inl hold =>
        obtain ⟨a, hlookup, hobject⟩ := hcreated d hold
        have hne : d.1 ≠ e.1 := fun heq =>
          hnodup.2.2 (List.mem_map_of_mem hold) (List.mem_singleton.mpr heq)
        refine ⟨a, (AList.lookup_insert_ne hne).trans hlookup, ?_⟩
        rw [Heap.objects_allocate_of_ne (Heap.ne_fresh hobject), hobject]
      | inr hnew =>
        rw [List.mem_singleton.mp hnew]
        exact ⟨_, AList.lookup_insert _, Heap.objects_allocate_self _ _⟩
  exact hall g.entries List.prefix_rfl

/-- The object of `v` is at `addr v`. -/
def Addressed (g : AdjList K) (store : Store K) (addr : K → ℕ) : Prop :=
  ∀ v ∈ g, store.lookup v = some (addr v)

private theorem mapM_lookup (hstore : Addressed g store addr) (names : List K)
    (hnames : ∀ w ∈ names, w ∈ g) : names.mapM store.lookup = some (names.map addr) := by
  induction names with
  | nil => rfl
  | cons w names ih =>
    rw [List.mapM_cons, hstore w (hnames w List.mem_cons_self),
      ih fun x hx => hnames x (List.mem_cons_of_mem w hx)]
    rfl

/-- The object of `v` before and after its ends have been made references. -/
private def recoded (g : AdjList K) (addr : K → ℕ) (done : List K) (v : K) : Vertex K :=
  if v ∈ done then ⟨v, .inr ((g.ends v).map addr), false, 0⟩ else Vertex.init v (g.ends v)

private theorem self_recoded (g : AdjList K) (addr : K → ℕ) (done : List K) (v : K) :
    (recoded g addr done v).self = v := by
  unfold recoded
  split <;> rfl

omit [DecidableEq K] in
private theorem addr_ne {x y : Vertex K} (hx : vertices.objects (addr v) = some x)
    (hy : vertices.objects (addr w) = some y) (hne : x.self ≠ y.self) : addr v ≠ addr w := by
  intro heq
  rw [heq, hy] at hx
  exact hne (congrArg Vertex.self (Option.some.inj hx)).symm

private theorem link_recoded {done : List K} (hends : g.EndsAreKeys)
    (hstore : Addressed g store addr) (hv : v ∈ g) (hnew : v ∉ done)
    (hvertices : ∀ u ∈ g, vertices.objects (addr u) = some (recoded g addr done u)) :
    ∃ vertices', Vertex.link store vertices v = some vertices' ∧
      ∀ u ∈ g, vertices'.objects (addr u) = some (recoded g addr (done ++ [v]) u) := by
  have hobject : vertices.objects (addr v) = some (Vertex.init v (g.ends v)) := by
    rw [hvertices v hv]
    exact congrArg some (if_neg hnew)
  refine ⟨vertices.modify (addr v) fun vertex =>
    { vertex with ends := .inr ((g.ends v).map addr) }, ?_, ?_⟩
  · unfold Vertex.link
    rw [hstore v hv]
    simp [hobject, Vertex.init, mapM_lookup hstore _ (hends v hv)]
  · intro u hu
    by_cases huv : u = v
    · subst huv
      rw [Heap.objects_modify_self, hobject]
      simp [recoded, Vertex.init]
    · have hother : addr u ≠ addr v := by
        apply addr_ne (hvertices u hu) hobject
        rwa [self_recoded]
      rw [Heap.objects_modify_of_ne hother, hvertices u hu]
      simp [recoded, huv]

/-- Whatever the order of `store.items()`, every object gets the references to its ends. -/
theorem recodeGraph_recoded (hends : g.EndsAreKeys) (horder : order.Perm g.keys) :
    ∃ store addr vertices, Vertex.recodeGraph g order = some (store, vertices) ∧
      Addressed g store addr ∧ ∀ v ∈ g,
        vertices.objects (addr v) = some ⟨v, .inr ((g.ends v).map addr), false, 0⟩ := by
  have hcreated : ∀ v ∈ g, ∃ a, (Vertex.createAll g).1.lookup v = some a ∧
      (Vertex.createAll g).2.objects a = some (Vertex.init v (g.ends v)) := by
    intro v hv
    exact createAll_created g ⟨v, g.ends v⟩ (AdjList.mem_entries_iff.mpr ⟨hv, rfl⟩)
  obtain ⟨addr, haddr⟩ : ∃ addr : K → ℕ, ∀ v ∈ g,
      (Vertex.createAll g).1.lookup v = some (addr v) ∧
        (Vertex.createAll g).2.objects (addr v) = some (Vertex.init v (g.ends v)) := by
    refine ⟨fun v => ((Vertex.createAll g).1.lookup v).getD 0, ?_⟩
    intro v hv
    obtain ⟨a, hlookup, hobject⟩ := hcreated v hv
    dsimp only
    rw [hlookup]
    exact ⟨rfl, hobject⟩
  have hstore : Addressed g (Vertex.createAll g).1 addr := fun v hv => (haddr v hv).1
  have hkeys : ∀ v, v ∈ order ↔ v ∈ g := fun v => horder.mem_iff.trans AList.mem_keys.symm
  have hstep : ∀ done v vertices, done ++ [v] <+: order →
      (∀ u ∈ g, vertices.objects (addr u) = some (recoded g addr done u)) →
      ∃ vertices', Vertex.link (Vertex.createAll g).1 vertices v = some vertices' ∧
        ∀ u ∈ g, vertices'.objects (addr u) = some (recoded g addr (done ++ [v]) u) := by
    intro done v vertices hpre hvertices
    have hv : v ∈ g := (hkeys v).mp (hpre.subset (by simp))
    have hnodup := hpre.sublist.nodup (horder.nodup_iff.mpr g.keys_nodup)
    rw [List.nodup_append'] at hnodup
    apply link_recoded hends hstore hv _ hvertices
    intro hmem
    exact hnodup.2.2 hmem (List.mem_singleton.mpr rfl)
  obtain ⟨vertices, hrun, hvertices⟩ := foldlM_prefix (P := fun done vertices =>
    ∀ u ∈ g, vertices.objects (addr u) = some (recoded g addr done u)) order hstep
    (Vertex.createAll g).2 fun v hv => (haddr v hv).2
  refine ⟨(Vertex.createAll g).1, addr, vertices, ?_, hstore, ?_⟩
  · unfold Vertex.recodeGraph
    simp [hrun]
  · intro v hv
    rw [hvertices v hv]
    exact congrArg some (if_pos ((hkeys v).mpr hv))

/-- The objects show what the search has seen, and the levels. -/
structure Shows (g : AdjList K) (addr : K → ℕ) (vertices : Vertices K) (s : BreadthFirst K) :
    Prop where
  object : ∀ v ∈ g, vertices.objects (addr v) =
    some ⟨v, .inr ((g.ends v).map addr), decide (v ∈ s.seen), s.level v⟩
  queue : ∀ v ∈ s.queue, v ∈ g

/-- An edge between objects is followed as between the vertices. -/
theorem Shows.mark (h : Shows g addr vertices s) (hv : v ∈ g) (hw : w ∈ g) :
    ∃ vertices', mark (addr v) (vertices, s.queue.map addr) (addr w) =
        some (vertices', (BreadthFirst.discover v s w).queue.map addr) ∧
      Shows g addr vertices' (BreadthFirst.discover v s w) := by
  by_cases hseen : w ∈ s.seen
  · have hsame : BreadthFirst.discover v s w = s := if_pos hseen
    rw [hsame]
    refine ⟨vertices, ?_, h⟩
    unfold Graph.mark
    simp [h.object w hw, hseen]
  · have hnew : BreadthFirst.discover v s w =
        ⟨Function.update s.level w (s.level v + 1), s.out, s.queue ++ [w]⟩ := if_neg hseen
    refine ⟨vertices.modify (addr w) fun x =>
      { x with explored := true, distance := s.level v + 1 }, ?_, ?_, ?_⟩
    · unfold Graph.mark
      rw [hnew]
      simp [h.object w hw, h.object v hv, hseen]
    · intro u hu
      rw [(BreadthFirst.discover_new v hseen).1, hnew]
      by_cases huw : u = w
      · subst huw
        rw [Heap.objects_modify_self, h.object u hu]
        simp
      · have hne : addr u ≠ addr w := addr_ne (h.object u hu) (h.object w hw) huw
        rw [Heap.objects_modify_of_ne hne, h.object u hu]
        simp [huw]
    · intro u hu
      rw [hnew] at hu
      cases List.mem_append.mp hu with
      | inl hold => exact h.queue u hold
      | inr hlast => exact List.mem_singleton.mp hlast ▸ hw

theorem Shows.markAll (h : Shows g addr vertices s) (hv : v ∈ g) (ws : List K)
    (hws : ∀ w ∈ ws, w ∈ g) :
    ∃ vertices', (ws.map addr).foldlM (Graph.mark (addr v)) (vertices, s.queue.map addr) =
        some (vertices', (ws.foldl (BreadthFirst.discover v) s).queue.map addr) ∧
      Shows g addr vertices' (ws.foldl (BreadthFirst.discover v) s) := by
  induction ws generalizing vertices s with
  | nil => exact ⟨vertices, rfl, h⟩
  | cons w ws ih =>
    obtain ⟨vertices₁, hmark, hshows⟩ := h.mark hv (hws w List.mem_cons_self)
    obtain ⟨vertices₂, hrest, hshows'⟩ := ih hshows fun x hx => hws x (List.mem_cons_of_mem w hx)
    refine ⟨vertices₂, ?_, hshows'⟩
    rw [List.map_cons, List.foldlM_cons, hmark]
    exact hrest

/-- The loop over objects ends as the search over vertices does. -/
theorem Shows.bfsLoop (hends : g.EndsAreKeys) (fuel : ℕ) (h : Shows g addr vertices s)
    (hsearch : BreadthFirst.search g.ends fuel s = some t) :
    ∃ vertices', bfsLoop fuel vertices (s.queue.map addr) s.out = some (vertices', t.out) ∧
      Shows g addr vertices' t := by
  induction fuel generalizing vertices s with
  | zero => cases hsearch
  | succ fuel ih =>
    unfold BreadthFirst.search at hsearch
    cases hqueue : s.queue with
    | nil =>
      rw [hqueue] at hsearch
      obtain rfl := Option.some.inj hsearch
      exact ⟨vertices, rfl, h⟩
    | cons v queue =>
      rw [hqueue] at hsearch
      have hv : v ∈ g := h.queue v (hqueue ▸ List.mem_cons_self)
      have hseen : BreadthFirst.seen ⟨s.level, s.out ++ [v], queue⟩ = s.seen := by
        unfold BreadthFirst.seen
        rw [hqueue, List.append_assoc]
        rfl
      have hpopped : Shows g addr vertices ⟨s.level, s.out ++ [v], queue⟩ := by
        constructor
        · rw [hseen]
          exact h.object
        · intro u hu
          exact h.queue u (hqueue ▸ List.mem_cons_of_mem v hu)
      obtain ⟨vertices₁, hmarks, hshows⟩ := hpopped.markAll hv (g.ends v) (hends v hv)
      obtain ⟨vertices₂, hrest, hshows'⟩ := ih hshows hsearch
      refine ⟨vertices₂, ?_, hshows'⟩
      rw [(BreadthFirst.foldl_discover_extends _ v (g.ends v)).out] at hrest
      unfold Graph.bfsLoop
      simp [h.object v hv, hmarks, hrest]

omit [DecidableEq K] in
theorem bfsLoop_mono {fuel fuel' : ℕ} (hle : fuel ≤ fuel') {printed : List K}
    {r : Vertices K × List K} (h : bfsLoop fuel vertices queue printed = some r) :
    bfsLoop fuel' vertices queue printed = some r := by
  induction fuel generalizing fuel' vertices queue printed with
  | zero => cases h
  | succ fuel ih =>
    obtain ⟨k, rfl⟩ := Nat.exists_eq_add_of_le' hle
    rw [← Nat.add_assoc]
    cases queue with
    | nil => exact h
    | cons v queue =>
      unfold bfsLoop at h ⊢
      simp only [Option.bind_eq_bind, Option.bind_eq_some_iff] at h ⊢
      obtain ⟨vertex, hvertex, ends, hends, p, hp, hrest⟩ := h
      exact ⟨vertex, hvertex, ends, hends, p, hp, ih (Nat.le_add_left fuel k) hrest⟩

/-- The search starts with the one vertex that is explored. -/
private theorem shows_init (hstart : start ∈ g) (hvertices : ∀ v ∈ g,
      vertices.objects (addr v) = some ⟨v, .inr ((g.ends v).map addr), false, 0⟩) :
    Shows g addr (vertices.modify (addr start) fun x => { x with explored := true })
      (BreadthFirst.init start) where
  object v hv := by
    by_cases heq : v = start
    · subst heq
      rw [Heap.objects_modify_self, hvertices v hv]
      simp [BreadthFirst.init, BreadthFirst.seen]
    · have hne : addr v ≠ addr start := addr_ne (hvertices v hv) (hvertices start hstart) heq
      rw [Heap.objects_modify_of_ne hne, hvertices v hv]
      simp [BreadthFirst.init, BreadthFirst.seen, heq]
  queue v hv := List.mem_singleton.mp hv ▸ hstart

private theorem closed_keys (hends : g.EndsAreKeys) : Closed g.ends g.keys.toFinset := by
  intro v hv w hw
  rw [List.mem_toFinset, ← AList.mem_keys] at hv ⊢
  exact hends v hv w hw

/-- The search ends whatever the order of the dictionaries: the objects that are explored are
those that `start` reaches, with their least numbers of hops, and their names have been printed
once each in the order of these. -/
theorem bfsExpensiveImpl_spec (truthy : K → Bool) (hends : g.EndsAreKeys)
    (horder : order.Perm g.keys) (hstart : start ∈ g) (htruthy : truthy start = true) :
    ∃ n e, (∀ fuel, n ≤ fuel → bfsExpensiveImpl truthy g order start fuel = some e) ∧
      e.printed.Nodup ∧ (∀ v, v ∈ e.printed ↔ HasPath g.ends start v) ∧
      (∀ v ∈ g, ∃ x, e.vertex? v = some x ∧ (x.explored = true ↔ HasPath g.ends start v) ∧
        (HasPath g.ends start v → IsLeast {n | Hops g.ends start v n} x.distance)) ∧
      e.printed.Pairwise fun u v => ∀ x y, e.vertex? u = some x → e.vertex? v = some y →
        x.distance ≤ y.distance := by
  obtain ⟨store, addr, vertices, hrecode, hstore, hvertices⟩ := recodeGraph_recoded hends horder
  have hshows := shows_init hstart hvertices
  have hmem : start ∈ g.keys.toFinset := List.mem_toFinset.mpr (AList.mem_keys.mp hstart)
  obtain ⟨t, hsearch, hsearching, hqueue⟩ :=
    (@BreadthFirst.init_searching K g.ends start).search (closed_keys hends) hmem
      (g.keys.toFinset.card + 1) (by simp [BreadthFirst.init])
  obtain ⟨vertices', hloop, hshows'⟩ := hshows.bfsLoop hends _ hsearch
  obtain ⟨hout, hleast⟩ := hsearching.isLeast hqueue
  have hseen : t.seen = t.out := by
    unfold BreadthFirst.seen
    rw [hqueue, List.append_nil]
  have hobject : ∀ v ∈ g, Exit.vertex? ⟨store, vertices', t.out⟩ v =
      some ⟨v, .inr ((g.ends v).map addr), decide (v ∈ t.seen), t.level v⟩ := by
    intro v hv
    unfold Exit.vertex?
    rw [hstore v hv]
    exact hshows'.object v hv
  refine ⟨g.keys.toFinset.card + 1, ⟨store, vertices', t.out⟩, ?_, ?_, hout, ?_, ?_⟩
  · intro fuel hfuel
    have hrun := bfsLoop_mono hfuel hloop
    change bfsLoop fuel _ [addr start] [] = _ at hrun
    have hne : g.entries ≠ [] := by
      intro hnil
      have hkey := AList.mem_keys.mp hstart
      unfold AList.keys at hkey
      rw [hnil] at hkey
      cases hkey
    unfold bfsExpensiveImpl
    simp [htruthy, hne, hrecode, hstore start hstart, hrun]
  · exact hseen ▸ hsearching.nodup
  · intro v hv
    refine ⟨_, hobject v hv, ?_, ?_⟩
    · rw [hseen, decide_eq_true_iff]
      exact hout v
    · intro hpath
      exact hleast v ((hout v).mpr hpath)
  · have hsorted := hsearching.sorted
    rw [hseen] at hsorted
    apply hsorted.imp_of_mem
    intro u v hu hv hle x y hx hy
    rw [hobject u (hends.path hstart ((hout u).mp hu))] at hx
    rw [hobject v (hends.path hstart ((hout v).mp hv))] at hy
    obtain rfl := Option.some.inj hx
    obtain rfl := Option.some.inj hy
    exact hle

private def pairGr : AdjList ℕ := [⟨0, [1]⟩, ⟨1, [0]⟩].toAList

private theorem mem_pairGr (v : ℕ) : v ∈ pairGr ↔ v = 0 ∨ v = 1 := by
  rw [AList.mem_keys, show pairGr.keys = [0, 1] from rfl]
  simp

private theorem pairGr_endsAreKeys : pairGr.EndsAreKeys := by
  intro v hv w hw
  rw [mem_pairGr] at hv ⊢
  cases hv with
  | inl hzero =>
    subst hzero
    exact .inr (List.mem_singleton.mp hw)
  | inr hone =>
    subst hone
    exact .inl (List.mem_singleton.mp hw)

theorem bfsExpensiveImpl_one : ∃ n e, (∀ fuel, n ≤ fuel →
      bfsExpensiveImpl (fun v => v ≠ 0) pairGr pairGr.keys 1 fuel = some e) ∧ e.printed.Nodup ∧
    ∀ v, v ∈ e.printed ↔ HasPath pairGr.ends 1 v := by
  obtain ⟨n, e, hrun, hnodup, hmem, -⟩ := bfsExpensiveImpl_spec (fun v : ℕ => v ≠ 0)
    pairGr_endsAreKeys (.refl pairGr.keys) ((mem_pairGr 1).mpr (.inr rfl)) rfl
  exact ⟨n, e, hrun, hnodup, hmem⟩

example : (bfsExpensiveImpl (fun v => v ≠ 0) pairGr [1, 0] 1 3).map Exit.printed =
    some [1, 0] := by rfl

/-- The start vertex called `0` is refused. -/
theorem bfsExpensiveImpl_zero : 0 ∈ pairGr ∧ pairGr.EndsAreKeys ∧
    ∀ order fuel, bfsExpensiveImpl (fun v => v ≠ 0) pairGr order 0 fuel = none :=
  ⟨(mem_pairGr 0).mpr (.inl rfl), pairGr_endsAreKeys, fun _ _ => rfl⟩

end CppTricks.Graph
