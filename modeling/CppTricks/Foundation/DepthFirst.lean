import Mathlib.Data.Finset.Basic
import Mathlib.Data.Finset.Lattice.Lemmas
import Mathlib.Data.List.Nodup
import Mathlib.Data.List.Pairwise
import Mathlib.Logic.Relation

/-! The order in which a depth-first search finishes vertices, and sweeps that search from each
vertex left. -/
namespace Foundation

variable {V : Type} {succ : V → List V}

/-! ### Paths -/

def HasPath (succ : V → List V) : V → V → Prop := Relation.ReflTransGen fun a b => b ∈ succ a

/-- The vertices lie in one strongly connected component. -/
def Linked (succ : V → List V) (x y : V) : Prop := HasPath succ x y ∧ HasPath succ y x

theorem Linked.refl (x : V) : Linked succ x x := ⟨.refl, .refl⟩

theorem Linked.symm {x y : V} (h : Linked succ x y) : Linked succ y x := ⟨h.2, h.1⟩

theorem Linked.trans {x y z : V} (hxy : Linked succ x y) (hyz : Linked succ y z) :
    Linked succ x z :=
  ⟨Relation.ReflTransGen.trans hxy.1 hyz.1, Relation.ReflTransGen.trans hyz.2 hxy.2⟩

def Closed (succ : V → List V) (E : Finset V) : Prop := ∀ a ∈ E, ∀ b ∈ succ a, b ∈ E

theorem Closed.path {E : Finset V} (h : Closed succ E) {x y : V} (hx : x ∈ E)
    (hpath : HasPath succ x y) : y ∈ E := by
  induction hpath with
  | refl => exact hx
  | tail _ hstep ih => exact h _ ih _ hstep

/-- A path that stays outside `E`. -/
def Reach (succ : V → List V) (E : Finset V) (x y : V) : Prop :=
  x ∉ E ∧ Relation.ReflTransGen (fun a b => b ∈ succ a ∧ b ∉ E) x y

namespace Reach

variable {E S : Finset V} {x y z : V}

theorem refl (h : x ∉ E) : Reach succ E x x := ⟨h, .refl⟩

theorem trans (hxy : Reach succ E x y) (hyz : Reach succ E y z) : Reach succ E x z :=
  ⟨hxy.1, Relation.ReflTransGen.trans hxy.2 hyz.2⟩

theorem tail (h : Reach succ E x y) (hz : z ∈ succ y) (hout : z ∉ E) : Reach succ E x z :=
  ⟨h.1, h.2.tail ⟨hz, hout⟩⟩

theorem head (hx : x ∉ E) (hy : y ∈ succ x) (h : Reach succ E y z) : Reach succ E x z :=
  ⟨hx, h.2.head ⟨hy, h.1⟩⟩

theorem notMem (h : Reach succ E x y) : y ∉ E := by
  obtain ⟨hx, hpath⟩ := h
  induction hpath with
  | refl => exact hx
  | tail _ hstep _ => exact hstep.2

theorem path (h : Reach succ E x y) : HasPath succ x y :=
  Relation.ReflTransGen.mono (fun _ _ hstep => hstep.1) _ _ h.2

theorem mono (hsub : S ⊆ E) (h : Reach succ E x y) : Reach succ S x y :=
  ⟨fun hx => h.1 (hsub hx), Relation.ReflTransGen.mono
    (fun _ _ hstep => ⟨hstep.1, fun hb => hstep.2 (hsub hb)⟩) _ _ h.2⟩

/-- A path that does not end in a set it cannot leave stays outside the set. -/
theorem union [DecidableEq V] (hS : ∀ a ∈ S, ∀ b ∈ succ a, b ∉ E → b ∈ S) (hy : y ∉ S)
    (h : Reach succ E x y) : Reach succ (E ∪ S) x y := by
  obtain ⟨hx, hpath⟩ := h
  induction hpath using Relation.ReflTransGen.head_induction_on with
  | refl => exact .refl (by simp [hx, hy])
  | head hstep _ ih =>
    have htail := ih hstep.2
    refine .head ?_ hstep.1 htail
    rw [Finset.mem_union, not_or]
    refine ⟨hx, fun ha => htail.1 (Finset.mem_union_right _ ?_)⟩
    exact hS _ ha _ hstep.1 hstep.2

/-- A path from a vertex that does not reach `z` avoids `z`. -/
theorem avoid [DecidableEq V] (h : Reach succ E x y) (hz : ¬ Reach succ E x z) :
    Reach succ (insert z E) x y := by
  obtain ⟨hx, hpath⟩ := h
  have hout : ∀ v, Reach succ E x v → v ∉ insert z E := by
    intro v hv hmem
    obtain rfl | hmem := Finset.mem_insert.mp hmem
    · exact hz hv
    · exact hv.notMem hmem
  induction hpath with
  | refl => exact .refl (hout x (.refl hx))
  | @tail b c hpath hstep ih =>
    exact ih.tail hstep.1 (hout c ⟨hx, hpath.tail hstep⟩)

/-- A path is cut where it leaves `S` for the last time. -/
theorem last [DecidableEq V] (S : Finset V) (h : Reach succ E x y) :
    Reach succ (E ∪ S) x y ∨ y ∈ S ∨ ∃ u ∈ S, ∃ w ∈ succ u, Reach succ (E ∪ S) w y := by
  obtain ⟨hx, hpath⟩ := h
  have hout : ∀ v, v ∉ E → v ∉ S → v ∉ E ∪ S := by
    intro v hvE hvS
    rw [Finset.mem_union, not_or]
    exact ⟨hvE, hvS⟩
  induction hpath with
  | refl =>
    by_cases hxS : x ∈ S
    · exact .inr (.inl hxS)
    · exact .inl (.refl (hout x hx hxS))
  | @tail b c _ hstep ih =>
    by_cases hcS : c ∈ S
    · exact .inr (.inl hcS)
    · have hc := hout c hstep.2 hcS
      rcases ih with hpath | hbS | hlast
      · exact .inl (hpath.tail hstep.1 hc)
      · exact .inr (.inr ⟨b, hbS, c, hstep.1, .refl hc⟩)
      · obtain ⟨u, hu, w, hw, hpath⟩ := hlast
        exact .inr (.inr ⟨u, hu, w, hw, hpath.tail hstep.1 hc⟩)

/-- A path need not come back to the vertex it starts from. -/
theorem iff_first [DecidableEq V] (hx : x ∉ E) :
    Reach succ E x y ↔ y = x ∨ ∃ u ∈ succ x, Reach succ (insert x E) u y := by
  constructor
  · intro h
    have hsame : E ∪ {x} = insert x E := by
      rw [Finset.union_comm, Finset.insert_eq]
    rcases h.last {x} with hpath | hyx | hlast
    · exact absurd (Finset.mem_union_right E (Finset.mem_singleton_self x)) hpath.1
    · exact .inl (Finset.mem_singleton.mp hyx)
    · obtain ⟨u, hu, w, hw, hpath⟩ := hlast
      rw [Finset.mem_singleton] at hu
      rw [hsame] at hpath
      exact .inr ⟨w, hu ▸ hw, hpath⟩
  · intro h
    rcases h with rfl | ⟨u, hu, hpath⟩
    · exact .refl hx
    · exact .head hx hu (hpath.mono (Finset.subset_insert x E))

/-- Any path to a vertex outside a closed set stays outside it. -/
theorem of_path [DecidableEq V] (hE : Closed succ E) (hy : y ∉ E) (h : HasPath succ x y) :
    Reach succ E x y := by
  have hempty : Reach succ ∅ x y :=
    ⟨Finset.notMem_empty x,
      Relation.ReflTransGen.mono (fun _ b hstep => ⟨hstep, Finset.notMem_empty b⟩) _ _ h⟩
  have := hempty.union (S := E) (fun a ha b hb _ => hE a ha b hb) hy
  rwa [Finset.empty_union] at this

end Reach

/-! ### Finishing order -/

variable [DecidableEq V]

/-- The search from each of the given vertices that is not explored yet, with explored vertices
`E`, finishes the vertices of the last list in that order. -/
inductive Finishes (succ : V → List V) : Finset V → List V → List V → Prop where
  | nil (E : Finset V) : Finishes succ E [] []
  | skip {E : Finset V} {w : V} {ws L : List V} (hw : w ∈ E) (rest : Finishes succ E ws L) :
      Finishes succ E (w :: ws) L
  | visit {E : Finset V} {w : V} {ws L₁ L₂ : List V} (hw : w ∉ E)
      (below : Finishes succ (insert w E) (succ w) L₁)
      (rest : Finishes succ (E ∪ (L₁ ++ [w]).toFinset) ws L₂) :
      Finishes succ E (w :: ws) (L₁ ++ [w] ++ L₂)

variable {E : Finset V} {w : V} {ws L L₁ : List V}

/-- The vertices a visit of `w` finishes are those that `w` reaches. -/
private theorem mem_block (hw : w ∉ E)
    (hmem : ∀ x, x ∈ L₁ ↔ ∃ u ∈ succ w, Reach succ (insert w E) u x) (x : V) :
    x ∈ L₁ ++ [w] ↔ Reach succ E w x := by
  rw [List.mem_append, List.mem_singleton, hmem, Reach.iff_first hw, or_comm]

/-- What a visit explores cannot be left without entering `E`. -/
private theorem block_closed (hblock : ∀ x, x ∈ L ↔ Reach succ E w x) :
    ∀ a ∈ L.toFinset, ∀ b ∈ succ a, b ∉ E → b ∈ L.toFinset := by
  intro a ha b hb hout
  rw [List.mem_toFinset, hblock] at ha ⊢
  exact ha.tail hb hout

namespace Finishes

theorem mem_iff (h : Finishes succ E ws L) (x : V) : x ∈ L ↔ ∃ w ∈ ws, Reach succ E w x := by
  induction h generalizing x with
  | nil => simp
  | skip hw _ ih =>
    rw [ih, List.exists_mem_cons_iff, or_iff_right fun hreach => hreach.1 hw]
  | visit hw _ _ ih₁ ih₂ =>
    have hblock := mem_block hw ih₁
    rw [List.mem_append, hblock, ih₂, List.exists_mem_cons_iff]
    refine or_congr_right' fun hout => exists_congr fun u => and_congr_right fun _ =>
      ⟨Reach.mono Finset.subset_union_left, Reach.union (block_closed hblock) ?_⟩
    rwa [List.mem_toFinset, hblock]

theorem notMem (h : Finishes succ E ws L) {x : V} (hx : x ∈ L) : x ∉ E := by
  obtain ⟨w, -, hreach⟩ := (h.mem_iff x).mp hx
  exact hreach.notMem

theorem block (hw : w ∉ E) (h : Finishes succ (insert w E) (succ w) L₁) (x : V) :
    x ∈ L₁ ++ [w] ↔ Reach succ E w x := mem_block hw h.mem_iff x

theorem nodup_block (h : Finishes succ (insert w E) (succ w) L₁) (hL : L₁.Nodup) :
    (L₁ ++ [w]).Nodup := by
  rw [List.nodup_append_comm, List.singleton_append, List.nodup_cons]
  exact ⟨fun hmem => h.notMem hmem (Finset.mem_insert_self w E), hL⟩

theorem nodup (h : Finishes succ E ws L) : L.Nodup := by
  induction h with
  | nil => exact List.nodup_nil
  | skip _ _ ih => exact ih
  | visit hw below rest ih₁ ih₂ =>
    refine List.nodup_append'.mpr ⟨below.nodup_block ih₁, ih₂, fun x hx hx₂ => ?_⟩
    exact rest.notMem hx₂ (Finset.mem_union_right _ (List.mem_toFinset.mpr hx))

private theorem idxOf_le_last (hw : w ∉ L₁) {y : V} (hy : y ∈ L₁ ++ [w]) (L₂ : List V) :
    (L₁ ++ [w] ++ L₂).idxOf y ≤ (L₁ ++ [w] ++ L₂).idxOf w := by
  have hlast : (L₁ ++ [w]).idxOf w = L₁.length := by
    rw [List.idxOf_append_of_notMem hw]
    simp
  have hlt := List.idxOf_lt_length_of_mem hy
  rw [List.length_append, List.length_singleton] at hlt
  rw [List.idxOf_append_of_mem hy, List.idxOf_append_of_mem (show w ∈ L₁ ++ [w] by simp), hlast]
  omega

/-- A vertex that `x` reaches finishes no later than some vertex of the component of `x`. -/
theorem exists_linked (h : Finishes succ E ws L) {x y : V} (hx : x ∈ L)
    (hxy : Reach succ E x y) :
    ∃ z ∈ L, Reach succ E x z ∧ Reach succ E z x ∧ L.idxOf y ≤ L.idxOf z := by
  induction h with
  | nil => simp at hx
  | skip hw _ ih => exact ih hx hxy
  | @visit E w ws L₁ L₂ hw below rest ih₁ ih₂ =>
    have hblock := below.block hw
    by_cases hxw : x ∈ L₁ ++ [w]
    · have hwx := (hblock x).mp hxw
      have hy : y ∈ L₁ ++ [w] := (hblock y).mpr (hwx.trans hxy)
      by_cases hback : Reach succ E x w
      · -- `w` is in the component of `x` and finishes after all it reaches
        exact ⟨w, by simp, hback, hwx, idxOf_le_last
          (fun hmem => below.notMem hmem (Finset.mem_insert_self w E)) hy L₂⟩
      · -- the whole path stays below `w`
        have hbelow : ∀ v ∈ L₁ ++ [w], Reach succ E x v → v ∈ L₁ := by
          intro v hv hxv
          refine (List.mem_append.mp hv).resolve_right fun hvw => hback ?_
          rwa [← List.mem_singleton.mp hvw]
        have hy₁ := hbelow y hy hxy
        obtain ⟨z, hz, hxz, hzx, hle⟩ := ih₁ (hbelow x hxw (.refl hxy.1)) (hxy.avoid hback)
        refine ⟨z, by simp [hz], hxz.mono (Finset.subset_insert w E),
          hzx.mono (Finset.subset_insert w E), ?_⟩
        rwa [List.append_assoc, List.idxOf_append_of_mem hy₁, List.idxOf_append_of_mem hz]
    · have hx₂ : x ∈ L₂ := (List.mem_append.mp hx).resolve_left hxw
      by_cases hy : y ∈ L₁ ++ [w]
      · -- `y` has finished before `x` is found
        refine ⟨x, hx, .refl hxy.1, .refl hxy.1, ?_⟩
        have hlt := List.idxOf_lt_length_of_mem hy
        rw [List.idxOf_append_of_mem hy, List.idxOf_append_of_notMem hxw]
        omega
      · have hxy₂ := hxy.union (block_closed hblock) (by rwa [List.mem_toFinset])
        obtain ⟨z, hz, hxz, hzx, hle⟩ := ih₂ hx₂ hxy₂
        have hzw : z ∉ L₁ ++ [w] := fun hmem =>
          rest.notMem hz (Finset.mem_union_right _ (List.mem_toFinset.mpr hmem))
        refine ⟨z, List.mem_append_right _ hz, hxz.mono Finset.subset_union_left,
          hzx.mono Finset.subset_union_left, ?_⟩
        rw [List.idxOf_append_of_notMem hy, List.idxOf_append_of_notMem hzw]
        omega

end Finishes

/-! ### Sweeps -/

/-- As `Finishes`, with the vertices finished from each vertex that is searched from. -/
inductive Sweep (succ : V → List V) : Finset V → List V → List (V × List V) → Prop where
  | nil (E : Finset V) : Sweep succ E [] []
  | skip {E : Finset V} {w : V} {ws : List V} {bs : List (V × List V)} (hw : w ∈ E)
      (rest : Sweep succ E ws bs) : Sweep succ E (w :: ws) bs
  | visit {E : Finset V} {w : V} {ws L : List V} {bs : List (V × List V)} (hw : w ∉ E)
      (below : Finishes succ (insert w E) (succ w) L)
      (rest : Sweep succ (E ∪ (L ++ [w]).toFinset) ws bs) :
      Sweep succ E (w :: ws) ((w, L ++ [w]) :: bs)

/-! ### Explorations -/

/-- A search from each of the given vertices that is not explored yet explores, in whatever order,
the vertices of its list. -/
inductive Exploration (succ : V → List V) : Finset V → List V → List (V × List V) → Prop where
  | nil (E : Finset V) : Exploration succ E [] []
  | skip {E : Finset V} {w : V} {ws : List V} {bs : List (V × List V)} (hw : w ∈ E)
      (rest : Exploration succ E ws bs) : Exploration succ E (w :: ws) bs
  | visit {E : Finset V} {w : V} {ws L : List V} {bs : List (V × List V)} (hw : w ∉ E)
      (hblock : ∀ x, x ∈ L ↔ Reach succ E w x) (hnodup : L.Nodup)
      (rest : Exploration succ (E ∪ L.toFinset) ws bs) :
      Exploration succ E (w :: ws) ((w, L) :: bs)

variable {bs : List (V × List V)}

namespace Sweep

theorem finishes (h : Sweep succ E ws bs) : Finishes succ E ws (bs.flatMap Prod.snd) := by
  induction h with
  | nil E => exact .nil E
  | skip hw _ ih => exact .skip hw ih
  | visit hw below _ ih => exact .visit hw below ih

theorem exploration (h : Sweep succ E ws bs) : Exploration succ E ws bs := by
  induction h with
  | nil E => exact .nil E
  | skip hw _ ih => exact .skip hw ih
  | visit hw below _ ih => exact .visit hw (below.block hw) (below.nodup_block below.nodup) ih

end Sweep

namespace Exploration

theorem mem_iff (h : Exploration succ E ws bs) (x : V) :
    x ∈ bs.flatMap Prod.snd ↔ ∃ w ∈ ws, Reach succ E w x := by
  induction h generalizing x with
  | nil => simp
  | skip hw _ ih =>
    rw [ih, List.exists_mem_cons_iff, or_iff_right fun hreach => hreach.1 hw]
  | visit hw hblock _ _ ih =>
    rw [List.flatMap_cons, List.mem_append, hblock, ih, List.exists_mem_cons_iff]
    refine or_congr_right' fun hout => exists_congr fun u => and_congr_right fun _ =>
      ⟨Reach.mono Finset.subset_union_left, Reach.union (block_closed hblock) ?_⟩
    rwa [List.mem_toFinset, hblock]

theorem nodup (h : Exploration succ E ws bs) : (bs.flatMap Prod.snd).Nodup := by
  induction h with
  | nil => exact List.nodup_nil
  | skip _ _ ih => exact ih
  | visit hw hblock hnodup rest ih =>
    rw [List.flatMap_cons]
    apply List.Nodup.append hnodup ih
    intro x hx hlater
    obtain ⟨u, -, hreach⟩ := (rest.mem_iff x).mp hlater
    exact hreach.notMem (Finset.mem_union_right _ (List.mem_toFinset.mpr hx))

/-- The searches have no vertex in common. -/
theorem eq_of_mem (h : Exploration succ E ws bs) {b b' : V × List V} (hb : b ∈ bs)
    (hb' : b' ∈ bs) {x : V} (hx : x ∈ b.2) (hx' : x ∈ b'.2) : b = b' := by
  have hdis := (List.nodup_flatMap.mp h.nodup).2
  have hsymm : Std.Symm (Function.onFun List.Disjoint (Prod.snd : V × List V → List V)) :=
    ⟨fun _ _ hdis => hdis.symm⟩
  by_contra hne
  exact hdis.forall hb hb' hne hx hx'

theorem fst_mem (h : Exploration succ E ws bs) : ∀ b ∈ bs, b.1 ∈ ws := by
  induction h with
  | nil => exact fun _ hb => nomatch hb
  | skip _ _ ih => exact fun b hb => List.mem_cons_of_mem _ (ih b hb)
  | visit _ _ _ _ ih =>
    intro b hb
    cases List.mem_cons.mp hb with
    | inl heq =>
      rw [heq]
      exact List.mem_cons_self
    | inr hlater => exact List.mem_cons_of_mem _ (ih b hlater)

/-- Searches from the vertices that were searched from explore as many vertices again. -/
theorem map_length_again (h : Exploration succ E ws bs) {bs' : List (V × List V)}
    (h' : Exploration succ E (bs.map Prod.fst) bs') :
    bs'.map (fun b => (b.1, b.2.length)) = bs.map fun b => (b.1, b.2.length) := by
  induction h generalizing bs' with
  | nil =>
    cases h'
    rfl
  | skip _ _ ih => exact ih h'
  | @visit E w ws L bs hw hblock hnodup _ ih =>
    cases h' with
    | skip hw' _ => exact absurd hw' hw
    | @visit _ _ _ L' bs' _ hblock' hnodup' rest' =>
      have hmem : ∀ x, x ∈ L' ↔ x ∈ L := fun x => (hblock' x).trans (hblock x).symm
      have hperm : L'.Perm L := (List.perm_ext_iff_of_nodup hnodup' hnodup).mpr hmem
      have hsame : L'.toFinset = L.toFinset := by
        ext x
        rw [List.mem_toFinset, List.mem_toFinset, hmem]
      rw [hsame] at rest'
      rw [List.map_cons, List.map_cons, ih rest', hperm.length_eq]

/-- Where every vertex is below some vertex of the component of each vertex it reaches, a visit of
the greatest vertex that is left finds its component. -/
private theorem block_linked [LinearOrder V] {N : Finset V} (hN : Closed succ N)
    (hrank : ∀ x ∈ N, ∀ y ∈ N, HasPath succ y x → ∃ z, Linked succ x z ∧ y ≤ z)
    (hE : Closed succ E) (hwN : w ∈ N) (hw : w ∉ E) (hmax : ∀ z ∈ N, z ∉ E → z ≤ w)
    (hblock : ∀ x, x ∈ L ↔ Reach succ E w x) (x : V) : x ∈ L ↔ Linked succ w x := by
  rw [hblock]
  constructor
  · intro hreach
    obtain ⟨z, hxz, hle⟩ := hrank x (hN.path hwN hreach.path) w hwN hreach.path
    have hzE : z ∉ E := fun hz => hreach.notMem (hE.path hz hxz.2)
    have hzN : z ∈ N := hN.path hwN (Relation.ReflTransGen.trans hreach.path hxz.1)
    obtain rfl := le_antisymm hle (hmax z hzN hzE)
    exact hxz.symm
  · intro hlink
    exact .of_path hE (fun hx => hw (hE.path hx hlink.2)) hlink.1

private theorem closed_union (hE : Closed succ E) (hblock : ∀ x, x ∈ L ↔ Reach succ E w x) :
    Closed succ (E ∪ L.toFinset) := by
  intro a ha b hb
  by_cases hbE : b ∈ E
  · exact Finset.mem_union_left _ hbE
  · obtain ha | ha := Finset.mem_union.mp ha
    · exact absurd (hE a ha b hb) hbE
    · exact Finset.mem_union_right _ (block_closed hblock a ha b hb hbE)

/-- The component of a vertex that is searched from is explored with it. -/
theorem mem_of_linked (h : Exploration succ E ws bs) (hE : Closed succ E) :
    ∀ b ∈ bs, ∀ x, Linked succ b.1 x → x ∈ b.2 := by
  induction h with
  | nil => exact fun _ hb => nomatch hb
  | skip _ _ ih => exact ih hE
  | @visit E w ws L bs hw hblock _ _ ih =>
    intro b hb x hlink
    cases List.mem_cons.mp hb with
    | inl heq =>
      subst heq
      exact (hblock x).mpr (.of_path hE (fun hx => hw (hE.path hx hlink.2)) hlink.1)
    | inr hlater => exact ih (closed_union hE hblock) b hlater x hlink

/-- Searches in descending order, when every vertex is below some vertex of the component of each
vertex it reaches: each search finds one component. -/
theorem mem_iff_linked [LinearOrder V] (h : Exploration succ E ws bs) {N : Finset V}
    (hN : Closed succ N)
    (hrank : ∀ x ∈ N, ∀ y ∈ N, HasPath succ y x → ∃ z, Linked succ x z ∧ y ≤ z)
    (hE : Closed succ E) (hsub : ∀ v ∈ ws, v ∈ N) (hdesc : ws.Pairwise (· > ·))
    (hall : ∀ v ∈ N, v ∉ E → v ∈ ws) :
    ∀ b ∈ bs, ∀ x, x ∈ b.2 ↔ Linked succ b.1 x := by
  induction h with
  | nil => exact fun _ hb => nomatch hb
  | @skip E w ws bs hw _ ih =>
    have hall' : ∀ v ∈ N, v ∉ E → v ∈ ws := fun v hv hout =>
      (List.mem_cons.mp (hall v hv hout)).resolve_left fun heq => hout (heq ▸ hw)
    exact ih hE (fun v hv => hsub v (List.mem_cons_of_mem w hv)) (List.pairwise_cons.mp hdesc).2
      hall'
  | @visit E w ws L bs hw hblock _ _ ih =>
    rw [List.pairwise_cons] at hdesc
    have hmax : ∀ z ∈ N, z ∉ E → z ≤ w := by
      intro z hz hzE
      obtain rfl | hz := List.mem_cons.mp (hall z hz hzE)
      · exact le_rfl
      · exact le_of_lt (hdesc.1 z hz)
    have hlinked := block_linked hN hrank hE (hsub w List.mem_cons_self) hw hmax hblock
    have hall' : ∀ v ∈ N, v ∉ E ∪ L.toFinset → v ∈ ws := by
      intro v hv hout
      rw [Finset.mem_union, not_or, List.mem_toFinset] at hout
      exact (List.mem_cons.mp (hall v hv hout.1)).resolve_left fun heq =>
        hout.2 (heq ▸ (hblock w).mpr (.refl hw))
    intro b hb
    cases List.mem_cons.mp hb with
    | inl heq =>
      rw [heq]
      exact hlinked
    | inr hlater =>
      exact ih (closed_union hE hblock) (fun v hv => hsub v (List.mem_cons_of_mem w hv)) hdesc.2
        hall' b hlater

/-- Searches in descending order that each find one component: every vertex is below some vertex
of the component of each vertex it reaches. -/
theorem rank_of_linked [LinearOrder V] (h : Exploration succ E ws bs) (hE : Closed succ E)
    (hdesc : ws.Pairwise (· > ·)) (hlinked : ∀ b ∈ bs, ∀ x, x ∈ b.2 → Linked succ b.1 x) {x y : V}
    (hx : x ∉ E) (hxws : x ∈ ws) (hy : y ∉ E) (hyws : y ∈ ws) (hpath : HasPath succ y x) :
    ∃ z, Linked succ x z ∧ y ≤ z := by
  induction h with
  | nil => cases hxws
  | @skip E w ws bs hw _ ih =>
    have htail : ∀ v, v ∉ E → v ∈ w :: ws → v ∈ ws := fun v hv hmem =>
      (List.mem_cons.mp hmem).resolve_left fun heq => hv (heq ▸ hw)
    exact ih hE (List.pairwise_cons.mp hdesc).2 hlinked hx (htail x hx hxws) hy (htail y hy hyws)
  | @visit E w ws L bs hw hblock _ _ ih =>
    rw [List.pairwise_cons] at hdesc
    by_cases hxL : x ∈ L
    · have hlink := hlinked (w, L) List.mem_cons_self x hxL
      refine ⟨w, hlink.symm, ?_⟩
      cases List.mem_cons.mp hyws with
      | inl heq => exact le_of_eq heq
      | inr hlater => exact le_of_lt (hdesc.1 y hlater)
    · -- a search that found `y` would have gone on to `x`
      have hyL : y ∉ L := fun hmem =>
        hxL ((hblock x).mpr (((hblock y).mp hmem).trans (.of_path hE hx hpath)))
      have hout : ∀ v, v ∉ E → v ∉ L → v ∉ E ∪ L.toFinset := by
        intro v hvE hvL hmem
        cases Finset.mem_union.mp hmem with
        | inl hold => exact hvE hold
        | inr hnew => exact hvL (List.mem_toFinset.mp hnew)
      have htail : ∀ v, v ∉ L → v ∈ w :: ws → v ∈ ws := fun v hv hmem =>
        (List.mem_cons.mp hmem).resolve_left fun heq => hv (heq ▸ (hblock w).mpr (.refl hw))
      exact ih (closed_union hE hblock) hdesc.2
        (fun b hb => hlinked b (List.mem_cons_of_mem _ hb)) (hout x hx hxL) (htail x hxL hxws)
        (hout y hy hyL) (htail y hyL hyws)

end Exploration
end Foundation
