import CppTricks.Crack.OwnForwardList
import CppTricks.Foundation.Runs
import Mathlib.Logic.Equiv.Basic

/-! Programs over any number of `own_forward_list<T>`. -/
namespace CppTricks.Crack.OwnForwardList
open Foundation

variable {T : Type}

inductive Command (T : Type) where
  | construct
  | pushBack (i : ℕ) (elem : T)
  | copy (i : ℕ)
  | swap (i j : ℕ)
  | assign (i j : ℕ)

structure Machine (T : Type) where
  vars : List OwnForwardList
  memory : Nodes T

def Machine.start : Machine T := ⟨[], .empty⟩

def step (fuel : ℕ) (s : Machine T) : Command T → Option (Machine T)
  | .construct => some ⟨s.vars ++ [create], s.memory⟩
  | .pushBack i elem => do
    let this ← s.vars[i]?
    let (this, memory) ← this.pushBack elem s.memory
    return ⟨s.vars.set i this, memory⟩
  | .copy i => do
    let rhs ← s.vars[i]?
    let (this, memory) ← rhs.copyConstruct fuel s.memory
    return ⟨s.vars ++ [this], memory⟩
  | .swap i j => do
    let this ← s.vars[i]?
    let rhs ← s.vars[j]?
    let (this, rhs) := this.swap rhs
    return ⟨(s.vars.set i this).set j rhs, s.memory⟩
  | .assign i j => do
    let this ← s.vars[i]?
    let other ← s.vars[j]?
    let (this, memory) ← this.assign fuel other s.memory
    return ⟨s.vars.set i this, memory⟩

/-- The same program over the sequences that the lists hold; `none` is a list that is not there. -/
def stepValues (vs : List (List T)) : Command T → Option (List (List T))
  | .construct => some (vs ++ [[]])
  | .pushBack i elem => do
    let this ← vs[i]?
    return vs.set i (this ++ [elem])
  | .copy i => do
    let rhs ← vs[i]?
    return vs ++ [rhs]
  | .swap i j => do
    let this ← vs[i]?
    let rhs ← vs[j]?
    return (vs.set i rhs).set j this
  | .assign i j => do
    let _ ← vs[i]?
    let other ← vs[j]?
    return vs.set i other

def Owns (lists : List (List (ℕ × T))) (i a : ℕ) : Prop :=
  ∃ nodes, lists[i]? = some nodes ∧ a ∈ nodes.map Prod.fst

/-- Every list has its nodes, no two share one, and every node that is live is some list's. -/
structure Machine.Represents (s : Machine T) (lists : List (List (ℕ × T))) : Prop where
  length : s.vars.length = lists.length
  holds : ∀ (i : ℕ) (l : OwnForwardList) (nodes : List (ℕ × T)), s.vars[i]? = some l →
    lists[i]? = some nodes → l.Represents s.memory nodes
  apart : ∀ i j a, Owns lists i a → Owns lists j a → i = j
  owned : ∀ a, s.memory.objects a ≠ none → ∃ i, Owns lists i a

variable {s : Machine T} {lists lists' : List (List (ℕ × T))} {vars' : List OwnForwardList}
  {m' : Nodes T} {l : OwnForwardList} {nodes old new : List (ℕ × T)} {i j a : ℕ}

theorem owns_congr (h : lists'[i]? = lists[j]?) : Owns lists' i a ↔ Owns lists j a := by
  unfold Owns
  rw [h]

theorem owns_iff (h : lists[i]?.getD [] = nodes) : Owns lists i a ↔ a ∈ nodes.map Prod.fst := by
  unfold Owns
  subst h
  cases lists[i]? with
  | none => simp
  | some nodes => simp

theorem getElem?_concat_of_ne {A : Type} {xs : List A} {x : A} {k : ℕ} (hk : k ≠ xs.length) :
    (xs ++ [x])[k]? = xs[k]? := by
  rcases Nat.lt_or_gt_of_ne hk with hlt | hgt
  · exact List.getElem?_append_left hlt
  · rw [List.getElem?_eq_none (by rw [List.length_append, List.length_singleton]; omega),
      List.getElem?_eq_none (by omega)]

theorem getElem?_set_set {A : Type} {xs : List A} {x y : A} (hx : xs[i]? = some x)
    (hy : xs[j]? = some y) (k : ℕ) : ((xs.set i y).set j x)[k]? = xs[Equiv.swap i j k]? := by
  have hi := (List.getElem?_eq_some_iff.mp hx).1
  have hj := (List.getElem?_eq_some_iff.mp hy).1
  by_cases hkj : k = j
  · rw [hkj, Equiv.swap_apply_right, hx, List.getElem?_set_self (by rwa [List.length_set])]
  · rw [List.getElem?_set_ne (Ne.symm hkj)]
    by_cases hki : k = i
    · rw [hki, Equiv.swap_apply_left, hy, List.getElem?_set_self hi]
    · rw [Equiv.swap_apply_of_ne_of_ne hki hkj, List.getElem?_set_ne (Ne.symm hki)]

namespace Machine.Represents

theorem exists_var (hs : s.Represents lists) (hnodes : lists[i]? = some nodes) :
    ∃ l, s.vars[i]? = some l ∧ l.Represents s.memory nodes := by
  have hi : i < s.vars.length := by
    rw [hs.length]
    exact (List.getElem?_eq_some_iff.mp hnodes).1
  have hl : s.vars[i]? = some s.vars[i] := List.getElem?_eq_getElem hi
  exact ⟨s.vars[i], hl, hs.holds i s.vars[i] nodes hl hnodes⟩

theorem exists_nodes (hs : s.Represents lists) (hl : s.vars[i]? = some l) :
    ∃ nodes, lists[i]? = some nodes := by
  have hi := (List.getElem?_eq_some_iff.mp hl).1
  rw [hs.length] at hi
  exact ⟨lists[i], List.getElem?_eq_getElem hi⟩

theorem live (hs : s.Represents lists) (ha : Owns lists i a) : s.memory.objects a ≠ none := by
  obtain ⟨nodes, hnodes, hmem⟩ := ha
  obtain ⟨l, -, hl⟩ := hs.exists_var hnodes
  exact hl.chain.live a hmem

/-- One list gets other nodes, or a new list takes its place behind the others. -/
theorem replace (hs : s.Represents lists) (i : ℕ) (old : List (ℕ × T))
    (hlength : vars'.length = lists'.length)
    (hvars : ∀ k, k ≠ i → vars'[k]? = s.vars[k]?) (hlists : ∀ k, k ≠ i → lists'[k]? = lists[k]?)
    (hvar : vars'[i]? = some l) (hnew : lists'[i]? = some new) (hl : l.Represents m' new)
    (hold : lists[i]?.getD [] = old)
    (hreplaces : s.memory.Replaces m' (old.map Prod.fst) (new.map Prod.fst)) :
    Machine.Represents ⟨vars', m'⟩ lists' := by
  have hiold : ∀ a, Owns lists i a ↔ a ∈ old.map Prod.fst := fun a => owns_iff hold
  have hinew : ∀ a, Owns lists' i a ↔ a ∈ new.map Prod.fst := by
    intro a
    apply owns_iff
    rw [hnew]
    rfl
  have howns : ∀ k, k ≠ i → ∀ a, Owns lists' k a ↔ Owns lists k a :=
    fun k hk a => owns_congr (hlists k hk)
  have hnot : ∀ k, k ≠ i → ∀ a, Owns lists k a → a ∉ old.map Prod.fst := by
    intro k hk a ha hmem
    exact hk (hs.apart k i a ha ((hiold a).mpr hmem))
  have hapart : ∀ k, k ≠ i → ∀ a, Owns lists' k a → ¬Owns lists' i a := by
    intro k hk a ha
    rw [howns k hk] at ha
    rw [hinew]
    exact (hreplaces.objects_eq (hnot k hk a ha) (hs.live ha)).2
  constructor
  · exact hlength
  · intro k t nodes ht hnodes
    by_cases hk : k = i
    · subst hk
      obtain rfl := Option.some.inj (hvar.symm.trans ht)
      obtain rfl := Option.some.inj (hnew.symm.trans hnodes)
      exact hl
    · rw [hvars k hk] at ht
      rw [hlists k hk] at hnodes
      exact (hs.holds k t nodes ht hnodes).of_replaces hreplaces
        fun a ha => hnot k hk a ⟨nodes, hnodes, ha⟩
  · intro j k a hj hk
    by_cases hji : j = i
    · subst hji
      by_contra hne
      exact hapart k (Ne.symm hne) a hk hj
    · by_cases hki : k = i
      · subst hki
        exact absurd hk (hapart j hji a hj)
      · rw [howns j hji] at hj
        rw [howns k hki] at hk
        exact hs.apart j k a hj hk
  · intro a ha
    by_cases hmem : a ∈ new.map Prod.fst
    · exact ⟨i, (hinew a).mpr hmem⟩
    · have hold' : a ∉ old.map Prod.fst := fun h => ha (hreplaces.freed a h hmem)
      rw [show m'.objects a = s.memory.objects a from hreplaces.agree a hold' hmem] at ha
      obtain ⟨j, hj⟩ := hs.owned a ha
      have hji : j ≠ i := by
        rintro rfl
        exact hold' ((hiold a).mp hj)
      exact ⟨j, (howns j hji a).mpr hj⟩

theorem append (hs : s.Represents lists) (hl : l.Represents m' new)
    (hreplaces : s.memory.Replaces m' [] (new.map Prod.fst)) :
    Machine.Represents ⟨s.vars ++ [l], m'⟩ (lists ++ [new]) := by
  have hlength := hs.length
  refine hs.replace lists.length [] ?_ ?_ ?_ ?_ ?_ hl ?_ hreplaces
  · rw [List.length_append, List.length_append, hlength]
    rfl
  · intro k hk
    exact getElem?_concat_of_ne (hlength ▸ hk)
  · intro k hk
    exact getElem?_concat_of_ne hk
  · rw [← hlength]
    exact List.getElem?_concat_length
  · exact List.getElem?_concat_length
  · rw [List.getElem?_eq_none le_rfl]
    rfl

theorem set (hs : s.Represents lists) (hold : lists[i]? = some old) (hl : l.Represents m' new)
    (hreplaces : s.memory.Replaces m' (old.map Prod.fst) (new.map Prod.fst)) :
    Machine.Represents ⟨s.vars.set i l, m'⟩ (lists.set i new) := by
  have hi := (List.getElem?_eq_some_iff.mp hold).1
  refine hs.replace i old ?_ ?_ ?_ ?_ ?_ hl ?_ hreplaces
  · rw [List.length_set, List.length_set, hs.length]
  · exact fun k hk => List.getElem?_set_ne hk.symm
  · exact fun k hk => List.getElem?_set_ne hk.symm
  · exact List.getElem?_set_self (hs.length ▸ hi)
  · exact List.getElem?_set_self hi
  · rw [hold]
    rfl

theorem rename (hs : s.Represents lists) (σ : Equiv.Perm ℕ) (hlength : vars'.length = lists'.length)
    (hvars : ∀ k, vars'[k]? = s.vars[σ k]?) (hlists : ∀ k, lists'[k]? = lists[σ k]?) :
    Machine.Represents ⟨vars', s.memory⟩ lists' := by
  have howns : ∀ k a, Owns lists' k a ↔ Owns lists (σ k) a := fun k a => owns_congr (hlists k)
  constructor
  · exact hlength
  · intro k t nodes ht hnodes
    exact hs.holds (σ k) t nodes (hvars k ▸ ht) (hlists k ▸ hnodes)
  · intro j k a hj hk
    exact σ.injective (hs.apart (σ j) (σ k) a ((howns j a).mp hj) ((howns k a).mp hk))
  · intro a ha
    obtain ⟨i, hi⟩ := hs.owned a ha
    refine ⟨σ.symm i, (howns _ a).mpr ?_⟩
    rwa [σ.apply_symm_apply]

theorem swap {l₁ l₂ : OwnForwardList} {xs ys : List (ℕ × T)} (hs : s.Represents lists)
    (hl₁ : s.vars[i]? = some l₁) (hl₂ : s.vars[j]? = some l₂) (hxs : lists[i]? = some xs)
    (hys : lists[j]? = some ys) :
    Machine.Represents ⟨(s.vars.set i l₂).set j l₁, s.memory⟩ ((lists.set i ys).set j xs) := by
  refine hs.rename (Equiv.swap i j) ?_ (getElem?_set_set hl₁ hl₂) (getElem?_set_set hxs hys)
  simp only [List.length_set, hs.length]

end Machine.Represents

def values (lists : List (List (ℕ × T))) : List (List T) := lists.map (List.map Prod.snd)

theorem Machine.Represents.exists_list {xs : List T} (hs : s.Represents lists)
    (h : (values lists)[i]? = some xs) :
    ∃ l nodes, s.vars[i]? = some l ∧ lists[i]? = some nodes ∧ l.Represents s.memory nodes ∧
      nodes.map Prod.snd = xs := by
  rw [values, List.getElem?_map] at h
  obtain ⟨nodes, hnodes, helems⟩ := Option.map_eq_some_iff.mp h
  obtain ⟨l, hl, hrep⟩ := hs.exists_var hnodes
  exact ⟨l, nodes, hl, hnodes, hrep, helems⟩

theorem step_represents {fuel : ℕ} {c : Command T} {vs : List (List T)} (hs : s.Represents lists)
    (hfuel : ∀ xs ∈ values lists, xs.length ≤ fuel)
    (hstep : stepValues (values lists) c = some vs) :
    ∃ s' lists', step fuel s c = some s' ∧ s'.Represents lists' ∧ values lists' = vs := by
  have hlength : ∀ (i : ℕ) (nodes : List (ℕ × T)), lists[i]? = some nodes →
      nodes.length ≤ fuel := by
    intro i nodes hnodes
    have hle := hfuel _ (List.mem_map_of_mem (List.mem_of_getElem? hnodes))
    rwa [List.length_map] at hle
  cases c with
  | construct =>
    obtain rfl := Option.some.inj hstep
    refine ⟨_, lists ++ [[]], rfl, hs.append (create_represents _) (.refl _ _), ?_⟩
    rw [values, List.map_append]
    rfl
  | pushBack i elem =>
    obtain ⟨xs, hxs, hvs⟩ := Option.bind_eq_some_iff.mp hstep
    obtain rfl := Option.some.inj hvs
    obtain ⟨l, nodes, hl, hnodes, hrep, rfl⟩ := hs.exists_list hxs
    obtain ⟨l', m', a, hpush, hrep', hreplaces⟩ := pushBack_spec hrep elem
    refine ⟨_, lists.set i (nodes ++ [(a, elem)]), ?_, hs.set hnodes hrep' hreplaces, ?_⟩
    · simp [step, hl, hpush]
    · rw [values, List.map_set, List.map_append]
      rfl
  | copy i =>
    obtain ⟨xs, hxs, hvs⟩ := Option.bind_eq_some_iff.mp hstep
    obtain rfl := Option.some.inj hvs
    obtain ⟨l, nodes, hl, hnodes, hrep, rfl⟩ := hs.exists_list hxs
    obtain ⟨l', m', nodes', hcopy, hrep', helems, hreplaces⟩ :=
      copyConstruct_spec hrep (hlength i nodes hnodes)
    refine ⟨_, lists ++ [nodes'], ?_, hs.append hrep' hreplaces, ?_⟩
    · simp [step, hl, hcopy]
    · rw [values, List.map_append, List.map_singleton, helems]
      rfl
  | swap i j =>
    obtain ⟨xs, hxs, hstep⟩ := Option.bind_eq_some_iff.mp hstep
    obtain ⟨ys, hys, hvs⟩ := Option.bind_eq_some_iff.mp hstep
    obtain rfl := Option.some.inj hvs
    obtain ⟨l₁, nodes₁, hl₁, hnodes₁, -, rfl⟩ := hs.exists_list hxs
    obtain ⟨l₂, nodes₂, hl₂, hnodes₂, -, rfl⟩ := hs.exists_list hys
    refine ⟨_, (lists.set i nodes₂).set j nodes₁, ?_, hs.swap hl₁ hl₂ hnodes₁ hnodes₂, ?_⟩
    · simp [step, hl₁, hl₂, OwnForwardList.swap]
    · rw [values, List.map_set, List.map_set]
      rfl
  | assign i j =>
    obtain ⟨xs, hxs, hstep⟩ := Option.bind_eq_some_iff.mp hstep
    obtain ⟨ys, hys, hvs⟩ := Option.bind_eq_some_iff.mp hstep
    obtain rfl := Option.some.inj hvs
    obtain ⟨l₁, nodes₁, hl₁, hnodes₁, hrep₁, rfl⟩ := hs.exists_list hxs
    obtain ⟨l₂, nodes₂, hl₂, hnodes₂, hrep₂, rfl⟩ := hs.exists_list hys
    obtain ⟨l', m', nodes', hassign, hrep', helems, hreplaces⟩ :=
      assign_spec hrep₁ hrep₂ (hlength i nodes₁ hnodes₁) (hlength j nodes₂ hnodes₂)
    refine ⟨_, lists.set i nodes', ?_, hs.set hnodes₁ hrep' hreplaces, ?_⟩
    · simp [step, hl₁, hl₂, hassign]
    · rw [values, List.map_set, helems]
      rfl

/-- A command makes a list longer by at most one element. -/
theorem stepValues_length {n : ℕ} {c : Command T} {vs vs' : List (List T)}
    (hvs : ∀ xs ∈ vs, xs.length ≤ n) (hstep : stepValues vs c = some vs') :
    ∀ xs ∈ vs', xs.length ≤ n + 1 := by
  have hle : ∀ xs ∈ vs, xs.length ≤ n + 1 := fun xs hxs => (hvs xs hxs).trans n.le_succ
  have hget : ∀ (i : ℕ) (xs : List T), vs[i]? = some xs → xs.length ≤ n :=
    fun i xs hxs => hvs xs (List.mem_of_getElem? hxs)
  have hset : ∀ us : List (List T), (∀ xs ∈ us, xs.length ≤ n + 1) → ∀ (i : ℕ) (ys : List T),
      ys.length ≤ n + 1 → ∀ xs ∈ us.set i ys, xs.length ≤ n + 1 := by
    intro us hus i ys hys xs hxs
    rcases List.mem_or_eq_of_mem_set hxs with hmem | rfl
    · exact hus xs hmem
    · exact hys
  have hconcat : ∀ ys : List T, ys.length ≤ n + 1 → ∀ xs ∈ vs ++ [ys], xs.length ≤ n + 1 := by
    intro ys hys xs hxs
    rcases List.mem_append.mp hxs with hmem | hmem
    · exact hle xs hmem
    · rwa [List.mem_singleton.mp hmem]
  cases c with
  | construct =>
    obtain rfl := Option.some.inj hstep
    exact hconcat [] (Nat.zero_le _)
  | pushBack i elem =>
    obtain ⟨this, hthis, hvs'⟩ := Option.bind_eq_some_iff.mp hstep
    obtain rfl := Option.some.inj hvs'
    apply hset vs hle
    rw [List.length_append]
    exact Nat.succ_le_succ (hget i this hthis)
  | copy i =>
    obtain ⟨other, hother, hvs'⟩ := Option.bind_eq_some_iff.mp hstep
    obtain rfl := Option.some.inj hvs'
    exact hconcat other ((hget i other hother).trans n.le_succ)
  | swap i j =>
    obtain ⟨this, hthis, hstep⟩ := Option.bind_eq_some_iff.mp hstep
    obtain ⟨other, hother, hvs'⟩ := Option.bind_eq_some_iff.mp hstep
    obtain rfl := Option.some.inj hvs'
    apply hset _ (hset vs hle i other ((hget j other hother).trans n.le_succ))
    exact (hget i this hthis).trans n.le_succ
  | assign i j =>
    obtain ⟨this, hthis, hstep⟩ := Option.bind_eq_some_iff.mp hstep
    obtain ⟨other, hother, hvs'⟩ := Option.bind_eq_some_iff.mp hstep
    obtain rfl := Option.some.inj hvs'
    exact hset vs hle i other ((hget j other hother).trans n.le_succ)

theorem run_length {cs : List (Command T)} {vs : List (List T)}
    (h : run stepValues [] cs = some vs) : ∀ xs ∈ vs, xs.length ≤ cs.length := by
  induction cs using List.reverseRecOn generalizing vs with
  | nil =>
    obtain rfl := Option.some.inj h
    exact fun xs hxs => absurd hxs List.not_mem_nil
  | append_singleton cs c ih =>
    rw [run_concat] at h
    obtain ⟨us, hus, hstep⟩ := Option.bind_eq_some_iff.mp h
    rw [List.length_append]
    exact stepValues_length (ih hus) hstep

theorem start_represents : (Machine.start : Machine T).Represents [] where
  length := rfl
  holds _ _ _ _ := nofun
  apart := by
    rintro i j a ⟨nodes, hnodes, -⟩
    cases hnodes
  owned a ha := absurd rfl ha

theorem exists_run {fuel : ℕ} {cs : List (Command T)} {vs : List (List T)}
    (hlegal : run stepValues [] cs = some vs) (hfuel : cs.length ≤ fuel) :
    ∃ s lists, run (step fuel) .start cs = some s ∧ s.Represents lists ∧ values lists = vs := by
  induction cs using List.reverseRecOn generalizing vs with
  | nil =>
    obtain rfl := Option.some.inj hlegal
    exact ⟨.start, [], rfl, start_represents, rfl⟩
  | append_singleton cs c ih =>
    rw [run_concat] at hlegal
    obtain ⟨us, hus, hstep⟩ := Option.bind_eq_some_iff.mp hlegal
    rw [List.length_append] at hfuel
    obtain ⟨s, lists, hrun, hs, rfl⟩ := ih hus (Nat.le_of_succ_le hfuel)
    obtain ⟨s', lists', hstep', hs', hvalues⟩ := step_represents hs
      (fun xs hxs => (run_length hus xs hxs).trans (Nat.le_of_succ_le hfuel)) hstep
    refine ⟨s', lists', ?_, hs', hvalues⟩
    rw [run_concat, hrun]
    exact hstep'

/-- Whatever the program, every list is a chain from `head_` to `tail_` of nodes of its own with the
elements that it should have, and its destructor deletes each of them, once. -/
theorem run_represents (cs : List (Command T)) (vs : List (List T))
    (hlegal : run stepValues [] cs = some vs) (fuel : ℕ) (hfuel : cs.length ≤ fuel) :
    ∃ s : Machine T, run (step fuel) .start cs = some s ∧ s.vars.length = vs.length ∧
      (∀ (i : ℕ) (l : OwnForwardList), s.vars[i]? = some l →
        ∃ nodes, vs[i]? = some (nodes.map Prod.snd) ∧ Chain s.memory l.head nodes ∧
          (nodes.map Prod.fst).Nodup ∧ l.tail = (nodes.map Prod.fst).getLast? ∧
          (l.head = none ↔ nodes = []) ∧ ∃ m, l.destroy fuel s.memory = some m ∧
            m.deleted = s.memory.deleted ++ nodes.map Prod.fst ∧
            ∀ a, m.objects a = if a ∈ nodes.map Prod.fst then none else s.memory.objects a) ∧
      ∀ (i j : ℕ) (l l' : OwnForwardList) (a : ℕ), i ≠ j → s.vars[i]? = some l →
        s.vars[j]? = some l' → Reaches s.memory l.head a → ¬Reaches s.memory l'.head a := by
  obtain ⟨s, lists, hrun, hs, rfl⟩ := exists_run hlegal hfuel
  refine ⟨s, hrun, ?_, ?_, ?_⟩
  · rw [hs.length, values, List.length_map]
  · intro i l hl
    obtain ⟨nodes, hnodes⟩ := hs.exists_nodes hl
    have hrep := hs.holds i l nodes hl hnodes
    have hvalue : (values lists)[i]? = some (nodes.map Prod.snd) := by
      rw [values, List.getElem?_map, hnodes]
      rfl
    have hlength := run_length hlegal _ (List.mem_of_getElem? hvalue)
    rw [List.length_map] at hlength
    obtain ⟨m, hdestroy, hdeleted, hreplaces⟩ := destroy_spec hrep (hlength.trans hfuel)
    refine ⟨nodes, hvalue, hrep.chain, hrep.chain.nodup, hrep.tail_eq, hrep.head_eq_none_iff, m,
      hdestroy, hdeleted, ?_⟩
    intro a
    split_ifs with ha
    · exact hreplaces.freed a ha List.not_mem_nil
    · exact hreplaces.agree a ha List.not_mem_nil
  · intro i j l l' a hij hl hl' ha ha'
    obtain ⟨nodes, hnodes⟩ := hs.exists_nodes hl
    obtain ⟨nodes', hnodes'⟩ := hs.exists_nodes hl'
    rw [(hs.holds i l nodes hl hnodes).chain.reaches_iff] at ha
    rw [(hs.holds j l' nodes' hl' hnodes').chain.reaches_iff] at ha'
    exact hij (hs.apart i j a ⟨nodes, hnodes, ha⟩ ⟨nodes', hnodes', ha'⟩)

theorem run_represents_swap :
    run stepValues [] [.construct, .pushBack 0 9, .copy 0, .assign 0 0, .swap 0 1] =
      some [[9], [9]] ∧
    ∃ s : Machine ℕ,
      run (step 5) .start [.construct, .pushBack 0 9, .copy 0, .assign 0 0, .swap 0 1] = some s ∧
      s.vars.length = 2 ∧
      (∀ (i : ℕ) (l : OwnForwardList), s.vars[i]? = some l →
        ∃ nodes, ([[9], [9]] : List (List ℕ))[i]? = some (nodes.map Prod.snd) ∧
          Chain s.memory l.head nodes ∧ (nodes.map Prod.fst).Nodup ∧
          l.tail = (nodes.map Prod.fst).getLast? ∧ (l.head = none ↔ nodes = []) ∧
          ∃ m, l.destroy 5 s.memory = some m ∧
            m.deleted = s.memory.deleted ++ nodes.map Prod.fst ∧
            ∀ a, m.objects a = if a ∈ nodes.map Prod.fst then none else s.memory.objects a) ∧
      ∀ (i j : ℕ) (l l' : OwnForwardList) (a : ℕ), i ≠ j → s.vars[i]? = some l →
        s.vars[j]? = some l' → Reaches s.memory l.head a → ¬Reaches s.memory l'.head a :=
  ⟨rfl, run_represents [.construct, .pushBack 0 9, .copy 0, .assign 0 0, .swap 0 1] [[9], [9]] rfl 5
    (by decide)⟩

/-! ### At the end of the block -/

/-- The lists are destroyed in the reverse order of their construction. -/
def destroyAll (fuel : ℕ) (s : Machine T) : Option (Nodes T) :=
  s.vars.foldrM (fun l m => l.destroy fuel m) s.memory

theorem Machine.Represents.dropLast {vars : List OwnForwardList}
    (hs : Machine.Represents ⟨vars ++ [l], m'⟩ (lists ++ [[]])) :
    Machine.Represents ⟨vars, m'⟩ lists := by
  have hget : ∀ (i : ℕ) (nodes : List (ℕ × T)), lists[i]? = some nodes →
      (lists ++ [[]])[i]? = some nodes := by
    intro i nodes hnodes
    rwa [List.getElem?_append_left (List.getElem?_eq_some_iff.mp hnodes).1]
  have howns : ∀ i a, Owns lists i a → Owns (lists ++ [[]]) i a := by
    rintro i a ⟨nodes, hnodes, hmem⟩
    exact ⟨nodes, hget i nodes hnodes, hmem⟩
  constructor
  · simpa using hs.length
  · intro i t nodes ht hnodes
    refine hs.holds i t nodes ?_ (hget i nodes hnodes)
    rwa [List.getElem?_append_left (List.getElem?_eq_some_iff.mp ht).1]
  · intro i j a hi hj
    exact hs.apart i j a (howns i a hi) (howns j a hj)
  · intro a ha
    obtain ⟨i, nodes, hnodes, hmem⟩ := hs.owned a ha
    by_cases hi : i = lists.length
    · -- the last list has no nodes
      rw [hi, List.getElem?_concat_length] at hnodes
      rw [← Option.some.inj hnodes] at hmem
      exact absurd hmem List.not_mem_nil
    · rw [getElem?_concat_of_ne hi] at hnodes
      exact ⟨i, nodes, hnodes, hmem⟩

theorem Machine.Represents.destroyLast {vars : List OwnForwardList} {m : Nodes T} {fuel : ℕ}
    (hs : Machine.Represents ⟨vars ++ [l], m⟩ (lists ++ [nodes])) (hfuel : nodes.length ≤ fuel) :
    ∃ m', l.destroy fuel m = some m' ∧ Machine.Represents ⟨vars, m'⟩ lists := by
  have hlength : vars.length = lists.length := by simpa using hs.length
  have hlast : (lists ++ [nodes])[lists.length]? = some nodes := List.getElem?_concat_length
  have hrep : l.Represents m nodes := by
    refine hs.holds lists.length l nodes ?_ hlast
    rw [← hlength]
    exact List.getElem?_concat_length
  obtain ⟨m', hdestroy, -, hreplaces⟩ := destroy_spec hrep hfuel
  have hset := hs.set hlast (create_represents m') hreplaces
  refine ⟨m', hdestroy, dropLast (l := create) ?_⟩
  simpa [← hlength] using hset

theorem destroyAll_spec {fuel : ℕ} (hs : s.Represents lists)
    (hfuel : ∀ xs ∈ values lists, xs.length ≤ fuel) :
    ∃ m, destroyAll fuel s = some m ∧ ∀ a, m.objects a = none := by
  obtain ⟨vars, memory⟩ := s
  unfold destroyAll
  dsimp only
  induction vars using List.reverseRecOn generalizing lists memory with
  | nil =>
    obtain rfl : lists = [] := List.length_eq_zero_iff.mp hs.length.symm
    refine ⟨memory, rfl, ?_⟩
    intro a
    by_contra hne
    obtain ⟨i, nodes, hnodes, -⟩ := hs.owned a hne
    cases hnodes
  | append_singleton vars l ih =>
    rcases List.eq_nil_or_concat' lists with rfl | ⟨lists, nodes, rfl⟩
    · simpa using hs.length
    · rw [values, List.map_append, List.forall_mem_append] at hfuel
      have hle : nodes.length ≤ fuel := by simpa using hfuel.2
      obtain ⟨m, hdestroy, hrest⟩ := hs.destroyLast hle
      obtain ⟨m', hall, hnone⟩ := ih hfuel.1 m hrest
      refine ⟨m', ?_, hnone⟩
      rw [List.foldrM_append]
      simpa [hdestroy] using hall

/-- Nothing leaks: after the program and the destructors of its lists no node is left. -/
theorem run_destroyAll (cs : List (Command T)) (vs : List (List T))
    (hlegal : run stepValues [] cs = some vs) (fuel : ℕ) (hfuel : cs.length ≤ fuel) :
    ∃ s m, run (step fuel) .start cs = some s ∧ destroyAll fuel s = some m ∧
      ∀ a, m.objects a = none ∧ (a < m.heap.fresh → a ∈ m.deleted) := by
  obtain ⟨s, lists, hrun, hs, rfl⟩ := exists_run hlegal hfuel
  obtain ⟨m, hdestroy, hnone⟩ :=
    destroyAll_spec hs fun xs hxs => (run_length hlegal xs hxs).trans hfuel
  refine ⟨s, m, hrun, hdestroy, fun a => ⟨hnone a, fun ha => ?_⟩⟩
  exact (m.mem_deleted_iff a).mpr ⟨ha, hnone a⟩

end CppTricks.Crack.OwnForwardList
