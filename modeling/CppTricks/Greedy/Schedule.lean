import CppTricks.Foundation.FixedWidth
import CppTricks.Foundation.SortPasses
import CppTricks.Records.Pairs

/-! The order of the jobs in `w1_greedy.cc`: sorted by weight, and then by the difference of weight
and length. -/
namespace CppTricks.Greedy
open Foundation Records

/-- The difference is computed in `int`. -/
def getDelta (job : Job) : Option ℤ := int? (job.weight.toInt - job.length.toInt)

def JobDecreaseWeightCompator (j1 j2 : Job) : Bool := j1.weight > j2.weight

def JobDecreaseDeltaCompator (j1 j2 : Job) : Option Bool := do
  let delta1 ← getDelta j1
  let delta2 ← getDelta j2
  return delta1 > delta2

/-- What `sort` may make of the jobs. It promises nothing about jobs that compare equal. -/
structure Sorts (comp : Job → Job → Bool) (jobs sorted : List Job) : Prop where
  perm : sorted.Perm jobs
  pairwise : sorted.Pairwise fun a b => comp b a = false

/-- A sort of two jobs or more takes each of them into a comparison. -/
def stableSort (comp : Job → Job → Option Bool) (jobs : List Job) : Option (List Job) :=
  if jobs.Pairwise fun a b => comp a b ≠ none ∧ comp b a ≠ none then
    some (jobs.mergeSort fun a b => comp b a ≠ some true)
  else none

/-- The two passes of the test, the first one with any outcome that `sort` may have. -/
def Schedules (jobs : List Job) (schedule : Option (List Job)) : Prop :=
  ∃ sorted, Sorts JobDecreaseWeightCompator jobs sorted ∧
    schedule = stableSort JobDecreaseDeltaCompator sorted

def delta (job : Job) : ℤ := job.weight.toInt - job.length.toInt

def weight (job : Job) : ℤ := job.weight.toInt

variable {jobs : List Job}

theorem eq_of_delta_of_weight (j1 j2 : Job) (hdelta : delta j1 = delta j2)
    (hweight : weight j1 = weight j2) : j1 = j2 := by
  obtain ⟨weight₁, length₁⟩ := j1
  obtain ⟨weight₂, length₂⟩ := j2
  unfold delta at hdelta
  unfold weight at hweight
  dsimp only at hdelta hweight
  rw [Int32.toInt_inj.mp hweight, Int32.toInt_inj.mp (by omega : length₁.toInt = length₂.toInt)]

theorem comparator_eq {j1 j2 : Job} (h1 : IsInt (delta j1)) (h2 : IsInt (delta j2)) :
    JobDecreaseDeltaCompator j1 j2 = some (decide (delta j2 < delta j1)) := by
  have hdelta1 : getDelta j1 = some (delta j1) := int?_of_isInt h1
  have hdelta2 : getDelta j2 = some (delta j2) := int?_of_isInt h2
  unfold JobDecreaseDeltaCompator
  rw [hdelta1, hdelta2]
  rfl

theorem stableSort_eq (h : ∀ job ∈ jobs, IsInt (delta job)) :
    stableSort JobDecreaseDeltaCompator jobs = some (sortBy delta jobs) := by
  have hdefined : jobs.Pairwise fun a b => JobDecreaseDeltaCompator a b ≠ none ∧
      JobDecreaseDeltaCompator b a ≠ none := by
    refine List.pairwise_of_forall_mem_list fun a ha b hb => ?_
    rw [comparator_eq (h a ha) (h b hb), comparator_eq (h b hb) (h a ha)]
    exact ⟨nofun, nofun⟩
  have hsame := List.map_mergeSort (f := id) (l := jobs) (s := descending delta)
    (r := fun a b => JobDecreaseDeltaCompator b a ≠ some true) fun a ha b hb => by
      rw [comparator_eq (h b hb) (h a ha), descending, decide_eq_decide]
      simp
  rw [List.map_id, List.map_id] at hsame
  unfold stableSort
  rw [if_pos hdefined, hsame]
  rfl

theorem Sorts.precedes {sorted : List Job} (h : Sorts JobDecreaseWeightCompator jobs sorted) :
    (sortBy delta sorted).Perm jobs ∧
      (sortBy delta sorted).Pairwise (Precedes delta weight) := by
  refine ⟨(sortBy_perm delta sorted).trans h.perm, pairwise_precedes_sortBy ?_⟩
  refine h.pairwise.imp fun {a b} hab => ?_
  simpa [JobDecreaseWeightCompator, weight, Int32.lt_iff_toInt_lt] using hab

theorem sorts_sortBy (jobs : List Job) :
    Sorts JobDecreaseWeightCompator jobs (sortBy weight jobs) where
  perm := sortBy_perm weight jobs
  pairwise := (pairwise_sortBy weight jobs).imp fun {a b} hab => by
    simpa [JobDecreaseWeightCompator, weight, Int32.lt_iff_toInt_lt] using hab

/-- Whatever `sort` makes of equal weights, there is one outcome: the jobs by their differences, and
by their weights where these are equal. -/
theorem exists_schedule (jobs : List Job) (hdelta : ∀ job ∈ jobs, IsInt (delta job)) :
    ∃ schedule, (∀ outcome, Schedules jobs outcome ↔ outcome = some schedule) ∧
      schedule.Perm jobs ∧ schedule.Pairwise (Precedes delta weight) := by
  have hall : ∀ {sorted}, Sorts JobDecreaseWeightCompator jobs sorted →
      stableSort JobDecreaseDeltaCompator sorted = some (sortBy delta sorted) :=
    fun hsorts => stableSort_eq fun job hjob => hdelta job (hsorts.perm.mem_iff.mp hjob)
  have hsorted := sorts_sortBy jobs
  obtain ⟨hperm, hpairwise⟩ := hsorted.precedes
  refine ⟨_, fun outcome => ⟨?_, ?_⟩, hperm, hpairwise⟩
  · rintro ⟨sorted, hsorts, rfl⟩
    obtain ⟨hperm', hpairwise'⟩ := hsorts.precedes
    rw [hall hsorts, eq_of_pairwise_precedes eq_of_delta_of_weight (hperm'.trans hperm.symm)
      hpairwise' hpairwise]
  · rintro rfl
    exact ⟨_, hsorted, (hall hsorted).symm⟩

/-- Jobs of equal weights, and two of them with equal differences. -/
theorem exists_schedule_four : ∃ schedule,
    (∀ outcome, Schedules [⟨3, 5⟩, ⟨6, 8⟩, ⟨3, 1⟩, ⟨6, 2⟩] outcome ↔ outcome = some schedule) ∧
      schedule.Perm [⟨3, 5⟩, ⟨6, 8⟩, ⟨3, 1⟩, ⟨6, 2⟩] ∧
      schedule.Pairwise (Precedes delta weight) :=
  exists_schedule _ (by decide)

end CppTricks.Greedy
