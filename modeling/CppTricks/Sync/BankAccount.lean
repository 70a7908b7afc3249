import CppTricks.Foundation.CriticalSections
import CppTricks.Foundation.FixedWidth
import Mathlib.Tactic.IntervalCases
import Mathlib.Tactic.Ring

/-! The accounts of `sync_test.cc`, each access to a balance a step of its own. -/
namespace CppTricks.Sync
open Foundation Workers

namespace BankAccount

/-- The variables of a thread: the register between the load and the store of `balance_ += amount`,
and the balances that it was given. -/
structure Locals where
  register : ℤ
  balances : List ℤ
deriving DecidableEq

def load : Access ℤ Locals := fun (balance, l) => (balance, { l with register := balance })

def store (amount : ℤ) : Access ℤ Locals := fun (_, l) => (l.register + amount, l)

/-- `int b = balance_; return b;` -/
def get : Access ℤ Locals :=
  fun (balance, l) => (balance, { l with balances := l.balances ++ [balance] })

/-- `Deposit` and `Withdraw` with a guard of the account, whose lock they do not take. -/
inductive Guarded
  | deposit (amount : ℤ)
  | withdraw (amount : ℤ)
deriving DecidableEq

def Guarded.code : Guarded → List (Access ℤ Locals)
  | deposit amount => [load, store amount]
  | withdraw amount => [load, store (-amount)]

/-- The functions that take the lock of the account, and a `strict_lock` under which several
functions with a guard are called. -/
inductive Call
  | deposit (amount : ℤ)
  | withdraw (amount : ℤ)
  | getBalance
  | strictLock (operations : List Guarded)
deriving DecidableEq

def Call.code : Call → List (Access ℤ Locals)
  | deposit amount => [load, store amount]
  | withdraw amount => [load, store (-amount)]
  | getBalance => [get]
  | strictLock operations => operations.flatMap Guarded.code

def atmWithdrawal (sum : ℤ) : Call := .strictLock [.withdraw sum, .withdraw 2]

def bankAgent : List Call := (List.range 10).map fun _ => .deposit 500

def Joe : List Call := (List.range 10).flatMap fun _ => [.withdraw 100, .getBalance]

/-! ### Serial runs -/

def Guarded.amount : Guarded → ℤ
  | deposit amount => amount
  | withdraw amount => -amount

def Call.operations : Call → List Guarded
  | deposit amount => [.deposit amount]
  | withdraw amount => [.withdraw amount]
  | getBalance => []
  | strictLock operations => operations

/-- What a call adds to the balance. -/
def Call.amount (call : Call) : ℤ := (call.operations.map Guarded.amount).sum

/-- How far a call can bring the balance. -/
def Call.extent (call : Call) : ℕ := (call.operations.map fun op => op.amount.natAbs).sum

def total (calls : List Call) : ℤ := (calls.map Call.amount).sum

variable {T : Type} [DecidableEq T] {s : ℤ} {vars : T → Locals} {t : T}

/-- The balances that a thread is given, from the balance `s` on. -/
def given (t : T) (s : ℤ) : List (T × Call) → List ℤ
  | [] => []
  | e :: made =>
    (if e.1 = t ∧ e.2 = .getBalance then [s] else []) ++ given t (s + e.2.amount) made

theorem foldl_operations (operations : List Guarded) (q : ℤ × Locals) :
    ((operations.flatMap Guarded.code).foldl (fun q access => access q) q).1 =
        q.1 + (operations.map Guarded.amount).sum ∧
      ((operations.flatMap Guarded.code).foldl (fun q access => access q) q).2.balances =
        q.2.balances := by
  induction operations generalizing q with
  | nil => exact ⟨(add_zero q.1).symm, rfl⟩
  | cons op operations ih =>
    rw [List.flatMap_cons, List.foldl_append, List.map_cons, List.sum_cons, ← add_assoc]
    cases op <;> exact ih _

theorem natAbs_foldl_sub_le {operations : List Guarded} {accesses : List (Access ℤ Locals)}
    (h : accesses <+: operations.flatMap Guarded.code) (q : ℤ × Locals) :
    ((accesses.foldl (fun q access => access q) q).1 - q.1).natAbs ≤
      (operations.map fun op => op.amount.natAbs).sum := by
  have hnone : (q.1 - q.1).natAbs ≤ (operations.map fun op => op.amount.natAbs).sum := by
    rw [sub_self]
    exact Nat.zero_le _
  induction operations generalizing accesses q with
  | nil =>
    rw [List.flatMap_nil, List.prefix_nil] at h
    rw [h]
    exact hnone
  | cons op operations ih =>
    obtain ⟨amount, hcode⟩ : ∃ amount, op.code = [load, store amount] := by
      cases op <;> exact ⟨_, rfl⟩
    have hamount : (op.code.foldl (fun q access => access q) q).1 = q.1 + op.amount := by
      cases op <;> rfl
    rw [hcode] at hamount
    rw [List.flatMap_cons, hcode] at h
    obtain rfl | ⟨accesses, rfl, hstore⟩ := List.prefix_cons_iff.mp h
    · exact hnone
    obtain rfl | ⟨accesses, rfl, hrest⟩ := List.prefix_cons_iff.mp hstore
    · exact hnone
    have hrest := ih hrest (store amount (load q)) (by simp)
    change (store amount (load q)).1 = _ at hamount
    rw [hamount] at hrest
    rw [List.map_cons, List.sum_cons, List.foldl_cons, List.foldl_cons]
    omega

theorem code_eq {call : Call} (h : call ≠ .getBalance) :
    call.code = call.operations.flatMap Guarded.code := by
  cases call with
  | deposit amount => rfl
  | withdraw amount => rfl
  | getBalance => exact absurd rfl h
  | strictLock operations => rfl

theorem perform_code (t : T) (call : Call) (p : ℤ × (T → Locals)) :
    (perform t call.code p).1 = p.1 + call.amount ∧
      ∀ u, ((perform t call.code p).2 u).balances =
        (p.2 u).balances ++ if t = u ∧ call = .getBalance then [p.1] else [] := by
  unfold perform
  by_cases hcall : call = .getBalance
  · subst hcall
    refine ⟨(add_zero p.1).symm, fun u => ?_⟩
    by_cases htu : u = t
    · subst htu
      simp [Call.code, get]
    · simp [htu, Ne.symm htu]
  · obtain ⟨hbalance, hbalances⟩ := foldl_operations call.operations (p.1, p.2 t)
    rw [code_eq hcall]
    refine ⟨hbalance, fun u => ?_⟩
    rw [if_neg fun h => hcall h.2, List.append_nil]
    by_cases htu : u = t
    · subst htu
      simpa using hbalances
    · simp [htu]

theorem natAbs_perform_sub_le (t : T) (call : Call) (accesses : List (Access ℤ Locals))
    (p : ℤ × (T → Locals)) (h : accesses <+: call.code) :
    ((perform t accesses p).1 - p.1).natAbs ≤ call.extent := by
  by_cases hcall : call = .getBalance
  · have hget : (perform t accesses p).1 = p.1 := by
      rw [hcall] at h
      obtain rfl | ⟨accesses, rfl, hrest⟩ := List.prefix_cons_iff.mp h
      · rfl
      · rw [List.prefix_nil.mp hrest]
        rfl
    rw [hget, sub_self]
    exact Nat.zero_le _
  · rw [code_eq hcall] at h
    exact natAbs_foldl_sub_le h (p.1, p.2 t)

theorem serial_code (s : ℤ) (vars : T → Locals) (made : List (T × Call)) :
    (serial Call.code s vars made).1 = s + total (made.map Prod.snd) ∧
      ∀ t, ((serial Call.code s vars made).2 t).balances =
        (vars t).balances ++ given t s made := by
  induction made generalizing s vars with
  | nil => exact ⟨(add_zero s).symm, fun t => (List.append_nil _).symm⟩
  | cons e made ih =>
    obtain ⟨hbalance, hbalances⟩ := perform_code e.1 e.2 (s, vars)
    obtain ⟨hrest, hrests⟩ := ih (perform e.1 e.2.code (s, vars)).1
      (perform e.1 e.2.code (s, vars)).2
    constructor
    · refine hrest.trans ?_
      rw [hbalance, add_assoc]
      rfl
    · intro t
      refine (hrests t).trans ?_
      rw [hbalances t, hbalance, List.append_assoc]
      rfl

theorem length_given (t : T) (s : ℤ) (made : List (T × Call)) :
    (given t s made).length = (callsOf made t).count .getBalance := by
  induction made generalizing s with
  | nil => rfl
  | cons e made ih =>
    unfold given
    rw [List.length_append, ih]
    by_cases het : e.1 = t
    · by_cases hcall : e.2 = .getBalance
      · simp [callsOf, het, hcall, Nat.add_comm]
      · simp [callsOf, het, hcall]
    · simp [callsOf, het]

/-- A balance that a thread is given is that behind the calls in front of its own. -/
theorem exists_of_getElem?_given {made : List (T × Call)} {i : ℕ} {b : ℤ}
    (h : (given t s made)[i]? = some b) :
    ∃ before behind, made = before ++ (t, .getBalance) :: behind ∧
      (callsOf before t).count .getBalance = i ∧ b = s + total (before.map Prod.snd) := by
  induction made generalizing s i with
  | nil => cases h
  | cons e made ih =>
    unfold given at h
    by_cases hget : e.1 = t ∧ e.2 = .getBalance
    · rw [if_pos hget] at h
      obtain ⟨u, call⟩ := e
      obtain ⟨rfl, rfl⟩ := hget
      cases i with
      | zero => exact ⟨[], made, rfl, rfl, by rw [← Option.some.inj h]; exact (add_zero s).symm⟩
      | succ i =>
        obtain ⟨before, behind, rfl, hcount, rfl⟩ := ih h
        refine ⟨(u, .getBalance) :: before, behind, rfl, ?_, ?_⟩
        · simpa [callsOf] using hcount
        · simp [total, Call.amount, Call.operations]
    · rw [if_neg hget] at h
      obtain ⟨before, behind, rfl, hcount, rfl⟩ := ih h
      refine ⟨e :: before, behind, rfl, ?_, ?_⟩
      · by_cases het : e.1 = t
        · have hcall : e.2 ≠ .getBalance := fun hcall => hget ⟨het, hcall⟩
          simpa [callsOf, het, hcall] using hcount
        · simpa [callsOf, het] using hcount
      · simp [total, add_assoc]

/-! ### Runs -/

theorem total_map_snd [Fintype T] (made : List (T × Call)) :
    total (made.map Prod.snd) = ∑ t, total (callsOf made t) := by
  unfold total
  rw [List.map_map]
  exact sum_map_snd Call.amount made

/-- The threads never get stuck, and whenever the account is not locked its balance and those that
the threads were given are the ones of a serial order of the calls made so far. If all amounts
together are no more than an `int`, no balance on the way is more. -/
theorem run_balance [Fintype T] (calls : T → List Call) (s : ℤ) (ts : List T)
    {st : Workers T ℤ Locals Call}
    (h : run (step Call.code) (start s (fun _ => ⟨0, []⟩) calls) ts = some st) :
    (¬st.Done → ∃ t st', st.step Call.code t = some st') ∧
      (st.Done → st.shared = s + ∑ t, total (calls t)) ∧
      (st.owner = none → ∃ made : List (T × Call), (∀ t, callsOf made t <+: calls t) ∧
        st.shared = s + total (made.map Prod.snd) ∧
        ∀ t, (st.worker t).vars.balances = given t s made) ∧
      (s.natAbs + ∑ t, ((calls t).map Call.extent).sum ≤ intMax → IsInt st.shared) := by
  obtain ⟨made, hexplains⟩ := explains_of_run h
  refine ⟨hexplains.exists_step, ?_, ?_, ?_⟩
  · intro hdone
    obtain ⟨hmemory, hcalls⟩ := hexplains.done hdone
    have hshared : st.shared = (serial Call.code s (fun _ => ⟨0, []⟩) made).1 :=
      congrArg Prod.fst hmemory
    rw [hshared, (serial_code s _ made).1, total_map_snd]
    exact congrArg _ (Finset.sum_congr rfl fun t _ => by rw [hcalls t])
  · intro hfree
    obtain ⟨-, hmemory, hcalls⟩ := hexplains.free hfree
    refine ⟨made, fun t => ⟨_, (hcalls t).symm⟩, ?_, fun t => ?_⟩
    · exact (congrArg Prod.fst hmemory).trans (serial_code s _ made).1
    · have hvars : (st.worker t).vars = (serial Call.code s (fun _ => ⟨0, []⟩) made).2 t :=
        congrFun (congrArg Prod.snd hmemory) t
      rw [hvars, (serial_code s _ made).2 t, List.nil_append]
  · intro hbound
    have hfar := natAbs_sub_le_of_run id natAbs_perform_sub_le h
    dsimp only [id] at hfar
    unfold IsInt
    omega

inductive Agent
  | t1
  | t2
  | t3
deriving DecidableEq

instance : Fintype Agent := ⟨{.t1, .t2, .t3}, fun t => by cases t <;> decide⟩

def begin : Agent → List Call
  | .t1 => bankAgent
  | .t2 => Joe
  | .t3 => [atmWithdrawal 900]

theorem run_balance_two :
    let calls : Agent → List Call
      | .t1 => [.deposit 5, .getBalance]
      | .t2 => [.strictLock [.withdraw 3, .deposit 2]]
      | .t3 => []
    ∃ st, run (step Call.code) (start 1 (fun _ => ⟨0, []⟩) calls)
        [.t2, .t2, .t2, .t2, .t2, .t2, .t1, .t1, .t1, .t1, .t1, .t1, .t1] = some st ∧ st.Done ∧
      (¬st.Done → ∃ t st', st.step Call.code t = some st') ∧
      (st.Done → st.shared = 1 + ∑ t, total (calls t)) ∧
      (st.owner = none → ∃ made : List (Agent × Call), (∀ t, callsOf made t <+: calls t) ∧
        st.shared = 1 + total (made.map Prod.snd) ∧
        ∀ t, (st.worker t).vars.balances = given t 1 made) ∧
      (1 + ∑ t, ((calls t).map Call.extent).sum ≤ intMax → IsInt st.shared) :=
  ⟨_, rfl, fun t => by cases t <;> exact ⟨rfl, rfl⟩, run_balance _ 1
    [.t2, .t2, .t2, .t2, .t2, .t2, .t1, .t1, .t1, .t1, .t1, .t1, .t1] rfl⟩

theorem sum_agents (f : Agent → ℤ) : ∑ t, f t = f .t1 + f .t2 + f .t3 := by
  have huniv : (Finset.univ : Finset Agent) = {.t1, .t2, .t3} := rfl
  rw [huniv, Finset.sum_insert (by decide), Finset.sum_insert (by decide), Finset.sum_singleton,
    add_assoc]

theorem total_replicate (n : ℕ) (call : Call) :
    total (List.replicate n call) = n * call.amount := by
  unfold total
  rw [List.map_replicate, List.sum_replicate, nsmul_eq_mul]

/-- In front of a balance that he is given, Joe has made one more withdrawal than he has been given
balances. -/
theorem total_take_Joe : ∀ n < Joe.length, Joe[n]? = some .getBalance →
    total (Joe.take n) = -100 * ((Joe.take n).count .getBalance + 1) := by
  decide

theorem total_of_prefix_bankAgent {calls : List Call} (h : calls <+: bankAgent) :
    ∃ k : ℕ, k ≤ 10 ∧ total calls = 500 * k := by
  have hagent : bankAgent = List.replicate 10 (.deposit 500) := by decide
  rw [hagent, List.prefix_replicate_iff] at h
  refine ⟨calls.length, h.1, ?_⟩
  rw [h.2, total_replicate, List.length_replicate, mul_comm]
  rfl

theorem total_of_prefix_atm {calls : List Call} (h : calls <+: [atmWithdrawal 900]) :
    total calls = 0 ∨ total calls = -902 := by
  rcases List.prefix_cons_iff.mp h with rfl | ⟨rest, rfl, hrest⟩
  · exact Or.inl rfl
  · rw [List.prefix_nil.mp hrest]
    exact Or.inr rfl

/-- Whatever the schedule, the test is over after the same number of steps with the same balance. On
the way Joe sees only whole deposits, and of the withdrawal from the machine all or nothing. -/
theorem run_begin (ts : List Agent) {st : Workers Agent ℤ Locals Call}
    (h : run (step Call.code) (start 0 (fun _ => ⟨0, []⟩) begin) ts = some st) :
    ts.length ≤ 116 ∧ (st.Done ↔ ts.length = 116) ∧
      (ts.length < 116 → ∃ t st', st.step Call.code t = some st') ∧
      (st.Done → st.shared = 3098 ∧ (st.worker .t2).vars.balances.length = 10) ∧
      (st.owner = none → ∀ (i : ℕ) (b : ℤ), (st.worker .t2).vars.balances[i]? = some b →
        ∃ k : ℕ, k ≤ 10 ∧ (b = 500 * k - 100 * (i + 1) ∨ b = 500 * k - 100 * (i + 1) - 902)) := by
  have hsteps : ∑ t, ((begin t).map fun call => call.code.length + 2).sum = 116 := rfl
  obtain ⟨hle, hdone⟩ := done_iff_length h
  rw [hsteps] at hle hdone
  obtain ⟨made, hexplains⟩ := explains_of_run h
  have hgiven : st.memory = serial Call.code 0 (fun _ => ⟨0, []⟩) made →
      st.shared = total (made.map Prod.snd) ∧ (st.worker .t2).vars.balances = given .t2 0 made := by
    intro hmemory
    obtain ⟨hbalance, hbalances⟩ := serial_code 0 (fun _ : Agent => ⟨0, []⟩) made
    have hvars : (st.worker .t2).vars = (serial Call.code 0 (fun _ => ⟨0, []⟩) made).2 .t2 :=
      congrFun (congrArg Prod.snd hmemory) .t2
    rw [hvars, hbalances .t2]
    exact ⟨(congrArg Prod.fst hmemory).trans (hbalance.trans (zero_add _)), rfl⟩
  refine ⟨hle, hdone, fun hlt => ?_, fun hdone => ?_, fun hfree i b hb => ?_⟩
  · exact hexplains.exists_step (hdone.not.mpr hlt.ne)
  · obtain ⟨hmemory, hcalls⟩ := hexplains.done hdone
    obtain ⟨hshared, hbalances⟩ := hgiven hmemory
    rw [hshared, hbalances, total_map_snd, sum_agents, ← hcalls, ← hcalls, ← hcalls]
    exact ⟨by decide, (length_given _ _ _).trans (by rw [← hcalls]; decide)⟩
  · obtain ⟨-, hmemory, hcalls⟩ := hexplains.free hfree
    rw [(hgiven hmemory).2] at hb
    obtain ⟨before, behind, hmade, hcount, rfl⟩ := exists_of_getElem?_given hb
    have hpre : ∀ t, callsOf before t <+: begin t := by
      intro t
      refine List.IsPrefix.trans ?_ ⟨_, (hcalls t).symm⟩
      rw [hmade]
      unfold callsOf
      rw [List.filter_append, List.map_append]
      exact List.prefix_append _ _
    have hJoe : callsOf before .t2 ++ [.getBalance] <+: Joe := by
      refine List.IsPrefix.trans ?_ ⟨_, (hcalls .t2).symm⟩
      rw [hmade]
      exact ⟨callsOf behind .t2, by simp [callsOf]⟩
    obtain ⟨hlt, hget⟩ : (callsOf before .t2).length < Joe.length ∧
        Joe[(callsOf before .t2).length]? = some .getBalance := by
      obtain ⟨rest, hrest⟩ := hJoe
      rw [← hrest]
      simp
    have htake : callsOf before .t2 = Joe.take (callsOf before .t2).length :=
      List.prefix_iff_eq_take.mp (hpre .t2)
    have htotal := total_take_Joe _ hlt hget
    rw [← htake, hcount] at htotal
    obtain ⟨k, hk, hdeposits⟩ := total_of_prefix_bankAgent (hpre .t1)
    refine ⟨k, hk, ?_⟩
    rw [total_map_snd, sum_agents, htotal, hdeposits]
    rcases total_of_prefix_atm (hpre .t3) with hatm | hatm
    · left
      rw [hatm]
      ring
    · right
      rw [hatm]
      ring

theorem run_begin_seventeen :
    let ts : List Agent := List.replicate 4 .t1 ++ List.replicate 6 .t3 ++ List.replicate 7 .t2
    ∃ st, run (step Call.code) (start 0 (fun _ => ⟨0, []⟩) begin) ts = some st ∧
      st.owner = none ∧ (st.worker .t2).vars.balances = [500 - 902 - 100] ∧
      ts.length ≤ 116 ∧ (st.Done ↔ ts.length = 116) ∧
      (ts.length < 116 → ∃ t st', st.step Call.code t = some st') ∧
      (st.Done → st.shared = 3098 ∧ (st.worker .t2).vars.balances.length = 10) ∧
      (st.owner = none → ∀ (i : ℕ) (b : ℤ), (st.worker .t2).vars.balances[i]? = some b →
        ∃ k : ℕ, k ≤ 10 ∧ (b = 500 * k - 100 * (i + 1) ∨ b = 500 * k - 100 * (i + 1) - 902)) :=
  ⟨_, rfl, rfl, rfl, run_begin _ rfl⟩

end BankAccount

/-! ### Two accounts under one lock -/

namespace AccountManager

structure Accounts where
  checkAcct : ℤ
  savingAcct : ℤ
deriving DecidableEq

/-- `Checking2Saving(amount)`: `Withdraw` and `Deposit`, a load and a store each. -/
def checking2Saving (amount : ℤ) : List (Access Accounts ℤ) :=
  [fun (a, _) => (a, a.checkAcct),
    fun (a, register) => ({ a with checkAcct := register - amount }, 0),
    fun (a, _) => (a, a.savingAcct),
    fun (a, register) => ({ a with savingAcct := register + amount }, 0)]

variable {T : Type} [DecidableEq T] {a : Accounts} {vars : T → ℤ}

theorem serial_checking2Saving (a : Accounts) (vars : T → ℤ) (made : List (T × ℤ)) :
    (serial checking2Saving a vars made).1 =
      ⟨a.checkAcct - (made.map Prod.snd).sum, a.savingAcct + (made.map Prod.snd).sum⟩ := by
  induction made generalizing a vars with
  | nil =>
    rw [List.map_nil, List.sum_nil, sub_zero, add_zero]
    rfl
  | cons e made ih =>
    refine (ih _ _).trans ?_
    rw [List.map_cons, List.sum_cons, ← sub_sub, ← add_assoc]

theorem natAbs_perform_sub_le (t : T) (amount : ℤ) (accesses : List (Access Accounts ℤ))
    (p : Accounts × (T → ℤ)) (h : accesses <+: checking2Saving amount) :
    ((perform t accesses p).1.checkAcct - p.1.checkAcct).natAbs ≤ amount.natAbs ∧
      ((perform t accesses p).1.savingAcct - p.1.savingAcct).natAbs ≤ amount.natAbs := by
  rw [List.prefix_iff_eq_take.mp h]
  have hlen : accesses.length ≤ 4 := h.length_le
  interval_cases accesses.length <;> simp [checking2Saving, perform]

/-- Whatever the threads transfer at the same time, no money is lost or made: whenever the manager
is not locked the accounts have the sum that they had, and in the end all of the transfers are in
them. If all amounts together are no more than an `int`, no balance on the way is more. -/
theorem run_transfers [Fintype T] (amounts : T → List ℤ) (a : Accounts) (ts : List T)
    {st : Workers T Accounts ℤ ℤ}
    (h : run (step checking2Saving) (start a (fun _ => 0) amounts) ts = some st) :
    (¬st.Done → ∃ t st', st.step checking2Saving t = some st') ∧
      (st.owner = none →
        st.shared.checkAcct + st.shared.savingAcct = a.checkAcct + a.savingAcct) ∧
      (st.Done → st.shared =
        ⟨a.checkAcct - ∑ t, (amounts t).sum, a.savingAcct + ∑ t, (amounts t).sum⟩) ∧
      (a.checkAcct.natAbs + a.savingAcct.natAbs + ∑ t, ((amounts t).map Int.natAbs).sum ≤ intMax →
        IsInt st.shared.checkAcct ∧ IsInt st.shared.savingAcct) := by
  obtain ⟨made, hexplains⟩ := explains_of_run h
  refine ⟨hexplains.exists_step, ?_, ?_, ?_⟩
  · intro hfree
    obtain ⟨-, hmemory, -⟩ := hexplains.free hfree
    have hshared : st.shared = (serial checking2Saving a (fun _ => 0) made).1 :=
      congrArg Prod.fst hmemory
    rw [hshared, serial_checking2Saving]
    ring
  · intro hdone
    obtain ⟨hmemory, hcalls⟩ := hexplains.done hdone
    have hshared : st.shared = (serial checking2Saving a (fun _ => 0) made).1 :=
      congrArg Prod.fst hmemory
    have hsum : (made.map Prod.snd).sum = ∑ t, (amounts t).sum := by
      refine (sum_map_snd id made).trans (Finset.sum_congr rfl fun t _ => ?_)
      rw [hcalls t, List.map_id]
    rw [hshared, serial_checking2Saving, hsum]
  · intro hbound
    have hcheck := natAbs_sub_le_of_run Accounts.checkAcct
      (fun t amount accesses p hpre => (natAbs_perform_sub_le t amount accesses p hpre).1) h
    have hsaving := natAbs_sub_le_of_run Accounts.savingAcct
      (fun t amount accesses p hpre => (natAbs_perform_sub_le t amount accesses p hpre).2) h
    unfold IsInt
    omega

theorem run_transfers_two :
    let amounts : BankAccount.Agent → List ℤ
      | .t1 => [7]
      | .t2 => [2]
      | .t3 => []
    ∃ st, run (step checking2Saving) (start ⟨10, 0⟩ (fun _ => 0) amounts)
        [.t2, .t2, .t2, .t2, .t2, .t2, .t1, .t1, .t1, .t1, .t1, .t1] = some st ∧ st.Done ∧
      (¬st.Done → ∃ t st', st.step checking2Saving t = some st') ∧
      (st.owner = none → st.shared.checkAcct + st.shared.savingAcct = 10 + 0) ∧
      (st.Done → st.shared = ⟨10 - ∑ t, (amounts t).sum, 0 + ∑ t, (amounts t).sum⟩) ∧
      (10 + 0 + ∑ t, ((amounts t).map Int.natAbs).sum ≤ intMax →
        IsInt st.shared.checkAcct ∧ IsInt st.shared.savingAcct) :=
  ⟨_, rfl, fun t => by cases t <;> exact ⟨rfl, rfl⟩, run_transfers _ ⟨10, 0⟩
    [.t2, .t2, .t2, .t2, .t2, .t2, .t1, .t1, .t1, .t1, .t1, .t1] rfl⟩

end AccountManager

end CppTricks.Sync
