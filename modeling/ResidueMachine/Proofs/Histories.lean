import ResidueMachine.Machine.History
import ResidueMachine.Proofs.Evaluation

/-!
# Machines after histories of calls

Whatever calls are made on a machine, in whatever order, it is then where a number of steps would
have taken it (`Machine.after_eq_advanceBy`).  `Machine.Reached` says where that is: the machine has
executed the first instructions of its program, its stack holds their values, and if it has failed,
then the next instruction met a fault on just these values.

* `Machine.run_eq_step`, `Machine.run_advance` : a run is a loop of steps, and steps in front of it
  make no difference;
* `Machine.reached_after` : every machine that calls lead to has been reached in this sense;
* `Machine.Reached.step_eq_error` : what a failing step tells and leaves;
* `Machine.failing_step_keeps_stack` : a failing step sets the failure and nothing else, and a push
  that follows a pop is never refused;
* `Code.completes_iff` : stepping a machine is evaluating its code instruction by instruction.
-/

namespace ResidueMachine

namespace Machine

/-- The machine after calls one after the other. -/
def after (m : Machine) (calls : List Call) : Machine :=
  calls.foldl (fun m c => (m.call c).2) m

/-- The machine has executed the first instructions of a code that was started with a limit. -/
structure Reached (c : Code) (limit : Option Nat) (m : Machine) : Prop where
  /-- The modulus is that of the code. -/
  modulus_eq : m.modulus = c.modulus
  /-- The table is that of the code. -/
  table_eq : m.table = c.table
  /-- The stack has room for what the limit allows. -/
  maxSize_eq : m.stack.maxSize = limit.getD unlimitedDepth
  /-- Some instructions have been executed, and the others are pending. -/
  executed : ∃ k, k ≤ c.program.length ∧ m.position = k + 1 ∧ m.pending = c.program.drop k ∧
    c.valuesAfter (some (limit.getD unlimitedDepth)) k = .ok m.stack.items
  /-- A failure is the fault of the next instruction. -/
  failed : ∀ failure ∈ m.failure?, ∃ i rest fault, m.pending = i :: rest ∧
    i.eval c.modulus c.table (some (limit.getD unlimitedDepth)) m.stack.items = .error fault ∧
    failure = fault.at m.position

variable {c : Code} {limit : Option Nat} {m : Machine}

/-! ### Calls are steps -/

theorem call_eq_advanceBy (m : Machine) (call : Call) : ∃ k, (m.call call).2 = m.advanceBy k := by
  cases call with
  | step =>
    refine ⟨1, ?_⟩
    simp only [Machine.call, advanceBy, advance]
    rcases m.step with ⟨_ | _, _⟩ <;> rfl
  | run => exact ⟨m.pending.length, rfl⟩
  | result => exact ⟨0, rfl⟩

/-- **Calls take a machine where steps take it.** -/
theorem after_eq_advanceBy (m : Machine) (calls : List Call) :
    ∃ k, m.after calls = m.advanceBy k := by
  induction calls generalizing m with
  | nil => exact ⟨0, rfl⟩
  | cons call rest ih =>
    obtain ⟨k, hk⟩ := m.call_eq_advanceBy call
    obtain ⟨n, hn⟩ := ih (m.advanceBy k)
    refine ⟨k + n, ?_⟩
    rw [advanceBy_add, ← hn, ← hk]
    rfl

/-! ### Runs are loops of steps -/

/-- What a step can do: answer with an old failure, find nothing to execute, execute an instruction,
or meet the fault of one. -/
theorem step_cases (m : Machine) :
    (∃ failure, m.failure? = some failure ∧ m.step = (.error failure, m)) ∨
      (m.failure? = none ∧ m.pending = [] ∧ m.step = (.ok false, m)) ∨
      (∃ i rest stack, m.failure? = none ∧ m.pending = i :: rest ∧
        m.step = (.ok true, { m with pending := rest, position := m.position + 1, stack })) ∨
      ∃ i rest, ∃ fault : Fault, ∃ stack, m.failure? = none ∧ m.pending = i :: rest ∧
        m.step = (.error (fault.at m.position),
          { m with stack, failure? := some (fault.at m.position) }) := by
  cases hfailure : m.failure? with
  | some failure => exact .inl ⟨failure, rfl, by simp only [step, hfailure]⟩
  | none =>
    cases hpending : m.pending with
    | nil => exact .inr (.inl ⟨rfl, rfl, by simp only [step, hfailure, hpending]⟩)
    | cons i rest =>
      cases hexecute : execute m.modulus m.table i m.stack with
      | ok _ stack =>
        exact .inr (.inr (.inl ⟨i, rest, stack, rfl, rfl, by
          simp only [step, hfailure, hpending, hexecute]⟩))
      | error fault stack =>
        exact .inr (.inr (.inr ⟨i, rest, fault, stack, rfl, rfl, by
          simp only [step, hfailure, hpending, hexecute]⟩))

theorem run_of_failure {failure : Failure} (h : m.failure? = some failure) :
    m.run = (.error failure, m) := by
  simp only [run, advanceBy_of_failure h, result, h]

/-- **A run is a loop of steps.**  It goes on as long as a step has executed an instruction. -/
theorem run_eq_step (m : Machine) :
    m.run =
      match m.step with
      | (.ok true, m') => m'.run
      | (.ok false, m') => (m'.result, m')
      | (.error failure, m') => (.error failure, m') := by
  rcases m.step_cases with ⟨failure, hfailure, hstep⟩ | ⟨-, hpending, hstep⟩ |
    ⟨i, rest, stack, -, hpending, hstep⟩ | ⟨i, rest, fault, stack, -, hpending, hstep⟩
  · rw [hstep]
    exact run_of_failure hfailure
  · rw [hstep]
    simp only [run, hpending, List.length_nil, advanceBy]
  · simp only [run, hpending, List.length_cons, advanceBy, advance, hstep]
  · have hfailed : m.advance.failure? = some (fault.at m.position) := by
      rw [advance, hstep]
    have hlast := advanceBy_of_failure hfailed rest.length
    simp only [run, hpending, List.length_cons, advanceBy, hlast, result, hfailed]
    rw [advance, hstep]

/-- **A step in front of a run makes no difference**, neither to what the run answers nor to where
it ends. -/
theorem run_advance (m : Machine) : m.advance.run = m.run := by
  rw [run_eq_step m, advance]
  rcases m.step_cases with ⟨failure, hfailure, hstep⟩ | ⟨-, hpending, hstep⟩ |
    ⟨i, rest, stack, -, hpending, hstep⟩ | ⟨i, rest, fault, stack, -, hpending, hstep⟩
  · rw [hstep]
    exact run_of_failure hfailure
  · rw [hstep]
    simp only [run, hpending, List.length_nil, advanceBy]
  · rw [hstep]
  · rw [hstep]
    exact run_of_failure rfl

theorem run_advanceBy (m : Machine) (k : Nat) : (m.advanceBy k).run = m.run := by
  induction k generalizing m with
  | zero => rfl
  | succ k ih => rw [advanceBy, ih, run_advance]

/-! ### Reached machines -/

theorem Reached.bounded (h : Reached c limit m) : m.Bounded := by
  obtain ⟨k, -, -, -, hvalues⟩ := h.executed
  have hfits := Program.fits_of_eval_eq_ok fits_nil hvalues
  rw [fits_some, ← h.maxSize_eq] at hfits
  exact hfits

theorem reached_start (c : Code) (limit : Option Nat) : Reached c limit (start c limit) where
  modulus_eq := rfl
  table_eq := rfl
  maxSize_eq := rfl
  executed := ⟨0, Nat.zero_le _, rfl, rfl, rfl⟩
  failed := by rintro failure ⟨⟩

theorem Reached.step_eq_eval (h : Reached c limit m) {i : Instruction} {rest : Program}
    (hfailure : m.failure? = none) (hpending : m.pending = i :: rest) :
    m.step =
      match i.eval c.modulus c.table (some (limit.getD unlimitedDepth)) m.stack.items with
      | .ok values =>
        (.ok true, { m with
          pending := rest, position := m.position + 1, stack := m.stack.withItems values })
      | .error fault =>
        (.error (fault.at m.position), { m with failure? := some (fault.at m.position) }) := by
  rw [← h.modulus_eq, ← h.table_eq, ← h.maxSize_eq]
  exact Machine.step_eq_eval h.bounded hfailure hpending

theorem Reached.advance (h : Reached c limit m) : Reached c limit m.advance := by
  cases hfailure : m.failure? with
  | some failure =>
    rw [advance_of_failure hfailure]
    exact h
  | none =>
    cases hpending : m.pending with
    | nil =>
      rw [advance_of_pending_eq_nil hpending]
      exact h
    | cons i rest =>
      rw [Machine.advance, h.step_eq_eval hfailure hpending]
      obtain ⟨k, hk, hposition, hdrop, hvalues⟩ := h.executed
      rw [hpending, eq_comm] at hdrop
      have hi : c.program[k]? = some i := by
        rw [← List.head?_drop, hdrop]
        rfl
      have hrest : c.program.drop (k + 1) = rest := by
        rw [← List.tail_drop, hdrop]
        rfl
      cases heval : i.eval c.modulus c.table (some (limit.getD unlimitedDepth)) m.stack.items with
      | ok values =>
        obtain ⟨hlt, -⟩ := List.getElem?_eq_some_iff.1 hi
        exact
          { modulus_eq := h.modulus_eq
            table_eq := h.table_eq
            maxSize_eq := h.maxSize_eq
            executed := ⟨k + 1, hlt, by rw [hposition], hrest.symm,
              (Code.valuesAfter_succ_eq_ok_iff hi).2 ⟨_, hvalues, heval⟩⟩
            failed := by
              intro failure hmem
              rw [hfailure] at hmem
              cases hmem }
      | error fault =>
        exact
          { modulus_eq := h.modulus_eq
            table_eq := h.table_eq
            maxSize_eq := h.maxSize_eq
            executed := ⟨k, hk, hposition, hpending.trans hdrop.symm, hvalues⟩
            failed := by
              intro failure hmem
              cases hmem
              exact ⟨i, rest, fault, hpending, heval, rfl⟩ }

theorem Reached.advanceBy (h : Reached c limit m) (k : Nat) : Reached c limit (m.advanceBy k) := by
  induction k generalizing m with
  | zero => exact h
  | succ k ih => exact ih h.advance

/-- **Every history of calls leads to a reached machine.** -/
theorem reached_after (c : Code) (limit : Option Nat) (calls : List Call) :
    Reached c limit ((start c limit).after calls) := by
  obtain ⟨k, hk⟩ := (start c limit).after_eq_advanceBy calls
  rw [hk]
  exact (reached_start c limit).advanceBy k

/-! ### Failing steps -/

/-- **A failing step tells the fault of the next instruction**, sets the failure, and changes
nothing else.  This also holds of the steps after the first failure. -/
theorem Reached.step_eq_error (h : Reached c limit m) {failure : Failure}
    (hstep : m.step.1 = .error failure) :
    m.step.2 = { m with failure? := some failure } ∧
      ∃ i rest fault, m.pending = i :: rest ∧
        i.eval c.modulus c.table (some (limit.getD unlimitedDepth)) m.stack.items = .error fault ∧
        failure = fault.at m.position := by
  cases hfailure : m.failure? with
  | some failure' =>
    have hstop : m.step = (.error failure', m) := by simp only [step, hfailure]
    rw [hstop] at hstep ⊢
    cases hstep
    exact ⟨by rw [← hfailure], h.failed failure hfailure⟩
  | none =>
    cases hpending : m.pending with
    | nil =>
      simp only [step, hfailure, hpending] at hstep
      cases hstep
    | cons i rest =>
      rw [h.step_eq_eval hfailure hpending] at hstep ⊢
      cases heval : i.eval c.modulus c.table (some (limit.getD unlimitedDepth)) m.stack.items with
      | ok values =>
        rw [heval] at hstep
        cases hstep
      | error fault =>
        rw [heval] at hstep
        cases hstep
        exact ⟨by rw [hpending], i, rest, fault, rfl, heval, rfl⟩

/-- **What a step answers is told by the next instruction**, whether or not it has failed before. -/
theorem Reached.step_fst_eq_eval (h : Reached c limit m) {i : Instruction} {rest : Program}
    (hpending : m.pending = i :: rest) :
    m.step.1 =
      match i.eval c.modulus c.table (some (limit.getD unlimitedDepth)) m.stack.items with
      | .ok _ => .ok true
      | .error fault => .error (fault.at m.position) := by
  cases hfailure : m.failure? with
  | none =>
    rw [h.step_eq_eval hfailure hpending]
    cases i.eval c.modulus c.table (some (limit.getD unlimitedDepth)) m.stack.items <;> rfl
  | some failure =>
    obtain ⟨j, rest', fault, hcons, hfault, rfl⟩ := h.failed failure hfailure
    rw [hpending] at hcons
    cases hcons
    rw [hfault]
    simp only [step, hfailure]

theorem push_after_pop {s rest : Stack Int64} {x : Int64} (h : s.items.length ≤ s.maxSize)
    (hpop : s.pop = (some x, rest)) (value : Int64) : ∃ s', rest.push value = .ok s' := by
  obtain ⟨hitems, hmaxSize⟩ := Stack.pop_eq_some_iff.1 hpop
  rw [hitems, List.length_cons, ← hmaxSize] at h
  exact ⟨_, Stack.push_of_lt h⟩

theorem push_after_popPair {s rest : Stack Int64} {x y : Int64} (h : s.items.length ≤ s.maxSize)
    (hpop : s.popPair = (some (x, y), rest)) (value : Int64) : ∃ s', rest.push value = .ok s' := by
  obtain ⟨hitems, hmaxSize⟩ := Stack.popPair_eq_some_iff.1 hpop
  rw [hitems, List.length_cons, List.length_cons, ← hmaxSize] at h
  exact ⟨_, Stack.push_of_lt (Nat.lt_of_succ_lt h)⟩

/-- **A failing step keeps the stack.**  After any calls on a machine, its stack holds no more than
it has room for, and if the next step fails, then it sets the failure and changes nothing else.  A
push after one pop or two is never refused; what is refused is the word of a load whose index is
good, when the stack is as deep as the limit. -/
theorem failing_step_keeps_stack (c : Code) (limit : Option Nat) (calls : List Call) :
    let m := (start c limit).after calls
    m.stack.maxSize = limit.getD unlimitedDepth ∧
      m.stack.items.length ≤ m.stack.maxSize ∧
      (∀ failure, m.step.1 = .error failure →
        m.step.2 = { m with failure? := some failure } ∧ failure.position = m.position) ∧
      (∀ x y rest value, m.stack.popPair = (some (x, y), rest) → ∃ s, rest.push value = .ok s) ∧
      (∀ y rest value, m.stack.pop = (some y, rest) → ∃ s, rest.push value = .ok s) ∧
      ∀ bound position, m.step.1 = .error ((Fault.overflow bound).at position) →
        bound = limit.getD unlimitedDepth ∧ m.stack.items.length = bound ∧
          ∃ index rest, m.pending = .load index :: rest ∧ 1 ≤ index.toInt ∧
            index.toInt ≤ c.table.size := by
  intro m
  have hreached : Reached c limit m := reached_after c limit calls
  refine ⟨hreached.maxSize_eq, hreached.bounded, fun failure hstep => ?_,
    fun x y rest value hpop => push_after_popPair hreached.bounded hpop value,
    fun y rest value hpop => push_after_pop hreached.bounded hpop value,
    fun bound position hstep => ?_⟩
  · obtain ⟨hstate, i, rest, fault, -, -, rfl⟩ := hreached.step_eq_error hstep
    exact ⟨hstate, rfl⟩
  · obtain ⟨-, i, rest, fault, hpending, heval, hfailure⟩ := hreached.step_eq_error hstep
    obtain ⟨rfl, -⟩ := Failure.mk.inj hfailure
    obtain ⟨index, word, rfl, hword, hbound, hfull⟩ := Instruction.eval_eq_overflow heval
    have hbound := Option.some.inj hbound
    have hbounded := hreached.bounded
    rw [Bounded, hreached.maxSize_eq] at hbounded
    refine ⟨hbound.symm, by omega, index, rest, hpending, ?_⟩
    refine Decidable.not_not.1 fun hout => ?_
    have hnone : c.table.get? index = none := Table.get?_eq_none_iff.2 (by omega)
    rw [hword] at hnone
    cases hnone

end Machine

/-! ### Completed instructions -/

namespace Code

variable {c : Code} {limit : Option Nat} {k : Nat} {values : List Int64}

/-- Programs are too short to fill the stack that a run without a limit has. -/
theorem valuesAfter_getD (h : c.program.length < UInt64.size) (limit : Option Nat) (k : Nat) :
    c.valuesAfter (some (limit.getD unlimitedDepth)) k = c.valuesAfter limit k := by
  cases limit with
  | some bound => rfl
  | none =>
    refine Program.eval_some_of_le _ ?_
    have hlength := (List.take_sublist k c.program).length_le
    simp only [Option.getD_none, unlimitedDepth, List.length_nil]
    omega

/-- The first `k` steps of a run execute as many instructions, and leave these values on the
stack. -/
def Completes (c : Code) (limit : Option Nat) (k : Nat) (values : List Int64) : Prop :=
  let m := (Machine.start c limit).advanceBy k
  m.position = k + 1 ∧ m.stack.items = values

theorem completes_of_valuesAfter (hk : k ≤ c.program.length)
    (h : c.valuesAfter (some (limit.getD unlimitedDepth)) k = .ok values) :
    c.Completes limit k values := by
  induction k generalizing values with
  | zero =>
    cases h
    exact ⟨rfl, rfl⟩
  | succ k ih =>
    have hi : c.program[k]? = some c.program[k] := List.getElem?_eq_getElem hk
    obtain ⟨mid, hmid, heval⟩ := (valuesAfter_succ_eq_ok_iff hi).1 h
    obtain ⟨hposition, hitems⟩ := ih (Nat.le_of_succ_le hk) hmid
    have hreached := (Machine.reached_start c limit).advanceBy k
    unfold Completes
    rw [Machine.advanceBy_add k 1]
    generalize (Machine.start c limit).advanceBy k = m at hposition hitems hreached
    obtain ⟨k', -, hposition', hpending, -⟩ := hreached.executed
    obtain rfl : k' = k := Nat.succ.inj (hposition'.symm.trans hposition)
    rw [List.drop_eq_getElem_cons hk] at hpending
    rw [← hitems] at heval
    have hfailure : m.failure? = none := by
      -- the instruction that a failed machine stands at has no values
      refine Option.eq_none_iff_forall_not_mem.2 fun failure hfailure => ?_
      obtain ⟨i, rest, fault, hcons, hfault, -⟩ := hreached.failed failure hfailure
      rw [hpending] at hcons
      cases hcons
      rw [heval] at hfault
      cases hfault
    have hstep := hreached.step_eq_eval hfailure hpending
    rw [heval] at hstep
    simp only [Machine.advanceBy, Machine.advance, hstep]
    exact ⟨congrArg (· + 1) hposition, rfl⟩

theorem completes_iff_getD :
    c.Completes limit k values ↔
      k ≤ c.program.length ∧ c.valuesAfter (some (limit.getD unlimitedDepth)) k = .ok values := by
  constructor
  · rintro ⟨hposition, rfl⟩
    have hreached := (Machine.reached_start c limit).advanceBy k
    obtain ⟨k', hk', hposition', -, hvalues⟩ := hreached.executed
    obtain rfl : k' = k := Nat.succ.inj (hposition'.symm.trans hposition)
    exact ⟨hk', hvalues⟩
  · rintro ⟨hk, hvalues⟩
    exact completes_of_valuesAfter hk hvalues

/-- **Stepping a machine is evaluating its code** instruction by instruction. -/
theorem completes_iff (h : c.program.length < UInt64.size) :
    c.Completes limit k values ↔
      k ≤ c.program.length ∧ c.valuesAfter limit k = .ok values := by
  rw [completes_iff_getD, valuesAfter_getD h]

end Code

end ResidueMachine
