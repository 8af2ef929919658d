import ResidueMachine.Proofs.EmptyResults

/-!
# What machines reply

Calls on a machine may come in any order and number, and most of it is forgotten: what remains is
how far the machine has stepped.  Looking at the result changes nothing, and a run replies what a
run from the start replies, however far the machine has stepped before (`Machine.run_after`).

A failing instruction is remembered, and repeated in every later reply
(`Machine.history_of_failure`).  An empty result is not: the machine that has replied so is the
machine that was asked (`Machine.failed_reply`).

* `Machine.getElem?_history` : the replies of a history, call by call;
* `Machine.calls_in_any_order` : what holds after any calls.
-/

namespace ResidueMachine

namespace Machine

variable {c : Code} {limit : Option Nat} {m : Machine}

/-! ### Histories -/

theorem history_cons (m : Machine) (call : Call) (rest : List Call) :
    m.history (call :: rest) = m.call call :: (m.call call).2.history rest :=
  rfl

theorem getElem?_history (m : Machine) (calls : List Call) (n : Nat) :
    (m.history calls)[n]? = calls[n]?.map (m.after (calls.take n)).call := by
  induction calls generalizing m n with
  | nil => rfl
  | cons call rest ih =>
    rw [history_cons]
    cases n with
    | zero => rfl
    | succ n =>
      rw [List.getElem?_cons_succ, List.getElem?_cons_succ, ih, List.take_succ_cons]
      rfl

theorem call_step (m : Machine) : (m.call .step).2 = m.advance := by
  unfold call advance
  rcases m.step with ⟨_ | _, _⟩ <;> rfl

theorem after_cons (m : Machine) (call : Call) (rest : List Call) :
    m.after (call :: rest) = (m.call call).2.after rest :=
  rfl

theorem after_replicate_step (m : Machine) (k : Nat) :
    m.after (List.replicate k .step) = m.advanceBy k := by
  induction k generalizing m with
  | zero => rfl
  | succ k ih => rw [List.replicate_succ, after_cons, call_step, ih, advanceBy]

theorem after_of_run_not_mem {calls : List Call} (h : .run ∉ calls) :
    m.after calls = m.advanceBy (calls.count .step) := by
  induction calls generalizing m with
  | nil => rfl
  | cons call rest ih =>
    rw [List.mem_cons, not_or] at h
    rw [after_cons, ih h.2]
    cases call with
    | step => rw [call_step, List.count_cons_self, advanceBy]
    | run => exact absurd rfl h.1
    | result => rfl

/-! ### Runs and positions -/

/-- **A run forgets the calls before it**: it replies what it would have replied first, and ends
where it would have ended. -/
theorem run_after (m : Machine) (calls : List Call) : (m.after calls).run = m.run := by
  obtain ⟨k, hk⟩ := m.after_eq_advanceBy calls
  rw [hk, run_advanceBy]

theorem position_le_advance (m : Machine) : m.position ≤ m.advance.position := by
  unfold advance
  rcases m.step_cases with ⟨failure, -, hstep⟩ | ⟨-, -, hstep⟩ |
    ⟨i, rest, stack, -, -, hstep⟩ | ⟨i, rest, fault, stack, -, -, hstep⟩
  · rw [hstep]
  · rw [hstep]
  · rw [hstep]
    exact Nat.le_succ m.position
  · rw [hstep]

theorem position_le_advanceBy (m : Machine) (k : Nat) : m.position ≤ (m.advanceBy k).position := by
  induction k generalizing m with
  | zero => exact Nat.le_refl _
  | succ k ih => exact m.position_le_advance.trans (ih m.advance)

theorem position_le_after (m : Machine) (calls : List Call) :
    m.position ≤ (m.after calls).position := by
  obtain ⟨k, hk⟩ := m.after_eq_advanceBy calls
  rw [hk]
  exact m.position_le_advanceBy k

theorem Reached.position_le (h : Reached c limit m) : m.position ≤ c.program.length + 1 := by
  obtain ⟨k, hk, hposition, -⟩ := h.executed
  rw [hposition]
  exact Nat.succ_le_succ hk

/-! ### Failed replies -/

theorem call_of_failure {failure : Failure} (h : m.failure? = some failure) (call : Call) :
    m.call call = (.failed failure, m) := by
  cases call with
  | step => simp only [Machine.call, step, h]
  | run => simp only [Machine.call, run_of_failure h, Reply.ofResult]
  | result => simp only [Machine.call, result, h, Reply.ofResult]

/-- **A failure is repeated** in every later reply. -/
theorem history_of_failure {failure : Failure} (h : m.failure? = some failure)
    (calls : List Call) : m.history calls = calls.map fun _ => (.failed failure, m) := by
  induction calls with
  | nil => rfl
  | cons call rest ih =>
    rw [history_cons, call_of_failure h, List.map_cons]
    exact congrArg _ ih

/-- The failure that a machine keeps is that of the instruction at its position. -/
theorem Reached.fault_ne_emptyResult (h : Reached c limit m) {failure : Failure}
    (hfailure : m.failure? = some failure) :
    failure.fault ≠ .emptyResult ∧ failure.position = m.position := by
  obtain ⟨i, rest, fault, -, hfault, rfl⟩ := h.failed failure hfailure
  refine ⟨fun hempty => ?_, rfl⟩
  obtain rfl : fault = .emptyResult := hempty
  exact i.eval_ne_emptyResult m.stack.items hfault

theorem ofResult_eq_failed_iff {answer : Except Failure Int64} {failure : Failure} :
    Reply.ofResult answer = .failed failure ↔ answer = .error failure := by
  cases answer <;> simp [Reply.ofResult]

theorem result_eq_error {failure : Failure} (h : m.result = .error failure) :
    m.failure? = some failure ∨
      (m.failure? = none ∧ failure = Fault.emptyResult.at m.position) := by
  unfold result at h
  cases hfailure : m.failure? with
  | some failure' =>
    rw [hfailure] at h
    cases h
    exact .inl rfl
  | none =>
    rw [hfailure] at h
    split at h
    · contradiction
    · cases h
    · cases h
      exact .inr ⟨rfl, rfl⟩

/-- **A failed reply is kept or harmless.**  Either the machine now keeps the failure, which is that
of an instruction, or the result was empty, and then nothing has changed. -/
theorem failed_reply (c : Code) (limit : Option Nat) (calls : List Call) {call : Call}
    {failure : Failure} :
    let m := (start c limit).after calls
    (m.call call).1 = .failed failure →
      ((m.call call).2.failure? = some failure ∧ failure.fault ≠ .emptyResult) ∨
        (failure.fault = .emptyResult ∧ call ≠ .step ∧ m.failure? = none ∧
          (m.call call).2 = m) := by
  intro m hreply
  have hreached : Reached c limit m := reached_after c limit calls
  cases call with
  | step =>
    have hstep : m.step.1 = .error failure := by
      unfold Machine.call at hreply
      rcases hm : m.step with ⟨failure' | more, m'⟩
      · rw [hm] at hreply
        cases hreply
        rfl
      · rw [hm] at hreply
        cases hreply
    have hkept : (m.call .step).2.failure? = some failure := by
      rw [call_step, advance, (hreached.step_eq_error hstep).1]
    have hafter : Reached c limit (m.call .step).2 := by
      rw [call_step]
      exact hreached.advance
    exact .inl ⟨hkept, (hafter.fault_ne_emptyResult hkept).1⟩
  | run =>
    have hresult : m.run.2.result = .error failure := ofResult_eq_failed_iff.1 hreply
    rcases result_eq_error hresult with hkept | ⟨hnone, hempty⟩
    · have hafter : Reached c limit m.run.2 := hreached.advanceBy m.pending.length
      exact .inl ⟨hkept, (hafter.fault_ne_emptyResult hkept).1⟩
    · -- a run from the start has the same empty result, so that there is nothing to execute
      have hrun : c.run limit = .error (Fault.emptyResult.at m.run.2.position) := by
        rw [← hempty, ← hresult]
        exact congrArg Prod.fst ((start c limit).run_after calls).symm
      have hpending : m.pending = [] := by
        obtain ⟨k, -, -, hpending, -⟩ := hreached.executed
        rw [hpending, (Code.run_eq_emptyResult_iff.1 hrun).1, List.drop_nil]
      have hsame : m.run.2 = m := by
        simp only [run, hpending, List.length_nil, advanceBy]
      rw [hsame] at hnone
      exact .inr ⟨by rw [hempty]; rfl, (by rintro ⟨⟩), hnone, hsame⟩
  | result =>
    rcases result_eq_error (ofResult_eq_failed_iff.1 hreply) with hkept | ⟨hnone, hempty⟩
    · exact .inl ⟨hkept, (hreached.fault_ne_emptyResult hkept).1⟩
    · exact .inr ⟨by rw [hempty]; rfl, (by rintro ⟨⟩), hnone, rfl⟩

/-- **Calls in any order.**  After any calls a machine is where some number of steps takes it from
the start, and without a run that is the number of step calls.  Looking at the result changes
nothing, the position never decreases and is at most one past the last instruction, and every run
of a history replies what a run of the code gives.  A call with a failed reply has left the failure
of an instruction in the machine, or, if the result was empty, nothing at all; a failure that is in
the machine is that of the instruction at its position, and every later reply repeats it. -/
theorem calls_in_any_order (c : Code) (limit : Option Nat) (calls : List Call) :
    let fresh := start c limit
    let m := fresh.after calls
    (∃ k, m = fresh.after (List.replicate k .step) ∧ (.run ∉ calls → k = calls.count .step)) ∧
      (m.call .result).2 = m ∧
      m.position ≤ c.program.length + 1 ∧
      (∀ more, m.position ≤ (m.after more).position) ∧
      (∀ n : Nat, calls[n]? = some .run →
        (fresh.history calls)[n]?.map Prod.fst = some (.ofResult (c.run limit))) ∧
      (∀ call failure, (m.call call).1 = .failed failure →
        ((m.call call).2.failure? = some failure ∧ failure.fault ≠ .emptyResult) ∨
          (failure.fault = .emptyResult ∧ call ≠ .step ∧ m.failure? = none ∧
            (m.call call).2 = m)) ∧
      ∀ failure, m.failure? = some failure →
        failure.fault ≠ .emptyResult ∧ failure.position = m.position ∧
          ∀ more, m.history more = more.map fun _ => (.failed failure, m) := by
  intro fresh m
  have hreached : Reached c limit m := reached_after c limit calls
  refine ⟨?_, rfl, hreached.position_le, m.position_le_after, fun n hn => ?_,
    fun call failure => failed_reply c limit calls, fun failure hfailure => ?_⟩
  · by_cases hrun : .run ∈ calls
    -- a run takes as many steps as are left, so that no count of calls gives `k`
    · obtain ⟨k, hk⟩ := fresh.after_eq_advanceBy calls
      exact ⟨k, hk.trans (after_replicate_step fresh k).symm, fun hnot => absurd hrun hnot⟩
    · refine ⟨calls.count .step, ?_, fun _ => rfl⟩
      rw [after_replicate_step]
      exact after_of_run_not_mem hrun
  · have hreply : ((fresh.after (calls.take n)).call .run).1 = .ofResult (c.run limit) := by
      change Reply.ofResult (fresh.after (calls.take n)).run.1 = .ofResult fresh.run.1
      rw [run_after]
    rw [getElem?_history, hn, Option.map_some, Option.map_some, hreply]
  · obtain ⟨hfault, hposition⟩ := hreached.fault_ne_emptyResult hfailure
    exact ⟨hfault, hposition, history_of_failure hfailure⟩

end Machine

end ResidueMachine
