import ResidueMachine.Proofs.Checking
import ResidueMachine.Proofs.Histories

/-!
# Empty results

At the end of a program of any length the stack is asked for a value, and may have none.  No
program but the empty one gets there with an empty stack: the first instruction that is executed
is a load, and no instruction takes the last value without leaving another.

* `Program.topValue_eval_eq_emptyResult_iff` : evaluation ends with an empty result iff there is
  nothing to evaluate;
* `Machine.Reached.items_eq_nil_iff` : the stack of a machine is empty iff no instruction has been
  executed;
* `Code.emptyResult_iff_no_instructions` : runs and checks give an empty result for the empty
  program only, and a program that can be executed to its end has a value.
-/

namespace ResidueMachine

/-! ### Evaluation -/

section Evaluation

variable {m : Modulus} {t : Table} {limit : Option Nat}

theorem Instruction.eval_ne_emptyResult (i : Instruction) (values : List Int64) :
    i.eval m t limit values ≠ .error .emptyResult := by
  intro h
  by_cases hpops : values.length < i.effect.pops
  · rw [eval_of_lt_pops hpops] at h
    cases h
  · cases i with
    | load index =>
      simp only [eval] at h
      split at h
      · cases h
      · split at h <;> cases h
    | swap =>
      obtain ⟨x, y, rest, rfl⟩ := exists_eq_cons_cons (Nat.le_of_not_lt hpops)
      cases h
    | combine2 a b c =>
      obtain ⟨x, y, rest, rfl⟩ := exists_eq_cons_cons (Nat.le_of_not_lt hpops)
      cases h
    | combineIndexed index a b c =>
      simp only [eval] at h
      split at h
      · cases h
      · split at h <;> cases h

/-- An evaluation fails at an instruction, and never for want of a result. -/
theorem Program.eval_ne_emptyResult {p : Program} {first position : Nat} {values : List Int64} :
    p.eval m t limit first values ≠ .error (Fault.emptyResult.at position) := by
  intro h
  obtain ⟨k, i, mid, fault, -, -, hfault, hfailure⟩ := eval_eq_error_iff.1 h
  obtain ⟨rfl, -⟩ := Failure.mk.inj hfailure
  exact i.eval_ne_emptyResult mid hfault

/-- **Only the empty program has an empty result.** -/
theorem Program.topValue_eval_eq_emptyResult_iff {p : Program} {first last position : Nat} :
    (p.eval m t limit first []).bind (topValue last) = .error (Fault.emptyResult.at position) ↔
      p = [] ∧ position = last := by
  rw [Except.bind_eq_error_iff]
  constructor
  · rintro (h | ⟨values, hvalues, htop⟩)
    · exact absurd h eval_ne_emptyResult
    · have hnil : values = [] := by
        by_contra hne
        obtain ⟨value, rest, rfl⟩ := List.exists_cons_of_ne_nil hne
        cases htop
      subst hnil
      refine ⟨?_, (Failure.mk.inj (Except.error.inj htop)).2.symm⟩
      by_contra hne
      exact ne_nil_of_eval_eq_ok hvalues (.inl hne) rfl
  · rintro ⟨rfl, rfl⟩
    exact .inr ⟨[], rfl, rfl⟩

end Evaluation

/-! ### Runs and checks -/

namespace Code

variable {c : Code} {limit : Option Nat} {position : Nat}

theorem run_eq_emptyResult_iff :
    c.run limit = .error (Fault.emptyResult.at position) ↔ c.program = [] ∧ position = 1 := by
  have hrun : c.run limit =
      (c.program.eval c.modulus c.table (some (limit.getD unlimitedDepth)) 1 []).bind
        (topValue (1 + c.program.length)) :=
    Machine.run_eq_eval (Machine.bounded_start c limit) rfl
  rw [hrun, Program.topValue_eval_eq_emptyResult_iff]
  refine and_congr_right fun hnil => ?_
  rw [hnil]
  rfl

theorem check_eq_emptyResult_iff :
    c.check limit = .error (Fault.emptyResult.at position) ↔ c.program = [] ∧ position = 1 := by
  rw [← Except.map_eq_error_iff (f := Profile.finalDepth), check_eq_eval, valuesAfter,
    List.take_length]
  -- counting the values that are left keeps the failure when there are none
  have hmap (values : List Int64) :
      (topValue (c.program.length + 1) values).map (fun _ => values.length) =
          .error (Fault.emptyResult.at position) ↔
        topValue (c.program.length + 1) values = .error (Fault.emptyResult.at position) :=
    Except.map_eq_error_iff
  simp only [Except.bind_eq_error_iff, hmap]
  rw [← Except.bind_eq_error_iff, Program.topValue_eval_eq_emptyResult_iff]
  refine and_congr_right fun hnil => ?_
  rw [hnil]
  rfl

end Code

/-! ### Machines -/

namespace Machine

variable {c : Code} {limit : Option Nat} {m : Machine}

/-- **The stack of a machine is empty iff no instruction has been executed.** -/
theorem Reached.items_eq_nil_iff (h : Reached c limit m) :
    m.stack.items = [] ↔ m.position = 1 := by
  obtain ⟨k, hk, hposition, -, hvalues⟩ := h.executed
  rw [hposition, Nat.add_eq_right]
  constructor
  · intro hnil
    by_contra hne
    have htake : c.program.take k ≠ [] := by
      rw [← List.length_pos_iff, List.length_take_of_le hk]
      exact Nat.pos_of_ne_zero hne
    exact Program.ne_nil_of_eval_eq_ok hvalues (.inl htake) hnil
  · rintro rfl
    exact (Except.ok.inj hvalues).symm

theorem Reached.eq_start_iff (h : Reached c limit m) (hfailure : m.failure? = none) :
    m = start c limit ↔ m.position = 1 := by
  constructor
  · rintro rfl
    rfl
  · intro hone
    obtain ⟨k, -, hposition, hpending, -⟩ := h.executed
    obtain rfl : k = 0 := Nat.succ.inj (hposition.symm.trans hone)
    have hstack : m.stack = .empty (limit.getD unlimitedDepth) :=
      Stack.ext (h.items_eq_nil_iff.2 hone) h.maxSize_eq
    obtain ⟨modulus, table, pending, position, stack, failure?⟩ := m
    obtain rfl : modulus = c.modulus := h.modulus_eq
    obtain rfl : table = c.table := h.table_eq
    obtain rfl : pending = c.program := hpending
    obtain rfl : position = 1 := hone
    obtain rfl : stack = .empty (limit.getD unlimitedDepth) := hstack
    obtain rfl : failure? = none := hfailure
    rfl

theorem Reached.result_eq_emptyResult_iff (h : Reached c limit m) (hfailure : m.failure? = none)
    {position : Nat} :
    m.result = .error (Fault.emptyResult.at position) ↔ m.position = 1 ∧ position = 1 := by
  rw [← h.items_eq_nil_iff]
  unfold result Stack.top?
  rw [hfailure]
  by_cases hnil : m.stack.items = []
  · have hposition := h.items_eq_nil_iff.1 hnil
    simp [hnil, hposition, Fault.at, eq_comm]
  · obtain ⟨value, rest, hitems⟩ := List.exists_cons_of_ne_nil hnil
    simp [hitems]

theorem length_pending_le (m : Machine) : m.pending.length ≤ m.advance.pending.length + 1 := by
  unfold advance
  rcases m.step_cases with ⟨failure, -, hstep⟩ | ⟨-, -, hstep⟩ |
    ⟨i, rest, stack, -, hpending, hstep⟩ | ⟨i, rest, fault, stack, -, -, hstep⟩
  · simp only [hstep, Nat.le_succ]
  · simp only [hstep, Nat.le_succ]
  · simp only [hstep, hpending, List.length_cons, Nat.le_refl]
  · simp only [hstep, Nat.le_succ]

theorem step_of_run_eq_ok {value : Int64} (h : m.run.1 = .ok value) {k : Nat}
    (hk : k < m.pending.length) : (m.advanceBy k).step.1 = .ok true := by
  induction k generalizing m with
  | zero =>
    rw [run_eq_step] at h
    rcases m.step_cases with ⟨failure, -, hstep⟩ | ⟨-, hpending, -⟩ |
      ⟨i, rest, stack, -, -, hstep⟩ | ⟨i, rest, fault, stack, -, -, hstep⟩
    · rw [hstep] at h
      cases h
    · rw [hpending] at hk
      cases hk
    · exact congrArg Prod.fst hstep
    · rw [hstep] at h
      cases h
  | succ k ih =>
    have hrest : k < m.advance.pending.length := by
      have := m.length_pending_le
      omega
    exact ih (by rw [run_advance, h]) hrest

theorem failure?_advanceBy_of_steps {n : Nat} (hfailure : m.failure? = none)
    (h : ∀ k < n, (m.advanceBy k).step.1 = .ok true) : (m.advanceBy n).failure? = none := by
  induction n generalizing m with
  | zero => exact hfailure
  | succ n ih =>
    have hfirst : m.step.1 = .ok true := h 0 (Nat.succ_pos n)
    have hadvance : m.advance.failure? = none := by
      rcases m.step_cases with ⟨failure, -, hstep⟩ | ⟨-, -, hstep⟩ |
        ⟨i, rest, stack, -, -, hstep⟩ | ⟨i, rest, fault, stack, -, -, hstep⟩
      · rw [hstep] at hfirst
        cases hfirst
      · rw [advance, hstep]
        exact hfailure
      · rw [advance, hstep]
        exact hfailure
      · rw [hstep] at hfirst
        cases hfirst
    exact ih hadvance fun k hk => h (k + 1) (Nat.succ_lt_succ hk)

end Machine

/-! ### Codes -/

namespace Code

variable {c : Code} {limit : Option Nat}

/-- **A program yields a value iff it has instructions and all of them can be executed.** -/
theorem exists_run_eq_ok_iff :
    (∃ value, c.run limit = .ok value) ↔
      c.program ≠ [] ∧
        ∀ k < c.program.length, ((Machine.start c limit).advanceBy k).step.1 = .ok true := by
  constructor
  · rintro ⟨value, hrun⟩
    refine ⟨fun hnil => ?_, fun k hk => Machine.step_of_run_eq_ok hrun hk⟩
    rw [run_eq_emptyResult_iff.2 ⟨hnil, rfl⟩] at hrun
    cases hrun
  · rintro ⟨hne, hsteps⟩
    -- all steps have succeeded, so the result can only be empty, which it is for no such program
    have hfailure := Machine.failure?_advanceBy_of_steps (m := Machine.start c limit) rfl hsteps
    have hrun : c.run limit = ((Machine.start c limit).advanceBy c.program.length).result := rfl
    unfold Machine.result at hrun
    rw [hfailure] at hrun
    cases htop : ((Machine.start c limit).advanceBy c.program.length).stack.top? with
    | some value =>
      rw [htop] at hrun
      exact ⟨value, hrun⟩
    | none =>
      rw [htop] at hrun
      exact absurd (run_eq_emptyResult_iff.1 hrun).1 hne

/-- **Only a program without instructions has an empty result.**  A run or a check gives it for the
empty program alone, at position `1`.  After any calls on a machine its stack is empty iff no
instruction has been executed, and while it has not failed, it is then as it was started, and only
then has an empty result.  Hence a program with instructions, all of which can be executed, has a
value. -/
theorem emptyResult_iff_no_instructions (c : Code) (limit : Option Nat) :
    (∀ position, c.run limit = .error (Fault.emptyResult.at position) ↔
        c.program = [] ∧ position = 1) ∧
      (∀ position, c.check limit = .error (Fault.emptyResult.at position) ↔
        c.program = [] ∧ position = 1) ∧
      (∀ calls, let m := (Machine.start c limit).after calls
        (m.stack.items = [] ↔ m.position = 1) ∧
          (m.failure? = none →
            (m.position = 1 ↔ m = Machine.start c limit) ∧
              ∀ position, m.result = .error (Fault.emptyResult.at position) ↔
                m.position = 1 ∧ position = 1)) ∧
      ((∃ value, c.run limit = .ok value) ↔
        c.program ≠ [] ∧
          ∀ k < c.program.length, ((Machine.start c limit).advanceBy k).step.1 = .ok true) := by
  refine ⟨fun position => run_eq_emptyResult_iff, fun position => check_eq_emptyResult_iff,
    fun calls => ?_, exists_run_eq_ok_iff⟩
  intro m
  have hreached : Machine.Reached c limit m := Machine.reached_after c limit calls
  exact ⟨hreached.items_eq_nil_iff, fun hfailure => ⟨(hreached.eq_start_iff hfailure).symm,
    fun position => hreached.result_eq_emptyResult_iff hfailure⟩⟩

end Code

end ResidueMachine
