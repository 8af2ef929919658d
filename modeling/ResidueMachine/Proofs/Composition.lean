import ResidueMachine.Proofs.Except
import ResidueMachine.Proofs.Histories

/-!
# Programs one after the other

When a program is followed by another, the second finds the values that the first has left.  It
does not find out how many instructions have been executed: these only show in the position of a
failure.  So the run of the two is what the second gives on those values, with failures moved back
by the length of the first.

* `Program.resultOn` : what a program gives on values that it finds;
* `Program.resultOn_append` : what two programs give one after the other;
* `Code.Fails` : an instruction of a code fails;
* `Code.run_append_of_eval_eq_ok`, `Code.run_append_of_eval_eq_error` : the run of two programs one
  after the other, when the first executes and when it fails;
* `Code.run_part_interchange`, `Code.run_eq_ok_of_part` : parts of a program that leave the same
  values are interchangeable.
-/

namespace ResidueMachine

/-- The failure, met a number of instructions later. -/
def Failure.later (failure : Failure) (n : Nat) : Failure :=
  ⟨failure.fault, failure.position + n⟩

/-! ### Evaluation -/

theorem topValue_add (position n : Nat) (values : List Int64) :
    topValue (position + n) values = (topValue position values).mapError (·.later n) := by
  cases values <;> rfl

namespace Program

variable {m : Modulus} {t : Table} {limit : Option Nat} {position : Nat} {values : List Int64}

/-- **Evaluation does not depend on where a program stands**, but for the positions of failures. -/
theorem eval_add_position (p : Program) (n : Nat) :
    p.eval m t limit (position + n) values =
      (p.eval m t limit position values).mapError (·.later n) := by
  induction p generalizing position values with
  | nil => rfl
  | cons i rest ih =>
    simp only [eval]
    cases i.eval m t limit values with
    | ok values' =>
      simp only
      rw [Nat.add_right_comm, ih]
    | error fault => rfl

theorem eval_append_of_eval_eq_ok {p q : Program} (hq : q.eval m t limit position [] = .ok values) :
    (q ++ p).eval m t limit position [] = p.eval m t limit (position + q.length) values := by
  rw [eval_append, hq]
  rfl

/-- What a program gives that finds values on the stack. -/
def resultOn (m : Modulus) (t : Table) (limit : Option Nat) (p : Program) (values : List Int64) :
    Except Failure Int64 :=
  (p.eval m t limit 1 values).bind (topValue (p.length + 1))

/-- **What two programs give one after the other**: a failure of the first, or what the second gives
on the values that the first leaves. -/
theorem resultOn_append (p q : Program) :
    (q ++ p).resultOn m t limit values =
      (q.eval m t limit 1 values).bind fun mid =>
        (p.resultOn m t limit mid).mapError (·.later q.length) := by
  have hend : (q ++ p).length + 1 = p.length + 1 + q.length := by
    rw [List.length_append]
    omega
  rw [resultOn, eval_append, hend]
  cases q.eval m t limit 1 values with
  | error failure => rfl
  | ok mid =>
    simp only [resultOn, Except.bind]
    rw [eval_add_position]
    cases p.eval m t limit 1 mid with
    | error failure => rfl
    | ok values' => exact topValue_add _ _ values'

theorem resultOn_cases (p : Program) (hne : values ≠ []) :
    (∃ value, p.resultOn m t limit values = .ok value) ∨
      ∃ fault : Fault, ∃ k < p.length,
        p.resultOn m t limit values = .error (fault.at (k + 1)) := by
  unfold resultOn
  cases h : p.eval m t limit 1 values with
  | error failure =>
    obtain ⟨k, i, -, fault, hi, -, -, rfl⟩ := eval_eq_error_iff.1 h
    obtain ⟨hk, -⟩ := List.getElem?_eq_some_iff.1 hi
    exact .inr ⟨fault, k, hk, by rw [Nat.add_comm 1]; rfl⟩
  | ok values' =>
    obtain ⟨value, rest, rfl⟩ :=
      List.exists_cons_of_ne_nil (ne_nil_of_eval_eq_ok h (.inr hne))
    exact .inl ⟨value, rfl⟩

end Program

/-! ### Runs -/

namespace Code

variable {c : Code} {m : Modulus} {t : Table} {limit : Option Nat} {p q : Program}
  {values : List Int64} {failure : Failure}

/-- An instruction fails in the run of a code from the empty stack. -/
def Fails (c : Code) (limit : Option Nat) (failure : Failure) : Prop :=
  ∃ k, ((Machine.start c limit).advanceBy k).step.1 = .error failure

theorem valuesAfter_length :
    c.valuesAfter limit c.program.length = c.program.eval c.modulus c.table limit 1 [] := by
  rw [valuesAfter, List.take_length]

theorem completes_length_iff (h : c.program.length < UInt64.size) :
    c.Completes limit c.program.length values ↔
      c.program.eval c.modulus c.table limit 1 [] = .ok values := by
  rw [completes_iff h, valuesAfter_length, and_iff_right (Nat.le_refl _)]

/-- **An instruction of a code fails if its evaluation does.** -/
theorem fails_iff (h : c.program.length < UInt64.size) :
    c.Fails limit failure ↔ c.program.eval c.modulus c.table limit 1 [] = .error failure := by
  -- a machine always has a limit, which is out of reach if it was given none
  rw [← valuesAfter_length, ← valuesAfter_getD h, valuesAfter_length, Program.eval_eq_error_iff]
  constructor
  · rintro ⟨k, hstep⟩
    have hreached := (Machine.reached_start c limit).advanceBy k
    obtain ⟨-, i, rest, fault, hpending, hfault, rfl⟩ := hreached.step_eq_error hstep
    obtain ⟨j, -, hposition, hdrop, hvalues⟩ := hreached.executed
    rw [hpending, eq_comm] at hdrop
    have hi : c.program[j]? = some i := by
      rw [← List.head?_drop, hdrop]
      rfl
    exact ⟨j, i, _, fault, hi, hvalues, hfault, by rw [hposition, Nat.add_comm]⟩
  · rintro ⟨k, i, values, fault, hi, hvalues, hfault, rfl⟩
    obtain ⟨hk, hget⟩ := List.getElem?_eq_some_iff.1 hi
    obtain ⟨hposition, hitems⟩ := completes_of_valuesAfter (Nat.le_of_lt hk) hvalues
    have hreached := (Machine.reached_start c limit).advanceBy k
    refine ⟨k, ?_⟩
    generalize (Machine.start c limit).advanceBy k = machine at hposition hitems hreached
    obtain ⟨j, -, hposition', hpending, -⟩ := hreached.executed
    obtain rfl : j = k := Nat.succ.inj (hposition'.symm.trans hposition)
    rw [List.drop_eq_getElem_cons hk, hget] at hpending
    rw [hreached.step_fst_eq_eval hpending, hitems, hfault, hposition, Nat.add_comm]

/-- A run is what the program gives on the empty stack, under the limit that every machine has. -/
theorem run_eq_resultOn_getD (c : Code) (limit : Option Nat) :
    c.run limit = c.program.resultOn c.modulus c.table (some (limit.getD unlimitedDepth)) [] := by
  rw [run, Machine.run_eq_eval (Machine.bounded_start c limit) rfl, Program.resultOn, Nat.add_comm]
  rfl

theorem run_eq_resultOn (h : c.program.length < UInt64.size) :
    c.run limit = c.program.resultOn c.modulus c.table limit [] := by
  rw [run_eq_eval c limit h, valuesAfter_length, Program.resultOn]

/-- **After a program that is executed, the next one runs on the values that are left.** -/
theorem run_append_of_eval_eq_ok (h : (q ++ p).length < UInt64.size)
    (hq : q.eval m t limit 1 [] = .ok values) :
    (Code.mk m t (q ++ p)).run limit =
      (p.resultOn m t limit values).mapError (·.later q.length) := by
  rw [run_eq_resultOn h, Program.resultOn_append, hq]
  rfl

/-- **A program that fails makes no use of what follows it.** -/
theorem run_append_of_eval_eq_error (h : (q ++ p).length < UInt64.size)
    (hq : q.eval m t limit 1 [] = .error failure) :
    (Code.mk m t (q ++ p)).run limit = .error failure := by
  rw [run_eq_resultOn h, Program.resultOn_append, hq]
  rfl

theorem completes_append (h : (q ++ p).length < UInt64.size)
    (hq : q.eval m t limit 1 [] = .ok values) :
    (Code.mk m t (q ++ p)).Completes limit q.length values := by
  rw [completes_iff h, valuesAfter, List.take_left]
  exact ⟨by simp, hq⟩

/-! ### A part of a program -/

section Part

variable {pre u v suf : Program} {after : List Int64} {value : Int64}

theorem eval_part (hpre : pre.eval m t limit 1 [] = .ok values) :
    (pre ++ u).eval m t limit 1 [] = u.eval m t limit (pre.length + 1) values := by
  rw [Program.eval_append_of_eval_eq_ok hpre, Nat.add_comm]

theorem run_of_eval_eq_error (h : (pre ++ u ++ suf).length < UInt64.size)
    (hpre : pre.eval m t limit 1 [] = .error failure) :
    (Code.mk m t (pre ++ u ++ suf)).run limit = .error failure := by
  rw [List.append_assoc] at h ⊢
  exact run_append_of_eval_eq_error h hpre

theorem run_of_eval_part_eq_error (h : (pre ++ u ++ suf).length < UInt64.size)
    (hpre : pre.eval m t limit 1 [] = .ok values)
    (hu : u.eval m t limit (pre.length + 1) values = .error failure) :
    (Code.mk m t (pre ++ u ++ suf)).run limit = .error failure :=
  run_append_of_eval_eq_error h ((eval_part hpre).trans hu)

theorem completes_part (h : (pre ++ u ++ suf).length < UInt64.size)
    (hpre : pre.eval m t limit 1 [] = .ok values)
    (hu : u.eval m t limit (pre.length + 1) values = .ok after) :
    (Code.mk m t (pre ++ u ++ suf)).Completes limit (pre.length + u.length) after := by
  rw [← List.length_append]
  exact completes_append h ((eval_part hpre).trans hu)

/-- **Parts that leave the same values are interchangeable.**  Both runs give the same value, or
both meet the same fault at the same instruction behind the part. -/
theorem run_part_interchange (hu : (pre ++ u ++ suf).length < UInt64.size)
    (hv : (pre ++ v ++ suf).length < UInt64.size)
    (hpre : pre.eval m t limit 1 [] = .ok values) (hne : after ≠ [])
    (huafter : u.eval m t limit (pre.length + 1) values = .ok after)
    (hvafter : v.eval m t limit (pre.length + 1) values = .ok after) :
    (∃ value, (Code.mk m t (pre ++ u ++ suf)).run limit = .ok value ∧
        (Code.mk m t (pre ++ v ++ suf)).run limit = .ok value) ∨
      ∃ fault : Fault, ∃ k < suf.length,
        (Code.mk m t (pre ++ u ++ suf)).run limit =
            .error (fault.at (pre.length + u.length + k + 1)) ∧
          (Code.mk m t (pre ++ v ++ suf)).run limit =
            .error (fault.at (pre.length + v.length + k + 1)) := by
  rw [run_append_of_eval_eq_ok hu ((eval_part hpre).trans huafter),
    run_append_of_eval_eq_ok hv ((eval_part hpre).trans hvafter), List.length_append,
    List.length_append]
  rcases suf.resultOn_cases hne with ⟨value, hvalue⟩ | ⟨fault, k, hk, hfault⟩
  · rw [hvalue]
    exact .inl ⟨value, rfl, rfl⟩
  · rw [hfault]
    refine .inr ⟨fault, k, hk, ?_, ?_⟩
    · rw [Nat.add_assoc, Nat.add_comm (pre.length + u.length)]
      rfl
    · rw [Nat.add_assoc, Nat.add_comm (pre.length + v.length)]
      rfl

/-- A part that leaves what another part leaves, whenever that one leaves anything, can take its
place in every run that gives a value. -/
theorem run_eq_ok_of_part (hu : (pre ++ u ++ suf).length < UInt64.size)
    (hv : (pre ++ v ++ suf).length < UInt64.size)
    (hafter : ∀ values after, v.eval m t limit (pre.length + 1) values = .ok after →
      u.eval m t limit (pre.length + 1) values = .ok after)
    (hrun : (Code.mk m t (pre ++ v ++ suf)).run limit = .ok value) :
    (Code.mk m t (pre ++ u ++ suf)).run limit = .ok value := by
  cases hpre : pre.eval m t limit 1 [] with
  | error failure =>
    rw [run_of_eval_eq_error hv hpre] at hrun
    cases hrun
  | ok values =>
    cases hvafter : v.eval m t limit (pre.length + 1) values with
    | error failure =>
      rw [run_of_eval_part_eq_error hv hpre hvafter] at hrun
      cases hrun
    | ok after =>
      have huafter := hafter values after hvafter
      rw [run_append_of_eval_eq_ok hv ((eval_part hpre).trans hvafter),
        Except.mapError_eq_ok_iff] at hrun
      rw [run_append_of_eval_eq_ok hu ((eval_part hpre).trans huafter), hrun]
      rfl

end Part

end Code

end ResidueMachine
