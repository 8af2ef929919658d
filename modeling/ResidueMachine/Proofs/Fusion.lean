import ResidueMachine.Proofs.Checking
import ResidueMachine.Proofs.Composition

/-!
# Loads that are fused with a combination

A load and the combination that follows it take one value from the stack and leave one, the
combination of the word loaded with the value taken.  An indexed combination does the same at once.
So the two can take each other's place in every program, but for three things: the load needs room
for one more value, there is one instruction more, and a stack that is empty is noticed by the
indexed combination itself, and otherwise by the combination after the load.

* `Program.eval_fused_of_split` : under every limit, what a load and a combination leave is left by
  the indexed combination;
* `Code.load_combine2_fuses` : the runs of the two programs.
-/

namespace ResidueMachine

/-! ### Evaluation -/

namespace Program

variable {m : Modulus} {t : Table} {limit : Option Nat} {index a b c x y : Int64} {position : Nat}
  {values after rest : List Int64}

theorem eval_split (hx : t.get? index = some x) :
    Program.eval m t none [.load index, .combine2 a b c] position (y :: rest) =
      .ok (m.combine a x b y c :: rest) :=
  eval_cons_eq_ok_iff.2 ⟨x :: y :: rest,
    Instruction.eval_load_eq_ok_iff.2 ⟨x, hx, by simp, rfl⟩, rfl⟩

/-- **What a load and a combination leave is left by the indexed combination.**  The value that the
combination finds below the word loaded is the one that the indexed combination takes. -/
theorem eval_fused_of_split
    (h : Program.eval m t limit [.load index, .combine2 a b c] position values = .ok after) :
    Program.eval m t limit [.combineIndexed index a b c] position values = .ok after := by
  obtain ⟨mid, hload, hrest⟩ := eval_cons_eq_ok_iff.1 h
  obtain ⟨last, hcombine, hnil⟩ := eval_cons_eq_ok_iff.1 hrest
  obtain ⟨word, hword, -, rfl⟩ := Instruction.eval_load_eq_ok_iff.1 hload
  obtain ⟨x, y, rest, hvalues, rfl⟩ := Instruction.eval_combine2_eq_ok_iff.1 hcombine
  cases hvalues
  exact eval_cons_eq_ok_iff.2
    ⟨_, Instruction.eval_combineIndexed_eq_ok_iff.2 ⟨word, y, rest, hword, rfl, rfl⟩, hnil⟩

theorem eval_fused_of_get?_eq_none (hnone : t.get? index = none) :
    Program.eval m t none [.combineIndexed index a b c] position (y :: rest) =
      .error ((Fault.indexOutOfRange index t.size).at position) := by
  simp only [eval, Instruction.eval, hnone]

theorem eval_split_of_get?_eq_none (hnone : t.get? index = none) :
    Program.eval m t none [.load index, .combine2 a b c] position values =
      .error ((Fault.indexOutOfRange index t.size).at position) := by
  simp only [eval, Instruction.eval, hnone]

theorem eval_split_nil (hx : t.get? index = some x) :
    Program.eval m t none [.load index, .combine2 a b c] position [] =
      .error ((Fault.emptyPop 2 1).at (position + 1)) := by
  simp only [eval, Instruction.eval, hx, Option.filter_none, List.length_singleton]

end Program

/-! ### Runs -/

namespace Code

/-- **A load and a combination fuse to an indexed combination.**  If an instruction in front of them
fails, then both programs fail alike.  If there is a value to take, then a bad index fails both
alike, and with a good one both leave the same stack and go on alike, one position apart.  If there
is none, both fail: the one at once, the other at the load or after it.  Under each limit, the
indexed combination succeeds whenever the load and the combination do. -/
theorem load_combine2_fuses (m : Modulus) (t : Table) (pre suf : Program) (index a b c : Int64)
    (h : (pre ++ [Instruction.load index, .combine2 a b c] ++ suf).length < UInt64.size) :
    let fused : Code := ⟨m, t, pre ++ [.combineIndexed index a b c] ++ suf⟩
    let split : Code := ⟨m, t, pre ++ [.load index, .combine2 a b c] ++ suf⟩
    let position := pre.length + 1
    (∀ failure, (Code.mk m t pre).Fails none failure →
        fused.run none = .error failure ∧ split.run none = .error failure) ∧
      (∀ values, (Code.mk m t pre).Completes none pre.length values → values ≠ [] →
        (¬ InTable t.size index →
          fused.run none = .error ((Fault.indexOutOfRange index t.size).at position) ∧
            split.run none = .error ((Fault.indexOutOfRange index t.size).at position)) ∧
          (InTable t.size index →
            (∃ after, fused.Completes none position after ∧
                split.Completes none (position + 1) after) ∧
              ((∃ value, fused.run none = .ok value ∧ split.run none = .ok value) ∨
                ∃ fault : Fault, ∃ k < suf.length,
                  fused.run none = .error (fault.at (position + k + 1)) ∧
                    split.run none = .error (fault.at (position + k + 1 + 1))))) ∧
      ((Code.mk m t pre).Completes none pre.length [] →
        fused.run none = .error ((Fault.emptyPop 1 0).at position) ∧
          (¬ InTable t.size index →
            split.run none = .error ((Fault.indexOutOfRange index t.size).at position)) ∧
          (InTable t.size index →
            split.run none = .error ((Fault.emptyPop 2 1).at (position + 1)))) ∧
      ∀ limit value, split.run limit = .ok value → fused.run limit = .ok value := by
  intro fused split position
  have hfused : (pre ++ [Instruction.combineIndexed index a b c] ++ suf).length < UInt64.size := by
    simp only [List.length_append, List.length_cons, List.length_nil] at h ⊢
    omega
  have hpre : (Code.mk m t pre).program.length < UInt64.size := by
    simp only [List.length_append] at h ⊢
    omega
  refine ⟨fun failure hfails => ?_, fun values hvalues hne => ?_, fun hempty => ?_,
    fun limit value hrun => ?_⟩
  · -- an instruction in front of them fails
    have hfailure := (fails_iff hpre).1 hfails
    exact ⟨run_of_eval_eq_error hfused hfailure, run_of_eval_eq_error h hfailure⟩
  · -- there is a value to take
    have hleft := (completes_length_iff hpre).1 hvalues
    obtain ⟨y, rest, rfl⟩ := List.exists_cons_of_ne_nil hne
    refine ⟨fun hout => ?_, fun hin => ?_⟩
    · have hnone := Table.get?_eq_none_iff_not_inTable.2 hout
      exact ⟨run_of_eval_part_eq_error hfused hleft (Program.eval_fused_of_get?_eq_none hnone),
        run_of_eval_part_eq_error h hleft (Program.eval_split_of_get?_eq_none hnone)⟩
    · obtain ⟨x, hx⟩ := Table.exists_get?_of_inTable hin
      have hsplit : Program.eval m t none [.load index, .combine2 a b c] position (y :: rest) =
          .ok (m.combine a x b y c :: rest) :=
        Program.eval_split hx
      have hfuse := Program.eval_fused_of_split hsplit
      refine ⟨⟨_, completes_part hfused hleft hfuse, completes_part h hleft hsplit⟩, ?_⟩
      rcases run_part_interchange hfused h hleft (List.cons_ne_nil _ _) hfuse hsplit with
        hvalue | ⟨fault, k, hk, hfusedRun, hsplitRun⟩
      · exact .inl hvalue
      · refine .inr ⟨fault, k, hk, hfusedRun, ?_⟩
        have hlater : pre.length + 2 + k + 1 = position + k + 1 + 1 := by omega
        rw [← hlater]
        exact hsplitRun
  · -- there is none
    have hleft := (completes_length_iff hpre).1 hempty
    refine ⟨run_of_eval_part_eq_error hfused hleft rfl, fun hout => ?_, fun hin => ?_⟩
    · have hnone := Table.get?_eq_none_iff_not_inTable.2 hout
      exact run_of_eval_part_eq_error h hleft (Program.eval_split_of_get?_eq_none hnone)
    · obtain ⟨x, hx⟩ := Table.exists_get?_of_inTable hin
      exact run_of_eval_part_eq_error h hleft (Program.eval_split_nil hx)
  · exact run_eq_ok_of_part hfused h (fun _ _ => Program.eval_fused_of_split) hrun

/-- After a load there is a value to take, in front of the first instruction there is none, and an
exchange in front of it fails. -/
theorem load_combine2_fuses_of_loads :
    let m : Modulus := ⟨7, by decide⟩
    let t : Table := ⟨#[3, -4]⟩
    let fused : Code := ⟨m, t, [.load 1, .combineIndexed 2 2 3 1, .load 3]⟩
    let split : Code := ⟨m, t, [.load 1, .load 2, .combine2 2 3 1, .load 3]⟩
    split.program.length < UInt64.size ∧ InTable 2 2 ∧ ¬ InTable 2 3 ∧
      (Code.mk m t [.load 1]).Completes none 1 [3] ∧
      (∃ after, fused.Completes none 2 after ∧ split.Completes none 3 after) ∧
      (∃ fault : Fault, fused.run none = .error (fault.at 3) ∧
        split.run none = .error (fault.at 4)) ∧
      (Code.mk m t [.load 1, .combineIndexed 3 2 3 1]).run none =
        .error ((Fault.indexOutOfRange 3 2).at 2) ∧
      (Code.mk m t [.combineIndexed 2 2 3 1]).run none = .error ((Fault.emptyPop 1 0).at 1) ∧
      (Code.mk m t [.load 2, .combine2 2 3 1]).run none = .error ((Fault.emptyPop 2 1).at 2) ∧
      (Code.mk m t [.swap]).Fails none ((Fault.emptyPop 2 0).at 1) ∧
      (Code.mk m t [.swap, .combineIndexed 2 2 3 1]).run none =
        .error ((Fault.emptyPop 2 0).at 1) ∧
      (Code.mk m t [.load 1, .load 2, .combine2 2 3 1]).run (some 2) =
        .ok (m.combine 2 (-4) 3 3 1) ∧
      (Code.mk m t [.load 1, .combineIndexed 2 2 3 1]).run (some 2) =
        .ok (m.combine 2 (-4) 3 3 1) := by
  intro m t fused split
  have hin : InTable 2 2 := by decide
  have hout : ¬ InTable 2 3 := by decide
  have hload : (Code.mk m t [.load 1]).Completes none 1 [3] := ⟨rfl, rfl⟩
  have hnone : (Code.mk m t []).Completes none 0 [] := ⟨rfl, rfl⟩
  have hswap : (Code.mk m t [.swap]).Fails none ((Fault.emptyPop 2 0).at 1) := ⟨0, rfl⟩
  have hlimit : (Code.mk m t [.load 1, .load 2, .combine2 2 3 1]).run (some 2) =
      .ok (m.combine 2 (-4) 3 3 1) := by rfl
  obtain ⟨-, hgood, -, -⟩ := load_combine2_fuses m t [.load 1] [.load 3] 2 2 3 1 (by decide)
  obtain ⟨hafter, hruns⟩ := (hgood _ hload (List.cons_ne_nil _ _)).2 hin
  obtain ⟨-, hbad, -, -⟩ := load_combine2_fuses m t [.load 1] [] 3 2 3 1 (by decide)
  obtain ⟨-, -, hempty, -⟩ := load_combine2_fuses m t [] [] 2 2 3 1 (by decide)
  obtain ⟨hfails, -, -, -⟩ := load_combine2_fuses m t [.swap] [] 2 2 3 1 (by decide)
  obtain ⟨-, -, -, hvalue⟩ := load_combine2_fuses m t [.load 1] [] 2 2 3 1 (by decide)
  refine ⟨by decide, hin, hout, hload, hafter, ?_,
    ((hbad _ hload (List.cons_ne_nil _ _)).1 hout).1, (hempty hnone).1, (hempty hnone).2.2 hin,
    hswap, (hfails _ hswap).1, hlimit, hvalue _ _ hlimit⟩
  rcases hruns with ⟨value, hrun, -⟩ | ⟨fault, k, hk, hfused, hsplit⟩
  · cases hrun
  · obtain rfl : k = 0 := Nat.lt_one_iff.1 hk
    exact ⟨fault, hfused, hsplit⟩

end Code

end ResidueMachine
