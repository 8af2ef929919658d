import Mathlib.Data.Nat.Find
import ResidueMachine.Proofs.Checking
import ResidueMachine.Proofs.Histories

/-!
# Limits cut runs off

A limit for the depth of the stack has no effect on a run until an instruction would leave more
values than it allows.  That instruction is a load, and there the run overflows.

* `Instruction.eval_some_of_length_le`, `Instruction.eval_some_of_lt_length` : an instruction under
  a limit, according to the depth that it leaves without one;
* `Code.ExceedsFirstAt` : the first instruction that leaves a run without a limit too deep;
* `Code.maxDepth_le_iff` : the deepest depth of the checker is the least limit that is never
  exceeded;
* `Code.limit_cuts_off` : what a run under a limit gives, from the run without one.
-/

namespace ResidueMachine

/-! ### One instruction -/

namespace Instruction

variable {m : Modulus} {t : Table} {i : Instruction} {bound : Nat} {values values' : List Int64}

theorem eval_some_of_eval_eq_error {fault : Fault} (h : i.eval m t none values = .error fault) :
    i.eval m t (some bound) values = .error fault := by
  cases i with
  | load index =>
    simp only [eval, Option.filter_none] at h ⊢
    cases hword : t.get? index with
    | none => rwa [hword] at h
    | some word =>
      rw [hword] at h
      cases h
  | swap => exact h
  | combine2 a b c => exact h
  | combineIndexed index a b c => exact h

theorem eval_some_of_length_le (h : i.eval m t none values = .ok values')
    (hle : values'.length ≤ bound) : i.eval m t (some bound) values = .ok values' := by
  cases i with
  | load index =>
    obtain ⟨word, hword, -, rfl⟩ := eval_load_eq_ok_iff.1 h
    refine eval_load_eq_ok_iff.2 ⟨word, hword, fun bound' hmem => ?_, rfl⟩
    cases hmem
    exact hle
  | swap => exact h
  | combine2 a b c => exact h
  | combineIndexed index a b c => exact h

theorem eval_some_of_lt_length (hfits : values.length ≤ bound)
    (h : i.eval m t none values = .ok values') (hlt : bound < values'.length) :
    (∃ index, i = load index) ∧ i.eval m t (some bound) values = .error (.overflow bound) := by
  obtain ⟨hpops, hlength⟩ := length_of_eval_eq_ok h
  cases i with
  | load index =>
    obtain ⟨word, hword, -, rfl⟩ := eval_load_eq_ok_iff.1 h
    have hfilter : (some bound).filter (· ≤ values.length) = some bound := by
      rw [Option.filter_eq_some_iff, decide_eq_true_eq]
      exact ⟨rfl, Nat.le_of_lt_succ hlt⟩
    exact ⟨⟨index, rfl⟩, by simp only [eval, hword, hfilter]⟩
  -- the others leave no more values than they find
  | swap => simp only [effect] at hpops hlength; omega
  | combine2 a b c => simp only [effect] at hpops hlength; omega
  | combineIndexed index a b c => simp only [effect] at hpops hlength; omega

end Instruction

/-! ### Runs -/

namespace Code

/-- In the run without a limit, the instruction at a position is the first that leaves more than
`bound` values on the stack. -/
def ExceedsFirstAt (c : Code) (bound position : Nat) : Prop :=
  (∃ values, c.Completes none position values ∧ bound < values.length) ∧
    ∀ earlier < position, ∀ values, c.Completes none earlier values → values.length ≤ bound

/-- The run without a limit never has more than `bound` values on the stack. -/
def StaysWithin (c : Code) (bound : Nat) : Prop :=
  ∀ position values, c.Completes none position values → values.length ≤ bound

variable {c : Code} {bound k : Nat}

theorem exists_exceedsFirstAt (h : ¬ c.StaysWithin bound) :
    ∃ position, c.ExceedsFirstAt bound position := by
  classical
  simp only [StaysWithin, not_forall, Nat.not_le] at h
  have hexceeds : ∃ position values, c.Completes none position values ∧ bound < values.length := by
    obtain ⟨position, values, hvalues, hlt⟩ := h
    exact ⟨position, values, hvalues, hlt⟩
  refine ⟨Nat.find hexceeds, Nat.find_spec hexceeds, fun earlier hlt values hvalues => ?_⟩
  exact Nat.le_of_not_lt fun hdeep => Nat.find_min hexceeds hlt ⟨values, hvalues, hdeep⟩

theorem valuesAfter_some_of_le (hk : k ≤ c.program.length)
    (hle : ∀ j ≤ k, ∀ values, c.valuesAfter none j = .ok values → values.length ≤ bound) :
    c.valuesAfter (some bound) k = c.valuesAfter none k := by
  induction k with
  | zero => rfl
  | succ k ih =>
    have hi : c.program[k]? = some c.program[k] := List.getElem?_eq_getElem hk
    have hbefore := ih (Nat.le_of_succ_le hk) fun j hj => hle j (Nat.le_succ_of_le hj)
    rw [valuesAfter_succ hi, valuesAfter_succ hi, hbefore]
    cases hvalues : c.valuesAfter none k with
    | error failure => rfl
    | ok values =>
      simp only [Except.bind]
      cases heval : c.program[k].eval c.modulus c.table none values with
      | error fault => rw [Instruction.eval_some_of_eval_eq_error heval]
      | ok values' =>
        have hafter := (valuesAfter_succ_eq_ok_iff hi).2 ⟨values, hvalues, heval⟩
        rw [Instruction.eval_some_of_length_le heval (hle _ (Nat.le_refl _) _ hafter)]

/-- **A limit that is never exceeded makes no difference.** -/
theorem run_some_of_staysWithin (h : c.program.length < UInt64.size)
    (hwithin : c.StaysWithin bound) : c.run (some bound) = c.run none := by
  rw [run_eq_eval c (some bound) h, run_eq_eval c none h,
    valuesAfter_some_of_le (Nat.le_refl _) fun j hj values hvalues =>
      hwithin j values ((completes_iff h).2 ⟨hj, hvalues⟩)]

/-- **A run overflows at the first instruction that exceeds the limit**, which is a load. -/
theorem run_some_of_exceedsFirstAt (h : c.program.length < UInt64.size)
    (hexceeds : c.ExceedsFirstAt bound k) :
    c.run (some bound) = .error ((Fault.overflow bound).at k) ∧
      ∃ index, c.program.at? k = some (.load index) := by
  obtain ⟨⟨values', hcompletes, hlt⟩, hearlier⟩ := hexceeds
  obtain ⟨hk, hvalues'⟩ := (completes_iff h).1 hcompletes
  cases k with
  | zero =>
    cases hvalues'
    cases hlt
  | succ k =>
    have hi : c.program[k]? = some c.program[k] := List.getElem?_eq_getElem hk
    obtain ⟨values, hvalues, heval⟩ := (valuesAfter_succ_eq_ok_iff hi).1 hvalues'
    have hwithin : ∀ j ≤ k, ∀ values, c.valuesAfter none j = .ok values →
        values.length ≤ bound := fun j hj values hvalues =>
      hearlier j (Nat.lt_succ_of_le hj) values
        ((completes_iff h).2 ⟨hj.trans (Nat.le_of_succ_le hk), hvalues⟩)
    obtain ⟨⟨index, hload⟩, hoverflow⟩ :=
      Instruction.eval_some_of_lt_length (hwithin k (Nat.le_refl k) values hvalues) heval hlt
    have hsame := valuesAfter_some_of_le (Nat.le_of_succ_le hk) hwithin
    refine ⟨(run_eq_error_iff h (List.ne_nil_of_length_pos (Nat.zero_lt_of_lt hk))).2
      ⟨k, _, values, _, hi, hsame.trans hvalues, hoverflow, rfl⟩, index, ?_⟩
    rw [Program.at?, hi, hload]

/-- **The deepest depth is the least limit that is never exceeded.** -/
theorem maxDepth_le_iff (h : c.program.length < UInt64.size) {profile : Profile}
    (hprofile : c.check none = .ok profile) :
    profile.maxDepth ≤ bound ↔ c.StaysWithin bound := by
  have hdeep : bound < profile.maxDepth ↔ _ :=
    Program.lt_maxDepth_iff (m := c.modulus) fits_nil hprofile
  rw [← not_iff_not, Nat.not_le, hdeep]
  simp only [StaysWithin, not_forall, Nat.not_le, Nat.not_lt_zero, false_or]
  constructor
  · rintro ⟨k, hk, values, hvalues, hlt⟩
    exact ⟨k + 1, values, (completes_iff h).2 ⟨hk, hvalues⟩, hlt⟩
  · rintro ⟨k, values, hcompletes, hlt⟩
    obtain ⟨hk, hvalues⟩ := (completes_iff h).1 hcompletes
    cases k with
    | zero =>
      cases hvalues
      cases hlt
    | succ k => exact ⟨k, hk, values, hvalues, hlt⟩

/-- Under a limit, success means that the limit is never exceeded. -/
theorem staysWithin_of_run_eq_ok (h : c.program.length < UInt64.size) {value : Int64}
    (hrun : c.run (some bound) = .ok value) : c.StaysWithin bound := by
  by_contra hexceeds
  obtain ⟨position, hfirst⟩ := exists_exceedsFirstAt hexceeds
  rw [(run_some_of_exceedsFirstAt h hfirst).1] at hrun
  cases hrun

theorem exists_run_eq_ok_of_check (h : c.program.length < UInt64.size) {profile : Profile}
    (hprofile : c.check none = .ok profile) : ∃ value, c.run none = .ok value := by
  have hfits : Fits none [] := fits_nil
  have hcheck := Program.checkFrom_eq_eval (m := c.modulus) (t := c.table) c.program 0 0 hfits
  change (c.check none).map _ = _ at hcheck
  rw [hprofile, eq_comm] at hcheck
  obtain ⟨values, hvalues, htop⟩ := Except.bind_eq_ok_iff.1 hcheck
  obtain ⟨value, hvalue, -⟩ := Except.map_eq_ok_iff.1 htop
  cases values with
  | nil => cases hvalue
  | cons value rest =>
    refine ⟨value, (run_eq_ok_iff h).2 ⟨rest, ?_⟩⟩
    rw [valuesAfter, List.take_length]
    exact hvalues

/-- **A limit only cuts a run off.**  If the run without a limit exceeds the bound, then the run
with the bound as its limit overflows at the first instruction that does so, which is a load;
otherwise both give the same.  Hence a code with a profile succeeds under just those limits that
are at least its deepest depth, and raising a limit keeps every value. -/
theorem limit_cuts_off (c : Code) (h : c.program.length < UInt64.size) (bound : Nat) :
    (∀ position, c.ExceedsFirstAt bound position →
        c.run (some bound) = .error ((Fault.overflow bound).at position) ∧
          ∃ index, c.program.at? position = some (.load index)) ∧
      ((¬ ∃ position, c.ExceedsFirstAt bound position) → c.run (some bound) = c.run none) ∧
      (∀ profile, c.check none = .ok profile →
        ((∃ value, c.run (some bound) = .ok value) ↔ profile.maxDepth ≤ bound)) ∧
      ∀ value, c.run (some bound) = .ok value →
        c.run none = .ok value ∧ ∀ higher, bound ≤ higher → c.run (some higher) = .ok value := by
  refine ⟨fun position => run_some_of_exceedsFirstAt h, fun hnever => ?_,
    fun profile hprofile => ?_, fun value hrun => ?_⟩
  · refine run_some_of_staysWithin h ?_
    by_contra hexceeds
    exact hnever (exists_exceedsFirstAt hexceeds)
  · rw [maxDepth_le_iff h hprofile]
    constructor
    · rintro ⟨value, hrun⟩
      exact staysWithin_of_run_eq_ok h hrun
    · intro hwithin
      rw [run_some_of_staysWithin h hwithin]
      exact exists_run_eq_ok_of_check h hprofile
  · have hwithin := staysWithin_of_run_eq_ok h hrun
    rw [run_some_of_staysWithin h hwithin] at hrun
    refine ⟨hrun, fun higher hle => ?_⟩
    rw [← hrun]
    exact run_some_of_staysWithin h fun position values hvalues =>
      (hwithin position values hvalues).trans hle

/-- Two loads and a combination overflow under the limit `1`, at the second load.  The limit `2` is
their deepest depth, and they never exceed it. -/
theorem limit_cuts_off_second_load :
    let c : Code := ⟨⟨7, by decide⟩, ⟨#[3, -4]⟩, [.load 1, .load 2, .combine2 2 3 1]⟩
    c.program.length < UInt64.size ∧ c.ExceedsFirstAt 1 2 ∧
      c.run (some 1) = .error ((Fault.overflow 1).at 2) ∧
      (¬ ∃ position, c.ExceedsFirstAt 2 position) ∧ c.run (some 2) = c.run none ∧
      c.check none = .ok ⟨2, 1⟩ ∧ (∃ value, c.run (some 2) = .ok value) ∧
      c.run (some 3) = c.run (some 2) := by
  intro c
  have hlength : c.program.length < UInt64.size := by decide
  have hcheck : c.check none = .ok ⟨2, 1⟩ := by rfl
  have hexceeds : c.ExceedsFirstAt 1 2 := by
    refine ⟨⟨[-4, 3], ⟨rfl, rfl⟩, by decide⟩, fun earlier hearlier values hvalues => ?_⟩
    obtain ⟨-, rfl⟩ := hvalues
    match earlier, hearlier with
    | 0, _ => decide
    | 1, _ => decide
  have hnever : ¬ ∃ position, c.ExceedsFirstAt 2 position := by
    rintro ⟨position, ⟨values, hvalues, hlt⟩, -⟩
    exact absurd ((maxDepth_le_iff hlength hcheck).1 (Nat.le_refl 2) position values hvalues)
      (Nat.not_le_of_lt hlt)
  obtain ⟨hoverflow, -, -, -⟩ := limit_cuts_off c hlength 1
  obtain ⟨-, hsame, hprofile, hraise⟩ := limit_cuts_off c hlength 2
  obtain ⟨value, hvalue⟩ := (hprofile ⟨2, 1⟩ hcheck).2 (Nat.le_refl 2)
  refine ⟨hlength, hexceeds, (hoverflow 2 hexceeds).1, hnever, hsame hnever, hcheck,
    ⟨value, hvalue⟩, ?_⟩
  rw [hvalue]
  exact (hraise value hvalue).2 3 (by decide)

end Code

end ResidueMachine
