import Mathlib.Order.Bounds.Basic
import ResidueMachine.Proofs.Checking
import ResidueMachine.Proofs.Histories

/-!
# Depths by counting

The checker keeps a depth and gives up at the first instruction that it cannot go past.  Both can be
told by counting instructions: loads raise the depth by one, combinations of two values lower it by
one, and the other instructions leave it alone.  So the depth after the first `k` instructions is
their number of loads less their number of combinations of two values, `Program.depthAt`.

* `Instruction.depthAfter_cases` : what the checker can do at one instruction, without a limit;
* `Code.length_valuesAfter` : the depth of the stack is found by counting;
* `Code.exists_valuesAfter_iff`, `Code.valuesAfter_eq_error_iff` : so is the instruction that a run
  stops at, if it stops;
* `Code.isGreatest_maxDepth` : the deepest depth of a profile is the greatest depth counted;
* `Program.check_by_counting` : all that a check without a limit tells.
-/

namespace ResidueMachine

/-! ### Counting -/

namespace Program

/-- The number of loads less that of combinations of two values, among the first `k`
instructions. -/
def depthAt (p : Program) (k : Nat) : Int :=
  ((p.take k).countP (·.opcode = .load) : Int) - ((p.take k).countP (·.opcode = .combine2) : Int)

/-- The instruction after the first `k`, if there is one, has its values on the stack and its index
in a table of `size` words. -/
structure Passes (p : Program) (size k : Nat) : Prop where
  /-- The values that it takes are there. -/
  values : ∀ i ∈ p[k]?, (i.effect.pops : Int) ≤ p.depthAt k
  /-- The index that it names is that of a word. -/
  index : ∀ i ∈ p[k]?, ∀ index ∈ i.tableIndex?, InTable size index

/-- Why the instruction after the first `k` cannot be executed.  Missing values come before a bad
index. -/
inductive StopsAt (p : Program) (size k : Nat) : Fault → Prop
  /-- The values that it takes are not there. -/
  | values {i : Instruction} {available : Nat} : p[k]? = some i → (available : Int) = p.depthAt k →
      available < i.effect.pops → StopsAt p size k (.emptyPop i.effect.pops available)
  /-- The values are there, but the index names no word. -/
  | index {i : Instruction} {index : Int64} : p[k]? = some i → (i.effect.pops : Int) ≤ p.depthAt k →
      i.tableIndex? = some index → ¬ InTable size index → StopsAt p size k (.indexOutOfRange index size)

variable {p : Program} {k : Nat}

theorem depthAt_succ {i : Instruction} (h : p[k]? = some i) :
    p.depthAt (k + 1) = p.depthAt k + i.effect.net := by
  unfold depthAt
  rw [List.take_add_one, h]
  cases i <;> simp [Instruction.opcode, Instruction.effect, StackEffect.net] <;> omega

theorem take_succ_of_eq_none (h : p[k]? = none) : p.take (k + 1) = p.take k := by
  rw [List.take_add_one, h, Option.toList_none, List.append_nil]

theorem depthAt_succ_of_eq_none (h : p[k]? = none) : p.depthAt (k + 1) = p.depthAt k := by
  rw [depthAt, take_succ_of_eq_none h, depthAt]

theorem depthAt_min (p : Program) (k : Nat) : p.depthAt (min k p.length) = p.depthAt k := by
  rw [depthAt, ← List.take_eq_take_min, depthAt]

theorem depthAt_le (p : Program) (k : Nat) : p.depthAt k ≤ p.countP (·.opcode = .load) := by
  have hle := (List.take_sublist k p).countP_le (p := (·.opcode = .load))
  unfold depthAt
  omega

end Program

/-! ### One instruction -/

namespace Instruction

variable {m : Modulus} {t : Table} {i : Instruction} {size depth : Nat} {values : List Int64}

/-- **What the checker can do at an instruction** when there is no limit: miss values, find a bad
index, or go on.  It subtracts in the last case only, where the values are there. -/
theorem depthAfter_cases (i : Instruction) (size depth : Nat) :
    (depth < i.effect.pops ∧
        i.depthAfter size none depth = .error (.emptyPop i.effect.pops depth)) ∨
      (i.effect.pops ≤ depth ∧ ∃ index, i.tableIndex? = some index ∧ ¬ InTable size index ∧
        i.depthAfter size none depth = .error (.indexOutOfRange index size)) ∨
      (i.effect.pops ≤ depth ∧ (∀ index ∈ i.tableIndex?, InTable size index) ∧
        i.depthAfter size none depth = .ok (depth - i.effect.pops + i.effect.pushes)) := by
  by_cases hpops : depth < i.effect.pops
  · exact .inl ⟨hpops, by simp only [depthAfter, hpops, ↓reduceIte]⟩
  have hpops := Nat.le_of_not_lt hpops
  by_cases hindex : ∀ index ∈ i.tableIndex?, InTable size index
  · exact .inr (.inr ⟨hpops, hindex, depthAfter_of_le hpops hindex⟩)
  · simp only [not_forall] at hindex
    obtain ⟨index, hmem, hout⟩ := hindex
    exact .inr (.inl ⟨hpops, index, hmem, hout, depthAfter_of_not_inTable hpops hmem hout⟩)

/-- Going on, the checker computes the depth exactly: the subtraction is one of integers. -/
theorem depthAfter_eq_ok_iff {after : Nat} :
    i.depthAfter size none depth = .ok after ↔
      i.effect.pops ≤ depth ∧ (∀ index ∈ i.tableIndex?, InTable size index) ∧
        (after : Int) = depth + i.effect.net := by
  rcases i.depthAfter_cases size depth with ⟨hpops, h⟩ | ⟨-, index, hmem, hout, h⟩ |
    ⟨hpops, hindex, h⟩
  · rw [h]
    simp [Nat.not_le_of_lt hpops]
  · rw [h]
    simp only [reduceCtorEq, false_iff, not_and]
    exact fun _ hindex => absurd (hindex index hmem) hout
  · rw [h, Except.ok.injEq]
    simp only [hpops, true_and, StackEffect.net]
    refine ⟨fun heq => ⟨hindex, by omega⟩, fun ⟨_, heq⟩ => by omega⟩

theorem depthAfter_eq_error_iff {fault : Fault} :
    i.depthAfter size none depth = .error fault ↔
      depth < i.effect.pops ∧ fault = .emptyPop i.effect.pops depth ∨
        i.effect.pops ≤ depth ∧ ∃ index, i.tableIndex? = some index ∧ ¬ InTable size index ∧
          fault = .indexOutOfRange index size := by
  rcases i.depthAfter_cases size depth with ⟨hpops, h⟩ | ⟨hpops, index, hmem, hout, h⟩ |
    ⟨hpops, hindex, h⟩
  · rw [h]
    simp [hpops, Nat.not_le_of_lt hpops, eq_comm]
  · rw [h]
    simp [hpops, Nat.not_lt_of_le hpops, hmem, hout, eq_comm]
  · rw [h]
    simp only [reduceCtorEq, Nat.not_lt_of_le hpops, false_and, false_or, false_iff, not_and,
      not_exists]
    exact fun _ index hmem hout => absurd (hindex index hmem) hout

theorem exists_eval_eq_ok_iff :
    (∃ values', i.eval m t none values = .ok values') ↔
      i.effect.pops ≤ values.length ∧ ∀ index ∈ i.tableIndex?, InTable t.size index := by
  have hdepth : i.depthAfter t.size none values.length = (i.eval m t none values).map List.length :=
    depthAfter_eq_eval i fits_none
  constructor
  · rintro ⟨values', h⟩
    rw [h] at hdepth
    obtain ⟨hpops, hindex, -⟩ := depthAfter_eq_ok_iff.1 hdepth
    exact ⟨hpops, hindex⟩
  · rintro ⟨hpops, hindex⟩
    rw [depthAfter_of_le hpops hindex, Option.filter_none, eq_comm] at hdepth
    obtain ⟨values', h, -⟩ := Except.map_eq_ok_iff.1 hdepth
    exact ⟨values', h⟩

end Instruction

/-! ### Runs -/

namespace Program

variable {p : Program} {i : Instruction} {size k : Nat}

theorem passes_iff (h : p[k]? = some i) :
    p.Passes size k ↔
      (i.effect.pops : Int) ≤ p.depthAt k ∧ ∀ index ∈ i.tableIndex?, InTable size index := by
  constructor
  · rintro ⟨hvalues, hindex⟩
    exact ⟨hvalues i h, hindex i h⟩
  · rintro ⟨hvalues, hindex⟩
    refine ⟨fun j hj => ?_, fun j hj => ?_⟩
    · obtain rfl := Option.some.inj (h.symm.trans hj)
      exact hvalues
    · obtain rfl := Option.some.inj (h.symm.trans hj)
      exact hindex

theorem passes_of_eq_none (h : p[k]? = none) : p.Passes size k := by
  refine ⟨fun j hj => ?_, fun j hj => ?_⟩ <;> rw [h] at hj <;> cases hj

end Program

namespace Code

variable {c : Code} {limit : Option Nat} {k : Nat} {values : List Int64}

theorem valuesAfter_succ_of_eq_none (h : c.program[k]? = none) :
    c.valuesAfter limit (k + 1) = c.valuesAfter limit k := by
  rw [valuesAfter, Program.take_succ_of_eq_none h, valuesAfter]

/-- **The depth of the stack is found by counting.** -/
theorem length_valuesAfter (h : c.valuesAfter limit k = .ok values) :
    (values.length : Int) = c.program.depthAt k := by
  induction k generalizing values with
  | zero =>
    cases h
    rfl
  | succ k ih =>
    cases hi : c.program[k]? with
    | none =>
      rw [valuesAfter_succ_of_eq_none hi] at h
      rw [Program.depthAt_succ_of_eq_none hi]
      exact ih h
    | some i =>
      obtain ⟨mid, hmid, heval⟩ := (valuesAfter_succ_eq_ok_iff hi).1 h
      obtain ⟨hpops, hlength⟩ := Instruction.length_of_eval_eq_ok heval
      rw [Program.depthAt_succ hi, ← ih hmid, StackEffect.net]
      omega

/-- **Instructions are executed as long as each passes.** -/
theorem exists_valuesAfter_iff :
    (∃ values, c.valuesAfter none k = .ok values) ↔
      ∀ j < k, c.program.Passes c.table.size j := by
  induction k with
  | zero => exact ⟨fun _ j hj => absurd hj (Nat.not_lt_zero j), fun _ => ⟨[], rfl⟩⟩
  | succ k ih =>
    rw [Nat.forall_lt_succ_right, ← ih]
    cases hi : c.program[k]? with
    | none =>
      rw [valuesAfter_succ_of_eq_none hi]
      exact (and_iff_left (Program.passes_of_eq_none hi)).symm
    | some i =>
      simp only [valuesAfter_succ_eq_ok_iff hi, Program.passes_iff hi]
      constructor
      · rintro ⟨values', values, hvalues, heval⟩
        obtain ⟨hpops, hindex⟩ := Instruction.exists_eval_eq_ok_iff.1 ⟨values', heval⟩
        rw [← length_valuesAfter hvalues]
        exact ⟨⟨values, hvalues⟩, Int.ofNat_le.2 hpops, hindex⟩
      · rintro ⟨⟨values, hvalues⟩, hpops, hindex⟩
        rw [← length_valuesAfter hvalues, Int.ofNat_le] at hpops
        obtain ⟨values', heval⟩ := Instruction.exists_eval_eq_ok_iff.2 ⟨hpops, hindex⟩
        exact ⟨values', values, hvalues, heval⟩

theorem stopsAt_iff_eval {i : Instruction} {fault : Fault} (hi : c.program[k]? = some i)
    (h : c.valuesAfter none k = .ok values) :
    c.program.StopsAt c.table.size k fault ↔
      i.eval c.modulus c.table none values = .error fault := by
  have hlength := length_valuesAfter h
  rw [← Except.map_eq_error_iff (f := List.length), ← Instruction.depthAfter_eq_eval i fits_none,
    Instruction.depthAfter_eq_error_iff]
  constructor
  · rintro (⟨hj, havailable, hlt⟩ | ⟨hj, hpops, hmem, hout⟩)
    · obtain rfl := Option.some.inj (hi.symm.trans hj)
      obtain rfl := Int.ofNat_inj.1 (havailable.trans hlength.symm)
      exact .inl ⟨hlt, rfl⟩
    · obtain rfl := Option.some.inj (hi.symm.trans hj)
      rw [← hlength, Int.ofNat_le] at hpops
      exact .inr ⟨hpops, _, hmem, hout, rfl⟩
  · rintro (⟨hlt, rfl⟩ | ⟨hpops, index, hmem, hout, rfl⟩)
    · exact .values hi hlength hlt
    · exact .index hi (by omega) hmem hout

/-- **A run stops at the first instruction that does not pass.** -/
theorem valuesAfter_eq_error_iff {failure : Failure} :
    c.valuesAfter none c.program.length = .error failure ↔
      ∃ k fault, (∀ j < k, c.program.Passes c.table.size j) ∧
        c.program.StopsAt c.table.size k fault ∧ failure = fault.at (k + 1) := by
  have hfirst : Program.eval c.modulus c.table none c.program 1 [] = .error failure ↔ _ :=
    Program.eval_eq_error_iff
  rw [valuesAfter, List.take_length, hfirst]
  constructor
  · rintro ⟨k, i, values, fault, hi, hvalues, hfault, rfl⟩
    refine ⟨k, fault, exists_valuesAfter_iff.1 ⟨values, hvalues⟩,
      (stopsAt_iff_eval hi hvalues).2 hfault, by rw [Nat.add_comm]⟩
  · rintro ⟨k, fault, hpass, hstop, rfl⟩
    obtain ⟨values, hvalues⟩ := exists_valuesAfter_iff.2 hpass
    obtain ⟨i, hi⟩ : ∃ i, c.program[k]? = some i := by
      rcases hstop with ⟨hi, -, -⟩ | ⟨hi, -, -, -⟩
      · exact ⟨_, hi⟩
      · exact ⟨_, hi⟩
    exact ⟨k, i, values, fault, hi, hvalues, (stopsAt_iff_eval hi hvalues).1 hstop,
      by rw [Nat.add_comm]⟩

/-! ### Checks -/

theorem check_eq_error_iff {failure : Failure} :
    c.check limit = .error failure ↔
      c.program = [] ∧ failure = Fault.emptyResult.at 1 ∨
        c.valuesAfter limit c.program.length = .error failure := by
  rw [← Except.map_eq_error_iff (f := Profile.finalDepth), check_eq_eval, Except.bind_eq_error_iff,
    or_comm]
  refine or_congr_left ⟨?_, ?_⟩
  · rintro ⟨values, hvalues, htop⟩
    cases values with
    | nil =>
      have hnil : c.program = [] := by
        by_contra hne
        rw [valuesAfter, List.take_length] at hvalues
        exact Program.ne_nil_of_eval_eq_ok hvalues (.inl hne) rfl
      cases htop
      exact ⟨hnil, by rw [hnil]; rfl⟩
    | cons value rest => cases htop
  · rintro ⟨hnil, rfl⟩
    refine ⟨[], ?_, ?_⟩
    · rw [valuesAfter, hnil]
      rfl
    · rw [hnil]
      rfl

theorem exists_valuesAfter_of_check {profile : Profile} (h : c.check limit = .ok profile) :
    ∃ values, c.valuesAfter limit c.program.length = .ok values ∧
      profile.finalDepth = values.length := by
  have hcheck := c.check_eq_eval limit
  rw [h, eq_comm] at hcheck
  obtain ⟨values, hvalues, htop⟩ := Except.bind_eq_ok_iff.1 hcheck
  obtain ⟨value, -, hlength⟩ := Except.map_eq_ok_iff.1 htop
  exact ⟨values, hvalues, hlength.symm⟩

/-- **The deepest depth of a profile is the greatest depth counted.** -/
theorem isGreatest_maxDepth {profile : Profile} (h : c.check none = .ok profile) :
    IsGreatest (Set.range c.program.depthAt) profile.maxDepth := by
  have hdeep (bound : Nat) : bound < profile.maxDepth ↔ _ :=
    Program.lt_maxDepth_iff (m := c.modulus) fits_nil h
  obtain ⟨last, hlast, -⟩ := exists_valuesAfter_of_check h
  have hpass := exists_valuesAfter_iff.1 ⟨last, hlast⟩
  have hle (k : Nat) : c.program.depthAt k ≤ profile.maxDepth := by
    induction k with
    | zero => exact Int.natCast_nonneg _
    | succ k ih =>
      by_cases hk : k < c.program.length
      · obtain ⟨values, hvalues⟩ :=
          exists_valuesAfter_iff.2 fun j hj => hpass j (Nat.lt_of_lt_of_le hj hk)
        rw [← length_valuesAfter hvalues, Int.ofNat_le]
        refine Nat.le_of_not_lt fun hlt => ?_
        exact Nat.lt_irrefl _ ((hdeep _).2 (.inr ⟨k, hk, values, hvalues, hlt⟩))
      · rw [Program.depthAt_succ_of_eq_none (List.getElem?_eq_none (Nat.le_of_not_lt hk))]
        exact ih
  refine ⟨?_, ?_⟩
  · by_cases hzero : profile.maxDepth = 0
    · exact ⟨0, by rw [hzero]; rfl⟩
    · rcases (hdeep (profile.maxDepth - 1)).1 (by omega) with hlt | ⟨k, -, values, hvalues, hlt⟩
      · omega
      · have hlength := length_valuesAfter (c := c) (k := k + 1) hvalues
        exact ⟨k + 1, le_antisymm (hle (k + 1)) (by omega)⟩
  · rintro _ ⟨k, rfl⟩
    exact hle k

/-- **A check succeeds iff there are instructions and each of them passes.** -/
theorem exists_profile_iff :
    (∃ profile, c.check none = .ok profile) ↔
      c.program ≠ [] ∧ ∀ k, c.program.Passes c.table.size k := by
  constructor
  · rintro ⟨profile, h⟩
    refine ⟨fun hnil => ?_, fun k => ?_⟩
    · rw [check_eq_error_iff.2 (.inl ⟨hnil, rfl⟩)] at h
      cases h
    · by_cases hk : k < c.program.length
      · obtain ⟨values, hvalues, -⟩ := exists_valuesAfter_of_check h
        exact exists_valuesAfter_iff.1 ⟨values, hvalues⟩ k hk
      · exact Program.passes_of_eq_none (List.getElem?_eq_none (Nat.le_of_not_lt hk))
  · rintro ⟨hne, hpass⟩
    cases h : c.check none with
    | ok profile => exact ⟨profile, rfl⟩
    | error failure =>
      rcases check_eq_error_iff.1 h with ⟨hnil, -⟩ | herror
      · exact absurd hnil hne
      · obtain ⟨values, hvalues⟩ := exists_valuesAfter_iff.2 fun j (_ : j < c.program.length) =>
          hpass j
        rw [hvalues] at herror
        cases herror

/-! ### Machines -/

theorem exists_completes_of_check (h : c.program.length < UInt64.size) {profile : Profile}
    (hprofile : c.check none = .ok profile) (hk : k ≤ c.program.length) :
    ∃ values, c.Completes none k values ∧ (values.length : Int) = c.program.depthAt k := by
  obtain ⟨-, hpass⟩ := exists_profile_iff.1 ⟨profile, hprofile⟩
  obtain ⟨values, hvalues⟩ := exists_valuesAfter_iff.2 fun j (_ : j < k) => hpass j
  exact ⟨values, (completes_iff h).2 ⟨hk, hvalues⟩, length_valuesAfter hvalues⟩

theorem exists_depthAt_eq_length (c : Code) (limit : Option Nat) (k : Nat) :
    ∃ j, (((Machine.start c limit).advanceBy k).stack.items.length : Int) =
      c.program.depthAt j := by
  obtain ⟨j, -, -, -, hvalues⟩ := ((Machine.reached_start c limit).advanceBy k).executed
  exact ⟨j, length_valuesAfter hvalues⟩

/-- **The deepest depth of a profile is that of the stack** where it is deepest. -/
theorem isGreatest_length_stack (h : c.program.length < UInt64.size) {profile : Profile}
    (hprofile : c.check none = .ok profile) :
    IsGreatest (Set.range fun k => ((Machine.start c none).advanceBy k).stack.items.length)
      profile.maxDepth := by
  obtain ⟨⟨k, hk⟩, hle⟩ := isGreatest_maxDepth hprofile
  refine ⟨?_, ?_⟩
  · rw [← Program.depthAt_min] at hk
    obtain ⟨_, ⟨-, rfl⟩, hlength⟩ :=
      exists_completes_of_check h hprofile (Nat.min_le_right k c.program.length)
    exact ⟨min k c.program.length, Int.ofNat_inj.1 (hlength.trans hk)⟩
  · rintro _ ⟨k, rfl⟩
    obtain ⟨j, hj⟩ := exists_depthAt_eq_length c none k
    exact Int.ofNat_le.1 (hj ▸ hle ⟨j, rfl⟩)

end Code

/-! ### The checker -/

namespace Program

theorem exists_code (p : Program) (size : Nat) :
    ∃ c : Code, c.program = p ∧ c.table.size = size :=
  ⟨⟨⟨1, by decide⟩, ⟨Array.replicate size 0⟩, p⟩, rfl, Array.size_replicate⟩

theorem forall_passes_iff {p : Program} {size : Nat} :
    (∀ k, p.Passes size k) ↔
      (∀ i ∈ p, ∀ index ∈ i.tableIndex?, InTable size index) ∧
        ∀ k i, p[k]? = some i → (i.effect.pops : Int) ≤ p.depthAt k := by
  constructor
  · intro hpass
    refine ⟨fun i hi => ?_, fun k => (hpass k).values⟩
    obtain ⟨k, hk⟩ := List.mem_iff_getElem?.1 hi
    exact (hpass k).index i hk
  · rintro ⟨hindex, hvalues⟩ k
    exact ⟨hvalues k, fun i hi => hindex i (List.mem_of_getElem? hi)⟩

/-- **A check without a limit counts.**  It succeeds iff there are instructions, all their indices
are in the table, and the depth counted in front of each is no less than what it takes.  Otherwise
it fails at the first instruction for which that is not so, missing values coming before a bad
index; without instructions there is no result.  No subtraction goes below zero.  A profile tells
the last and the greatest of the depths counted, and these are the depths of the stack in every run
on a table of that size. -/
theorem check_by_counting (p : Program) (h : p.length < UInt64.size) (size : Nat) :
    ((∃ profile, p.check size none = .ok profile) ↔
        p ≠ [] ∧ (∀ i ∈ p, ∀ index ∈ i.tableIndex?, InTable size index) ∧
          ∀ k i, p[k]? = some i → (i.effect.pops : Int) ≤ p.depthAt k) ∧
      (∀ failure, p.check size none = .error failure ↔
        p = [] ∧ failure = Fault.emptyResult.at 1 ∨
          ∃ k fault, (∀ j < k, p.Passes size j) ∧ p.StopsAt size k fault ∧
            failure = fault.at (k + 1)) ∧
      (∀ (i : Instruction) (depth after : Nat), i.depthAfter size none depth = .ok after →
        i.effect.pops ≤ depth ∧ (after : Int) = depth + i.effect.net) ∧
      ∀ profile, p.check size none = .ok profile →
        (profile.finalDepth : Int) = p.depthAt p.length ∧
          IsGreatest (Set.range p.depthAt) profile.maxDepth ∧
          1 ≤ profile.finalDepth ∧ profile.finalDepth ≤ profile.maxDepth ∧
          profile.maxDepth ≤ p.countP (·.opcode = .load) ∧
          ∀ c : Code, c.program = p → c.table.size = size →
            (∀ k ≤ p.length, ∃ values, c.Completes none k values ∧
              (values.length : Int) = p.depthAt k) ∧
              IsGreatest
                (Set.range fun k => ((Machine.start c none).advanceBy k).stack.items.length)
                profile.maxDepth := by
  obtain ⟨c, rfl, rfl⟩ := exists_code p size
  refine ⟨?_, fun failure => ?_, fun i depth after hafter => ?_, fun profile hprofile => ?_⟩
  · rw [← forall_passes_iff]
    exact Code.exists_profile_iff
  · rw [← Code.valuesAfter_eq_error_iff]
    exact Code.check_eq_error_iff
  · obtain ⟨hpops, -, hexact⟩ := Instruction.depthAfter_eq_ok_iff.1 hafter
    exact ⟨hpops, hexact⟩
  · obtain ⟨values, hvalues, hfinal⟩ := Code.exists_valuesAfter_of_check hprofile
    have hgreatest := Code.isGreatest_maxDepth hprofile
    have hwithin := within_of_checkFrom_eq_ok (Nat.le_refl 0) (fun _ _ => Nat.zero_le _) hprofile
    refine ⟨hfinal ▸ Code.length_valuesAfter hvalues, hgreatest, hwithin.one_le_finalDepth,
      hwithin.finalDepth_le, ?_, fun d hprogram hsize => ?_⟩
    · obtain ⟨k, hk⟩ := hgreatest.1
      have hle := depthAt_le c.program k
      omega
    · rw [← hprogram] at h hprofile ⊢
      rw [← hsize] at hprofile
      exact ⟨fun k hk => Code.exists_completes_of_check h hprofile hk,
        Code.isGreatest_length_stack h hprofile⟩

/-- Two loads and a combination go up to the depth `2`, and an exchange after one load stops. -/
theorem check_by_counting_of_loads :
    let p : Program := [.load 1, .load 2, .combine2 2 3 1]
    let q : Program := [.load 1, .swap]
    p.length < UInt64.size ∧ q.length < UInt64.size ∧ p.check 2 none = .ok ⟨2, 1⟩ ∧
      p.depthAt 3 = 1 ∧ IsGreatest (Set.range p.depthAt) 2 ∧
      (∀ c : Code, c.program = p → c.table.size = 2 →
        IsGreatest (Set.range fun k => ((Machine.start c none).advanceBy k).stack.items.length)
          2) ∧
      ∃ k fault, (∀ j < k, q.Passes 2 j) ∧ q.StopsAt 2 k fault ∧
        (Fault.emptyPop 2 1).at 2 = fault.at (k + 1) := by
  intro p q
  have hp : p.length < UInt64.size := by decide
  have hq : q.length < UInt64.size := by decide
  have hprofile : p.check 2 none = .ok ⟨2, 1⟩ := by rfl
  have hfailure : q.check 2 none = .error ((Fault.emptyPop 2 1).at 2) := by rfl
  obtain ⟨-, -, -, hdepths⟩ := check_by_counting p hp 2
  obtain ⟨hfinal, hgreatest, -, -, -, hstack⟩ := hdepths _ hprofile
  obtain ⟨-, hstop, -, -⟩ := check_by_counting q hq 2
  refine ⟨hp, hq, hprofile, hfinal.symm, hgreatest, fun c hprogram hsize => ?_, ?_⟩
  · exact (hstack c hprogram hsize).2
  · rcases (hstop _).1 hfailure with ⟨hnil, -⟩ | hstops
    · exact absurd hnil (List.cons_ne_nil _ _)
    · exact hstops

end Program

end ResidueMachine
