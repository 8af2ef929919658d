import ResidueMachine.Proofs.Evaluation

/-!
# The instructions on integers

The machine computes with words of fixed width.  Here its instructions are written down once more,
as rules on stacks of integers: `Instruction.Rule` relates the stacks before and after an
instruction, and `Instruction.preconditions` lists what the instruction asks for, in the order in
which it is looked at.  A run is then a row of stacks, `Code.IsTrace`.

* `Instruction.rule_iff_eval` : the rules are what instructions do to words;
* `Instruction.firstViolated_iff_eval` : the first violated precondition is the fault;
* `Code.run_refines_rules` : a run succeeds with the top of the last stack of a full trace, and
  fails where a trace cannot be continued.

Stacks are lists with the topmost value first.
-/

namespace ResidueMachine

/-- `value` is the entry of the table with the 1-based number `index`. -/
def Table.Entry (t : Table) (index value : Int) : Prop :=
  ∃ offset : Nat, index = offset + 1 ∧ (t.toList.map Int64.toInt)[offset]? = some value

/-- There is room for one more value on a stack. -/
def HasRoom (limit : Option Nat) (stack : List Int) : Prop :=
  ∀ bound ∈ limit, stack.length < bound

/-- The rules of the instructions. -/
inductive Instruction.Rule (m : Modulus) (t : Table) (limit : Option Nat) :
    Instruction → List Int → List Int → Prop
  /-- The entry is pushed as it is. -/
  | load {index : Int64} {x : Int} {stack : List Int} :
    t.Entry index.toInt x → HasRoom limit stack → Rule m t limit (.load index) stack (x :: stack)
  /-- The two topmost values change places. -/
  | swap {x y : Int} {stack : List Int} :
    Rule m t limit .swap (x :: y :: stack) (y :: x :: stack)
  /-- The topmost value `x` and the second value `y` make way for the combination. -/
  | combine2 {a b c : Int64} {x y : Int} {stack : List Int} :
    Rule m t limit (.combine2 a b c) (x :: y :: stack)
      ((a.toInt * x + b.toInt * y + c.toInt) % m.val.toInt :: stack)
  /-- The topmost value `y` makes way for the combination with the entry `x`. -/
  | combineIndexed {index a b c : Int64} {x y : Int} {stack : List Int} :
    t.Entry index.toInt x → Rule m t limit (.combineIndexed index a b c) (y :: stack)
      ((a.toInt * x + b.toInt * y + c.toInt) % m.val.toInt :: stack)

/-- Something that an instruction asks for, and the fault when it is not so. -/
structure Precondition where
  /-- What is asked for. -/
  Holds : Prop
  /-- The fault when it does not hold. -/
  fault : Fault

namespace Precondition

/-- At least `needed` values are on the stack. -/
def values (needed depth : Nat) : Precondition :=
  ⟨needed ≤ depth, .emptyPop needed depth⟩

/-- The index is that of one of `size` entries. -/
def index (index : Int64) (size : Nat) : Precondition :=
  ⟨1 ≤ index.toInt ∧ index.toInt ≤ size, .indexOutOfRange index size⟩

/-- The stack has not reached the limit. -/
def room (bound depth : Nat) : Precondition :=
  ⟨depth < bound, .overflow bound⟩

/-- The first of the preconditions that does not hold has the given fault. -/
def FirstViolated : List Precondition → Fault → Prop
  | [], _ => False
  | p :: rest, fault => ¬ p.Holds ∧ fault = p.fault ∨ p.Holds ∧ FirstViolated rest fault

end Precondition

/-- What an instruction asks for, in the order in which it is looked at. -/
def Instruction.preconditions (size : Nat) (limit : Option Nat) (depth : Nat) :
    Instruction → List Precondition
  | load index => .values 0 depth :: .index index size :: (limit.map (.room · depth)).toList
  | swap => [.values 2 depth]
  | combine2 .. => [.values 2 depth]
  | combineIndexed index .. => [.values 1 depth, .index index size]

/-- The stacks of the first `steps` instructions of a run, from the empty stack on. -/
structure Code.IsTrace (c : Code) (limit : Option Nat) (stackAt : Nat → List Int) (steps : Nat) :
    Prop where
  /-- The first stack is empty. -/
  start : stackAt 0 = []
  /-- Each instruction leads from one stack to the next. -/
  step : ∀ k < steps, ∃ i, c.program[k]? = some i ∧
    i.Rule c.modulus c.table limit (stackAt k) (stackAt (k + 1))

/-! ### One instruction -/

theorem Table.entry_iff_get? {t : Table} {index : Int64} {value : Int} :
    t.Entry index.toInt value ↔ ∃ word, t.get? index = some word ∧ word.toInt = value := by
  simp only [Entry, get?, toList]
  constructor
  · rintro ⟨offset, hindex, hvalue⟩
    rw [List.getElem?_map, Option.map_eq_some_iff] at hvalue
    obtain ⟨word, hword, rfl⟩ := hvalue
    have hoffset : index.toInt.toNat - 1 = offset := by omega
    refine ⟨word, ?_, rfl⟩
    rw [if_pos (by omega), hoffset, ← Array.getElem?_toList]
    exact hword
  · rintro ⟨word, hword, rfl⟩
    split at hword
    · refine ⟨index.toInt.toNat - 1, by omega, ?_⟩
      rw [List.getElem?_map, Array.getElem?_toList, hword]
      rfl
    · cases hword

namespace Instruction

variable {m : Modulus} {t : Table} {limit : Option Nat} {i : Instruction} {values : List Int64}

/-- **The rules are what instructions do to words.** -/
theorem rule_iff_eval {stack : List Int} :
    i.Rule m t limit (values.map Int64.toInt) stack ↔
      ∃ values', i.eval m t limit values = .ok values' ∧ stack = values'.map Int64.toInt := by
  constructor
  · intro h
    generalize hbefore : values.map Int64.toInt = before at h
    cases h with
    | load hentry hroom =>
      subst hbefore
      obtain ⟨word, hword, rfl⟩ := Table.entry_iff_get?.1 hentry
      simp only [HasRoom, List.length_map] at hroom
      exact ⟨word :: values, eval_load_eq_ok_iff.2 ⟨word, hword, hroom, rfl⟩, rfl⟩
    | swap =>
      simp only [List.map_eq_cons_iff] at hbefore
      obtain ⟨x, _, rfl, rfl, y, rest, rfl, rfl, rfl⟩ := hbefore
      exact ⟨_, rfl, rfl⟩
    | combine2 =>
      simp only [List.map_eq_cons_iff] at hbefore
      obtain ⟨x, _, rfl, rfl, y, rest, rfl, rfl, rfl⟩ := hbefore
      exact ⟨_, rfl, by rw [List.map_cons, Modulus.toInt_combine]⟩
    | combineIndexed hentry =>
      simp only [List.map_eq_cons_iff] at hbefore
      obtain ⟨y, rest, rfl, rfl, rfl⟩ := hbefore
      obtain ⟨x, hx, rfl⟩ := Table.entry_iff_get?.1 hentry
      exact ⟨_, eval_combineIndexed_eq_ok_iff.2 ⟨x, y, rest, hx, rfl, rfl⟩,
        by rw [List.map_cons, Modulus.toInt_combine]⟩
  · rintro ⟨values', h, rfl⟩
    cases i with
    | load index =>
      obtain ⟨word, hword, hroom, rfl⟩ := eval_load_eq_ok_iff.1 h
      exact .load (Table.entry_iff_get?.2 ⟨word, hword, rfl⟩) (by simpa [HasRoom] using hroom)
    | swap =>
      obtain ⟨x, y, rest, rfl, rfl⟩ := eval_swap_eq_ok_iff.1 h
      exact .swap
    | combine2 a b c =>
      obtain ⟨x, y, rest, rfl, rfl⟩ := eval_combine2_eq_ok_iff.1 h
      simp only [List.map_cons, Modulus.toInt_combine]
      exact .combine2
    | combineIndexed index a b c =>
      obtain ⟨x, y, rest, hx, rfl, rfl⟩ := eval_combineIndexed_eq_ok_iff.1 h
      simp only [List.map_cons, Modulus.toInt_combine]
      exact .combineIndexed (Table.entry_iff_get?.2 ⟨x, hx, rfl⟩)

/-- **The first violated precondition is the fault.** -/
theorem firstViolated_iff_eval {fault : Fault} :
    Precondition.FirstViolated (i.preconditions t.size limit values.length) fault ↔
      i.eval m t limit values = .error fault := by
  have hindex {index : Int64} : (1 ≤ index.toInt ∧ index.toInt ≤ t.size) ↔ t.get? index ≠ none := by
    rw [Ne, Table.get?_eq_none_iff]
    omega
  cases i with
  | load index =>
    simp only [preconditions, Precondition.FirstViolated, Precondition.values, Precondition.index,
      hindex, eval]
    cases t.get? index with
    | none => simp [eq_comm]
    | some word =>
      cases limit with
      | none => simp [Precondition.FirstViolated]
      | some bound =>
        by_cases hfull : bound ≤ values.length
        · simp [Precondition.FirstViolated, Precondition.room, Option.filter, hfull, eq_comm]
        · simp [Precondition.FirstViolated, Precondition.room, Option.filter, hfull,
            Nat.lt_of_not_le hfull]
  | swap =>
    rcases values with _ | ⟨x, _ | ⟨y, rest⟩⟩ <;>
      simp [preconditions, Precondition.FirstViolated, Precondition.values, eval, eq_comm]
  | combine2 a b c =>
    rcases values with _ | ⟨x, _ | ⟨y, rest⟩⟩ <;>
      simp [preconditions, Precondition.FirstViolated, Precondition.values, eval, eq_comm]
  | combineIndexed index a b c =>
    simp only [preconditions, Precondition.FirstViolated, Precondition.values, Precondition.index,
      hindex, eval]
    cases values with
    | nil => simp [eq_comm]
    | cons y rest => cases t.get? index <;> simp [eq_comm]

end Instruction

/-! ### Traces -/

namespace Code

variable {c : Code} {limit : Option Nat} {stackAt : Nat → List Int} {steps : Nat}

theorem IsTrace.of_succ (h : c.IsTrace limit stackAt (steps + 1)) : c.IsTrace limit stackAt steps :=
  ⟨h.start, fun k hk => h.step k (Nat.lt_succ_of_lt hk)⟩

theorem IsTrace.exists_valuesAfter (h : c.IsTrace limit stackAt steps) :
    ∃ values, c.valuesAfter limit steps = .ok values ∧
      stackAt steps = values.map Int64.toInt := by
  induction steps with
  | zero => exact ⟨[], rfl, h.start⟩
  | succ k ih =>
    obtain ⟨values, hvalues, hstack⟩ := ih h.of_succ
    obtain ⟨i, hi, hrule⟩ := h.step k (Nat.lt_succ_self k)
    rw [hstack, Instruction.rule_iff_eval] at hrule
    obtain ⟨values', hvalues', hstack'⟩ := hrule
    exact ⟨values', (valuesAfter_succ_eq_ok_iff hi).2 ⟨values, hvalues, hvalues'⟩, hstack'⟩

theorem exists_isTrace {values : List Int64} (hsteps : steps ≤ c.program.length)
    (h : c.valuesAfter limit steps = .ok values) :
    ∃ stackAt, c.IsTrace limit stackAt steps ∧ stackAt steps = values.map Int64.toInt := by
  induction steps generalizing values with
  | zero =>
    cases h
    exact ⟨fun _ => [], ⟨rfl, fun k hk => absurd hk (Nat.not_lt_zero k)⟩, rfl⟩
  | succ k ih =>
    have hi : c.program[k]? = some c.program[k] := List.getElem?_eq_getElem hsteps
    obtain ⟨mid, hmid, hvalues⟩ := (valuesAfter_succ_eq_ok_iff hi).1 h
    obtain ⟨stackAt, htrace, hlast⟩ := ih (Nat.le_of_succ_le hsteps) hmid
    -- the stacks up to here, and the new one after them
    refine ⟨fun j => if j ≤ k then stackAt j else values.map Int64.toInt, ⟨?_, fun j hj => ?_⟩, ?_⟩
    · simp [htrace.start]
    · rcases Nat.lt_succ_iff_lt_or_eq.1 hj with hlt | rfl
      · simpa [Nat.le_of_lt hlt, Nat.succ_le_of_lt hlt] using htrace.step j hlt
      · refine ⟨_, hi, ?_⟩
        simp only [Nat.le_refl, ↓reduceIte, Nat.not_succ_le_self, hlast]
        exact Instruction.rule_iff_eval.2 ⟨values, hvalues, rfl⟩
    · simp only [Nat.not_succ_le_self, ↓reduceIte]

/-- **A run refines the rules on integers.**  It gives a value iff that is on top of the last stack
of a trace through the whole program.  It fails with a fault at a position iff a trace leads up to
the instruction there, no rule applies to it, and the fault is that of the first precondition that
is violated. -/
theorem run_refines_rules (c : Code) (limit : Option Nat) (h : c.program.length < UInt64.size) :
    (∀ value : Int64, c.run limit = .ok value ↔
      ∃ stackAt, 1 ≤ c.program.length ∧ c.IsTrace limit stackAt c.program.length ∧
        (stackAt c.program.length).head? = some value.toInt) ∧
    (1 ≤ c.program.length → ∀ (fault : Fault) (position : Nat),
      c.run limit = .error (fault.at position) ↔
        ∃ stackAt k i, position = k + 1 ∧ c.program[k]? = some i ∧ c.IsTrace limit stackAt k ∧
          (∀ stack, ¬ i.Rule c.modulus c.table limit (stackAt k) stack) ∧
          Precondition.FirstViolated
            (i.preconditions c.table.size limit (stackAt k).length) fault) := by
  refine ⟨fun value => ⟨fun hrun => ?_, ?_⟩, fun hlength fault position => ⟨fun hrun => ?_, ?_⟩⟩
  · obtain ⟨rest, hvalues⟩ := (run_eq_ok_iff h).1 hrun
    obtain ⟨stackAt, htrace, hlast⟩ := exists_isTrace (Nat.le_refl _) hvalues
    refine ⟨stackAt, ?_, htrace, by rw [hlast]; rfl⟩
    -- without an instruction there is no value
    refine Nat.pos_of_ne_zero fun hzero => ?_
    rw [hzero] at hvalues
    cases hvalues
  · rintro ⟨stackAt, -, htrace, hhead⟩
    obtain ⟨values, hvalues, hlast⟩ := htrace.exists_valuesAfter
    rw [hlast, List.head?_map, Option.map_eq_some_iff] at hhead
    obtain ⟨value', hvalue', htoInt⟩ := hhead
    obtain ⟨rest, rfl⟩ := List.head?_eq_some_iff.1 hvalue'
    rw [Int64.toInt_inj.1 htoInt] at hvalues
    exact (run_eq_ok_iff h).2 ⟨rest, hvalues⟩
  · obtain ⟨k, i, values, fault', hi, hvalues, hfault, hfailure⟩ :=
      (run_eq_error_iff h (List.ne_nil_of_length_pos hlength)).1 hrun
    obtain ⟨rfl, rfl⟩ := Failure.mk.inj hfailure
    obtain ⟨hk, -⟩ := List.getElem?_eq_some_iff.1 hi
    obtain ⟨stackAt, htrace, hlast⟩ := exists_isTrace (Nat.le_of_lt hk) hvalues
    refine ⟨stackAt, k, i, rfl, hi, htrace, fun stack hrule => ?_, ?_⟩
    · rw [hlast, Instruction.rule_iff_eval] at hrule
      obtain ⟨values', hvalues', -⟩ := hrule
      rw [hfault] at hvalues'
      cases hvalues'
    · rw [hlast, List.length_map]
      exact Instruction.firstViolated_iff_eval.2 hfault
  · rintro ⟨stackAt, k, i, rfl, hi, htrace, -, hviolated⟩
    obtain ⟨values, hvalues, hlast⟩ := htrace.exists_valuesAfter
    rw [hlast, List.length_map, Instruction.firstViolated_iff_eval] at hviolated
    exact (run_eq_error_iff h (List.ne_nil_of_length_pos hlength)).2
      ⟨k, i, values, fault, hi, hvalues, hviolated, rfl⟩

/-- The trace of `2 * (-4) + 3 * 3 + 1` modulo `7`, and a second load that finds no entry. -/
theorem run_refines_rules_of_loads :
    let c : Code := ⟨⟨7, by decide⟩, ⟨#[3, -4]⟩, [.load 1, .load 2, .combine2 2 3 1]⟩
    let d : Code := ⟨⟨7, by decide⟩, ⟨#[3, -4]⟩, [.load 1, .load 3]⟩
    c.program.length < UInt64.size ∧ d.program.length < UInt64.size ∧ 1 ≤ d.program.length ∧
      (∃ stackAt, 1 ≤ c.program.length ∧ c.IsTrace none stackAt c.program.length ∧
        (stackAt c.program.length).head? = some (2 : Int64).toInt) ∧
      ∃ stackAt k i, 2 = k + 1 ∧ d.program[k]? = some i ∧ d.IsTrace none stackAt k ∧
        (∀ stack, ¬ i.Rule d.modulus d.table none (stackAt k) stack) ∧
        Precondition.FirstViolated
          (i.preconditions d.table.size none (stackAt k).length) (.indexOutOfRange 3 2) := by
  intro c d
  have hvalue : c.modulus.combine 2 (-4) 3 3 1 = 2 := by decide
  have hc : c.run none = .ok (c.modulus.combine 2 (-4) 3 3 1) := by rfl
  rw [hvalue] at hc
  have hd : d.run none = .error ((Fault.indexOutOfRange 3 2).at 2) := by rfl
  exact ⟨by decide, by decide, by decide, ((run_refines_rules c none (by decide)).1 2).1 hc,
    ((run_refines_rules d none (by decide)).2 (by decide) (.indexOutOfRange 3 2) 2).1 hd⟩

end Code

end ResidueMachine
