import ResidueMachine.Run

/-!
# Evaluating programs on lists of values

Executing an instruction takes values off a `Stack`, puts others back, and may give up between the
two.  On the list of the values alone it is a plain function, `Instruction.eval`, in which nothing
is given up halfway.  The two agree on every stack that holds no more values than it has room for
(`execute_eq_eval`), and a fault then leaves the stack as it was.

* `Instruction.eval` : the values after an instruction, or the fault that it meets;
* `Program.eval` : the values after a program, or the failure that ends it;
* `Machine.step_eq_eval`, `Machine.run_eq_eval` : a machine steps and runs by evaluation;
* `Code.valuesAfter` : the values after the first instructions of a code;
* `Code.run_eq_eval`, `Code.run_eq_ok_iff`, `Code.run_eq_error_iff` : a run from the empty stack is
  an evaluation, in which no limit means no bound at all.

Lists of values have the topmost value first.
-/

namespace ResidueMachine

/-! ### One instruction -/

namespace Instruction

/-- The values after an instruction, or the fault that it meets. -/
def eval (m : Modulus) (t : Table) (limit : Option Nat) (i : Instruction) (values : List Int64) :
    Except Fault (List Int64) :=
  match i with
  | load index =>
    match t.get? index with
    | none => .error (.indexOutOfRange index t.size)
    | some word =>
      match limit.filter (· ≤ values.length) with
      | some bound => .error (.overflow bound)
      | none => .ok (word :: values)
  | swap =>
    match values with
    | x :: y :: rest => .ok (y :: x :: rest)
    | _ => .error (.emptyPop 2 values.length)
  | combine2 a b c =>
    match values with
    | x :: y :: rest => .ok (m.combine a x b y c :: rest)
    | _ => .error (.emptyPop 2 values.length)
  | combineIndexed index a b c =>
    match values with
    | [] => .error (.emptyPop 1 0)
    | y :: rest =>
      match t.get? index with
      | none => .error (.indexOutOfRange index t.size)
      | some x => .ok (m.combine a x b y c :: rest)

end Instruction

/-- The values are no more than a limit allows. -/
def Fits (limit : Option Nat) (values : List Int64) : Prop :=
  ∀ bound ∈ limit, values.length ≤ bound

section Instruction

variable {m : Modulus} {t : Table} {limit : Option Nat} {i : Instruction}
  {values values' : List Int64}

@[simp] theorem fits_some {bound : Nat} : Fits (some bound) values ↔ values.length ≤ bound := by
  simp [Fits]

@[simp] theorem fits_none : Fits none values := by
  simp [Fits]

@[simp] theorem fits_nil : Fits limit [] := by
  simp [Fits]

namespace Instruction

theorem eval_of_lt_pops (h : values.length < i.effect.pops) :
    i.eval m t limit values = .error (.emptyPop i.effect.pops values.length) := by
  cases i with
  | load index => cases h
  | swap =>
    match values, h with
    | [], _ => rfl
    | [x], _ => rfl
  | combine2 a b c =>
    match values, h with
    | [], _ => rfl
    | [x], _ => rfl
  | combineIndexed index a b c =>
    match values, h with
    | [], _ => rfl

theorem eval_load_eq_ok_iff {index : Int64} :
    (load index).eval m t limit values = .ok values' ↔
      ∃ word, t.get? index = some word ∧ (∀ bound ∈ limit, values.length < bound) ∧
        values' = word :: values := by
  have hroom : (∀ bound ∈ limit, values.length < bound) ↔
      limit.filter (· ≤ values.length) = none := by
    simp only [Option.filter_eq_none_iff, decide_eq_true_eq, Nat.not_le]
    exact Iff.rfl
  simp only [eval, hroom]
  cases t.get? index with
  | none => simp
  | some word => cases limit.filter (· ≤ values.length) <;> simp [eq_comm]

theorem eval_swap_eq_ok_iff :
    swap.eval m t limit values = .ok values' ↔
      ∃ x y rest, values = x :: y :: rest ∧ values' = y :: x :: rest := by
  constructor
  · intro h
    rcases values with _ | ⟨x, _ | ⟨y, rest⟩⟩ <;> cases h
    exact ⟨x, y, rest, rfl, rfl⟩
  · rintro ⟨x, y, rest, rfl, rfl⟩
    rfl

theorem eval_combine2_eq_ok_iff {a b c : Int64} :
    (combine2 a b c).eval m t limit values = .ok values' ↔
      ∃ x y rest, values = x :: y :: rest ∧ values' = m.combine a x b y c :: rest := by
  constructor
  · intro h
    rcases values with _ | ⟨x, _ | ⟨y, rest⟩⟩ <;> cases h
    exact ⟨x, y, rest, rfl, rfl⟩
  · rintro ⟨x, y, rest, rfl, rfl⟩
    rfl

theorem eval_combineIndexed_eq_ok_iff {index a b c : Int64} :
    (combineIndexed index a b c).eval m t limit values = .ok values' ↔
      ∃ x y rest, t.get? index = some x ∧ values = y :: rest ∧
        values' = m.combine a x b y c :: rest := by
  constructor
  · intro h
    cases values with
    | nil => cases h
    | cons y rest =>
      simp only [eval] at h
      split at h
      · cases h
      · rename_i x hx
        cases h
        exact ⟨x, y, rest, hx, rfl, rfl⟩
  · rintro ⟨x, y, rest, hx, rfl, rfl⟩
    simp only [eval, hx]

/-- **The depth after an instruction** is told by its effect. -/
theorem length_of_eval_eq_ok (h : i.eval m t limit values = .ok values') :
    i.effect.pops ≤ values.length ∧
      values'.length = values.length - i.effect.pops + i.effect.pushes := by
  cases i with
  | load index =>
    obtain ⟨word, -, -, rfl⟩ := eval_load_eq_ok_iff.1 h
    simp [effect]
  | swap =>
    obtain ⟨x, y, rest, rfl, rfl⟩ := eval_swap_eq_ok_iff.1 h
    simp [effect]
  | combine2 a b c =>
    obtain ⟨x, y, rest, rfl, rfl⟩ := eval_combine2_eq_ok_iff.1 h
    simp [effect]
  | combineIndexed index a b c =>
    obtain ⟨x, y, rest, -, rfl, rfl⟩ := eval_combineIndexed_eq_ok_iff.1 h
    simp [effect]

theorem length_le_of_eval_eq_ok (h : i.eval m t limit values = .ok values') :
    values'.length ≤ values.length + 1 := by
  obtain ⟨hpops, hlength⟩ := length_of_eval_eq_ok h
  cases i <;> simp only [effect] at hpops hlength <;> omega

theorem ne_nil_of_eval_eq_ok (h : i.eval m t limit values = .ok values') : values' ≠ [] := by
  obtain ⟨hpops, hlength⟩ := length_of_eval_eq_ok h
  rintro rfl
  cases i <;> simp only [effect, List.length_nil] at hpops hlength <;> omega

theorem fits_of_eval_eq_ok (hfits : Fits limit values) (h : i.eval m t limit values = .ok values') :
    Fits limit values' := by
  intro bound hbound
  have hle := hfits bound hbound
  obtain ⟨hpops, hlength⟩ := length_of_eval_eq_ok h
  cases i with
  | load index =>
    -- the only instruction that leaves more values than it takes
    obtain ⟨word, -, hroom, rfl⟩ := eval_load_eq_ok_iff.1 h
    exact hroom bound hbound
  | swap => simp only [effect] at hpops hlength; omega
  | combine2 a b c => simp only [effect] at hpops hlength; omega
  | combineIndexed index a b c => simp only [effect] at hpops hlength; omega

theorem eval_eq_overflow {bound : Nat} (h : i.eval m t limit values = .error (.overflow bound)) :
    ∃ index word, i = load index ∧ t.get? index = some word ∧ limit = some bound ∧
      bound ≤ values.length := by
  cases i with
  | load index =>
    simp only [eval] at h
    split at h
    · cases h
    · rename_i word hword
      split at h
      · rename_i hlimit
        cases h
        rw [Option.filter_eq_some_iff, decide_eq_true_eq] at hlimit
        exact ⟨index, word, rfl, hword, hlimit⟩
      · cases h
  | swap =>
    simp only [eval] at h
    split at h <;> cases h
  | combine2 a b c =>
    simp only [eval] at h
    split at h <;> cases h
  | combineIndexed index a b c =>
    simp only [eval] at h
    split at h
    · cases h
    · split at h <;> cases h

theorem eval_some_of_lt {bound : Nat} (h : values.length < bound) :
    i.eval m t (some bound) values = i.eval m t none values := by
  have hfilter : (some bound).filter (· ≤ values.length) = none := by
    simpa [Option.filter] using h
  cases i with
  | load index => simp only [eval, hfilter, Option.filter_none]
  | swap => rfl
  | combine2 a b c => rfl
  | combineIndexed index a b c => rfl

end Instruction

end Instruction

/-! ### Executing an instruction -/

/-- The stack with other values. -/
def Stack.withItems {α : Type} (s : Stack α) (items : List α) : Stack α where
  items := items
  maxSize := s.maxSize

namespace Stack

variable {α : Type} {s : Stack α} {x y : α} {rest : List α}

theorem push_of_lt {value : α} (h : s.items.length < s.maxSize) :
    s.push value = .ok (s.withItems (value :: s.items)) := by
  rw [push_eq_ok_iff, s.depth_eq]
  exact ⟨h, rfl, rfl⟩

theorem push_of_le {value : α} (h : s.maxSize ≤ s.items.length) : s.push value = .error value := by
  have : ¬ s.depth < s.maxSize := by
    rw [s.depth_eq]
    omega
  simp only [push, this, ↓reduceIte]

theorem pop_of_items (h : s.items = x :: rest) : s.pop = (some x, s.withItems rest) :=
  pop_eq_some_iff.2 ⟨h, rfl⟩

theorem popPair_of_items (h : s.items = x :: y :: rest) :
    s.popPair = (some (x, y), s.withItems rest) :=
  popPair_eq_some_iff.2 ⟨h, rfl⟩

theorem swapTop?_of_items (h : s.items = x :: y :: rest) :
    s.swapTop? = some (s.withItems (y :: x :: rest)) :=
  swapTop?_eq_some_iff.2 ⟨x, y, rest, h, rfl, rfl⟩

theorem swapTop?_of_length_lt (h : s.items.length < 2) : s.swapTop? = none := by
  rw [Option.eq_none_iff_forall_ne_some]
  intro s' hswap
  obtain ⟨x, y, rest, hitems, -⟩ := swapTop?_eq_some_iff.1 hswap
  rw [hitems] at h
  simp only [List.length_cons] at h
  omega

end Stack

theorem exists_eq_cons_cons {values : List Int64} (h : 2 ≤ values.length) :
    ∃ x y rest, values = x :: y :: rest := by
  match values, h with
  | x :: y :: rest, _ => exact ⟨x, y, rest, rfl⟩

/-- **Executing an instruction is evaluating it**, on every stack that holds no more values than it
has room for.  A fault leaves such a stack as it was. -/
theorem execute_eq_eval (m : Modulus) (t : Table) (i : Instruction) {s : Stack Int64}
    (h : s.items.length ≤ s.maxSize) :
    execute m t i s =
      match i.eval m t (some s.maxSize) s.items with
      | .ok values => .ok () (s.withItems values)
      | .error fault => .error fault s := by
  cases i with
  | load index =>
    rw [execute_load]
    cases hword : t.get? index with
    | none => simp only [Instruction.eval, hword]
    | some word =>
      by_cases hroom : s.items.length < s.maxSize
      · simp only [Stack.push_of_lt hroom, Instruction.eval_some_of_lt hroom]
        simp only [Instruction.eval, hword, Option.filter_none]
      · simp only [Stack.push_of_le (Nat.le_of_not_lt hroom)]
        simp [Instruction.eval, hword, Option.filter, Nat.le_of_not_lt hroom]
  | swap =>
    rw [execute_swap]
    by_cases hdepth : s.items.length < 2
    · rw [Stack.swapTop?_of_length_lt hdepth, Instruction.eval_of_lt_pops hdepth, s.depth_eq]
      rfl
    · obtain ⟨x, y, rest, hitems⟩ := exists_eq_cons_cons (Nat.le_of_not_lt hdepth)
      rw [Stack.swapTop?_of_items hitems, hitems]
      rfl
  | combine2 a b c =>
    rw [execute_combine2]
    by_cases hdepth : s.items.length < 2
    · rw [Stack.popPair_of_length_lt hdepth, Instruction.eval_of_lt_pops hdepth, ← s.depth_eq]
      rfl
    · obtain ⟨x, y, rest, hitems⟩ := exists_eq_cons_cons (Nat.le_of_not_lt hdepth)
      -- the two values taken have made room for the one that is pushed
      have hroom : rest.length < s.maxSize := by
        rw [hitems] at h
        simp only [List.length_cons] at h
        omega
      rw [Stack.popPair_of_items hitems, hitems]
      simp only [Stack.push_of_lt (s := s.withItems rest) hroom]
      rfl
  | combineIndexed index a b c =>
    rw [execute_combineIndexed]
    cases hitems : s.items with
    | nil =>
      rw [Stack.pop_of_items_eq_nil hitems]
      show EStateM.Result.error (Fault.emptyPop 1 s.depth) s = _
      rw [s.depth_eq, hitems]
      rfl
    | cons y rest =>
      have hroom : rest.length < s.maxSize := by
        rw [hitems] at h
        exact h
      rw [Stack.pop_of_items hitems]
      simp only [Instruction.eval]
      cases t.get? index with
      | none => rfl
      | some x =>
        simp only [Stack.push_of_lt (s := s.withItems rest) hroom]
        rfl

/-! ### Programs -/

namespace Program

/-- The values after a program whose first instruction has the given position, or the failure that
ends it. -/
def eval (m : Modulus) (t : Table) (limit : Option Nat) :
    Program → (position : Nat) → List Int64 → Except Failure (List Int64)
  | [], _, values => .ok values
  | i :: rest, position, values =>
    match i.eval m t limit values with
    | .ok values => eval m t limit rest (position + 1) values
    | .error fault => .error (fault.at position)

variable {m : Modulus} {t : Table} {limit : Option Nat} {position : Nat} {values : List Int64}

theorem eval_cons_eq_ok_iff {i : Instruction} {rest : Program} {values' : List Int64} :
    eval m t limit (i :: rest) position values = .ok values' ↔
      ∃ mid, i.eval m t limit values = .ok mid ∧
        eval m t limit rest (position + 1) mid = .ok values' := by
  simp only [eval]
  cases i.eval m t limit values <;> simp

/-- **Evaluation composes.** -/
theorem eval_append (p q : Program) :
    eval m t limit (p ++ q) position values =
      (eval m t limit p position values).bind (eval m t limit q (position + p.length)) := by
  induction p generalizing position values with
  | nil => rfl
  | cons i rest ih =>
    simp only [List.cons_append, eval, List.length_cons]
    cases i.eval m t limit values with
    | ok values' =>
      simp only
      rw [ih, Nat.add_right_comm position 1, Nat.add_assoc position]
    | error fault => rfl

theorem eval_take_succ {p : Program} {k : Nat} {i : Instruction} (h : p[k]? = some i) :
    eval m t limit (p.take (k + 1)) position values =
      (eval m t limit (p.take k) position values).bind
        (eval m t limit [i] (position + k)) := by
  obtain ⟨hk, -⟩ := List.getElem?_eq_some_iff.1 h
  rw [List.take_add_one, h, Option.toList_some, eval_append,
    List.length_take_of_le (Nat.le_of_lt hk)]

/-- **A program fails at its first instruction that meets a fault.** -/
theorem eval_eq_error_iff {p : Program} {failure : Failure} :
    eval m t limit p position values = .error failure ↔
      ∃ k i mid fault, p[k]? = some i ∧ eval m t limit (p.take k) position values = .ok mid ∧
        i.eval m t limit mid = .error fault ∧ failure = fault.at (position + k) := by
  induction p generalizing position values with
  | nil => simp [eval]
  | cons i rest ih =>
    simp only [eval]
    cases hi : i.eval m t limit values with
    | error fault =>
      constructor
      · intro h
        cases h
        exact ⟨0, i, values, fault, rfl, rfl, hi, rfl⟩
      · rintro ⟨_ | k, j, mid, fault', hj, hmid, hfault, rfl⟩
        · cases hj
          cases hmid
          rw [hi] at hfault
          cases hfault
          rfl
        · rw [List.take_succ_cons, eval, hi] at hmid
          cases hmid
    | ok values' =>
      simp only
      rw [ih]
      constructor
      · rintro ⟨k, j, mid, fault, hj, hmid, hfault, rfl⟩
        refine ⟨k + 1, j, mid, fault, hj, ?_, hfault, by rw [Nat.add_right_comm, Nat.add_assoc]⟩
        rw [List.take_succ_cons, eval, hi]
        exact hmid
      · rintro ⟨_ | k, j, mid, fault, hj, hmid, hfault, rfl⟩
        · cases hj
          cases hmid
          rw [hi] at hfault
          cases hfault
        · rw [List.take_succ_cons, eval, hi] at hmid
          exact ⟨k, j, mid, fault, hj, hmid, hfault, by rw [Nat.add_right_comm, Nat.add_assoc]⟩

theorem ne_nil_of_eval_eq_ok {p : Program} {values' : List Int64}
    (h : eval m t limit p position values = .ok values') (hne : p ≠ [] ∨ values ≠ []) :
    values' ≠ [] := by
  induction p generalizing position values with
  | nil =>
    cases h
    simpa using hne
  | cons i rest ih =>
    obtain ⟨mid, hmid, hrest⟩ := eval_cons_eq_ok_iff.1 h
    exact ih hrest (.inr (Instruction.ne_nil_of_eval_eq_ok hmid))

theorem fits_of_eval_eq_ok {p : Program} {values' : List Int64} (hfits : Fits limit values)
    (h : eval m t limit p position values = .ok values') : Fits limit values' := by
  induction p generalizing position values with
  | nil =>
    cases h
    exact hfits
  | cons i rest ih =>
    obtain ⟨mid, hmid, hrest⟩ := eval_cons_eq_ok_iff.1 h
    exact ih (Instruction.fits_of_eval_eq_ok hfits hmid) hrest

theorem eval_some_of_le {bound : Nat} (p : Program) (h : values.length + p.length ≤ bound) :
    eval m t (some bound) p position values = eval m t none p position values := by
  induction p generalizing position values with
  | nil => rfl
  | cons i rest ih =>
    rw [List.length_cons] at h
    simp only [eval]
    rw [Instruction.eval_some_of_lt (by omega)]
    cases hi : i.eval m t none values with
    | ok values' =>
      have := Instruction.length_le_of_eval_eq_ok hi
      exact ih (by omega)
    | error fault => rfl

end Program

/-- The topmost value, or the failure to give one at a position. -/
def topValue (position : Nat) : List Int64 → Except Failure Int64
  | [] => .error (Fault.emptyResult.at position)
  | value :: _ => .ok value

/-! ### Machines -/

namespace Machine

variable {m : Machine} {i : Instruction} {rest : Program}

/-- The stack holds no more values than it has room for. -/
def Bounded (m : Machine) : Prop :=
  m.stack.items.length ≤ m.stack.maxSize

/-- **A machine steps by evaluation.**  A failing step sets the failure and nothing else. -/
theorem step_eq_eval (hbounded : m.Bounded) (hfailure : m.failure? = none)
    (hpending : m.pending = i :: rest) :
    m.step =
      match i.eval m.modulus m.table (some m.stack.maxSize) m.stack.items with
      | .ok values =>
        (.ok true, { m with
          pending := rest, position := m.position + 1, stack := m.stack.withItems values })
      | .error fault =>
        (.error (fault.at m.position), { m with failure? := some (fault.at m.position) }) := by
  simp only [step, hfailure, hpending]
  rw [execute_eq_eval m.modulus m.table i hbounded]
  cases i.eval m.modulus m.table (some m.stack.maxSize) m.stack.items <;> rfl

theorem advanceBy_of_failure {failure : Failure} (h : m.failure? = some failure) (n : Nat) :
    m.advanceBy n = m := by
  induction n with
  | zero => rfl
  | succ n ih => rw [advanceBy, advance_of_failure h, ih]

/-- **A machine runs by evaluation.** -/
theorem run_eq_eval (hbounded : m.Bounded) (hfailure : m.failure? = none) :
    m.run.1 =
      (m.pending.eval m.modulus m.table (some m.stack.maxSize) m.position m.stack.items).bind
        (topValue (m.position + m.pending.length)) := by
  generalize hpending : m.pending = p
  change (m.advanceBy m.pending.length).result = _
  rw [hpending]
  induction p generalizing m with
  | nil =>
    simp only [List.length_nil, advanceBy, result, hfailure, Program.eval, Except.bind, Stack.top?]
    cases m.stack.items <;> rfl
  | cons i rest ih =>
    have hstep := step_eq_eval hbounded hfailure hpending
    rw [List.length_cons, advanceBy, advance, hstep]
    simp only [Program.eval]
    cases hi : i.eval m.modulus m.table (some m.stack.maxSize) m.stack.items with
    | ok values =>
      have hfits : Fits (some m.stack.maxSize) values :=
        Instruction.fits_of_eval_eq_ok (fits_some.2 hbounded) hi
      simp only
      rw [ih (m := { m with
          pending := rest, position := m.position + 1, stack := m.stack.withItems values })
        (fits_some.1 hfits) hfailure rfl, Nat.add_right_comm, Nat.add_assoc]
      rfl
    | error fault =>
      simp only
      rw [advanceBy_of_failure rfl]
      rfl

theorem bounded_start (c : Code) (limit : Option Nat) : (start c limit).Bounded :=
  Nat.zero_le _

end Machine

/-! ### Codes -/

namespace Code

variable {c : Code} {limit : Option Nat}

/-- The values after the first `steps` instructions from the empty stack, or the failure that keeps
them from being executed. -/
def valuesAfter (c : Code) (limit : Option Nat) (steps : Nat) : Except Failure (List Int64) :=
  Program.eval c.modulus c.table limit (c.program.take steps) 1 []

theorem valuesAfter_succ {k : Nat} {i : Instruction} (h : c.program[k]? = some i) :
    c.valuesAfter limit (k + 1) =
      (c.valuesAfter limit k).bind fun values =>
        match i.eval c.modulus c.table limit values with
        | .ok values' => .ok values'
        | .error fault => .error (fault.at (k + 1)) := by
  rw [valuesAfter, Program.eval_take_succ h, Nat.add_comm 1 k]
  rfl

theorem valuesAfter_succ_eq_ok_iff {k : Nat} {i : Instruction} {values' : List Int64}
    (h : c.program[k]? = some i) :
    c.valuesAfter limit (k + 1) = .ok values' ↔
      ∃ values, c.valuesAfter limit k = .ok values ∧
        i.eval c.modulus c.table limit values = .ok values' := by
  rw [valuesAfter_succ h]
  cases c.valuesAfter limit k with
  | error failure => simp [Except.bind]
  | ok values => cases hi : i.eval c.modulus c.table limit values <;> simp [Except.bind, hi]

/-- **A run from the empty stack is an evaluation.**  Programs are too short to fill the stack that
a run without a limit has. -/
theorem run_eq_eval (c : Code) (limit : Option Nat) (h : c.program.length < UInt64.size) :
    c.run limit =
      (c.valuesAfter limit c.program.length).bind (topValue (c.program.length + 1)) := by
  rw [run, Machine.run_eq_eval (Machine.bounded_start c limit) rfl]
  change (Program.eval c.modulus c.table (some (limit.getD unlimitedDepth)) c.program 1 []).bind
    (topValue (1 + c.program.length)) = _
  rw [Nat.add_comm 1, valuesAfter, List.take_length]
  cases limit with
  | none =>
    rw [Option.getD_none, Program.eval_some_of_le]
    simp only [unlimitedDepth, List.length_nil]
    omega
  | some bound => rfl

theorem run_eq_ok_iff (h : c.program.length < UInt64.size) {value : Int64} :
    c.run limit = .ok value ↔
      ∃ rest, c.valuesAfter limit c.program.length = .ok (value :: rest) := by
  rw [run_eq_eval c limit h]
  cases c.valuesAfter limit c.program.length with
  | error failure => simp [Except.bind]
  | ok values => cases values <;> simp [Except.bind, topValue]

/-- **A run fails at the first instruction that meets a fault**, if there is an instruction. -/
theorem run_eq_error_iff (h : c.program.length < UInt64.size) (hne : c.program ≠ [])
    {failure : Failure} :
    c.run limit = .error failure ↔
      ∃ k i values fault, c.program[k]? = some i ∧ c.valuesAfter limit k = .ok values ∧
        i.eval c.modulus c.table limit values = .error fault ∧ failure = fault.at (k + 1) := by
  have hfirst : Program.eval c.modulus c.table limit c.program 1 [] = .error failure ↔ _ :=
    Program.eval_eq_error_iff
  simp only [Nat.add_comm 1] at hfirst
  refine Iff.trans ?_ hfirst
  rw [run_eq_eval c limit h, valuesAfter, List.take_length]
  cases hvalues : Program.eval c.modulus c.table limit c.program 1 [] with
  | error failure => simp [Except.bind]
  | ok values =>
    -- the last instruction has left a value
    have := Program.ne_nil_of_eval_eq_ok hvalues (.inl hne)
    cases values with
    | nil => contradiction
    | cons value rest => simp [Except.bind, topValue]

end Code

end ResidueMachine
