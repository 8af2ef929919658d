import ResidueMachine.Proofs.Histories

/-!
# Machines that share a table

Several programs can run at the same time on one modulus and one table.  A `Pool` holds the shared
parts once, and beside them what each machine has to itself.  A step of one machine is given the
shared parts as they are now and may leave others behind, so that machines could disturb each other.
They do not: no step changes what is shared.

Which machine steps next is decided by a schedule, a list of their numbers.  The machines of a pool
are then where their own steps take them (`Pool.machine?_after`): how often a machine has been
scheduled is all that matters to it, also when others have failed or finished.

* `Machine.advance_modulus`, `Machine.advance_table` : a step changes nothing that is shared;
* `Pool.machine?_step_self`, `Pool.machine?_step_of_ne` : a step of a machine is one of the machine
  alone, and none of any other machine;
* `Pool.machine?_after` : after a schedule, a machine has made its own steps;
* `Machine.IsSettled.result_eq` : the result of a settled machine is that of a run from anywhere
  before;
* `Pool.interleaved_steps_run_alone` : machines that share a table run as if they were alone.
-/

namespace ResidueMachine

/-- What a machine has to itself. -/
structure Worker where
  /-- The instructions that have not been executed, in order. -/
  pending : Program
  /-- The 1-based number of the next instruction. -/
  position : Nat
  /-- The stack. -/
  stack : Stack Int64
  /-- The failure that stopped the machine. -/
  failure? : Option Failure
  deriving DecidableEq

/-- What the machine has to itself. -/
def Machine.worker (m : Machine) : Worker :=
  ⟨m.pending, m.position, m.stack, m.failure?⟩

/-- Machines that share a modulus and a table. -/
structure Pool where
  /-- The modulus of all machines. -/
  modulus : Modulus
  /-- The table that all machines read. -/
  table : Table
  /-- What each machine has to itself, in the order of the programs. -/
  workers : List Worker
  deriving DecidableEq

namespace Pool

/-- Machines that have executed nothing, one for each program. -/
def start (modulus : Modulus) (table : Table) (programs : List Program) (limit : Option Nat) :
    Pool where
  modulus := modulus
  table := table
  workers := programs.map fun program =>
    (Machine.start ⟨modulus, table, program⟩ limit).worker

/-- The machine that a worker is together with the shared parts. -/
def machineOf (p : Pool) (w : Worker) : Machine :=
  ⟨p.modulus, p.table, w.pending, w.position, w.stack, w.failure?⟩

/-- The machines, in the order of the programs. -/
def machines (p : Pool) : List Machine :=
  p.workers.map p.machineOf

/-- One of the machines. -/
def machine? (p : Pool) (i : Nat) : Option Machine :=
  p.workers[i]?.map p.machineOf

/-- A step of one of the machines.  It leaves behind the modulus, the table and the worker that the
machine has after the step. -/
def step (p : Pool) (i : Nat) : Pool :=
  match p.machine? i with
  | some m => ⟨m.advance.modulus, m.advance.table, p.workers.set i m.advance.worker⟩
  | none => p

/-- The pool after the steps of a schedule, which names the machine that makes the next step. -/
def after (p : Pool) (schedule : List Nat) : Pool :=
  schedule.foldl step p

end Pool

/-! ### Steps of one machine -/

namespace Machine

@[simp] theorem advance_modulus (m : Machine) : m.advance.modulus = m.modulus := by
  rw [advance]
  rcases m.step_cases with ⟨failure, -, hstep⟩ | ⟨-, -, hstep⟩ | ⟨i, rest, stack, -, -, hstep⟩ |
    ⟨i, rest, fault, stack, -, -, hstep⟩
  all_goals rw [hstep]

@[simp] theorem advance_table (m : Machine) : m.advance.table = m.table := by
  rw [advance]
  rcases m.step_cases with ⟨failure, -, hstep⟩ | ⟨-, -, hstep⟩ | ⟨i, rest, stack, -, -, hstep⟩ |
    ⟨i, rest, fault, stack, -, -, hstep⟩
  all_goals rw [hstep]

/-- The machine has failed, or has no instruction left to execute. -/
def IsSettled (m : Machine) : Prop :=
  m.failure? ≠ none ∨ m.isFinished

variable {m : Machine}

theorem IsSettled.advance_eq (h : m.IsSettled) : m.advance = m := by
  rcases h with hfailure | hfinished
  · obtain ⟨failure, hfailure⟩ := Option.ne_none_iff_exists'.1 hfailure
    exact advance_of_failure hfailure
  · exact advance_of_pending_eq_nil (List.isEmpty_iff.1 hfinished)

theorem IsSettled.advanceBy_eq (h : m.IsSettled) (k : Nat) : m.advanceBy k = m := by
  induction k with
  | zero => rfl
  | succ k ih => rw [advanceBy, h.advance_eq, ih]

theorem IsSettled.result_eq (h : m.IsSettled) : m.result = m.run.1 := by
  rw [run, h.advanceBy_eq]

theorem isSettled_advanceBy {k : Nat} (h : m.pending.length ≤ k) : (m.advanceBy k).IsSettled := by
  induction k generalizing m with
  | zero =>
    have hnil : m.pending = [] := List.eq_nil_of_length_eq_zero (Nat.le_zero.1 h)
    exact .inr (List.isEmpty_iff.2 hnil)
  | succ k ih =>
    rw [advanceBy]
    rcases m.step_cases with ⟨failure, hfailure, hstep⟩ | ⟨-, hpending, hstep⟩ |
      ⟨i, rest, stack, -, hpending, hstep⟩ | ⟨i, rest, fault, stack, -, -, hstep⟩
    · have hsettled : m.IsSettled := .inl (by rw [hfailure]; exact Option.some_ne_none failure)
      rwa [hsettled.advance_eq, hsettled.advanceBy_eq]
    · have hsettled : m.IsSettled := .inr (List.isEmpty_iff.2 hpending)
      rwa [hsettled.advance_eq, hsettled.advanceBy_eq]
    · refine ih ?_
      rw [hpending] at h
      rw [advance, hstep]
      exact Nat.le_of_succ_le_succ h
    · have hsettled : m.advance.IsSettled := by
        rw [advance, hstep]
        exact .inl (Option.some_ne_none _)
      rwa [hsettled.advanceBy_eq]

end Machine

namespace Pool

open Machine

variable {p : Pool} {i j : Nat} {m : Machine}

/-! ### Steps in a pool -/

theorem machine?_eq_some_iff :
    p.machine? i = some m ↔
      p.workers[i]? = some m.worker ∧ m.modulus = p.modulus ∧ m.table = p.table := by
  rw [machine?, Option.map_eq_some_iff]
  constructor
  · rintro ⟨w, hw, rfl⟩
    exact ⟨hw, rfl, rfl⟩
  · rintro ⟨hw, hmodulus, htable⟩
    refine ⟨m.worker, hw, ?_⟩
    rw [machineOf, ← hmodulus, ← htable]
    rfl

theorem step_eq_set (h : p.machine? i = some m) :
    p.step i = { p with workers := p.workers.set i m.advance.worker } := by
  obtain ⟨-, hmodulus, htable⟩ := machine?_eq_some_iff.1 h
  simp only [step, h, advance_modulus, advance_table, hmodulus, htable]

theorem step_eq_self (h : p.machine? i = none) : p.step i = p := by
  simp only [step, h]

/-- **A step in a pool is a step of the machine alone.** -/
theorem machine?_step_self (p : Pool) (i : Nat) :
    (p.step i).machine? i = (p.machine? i).map advance := by
  cases h : p.machine? i with
  | none => rw [step_eq_self h, h, Option.map_none]
  | some m =>
    obtain ⟨hw, hmodulus, htable⟩ := machine?_eq_some_iff.1 h
    obtain ⟨hi, -⟩ := List.getElem?_eq_some_iff.1 hw
    rw [step_eq_set h, Option.map_some, machine?_eq_some_iff]
    exact ⟨List.getElem?_set_self hi, m.advance_modulus.trans hmodulus,
      m.advance_table.trans htable⟩

theorem machine?_step_of_ne (h : j ≠ i) : (p.step j).machine? i = p.machine? i := by
  cases hj : p.machine? j with
  | none => rw [step_eq_self hj]
  | some m =>
    rw [step_eq_set hj, machine?, List.getElem?_set_ne h]
    rfl

/-- **After a schedule, each machine has made its own steps.** -/
theorem machine?_after (p : Pool) (schedule : List Nat) (i : Nat) :
    (p.after schedule).machine? i = (p.machine? i).map (advanceBy (schedule.count i)) := by
  induction schedule generalizing p with
  | nil => exact Option.map_id'.symm
  | cons j rest ih =>
    change ((p.step j).after rest).machine? i = _
    by_cases hji : j = i
    · subst hji
      rw [ih, machine?_step_self, List.count_cons_self, Option.map_map]
      rfl
    · rw [ih, machine?_step_of_ne hji, List.count_cons_of_ne hji]

/-! ### Pools from the start -/

section Start

variable {modulus : Modulus} {table : Table} {programs : List Program} {limit : Option Nat}
  {schedule : List Nat}

theorem getElem?_machines (p : Pool) (i : Nat) : p.machines[i]? = p.machine? i :=
  List.getElem?_map

theorem machine?_after_start :
    ((start modulus table programs limit).after schedule).machine? i =
      programs[i]?.map fun program =>
        (Machine.start ⟨modulus, table, program⟩ limit).advanceBy (schedule.count i) := by
  have hstart : (start modulus table programs limit).machine? i =
      programs[i]?.map fun program => Machine.start ⟨modulus, table, program⟩ limit := by
    rw [machine?, start, List.getElem?_map, Option.map_map]
    rfl
  rw [machine?_after, hstart, Option.map_map]
  rfl

/-- A schedule that gives each machine a step for each of its instructions settles all of them. -/
theorem isSettled_of_count
    (h : ∀ (i : Nat) (program : Program), programs[i]? = some program →
      program.length ≤ schedule.count i) :
    ∀ m ∈ ((start modulus table programs limit).after schedule).machines, m.IsSettled := by
  intro m hm
  obtain ⟨i, hi⟩ := List.mem_iff_getElem?.1 hm
  rw [getElem?_machines, machine?_after_start, Option.map_eq_some_iff] at hi
  obtain ⟨program, hprogram, rfl⟩ := hi
  exact isSettled_advanceBy (h i program hprogram)

/-- **When all machines are settled, their results are those of runs.** -/
theorem map_result_machines
    (h : ∀ m ∈ ((start modulus table programs limit).after schedule).machines, m.IsSettled) :
    ((start modulus table programs limit).after schedule).machines.map result =
      runPrograms modulus table programs limit := by
  refine List.ext_getElem? fun i => ?_
  rw [runPrograms, List.getElem?_map, List.getElem?_map, getElem?_machines]
  cases hm : ((start modulus table programs limit).after schedule).machine? i with
  | none =>
    rw [machine?_after_start, Option.map_eq_none_iff] at hm
    rw [hm]
    rfl
  | some m =>
    have hsettled : m.IsSettled := h m (List.mem_of_getElem? ((getElem?_machines _ i).trans hm))
    rw [machine?_after_start, Option.map_eq_some_iff] at hm
    obtain ⟨program, hprogram, rfl⟩ := hm
    -- the steps that the machine has made are the beginning of its run
    rw [hprogram, Option.map_some, Option.map_some, hsettled.result_eq, run_advanceBy]
    rfl

end Start

end Pool

/-- **Machines that share a table run as if they were alone.**  However the steps of the machines of
several programs are interleaved, the modulus and the table stay as they are, and each machine is
where a machine alone is after as many steps as it has been given, whatever has become of the
others.  A schedule with enough steps for each program settles all machines, so that each has failed
or finished.  Whenever they are settled, their results are those of running the programs, which are
those of running their codes one by one. -/
theorem Pool.interleaved_steps_run_alone (modulus : Modulus) (table : Table)
    (programs : List Program) (limit : Option Nat) (schedule : List Nat) :
    let pool := (Pool.start modulus table programs limit).after schedule
    let code (program : Program) : Code := ⟨modulus, table, program⟩
    (∀ i, pool.machine? i = programs[i]?.map fun program =>
        (Machine.start (code program) limit).advanceBy (schedule.count i)) ∧
      ((∀ (i : Nat) (program : Program), programs[i]? = some program →
          program.length ≤ schedule.count i) →
        ∀ m ∈ pool.machines, m.IsSettled) ∧
      ((∀ m ∈ pool.machines, m.IsSettled) →
        pool.machines.map Machine.result = runPrograms modulus table programs limit) ∧
      runPrograms modulus table programs limit = runCodes (programs.map code) limit ∧
      runPrograms modulus table programs limit = programs.map fun program =>
        (code program).run limit := by
  intro pool code
  refine ⟨fun i => machine?_after_start, isSettled_of_count, map_result_machines, ?_, rfl⟩
  rw [runCodes, List.map_map]
  rfl

/-- A program that fails at its first step, between the steps of another one. -/
theorem Pool.interleaved_steps_run_alone_failing :
    let programs : List Program := [[.load 1, .load 2, .swap], [.swap]]
    let pool := (Pool.start ⟨10, by decide⟩ ⟨#[5, 7]⟩ programs none).after [0, 1, 0, 1, 0]
    (∀ m ∈ pool.machines, m.IsSettled) ∧
      pool.machines.map Machine.result = [.ok 5, .error ((Fault.emptyPop 2 0).at 1)] := by
  intro programs pool
  obtain ⟨-, hsettled, hresults, -⟩ := Pool.interleaved_steps_run_alone ⟨10, by decide⟩
    ⟨#[5, 7]⟩ programs none [0, 1, 0, 1, 0]
  have henough : ∀ (i : Nat) (program : Program), programs[i]? = some program →
      program.length ≤ [0, 1, 0, 1, 0].count i := by
    rintro (_ | _ | i) program hprogram
    · cases hprogram
      decide
    · cases hprogram
      decide
    · cases hprogram
  refine ⟨hsettled henough, ?_⟩
  rw [hresults (hsettled henough)]
  rfl

end ResidueMachine
