import ResidueMachine.Proofs.Histories

/-!
# Where values come from

Loads and exchanges move words without reducing them, and every other instruction leaves a residue.
So a value on the stack of a machine is a residue, or a word of the table that some executed load
names, just as the table has it (`Code.reduced_or_loaded_of_valuesAfter`).  Nothing else can be on
the stack, whatever calls have been made on the machine.

* `Modulus.IsReduced` : a word lies in `[0, M)`;
* `Program.Loads` : a load of a program names a word;
* `Instruction.origin_of_eval` : the origin of the values that an instruction leaves;
* `Machine.values_reduced_or_loaded` : the values and the results of all machines that calls lead
  to.
-/

namespace ResidueMachine

/-- The word is a residue, that is, it lies in `[0, M)`. -/
def Modulus.IsReduced (m : Modulus) (word : Int64) : Prop :=
  0 ≤ word.toInt ∧ word.toInt < m.val.toInt

instance (m : Modulus) (word : Int64) : Decidable (m.IsReduced word) :=
  inferInstanceAs (Decidable (_ ∧ _))

/-- A load of the program names the word. -/
def Program.Loads (p : Program) (t : Table) (word : Int64) : Prop :=
  ∃ index, Instruction.load index ∈ p ∧ t.get? index = some word

theorem Modulus.isReduced_combine (m : Modulus) (a x b y c : Int64) :
    m.IsReduced (m.combine a x b y c) :=
  ⟨m.toInt_reduce_nonneg _, m.toInt_reduce_lt _⟩

theorem Table.mem_toList_of_get? {t : Table} {index word : Int64} (h : t.get? index = some word) :
    word ∈ t.toList := by
  unfold get? at h
  split at h
  · exact Array.mem_toList_iff.2 (Array.mem_of_getElem? h)
  · cases h

namespace Program

variable {p q : Program} {t : Table} {word : Int64}

theorem Loads.mono (h : p.Loads t word) (hsubset : p ⊆ q) : q.Loads t word := by
  obtain ⟨index, hload, hword⟩ := h
  exact ⟨index, hsubset hload, hword⟩

theorem Loads.mem_toList (h : p.Loads t word) : word ∈ t.toList := by
  obtain ⟨index, -, hword⟩ := h
  exact Table.mem_toList_of_get? hword

end Program

/-! ### One instruction -/

namespace Instruction

variable {m : Modulus} {t : Table} {limit : Option Nat} {i : Instruction}
  {values values' : List Int64} {value : Int64}

/-- **The origin of the values that an instruction leaves**: each was there before, or is a residue,
or is the word that the instruction loads. -/
theorem origin_of_eval (h : i.eval m t limit values = .ok values') (hvalue : value ∈ values') :
    value ∈ values ∨ m.IsReduced value ∨ Program.Loads [i] t value := by
  cases i with
  | load index =>
    obtain ⟨word, hword, -, rfl⟩ := eval_load_eq_ok_iff.1 h
    rcases List.mem_cons.1 hvalue with rfl | hrest
    · exact .inr (.inr ⟨index, List.mem_singleton_self _, hword⟩)
    · exact .inl hrest
  | swap =>
    obtain ⟨x, y, rest, rfl, rfl⟩ := eval_swap_eq_ok_iff.1 h
    exact .inl ((List.Perm.swap x y rest).mem_iff.1 hvalue)
  | combine2 a b c =>
    obtain ⟨x, y, rest, rfl, rfl⟩ := eval_combine2_eq_ok_iff.1 h
    rcases List.mem_cons.1 hvalue with rfl | hrest
    · exact .inr (.inl (m.isReduced_combine a x b y c))
    · exact .inl (List.mem_cons_of_mem x (List.mem_cons_of_mem y hrest))
  | combineIndexed index a b c =>
    obtain ⟨x, y, rest, -, rfl, rfl⟩ := eval_combineIndexed_eq_ok_iff.1 h
    rcases List.mem_cons.1 hvalue with rfl | hrest
    · exact .inr (.inl (m.isReduced_combine a x b y c))
    · exact .inl (List.mem_cons_of_mem y hrest)

theorem isReduced_top_of_eval (h : i.eval m t limit values = .ok values')
    (hcombines : i.opcode = .combine2 ∨ i.opcode = .combineIndexed) :
    ∃ top rest, values' = top :: rest ∧ m.IsReduced top := by
  cases i with
  | load index => rcases hcombines with hop | hop <;> cases hop
  | swap => rcases hcombines with hop | hop <;> cases hop
  | combine2 a b c =>
    obtain ⟨x, y, rest, -, rfl⟩ := eval_combine2_eq_ok_iff.1 h
    exact ⟨_, rest, rfl, m.isReduced_combine a x b y c⟩
  | combineIndexed index a b c =>
    obtain ⟨x, y, rest, -, -, rfl⟩ := eval_combineIndexed_eq_ok_iff.1 h
    exact ⟨_, rest, rfl, m.isReduced_combine a x b y c⟩

end Instruction

/-! ### Runs -/

namespace Code

variable {c : Code} {limit : Option Nat} {k : Nat} {values : List Int64}

/-- **Every value is a residue or has been loaded**, and stays as it was loaded. -/
theorem reduced_or_loaded_of_valuesAfter (hk : k ≤ c.program.length)
    (h : c.valuesAfter limit k = .ok values) :
    ∀ value ∈ values,
      c.modulus.IsReduced value ∨ Program.Loads (c.program.take k) c.table value := by
  induction k generalizing values with
  | zero =>
    cases h
    exact fun value hvalue => absurd hvalue List.not_mem_nil
  | succ k ih =>
    have hi : c.program[k]? = some c.program[k] := List.getElem?_eq_getElem hk
    obtain ⟨before, hbefore, heval⟩ := (valuesAfter_succ_eq_ok_iff hi).1 h
    have htake : c.program.take (k + 1) = c.program.take k ++ [c.program[k]] := by
      rw [List.take_add_one, hi, Option.toList_some]
    intro value hvalue
    rw [htake]
    rcases Instruction.origin_of_eval heval hvalue with hold | hreduced | hload
    · exact (ih (Nat.le_of_succ_le hk) hbefore value hold).imp_right fun hloaded =>
        hloaded.mono (List.subset_append_left _ _)
    · exact .inl hreduced
    · exact .inr (hload.mono (List.subset_append_right _ _))

theorem isReduced_top_of_valuesAfter {i : Instruction} (hk : k ≤ c.program.length)
    (h : c.valuesAfter limit k = .ok values) (hi : (c.program.take k).getLast? = some i)
    (hcombines : i.opcode = .combine2 ∨ i.opcode = .combineIndexed) :
    ∃ top rest, values = top :: rest ∧ c.modulus.IsReduced top := by
  cases k with
  | zero => cases hi
  | succ k =>
    have hget : c.program[k]? = some c.program[k] := List.getElem?_eq_getElem hk
    rw [List.take_add_one, hget, Option.toList_some, List.getLast?_concat] at hi
    obtain rfl := Option.some.inj hi
    obtain ⟨before, -, heval⟩ := (valuesAfter_succ_eq_ok_iff hget).1 h
    exact Instruction.isReduced_top_of_eval heval hcombines

end Code

/-! ### Machines -/

namespace Machine

variable {c : Code} {limit : Option Nat} {m : Machine} {value : Int64}

theorem Reached.valuesAfter (h : Reached c limit m) :
    m.position - 1 ≤ c.program.length ∧
      c.valuesAfter (some (limit.getD unlimitedDepth)) (m.position - 1) = .ok m.stack.items := by
  obtain ⟨k, hk, hposition, -, hvalues⟩ := h.executed
  rw [hposition, Nat.add_sub_cancel]
  exact ⟨hk, hvalues⟩

theorem mem_items_of_result (h : m.result = .ok value) : value ∈ m.stack.items := by
  unfold result at h
  split at h
  · cases h
  · rename_i htop
    cases h
    exact List.mem_of_mem_head? htop
  · cases h

theorem Reached.reduced_or_loaded (h : Reached c limit m) (hvalue : value ∈ m.stack.items) :
    c.modulus.IsReduced value ∨ Program.Loads (c.program.take (m.position - 1)) c.table value :=
  Code.reduced_or_loaded_of_valuesAfter h.valuesAfter.1 h.valuesAfter.2 value hvalue

/-- A result that is no residue is a word of the table.  A run is a number of steps and a result. -/
theorem Reached.reduced_or_loaded_of_result (h : Reached c limit m)
    (hresult : m.result = .ok value ∨ m.run.1 = .ok value) :
    c.modulus.IsReduced value ∨ c.program.Loads c.table value := by
  have hwhole {m : Machine} (h : Reached c limit m) (hresult : m.result = .ok value) :
      c.modulus.IsReduced value ∨ c.program.Loads c.table value :=
    (h.reduced_or_loaded (mem_items_of_result hresult)).imp_right fun hloaded =>
      hloaded.mono (List.take_subset _ _)
  rcases hresult with hresult | hrun
  · exact hwhole h hresult
  · exact hwhole (h.advanceBy m.pending.length) hrun

/-- **Values are residues or have been loaded.**  After any calls on a machine, each value on its
stack lies in `[0, M)` or is the word of the table that an executed load names, and after a
combination the topmost one lies in `[0, M)`.  Hence if all words of the table lie in `[0, M)`, then
so do all values and all results.  In any case a result that does not is a word of the table. -/
theorem values_reduced_or_loaded (c : Code) (limit : Option Nat) (calls : List Call) :
    let m := (start c limit).after calls
    let executed : Program := c.program.take (m.position - 1)
    (∀ value ∈ m.stack.items, c.modulus.IsReduced value ∨ executed.Loads c.table value) ∧
      (∀ i ∈ executed.getLast?, i.opcode = .combine2 ∨ i.opcode = .combineIndexed →
        ∃ top rest, m.stack.items = top :: rest ∧ c.modulus.IsReduced top) ∧
      ((∀ word ∈ c.table.toList, c.modulus.IsReduced word) →
        (∀ value ∈ m.stack.items, c.modulus.IsReduced value) ∧
          ∀ value, m.result = .ok value ∨ m.run.1 = .ok value → c.modulus.IsReduced value) ∧
      ∀ value, m.result = .ok value ∨ m.run.1 = .ok value → ¬ c.modulus.IsReduced value →
        c.program.Loads c.table value := by
  intro m executed
  have hreached : Reached c limit m := reached_after c limit calls
  refine ⟨fun value hvalue => hreached.reduced_or_loaded hvalue, fun i hi hcombines => ?_,
    fun htable => ⟨fun value hvalue => ?_, fun value hresult => ?_⟩,
    fun value hresult hnot => ?_⟩
  · exact Code.isReduced_top_of_valuesAfter hreached.valuesAfter.1 hreached.valuesAfter.2 hi
      hcombines
  · exact (hreached.reduced_or_loaded hvalue).elim id fun hloaded =>
      htable value hloaded.mem_toList
  · exact (hreached.reduced_or_loaded_of_result hresult).elim id fun hloaded =>
      htable value hloaded.mem_toList
  · exact (hreached.reduced_or_loaded_of_result hresult).resolve_left hnot

/-- A combination of two words that are no residues, and after it a load of one of them. -/
theorem values_reduced_or_loaded_unreduced :
    let m : Modulus := ⟨7, by decide⟩
    let c : Code := ⟨m, ⟨#[10, -4]⟩, [.load 1, .load 2, .combine2 2 3 1, .load 1]⟩
    let d : Code := ⟨m, ⟨#[3, 4]⟩, [.load 1, .load 2, .swap]⟩
    (∃ top rest, ((start c none).after [.step, .step, .step]).stack.items = top :: rest ∧
        m.IsReduced top) ∧
      ((start c none).after [.run]).result = .ok 10 ∧ ¬ m.IsReduced 10 ∧
      c.program.Loads c.table 10 ∧
      (∀ word ∈ d.table.toList, m.IsReduced word) ∧
      ((start d none).after [.run]).stack.items = [3, 4] ∧
      ∀ value ∈ ((start d none).after [.run]).stack.items, m.IsReduced value := by
  intro m c d
  have hresult : ((start c none).after [.run]).result = .ok 10 := by rfl
  have hten : ¬ m.IsReduced 10 := by decide
  have htable : ∀ word ∈ d.table.toList, m.IsReduced word :=
    List.forall_mem_cons.2 ⟨by decide, List.forall_mem_singleton.2 (by decide)⟩
  obtain ⟨-, htop, -, -⟩ := values_reduced_or_loaded c none [.step, .step, .step]
  obtain ⟨-, -, -, hword⟩ := values_reduced_or_loaded c none [.run]
  obtain ⟨-, -, hreduced, -⟩ := values_reduced_or_loaded d none [.run]
  exact ⟨htop _ rfl (.inl rfl), hresult, hten, hword 10 (.inl hresult) hten, htable, rfl,
    (hreduced htable).1⟩

end Machine

end ResidueMachine
