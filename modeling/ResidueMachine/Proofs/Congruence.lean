import Mathlib.Data.Int.ModEq
import ResidueMachine.Proofs.Except
import ResidueMachine.Proofs.Evaluation

/-!
# Congruent runs

Words are congruent if they leave the same residue.  Two machines that start from congruent tables
and run instructions with congruent coefficients stay in step, and their values stay congruent,
although loads move words unreduced and each machine reduces with a modulus of its own.

The two machines walk together under a relation `R` between the values of one and of the other
(`Machine.InStep`).  A step keeps it, whatever `R` is, provided that the entries of the tables are
related and that combining related values gives related values (`Combines`).  It is used with two
relations: congruence modulo a divisor of the modulus, and equality.

* `Instruction.eval_agree` : related values before an instruction give related values after it;
* `Machine.InStep.advance` : machines in step stay in step;
* `Code.run_congruent` : codes that are congruent have congruent runs.
-/

namespace ResidueMachine

/-- Words that leave the same residue. -/
def Congruent (modulus : Int) (x y : Int64) : Prop :=
  x.toInt ≡ y.toInt [ZMOD modulus]

instance (modulus : Int) (x y : Int64) : Decidable (Congruent modulus x y) :=
  inferInstanceAs (Decidable (_ ≡ _ [ZMOD _]))

/-- Instructions of the same kind, with the same index and congruent coefficients. -/
inductive Instruction.CongruentTo (modulus : Int) : Instruction → Instruction → Prop
  /-- The index is the same. -/
  | load {index : Int64} : CongruentTo modulus (.load index) (.load index)
  /-- There is no operand. -/
  | swap : CongruentTo modulus .swap .swap
  /-- All operands are coefficients. -/
  | combine2 {a b c a' b' c' : Int64} : Congruent modulus a a' → Congruent modulus b b' →
      Congruent modulus c c' → CongruentTo modulus (.combine2 a b c) (.combine2 a' b' c')
  /-- The first operand is the index, the others are coefficients. -/
  | combineIndexed {index a b c a' b' c' : Int64} : Congruent modulus a a' →
      Congruent modulus b b' → Congruent modulus c c' →
      CongruentTo modulus (.combineIndexed index a b c) (.combineIndexed index a' b' c')

/-- Congruent coefficients combine related values to related values. -/
def Combines (modulus : Int) (R : Int64 → Int64 → Prop) (m n : Modulus) : Prop :=
  ∀ {a x b y c a' x' b' y' c' : Int64}, Congruent modulus a a' → Congruent modulus b b' →
    Congruent modulus c c' → R x x' → R y y' → R (m.combine a x b y c) (n.combine a' x' b' y' c')

/-! ### The two relations -/

theorem combines_congruent {m n : Modulus} (h : n.val.toInt ∣ m.val.toInt) :
    Combines n.val.toInt (Congruent n.val.toInt) m n := by
  intro a x b y c a' x' b' y' c' ha hb hc hx hy
  unfold Congruent at *
  rw [Modulus.toInt_combine, Modulus.toInt_combine]
  calc (a.toInt * x.toInt + b.toInt * y.toInt + c.toInt) % m.val.toInt
      ≡ a.toInt * x.toInt + b.toInt * y.toInt + c.toInt [ZMOD n.val.toInt] :=
        (Int.mod_modEq _ _).of_dvd h
    _ ≡ a'.toInt * x'.toInt + b'.toInt * y'.toInt + c'.toInt [ZMOD n.val.toInt] :=
        ((ha.mul hx).add (hb.mul hy)).add hc
    _ ≡ (a'.toInt * x'.toInt + b'.toInt * y'.toInt + c'.toInt) % n.val.toInt [ZMOD n.val.toInt] :=
        (Int.mod_modEq _ _).symm

theorem combines_eq (m : Modulus) : Combines m.val.toInt Eq m m := by
  rintro a x b y c a' _ b' _ c' ha hb hc rfl rfl
  rw [← Int64.toInt_inj, Modulus.toInt_combine, Modulus.toInt_combine]
  exact ((ha.mul_right _).add (hb.mul_right _)).add hc

/-! ### One instruction -/

section Instruction

variable {R : Int64 → Int64 → Prop} {modulus : Int} {m n : Modulus} {t u : Table}

theorem Table.size_eq_of_forall₂ (h : List.Forall₂ R t.toList u.toList) : t.size = u.size :=
  h.length_eq

theorem Table.get?_rel (h : List.Forall₂ R t.toList u.toList) (index : Int64) :
    Option.Rel R (t.get? index) (u.get? index) := by
  have hsize := size_eq_of_forall₂ h
  cases ht : t.get? index with
  | none =>
    rw [get?_eq_none_iff, hsize, ← get?_eq_none_iff] at ht
    rw [ht]
    exact .none
  | some x =>
    cases hu : u.get? index with
    | none =>
      rw [get?_eq_none_iff, ← hsize, ← get?_eq_none_iff, ht] at hu
      cases hu
    | some y =>
      unfold get? at ht hu
      split at ht
      · rename_i hpos
        rw [if_pos hpos] at hu
        obtain ⟨hlt, rfl⟩ := Array.getElem?_eq_some_iff.1 ht
        obtain ⟨hlt', rfl⟩ := Array.getElem?_eq_some_iff.1 hu
        exact .some (h.get hlt hlt')
      · cases ht

/-- **Related values before an instruction give related values after it**, or both meet the same
fault. -/
theorem Instruction.eval_agree (htable : List.Forall₂ R t.toList u.toList)
    (hcombines : Combines modulus R m n) {i j : Instruction} (hij : i.CongruentTo modulus j)
    {values values' : List Int64} (hvalues : List.Forall₂ R values values')
    (limit : Option Nat) :
    Except.Agree (List.Forall₂ R) (i.eval m t limit values) (j.eval n u limit values') := by
  cases hij with
  | load =>
    rename_i index
    simp only [eval, ← hvalues.length_eq, ← Table.size_eq_of_forall₂ htable]
    have hwords := Table.get?_rel htable index
    generalize t.get? index = x, u.get? index = y at hwords
    cases hwords with
    | none => exact .error
    | some hword =>
      cases limit.filter (· ≤ values.length) with
      | none => exact .ok (.cons hword hvalues)
      | some bound => exact .error
  | swap =>
    rcases hvalues with _ | ⟨hx, _ | ⟨hy, hrest⟩⟩
    · exact .error
    · exact .error
    · exact .ok (.cons hy (.cons hx hrest))
  | combine2 ha hb hc =>
    rcases hvalues with _ | ⟨hx, _ | ⟨hy, hrest⟩⟩
    · exact .error
    · exact .error
    · exact .ok (.cons (hcombines ha hb hc hx hy) hrest)
  | combineIndexed ha hb hc =>
    rename_i index _ _ _ _ _ _
    rcases hvalues with _ | ⟨hy, hrest⟩
    · exact .error
    · simp only [eval, ← Table.size_eq_of_forall₂ htable]
      have hwords := Table.get?_rel htable index
      generalize t.get? index = x, u.get? index = y at hwords
      cases hwords with
      | none => exact .error
      | some hx => exact .ok (.cons (hcombines ha hb hc hx hy) hrest)

end Instruction

/-! ### Machines -/

namespace Machine

/-- Two machines at the same position with related values on their stacks. -/
structure InStep (R : Int64 → Int64 → Prop) (modulus : Int) (m n : Machine) : Prop where
  /-- The same instruction is next. -/
  position_eq : m.position = n.position
  /-- Both have failed in the same way, or neither has. -/
  failure_eq : m.failure? = n.failure?
  /-- The stacks have the same room. -/
  maxSize_eq : m.stack.maxSize = n.stack.maxSize
  /-- The first stack holds no more than it has room for. -/
  bounded : m.Bounded
  /-- The tables have related entries. -/
  tables : List.Forall₂ R m.table.toList n.table.toList
  /-- Related values are combined to related values. -/
  combines : Combines modulus R m.modulus n.modulus
  /-- The pending instructions are congruent. -/
  pending : List.Forall₂ (Instruction.CongruentTo modulus) m.pending n.pending
  /-- The stacks hold related values. -/
  items : List.Forall₂ R m.stack.items n.stack.items

variable {R : Int64 → Int64 → Prop} {modulus : Int} {m n : Machine}

theorem InStep.bounded_right (h : InStep R modulus m n) : n.Bounded := by
  have hbounded := h.bounded
  rwa [Bounded, h.items.length_eq, h.maxSize_eq] at hbounded

theorem InStep.advance (h : InStep R modulus m n) : InStep R modulus m.advance n.advance := by
  cases hfailure : m.failure? with
  | some failure =>
    rw [advance_of_failure hfailure, advance_of_failure (h.failure_eq ▸ hfailure)]
    exact h
  | none =>
    have hfailure' : n.failure? = none := h.failure_eq ▸ hfailure
    have hpending := h.pending
    generalize hp : m.pending = p at hpending
    generalize hq : n.pending = q at hpending
    cases hpending with
    | nil =>
      rw [advance_of_pending_eq_nil hp, advance_of_pending_eq_nil hq]
      exact h
    | cons hij hrest =>
      rw [Machine.advance, Machine.advance, step_eq_eval h.bounded hfailure hp,
        step_eq_eval h.bounded_right hfailure' hq, ← h.maxSize_eq, ← h.position_eq]
      have hagree := Instruction.eval_agree h.tables h.combines hij h.items
        (some m.stack.maxSize)
      generalize hx : Instruction.eval m.modulus _ _ _ _ = x at hagree ⊢
      generalize Instruction.eval n.modulus _ _ _ _ = y at hagree ⊢
      cases hagree with
      | ok hvalues =>
        have hfits := Instruction.fits_of_eval_eq_ok (fits_some.2 h.bounded) hx
        exact { h with
          position_eq := rfl
          bounded := fits_some.1 hfits
          pending := hrest
          items := hvalues }
      | error =>
        exact { h with
          position_eq := rfl
          failure_eq := rfl }

theorem InStep.advanceBy (h : InStep R modulus m n) (k : Nat) :
    InStep R modulus (m.advanceBy k) (n.advanceBy k) := by
  induction k generalizing m n with
  | zero => exact h
  | succ k ih => exact ih h.advance

theorem InStep.result (h : InStep R modulus m n) : Except.Agree R m.result n.result := by
  have hitems := h.items
  simp only [Machine.result, Stack.top?, ← h.failure_eq, ← h.position_eq]
  generalize m.stack.items = values at hitems
  generalize n.stack.items = values' at hitems
  cases m.failure? with
  | some failure => exact .error
  | none =>
    cases hitems with
    | nil => exact .error
    | cons hvalue _ => exact .ok hvalue

theorem InStep.run (h : InStep R modulus m n) : Except.Agree R m.run.1 n.run.1 := by
  have hlast := (h.advanceBy m.pending.length).result
  rwa [show n.run.1 = (n.advanceBy m.pending.length).result by
    rw [h.pending.length_eq]; rfl]

theorem inStep_start {c d : Code} (htable : List.Forall₂ R c.table.toList d.table.toList)
    (hcombines : Combines modulus R c.modulus d.modulus)
    (hprogram : List.Forall₂ (Instruction.CongruentTo modulus) c.program d.program)
    (limit : Option Nat) : InStep R modulus (start c limit) (start d limit) where
  position_eq := rfl
  failure_eq := rfl
  maxSize_eq := rfl
  bounded := bounded_start c limit
  tables := htable
  combines := hcombines
  pending := hprogram
  items := .nil

end Machine

/-! ### Codes -/

/-- **Congruent codes have congruent runs.**  Let the modulus of `d` divide that of `c`, let their
tables have congruent entries and their programs congruent coefficients, everything modulo the
modulus of `d`.  Under each limit both runs fail in the same way and at the same position, or both
succeed with congruent values.  With the same modulus and the same table, the stacks after every
step and the results are equal. -/
theorem Code.run_congruent (c d : Code) (hmodulus : d.modulus.val.toInt ∣ c.modulus.val.toInt)
    (htable : List.Forall₂ (Congruent d.modulus.val.toInt) c.table.toList d.table.toList)
    (hprogram : List.Forall₂ (Instruction.CongruentTo d.modulus.val.toInt) c.program d.program)
    (limit : Option Nat) :
    ((∃ failure, c.run limit = .error failure ∧ d.run limit = .error failure) ∨
        ∃ x y, c.run limit = .ok x ∧ d.run limit = .ok y ∧
          x.toInt ≡ y.toInt [ZMOD d.modulus.val.toInt]) ∧
      (c.modulus = d.modulus → c.table = d.table →
        (∀ k, ((Machine.start c limit).advanceBy k).stack =
          ((Machine.start d limit).advanceBy k).stack) ∧ c.run limit = d.run limit) := by
  constructor
  · have hrun := (Machine.inStep_start htable (combines_congruent hmodulus) hprogram limit).run
    change Except.Agree _ (c.run limit) (d.run limit) at hrun
    generalize c.run limit = x at hrun ⊢
    generalize d.run limit = y at hrun ⊢
    cases hrun with
    | ok hvalue => exact .inr ⟨_, _, rfl, rfl, hvalue⟩
    | error => exact .inl ⟨_, rfl, rfl⟩
  · intro hsame htables
    have htable' : List.Forall₂ Eq c.table.toList d.table.toList := by
      rw [htables, List.forall₂_eq_eq_eq]
    have hstart := Machine.inStep_start htable' (hsame ▸ combines_eq d.modulus) hprogram limit
    refine ⟨fun k => ?_, ?_⟩
    · have hk := hstart.advanceBy k
      have hitems := hk.items
      rw [List.forall₂_eq_eq_eq] at hitems
      exact Stack.ext hitems hk.maxSize_eq
    · have hrun := hstart.run
      change Except.Agree _ (c.run limit) (d.run limit) at hrun
      generalize c.run limit = x at hrun ⊢
      generalize d.run limit = y at hrun ⊢
      cases hrun with
      | ok hvalue => rw [hvalue]
      | error => rfl

/-- A run modulo `14`, one modulo `7` on another table and with other coefficients, and one that has
the modulus and the table of the second and the coefficients of the first. -/
theorem Code.run_congruent_seven :
    let c : Code := ⟨⟨14, by decide⟩, ⟨#[3, -4]⟩, [.load 1, .load 2, .combine2 2 3 1]⟩
    let d : Code := ⟨⟨7, by decide⟩, ⟨#[-11, 10]⟩, [.load 1, .load 2, .combine2 (-5) 3 8]⟩
    let e : Code := ⟨⟨7, by decide⟩, ⟨#[-11, 10]⟩, [.load 1, .load 2, .combine2 2 3 1]⟩
    ((∃ failure, c.run none = .error failure ∧ d.run none = .error failure) ∨
        ∃ x y, c.run none = .ok x ∧ d.run none = .ok y ∧ x.toInt ≡ y.toInt [ZMOD 7]) ∧
      (∀ k, ((Machine.start d none).advanceBy k).stack =
        ((Machine.start e none).advanceBy k).stack) ∧ d.run none = e.run none := by
  intro c d e
  have hload (index : Int64) : Instruction.CongruentTo 7 (.load index) (.load index) := .load
  have hcd : List.Forall₂ (Instruction.CongruentTo 7) c.program d.program :=
    .cons (hload 1) (.cons (hload 2)
      (.cons (.combine2 (by decide) (by decide) (by decide)) .nil))
  have hde : List.Forall₂ (Instruction.CongruentTo 7) d.program e.program :=
    .cons (hload 1) (.cons (hload 2)
      (.cons (.combine2 (by decide) (by decide) (by decide)) .nil))
  have htable : List.Forall₂ (Congruent 7) c.table.toList d.table.toList :=
    .cons (by decide) (.cons (by decide) .nil)
  have hsame : List.Forall₂ (Congruent 7) d.table.toList e.table.toList :=
    .cons (by decide) (.cons (by decide) .nil)
  exact ⟨(Code.run_congruent c d (by decide) htable hcd none).1,
    (Code.run_congruent d e (by decide) hsame hde none).2 rfl rfl⟩

end ResidueMachine
