import Mathlib.Algebra.BigOperators.Fin
import Mathlib.Algebra.BigOperators.Ring.Finset
import Mathlib.Data.Int.ModEq
import Mathlib.Tactic.Ring
import ResidueMachine.Proofs.Depths

/-!
# Values as affine functions of the table

Which instructions are executed does not depend on any value, and each of them computes a
combination whose coefficients stand in the program.  So a program can be executed once for all
tables, with affine functions of the words of the table in place of values: a load puts a word on
the stack, and a combination combines the functions that it takes.

The functions are those of the integers.  The values of a run agree with them modulo `M` only,
since combinations reduce and loads do not, and congruence does not see the difference.

* `Weights` : an affine function of the words of a table, `Weights.apply` its value;
* `Program.weigh` : executing a program on affine functions;
* `Program.weigh_eq_some_of_eval` : the values of every evaluation are those of the functions;
* `Program.weight_eq_zero_of_weigh` : words that the program does not name have no weight;
* `Code.run_affine` : the value of a run, for all tables of a size.
-/

namespace ResidueMachine

/-- The weights of an affine function of the words of a table: at `0` that of the constant, and at
each index that of the word. -/
abbrev Weights := Nat → Int

namespace Weights

/-- The value of an affine function at a table. -/
def apply (w : Weights) (t : Table) : Int :=
  w 0 + ∑ k : Fin t.size, w (k + 1) * (t.words[k]).toInt

/-- The word at an index. -/
def word (index : Nat) : Weights :=
  fun k => if k = index then 1 else 0

/-- The combination `a * v + b * w + c`. -/
def combine (a : Int) (v : Weights) (b : Int) (w : Weights) (c : Int) : Weights :=
  fun k => a * v k + b * w k + if k = 0 then c else 0

theorem apply_word {t : Table} {index value : Int64} (h : t.get? index = some value) :
    (word index.toInt.toNat).apply t = value.toInt := by
  unfold Table.get? at h
  split at h
  · rename_i hpos
    obtain ⟨hlt, rfl⟩ := Array.getElem?_eq_some_iff.1 h
    have hconstant : word index.toInt.toNat 0 = 0 := if_neg (by omega)
    rw [apply, hconstant, Int.zero_add, Finset.sum_eq_single ⟨index.toInt.toNat - 1, hlt⟩]
    · have hindex : index.toInt.toNat - 1 + 1 = index.toInt.toNat := by omega
      simp only [word, hindex, ↓reduceIte, Int.one_mul]
      rfl
    · intro k _ hne
      have hother : (k : Nat) + 1 ≠ index.toInt.toNat := fun heq => hne (Fin.ext (by
        simp only
        omega))
      simp only [word, hother, ↓reduceIte, Int.zero_mul]
    · exact fun hnot => absurd (Finset.mem_univ _) hnot
  · cases h

/-- **Affine functions are combined as their values are.** -/
theorem apply_combine (a : Int) (v : Weights) (b : Int) (w : Weights) (c : Int) (t : Table) :
    (combine a v b w c).apply t = a * v.apply t + b * w.apply t + c := by
  have hsum : ∑ k : Fin t.size, combine a v b w c (k + 1) * (t.words[k]).toInt =
      a * ∑ k : Fin t.size, v (k + 1) * (t.words[k]).toInt +
        b * ∑ k : Fin t.size, w (k + 1) * (t.words[k]).toInt := by
    rw [Finset.mul_sum, Finset.mul_sum, ← Finset.sum_add_distrib]
    refine Finset.sum_congr rfl fun k _ => ?_
    simp only [combine, Nat.add_one_ne_zero, ↓reduceIte]
    ring
  simp only [apply, hsum]
  simp only [combine, ↓reduceIte]
  ring

end Weights

/-! ### One instruction -/

namespace Instruction

/-- The affine functions after an instruction, from those before it. -/
def weigh : Instruction → List Weights → Option (List Weights)
  | load index, ws => some (.word index.toInt.toNat :: ws)
  | swap, v :: w :: ws => some (w :: v :: ws)
  | combine2 a b c, v :: w :: ws => some (.combine a.toInt v b.toInt w c.toInt :: ws)
  | combineIndexed index a b c, w :: ws =>
    some (.combine a.toInt (.word index.toInt.toNat) b.toInt w c.toInt :: ws)
  | _, _ => none

end Instruction

/-- The value is that of the affine function, modulo `M`. -/
def Weighs (m : Modulus) (t : Table) (w : Weights) (value : Int64) : Prop :=
  value.toInt ≡ w.apply t [ZMOD m.val.toInt]

section Instruction

variable {m : Modulus} {t : Table} {limit : Option Nat} {ws ws' : List Weights}
  {values values' : List Int64}

theorem weighs_word {index word : Int64} (h : t.get? index = some word) :
    Weighs m t (.word index.toInt.toNat) word := by
  rw [Weighs, Weights.apply_word h]

theorem Weighs.combine {v w : Weights} {x y : Int64} (hx : Weighs m t v x) (hy : Weighs m t w y)
    (a b c : Int64) :
    Weighs m t (.combine a.toInt v b.toInt w c.toInt) (m.combine a x b y c) := by
  unfold Weighs at *
  rw [Modulus.toInt_combine, Weights.apply_combine]
  calc (a.toInt * x.toInt + b.toInt * y.toInt + c.toInt) % m.val.toInt
      ≡ a.toInt * x.toInt + b.toInt * y.toInt + c.toInt [ZMOD m.val.toInt] := Int.mod_modEq _ _
    _ ≡ a.toInt * v.apply t + b.toInt * w.apply t + c.toInt [ZMOD m.val.toInt] :=
      ((hx.mul_left _).add (hy.mul_left _)).add_right _

/-- **The values after an instruction are those of the functions after it.** -/
theorem Instruction.weigh_eq_some_of_eval {i : Instruction}
    (h : i.eval m t limit values = .ok values') (hws : List.Forall₂ (Weighs m t) ws values) :
    ∃ ws', i.weigh ws = some ws' ∧ List.Forall₂ (Weighs m t) ws' values' := by
  cases i with
  | load index =>
    obtain ⟨word, hword, -, rfl⟩ := eval_load_eq_ok_iff.1 h
    exact ⟨_, rfl, .cons (weighs_word hword) hws⟩
  | swap =>
    obtain ⟨x, y, rest, rfl, rfl⟩ := eval_swap_eq_ok_iff.1 h
    rcases hws with _ | ⟨hx, _ | ⟨hy, hrest⟩⟩
    exact ⟨_, rfl, .cons hy (.cons hx hrest)⟩
  | combine2 a b c =>
    obtain ⟨x, y, rest, rfl, rfl⟩ := eval_combine2_eq_ok_iff.1 h
    rcases hws with _ | ⟨hx, _ | ⟨hy, hrest⟩⟩
    exact ⟨_, rfl, .cons (hx.combine hy a b c) hrest⟩
  | combineIndexed index a b c =>
    obtain ⟨x, y, rest, hword, rfl, rfl⟩ := eval_combineIndexed_eq_ok_iff.1 h
    rcases hws with _ | ⟨hy, hrest⟩
    exact ⟨_, rfl, .cons ((weighs_word hword).combine hy a b c) hrest⟩

theorem Instruction.weight_eq_zero_of_weigh {i : Instruction} {index : Nat}
    (h : i.weigh ws = some ws') (hindex : 0 < index)
    (hnamed : ∀ named ∈ i.tableIndex?, named.toInt ≠ index)
    (hws : ∀ w ∈ ws, w index = 0) : ∀ w ∈ ws', w index = 0 := by
  have hword {named : Int64} (hne : named.toInt ≠ index) :
      Weights.word named.toInt.toNat index = 0 := if_neg (by omega)
  have hcombine {v w : Weights} (hv : v index = 0) (hw : w index = 0) (a b c : Int) :
      Weights.combine a v b w c index = 0 := by
    simp only [Weights.combine, hv, hw, Nat.ne_of_gt hindex, ↓reduceIte, Int.mul_zero,
      Int.add_zero]
  cases i with
  | load named =>
    cases h
    exact List.forall_mem_cons.2 ⟨hword (hnamed named rfl), hws⟩
  | swap =>
    rcases ws with _ | ⟨v, _ | ⟨w, ws⟩⟩ <;> cases h
    simp only [List.forall_mem_cons] at hws ⊢
    exact ⟨hws.2.1, hws.1, hws.2.2⟩
  | combine2 a b c =>
    rcases ws with _ | ⟨v, _ | ⟨w, ws⟩⟩ <;> cases h
    simp only [List.forall_mem_cons] at hws ⊢
    exact ⟨hcombine hws.1 hws.2.1 _ _ _, hws.2.2⟩
  | combineIndexed named a b c =>
    rcases ws with _ | ⟨w, ws⟩ <;> cases h
    simp only [List.forall_mem_cons] at hws ⊢
    exact ⟨hcombine (hword (hnamed named rfl)) hws.1 _ _ _, hws.2⟩

end Instruction

/-! ### Programs -/

namespace Program

/-- The affine functions after a program, from those in front of it. -/
def weigh : Program → List Weights → Option (List Weights)
  | [], ws => some ws
  | i :: rest, ws => (i.weigh ws).bind (weigh rest)

variable {m : Modulus} {t : Table} {limit : Option Nat} {p : Program} {position : Nat}
  {ws ws' : List Weights} {values values' : List Int64}

/-- **The values of an evaluation are those of the functions**, which do not depend on the table. -/
theorem weigh_eq_some_of_eval (h : p.eval m t limit position values = .ok values')
    (hws : List.Forall₂ (Weighs m t) ws values) :
    ∃ ws', p.weigh ws = some ws' ∧ List.Forall₂ (Weighs m t) ws' values' := by
  induction p generalizing position ws values with
  | nil =>
    cases h
    exact ⟨ws, rfl, hws⟩
  | cons i rest ih =>
    obtain ⟨mid, hmid, hrest⟩ := eval_cons_eq_ok_iff.1 h
    obtain ⟨vs, hvs, hmids⟩ := Instruction.weigh_eq_some_of_eval hmid hws
    obtain ⟨ws', hws', hvalues'⟩ := ih hrest hmids
    exact ⟨ws', by rw [weigh, hvs, Option.bind_some, hws'], hvalues'⟩

-- the second word is on top, so that it gets the first coefficient
example : (weigh [.load 1, .load 2, .combine2 2 3 1] []).map (·.map fun w => [w 0, w 1, w 2]) =
    some [[1, 3, 2]] := by decide

/-- **A word has no weight unless the program names it.** -/
theorem weight_eq_zero_of_weigh {index : Nat} (h : p.weigh ws = some ws') (hindex : 0 < index)
    (hnamed : ∀ i ∈ p, ∀ named ∈ i.tableIndex?, named.toInt ≠ index)
    (hws : ∀ w ∈ ws, w index = 0) : ∀ w ∈ ws', w index = 0 := by
  induction p generalizing ws with
  | nil =>
    cases h
    exact hws
  | cons i rest ih =>
    rw [List.forall_mem_cons] at hnamed
    obtain ⟨vs, hvs, hrest⟩ := Option.bind_eq_some_iff.1 h
    exact ih hrest hnamed.2 (Instruction.weight_eq_zero_of_weigh hvs hindex hnamed.1 hws)

end Program

/-! ### Runs -/

namespace Code

theorem exists_weighs_of_check (m : Modulus) {t : Table} {p : Program}
    (h : p.length < UInt64.size) {profile : Profile}
    (hprofile : p.check t.size none = .ok profile) :
    ∃ w ws value, p.weigh [] = some (w :: ws) ∧ (Code.mk m t p).run none = .ok value ∧
      Weighs m t w value := by
  let c : Code := ⟨m, t, p⟩
  obtain ⟨hne, -⟩ := (exists_profile_iff (c := c)).1 ⟨profile, hprofile⟩
  obtain ⟨values, hvalues, -⟩ := exists_valuesAfter_of_check (c := c) hprofile
  have heval := hvalues
  rw [valuesAfter, List.take_length] at heval
  obtain ⟨value, values, rfl⟩ :=
    List.exists_cons_of_ne_nil (Program.ne_nil_of_eval_eq_ok heval (.inl hne))
  obtain ⟨ws, hws, hweighs⟩ := Program.weigh_eq_some_of_eval heval .nil
  rcases hweighs with _ | ⟨hvalue, -⟩
  exact ⟨_, _, value, hws, (run_eq_ok_iff (c := c) h).2 ⟨values, hvalues⟩, hvalue⟩

/-- **A program that passes the check computes an affine function of the table**, modulo `M`.  The
weights are the same for all tables of the size that it was checked for, and a word that no
instruction names has the weight `0`. -/
theorem run_affine (m : Modulus) (p : Program) (h : p.length < UInt64.size) (size : Nat)
    {profile : Profile} (hprofile : p.check size none = .ok profile) :
    ∃ w : Weights,
      (∀ index : Nat, 0 < index →
        (∀ i ∈ p, ∀ named ∈ i.tableIndex?, named.toInt ≠ index) → w index = 0) ∧
      ∀ t : Table, t.size = size →
        ∃ value, (Code.mk m t p).run none = .ok value ∧
          value.toInt ≡ w 0 + ∑ k : Fin t.size, w (k + 1) * (t.words[k]).toInt
            [ZMOD m.val.toInt] := by
  -- any table of the size tells the weights
  obtain ⟨c, -, rfl⟩ := Program.exists_code p size
  obtain ⟨w, ws, -, hws, -, -⟩ := exists_weighs_of_check m h hprofile
  refine ⟨w, fun index hindex hnamed => ?_, fun t ht => ?_⟩
  · exact Program.weight_eq_zero_of_weigh hws hindex hnamed
      (fun w hw => absurd hw List.not_mem_nil) w List.mem_cons_self
  · rw [← ht] at hprofile
    obtain ⟨w', ws', value, hws', hrun, hvalue⟩ := exists_weighs_of_check m h hprofile
    obtain ⟨rfl, -⟩ := List.cons.inj (Option.some.inj (hws.symm.trans hws'))
    exact ⟨value, hrun, hvalue⟩

/-- Two loads and a combination, for tables with a word that they do not name. -/
theorem run_affine_of_loads :
    let m : Modulus := ⟨7, by decide⟩
    let p : Program := [.load 1, .load 2, .combine2 2 3 1]
    p.length < UInt64.size ∧ p.check 3 none = .ok ⟨2, 1⟩ ∧
      ∃ w : Weights, w 3 = 0 ∧
        ∀ t : Table, t.size = 3 →
          ∃ value, (Code.mk m t p).run none = .ok value ∧
            value.toInt ≡ w 0 + ∑ k : Fin t.size, w (k + 1) * (t.words[k]).toInt
              [ZMOD m.val.toInt] := by
  intro m p
  have hlength : p.length < UInt64.size := by decide
  have hprofile : p.check 3 none = .ok ⟨2, 1⟩ := by rfl
  have hnamed : ∀ i ∈ p, ∀ named ∈ i.tableIndex?, named.toInt ≠ (3 : Nat) := by
    simp [p, Instruction.tableIndex?]
  obtain ⟨w, hzero, hvalue⟩ := run_affine m p hlength 3 hprofile
  exact ⟨hlength, hprofile, w, hzero 3 (by decide) hnamed, hvalue⟩

end Code

end ResidueMachine
