import Mathlib.Order.MinMax
import ResidueMachine.Proofs.Except
import ResidueMachine.Proofs.Evaluation

/-!
# Checking agrees with running

The checker and the machine are two interpreters of the same programs.  The checker keeps a depth
where the machine keeps a stack, and sees nothing of an instruction but its kind and its index
(`Program.check_congr`).  The depth is that of the stack after every instruction
(`Instruction.depthAfter_eq_eval`), so that both go on, or meet the same fault, together
(`Program.checkFrom_eq_eval`).

What ties the two is that the stack fits the limit: the checker compares the depth that an
instruction leaves with the limit, the machine the depth that a load finds.
-/

namespace ResidueMachine

/-! ### What the checker sees -/

/-- The kind of an instruction, and the index that it names. -/
def Instruction.outline (i : Instruction) : Opcode × Option Int64 :=
  (i.opcode, i.tableIndex?)

theorem Instruction.depthAfter_congr {i j : Instruction} (h : i.outline = j.outline)
    (size : Nat) (limit : Option Nat) (depth : Nat) :
    i.depthAfter size limit depth = j.depthAfter size limit depth := by
  obtain ⟨hopcode, hindex⟩ := Prod.mk.inj h
  have heffect : i.effect = j.effect := by
    cases i <;> cases j <;> first | rfl | cases hopcode
  simp only [depthAfter, heffect, hindex]

namespace Program

theorem checkFrom_congr {p q : Program} (h : p.map Instruction.outline = q.map Instruction.outline)
    (size : Nat) (limit : Option Nat) (executed depth maxDepth : Nat) :
    p.checkFrom size limit executed depth maxDepth =
      q.checkFrom size limit executed depth maxDepth := by
  induction p generalizing q executed depth maxDepth with
  | nil =>
    rw [List.map_nil, eq_comm, List.map_eq_nil_iff] at h
    rw [h]
  | cons i p ih =>
    cases q with
    | nil => cases h
    | cons j q =>
      obtain ⟨hij, hpq⟩ := List.cons.inj h
      simp only [checkFrom, Instruction.depthAfter_congr hij]
      cases j.depthAfter size limit depth with
      | error fault => rfl
      | ok depth => exact ih hpq _ _ _

/-- **The checker sees kinds and indices only.** -/
theorem check_congr {p q : Program} (h : p.map Instruction.outline = q.map Instruction.outline)
    (size : Nat) (limit : Option Nat) : p.check size limit = q.check size limit :=
  checkFrom_congr h size limit 0 0 0

end Program

/-! ### One instruction -/

theorem Table.get?_eq_none_iff_not_inTable {t : Table} {index : Int64} :
    t.get? index = none ↔ ¬ InTable t.size index := by
  rw [get?_eq_none_iff, InTable]
  omega

theorem Table.exists_get?_of_inTable {t : Table} {index : Int64} (h : InTable t.size index) :
    ∃ word, t.get? index = some word := by
  rw [← Option.ne_none_iff_exists', Ne, get?_eq_none_iff_not_inTable, not_not]
  exact h

theorem Table.inTable_of_get?_eq_some {t : Table} {index word : Int64}
    (h : t.get? index = some word) : InTable t.size index := by
  refine Decidable.not_not.1 fun hout => ?_
  rw [get?_eq_none_iff_not_inTable.2 hout] at h
  cases h

section Instruction

variable {m : Modulus} {t : Table} {limit : Option Nat} {values : List Int64}

/-- The depth that no longer needs a test: the instruction has its values, and its index is one of
the table. -/
theorem Instruction.depthAfter_of_le {i : Instruction} {size depth : Nat}
    (hpops : i.effect.pops ≤ depth) (hindex : ∀ index ∈ i.tableIndex?, InTable size index) :
    i.depthAfter size limit depth =
      match limit.filter (· < depth - i.effect.pops + i.effect.pushes) with
      | some bound => .error (.overflow bound)
      | none => .ok (depth - i.effect.pops + i.effect.pushes) := by
  have hfilter : i.tableIndex?.filter (¬ InTable size ·) = none := by
    rw [Option.filter_eq_none_iff]
    intro index hmem
    simpa using hindex index hmem
  simp only [depthAfter, Nat.not_lt.2 hpops, ↓reduceIte, hfilter]
  cases limit.filter (· < depth - i.effect.pops + i.effect.pushes) <;> rfl

theorem Instruction.depthAfter_of_pushes_le {i : Instruction} {size depth : Nat}
    (hpops : i.effect.pops ≤ depth) (hpushes : i.effect.pushes ≤ i.effect.pops)
    (hindex : ∀ index ∈ i.tableIndex?, InTable size index)
    (hlimit : ∀ bound ∈ limit, depth ≤ bound) :
    i.depthAfter size limit depth = .ok (depth - i.effect.pops + i.effect.pushes) := by
  have hfilter : limit.filter (· < depth - i.effect.pops + i.effect.pushes) = none := by
    rw [Option.filter_eq_none_iff]
    intro bound hmem
    have := hlimit bound hmem
    simp only [decide_eq_true_eq]
    omega
  rw [depthAfter_of_le hpops hindex, hfilter]

theorem Instruction.depthAfter_of_not_inTable {i : Instruction} {size depth : Nat} {index : Int64}
    (hpops : i.effect.pops ≤ depth) (hindex : i.tableIndex? = some index)
    (hout : ¬ InTable size index) :
    i.depthAfter size limit depth = .error (.indexOutOfRange index size) := by
  have hfilter : i.tableIndex?.filter (¬ InTable size ·) = some index := by
    rw [hindex, Option.filter_eq_some_iff]
    exact ⟨rfl, decide_eq_true hout⟩
  simp only [depthAfter, Nat.not_lt.2 hpops, ↓reduceIte, hfilter]

/-- **The checker's depth is the depth of the stack**, and it meets the faults of the stack. -/
theorem Instruction.depthAfter_eq_eval (i : Instruction) (hfits : Fits limit values) :
    i.depthAfter t.size limit values.length = (i.eval m t limit values).map List.length := by
  by_cases hpops : values.length < i.effect.pops
  · rw [eval_of_lt_pops hpops]
    simp only [depthAfter, hpops, ↓reduceIte]
    rfl
  have hpops := Nat.le_of_not_lt hpops
  cases i with
  | load index =>
    cases hword : t.get? index with
    | none =>
      rw [depthAfter_of_not_inTable hpops rfl (Table.get?_eq_none_iff_not_inTable.1 hword)]
      simp only [eval, hword]
      rfl
    | some word =>
      rw [depthAfter_of_le hpops fun _ h => Option.some.inj h ▸ Table.inTable_of_get?_eq_some hword]
      -- the limit is below the depth that is left iff the depth that is found has reached it
      simp only [effect, Nat.sub_zero, Nat.lt_succ_iff, eval, hword]
      cases limit.filter (· ≤ values.length) <;> rfl
  | swap =>
    obtain ⟨x, y, rest, rfl⟩ := exists_eq_cons_cons hpops
    exact depthAfter_of_pushes_le hpops (Nat.le_refl 2) (by simp [tableIndex?]) hfits
  | combine2 a b c =>
    obtain ⟨x, y, rest, rfl⟩ := exists_eq_cons_cons hpops
    exact depthAfter_of_pushes_le hpops (Nat.le_succ 1) (by simp [tableIndex?]) hfits
  | combineIndexed index a b c =>
    cases values with
    | nil => cases hpops
    | cons y rest =>
      cases hword : t.get? index with
      | none =>
        rw [depthAfter_of_not_inTable hpops rfl (Table.get?_eq_none_iff_not_inTable.1 hword)]
        simp only [eval, hword]
        rfl
      | some word =>
        rw [depthAfter_of_pushes_le hpops (Nat.le_refl 1)
          (fun _ h => Option.some.inj h ▸ Table.inTable_of_get?_eq_some hword) hfits]
        simp only [eval, hword]
        rfl

/-! ### Programs -/

/-- **The checker evaluates depths.**  It fails as the evaluation does, or for want of a result,
and ends with the depth that the evaluation ends with. -/
theorem Program.checkFrom_eq_eval (p : Program) (executed maxDepth : Nat)
    (hfits : Fits limit values) :
    (p.checkFrom t.size limit executed values.length maxDepth).map Profile.finalDepth =
      (p.eval m t limit (executed + 1) values).bind fun values' =>
        (topValue (executed + p.length + 1) values').map fun _ => values'.length := by
  induction p generalizing values executed maxDepth with
  | nil => cases values <;> rfl
  | cons i rest ih =>
    simp only [checkFrom, eval, Instruction.depthAfter_eq_eval (m := m) i hfits]
    cases hi : i.eval m t limit values with
    | error fault => rfl
    | ok values' =>
      have hfits' := Instruction.fits_of_eval_eq_ok hfits hi
      change (checkFrom t.size limit rest (executed + 1) values'.length _).map _ = _
      have hend : executed + (rest.length + 1) + 1 = executed + 1 + rest.length + 1 := by omega
      rw [ih (executed + 1) _ hfits', List.length_cons, hend]

/-- **The checker's deepest depth** is exceeded by what it started from, or by the values after some
instruction. -/
theorem Program.lt_maxDepth_iff {p : Program} {executed maxDepth bound : Nat} {profile : Profile}
    (hfits : Fits limit values)
    (h : p.checkFrom t.size limit executed values.length maxDepth = .ok profile) :
    bound < profile.maxDepth ↔
      bound < maxDepth ∨ ∃ k < p.length, ∃ values',
        eval m t limit (p.take (k + 1)) (executed + 1) values = .ok values' ∧
          bound < values'.length := by
  induction p generalizing values executed maxDepth with
  | nil =>
    cases values with
    | nil => cases h
    | cons value rest =>
      cases h
      simp
  | cons i rest ih =>
    rw [checkFrom, Instruction.depthAfter_eq_eval (m := m) i hfits] at h
    cases hi : i.eval m t limit values with
    | error fault =>
      rw [hi] at h
      cases h
    | ok mid =>
      rw [hi] at h
      have hrest := ih (Instruction.fits_of_eval_eq_ok hfits hi) h
      rw [hrest, lt_max_iff, or_assoc]
      refine or_congr_right ?_
      simp only [List.length_cons, List.take_succ_cons, eval, hi]
      constructor
      · rintro (hlt | ⟨k, hk, values', hvalues', hlt⟩)
        · exact ⟨0, Nat.succ_pos _, mid, rfl, hlt⟩
        · exact ⟨k + 1, Nat.succ_lt_succ hk, values', hvalues', hlt⟩
      · rintro ⟨_ | k, hk, values', hvalues', hlt⟩
        · cases hvalues'
          exact .inl hlt
        · exact .inr ⟨k, Nat.lt_of_succ_lt_succ hk, values', hvalues', hlt⟩
end Instruction

/-- The depths of a run that leaves a value and keeps within a limit. -/
structure Profile.Within (limit : Option Nat) (profile : Profile) : Prop where
  /-- A value is left. -/
  one_le_finalDepth : 1 ≤ profile.finalDepth
  /-- The stack is nowhere deeper than where it is deepest. -/
  finalDepth_le : profile.finalDepth ≤ profile.maxDepth
  /-- The limit is kept. -/
  maxDepth_le : ∀ bound ∈ limit, profile.maxDepth ≤ bound

theorem Instruction.le_of_depthAfter_eq_ok {i : Instruction} {size depth after : Nat}
    {limit : Option Nat} (h : i.depthAfter size limit depth = .ok after) :
    ∀ bound ∈ limit, after ≤ bound := by
  simp only [depthAfter] at h
  split at h
  · cases h
  · split at h
    · cases h
    · split at h
      · cases h
      · rename_i hfilter
        cases h
        intro bound hbound
        have hnone := Option.eq_none_iff_forall_ne_some.2 hfilter
        have hle := Option.filter_eq_none_iff.1 hnone bound hbound
        simpa only [decide_eq_true_eq, Nat.not_lt] using hle

theorem Program.within_of_checkFrom_eq_ok {p : Program} {size executed depth maxDepth : Nat}
    {limit : Option Nat} {profile : Profile} (hdepth : depth ≤ maxDepth)
    (hlimit : ∀ bound ∈ limit, maxDepth ≤ bound)
    (h : p.checkFrom size limit executed depth maxDepth = .ok profile) :
    profile.Within limit := by
  induction p generalizing executed depth maxDepth with
  | nil =>
    unfold checkFrom at h
    split at h
    · cases h
    · rename_i hne
      cases h
      exact ⟨Nat.one_le_iff_ne_zero.2 hne, hdepth, hlimit⟩
  | cons i rest ih =>
    unfold checkFrom at h
    cases hi : i.depthAfter size limit depth with
    | error fault =>
      rw [hi] at h
      cases h
    | ok after =>
      rw [hi] at h
      refine ih (Nat.le_max_right maxDepth after) (fun bound hbound => ?_) h
      exact Nat.max_le.2 ⟨hlimit bound hbound, Instruction.le_of_depthAfter_eq_ok hi bound hbound⟩

/-! ### Codes -/

/-- **The checker's answer is told by the evaluation**: its failure, or the depth that it ends
with. -/
theorem Code.check_eq_eval (c : Code) (limit : Option Nat) :
    (c.check limit).map Profile.finalDepth =
      (c.valuesAfter limit c.program.length).bind fun values =>
        (topValue (c.program.length + 1) values).map fun _ => values.length := by
  have hfits : Fits limit [] := fits_nil
  have hcheck := Program.checkFrom_eq_eval (m := c.modulus) (t := c.table) c.program 0 0 hfits
  rw [Nat.zero_add, Nat.zero_add] at hcheck
  rw [valuesAfter, List.take_length]
  exact hcheck

/-- A check and a run fail alike, or the check finds the depths of a run that has a value. -/
theorem Code.agree_within (c : Code) (limit : Option Nat) (h : c.program.length < UInt64.size) :
    Except.Agree (fun profile (_ : Int64) => profile.Within limit) (c.check limit)
      (c.run limit) := by
  have hcheck := c.check_eq_eval limit
  rw [c.run_eq_eval limit h]
  cases hvalues : c.valuesAfter limit c.program.length with
  | error failure =>
    rw [hvalues] at hcheck
    rw [Except.map_eq_error_iff.1 hcheck]
    exact .error
  | ok values =>
    rw [hvalues] at hcheck
    by_cases hnil : values = []
    · subst hnil
      rw [Except.map_eq_error_iff.1 hcheck]
      exact .error
    · obtain ⟨value, rest, rfl⟩ := List.exists_cons_of_ne_nil hnil
      obtain ⟨profile, hprofile, -⟩ := Except.map_eq_ok_iff.1 hcheck
      have hwithin : profile.Within limit :=
        Program.within_of_checkFrom_eq_ok (Nat.le_refl 0) (fun _ _ => Nat.zero_le _) hprofile
      rw [hprofile]
      exact .ok hwithin

/-- **Checking and running agree**: both succeed, or both fail in the same way and at the same
position.  The checker's answer depends on kinds and indices alone. -/
theorem Code.check_agrees_with_run (c : Code) (limit : Option Nat)
    (h : c.program.length < UInt64.size) :
    ((∃ profile value, c.program.check c.table.size limit = .ok profile ∧
          (Machine.start c limit).run.1 = .ok value) ∨
        ∃ failure, c.program.check c.table.size limit = .error failure ∧
          (Machine.start c limit).run.1 = .error failure) ∧
      ∀ p : Program, p.map Instruction.outline = c.program.map Instruction.outline →
        p.check c.table.size limit = c.program.check c.table.size limit := by
  refine ⟨?_, fun p hp => Program.check_congr hp c.table.size limit⟩
  rcases (c.agree_within limit h).cases with
    ⟨failure, hcheck, hrun⟩ | ⟨profile, value, hcheck, hrun, -⟩
  · exact .inr ⟨failure, hcheck, hrun⟩
  · exact .inl ⟨profile, value, hcheck, hrun⟩

/-- A second load that meets the limit. -/
theorem Code.check_agrees_with_run_overflow :
    let c : Code := ⟨⟨7, by decide⟩, ⟨#[3, -4]⟩, [.load 1, .load 2, .combine2 2 3 1]⟩
    c.program.length < UInt64.size ∧
      ((∃ profile value, c.program.check 2 (some 1) = .ok profile ∧
            (Machine.start c (some 1)).run.1 = .ok value) ∨
          ∃ failure, c.program.check 2 (some 1) = .error failure ∧
            (Machine.start c (some 1)).run.1 = .error failure) :=
  ⟨by decide, (Code.check_agrees_with_run _ (some 1) (by decide)).1⟩

end ResidueMachine
