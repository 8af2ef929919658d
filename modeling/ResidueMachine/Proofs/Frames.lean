import Mathlib.Order.Bounds.Image
import ResidueMachine.Proofs.Composition
import ResidueMachine.Proofs.Depths

/-!
# What lies below the values taken

An instruction looks at no more values than it takes, and leaves those below them where they are.
So a program that can be executed on the empty stack can be executed on any stack, and does the same
on top of it: what was there before is a frame.  Without a limit for the depth nothing else depends
on the frame.

With a frame there are more values to take.  Of the faults of a program on the empty stack, only a
bad index is met again on top of a frame.

* `Instruction.eval_frame`, `Program.eval_frame` : a frame is kept;
* `Program.range_depthAt_append` : the depths of two programs one after the other;
* `Code.append_keeps_frame` : two programs one after the other, their runs and their profiles.
-/

namespace ResidueMachine

/-! ### Evaluation -/

section Evaluation

variable {m : Modulus} {t : Table} {values values' : List Int64}

/-- **An instruction keeps what lies below the values that it takes.** -/
theorem Instruction.eval_frame {i : Instruction} (h : i.eval m t none values = .ok values')
    (frame : List Int64) : i.eval m t none (values ++ frame) = .ok (values' ++ frame) := by
  cases i with
  | load index =>
    obtain ⟨word, hword, -, rfl⟩ := eval_load_eq_ok_iff.1 h
    exact eval_load_eq_ok_iff.2 ⟨word, hword, by simp, rfl⟩
  | swap =>
    obtain ⟨x, y, rest, rfl, rfl⟩ := eval_swap_eq_ok_iff.1 h
    rfl
  | combine2 a b c =>
    obtain ⟨x, y, rest, rfl, rfl⟩ := eval_combine2_eq_ok_iff.1 h
    rfl
  | combineIndexed index a b c =>
    obtain ⟨x, y, rest, hx, rfl, rfl⟩ := eval_combineIndexed_eq_ok_iff.1 h
    exact eval_combineIndexed_eq_ok_iff.2 ⟨x, y, rest ++ frame, hx, rfl, rfl⟩

theorem Instruction.eval_frame_of_indexOutOfRange {i : Instruction} {index : Int64} {size : Nat}
    (h : i.eval m t none values = .error (.indexOutOfRange index size)) (frame : List Int64) :
    i.eval m t none (values ++ frame) = .error (.indexOutOfRange index size) := by
  rw [← Except.map_eq_error_iff (f := List.length), ← depthAfter_eq_eval i fits_none,
    depthAfter_eq_error_iff] at h ⊢
  rcases h with ⟨-, hfault⟩ | ⟨hpops, hindex⟩
  · cases hfault
  · refine .inr ⟨?_, hindex⟩
    rw [List.length_append]
    omega

/-- **A program keeps what lies below the values that it takes.** -/
theorem Program.eval_frame {p : Program} {position : Nat}
    (h : p.eval m t none position values = .ok values') (frame : List Int64) :
    p.eval m t none position (values ++ frame) = .ok (values' ++ frame) := by
  induction p generalizing position values with
  | nil =>
    cases h
    rfl
  | cons i rest ih =>
    obtain ⟨mid, hi, hrest⟩ := eval_cons_eq_ok_iff.1 h
    exact eval_cons_eq_ok_iff.2 ⟨mid ++ frame, Instruction.eval_frame hi frame, ih hrest⟩

theorem Program.eval_frame_of_indexOutOfRange {p : Program} {first position : Nat} {index : Int64}
    {size : Nat}
    (h : p.eval m t none first values = .error ((Fault.indexOutOfRange index size).at position))
    (frame : List Int64) :
    p.eval m t none first (values ++ frame) =
      .error ((Fault.indexOutOfRange index size).at position) := by
  obtain ⟨k, i, mid, fault, hi, hmid, hfault, hfailure⟩ := eval_eq_error_iff.1 h
  obtain ⟨rfl, rfl⟩ := Failure.mk.inj hfailure
  exact eval_eq_error_iff.2 ⟨k, i, mid ++ frame, _, hi, eval_frame hmid frame,
    Instruction.eval_frame_of_indexOutOfRange hfault frame, rfl⟩

theorem Program.eval_append_frame {p q : Program} {frame : List Int64}
    (hq : q.eval m t none 1 [] = .ok frame) (hp : p.eval m t none 1 [] = .ok values) :
    (q ++ p).eval m t none 1 [] = .ok (values ++ frame) := by
  have hframe : p.eval m t none 1 frame = .ok (values ++ frame) := eval_frame hp frame
  rw [eval_append_of_eval_eq_ok hq, eval_add_position, hframe]
  rfl

end Evaluation

/-! ### Depths -/

namespace Program

theorem depthAt_append_of_le {p q : Program} {k : Nat} (h : k ≤ q.length) :
    (q ++ p).depthAt k = q.depthAt k := by
  rw [depthAt, List.take_append_of_le_length h, depthAt]

theorem depthAt_append_add (p q : Program) (k : Nat) :
    (q ++ p).depthAt (q.length + k) = q.depthAt q.length + p.depthAt k := by
  unfold depthAt
  rw [List.take_length_add_append, List.take_length, List.countP_append, List.countP_append]
  omega

/-- **The depths of two programs one after the other** are those of the first, and those of the
second on top of the depth that the first ends with. -/
theorem range_depthAt_append (p q : Program) :
    Set.range (q ++ p).depthAt =
      Set.range q.depthAt ∪ (q.depthAt q.length + ·) '' Set.range p.depthAt := by
  ext d
  constructor
  · rintro ⟨k, rfl⟩
    rcases Nat.le_total k q.length with hk | hk
    · exact .inl ⟨k, (depthAt_append_of_le hk).symm⟩
    · obtain ⟨j, rfl⟩ := Nat.exists_eq_add_of_le hk
      exact .inr ⟨_, ⟨j, rfl⟩, (depthAt_append_add p q j).symm⟩
  · rintro (⟨k, rfl⟩ | ⟨_, ⟨k, rfl⟩, rfl⟩)
    · refine ⟨min k q.length, ?_⟩
      rw [depthAt_append_of_le (Nat.min_le_right k q.length), depthAt_min]
    · exact ⟨q.length + k, depthAt_append_add p q k⟩

end Program

/-! ### Profiles -/

namespace Code

variable {c : Code} {m : Modulus} {t : Table} {p q : Program} {frame values : List Int64}

/-- A program with instructions that is executed has a profile, which tells how many values it
leaves and its greatest depth. -/
theorem exists_profile_of_eval (hne : c.program ≠ [])
    (h : c.program.eval c.modulus c.table none 1 [] = .ok values) :
    ∃ profile, c.check none = .ok profile ∧ profile.finalDepth = values.length ∧
      IsGreatest (Set.range c.program.depthAt) profile.maxDepth := by
  rw [← valuesAfter_length] at h
  cases hcheck : c.check none with
  | error failure =>
    rcases check_eq_error_iff.1 hcheck with ⟨hnil, -⟩ | herror
    · exact absurd hnil hne
    · rw [h] at herror
      cases herror
  | ok profile =>
    obtain ⟨values', hvalues', hlength⟩ := exists_valuesAfter_of_check hcheck
    rw [h] at hvalues'
    cases hvalues'
    exact ⟨profile, rfl, hlength, isGreatest_maxDepth hcheck⟩

/-- **The profile of two programs one after the other.** -/
theorem exists_check_append (hqne : q ≠ []) (hpne : p ≠ [])
    (hq : q.eval m t none 1 [] = .ok frame) (hp : p.eval m t none 1 [] = .ok values) :
    ∃ first second, q.check t.size none = .ok first ∧ p.check t.size none = .ok second ∧
      (q ++ p).check t.size none =
        .ok ⟨max first.maxDepth (frame.length + second.maxDepth),
          frame.length + values.length⟩ := by
  obtain ⟨first, hfirst, -, hleft⟩ := exists_profile_of_eval (c := ⟨m, t, q⟩) hqne hq
  obtain ⟨second, hsecond, -, hright⟩ := exists_profile_of_eval (c := ⟨m, t, p⟩) hpne hp
  obtain ⟨⟨maxDepth, finalDepth⟩, hboth, hfinal, hgreatest⟩ :=
    exists_profile_of_eval (c := ⟨m, t, q ++ p⟩) (List.append_ne_nil_of_right_ne_nil q hpne)
      (Program.eval_append_frame hq hp)
  refine ⟨first, second, hfirst, hsecond, hboth.trans ?_⟩
  have hdepth : (frame.length : Int) = q.depthAt q.length := by
    have hvalues : (Code.mk m t q).valuesAfter none q.length = q.eval m t none 1 [] :=
      valuesAfter_length
    exact length_valuesAfter (hvalues.trans hq)
  -- the greatest depth of both is the greater one of their greatest depths
  have hraise : Monotone (q.depthAt q.length + ·) := fun _ _ hle => Int.add_le_add_left hle _
  have hunion := hleft.union (hraise.map_isGreatest hright)
  rw [← Program.range_depthAt_append] at hunion
  have hmax : (maxDepth : Int) = max (first.maxDepth : Int) _ := hgreatest.unique hunion
  have hlength : finalDepth = values.length + frame.length := hfinal.trans List.length_append
  congr 2
  · omega
  · omega

/-! ### Runs -/

theorem completes_append_add (h : (q ++ p).length < UInt64.size)
    (hq : q.eval m t none 1 [] = .ok frame) {k : Nat} (hk : k ≤ p.length)
    (hp : Program.eval m t none (p.take k) 1 [] = .ok values) :
    (Code.mk m t (q ++ p)).Completes none (q.length + k) (values ++ frame) := by
  rw [completes_iff h, valuesAfter, List.take_length_add_append]
  refine ⟨?_, Program.eval_append_frame hq hp⟩
  rw [List.length_append]
  omega

theorem run_append_of_eval (h : (q ++ p).length < UInt64.size) (hpne : p ≠ [])
    (hq : q.eval m t none 1 [] = .ok frame) (hp : p.eval m t none 1 [] = .ok values) :
    (Code.mk m t (q ++ p)).run none = (Code.mk m t p).run none := by
  have hplength : p.length < UInt64.size := by
    rw [List.length_append] at h
    omega
  obtain ⟨value, rest, rfl⟩ :=
    List.exists_cons_of_ne_nil (Program.ne_nil_of_eval_eq_ok hp (.inl hpne))
  rw [run_eq_resultOn h, run_eq_resultOn hplength]
  simp only [Program.resultOn]
  rw [Program.eval_append_frame hq hp, hp]
  rfl

theorem run_append_of_indexOutOfRange (h : (q ++ p).length < UInt64.size)
    (hq : q.eval m t none 1 [] = .ok frame) {index : Int64} {size position : Nat}
    (hp : (Code.mk m t p).run none = .error ((Fault.indexOutOfRange index size).at position)) :
    (Code.mk m t (q ++ p)).run none =
      .error ((Fault.indexOutOfRange index size).at (q.length + position)) := by
  have hplength : p.length < UInt64.size := by
    rw [List.length_append] at h
    omega
  rw [run_eq_resultOn hplength] at hp
  rcases Except.bind_eq_error_iff.1 hp with heval | ⟨values, -, htop⟩
  · have hframe := Program.eval_frame_of_indexOutOfRange heval frame
    rw [run_append_of_eval_eq_ok h hq, Program.resultOn, ← List.nil_append frame, hframe,
      Nat.add_comm q.length]
    rfl
  · cases values <;> cases htop

/-- **Programs compose with a frame.**  Let all instructions of `q` be executed.  If all of `p` are,
then so are those of both, one program after the other, and at each time the values that `q` has
left lie untouched below those of `p`.  So the run gives what `p` gives alone, and the profile of
both is told by their profiles.  If `p` alone meets a bad index, it is met again, so many
instructions later as `q` has.  If an instruction of `q` fails, nothing depends on `p`. -/
theorem append_keeps_frame (m : Modulus) (t : Table) (q p : Program)
    (h : (q ++ p).length < UInt64.size) :
    (∀ frame values, (Code.mk m t q).Completes none q.length frame →
        (Code.mk m t p).Completes none p.length values →
        (Code.mk m t (q ++ p)).Completes none (q ++ p).length (values ++ frame) ∧
          (∀ k mid, (Code.mk m t p).Completes none k mid →
            (Code.mk m t (q ++ p)).Completes none (q.length + k) (mid ++ frame)) ∧
          (p ≠ [] → (Code.mk m t (q ++ p)).run none = (Code.mk m t p).run none) ∧
          (q ≠ [] → p ≠ [] → ∃ first second,
            q.check t.size none = .ok first ∧ p.check t.size none = .ok second ∧
              (q ++ p).check t.size none =
                .ok ⟨max first.maxDepth (frame.length + second.maxDepth),
                  frame.length + values.length⟩)) ∧
      (∀ frame index size position, (Code.mk m t q).Completes none q.length frame →
        (Code.mk m t p).run none = .error ((Fault.indexOutOfRange index size).at position) →
        (Code.mk m t (q ++ p)).run none =
          .error ((Fault.indexOutOfRange index size).at (q.length + position))) ∧
      ∀ failure, (Code.mk m t q).Fails none failure →
        (Code.mk m t (q ++ p)).run none = .error failure := by
  have hlength := h
  rw [List.length_append] at hlength
  have hqlength : (Code.mk m t q).program.length < UInt64.size := by
    dsimp only
    omega
  have hplength : (Code.mk m t p).program.length < UInt64.size := by
    dsimp only
    omega
  refine ⟨fun frame values hq hp => ?_, fun frame index size position hq hp => ?_,
    fun failure hfails => ?_⟩
  · have hqeval := (completes_length_iff hqlength).1 hq
    have hpeval := (completes_length_iff hplength).1 hp
    have htop (k : Nat) (mid : List Int64) (hmid : (Code.mk m t p).Completes none k mid) :
        (Code.mk m t (q ++ p)).Completes none (q.length + k) (mid ++ frame) := by
      obtain ⟨hk, hvalues⟩ := (completes_iff hplength).1 hmid
      exact completes_append_add h hqeval hk hvalues
    refine ⟨?_, htop, fun hpne => run_append_of_eval h hpne hqeval hpeval,
      fun hqne hpne => exists_check_append hqne hpne hqeval hpeval⟩
    rw [List.length_append]
    exact htop p.length values hp
  · exact run_append_of_indexOutOfRange h ((completes_length_iff hqlength).1 hq) hp
  · exact run_append_of_eval_eq_error h ((fails_iff hqlength).1 hfails)

/-- A combination on top of two loads, a load that finds no entry after them, and an exchange that
fails before the combination. -/
theorem append_keeps_frame_of_loads :
    let m : Modulus := ⟨7, by decide⟩
    let t : Table := ⟨#[3, -4]⟩
    let q : Program := [.load 1, .load 2]
    let p : Program := [.load 2, .load 1, .combine2 2 3 1]
    let r : Program := [.load 1, .load 3]
    let s : Program := [.load 1, .swap]
    (q ++ p).length < UInt64.size ∧ (q ++ r).length < UInt64.size ∧
      (s ++ p).length < UInt64.size ∧
      (Code.mk m t q).Completes none 2 [-4, 3] ∧
      (Code.mk m t p).Completes none 3 [m.combine 2 3 3 (-4) 1] ∧
      (Code.mk m t (q ++ p)).Completes none 5 [m.combine 2 3 3 (-4) 1, -4, 3] ∧
      (Code.mk m t (q ++ p)).run none = (Code.mk m t p).run none ∧
      (∃ first second, q.check 2 none = .ok first ∧ p.check 2 none = .ok second ∧
        (q ++ p).check 2 none = .ok ⟨max first.maxDepth (2 + second.maxDepth), 3⟩) ∧
      (Code.mk m t r).run none = .error ((Fault.indexOutOfRange 3 2).at 2) ∧
      (Code.mk m t (q ++ r)).run none = .error ((Fault.indexOutOfRange 3 2).at 4) ∧
      (Code.mk m t s).Fails none ((Fault.emptyPop 2 1).at 2) ∧
      (Code.mk m t (s ++ p)).run none = .error ((Fault.emptyPop 2 1).at 2) := by
  intro m t q p r s
  have hqp : (q ++ p).length < UInt64.size := by decide
  have hqr : (q ++ r).length < UInt64.size := by decide
  have hsp : (s ++ p).length < UInt64.size := by decide
  have hq : (Code.mk m t q).Completes none 2 [-4, 3] := ⟨rfl, rfl⟩
  have hp : (Code.mk m t p).Completes none 3 [m.combine 2 3 3 (-4) 1] := ⟨rfl, rfl⟩
  have hr : (Code.mk m t r).run none = .error ((Fault.indexOutOfRange 3 2).at 2) := by rfl
  have hs : (Code.mk m t s).Fails none ((Fault.emptyPop 2 1).at 2) := ⟨1, rfl⟩
  obtain ⟨hboth, -, hrun, hprofile⟩ := (append_keeps_frame m t q p hqp).1 _ _ hq hp
  exact ⟨hqp, hqr, hsp, hq, hp, hboth, hrun (List.cons_ne_nil _ _),
    hprofile (List.cons_ne_nil _ _) (List.cons_ne_nil _ _), hr,
    (append_keeps_frame m t q r hqr).2.1 _ _ _ _ hq hr, hs,
    (append_keeps_frame m t s p hsp).2.2 _ hs⟩

end Code

end ResidueMachine
