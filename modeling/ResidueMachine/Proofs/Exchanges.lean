import ResidueMachine.Proofs.Checking
import ResidueMachine.Proofs.Composition

/-!
# Exchanges that can be left out

An exchange of the two topmost values can be undone by another one, taken into account by the
combination that follows it, or saved by loading two words in the other order.  Each of these
changes makes a program shorter, and none of them can be noticed but by the positions of failures
behind the place that was changed.

They hold at every place of every program and under every limit for the depth.  A place where an
exchange fails, or where a load overflows, is no exception: the shorter program then meets the same
fault at the same instruction.  Only two exchanges in a row need the two values to be there, since
nothing else would ask for them.

* `Failure.laterPast` : a failure, met later if it lies behind a place;
* `Program.resultOn_append_of_eval_eq_ok`, `Program.resultOn_append_of_eval_eq` : a program can take
  the place of another at the beginning of a third;
* `Program.resultOn_part_of_eval_eq` : a part can take the place of another anywhere;
* `Program.eval_swap_swap`, `Program.eval_swap_combine2`, `Program.eval_load_load_swap` : the three
  laws, for evaluation;
* `Code.swap_laws` : the three laws, for runs.
-/

namespace ResidueMachine

/-! ### Failures behind a place -/

/-- The failure, met a number of instructions later if it lies behind a position. -/
def Failure.laterPast (failure : Failure) (position n : Nat) : Failure :=
  if failure.position ≤ position then failure else failure.later n

theorem Failure.laterPast_of_le {failure : Failure} {position : Nat}
    (h : failure.position ≤ position) (n : Nat) : failure.laterPast position n = failure :=
  if_pos h

theorem Failure.laterPast_of_lt {failure : Failure} {position : Nat}
    (h : position < failure.position) (n : Nat) :
    failure.laterPast position n = failure.later n :=
  if_neg (Nat.not_le.2 h)

theorem Failure.later_later (failure : Failure) (k n : Nat) :
    (failure.later k).later n = failure.later (k + n) := by
  rw [later, later, later, Nat.add_assoc]

/-! ### Programs that begin alike -/

namespace Program

variable {m : Modulus} {t : Table} {limit : Option Nat} {n : Nat} {p q suf : Program}
  {values after : List Int64} {failure : Failure}

theorem position_le_of_eval_eq_error (h : p.eval m t limit 1 values = .error failure) :
    failure.position ≤ p.length := by
  obtain ⟨k, i, -, fault, hi, -, -, rfl⟩ := eval_eq_error_iff.1 h
  obtain ⟨hk, -⟩ := List.getElem?_eq_some_iff.1 hi
  change 1 + k ≤ p.length
  omega

theorem position_pos_of_resultOn_eq_error (h : p.resultOn m t limit values = .error failure) :
    0 < failure.position := by
  rcases Except.bind_eq_error_iff.1 h with heval | ⟨after, -, htop⟩
  · obtain ⟨k, i, -, fault, -, -, -, rfl⟩ := eval_eq_error_iff.1 heval
    exact Nat.lt_of_lt_of_le Nat.one_pos (Nat.le_add_right 1 k)
  · cases after with
    | nil =>
      cases htop
      exact Nat.succ_pos _
    | cons value rest => cases htop

/-- **Programs that leave the same values can take each other's place** at the beginning of a
program: what follows gives the same, as many instructions later as the one is longer. -/
theorem resultOn_append_of_eval_eq_ok (hlength : p.length = q.length + n)
    (hp : p.eval m t limit 1 values = .ok after) (hq : q.eval m t limit 1 values = .ok after) :
    (p ++ suf).resultOn m t limit values =
      ((q ++ suf).resultOn m t limit values).mapError (·.later n) := by
  rw [resultOn_append, resultOn_append, hp, hq]
  simp only [Except.bind]
  cases suf.resultOn m t limit after with
  | ok value => rfl
  | error failure =>
    simp only [Except.mapError]
    rw [Failure.later_later, hlength]

/-- **Programs that evaluate alike can take each other's place** at the beginning of a program.  A
failure of theirs is met where it was, and one of what follows as many instructions later as the one
is longer. -/
theorem resultOn_append_of_eval_eq (hlength : p.length = q.length + n)
    (heval : p.eval m t limit 1 values = q.eval m t limit 1 values) :
    (p ++ suf).resultOn m t limit values =
      ((q ++ suf).resultOn m t limit values).mapError (·.laterPast q.length n) := by
  cases hq : q.eval m t limit 1 values with
  | error failure =>
    have hfront := position_le_of_eval_eq_error hq
    rw [resultOn_append, resultOn_append, heval, hq]
    simp only [Except.bind, Except.mapError, Failure.laterPast_of_le hfront]
  | ok after =>
    rw [resultOn_append_of_eval_eq_ok hlength (heval.trans hq) hq, resultOn_append, hq]
    simp only [Except.bind]
    cases hsuf : suf.resultOn m t limit after with
    | ok value => rfl
    | error failure =>
      have hbehind : q.length < (failure.later q.length).position :=
        Nat.lt_add_of_pos_left (position_pos_of_resultOn_eq_error hsuf)
      simp only [Except.mapError, Failure.laterPast_of_lt hbehind]

/-- **Parts that evaluate alike at every place can take each other's place** in every program. -/
theorem resultOn_part_of_eval_eq {u v : Program} (pre suf : Program)
    (hlength : u.length = v.length + n)
    (heval : ∀ position values,
      u.eval m t limit position values = v.eval m t limit position values) :
    (pre ++ u ++ suf).resultOn m t limit values =
      ((pre ++ v ++ suf).resultOn m t limit values).mapError
        (·.laterPast (pre.length + v.length) n) := by
  have hlonger : (pre ++ u).length = (pre ++ v).length + n := by
    rw [List.length_append, List.length_append, hlength, Nat.add_assoc]
  rw [← List.length_append]
  refine resultOn_append_of_eval_eq hlonger ?_
  rw [eval_append, eval_append]
  exact congrArg _ (funext fun after => heval _ after)

end Program

/-! ### The laws for evaluation -/

theorem Modulus.combine_comm (m : Modulus) (a x b y c : Int64) :
    m.combine a x b y c = m.combine b y a x c := by
  rw [← Int64.toInt_inj, toInt_combine, toInt_combine, Int.add_comm (a.toInt * x.toInt)]

namespace Program

variable {m : Modulus} {t : Table} {limit : Option Nat} {index index' : Int64}

theorem eval_swap_swap (position : Nat) {values : List Int64} (h : 2 ≤ values.length) :
    Program.eval m t limit [.swap, .swap] position values = .ok values := by
  obtain ⟨x, y, rest, rfl⟩ := exists_eq_cons_cons h
  rfl

/-- **An exchange in front of a combination exchanges its coefficients.**  With fewer than two
values, the exchange fails as the combination would. -/
theorem eval_swap_combine2 (a b c : Int64) (position : Nat) (values : List Int64) :
    Program.eval m t limit [.swap, .combine2 a b c] position values =
      Program.eval m t limit [.combine2 b a c] position values := by
  rcases values with _ | ⟨x, _ | ⟨y, rest⟩⟩
  · rfl
  · rfl
  · simp only [eval, Instruction.eval, m.combine_comm a y]

/-- **Two loads and an exchange are the loads in the other order.**  Neither load looks at the words
below, so the depth limit stops the first or the second load in both orders. -/
theorem eval_load_load_swap (hi : InTable t.size index) (hj : InTable t.size index')
    (position : Nat) (values : List Int64) :
    Program.eval m t limit [.load index, .load index', .swap] position values =
      Program.eval m t limit [.load index', .load index] position values := by
  obtain ⟨x, hx⟩ := Table.exists_get?_of_inTable hi
  obtain ⟨y, hy⟩ := Table.exists_get?_of_inTable hj
  simp only [eval, Instruction.eval, hx, hy]
  cases limit.filter (· ≤ values.length) with
  | some bound => rfl
  | none =>
    simp only [List.length_cons]
    cases limit.filter (· ≤ values.length + 1) <;> rfl

end Program

/-! ### The laws for runs -/

namespace Code

/-- **The laws of exchanges**, at every place of every program and under every limit.  Two exchanges
in a row can be left out where there are two values; an exchange in front of a combination can be
left out if the coefficients change places; an exchange behind two loads with good indices can be
left out if the loads do.  The longer program gives the same value, or meets the same fault: at the
same instruction if it is not behind the part that was changed, and otherwise as many instructions
later as the program is longer. -/
theorem swap_laws (m : Modulus) (t : Table) (limit : Option Nat) (pre suf : Program) :
    let run (p : Program) := (Code.mk m t p).run limit
    (∀ values : List Int64, (Code.mk m t pre).Completes limit pre.length values →
        2 ≤ values.length →
        run (pre ++ [Instruction.swap, .swap] ++ suf) =
          (run (pre ++ suf)).mapError (·.later 2)) ∧
      (∀ a b c : Int64,
        run (pre ++ [Instruction.swap, .combine2 a b c] ++ suf) =
          (run (pre ++ [Instruction.combine2 b a c] ++ suf)).mapError
            (·.laterPast (pre.length + 1) 1)) ∧
      ∀ i j : Int64, InTable t.size i → InTable t.size j →
        run (pre ++ [Instruction.load i, .load j, .swap] ++ suf) =
          (run (pre ++ [Instruction.load j, .load i] ++ suf)).mapError
            (·.laterPast (pre.length + 2) 1) := by
  intro run
  have hrun (p : Program) : run p = p.resultOn m t (some (limit.getD unlimitedDepth)) [] :=
    run_eq_resultOn_getD (Code.mk m t p) limit
  refine ⟨?_, ?_, ?_⟩
  · intro values hvalues htwo
    have hpre : pre.eval m t (some (limit.getD unlimitedDepth)) 1 [] = .ok values := by
      rw [← List.take_length (l := pre)]
      exact (completes_iff_getD.1 hvalues).2
    have hlonger : (pre ++ [Instruction.swap, .swap]).length = pre.length + 2 :=
      List.length_append
    rw [hrun, hrun]
    refine Program.resultOn_append_of_eval_eq_ok hlonger ?_ hpre
    rw [Program.eval_append_of_eval_eq_ok hpre, Program.eval_swap_swap _ htwo]
  · intro a b c
    rw [hrun, hrun]
    exact Program.resultOn_part_of_eval_eq pre suf rfl (Program.eval_swap_combine2 a b c)
  · intro i j hi hj
    rw [hrun, hrun]
    exact Program.resultOn_part_of_eval_eq pre suf rfl (Program.eval_load_load_swap hi hj)

/-- Two words are loaded and exchanged, first with room for both and a failure behind them, then
with room for one. -/
theorem swap_laws_of_loads :
    let m : Modulus := ⟨7, by decide⟩
    let t : Table := ⟨#[3, -4]⟩
    let run (limit : Option Nat) (p : Program) := (Code.mk m t p).run limit
    (Code.mk m t [.load 1, .load 2]).Completes none 2 [-4, 3] ∧
      run none [.load 1, .load 2, .swap, .swap, .load 3] =
        (run none [.load 1, .load 2, .load 3]).mapError (·.later 2) ∧
      run none [.load 1, .load 2, .load 3] = .error ((Fault.indexOutOfRange 3 2).at 3) ∧
      InTable 2 1 ∧ InTable 2 2 ∧
      run (some 1) [.load 1, .load 2, .swap] =
        (run (some 1) [.load 2, .load 1]).mapError (·.laterPast 2 1) ∧
      run (some 1) [.load 2, .load 1] = .error ((Fault.overflow 1).at 2) := by
  intro m t run
  have hleft : (Code.mk m t [.load 1, .load 2]).Completes none 2 [-4, 3] := ⟨rfl, rfl⟩
  have hone : InTable 2 1 := by decide
  have htwo : InTable 2 2 := by decide
  obtain ⟨htwice, -, -⟩ := swap_laws m t none [.load 1, .load 2] [.load 3]
  obtain ⟨-, -, hloads⟩ := swap_laws m t (some 1) [] []
  exact ⟨hleft, htwice _ hleft (by decide), rfl, hone, htwo, hloads 1 2 hone htwo, rfl⟩

end Code

end ResidueMachine
