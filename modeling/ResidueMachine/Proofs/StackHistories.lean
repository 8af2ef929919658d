import Mathlib.Data.Multiset.AddSub
import ResidueMachine.Stack

/-!
# Histories of calls on a stack

Whatever calls are made on a stack, in whatever order, no value is lost and none is made up: what
has been accepted is what has been given out and what is still held.  Calls that cannot be carried
out change nothing.

A history is told by its *moves*: each value that is put on the stack and each that is taken off
it, in the order in which this happens.  Without exchanges the moves are nested like brackets, so
that a value that is taken is the one that was put on last among those still held.

* `Stack.call_eq_answer` : what a call answers and leaves, in terms of the values held;
* `Stack.after_invariant` : what every call keeps is kept by all histories;
* `Stack.IsConserved`, `Stack.IsOrderly` : what every call keeps, and what every call but an
  exchange keeps;
* `Stack.calls_conserve_values` : histories of calls on a new stack.
-/

namespace ResidueMachine

namespace Stack

variable {α : Type}

/-- The stack after calls one after the other. -/
def after (s : Stack α) (calls : List (Call α)) : Stack α :=
  calls.foldl (fun s c => (s.call c).2) s

/-! ### Moves -/

/-- A value goes onto a stack, or comes off it. -/
inductive Move (α : Type) where
  /-- The value is put on top. -/
  | put (value : α)
  /-- The value is taken from the top. -/
  | take (value : α)
  deriving DecidableEq

/-- The value that is put on a stack. -/
def Move.put? : Move α → Option α
  | put value => some value
  | take _ => none

/-- The value that is taken off a stack. -/
def Move.taken? : Move α → Option α
  | put _ => none
  | take value => some value

/-- The moves of a call, as its answer tells them. -/
def Call.moves : Call α → Reply α → List (Move α)
  | .push value, .accepted => [.put value]
  | .pop, .value (some value) => [.take value]
  | .popPair, .pair (some (first, second)) => [.take first, .take second]
  | _, _ => []

/-- The moves of calls one after the other. -/
def moves (s : Stack α) : List (Call α) → List (Move α)
  | [] => []
  | c :: rest => c.moves (s.call c).1 ++ (s.call c).2.moves rest

/-- The values that are put on, in any order. -/
def putOn (moves : List (Move α)) : Multiset α :=
  ↑(moves.filterMap Move.put?)

/-- The values that are taken off, in any order. -/
def takenOff (moves : List (Move α)) : Multiset α :=
  ↑(moves.filterMap Move.taken?)

/-- All that is put on is taken off again, the last value first. -/
inductive Nested : List (Move α) → Prop
  /-- Nothing is moved. -/
  | nil : Nested []
  /-- A value is put on and taken off again, and then others are. -/
  | cons {value : α} {inner rest : List (Move α)} : Nested inner → Nested rest →
    Nested (.put value :: (inner ++ .take value :: rest))

/-- A value that is taken has been put on before, and all that was put on since has been taken. -/
def LastInFirstOut (moves : List (Move α)) : Prop :=
  ∀ before value rest, moves = before ++ .take value :: rest →
    ∃ front inner, before = front ++ .put value :: inner ∧ Nested inner

/-- What is left of all that has been put on, the last value first. -/
inductive Leaves : List (Move α) → List α → Prop
  /-- All has been taken off again. -/
  | nested {moves : List (Move α)} : Nested moves → Leaves moves []
  /-- A value is left, and all that was put on since is not. -/
  | put {moves inner : List (Move α)} {items : List α} {value : α} : Leaves moves items →
    Nested inner → Leaves (moves ++ .put value :: inner) (value :: items)

/-! ### What a call answers and leaves -/

/-- The answer to a call on a stack that holds the given values, and the values that it then
holds. -/
def Call.answer (maxSize : Nat) : Call α → List α → Reply α × List α
  | .push value, items =>
    if items.length < maxSize then (.accepted, value :: items) else (.refused value, items)
  | .pop, value :: rest => (.value (some value), rest)
  | .pop, [] => (.value none, [])
  | .popPair, first :: second :: rest => (.pair (some (first, second)), rest)
  | .popPair, items => (.pair none, items)
  | .swapTop, first :: second :: rest => (.swapped true, second :: first :: rest)
  | .swapTop, items => (.swapped false, items)
  | .top, items => (.value items.head?, items)

/-- **A call depends on the values held and the room for them alone.** -/
theorem call_eq_answer (s : Stack α) (c : Call α) :
    ((s.call c).1, (s.call c).2.items) = c.answer s.maxSize s.items ∧
      (s.call c).2.maxSize = s.maxSize := by
  obtain ⟨items, maxSize, depth, rfl⟩ := s
  cases c with
  | push value =>
    by_cases h : items.length < maxSize
    · simp only [call, push, Call.answer, h, ↓reduceIte, and_self]
    · simp only [call, push, Call.answer, h, ↓reduceIte, and_self]
  | pop => cases items <;> exact ⟨rfl, rfl⟩
  | popPair => obtain _ | ⟨_, _ | _⟩ := items <;> exact ⟨rfl, rfl⟩
  | swapTop => obtain _ | ⟨_, _ | _⟩ := items <;> exact ⟨rfl, rfl⟩
  | top => exact ⟨rfl, rfl⟩

theorem call_fst (s : Stack α) (c : Call α) : (s.call c).1 = (c.answer s.maxSize s.items).1 :=
  congrArg Prod.fst (s.call_eq_answer c).1

theorem call_snd_items (s : Stack α) (c : Call α) :
    (s.call c).2.items = (c.answer s.maxSize s.items).2 :=
  congrArg Prod.snd (s.call_eq_answer c).1

section Answers

variable {s : Stack α}

theorem call_eq_of_answer {c : Call α} {reply : Reply α}
    (h : c.answer s.maxSize s.items = (reply, s.items)) : s.call c = (reply, s) := by
  obtain ⟨hanswer, hmaxSize⟩ := s.call_eq_answer c
  obtain ⟨hreply, hitems⟩ := Prod.mk.inj (hanswer.trans h)
  exact Prod.ext hreply (Stack.ext hitems hmaxSize)

theorem call_push_iff (s : Stack α) (value : α) :
    (s.call (.push value) = (.refused value, s) ↔ s.maxSize ≤ s.items.length) ∧
      ((s.call (.push value)).1 = .accepted ↔ s.items.length < s.maxSize) := by
  by_cases h : s.items.length < s.maxSize
  · have hreply : (s.call (.push value)).1 = .accepted := by
      rw [call_fst, Call.answer, if_pos h]
    refine ⟨iff_of_false (fun hrefused => ?_) (Nat.not_le.2 h), iff_of_true hreply h⟩
    rw [hrefused] at hreply
    cases hreply
  · have hrefused : s.call (.push value) = (.refused value, s) := call_eq_of_answer (if_neg h)
    refine ⟨iff_of_true hrefused (Nat.le_of_not_lt h), iff_of_false (fun hreply => ?_) h⟩
    rw [hrefused] at hreply
    cases hreply

theorem call_pop_of_eq_nil (h : s.items = []) : s.call .pop = (.value none, s) :=
  call_eq_of_answer (by rw [h, Call.answer])

theorem call_of_length_lt_two (h : s.items.length < 2) :
    s.call .popPair = (.pair none, s) ∧ s.call .swapTop = (.swapped false, s) := by
  rcases hitems : s.items with _ | ⟨first, _ | ⟨second, rest⟩⟩
  · exact ⟨call_eq_of_answer (by rw [hitems, Call.answer]; simp),
      call_eq_of_answer (by rw [hitems, Call.answer]; simp)⟩
  · exact ⟨call_eq_of_answer (by rw [hitems, Call.answer]; simp),
      call_eq_of_answer (by rw [hitems, Call.answer]; simp)⟩
  · rw [hitems] at h
    exact absurd h (by simp)

theorem popPair_eq_pop_pop (h : 2 ≤ s.items.length) :
    s.moves [.popPair] = s.moves [.pop, .pop] ∧ s.after [.popPair] = s.after [.pop, .pop] := by
  obtain ⟨_ | ⟨first, _ | ⟨second, rest⟩⟩, maxSize, depth, rfl⟩ := s
  · exact absurd h (by simp)
  · exact absurd h (by simp)
  · exact ⟨rfl, rfl⟩

end Answers

/-- **What a call can do**: take values from the top, put one there, or exchange two. -/
theorem call_cases (s : Stack α) (c : Call α) :
    (∃ taken : List α, c.moves (s.call c).1 = taken.map .take ∧
        s.items = taken ++ (s.call c).2.items) ∨
      (∃ value, c.moves (s.call c).1 = [.put value] ∧ s.items.length < s.maxSize ∧
        (s.call c).2.items = value :: s.items) ∨
      (c = .swapTop ∧ c.moves (s.call c).1 = [] ∧ ∃ first second rest,
        s.items = first :: second :: rest ∧ (s.call c).2.items = second :: first :: rest) := by
  rw [call_fst, call_snd_items]
  cases c with
  | push value =>
    by_cases h : s.items.length < s.maxSize
    · rw [Call.answer, if_pos h]
      exact .inr (.inl ⟨value, rfl, h, rfl⟩)
    · rw [Call.answer, if_neg h]
      exact .inl ⟨[], rfl, rfl⟩
  | pop =>
    rcases s.items with _ | ⟨first, rest⟩
    · exact .inl ⟨[], rfl, rfl⟩
    · exact .inl ⟨[first], rfl, rfl⟩
  | popPair =>
    rcases s.items with _ | ⟨first, _ | ⟨second, rest⟩⟩
    · exact .inl ⟨[], rfl, rfl⟩
    · exact .inl ⟨[], rfl, rfl⟩
    · exact .inl ⟨[first, second], rfl, rfl⟩
  | swapTop =>
    rcases s.items with _ | ⟨first, _ | ⟨second, rest⟩⟩
    · exact .inl ⟨[], rfl, rfl⟩
    · exact .inl ⟨[], rfl, rfl⟩
    · exact .inr (.inr ⟨rfl, rfl, first, second, rest, rfl, rfl⟩)
  | top => exact .inl ⟨[], rfl, rfl⟩

/-- **What every call keeps is kept by all histories.** -/
theorem after_invariant {P : List (Move α) → Stack α → Prop} {calls : List (Call α)}
    (hstep : ∀ c ∈ calls, ∀ moves s, P moves s → P (moves ++ c.moves (s.call c).1) (s.call c).2)
    {moves : List (Move α)} {s : Stack α} (h : P moves s) :
    P (moves ++ s.moves calls) (s.after calls) := by
  induction calls generalizing moves s with
  | nil =>
    rw [Stack.moves, List.append_nil]
    exact h
  | cons c rest ih =>
    rw [Stack.moves, ← List.append_assoc]
    exact ih (fun d hd => hstep d (List.mem_cons_of_mem c hd))
      (hstep c List.mem_cons_self moves s h)

/-! ### Values are conserved -/

theorem putOn_append (moves more : List (Move α)) :
    putOn (moves ++ more) = putOn moves + putOn more := by
  rw [putOn, List.filterMap_append, ← Multiset.coe_add]
  rfl

theorem takenOff_append (moves more : List (Move α)) :
    takenOff (moves ++ more) = takenOff moves + takenOff more := by
  rw [takenOff, List.filterMap_append, ← Multiset.coe_add]
  rfl

theorem putOn_map_take (taken : List α) : putOn (taken.map .take) = 0 := by
  induction taken with
  | nil => rfl
  | cons value taken ih => exact ih

theorem takenOff_map_take (taken : List α) : takenOff (taken.map .take) = taken := by
  rw [takenOff, List.filterMap_map]
  exact congrArg _ (List.filterMap_some)

theorem putOn_call (s : Stack α) (c : Call α) :
    putOn (c.moves (s.call c).1) + ↑s.items =
      takenOff (c.moves (s.call c).1) + ↑(s.call c).2.items := by
  rcases s.call_cases c with ⟨taken, hmoves, hitems⟩ | ⟨value, hmoves, -, hitems⟩ |
    ⟨-, hmoves, first, second, rest, hitems, hafter⟩
  · rw [hmoves, putOn_map_take, takenOff_map_take, hitems, Multiset.coe_add, Multiset.zero_add]
  · rw [hmoves, hitems]
    rfl
  · rw [hmoves, hitems, hafter]
    exact Multiset.coe_eq_coe.2 (.swap second first rest)

/-- Moves that have led to a stack: the values put on are those taken and those held, and these
have room. -/
structure IsConserved (maxSize : Nat) (moves : List (Move α)) (s : Stack α) : Prop where
  /-- The room is what it was. -/
  maxSize_eq : s.maxSize = maxSize
  /-- The values held have room. -/
  length_le : s.items.length ≤ maxSize
  /-- No value is lost, and none is made up. -/
  putOn_eq : putOn moves = takenOff moves + ↑s.items

theorem isConserved_empty (maxSize : Nat) : IsConserved maxSize [] (empty maxSize : Stack α) where
  maxSize_eq := rfl
  length_le := Nat.zero_le maxSize
  putOn_eq := rfl

/-- **Calls lose no value and make none up.** -/
theorem IsConserved.call {maxSize : Nat} {moves : List (Move α)} {s : Stack α}
    (h : IsConserved maxSize moves s) (c : Call α) :
    IsConserved maxSize (moves ++ c.moves (s.call c).1) (s.call c).2 where
  maxSize_eq := (s.call_eq_answer c).2.trans h.maxSize_eq
  length_le := by
    have hle := h.length_le
    rcases s.call_cases c with ⟨taken, -, hitems⟩ | ⟨value, -, hroom, hitems⟩ |
      ⟨-, -, first, second, rest, hitems, hafter⟩
    · rw [hitems, List.length_append] at hle
      omega
    · rw [hitems, List.length_cons, ← h.maxSize_eq]
      exact hroom
    · rw [hafter]
      rw [hitems] at hle
      exact hle
  putOn_eq := by
    rw [putOn_append, takenOff_append, h.putOn_eq]
    calc
      takenOff moves + ↑s.items + putOn (c.moves (s.call c).1)
      _ = takenOff moves + (putOn (c.moves (s.call c).1) + ↑s.items) := by
        rw [Multiset.add_assoc, Multiset.add_comm (s.items : Multiset α)]
      _ = takenOff moves + (takenOff (c.moves (s.call c).1) + ↑(s.call c).2.items) := by
        rw [putOn_call]
      _ = takenOff moves + takenOff (c.moves (s.call c).1) + ↑(s.call c).2.items := by
        rw [Multiset.add_assoc]

/-! ### The last value first -/

section Order

variable {moves more : List (Move α)} {items : List α} {value : α}

theorem Nested.append (h : Nested moves) (hmore : Nested more) : Nested (moves ++ more) := by
  induction h with
  | nil => exact hmore
  | @cons value inner rest hinner _ _ ih =>
    rw [List.cons_append, List.append_assoc, List.cons_append]
    exact .cons hinner ih

theorem Leaves.append (h : Leaves moves items) (hmore : Nested more) :
    Leaves (moves ++ more) items := by
  cases h with
  | nested hmoves => exact .nested (hmoves.append hmore)
  | put hfront hinner =>
    rw [List.append_assoc, List.cons_append]
    exact .put hfront (hinner.append hmore)

/-- The value that is left on top has been put on, and all that was put on since has been taken. -/
theorem Leaves.exists_eq_append (h : Leaves moves (value :: items)) :
    ∃ front inner, moves = front ++ .put value :: inner ∧ Leaves front items ∧ Nested inner := by
  cases h with
  | put hfront hinner => exact ⟨_, _, rfl, hfront, hinner⟩

theorem LastInFirstOut.concat {m : Move α} (h : LastInFirstOut moves)
    (hm : ∀ value, m = .take value →
      ∃ front inner, moves = front ++ .put value :: inner ∧ Nested inner) :
    LastInFirstOut (moves ++ [m]) := by
  intro before value rest hsplit
  rcases List.eq_nil_or_concat rest with rfl | ⟨rest, last, rfl⟩
  · obtain ⟨rfl, hlast⟩ := List.append_inj' hsplit rfl
    exact hm value (List.cons.inj hlast).1
  · -- the value is taken before the last move
    rw [List.concat_eq_append, ← List.cons_append, ← List.append_assoc] at hsplit
    exact h before value rest (List.append_inj' hsplit rfl).1

/-- Moves that lead to values held: the last value comes first, among those that have been taken
and among those that are held. -/
structure IsOrderly (moves : List (Move α)) (items : List α) : Prop where
  /-- The values taken. -/
  taken : LastInFirstOut moves
  /-- The values held. -/
  held : Leaves moves items

theorem isOrderly_empty (maxSize : Nat) : IsOrderly [] (empty maxSize : Stack α).items where
  taken := by
    intro before value rest h
    exact absurd h (by simp)
  held := .nested .nil

theorem IsOrderly.put (h : IsOrderly moves items) (value : α) :
    IsOrderly (moves ++ [.put value]) (value :: items) where
  taken := h.taken.concat (by rintro _ ⟨⟩)
  held := .put h.held .nil

theorem IsOrderly.take (h : IsOrderly moves (value :: items)) :
    IsOrderly (moves ++ [.take value]) items := by
  obtain ⟨front, inner, rfl, hfront, hinner⟩ := h.held.exists_eq_append
  refine ⟨h.taken.concat ?_, ?_⟩
  · rintro _ ⟨⟩
    exact ⟨front, inner, rfl, hinner⟩
  · rw [List.append_assoc, List.cons_append]
    exact hfront.append (.cons hinner .nil)

theorem IsOrderly.takeAll {taken : List α} (h : IsOrderly moves (taken ++ items)) :
    IsOrderly (moves ++ taken.map .take) items := by
  induction taken generalizing moves with
  | nil =>
    rw [List.map_nil, List.append_nil]
    exact h
  | cons value taken ih =>
    rw [List.map_cons, List.append_cons]
    exact ih h.take

/-- **Calls take the last value first**, unless they exchange values. -/
theorem IsOrderly.call {s : Stack α} (h : IsOrderly moves s.items) {c : Call α}
    (hc : c ≠ .swapTop) : IsOrderly (moves ++ c.moves (s.call c).1) (s.call c).2.items := by
  rcases s.call_cases c with ⟨taken, hmoves, hitems⟩ | ⟨value, hmoves, -, hitems⟩ | ⟨hswap, -⟩
  · rw [hitems] at h
    rw [hmoves]
    exact h.takeAll
  · rw [hmoves, hitems]
    exact h.put value
  · exact absurd hswap hc

end Order

/-! ### Histories -/

/-- **Histories of calls on a new stack.**  Every call answers and leaves what it would of a list
of the values held, and these never outnumber the room for them.  The values that were accepted are
those that were given out and those that are held.  A value is refused just if there is no room for
it; it is then given back, and the stack stays as it is.  So it does if a call asks for more values
than are held.  Two values at once are those that two calls would give, and unless values are
exchanged, the last value comes first. -/
theorem calls_conserve_values (maxSize : Nat) (calls : List (Call α)) :
    let s := (empty maxSize).after calls
    let moves := (empty maxSize).moves calls
    (s.depth = s.items.length ∧ s.depth ≤ maxSize) ∧
      (∀ c, ((s.call c).1, (s.call c).2.items) = c.answer maxSize s.items) ∧
      putOn moves = takenOff moves + ↑s.items ∧
      (∀ value, (s.call (.push value) = (.refused value, s) ↔ maxSize ≤ s.depth) ∧
        ((s.call (.push value)).1 = .accepted ↔ s.depth < maxSize)) ∧
      (s.depth < 2 → s.call .popPair = (.pair none, s) ∧ s.call .swapTop = (.swapped false, s)) ∧
      (s.depth = 0 → s.call .pop = (.value none, s)) ∧
      (2 ≤ s.depth →
        s.moves [.popPair] = s.moves [.pop, .pop] ∧ s.after [.popPair] = s.after [.pop, .pop]) ∧
      (Call.swapTop ∉ calls → LastInFirstOut moves ∧ Leaves moves s.items) := by
  intro s moves
  obtain ⟨hmaxSize, hle, hputOn⟩ : IsConserved maxSize moves s :=
    after_invariant (fun c _ _ _ h => h.call c) (isConserved_empty maxSize)
  have horderly (hswap : Call.swapTop ∉ calls) : IsOrderly moves s.items := by
    have hstep : ∀ c ∈ calls, ∀ moves (s : Stack α), IsOrderly moves s.items →
        IsOrderly (moves ++ c.moves (s.call c).1) (s.call c).2.items :=
      fun c hc _ _ h => h.call (ne_of_mem_of_not_mem hc hswap)
    exact after_invariant hstep (isOrderly_empty maxSize)
  rw [s.depth_eq, ← hmaxSize]
  exact ⟨⟨rfl, hmaxSize ▸ hle⟩, fun c => (s.call_eq_answer c).1, hputOn, s.call_push_iff,
    call_of_length_lt_two, fun h => call_pop_of_eq_nil (List.eq_nil_of_length_eq_zero h),
    popPair_eq_pop_pop, fun hswap => ⟨(horderly hswap).taken, (horderly hswap).held⟩⟩

/-- Two values that have room, one that has not, and the two taken at once. -/
example : (empty 2).moves [.push 1, .push 2, .push 3, .popPair] =
    [.put 1, .put 2, .take 2, .take 1] := rfl

end Stack

end ResidueMachine
