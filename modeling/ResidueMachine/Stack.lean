/-!
# Bounded stacks

A `Stack` holds at most `maxSize` values.  An operation that cannot be carried out changes
nothing: a refused `push` gives its value back, and taking two values from a stack that holds
fewer takes none.

* `Stack.push`, `Stack.pop`, `Stack.popPair`, `Stack.swapTop?`, `Stack.top?` : the operations;
* `Stack.Call`, `Stack.call` : the operations as data, for histories of calls.

The depth is kept beside the values, so that testing the bound takes constant time.
-/

namespace ResidueMachine

/-- A stack with room for `maxSize` values. -/
structure Stack (α : Type) where
  /-- The values, the topmost first. -/
  items : List α
  /-- The number of values that the stack has room for. -/
  maxSize : Nat
  /-- The number of values held. -/
  depth : Nat := items.length
  /-- The depth counts the values. -/
  depth_eq : depth = items.length := by rfl
  deriving DecidableEq

namespace Stack

variable {α : Type}

/-- Stacks with the same values and the same bound are equal. -/
@[ext] theorem ext {s t : Stack α} (items : s.items = t.items) (maxSize : s.maxSize = t.maxSize) :
    s = t := by
  obtain ⟨_, _, _, hs⟩ := s
  obtain ⟨_, _, _, ht⟩ := t
  subst hs ht items maxSize
  rfl

/-- The empty stack with room for `maxSize` values. -/
def empty (maxSize : Nat) : Stack α where
  items := []
  maxSize := maxSize

/-- The stack holds no value. -/
def isEmpty (s : Stack α) : Bool :=
  s.items.isEmpty

/-- The values, the bottom one first. -/
def toList (s : Stack α) : List α :=
  s.items.reverse

/-! ### Operations -/

/-- Put a value on top.  A full stack gives the value back. -/
def push (value : α) (s : Stack α) : Except α (Stack α) :=
  if s.depth < s.maxSize then
    .ok ⟨value :: s.items, s.maxSize, s.depth + 1, by simp [s.depth_eq]⟩
  else .error value

/-- The topmost value. -/
def top? (s : Stack α) : Option α :=
  s.items.head?

/-- Take the topmost value, if there is one. -/
def pop : Stack α → Option α × Stack α
  | ⟨[], maxSize, depth, h⟩ => (none, ⟨[], maxSize, depth, h⟩)
  | ⟨value :: rest, maxSize, depth, h⟩ =>
    (some value, ⟨rest, maxSize, depth - 1, by simp [h]⟩)

/-- Take the two topmost values, the topmost first.  With fewer than two values nothing is
taken. -/
def popPair (s : Stack α) : Option (α × α) × Stack α :=
  if s.depth < 2 then (none, s)
  else
    match s.pop with
    | (none, s) => (none, s)
    | (some first, s) =>
      match s.pop with
      | (none, s) => (none, s)
      | (some second, s) => (some (first, second), s)

/-- Exchange the two topmost values. -/
def swapTop? : Stack α → Option (Stack α)
  | ⟨first :: second :: rest, maxSize, depth, h⟩ =>
    some ⟨second :: first :: rest, maxSize, depth, by simp [h]⟩
  | _ => none

/-- The stack as it is shown to a developer, its values from the bottom to the top. -/
def debug [ToString α] (s : Stack α) : String :=
  let items := ", ".intercalate (s.toList.map toString)
  s!"Stack \x7b items: [{items}], len: {s.depth}, max_size: {s.maxSize} \x7d"

/-! ### Histories of calls -/

/-- A call on a stack. -/
inductive Call (α : Type) where
  /-- Put a value on top. -/
  | push (value : α)
  /-- Take the topmost value. -/
  | pop
  /-- Take the two topmost values. -/
  | popPair
  /-- Exchange the two topmost values. -/
  | swapTop
  /-- Look at the topmost value. -/
  | top

/-- What a call answers. -/
inductive Reply (α : Type) where
  /-- The value was put on the stack. -/
  | accepted
  /-- The value was given back. -/
  | refused (value : α)
  /-- The value asked for, if there is one. -/
  | value (value? : Option α)
  /-- The two values asked for, the topmost first, if there are two. -/
  | pair (pair? : Option (α × α))
  /-- Whether the two topmost values were exchanged. -/
  | swapped (done : Bool)

/-- Answer a call.  A call that cannot be carried out leaves the stack as it is. -/
def call (s : Stack α) : Call α → Reply α × Stack α
  | .push value =>
    match s.push value with
    | .ok s' => (.accepted, s')
    | .error value => (.refused value, s)
  | .pop =>
    let (value?, s) := s.pop
    (.value value?, s)
  | .popPair =>
    let (pair?, s) := s.popPair
    (.pair pair?, s)
  | .swapTop =>
    match s.swapTop? with
    | some s' => (.swapped true, s')
    | none => (.swapped false, s)
  | .top => (.value s.top?, s)

/-! ### What the operations do to the values -/

theorem push_eq_ok_iff {value : α} {s t : Stack α} :
    s.push value = .ok t ↔
      s.depth < s.maxSize ∧ t.items = value :: s.items ∧ t.maxSize = s.maxSize := by
  unfold push
  split
  · rename_i h
    simp only [Except.ok.injEq, h, true_and]
    exact ⟨by rintro rfl; simp, fun ⟨h₁, h₂⟩ => Stack.ext h₁.symm h₂.symm⟩
  · simp [*]

theorem pop_eq_some_iff {value : α} {s t : Stack α} :
    s.pop = (some value, t) ↔ s.items = value :: t.items ∧ t.maxSize = s.maxSize := by
  obtain ⟨_ | ⟨a, rest⟩, maxSize, depth, h⟩ := s
  · simp [pop]
  · simp only [pop, Option.some.injEq, Prod.mk.injEq, List.cons.injEq, Stack.ext_iff]
    grind

theorem pop_of_items_eq_nil {s : Stack α} (h : s.items = []) : s.pop = (none, s) := by
  obtain ⟨items, maxSize, depth, hdepth⟩ := s
  cases h
  rfl

theorem popPair_eq_some_iff {first second : α} {s t : Stack α} :
    s.popPair = (some (first, second), t) ↔
      s.items = first :: second :: t.items ∧ t.maxSize = s.maxSize := by
  obtain ⟨_ | ⟨a, _ | ⟨b, rest⟩⟩, maxSize, depth, rfl⟩ := s
  · simp [popPair]
  · simp [popPair]
  · have hpop : popPair ⟨a :: b :: rest, maxSize, (a :: b :: rest).length, rfl⟩ =
        (some (a, b), ⟨rest, maxSize, rest.length, rfl⟩) := rfl
    rw [hpop]
    simp only [Prod.mk.injEq, Option.some.injEq, List.cons.injEq, Stack.ext_iff]
    grind

theorem popPair_of_length_lt {s : Stack α} (h : s.items.length < 2) : s.popPair = (none, s) := by
  rw [popPair, s.depth_eq, if_pos h]

theorem swapTop?_eq_some_iff {s t : Stack α} :
    s.swapTop? = some t ↔
      ∃ first second rest, s.items = first :: second :: rest ∧
        t.items = second :: first :: rest ∧ t.maxSize = s.maxSize := by
  obtain ⟨_ | ⟨a, _ | ⟨b, rest⟩⟩, maxSize, depth, h⟩ := s
  · simp [swapTop?]
  · simp [swapTop?]
  · simp [swapTop?, Stack.ext_iff]
    grind

end Stack

end ResidueMachine
