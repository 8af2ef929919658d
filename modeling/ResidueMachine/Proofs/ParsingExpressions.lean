import ResidueMachine.Source.Span

/-!
# Parsing expressions

A parsing expression takes a part from the front of a text, or fails.  A choice is ordered, a
repetition takes as much as it can, and neither is ever revised.  Looking ahead takes nothing.
What a rule takes is kept as a `Pair`, with the pairs of the rules inside; a silent rule leaves no
pair of its own, and an atomic rule none of the rules inside.

Outside of atomic rules there may be gaps between the parts of a sequence and those of a
repetition.  What a gap takes is a parameter of `ParsingExpr.parse`, and `ParsingExpr.gap` makes it
out of an expression for what may be left out.

* `ParsingExpr.Takes.many_eq`, `ParsingExpr.Takes.parse_plus` : repeating an expression for one
  character takes the longest row of such characters;
* `ParsingExpr.parse_star_of_progress` : a repetition with gaps is a loop over one step.
-/

namespace ResidueMachine

/-- A place in a text. -/
structure Cursor where
  /-- The offset of the next byte. -/
  offset : Nat
  /-- What is left of the text. -/
  rest : List Char

/-- The place behind the next character, if it is accepted. -/
def Cursor.take? (accepts : Char → Bool) : Cursor → Option Cursor
  | ⟨_, []⟩ => none
  | ⟨offset, c :: rest⟩ => if accepts c then some ⟨offset + c.utf8Size, rest⟩ else none

theorem Cursor.length_rest_lt_of_take?_eq_some {accepts : Char → Bool} {cursor next : Cursor}
    (h : cursor.take? accepts = some next) : next.rest.length < cursor.rest.length := by
  obtain ⟨offset, text⟩ := cursor
  cases text with
  | nil => cases h
  | cons c rest =>
    rw [take?, Option.ite_none_right_eq_some] at h
    obtain ⟨-, h⟩ := h
    cases h
    exact Nat.lt_succ_self _

/-- The place behind all characters that are accepted, up to the first that is not. -/
def Cursor.past (accepts : Char → Bool) (cursor : Cursor) : Cursor :=
  ⟨cursor.offset + byteLength (cursor.rest.takeWhile accepts), cursor.rest.dropWhile accepts⟩

/-- What a rule takes of a text. -/
structure Pair (ρ : Type) where
  /-- The rule. -/
  rule : ρ
  /-- The bytes that it takes. -/
  span : Span
  /-- What the rules inside take, in order. -/
  inner : List (Pair ρ)

/-- What an expression takes of a text. -/
structure Taken (ρ : Type) where
  /-- What its rules take, in order. -/
  pairs : List (Pair ρ)
  /-- The place behind it. -/
  next : Cursor

/-- What pairs a rule leaves. -/
inductive RuleKind where
  /-- A pair that holds those of the rules inside. -/
  | normal
  /-- Those of the rules inside. -/
  | silent
  /-- A pair that holds no others.  There are no gaps inside. -/
  | atomic
  deriving DecidableEq

/-- A parsing expression with rules named in `ρ`. -/
inductive ParsingExpr (ρ : Type) where
  /-- The start of the text. -/
  | start
  /-- The end of the text. -/
  | stop
  /-- One character that is accepted. -/
  | one (accepts : Char → Bool)
  /-- One after the other. -/
  | seq (first second : ParsingExpr ρ)
  /-- The first, or if that fails the second. -/
  | choice (first second : ParsingExpr ρ)
  /-- As given, or nothing if that fails. -/
  | optional (body : ParsingExpr ρ)
  /-- As often as possible. -/
  | star (body : ParsingExpr ρ)
  /-- Nothing, if what follows is as given. -/
  | ahead (body : ParsingExpr ρ)
  /-- Nothing, unless what follows is as given. -/
  | never (body : ParsingExpr ρ)
  /-- A rule. -/
  | rule (name : ρ) (kind : RuleKind) (body : ParsingExpr ρ)

namespace ParsingExpr

variable {ρ : Type}

/-- At least once, and as often as possible. -/
def plus (body : ParsingExpr ρ) : ParsingExpr ρ :=
  seq body (star body)

/-- One step after the other until a step fails, or takes nothing. -/
def many (step : Cursor → Option (Taken ρ)) (cursor : Cursor) : Taken ρ :=
  match step cursor with
  | none => ⟨[], cursor⟩
  | some first =>
    if first.next.rest.length < cursor.rest.length then
      let others := many step first.next
      ⟨first.pairs ++ others.pairs, others.next⟩
    else first
termination_by cursor.rest.length

/-- The place behind a gap, if there may be one. -/
def skip (gap : Cursor → Cursor) (atomic : Bool) (cursor : Cursor) : Cursor :=
  if atomic then cursor else gap cursor

/-- The pairs that a rule leaves, from those of the rules inside. -/
def leave (name : ρ) (kind : RuleKind) (atomic : Bool) (span : Span) (inner : List (Pair ρ)) :
    List (Pair ρ) :=
  if kind = .silent then inner
  else if atomic then []
  else [⟨name, span, inner⟩]

/-- What an expression takes at a place, inside of an atomic rule or not. -/
def parse (gap : Cursor → Cursor) : ParsingExpr ρ → (atomic : Bool) → Cursor → Option (Taken ρ)
  | start, _, cursor => if cursor.offset = 0 then some ⟨[], cursor⟩ else none
  | stop, _, cursor => if cursor.rest = [] then some ⟨[], cursor⟩ else none
  | one accepts, _, cursor => (cursor.take? accepts).map (⟨[], ·⟩)
  | seq a b, atomic, cursor => do
    let first ← a.parse gap atomic cursor
    let second ← b.parse gap atomic (skip gap atomic first.next)
    return ⟨first.pairs ++ second.pairs, second.next⟩
  | choice a b, atomic, cursor => a.parse gap atomic cursor <|> b.parse gap atomic cursor
  | optional a, atomic, cursor => some ((a.parse gap atomic cursor).getD ⟨[], cursor⟩)
  | star a, atomic, cursor =>
    match a.parse gap atomic cursor with
    | none => some ⟨[], cursor⟩
    | some first =>
      let others := many (fun next => a.parse gap atomic (skip gap atomic next)) first.next
      some ⟨first.pairs ++ others.pairs, others.next⟩
  | ahead a, atomic, cursor => (a.parse gap atomic cursor).map fun _ => ⟨[], cursor⟩
  | never a, atomic, cursor =>
    match a.parse gap atomic cursor with
    | none => some ⟨[], cursor⟩
    | some _ => none
  | rule name kind a, atomic, cursor =>
    (a.parse gap (atomic || kind = .atomic) cursor).map fun body =>
      ⟨leave name kind atomic ⟨cursor.offset, body.next.offset⟩ body.pairs, body.next⟩

/-- The place behind all of what may be left out in a gap. -/
def gap (blank : ParsingExpr ρ) (cursor : Cursor) : Cursor :=
  (many (blank.parse id true) cursor).next

/-- What an expression takes from the start of a text, with gaps as given. -/
def parseText (blank e : ParsingExpr ρ) (text : List Char) : Option (Taken ρ) :=
  e.parse blank.gap false ⟨0, text⟩

/-! ### Sequences -/

section Sequences

variable {gap : Cursor → Cursor} {atomic : Bool} {cursor : Cursor} {a b : ParsingExpr ρ}

theorem parse_seq_of_eq_some {first : Taken ρ} (h : a.parse gap atomic cursor = some first) :
    (seq a b).parse gap atomic cursor =
      (b.parse gap atomic (skip gap atomic first.next)).map fun second =>
        ⟨first.pairs ++ second.pairs, second.next⟩ := by
  rw [parse, h, Option.map_eq_bind]
  rfl

end Sequences

/-! ### Rules -/

section Rules

variable {gap : Cursor → Cursor} {name : ρ} {e : ParsingExpr ρ} {cursor : Cursor}

theorem parse_normal : (rule name .normal e).parse gap false cursor =
    (e.parse gap false cursor).map fun body =>
      ⟨[⟨name, ⟨cursor.offset, body.next.offset⟩, body.pairs⟩], body.next⟩ :=
  rfl

theorem parse_silent {atomic : Bool} :
    (rule name .silent e).parse gap atomic cursor = e.parse gap atomic cursor := by
  rw [parse, decide_eq_false (by decide), Bool.or_false]
  exact Option.map_id_apply

theorem parse_atomic : (rule name .atomic e).parse gap false cursor =
    (e.parse gap true cursor).map fun body =>
      ⟨[⟨name, ⟨cursor.offset, body.next.offset⟩, body.pairs⟩], body.next⟩ :=
  rfl

end Rules

/-! ### Repetitions -/

section Many

variable {step : Cursor → Option (Taken ρ)} {cursor : Cursor} {first : Taken ρ}

theorem many_of_eq_none (h : step cursor = none) : many step cursor = ⟨[], cursor⟩ := by
  rw [many, h]

theorem many_of_eq_some (h : step cursor = some first)
    (hlt : first.next.rest.length < cursor.rest.length) :
    many step cursor =
      ⟨first.pairs ++ (many step first.next).pairs, (many step first.next).next⟩ := by
  rw [many, h]
  simp only [hlt, if_true]

/-- **A repetition is a loop**, if it starts behind a gap and its first round takes something. -/
theorem parse_star_of_progress {gap : Cursor → Cursor} {atomic : Bool} {e : ParsingExpr ρ}
    (hskip : skip gap atomic cursor = cursor)
    (hprogress : ∀ first, e.parse gap atomic cursor = some first →
      first.next.rest.length < cursor.rest.length) :
    (star e).parse gap atomic cursor =
      some (many (fun next => e.parse gap atomic (skip gap atomic next)) cursor) := by
  rw [parse]
  cases hfirst : e.parse gap atomic cursor with
  | none => rw [many_of_eq_none (by rw [hskip, hfirst])]
  | some first => rw [many_of_eq_some (by rw [hskip, hfirst]) (hprogress first hfirst)]

end Many

/-! ### Expressions for one character -/

/-- Inside of an atomic rule, the expression takes one character that is accepted. -/
def Takes (e : ParsingExpr ρ) (accepts : Char → Bool) : Prop :=
  ∀ gap cursor, e.parse gap true cursor = (cursor.take? accepts).map (⟨[], ·⟩)

section Takes

variable {e e' : ParsingExpr ρ} {accepts accepts' : Char → Bool} {cursor : Cursor}

theorem takes_one : (one accepts : ParsingExpr ρ).Takes accepts :=
  fun _ _ => rfl

theorem Takes.choice (h : e.Takes accepts) (h' : e'.Takes accepts') :
    (choice e e').Takes fun c => accepts c || accepts' c := by
  intro gap ⟨offset, text⟩
  rw [parse, h, h']
  cases text with
  | nil => rfl
  | cons c rest => cases hc : accepts c <;> simp [Cursor.take?, hc]

theorem Takes.seq_never (h : e.Takes accepts) :
    (seq (never e) (one fun _ => true)).Takes fun c => !accepts c := by
  intro gap ⟨offset, text⟩
  rw [parse, parse, h]
  cases text with
  | nil => rfl
  | cons c rest => cases hc : accepts c <;> simp [Cursor.take?, hc, parse, skip]

theorem Takes.silent {name : ρ} (h : e.Takes accepts) : (rule name .silent e).Takes accepts := by
  intro gap cursor
  rw [parse_silent, h]

theorem Takes.many_eq (h : e.Takes accepts) (gap : Cursor → Cursor) (cursor : Cursor) :
    many (e.parse gap true) cursor = ⟨[], cursor.past accepts⟩ := by
  obtain ⟨offset, text⟩ := cursor
  induction text generalizing offset with
  | nil => exact many_of_eq_none (h gap _)
  | cons c rest ih =>
    cases hc : accepts c with
    | false =>
      rw [many_of_eq_none (by rw [h, Cursor.take?, hc]; rfl)]
      simp [Cursor.past, hc]
    | true =>
      have hstep : e.parse gap true ⟨offset, c :: rest⟩ =
          some ⟨[], ⟨offset + c.utf8Size, rest⟩⟩ := by
        rw [h, Cursor.take?, hc]
        rfl
      rw [many_of_eq_some hstep (Nat.lt_succ_self _), ih]
      simp [Cursor.past, hc, Nat.add_assoc]

theorem Takes.gap_eq (h : e.Takes accepts) : e.gap cursor = cursor.past accepts := by
  rw [gap, h.many_eq]

theorem Takes.parse_plus (h : e.Takes accepts) (gap : Cursor → Cursor) (cursor : Cursor) :
    (plus e).parse gap true cursor =
      if cursor.rest.takeWhile accepts = [] then none else some ⟨[], cursor.past accepts⟩ := by
  have hstar (cursor : Cursor) :
      (star e).parse gap true cursor = some ⟨[], cursor.past accepts⟩ := by
    have hprogress : ∀ first, e.parse gap true cursor = some first →
        first.next.rest.length < cursor.rest.length := by
      intro first hfirst
      rw [h, Option.map_eq_some_iff] at hfirst
      obtain ⟨next, hnext, rfl⟩ := hfirst
      exact Cursor.length_rest_lt_of_take?_eq_some hnext
    rw [parse_star_of_progress rfl hprogress]
    exact congrArg some (h.many_eq gap cursor)
  obtain ⟨offset, text⟩ := cursor
  rw [plus, parse, h]
  cases text with
  | nil => rfl
  | cons c rest =>
    cases hc : accepts c with
    | false => simp [Cursor.take?, hc]
    | true => simp [Cursor.take?, hc, hstar, skip, Cursor.past, Nat.add_assoc]

end Takes

end ParsingExpr

end ResidueMachine
