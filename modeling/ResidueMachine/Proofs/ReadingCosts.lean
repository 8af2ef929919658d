import ResidueMachine.Proofs.Reading

/-!
# Counts that are larger than the source

The header of a source says how many words and how many instructions follow, and both numbers may
be far larger than the source is long.  They cost nothing.  Each round of the two loops takes a
token or ends the reading, so that no more rounds are made than there are tokens left and one; a
reader that makes no more rounds from the start (`loadClamped`) has the same outcome for every
source.

What the reader does on the way is seen in a monad that watches it (`Watched`).  There the next
token is found by its number, and each time that a token is taken, storage is asked for or an event
noted, it is written down how far the reader has come, also when it fails later on.

* `Reading.words_eq_of_lt`, `Reading.instructions_eq_of_lt` : counts beyond the tokens left do not
  differ;
* `load_eq_loadClamped` : loading with clamped counts;
* `Watched.Follows` : the reader keeps within the bounds when it is watched, and gives what it
  gives in `Reading`, with a lemma for each of its parts;
* `declared_counts_cost_nothing` : the outcome does not depend on surplus counts, and the bounds
  are kept at all times.
-/

namespace ResidueMachine

/-! ### Clamped counts -/

/-- As many rounds as are asked for, but at most one more than there are tokens left. -/
def clamp (count left : Nat) : Nat :=
  min count (left + 1)

open Reader in
/-- The code, read with clamped counts. -/
def Reading.clampedCode (size : Nat) : Reading LoadedCode := do
  let modulus ← modulus Reading size
  let tableSize ← count Reading size .tableSize
  let instructionCount ← count Reading size .instructionCount
  let left ← remaining
  let words ← words Reading size (clamp tableSize left) (← allocate Reading Int64 tableSize)
  let left ← remaining
  let placed ← instructions Reading size (clamp instructionCount left)
    (← allocate Reading PlacedInstruction instructionCount)
  finish Reading size
  let placed := placed.toList
  return ⟨⟨modulus, ⟨words⟩, placed.map (·.instruction)⟩, placed.map (·.span)⟩

/-- The code that a source writes, read with clamped counts. -/
def loadClamped (source : String) : Except LoadError LoadedCode := do
  let tokens ← tokenize source.toList
  (Reading.clampedCode source.utf8ByteSize).run' tokens

/-! ### Watching the reader -/

/-- How far the reader has come. -/
structure Progress where
  /-- The number of tokens taken, which is the number of the next one. -/
  taken : Nat := 0
  /-- The rounds started of the loop that reads the table. -/
  tableRounds : Nat := 0
  /-- The words stored. -/
  words : Nat := 0
  /-- The rounds started of the loop that reads the program. -/
  programRounds : Nat := 0
  /-- The instructions stored. -/
  instructions : Nat := 0
  /-- The room asked for since the last token. -/
  room : Nat := 0
  deriving DecidableEq

/-- The progress after one more token. -/
def Progress.take (p : Progress) : Progress :=
  { p with taken := p.taken + 1, room := 0 }

/-- The progress after an event. -/
def Progress.after (p : Progress) : ReaderEvent → Progress
  | .tableRound => { p with tableRounds := p.tableRounds + 1 }
  | .word count => { p with words := count }
  | .programRound => { p with programRounds := p.programRounds + 1 }
  | .instruction count => { p with instructions := count }

/-- The progress after a request for storage. -/
def Progress.request (p : Progress) (room : Nat) : Progress :=
  { p with room }

/-- The progress keeps within the bounds that the number of tokens sets. -/
structure Progress.IsBounded (count : Nat) (p : Progress) : Prop where
  /-- The reader does not pass the last token. -/
  taken_le : p.taken ≤ count
  /-- No more room is asked for than there are tokens left. -/
  room_le : p.room ≤ count - p.taken
  /-- No more is stored than tokens have been taken. -/
  stored_le : p.words + p.instructions ≤ p.taken
  /-- The table takes at most one round more than there are tokens behind the header. -/
  tableRounds_le : p.tableRounds ≤ count - 3 + 1
  /-- The program takes at most one round more than there are tokens behind the table. -/
  programRounds_le : p.programRounds ≤ count - (3 + p.words) + 1

/-- The progress of a reader, and all that was before. -/
structure Watch where
  /-- How far the reader has come. -/
  now : Progress := {}
  /-- How far it had come before, the last time first. -/
  past : List Progress := []

/-- All the progress of a reader. -/
def Watch.moments (w : Watch) : List Progress :=
  w.now :: w.past

/-- The same, with progress that has been made since. -/
def Watch.add (w : Watch) (p : Progress) : Watch :=
  ⟨p, w.moments⟩

/-- Reading that is watched, from a row of tokens that does not change. -/
abbrev Watched := ReaderT (List Token) (EStateM LoadError Watch)

instance : Reader Watched where
  next? tokens w :=
    match tokens[w.now.taken]? with
    | none => .ok none w
    | some t => .ok (some t) (w.add w.now.take)
  peek? tokens w := .ok tokens[w.now.taken]? w
  remaining tokens w := .ok (tokens.length - w.now.taken) w
  storage _ room _ w := .ok (.emptyWithCapacity room) (w.add (w.now.request room))
  note event _ w := .ok () (w.add (w.now.after event))

namespace Watched

/-- What a watched reading gives. -/
def outcome {α : Type} : EStateM.Result LoadError Watch α → Except LoadError α
  | .ok a _ => .ok a
  | .error e _ => .error e

/-- All the progress of a watched reading. -/
def moments {α : Type} : EStateM.Result LoadError Watch α → List Progress
  | .ok _ w | .error _ w => w.moments

end Watched

/-! ### Surplus rounds -/

namespace Reading

open Reader

variable {size : Nat} {tokens rest : List Token}

theorem bind_congr_of_ok {α β : Type} {x : Reading α} {f g : α → Reading β}
    (h : ∀ a rest, x tokens = .ok (a, rest) → f a rest = g a rest) :
    (x >>= f) tokens = (x >>= g) tokens := by
  change (x tokens).bind (fun p => f p.1 p.2) = (x tokens).bind fun p => g p.1 p.2
  cases hx : x tokens with
  | error e => rfl
  | ok read => exact h read.1 read.2 hx

theorem bind_congr_of_eq {α β : Type} {x y : Reading α} (h : x tokens = y tokens)
    (f : α → Reading β) : (x >>= f) tokens = (y >>= f) tokens := by
  show (x tokens).bind (fun p => f p.1 p.2) = (y tokens).bind fun p => f p.1 p.2
  rw [h]

/-- Counts beyond the tokens left do not differ: reading fails in the same round. -/
theorem words_eq_of_lt {k k' : Nat} {found : Array Int64} (h : tokens.length < k)
    (h' : tokens.length < k') :
    words Reading size k found tokens = words Reading size k' found tokens := by
  induction tokens generalizing k k' found with
  | nil =>
    obtain ⟨k, rfl⟩ := Nat.exists_eq_add_of_lt h
    obtain ⟨k', rfl⟩ := Nat.exists_eq_add_of_lt h'
    rfl
  | cons t rest ih =>
    obtain ⟨k, rfl⟩ := Nat.exists_eq_add_one_of_ne_zero (Nat.ne_zero_of_lt h)
    obtain ⟨k', rfl⟩ := Nat.exists_eq_add_one_of_ne_zero (Nat.ne_zero_of_lt h')
    exact ih (Nat.lt_of_succ_lt_succ h) (Nat.lt_of_succ_lt_succ h')

theorem length_lt_of_instruction {position : Nat} {p : PlacedInstruction}
    (h : instruction Reading size position tokens = .ok (p, rest)) :
    rest.length < tokens.length := by
  obtain ⟨read, rfl, hread⟩ := instruction_eq_ok_iff.1 h
  cases hread
  rw [List.cons_append, List.length_cons, List.length_append]
  omega

theorem instructions_eq_of_lt {k k' : Nat} {found : Array PlacedInstruction}
    (h : tokens.length < k) (h' : tokens.length < k') :
    instructions Reading size k found tokens = instructions Reading size k' found tokens := by
  induction k generalizing k' found tokens with
  | zero => exact absurd h (Nat.not_lt_zero _)
  | succ k ih =>
    obtain ⟨k', rfl⟩ := Nat.exists_eq_add_one_of_ne_zero (Nat.ne_zero_of_lt h')
    rw [instructions_succ, instructions_succ]
    refine bind_congr_of_ok fun p rest hp => ?_
    -- a token has been taken, so that the counts left are beyond the tokens left again
    have hrest := length_lt_of_instruction hp
    exact ih (by omega) (by omega)

theorem eq_of_clamp {α : Type} {loop : Nat → Reading α}
    (h : ∀ k k', tokens.length < k → tokens.length < k' → loop k tokens = loop k' tokens)
    (count : Nat) : loop count tokens = loop (clamp count tokens.length) tokens := by
  by_cases hcount : count ≤ tokens.length + 1
  · rw [clamp, Nat.min_eq_left hcount]
  · rw [clamp, Nat.min_eq_right (by omega)]
    exact h _ _ (by omega) (by omega)

theorem remaining_bind {α : Type} {f : Nat → Reading α} :
    (remaining >>= f : Reading α) tokens = f tokens.length tokens :=
  rfl

/-- **Clamped counts do not change what is read.** -/
theorem code_eq_clampedCode : code Reading size tokens = clampedCode size tokens := by
  refine bind_congr_of_ok fun m _ _ => bind_congr_of_ok fun n _ _ =>
    bind_congr_of_ok fun l left _ => ?_
  rw [remaining_bind, allocate_bind, allocate_bind]
  -- the words are the same, and so is what follows them
  refine Eq.trans (bind_congr_of_ok fun words left _ => ?_) (bind_congr_of_eq ?_ _)
  · rw [remaining_bind, allocate_bind, allocate_bind]
    exact bind_congr_of_eq (eq_of_clamp (fun _ _ => instructions_eq_of_lt) l) _
  · exact eq_of_clamp (fun _ _ => words_eq_of_lt) n

end Reading

theorem load_eq_loadClamped (source : String) : load source = loadClamped source := by
  have hcode : (Reader.code Reading source.utf8ByteSize).run' =
      (Reading.clampedCode source.utf8ByteSize).run' := by
    funext tokens
    exact congrArg (Except.map Prod.fst) Reading.code_eq_clampedCode
  rw [load, loadClamped, hcode]

/-! ### The bounds -/

/-- The bounds have been kept at all times. -/
def Watch.IsBounded (count : Nat) (w : Watch) : Prop :=
  ∀ p ∈ w.moments, p.IsBounded count

theorem Watch.IsBounded.add {count : Nat} {w : Watch} {p : Progress} (h : w.IsBounded count)
    (hp : p.IsBounded count) : (w.add p).IsBounded count :=
  List.forall_mem_cons.2 ⟨hp, h⟩

theorem Watch.IsBounded.now {count : Nat} {w : Watch} (h : w.IsBounded count) :
    w.now.IsBounded count :=
  h _ List.mem_cons_self

theorem Progress.IsBounded.take {count : Nat} {p : Progress} (h : p.IsBounded count)
    (hlt : p.taken < count) : p.take.IsBounded count where
  taken_le := hlt
  room_le := Nat.zero_le _
  stored_le := Nat.le_succ_of_le h.stored_le
  tableRounds_le := h.tableRounds_le
  programRounds_le := h.programRounds_le

theorem Progress.taken_after (p : Progress) (event : ReaderEvent) :
    (p.after event).taken = p.taken := by
  cases event <;> rfl

namespace Watched

/-- A watched reading gives what a reading gives, has left the tokens that it leaves, and has kept
the bounds.  With what it gives, it has come to where the condition holds. -/
inductive Agrees {α : Type} (tokens : List Token) (post : α → Progress → Prop) :
    EStateM.Result LoadError Watch α → Except LoadError (α × List Token) → Prop
  /-- Both give the same. -/
  | ok {a : α} {w : Watch} : w.IsBounded tokens.length → post a w.now →
    Agrees tokens post (.ok a w) (.ok (a, tokens.drop w.now.taken))
  /-- Both fail with the same error. -/
  | error {e : LoadError} {w : Watch} : w.IsBounded tokens.length →
    Agrees tokens post (.error e w) (.error e)

section Agrees

variable {α : Type} {tokens : List Token} {post : α → Progress → Prop}
  {x : EStateM.Result LoadError Watch α} {y : Except LoadError (α × List Token)}

theorem Agrees.outcome_eq (h : Agrees tokens post x y) : outcome x = y.map Prod.fst := by
  cases h <;> rfl

theorem Agrees.isBounded (h : Agrees tokens post x y) :
    ∀ p ∈ moments x, p.IsBounded tokens.length := by
  cases h with
  | ok hw _ => exact hw
  | error hw => exact hw

end Agrees

/-- Wherever a watched reading is started, it agrees with the reading from there. -/
def Follows {α : Type} (tokens : List Token) (pre : Progress → Prop) (x : Watched α)
    (y : Reading α) (post : α → Progress → Prop) : Prop :=
  ∀ w : Watch, w.IsBounded tokens.length → pre w.now →
    Agrees tokens post (x tokens w) (y (tokens.drop w.now.taken))

section Rules

variable {tokens : List Token} {α β : Type} {pre : Progress → Prop} {post : β → Progress → Prop}

theorem Follows.pure {b : β} (h : ∀ p, pre p → post b p) :
    Follows tokens pre (pure b) (pure b) post :=
  fun _ hw hpre => .ok hw (h _ hpre)

theorem Follows.throw {e : LoadError} :
    Follows tokens pre (throw e : Watched β) (throw e) post :=
  fun _ hw _ => .error hw

theorem Follows.assume {fact : Prop} {x : Watched β} {y : Reading β}
    (h : fact → Follows tokens pre x y post) :
    Follows tokens (fun p => fact ∧ pre p) x y post :=
  fun w hw hpre => h hpre.1 w hw hpre.2

theorem Follows.bind {mid : α → Progress → Prop} {x : Watched α} {y : Reading α}
    {f : α → Watched β} {g : α → Reading β} (hx : Follows tokens pre x y mid)
    (hf : ∀ a, Follows tokens (mid a) (f a) (g a) post) :
    Follows tokens pre (x >>= f) (y >>= g) post := by
  intro w hw hpre
  have hagrees := hx w hw hpre
  change Agrees tokens post (EStateM.bind (x tokens) (fun a => f a tokens) w)
    ((y (tokens.drop w.now.taken)).bind fun read => g read.1 read.2)
  rw [EStateM.bind]
  generalize x tokens w = watched, y (tokens.drop w.now.taken) = read at hagrees ⊢
  cases hagrees with
  | ok hw hmid => exact hf _ _ hw hmid
  | error hw => exact .error hw

end Rules

/-! ### The operations -/

section Operations

open Reader

variable {tokens : List Token} {k : Nat} {pre post : Progress → Prop}

theorem drop_of_getElem?_eq_none (h : tokens[k]? = none) : tokens.drop k = [] :=
  List.drop_eq_nil_of_le (List.getElem?_eq_none_iff.1 h)

theorem drop_of_getElem?_eq_some {t : Token} (h : tokens[k]? = some t) :
    tokens.drop k = t :: tokens.drop (k + 1) := by
  rw [List.drop_eq_getElem?_toList_append, h]
  rfl

theorem next?_eq {w : Watch} : (next? : Watched (Option Token)) tokens w =
    match tokens[w.now.taken]? with
    | none => .ok none w
    | some t => .ok (some t) (w.add w.now.take) :=
  rfl

theorem follows_next? (h : ∀ p, pre p → post p.take) :
    Follows tokens pre next? next? fun t? p => t?.isSome → post p := by
  intro w hw hpre
  rw [next?_eq]
  cases ht : tokens[w.now.taken]? with
  | none =>
    have hagrees : Agrees tokens (fun (t? : Option Token) p => t?.isSome → post p) (.ok none w) _ :=
      .ok hw fun h => absurd h Bool.false_ne_true
    rw [drop_of_getElem?_eq_none ht] at hagrees ⊢
    exact hagrees
  | some t =>
    obtain ⟨hlt, -⟩ := List.getElem?_eq_some_iff.1 ht
    rw [drop_of_getElem?_eq_some ht]
    exact .ok (hw.add (hw.now.take hlt)) fun _ => h w.now hpre

theorem follows_peek? : Follows tokens pre peek? peek? fun _ => pre := by
  intro w hw hpre
  have hread : (peek? : Reading (Option Token)) (tokens.drop w.now.taken) =
      .ok (tokens[w.now.taken]?, tokens.drop w.now.taken) := by
    rw [← List.head?_drop]
    rfl
  rw [hread]
  exact .ok hw hpre

theorem follows_remaining :
    Follows tokens pre remaining remaining
      fun left p => pre p ∧ left = tokens.length - p.taken := by
  intro w hw hpre
  have hread : (remaining : Reading Nat) (tokens.drop w.now.taken) =
      .ok (tokens.length - w.now.taken, tokens.drop w.now.taken) := by
    rw [← List.length_drop]
    rfl
  rw [hread]
  exact .ok hw ⟨hpre, rfl⟩

theorem follows_storage {α : Type} {room : Nat}
    (h : ∀ p, p.IsBounded tokens.length → pre p →
      (p.request room).IsBounded tokens.length ∧ post (p.request room)) :
    Follows tokens pre (storage α room) (storage α room) fun found p => found = #[] ∧ post p := by
  intro w hw hpre
  obtain ⟨hbounded, hpost⟩ := h w.now hw.now hpre
  exact .ok (hw.add hbounded) ⟨rfl, hpost⟩

theorem follows_note {event : ReaderEvent}
    (h : ∀ p, p.IsBounded tokens.length → pre p →
      (p.after event).IsBounded tokens.length ∧ post (p.after event)) :
    Follows tokens pre (note event) (note event) fun _ => post := by
  intro w hw hpre
  obtain ⟨hbounded, hpost⟩ := h w.now hw.now hpre
  have hagrees : Agrees tokens (fun _ => post) (.ok () (w.add (w.now.after event))) _ :=
    .ok (hw.add hbounded) hpost
  rw [Watch.add, Progress.taken_after] at hagrees
  exact hagrees

end Operations

/-! ### The parts of the reader -/

section Parts

open Reader

variable {tokens : List Token} {size : Nat} {pre post : Progress → Prop}

theorem follows_token {item : Item} (h : ∀ p, pre p → post p.take) :
    Follows tokens pre (token Watched size item) (token Reading size item) fun _ => post := by
  refine .bind (follows_next? h) fun t? => ?_
  cases t? with
  | none => exact .throw
  | some t => exact .pure fun _ hp => hp rfl

theorem follows_finish :
    Follows tokens pre (finish Watched size) (finish Reading size) fun _ => pre := by
  refine .bind follows_peek? fun t? => ?_
  cases t? with
  | none => exact .pure fun _ hp => hp
  | some t => exact .throw

/-- No more room is asked for than there are tokens left. -/
theorem follows_allocate {α : Type} {count : Nat}
    (h : ∀ p room, pre p → post (p.request room)) :
    Follows tokens pre (allocate Watched α count) (allocate Reading α count)
      fun found p => found = #[] ∧ post p := by
  refine .bind follows_remaining fun left => follows_storage fun p hp hleft => ?_
  obtain ⟨hpre, rfl⟩ := hleft
  exact ⟨{ hp with room_le := Nat.min_le_right _ _ }, h p _ hpre⟩

theorem follows_modulus (h : ∀ p, pre p → post p.take) :
    Follows tokens pre (modulus Watched size) (modulus Reading size) fun _ => post := by
  refine .bind (follows_token h) fun t => ?_
  cases Modulus.ofWord? t.value with
  | none => exact .throw
  | some m => exact .pure fun _ hp => hp

theorem follows_count {item : Item} (h : ∀ p, pre p → post p.take) :
    Follows tokens pre (count Watched size item) (count Reading size item) fun _ => post := by
  refine .bind (follows_token h) fun t => ?_
  by_cases hnegative : t.value.toInt < 0
  · rw [if_pos hnegative, if_pos hnegative]
    exact .throw
  · rw [if_neg hnegative, if_neg hnegative]
    exact .pure fun _ hp => hp

theorem follows_operands {position count number : Nat} (h : ∀ p, pre p → pre p.take) :
    Follows tokens pre (operands Watched size position count number)
      (operands Reading size position count number) fun _ => pre := by
  induction count generalizing number with
  | zero => exact .pure fun _ hp => hp
  | succ count ih =>
    exact .bind (follows_token h) fun t => .bind ih fun others => .pure fun _ hp => hp

theorem follows_instruction {position : Nat} (hfirst : ∀ p, pre p → post p.take)
    (hmore : ∀ p, post p → post p.take) :
    Follows tokens pre (instruction Watched size position) (instruction Reading size position)
      fun _ => post := by
  refine .bind (follows_token hfirst) fun tag => ?_
  cases Instruction.arity? tag.value with
  | none => exact .throw
  | some arity =>
    refine .bind (follows_operands hmore) fun operands => ?_
    cases Instruction.decode tag.value (operands.map Token.value) with
    | error e => exact .throw
    | ok i => exact .pure fun _ hp => hp

end Parts

/-! ### The loops -/

/-- The progress in the loop that reads the table. -/
structure InTable (rounds spent stored : Nat) (p : Progress) : Prop where
  /-- The rounds started. -/
  tableRounds_eq : p.tableRounds = rounds
  /-- The header has been read, and then a token for each word. -/
  spent_le : 3 + spent ≤ p.taken
  /-- The words stored. -/
  words_eq : p.words = stored
  /-- The program comes later. -/
  program_eq : p.programRounds = 0 ∧ p.instructions = 0

/-- The progress in the loop that reads the program. -/
structure InProgram (rounds spent stored : Nat) (p : Progress) : Prop where
  /-- The rounds started. -/
  programRounds_eq : p.programRounds = rounds
  /-- The header and the table have been read, and then a token at least for each instruction. -/
  spent_le : 3 + p.words + spent ≤ p.taken
  /-- The instructions stored. -/
  instructions_eq : p.instructions = stored

section Loops

open Reader

variable {tokens : List Token} {size k : Nat} {p : Progress}

theorem InTable.start (h : InTable k k k p) (hp : p.IsBounded tokens.length) :
    let p' := p.after .tableRound
    p'.IsBounded tokens.length ∧ InTable (k + 1) k k p' := by
  obtain ⟨hrounds, hspent, hwords, hprogram⟩ := h
  have htaken := hp.taken_le
  refine ⟨{ hp with tableRounds_le := ?_ }, congrArg (· + 1) hrounds, hspent, hwords, hprogram⟩
  show p.tableRounds + 1 ≤ _
  omega

theorem InTable.take {rounds spent stored : Nat} (h : InTable rounds spent stored p) :
    InTable rounds (spent + 1) stored p.take :=
  ⟨h.tableRounds_eq, Nat.succ_le_succ h.spent_le, h.words_eq, h.program_eq⟩

theorem InTable.store (h : InTable (k + 1) (k + 1) k p) (hp : p.IsBounded tokens.length) :
    let p' := p.after (.word (k + 1))
    p'.IsBounded tokens.length ∧ InTable (k + 1) (k + 1) (k + 1) p' := by
  obtain ⟨hrounds, hspent, -, hprogram⟩ := h
  refine ⟨{ hp with stored_le := ?_, programRounds_le := ?_ }, hrounds, hspent, rfl, hprogram⟩
  · show k + 1 + p.instructions ≤ p.taken
    omega
  · show p.programRounds ≤ _
    omega

theorem InProgram.start (h : InProgram k k k p) (hp : p.IsBounded tokens.length) :
    let p' := p.after .programRound
    p'.IsBounded tokens.length ∧ InProgram (k + 1) k k p' := by
  obtain ⟨hrounds, hspent, hinstructions⟩ := h
  have htaken := hp.taken_le
  refine ⟨{ hp with programRounds_le := ?_ }, congrArg (· + 1) hrounds, hspent, hinstructions⟩
  show p.programRounds + 1 ≤ tokens.length - (3 + p.words) + 1
  omega

theorem InProgram.take {rounds spent stored : Nat} (h : InProgram rounds spent stored p) :
    InProgram rounds (spent + 1) stored p.take ∧ InProgram rounds spent stored p.take :=
  ⟨⟨h.programRounds_eq, Nat.succ_le_succ h.spent_le, h.instructions_eq⟩,
    ⟨h.programRounds_eq, Nat.le_succ_of_le h.spent_le, h.instructions_eq⟩⟩

theorem InProgram.store (h : InProgram (k + 1) (k + 1) k p) (hp : p.IsBounded tokens.length) :
    let p' := p.after (.instruction (k + 1))
    p'.IsBounded tokens.length ∧ InProgram (k + 1) (k + 1) (k + 1) p' := by
  obtain ⟨hrounds, hspent, -⟩ := h
  refine ⟨{ hp with stored_le := ?_ }, hrounds, hspent, rfl⟩
  show p.words + (k + 1) ≤ p.taken
  omega

/-- **The loop of the table keeps within the bounds.** -/
theorem follows_words (count : Nat) (found : Array Int64) :
    Follows tokens (InTable found.size found.size found.size) (words Watched size count found)
      (words Reading size count found)
      fun all => InTable all.size all.size all.size := by
  induction count generalizing found with
  | zero => exact .pure fun _ hp => hp
  | succ count ih =>
    -- the round is noted before its token is looked for, as there may be none
    refine .bind (follows_note fun p hp h => h.start hp) fun _ =>
      .bind (follows_token fun _ => InTable.take) fun t =>
        .bind (follows_note fun p hp h => ?_) fun _ => ih (found.push t.value)
    rw [Array.size_push]
    exact h.store hp

/-- **The loop of the program keeps within the bounds.** -/
theorem follows_instructions (count : Nat) (found : Array PlacedInstruction) :
    Follows tokens (InProgram found.size found.size found.size)
      (instructions Watched size count found) (instructions Reading size count found)
      fun all => InProgram all.size all.size all.size := by
  induction count generalizing found with
  | zero => exact .pure fun _ hp => hp
  | succ count ih =>
    refine .bind (follows_note fun p hp h => h.start hp) fun _ =>
      .bind (follows_instruction (fun _ h => h.take.1) fun _ h => h.take.2) fun i =>
        .bind (follows_note fun p hp h => ?_) fun _ => ih (found.push i)
    rw [Array.size_push]
    exact h.store hp

end Loops

open Reader in
/-- **The reader keeps within the bounds when it is watched, and gives the same.** -/
theorem follows_code {tokens : List Token} {size : Nat} :
    Follows tokens (· = {}) (code Watched size) (code Reading size) fun _ _ => True := by
  have hmodulus : Follows tokens (· = {}) (modulus Watched size) (modulus Reading size)
      fun _ => (· = { taken := 1 }) := by
    refine follows_modulus ?_
    rintro _ rfl
    rfl
  have hcount (k : Nat) (item : Item) : Follows tokens (· = { taken := k })
      (count Watched size item) (count Reading size item) fun _ => (· = { taken := k + 1 }) := by
    refine follows_count ?_
    rintro _ rfl
    rfl
  -- after the header, the loop of the table has not been started yet
  have hwordRoom (n : Nat) : Follows tokens (· = { taken := 3 }) (allocate Watched Int64 n)
      (allocate Reading Int64 n) fun found p => found = #[] ∧ InTable 0 0 0 p := by
    refine follows_allocate ?_
    rintro _ room rfl
    exact ⟨rfl, Nat.le_refl 3, rfl, rfl, rfl⟩
  -- after the table, that of the program has not been
  have hplacedRoom (k l : Nat) : Follows tokens (InTable k k k)
      (allocate Watched PlacedInstruction l) (allocate Reading PlacedInstruction l)
      fun found p => found = #[] ∧ InProgram 0 0 0 p := by
    refine follows_allocate fun p room h => ⟨h.program_eq.1, ?_, h.program_eq.2⟩
    show 3 + p.words + 0 ≤ p.taken
    rw [h.words_eq]
    exact h.spent_le
  refine .bind hmodulus fun m => .bind (hcount 1 _) fun n => .bind (hcount 2 _) fun l =>
    .bind (hwordRoom n) fun found => .assume ?_
  rintro rfl
  refine .bind (follows_words n #[]) fun all => .bind (hplacedRoom _ l) fun found => .assume ?_
  rintro rfl
  exact .bind (follows_instructions l #[]) fun placed => .bind follows_finish fun _ =>
    .pure fun _ _ => trivial

end Watched

/-- **Declared counts cost nothing.**  Every source is loaded, or refused with the same error, as
if no count were larger than one more than the tokens left.  A reader that is watched gives the
same, and at all times it has not passed the last token, has asked for no more room than there are
tokens left and stored no more than it has taken tokens, and its two loops have started at most
one round more than there are tokens behind the header, and behind the table. -/
theorem declared_counts_cost_nothing (source : String) :
    load source = loadClamped source ∧
      ∀ tokens, tokenize source.toList = .ok tokens →
        let watched := Reader.code Watched source.utf8ByteSize tokens {}
        Watched.outcome watched = load source ∧
          ∀ p ∈ Watched.moments watched, p.IsBounded tokens.length := by
  refine ⟨load_eq_loadClamped source, fun tokens htokens => ?_⟩
  have hstart : Watch.IsBounded tokens.length {} := by
    intro p hp
    rw [List.mem_singleton.1 hp]
    exact ⟨Nat.zero_le _, Nat.zero_le _, Nat.zero_le _, Nat.zero_le _, Nat.zero_le _⟩
  intro watched
  have hagrees : Watched.Agrees tokens (fun _ _ => True) watched
      (Reader.code Reading source.utf8ByteSize tokens) := Watched.follows_code {} hstart rfl
  rw [load_eq_of_tokenize htokens]
  exact ⟨hagrees.outcome_eq, hagrees.isBounded⟩

/-- The largest counts that there are, and a single token behind them: the table is read in two
rounds, the second of which finds no token. -/
example :
    let watched := Reader.code Watched 44 [⟨10, ⟨0, 2⟩⟩, ⟨.maxValue, ⟨3, 22⟩⟩,
      ⟨.maxValue, ⟨23, 42⟩⟩, ⟨5, ⟨43, 44⟩⟩] {}
    Watched.outcome watched = .error ⟨.unexpectedEnd (.tableWord 2), .emptyAt 44⟩ ∧
      (Watched.moments watched).head? = some { taken := 4, tableRounds := 2, words := 1 } := by
  decide +kernel

end ResidueMachine
