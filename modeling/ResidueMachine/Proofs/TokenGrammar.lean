import Mathlib.Data.List.TakeWhile
import ResidueMachine.Proofs.ParsingExpressions
import ResidueMachine.Proofs.Reading
import ResidueMachine.Proofs.Spelling

/-!
# The grammar of tokens

The format of sources has a grammar of parsing expressions for its tokens.  An `integer` is a
numeral up to a blank or the end of the text, an `invalid` is any row of characters other than
blanks, and an `input` is a row of these with gaps of blanks.  The digits of an integer are taken
before it is known whether they end where they must, and then the whole run is taken again as an
`invalid`.  Nevertheless the grammar does nothing but split a text at its blanks.

* `parse_token` : where a run starts, the run as a whole is a token;
* `many_token` : a repetition of tokens takes the runs of a text one by one;
* `parse_input` : all texts are inputs, and their tokens are their maximal runs;
* `slice_run` : the bytes of a run hold its characters;
* `tokenizeInput_eq` : reading the pairs of the grammar gives the tokens of the text;
* `tokenize_by_grammar` : the grammar, the runs, the tokens and the loader together.
-/

namespace ResidueMachine

/-- The rules of the grammar of tokens. -/
inductive TokenRule where
  /-- A character between tokens. -/
  | whitespace
  /-- A numeral, up to a blank or the end. -/
  | integer
  /-- Any row of characters other than blanks. -/
  | invalid
  /-- A numeral, or else any row. -/
  | token
  /-- All of the text. -/
  | input
  /-- The end of the text. -/
  | endOfInput
  deriving DecidableEq

/-- The characters that a text has at a range of bytes, if it starts at an offset. -/
def Span.slice (span : Span) : (offset : Nat) → List Char → List Char
  | _, [] => []
  | offset, c :: rest =>
    let others := slice span (offset + c.utf8Size) rest
    if span.start ≤ offset ∧ offset < span.stop then c :: others else others

namespace TokenGrammar

open ParsingExpr

/-! ### The grammar -/

/-- One given character. -/
def literal (c : Char) : ParsingExpr TokenRule :=
  one fun d => d = c

/-- A space, a tab, a carriage return or a line feed. -/
def whitespace : ParsingExpr TokenRule :=
  rule .whitespace .silent
    (choice (choice (choice (literal ' ') (literal '\t')) (literal '\r')) (literal '\n'))

/-- The end of the text, which leaves a pair. -/
def endOfInput : ParsingExpr TokenRule :=
  rule .endOfInput .normal stop

/-- A sign, if there is one. -/
def sign : ParsingExpr TokenRule :=
  optional (choice (literal '+') (literal '-'))

/-- At least one digit, and then a blank or the end, which is not taken. -/
def digits : ParsingExpr TokenRule :=
  seq (plus (one Char.isDigit)) (ahead (choice whitespace endOfInput))

/-- A numeral that reaches up to a blank or the end.  No gap is allowed inside. -/
def integer : ParsingExpr TokenRule :=
  rule .integer .atomic (seq sign digits)

/-- The longest row of characters other than blanks. -/
def invalid : ParsingExpr TokenRule :=
  rule .invalid .atomic (plus (seq (never whitespace) (one fun _ => true)))

/-- A numeral, or else the row of characters that it is looked for in. -/
def token : ParsingExpr TokenRule :=
  rule .token .silent (choice integer invalid)

/-- Tokens from the start of the text to its end. -/
def input : ParsingExpr TokenRule :=
  rule .input .normal (seq start (seq (star token) endOfInput))

/-! ### Blanks -/

variable {offset : Nat} {c : Char} {word text : List Char} {gap : Cursor → Cursor}

theorem takes_whitespace : whitespace.Takes isBlank :=
  (((takes_one.choice takes_one).choice takes_one).choice takes_one).silent

theorem takes_solid : (seq (never whitespace) (one fun _ => true)).Takes isSolid :=
  takes_whitespace.seq_never

theorem skip_whitespace (cursor : Cursor) :
    skip whitespace.gap false cursor = cursor.past isBlank :=
  takes_whitespace.gap_eq

theorem not_isSolid_of_end (hend : ∀ c ∈ text.head?, isBlank c) : ∀ c ∈ text.head?, ¬ isSolid c :=
  fun c hc hsolid => isSolid_iff.1 hsolid (hend c hc)

theorem past_append {accepts : Char → Bool} (hword : ∀ c ∈ word, accepts c)
    (hend : ∀ c ∈ text.head?, ¬ accepts c) :
    (⟨offset, word ++ text⟩ : Cursor).past accepts = ⟨offset + byteLength word, text⟩ := by
  rw [Cursor.past, takeWhile_append_of_head? hword hend, dropWhile_append_of_head? hword hend]

theorem past_of_dropWhile_eq_cons {accepts : Char → Bool} {others : List Char}
    (h : word.dropWhile accepts = c :: others) :
    (⟨offset, word ++ text⟩ : Cursor).past accepts =
      ⟨offset + byteLength (word.takeWhile accepts), c :: (others ++ text)⟩ := by
  have hc : ∀ d ∈ (c :: (others ++ text)).head?, ¬ accepts d := by
    intro d hd
    cases hd
    exact not_of_mem_head?_dropWhile (by rw [h]; rfl)
  have hsplit : word ++ text = word.takeWhile accepts ++ c :: (others ++ text) := by
    rw [← List.cons_append, ← h, ← List.append_assoc, List.takeWhile_append_dropWhile]
  rw [hsplit]
  exact past_append (List.all_eq_true.1 List.all_takeWhile) hc

/-! ### Tokens -/

/-- Where a run ends, what follows is as it must be behind digits. -/
theorem parse_ahead_of_end (hend : ∀ c ∈ text.head?, isBlank c) :
    (ahead (choice whitespace endOfInput)).parse gap true ⟨offset, text⟩ =
      some ⟨[], ⟨offset, text⟩⟩ := by
  rw [parse, parse, takes_whitespace]
  cases text with
  | nil => rfl
  | cons c rest => simp [Cursor.take?, hend c rfl]

theorem parse_ahead_of_solid (hc : isSolid c) :
    (ahead (choice whitespace endOfInput)).parse gap true ⟨offset, c :: text⟩ = none := by
  rw [parse, parse, takes_whitespace]
  simp [Cursor.take?, isSolid_iff.1 hc, endOfInput, parse]

theorem parse_digits (hsolid : ∀ c ∈ word, isSolid c) (hend : ∀ c ∈ text.head?, isBlank c) :
    digits.parse gap true ⟨offset, word ++ text⟩ =
      (Numeral.digits? word).map fun _ => ⟨[], ⟨offset + byteLength word, text⟩⟩ := by
  have hplus (cursor : Cursor) : (plus (one Char.isDigit) : ParsingExpr TokenRule).parse gap true
      cursor = if cursor.rest.takeWhile Char.isDigit = [] then none
        else some ⟨[], cursor.past Char.isDigit⟩ :=
    takes_one.parse_plus gap cursor
  rw [digits, parse, hplus]
  cases hdrop : word.dropWhile Char.isDigit with
  | nil =>
    have hdigits : ∀ c ∈ word, c.isDigit := List.dropWhile_eq_nil_iff.1 hdrop
    have hend' : ∀ c ∈ text.head?, ¬ c.isDigit := fun c hc hdigit =>
      not_isSolid_of_end hend c hc (Numeral.isSolid_of_isDigit hdigit)
    rw [takeWhile_append_of_head? hdigits hend', past_append hdigits hend', Numeral.digits?,
      List.all_eq_true.2 hdigits]
    by_cases hword : word = []
    · simp [hword]
    · simp [hword, skip, parse_ahead_of_end hend]
  | cons d others =>
    -- digits break off within the run, at a character that is no blank
    have hd : ¬ d.isDigit := not_of_mem_head?_dropWhile (by rw [hdrop]; rfl)
    have hmem : d ∈ word := (List.dropWhile_sublist _).subset (hdrop ▸ List.mem_cons_self)
    have hnone : Numeral.digits? word = none := by
      rw [Numeral.digits?, if_neg]
      rintro ⟨-, hall⟩
      exact hd (List.all_eq_true.1 hall d hmem)
    rw [hnone, past_of_dropWhile_eq_cons hdrop]
    split
    · rfl
    · simp [skip, parse_ahead_of_solid (hsolid d hmem)]

theorem parse_sign :
    sign.parse gap true ⟨offset, c :: text⟩ =
      some ⟨[], if c = '+' ∨ c = '-' then ⟨offset + c.utf8Size, text⟩
        else ⟨offset, c :: text⟩⟩ := by
  have htakes : (choice (literal '+') (literal '-')).Takes fun c => c = '+' || c = '-' :=
    takes_one.choice takes_one
  rw [sign, parse, htakes, Cursor.take?]
  by_cases hc : c = '+' ∨ c = '-'
  · simp [hc]
  · simp [hc]

/-- **A run is a numeral as a whole**, or none. -/
theorem parse_numeral (hword : word ≠ []) (hsolid : ∀ c ∈ word, isSolid c)
    (hend : ∀ c ∈ text.head?, isBlank c) :
    (seq sign digits).parse gap true ⟨offset, word ++ text⟩ =
      (Numeral.value? word).map fun _ => ⟨[], ⟨offset + byteLength word, text⟩⟩ := by
  obtain ⟨c, rest, rfl⟩ := List.exists_cons_of_ne_nil hword
  rw [List.cons_append, parse_seq_of_eq_some parse_sign]
  by_cases hsign : c = '+' ∨ c = '-'
  · have hrest : ∀ d ∈ rest, isSolid d := fun d hd => hsolid d (List.mem_cons_of_mem c hd)
    rw [if_pos hsign, skip, if_pos rfl, parse_digits hrest hend, Option.map_map, Nat.add_assoc]
    rcases hsign with rfl | rfl
    · rw [Numeral.value?, Option.map_map]
      rfl
    · rw [Numeral.value?, Option.map_map]
      rfl
  · have hvalue : Numeral.value? (c :: rest) = (Numeral.digits? (c :: rest)).map Int.ofNat := by
      unfold Numeral.value?
      split
      · rename_i heq
        exact absurd (.inl (List.cons.inj heq).1) hsign
      · rename_i heq
        exact absurd (.inr (List.cons.inj heq).1) hsign
      · rfl
    rw [if_neg hsign, skip, if_pos rfl, ← List.cons_append, parse_digits hsolid hend, hvalue,
      Option.map_map, Option.map_map]
    rfl

theorem parse_integer (hword : word ≠ []) (hsolid : ∀ c ∈ word, isSolid c)
    (hend : ∀ c ∈ text.head?, isBlank c) :
    integer.parse gap false ⟨offset, word ++ text⟩ =
      (Numeral.value? word).map fun _ =>
        ⟨[⟨.integer, ⟨offset, offset + byteLength word⟩, []⟩],
          ⟨offset + byteLength word, text⟩⟩ := by
  rw [integer, parse_atomic, parse_numeral hword hsolid hend, Option.map_map]
  rfl

theorem parse_invalid (hword : word ≠ []) (hsolid : ∀ c ∈ word, isSolid c)
    (hend : ∀ c ∈ text.head?, isBlank c) :
    invalid.parse gap false ⟨offset, word ++ text⟩ =
      some ⟨[⟨.invalid, ⟨offset, offset + byteLength word⟩, []⟩],
          ⟨offset + byteLength word, text⟩⟩ := by
  have hend := not_isSolid_of_end hend
  rw [invalid, parse_atomic, takes_solid.parse_plus, takeWhile_append_of_head? hsolid hend,
    if_neg hword, past_append hsolid hend]
  rfl

/-- The pair for a run. -/
def pairOf (run : Lexeme) : Pair TokenRule :=
  ⟨if (Numeral.value? run.text).isSome then .integer else .invalid, run.span, []⟩

theorem rule_pairOf (run : Lexeme) :
    (pairOf run).rule = .integer ∧ (∃ number, Numeral.Writes run.text number) ∨
      (pairOf run).rule = .invalid ∧ ¬ ∃ number, Numeral.Writes run.text number := by
  simp only [← Numeral.value?_eq_some_iff, pairOf]
  cases Numeral.value? run.text with
  | none => exact .inr ⟨rfl, by simp⟩
  | some number => exact .inl ⟨rfl, number, rfl⟩

/-- **A token is a run**, and an integer if the run is a numeral. -/
theorem parse_token (hword : word ≠ []) (hsolid : ∀ c ∈ word, isSolid c)
    (hend : ∀ c ∈ text.head?, isBlank c) :
    token.parse gap false ⟨offset, word ++ text⟩ =
      some ⟨[pairOf ⟨word, offset⟩], ⟨offset + byteLength word, text⟩⟩ := by
  rw [token, parse_silent, parse, parse_integer hword hsolid hend,
    parse_invalid hword hsolid hend]
  cases hvalue : Numeral.value? word with
  | none => simp [pairOf, hvalue, Lexeme.span]
  | some value => simp [pairOf, hvalue, Lexeme.span]

theorem parse_token_of_end (hend : ∀ c ∈ text.head?, isBlank c) :
    token.parse gap false ⟨offset, text⟩ = none := by
  have hinteger : (seq sign digits).parse gap true ⟨offset, text⟩ = none := by
    have hsign : sign.parse gap true ⟨offset, text⟩ = some ⟨[], ⟨offset, text⟩⟩ := by
      cases text with
      | nil => rfl
      | cons c rest =>
        have hc : ¬ (c = '+' ∨ c = '-') := by
          rintro (rfl | rfl)
          · exact absurd (hend '+' rfl) (by decide)
          · exact absurd (hend '-' rfl) (by decide)
        rw [parse_sign, if_neg hc]
    rw [parse_seq_of_eq_some hsign, skip, if_pos rfl, ← List.nil_append text,
      parse_digits (by simp) hend]
    rfl
  have hinvalid : (plus (seq (never whitespace) (one fun _ => true))).parse gap true
      ⟨offset, text⟩ = none := by
    have htake : ([] ++ text).takeWhile isSolid = [] :=
      takeWhile_append_of_head? (List.forall_mem_nil _) (not_isSolid_of_end hend)
    rw [takes_solid.parse_plus]
    exact if_pos htake
  rw [token, parse_silent, parse, integer, parse_atomic, hinteger, invalid, parse_atomic, hinvalid]
  rfl

theorem length_lt_of_parse_token {first : Taken TokenRule}
    (h : token.parse gap false ⟨offset, text⟩ = some first) :
    first.next.rest.length < text.length := by
  obtain ⟨runs, hruns⟩ : ∃ runs, MaximalRuns offset text runs :=
    ⟨_, maximalRuns_lexemesFrom offset text⟩
  cases hruns with
  | nil =>
    rw [parse_token_of_end (by simp)] at h
    cases h
  | blank hc _ =>
    rw [parse_token_of_end fun d hd => by cases hd; exact hc] at h
    cases h
  | run hword hsolid hend _ =>
    rw [parse_token hword hsolid hend] at h
    cases h
    rw [List.length_append]
    exact Nat.lt_add_of_pos_left (List.length_pos_of_ne_nil hword)

/-! ### All of the text -/

theorem past_of_head? (hend : ∀ c ∈ text.head?, ¬ isBlank c) :
    (⟨offset, text⟩ : Cursor).past isBlank = ⟨offset, text⟩ :=
  past_append (List.forall_mem_nil _) hend

theorem past_blank (hc : isBlank c) :
    (⟨offset, c :: text⟩ : Cursor).past isBlank =
      (⟨offset + c.utf8Size, text⟩ : Cursor).past isBlank := by
  simp [Cursor.past, hc, Nat.add_assoc]

theorem past_past (cursor : Cursor) :
    (cursor.past isBlank).past isBlank = cursor.past isBlank :=
  past_of_head? fun _ => not_of_mem_head?_dropWhile

theorem length_rest_past_le (cursor : Cursor) :
    (cursor.past isBlank).rest.length ≤ cursor.rest.length :=
  (List.dropWhile_sublist _).length_le

/-- One round of a repetition of tokens. -/
def nextToken (cursor : Cursor) : Option (Taken TokenRule) :=
  token.parse whitespace.gap false (skip whitespace.gap false cursor)

/-- **Behind a gap, the tokens are the runs**, and what is left behind them is a gap. -/
theorem many_token {runs : List Lexeme} (hruns : MaximalRuns offset text runs) (cursor : Cursor)
    (hcursor : cursor.past isBlank = (⟨offset, text⟩ : Cursor).past isBlank) :
    ∃ last : Cursor, many nextToken cursor = ⟨runs.map pairOf, last⟩ ∧
      last.past isBlank = ⟨offset + byteLength text, []⟩ := by
  induction hruns generalizing cursor with
  | nil =>
    refine ⟨cursor, many_of_eq_none ?_, hcursor⟩
    rw [nextToken, skip_whitespace, hcursor]
    exact parse_token_of_end (by simp)
  | @blank offset c text runs hc _ ih =>
    rw [past_blank hc] at hcursor
    obtain ⟨last, hmany, hlast⟩ := ih cursor hcursor
    exact ⟨last, hmany, by rw [hlast, byteLength_cons, Nat.add_assoc]⟩
  | @run offset word text runs hword hsolid hend _ ih =>
    have hhead : ∀ c ∈ (word ++ text).head?, ¬ isBlank c := by
      intro c hc
      rw [List.head?_append_of_ne_nil _ hword] at hc
      exact isSolid_iff.1 (hsolid c (List.mem_of_mem_head? hc))
    -- behind the gap, the round takes the run, and the rounds after it are those for what follows
    rw [past_of_head? hhead] at hcursor
    obtain ⟨last, hmany, hlast⟩ := ih ⟨offset + byteLength word, text⟩ rfl
    have hlt : text.length < cursor.rest.length := by
      have hle := length_rest_past_le cursor
      rw [hcursor, List.length_append] at hle
      have hpos := List.length_pos_of_ne_nil hword
      omega
    have hstep : nextToken cursor =
        some ⟨[pairOf ⟨word, offset⟩], ⟨offset + byteLength word, text⟩⟩ := by
      rw [nextToken, skip_whitespace, hcursor, parse_token hword hsolid hend]
    refine ⟨last, ?_, by rw [hlast, byteLength_append, Nat.add_assoc]⟩
    rw [many_of_eq_some hstep hlt, hmany]
    rfl

/-- **All texts are inputs.**  The pairs inside are those of the runs, and one for the end. -/
theorem parse_input {runs : List Lexeme} (hruns : MaximalRuns 0 text runs) :
    parseText whitespace input text =
      some ⟨[⟨.input, ⟨0, byteLength text⟩,
          runs.map pairOf ++ [⟨.endOfInput, .emptyAt (byteLength text), []⟩]⟩],
        ⟨byteLength text, []⟩⟩ := by
  -- a gap is skipped before the first token, and another one behind the last
  let first : Cursor := (⟨0, text⟩ : Cursor).past isBlank
  obtain ⟨last, hmany, hlast⟩ := many_token hruns first (past_past _)
  have hstar : (star token).parse whitespace.gap false first = some ⟨runs.map pairOf, last⟩ := by
    have hfirst : skip whitespace.gap false first = first := by
      rw [skip_whitespace]
      exact past_past _
    rw [parse_star_of_progress hfirst fun _ => length_lt_of_parse_token]
    exact congrArg some hmany
  have hstart : (start : ParsingExpr TokenRule).parse whitespace.gap false ⟨0, text⟩ =
      some ⟨[], ⟨0, text⟩⟩ := rfl
  rw [parseText, input, parse_normal, parse_seq_of_eq_some hstart, skip_whitespace,
    parse_seq_of_eq_some hstar, skip_whitespace, hlast, Nat.zero_add]
  rfl

/-! ### Reading the pairs -/

section Slice

variable {span : Span} {more : List Char}

theorem slice_append : span.slice offset (text ++ more) =
    span.slice offset text ++ span.slice (offset + byteLength text) more := by
  induction text generalizing offset with
  | nil => rfl
  | cons c rest ih =>
    simp only [List.cons_append, Span.slice, ih, byteLength_cons, Nat.add_assoc]
    split
    · rfl
    · rfl

theorem slice_eq_nil (h : span.stop ≤ offset ∨ offset + byteLength text ≤ span.start) :
    span.slice offset text = [] := by
  induction text generalizing offset with
  | nil => rfl
  | cons c rest ih =>
    have hpos := c.utf8Size_pos
    rw [byteLength_cons] at h
    rw [Span.slice, if_neg (by omega)]
    exact ih (by omega)

theorem slice_eq_self (hstart : span.start ≤ offset)
    (hstop : offset + byteLength text ≤ span.stop) : span.slice offset text = text := by
  induction text generalizing offset with
  | nil => rfl
  | cons c rest ih =>
    have hpos := c.utf8Size_pos
    rw [byteLength_cons] at hstop
    rw [Span.slice, if_pos (by omega), ih (by omega) (by omega)]

/-- **The bytes of a run hold just its characters**, and lie behind the start of the text. -/
theorem slice_run {runs : List Lexeme} (hruns : MaximalRuns offset text runs) :
    ∀ run ∈ runs, offset ≤ run.start ∧ run.span.slice offset text = run.text := by
  induction hruns with
  | nil => exact List.forall_mem_nil _
  | @blank offset c text runs _ _ ih =>
    intro run hrun
    obtain ⟨hstart, hslice⟩ := ih run hrun
    have hlt : offset < run.start :=
      Nat.lt_of_lt_of_le (Nat.lt_add_of_pos_right c.utf8Size_pos) hstart
    have hbefore : ¬ (run.span.start ≤ offset ∧ offset < run.span.stop) := fun h =>
      absurd h.1 (Nat.not_le_of_lt hlt)
    exact ⟨Nat.le_of_lt hlt, by rw [Span.slice, if_neg hbefore, hslice]⟩
  | @run offset word text runs _ _ _ _ ih =>
    refine List.forall_mem_cons.2 ⟨⟨Nat.le_refl _, ?_⟩, fun run hrun => ?_⟩
    · have hword : (⟨word, offset⟩ : Lexeme).span.slice offset word = word :=
        slice_eq_self (Nat.le_refl offset) (Nat.le_refl (offset + byteLength word))
      have htext : (⟨word, offset⟩ : Lexeme).span.slice (offset + byteLength word) text = [] :=
        slice_eq_nil (.inl (Nat.le_refl (offset + byteLength word)))
      rw [slice_append, hword, htext, List.append_nil]
    · obtain ⟨hstart, hslice⟩ := ih run hrun
      refine ⟨by omega, ?_⟩
      rw [slice_append, slice_eq_nil (.inr hstart), hslice, List.nil_append]

end Slice

/-- The words that the pairs of an input write, or the first pair that writes none. -/
def readPairs (text : List Char) : List (Pair TokenRule) → Except LoadError (List Token)
  | [] => return []
  | pair :: rest => do
    let matched := pair.span.slice 0 text
    match pair.rule with
    | .integer =>
      match Numeral.word? matched with
      | none => throw ⟨.invalidInteger matched, pair.span⟩
      | some value => return ⟨value, pair.span⟩ :: (← readPairs text rest)
    | .invalid => throw ⟨.invalidInteger matched, pair.span⟩
    | _ => readPairs text rest

/-- The tokens of a text as the grammar has them, if it is an input. -/
def tokenizeInput (text : List Char) : Option (Except LoadError (List Token)) :=
  (parseText whitespace input text).map fun taken =>
    match taken.pairs with
    | [] => .ok []
    | all :: _ => readPairs text all.inner

theorem readPairs_map_pairOf {runs : List Lexeme} {last : Pair TokenRule}
    (hslice : ∀ run ∈ runs, run.span.slice 0 text = run.text)
    (hlast : last.rule = .endOfInput) :
    readPairs text (runs.map pairOf ++ [last]) = runs.mapM Token.ofLexeme := by
  induction runs with
  | nil => simp [readPairs, hlast]
  | cons run runs ih =>
    obtain ⟨hrun, hruns⟩ := List.forall_mem_cons.1 hslice
    rw [List.mapM_cons, ← ih hruns, List.map_cons, List.cons_append, readPairs]
    have hmatched : (pairOf run).span.slice 0 text = run.text := hrun
    have hspan : (pairOf run).span = run.span := rfl
    rw [hmatched, hspan, Token.ofLexeme]
    cases hvalue : Numeral.value? run.text with
    | none =>
      have hword : Numeral.word? run.text = none := by rw [Numeral.word?, hvalue]; rfl
      have hrule : (pairOf run).rule = .invalid := by rw [pairOf, hvalue]; rfl
      rw [hrule, hword]
      rfl
    | some value =>
      have hrule : (pairOf run).rule = .integer := by rw [pairOf, hvalue]; rfl
      rw [hrule]
      cases Numeral.word? run.text with
      | none => rfl
      | some word => rfl

/-- **The grammar splits a text as it is split at its blanks.** -/
theorem tokenizeInput_eq (text : List Char) : tokenizeInput text = some (tokenize text) := by
  have hruns : MaximalRuns 0 text (lexemes text) := maximalRuns_lexemesFrom 0 text
  have hslice : ∀ run ∈ lexemes text, run.span.slice 0 text = run.text := fun run hrun =>
    (slice_run hruns run hrun).2
  rw [tokenizeInput, parse_input hruns, tokenize]
  exact congrArg some (readPairs_map_pairOf hslice rfl)

/-- The digits before the letters are no token of their own. -/
example : tokenizeInput "7 12abc -3".toList =
    some (.error ⟨.invalidInteger ['1', '2', 'a', 'b', 'c'], ⟨2, 7⟩⟩) := by
  cbv

/-- **Splitting by the grammar is splitting at blanks.**  All texts are inputs.  The pairs inside
are those of the maximal runs of characters other than blanks, in order and with their bytes; a run
is an integer if it is a numeral as a whole, and otherwise it is invalid.  Read pair by pair, they
give the tokens of the text.  Hence there is a token for each run with the integer that it writes,
or else the leftmost run that writes no word is reported, before anything else about the source. -/
theorem tokenize_by_grammar (source : String) :
    ∃ runs pairs,
      MaximalRuns 0 source.toList runs ∧
      parseText whitespace input source.toList =
        some ⟨[⟨.input, ⟨0, source.utf8ByteSize⟩,
            pairs ++ [⟨.endOfInput, .emptyAt source.utf8ByteSize, []⟩]⟩],
          ⟨source.utf8ByteSize, []⟩⟩ ∧
      List.Forall₂ (fun run pair =>
        (pair.rule = .integer ∧ (∃ number, Numeral.Writes run.text number) ∨
          pair.rule = .invalid ∧ ¬ ∃ number, Numeral.Writes run.text number) ∧
        pair.span = run.span ∧ pair.span.slice 0 source.toList = run.text ∧ pair.inner = [])
        runs pairs ∧
      tokenizeInput source.toList = some (tokenize source.toList) ∧
      ((∀ run ∈ runs, run.WritesWord) ∧
          (∃ tokens, tokenize source.toList = .ok tokens ∧
            List.Forall₂ (fun run t => Numeral.Writes run.text t.number ∧ t.span = run.span)
              runs tokens) ∨
        ∃ before run after, runs = before ++ run :: after ∧
          (∀ earlier ∈ before, earlier.WritesWord) ∧ ¬ run.WritesWord ∧
          tokenize source.toList = .error ⟨.invalidInteger run.text, run.span⟩ ∧
          load source = .error ⟨.invalidInteger run.text, run.span⟩) := by
  have hruns : MaximalRuns 0 source.toList (lexemes source.toList) :=
    maximalRuns_lexemesFrom 0 source.toList
  refine ⟨lexemes source.toList, (lexemes source.toList).map pairOf, hruns, ?_, ?_,
    tokenizeInput_eq source.toList, ?_⟩
  · rw [parse_input hruns, byteLength_toList]
  · rw [List.forall₂_map_right_iff, List.forall₂_same]
    intro run hrun
    exact ⟨rule_pairOf run, rfl, (slice_run hruns run hrun).2, rfl⟩
  · cases htokens : tokenize source.toList with
    | ok tokens =>
      obtain ⟨runs, hruns', hwrites⟩ := tokenize_eq_ok_iff.1 htokens
      obtain rfl : lexemes source.toList = runs := maximalRuns_iff.1 hruns'
      exact .inl ⟨writesWord_of_forall₂ hwrites, tokens, rfl, hwrites⟩
    | error e =>
      obtain ⟨before, run, after, hruns', hbefore, hrun, rfl⟩ := tokenize_eq_error_iff.1 htokens
      exact .inr ⟨before, run, after, maximalRuns_iff.1 hruns', hbefore, hrun, rfl,
        load_eq_of_tokenize_eq_error htokens⟩

end TokenGrammar

end ResidueMachine
