import ResidueMachine.Proofs.Loading
import ResidueMachine.Proofs.Ranges

/-!
# Where instructions are written

The ranges that are recorded for the instructions of loaded code tile the end of its source: a
header stands in front of them, each of them is just the writing of one instruction, and blanks
stand between and behind them.  The layout of the source may be any.

A range is known by the tokens that it starts and ends with (`Code.WrittenAt`), and these are known
by the numbers that come before them (`Code.numbersBefore`).

* `Code.WrittenAt.exists_part` : the characters in the range of an instruction write that
  instruction, and nothing else;
* `Code.WrittenAt.exists_gap`, `Code.WrittenAt.exists_header`, `Code.WrittenAt.exists_trailer` :
  what is between the ranges, in front of them and behind them;
* `LoadedCode.ReadFrom.writtenAt` : the ranges that are recorded are those of the instructions;
* `spans_tile_source` : the ranges of loaded code tile its source.
-/

namespace ResidueMachine

/-- The integers that code is written with before the instruction that `offset` others precede. -/
def Code.numbersBefore (c : Code) (offset : Nat) : List Int :=
  c.modulus.val.toInt :: (c.table.size : Int) :: (c.program.length : Int) ::
    (c.table.toList.map Int64.toInt ++ (c.program.take offset).flatMap Instruction.numbers)

/-- The range of an instruction in a text.  The tokens of the instruction come behind those of all
that is written before it, and the range reaches from its tag to its last operand. -/
inductive Code.WrittenAt (c : Code) (text : List Char) (offset : Nat) : Span → Prop
  /-- The tag, which may have no operands. -/
  | mk {i : Instruction} {seen operands rest : List Token} {tag : Token} :
    c.program[offset]? = some i → tokenize text = .ok (seen ++ (tag :: operands ++ rest)) →
      seen.map Token.number = c.numbersBefore offset →
      (tag :: operands).map Token.number = i.numbers →
      WrittenAt c text offset (tag.span.through (operands.getLastD tag).span)

/-- The ranges of the instructions tile the text behind the header. -/
structure LoadedCode.Tiles (loaded : LoadedCode) (text : List Char) : Prop where
  /-- There are as many ranges as instructions. -/
  length_eq : loaded.spans.length = loaded.code.program.length
  /-- A range starts with the tag of its instruction and ends with the last operand. -/
  written : ∀ (k : Nat) (span : Span), loaded.spans[k]? = some span →
    loaded.code.WrittenAt text k span
  /-- The tokens of the characters in a range decode to the instruction. -/
  decodes : ∀ (k : Nat) (span : Span), loaded.spans[k]? = some span →
    span.start < span.stop ∧
      ∃ part tag operands i, span.Covers text part ∧ tokenize part = .ok (tag :: operands) ∧
        Instruction.decode tag.value (operands.map Token.value) = .ok i ∧
        loaded.code.program[k]? = some i
  /-- Between a range and the next is at least one byte, and there are only blanks. -/
  gap : ∀ (k : Nat) (span next : Span), loaded.spans[k]? = some span →
    loaded.spans[k + 1]? = some next →
    span.stop < next.start ∧
      ∃ gap, Span.Covers ⟨span.stop, next.start⟩ text gap ∧ ∀ c ∈ gap, isBlank c
  /-- In front of the ranges are the modulus, the two counts and the words of the table. -/
  header : ∀ first ∈ loaded.spans.head?,
    ∃ front tokens, Span.Covers ⟨0, first.start⟩ text front ∧ tokenize front = .ok tokens ∧
      tokens.map Token.number = loaded.code.numbersBefore 0 ∧
      tokens.length = 3 + loaded.code.table.size
  /-- Behind the ranges are only blanks. -/
  trailer : ∀ last ∈ loaded.spans.getLast?,
    ∃ back, Span.Covers ⟨last.stop, byteLength text⟩ text back ∧ ∀ c ∈ back, isBlank c

/-! ### The tokens of an instruction -/

namespace Code

variable {c : Code}

theorem numbersBefore_succ {k : Nat} {i : Instruction} (h : c.program[k]? = some i) :
    c.numbersBefore (k + 1) = c.numbersBefore k ++ i.numbers := by
  simp only [numbersBefore, List.take_add_one, h, Option.toList_some, List.flatMap_append,
    List.flatMap_singleton, List.cons_append, List.append_assoc]

theorem numbersBefore_length (c : Code) : c.numbersBefore c.program.length = c.numbers := by
  rw [numbersBefore, List.take_length, numbers]

theorem length_numbersBefore_zero (c : Code) : (c.numbersBefore 0).length = 3 + c.table.size := by
  simp only [numbersBefore, List.take_zero, List.flatMap_nil, List.append_nil, List.length_cons,
    List.length_map, Table.length_toList]
  omega

end Code

theorem exists_eq_take_append {placed : List PlacedInstruction} {groups : List (List Token)}
    {k : Nat} {p : PlacedInstruction} (h : List.Forall₂ PlacedInstruction.ReadFrom placed groups)
    (hp : placed[k]? = some p) :
    ∃ group after, groups = groups.take k ++ group :: after ∧ p.ReadFrom group := by
  obtain ⟨hk, rfl⟩ := List.getElem?_eq_some_iff.1 hp
  have hdrop := List.forall₂_drop k h
  rw [List.drop_eq_getElem_cons hk, List.forall₂_cons_left_iff] at hdrop
  obtain ⟨group, after, hgroup, -, hafter⟩ := hdrop
  exact ⟨group, after, by rw [← hafter, List.take_append_drop], hgroup⟩

/-! ### The ranges of instructions -/

namespace Code.WrittenAt

variable {c : Code} {text : List Char} {k : Nat} {span next : Span}

/-- **A range holds the writing of its instruction**, and nothing else. -/
theorem exists_part (h : c.WrittenAt text k span) :
    span.start < span.stop ∧
      ∃ part tag operands i, span.Covers text part ∧ tokenize part = .ok (tag :: operands) ∧
        Instruction.decode tag.value (operands.map Token.value) = .ok i ∧
        c.program[k]? = some i := by
  obtain ⟨hi, htokens, -, hnumbers⟩ := h
  obtain ⟨part, hne, hcovers, hpart⟩ := (tokenize_eq_ok_iff_tokensFrom.1 htokens).exists_part
  obtain ⟨tokens, hread, hnumbers'⟩ := hpart.exists_tokenize
  rw [hnumbers] at hnumbers'
  -- the tokens of the part stand for the instruction, so that they are read as it is
  obtain ⟨p, hp, rfl⟩ := exists_readFrom_instruction hnumbers'
  obtain ⟨htag, hoperands⟩ := hp
  exact ⟨hcovers.start_lt_stop hne, part, _, _, _, hcovers, hread,
    Instruction.decode_eq_ok_iff.2 ⟨htag, hoperands.symm⟩, hi⟩

theorem exists_gap (h : c.WrittenAt text k span) (hnext : c.WrittenAt text (k + 1) next) :
    span.stop < next.start ∧
      ∃ gap, Span.Covers ⟨span.stop, next.start⟩ text gap ∧ ∀ d ∈ gap, isBlank d := by
  obtain @⟨i, seen, operands, rest, tag, hi, htokens, hseen, hnumbers⟩ := h
  obtain @⟨_, seen', operands', rest', tag', -, htokens', hseen', -⟩ := hnext
  have hboth : seen ++ tag :: operands ++ rest = seen' ++ (tag' :: operands' ++ rest') := by
    rw [List.append_assoc]
    exact Except.ok.inj (htokens.symm.trans htokens')
  have hsame : (seen ++ tag :: operands).map Token.number = seen'.map Token.number := by
    rw [hseen', numbersBefore_succ hi, List.map_append, hseen, hnumbers]
  have hlength : (seen ++ tag :: operands).length = seen'.length := by
    simpa using congrArg List.length hsame
  obtain ⟨rfl, -⟩ := List.append_inj hboth hlength
  obtain ⟨gap, hne, hblank, hcovers⟩ := (tokenize_eq_ok_iff_tokensFrom.1 htokens').exists_gap
    (getLastD_mem_getLast? seen tag operands) rfl
  exact ⟨hcovers.start_lt_stop hne, gap, hcovers, hblank⟩

theorem exists_header (h : c.WrittenAt text 0 span) :
    ∃ front tokens, Span.Covers ⟨0, span.start⟩ text front ∧ tokenize front = .ok tokens ∧
      tokens.map Token.number = c.numbersBefore 0 ∧ tokens.length = 3 + c.table.size := by
  obtain @⟨_, seen, operands, rest, tag, -, htokens, hseen, -⟩ := h
  obtain ⟨front, hcovers, hfront⟩ :=
    TokensFrom.exists_front (tokenize_eq_ok_iff_tokensFrom.1 htokens)
  refine ⟨front, seen, hcovers, tokenize_eq_ok_iff_tokensFrom.2 hfront, hseen, ?_⟩
  rw [← length_numbersBefore_zero, ← hseen, List.length_map]

theorem exists_trailer {tokens : List Token} (h : c.WrittenAt text k span)
    (hk : k + 1 = c.program.length) (hread : tokenize text = .ok tokens)
    (hall : tokens.map Token.number = c.numbers) :
    ∃ back, Span.Covers ⟨span.stop, byteLength text⟩ text back ∧ ∀ d ∈ back, isBlank d := by
  obtain @⟨i, seen, operands, rest, tag, hi, htokens, hseen, hnumbers⟩ := h
  have hrest : rest = [] := by
    rw [← Except.ok.inj (htokens.symm.trans hread), ← numbersBefore_length, ← hk,
      numbersBefore_succ hi, List.map_append, List.map_append, hseen, hnumbers,
      ← List.append_assoc, List.append_right_eq_self] at hall
    exact List.map_eq_nil_iff.1 hall
  subst hrest
  rw [List.append_nil] at htokens
  obtain ⟨front, back, htext, hstop, hblank⟩ :=
    (tokenize_eq_ok_iff_tokensFrom.1 htokens).exists_back (getLastD_mem_getLast? seen tag operands)
  refine ⟨back, ⟨front, [], by rw [htext, List.append_nil], hstop, ?_⟩, hblank⟩
  rw [htext, byteLength_append]

end Code.WrittenAt

/-! ### Loaded code -/

namespace LoadedCode

variable {loaded : LoadedCode} {tokens : List Token} {text : List Char} {k : Nat} {span : Span}

theorem ReadFrom.length_spans (h : loaded.ReadFrom tokens) :
    loaded.spans.length = loaded.code.program.length := by
  obtain ⟨hpos, hsize, hlength, hread⟩ := h
  rw [List.length_map, List.length_map]

/-- **Recorded ranges are those of the instructions.** -/
theorem ReadFrom.writtenAt (h : loaded.ReadFrom tokens) (htokens : tokenize text = .ok tokens)
    (hspan : loaded.spans[k]? = some span) : loaded.code.WrittenAt text k span := by
  obtain ⟨hpos, hsize, hlength, hread⟩ := h
  rename_i modulus size length words placed groups
  rw [List.getElem?_map, Option.map_eq_some_iff] at hspan
  obtain ⟨p, hp, rfl⟩ := hspan
  obtain ⟨group, after, hgroups, hgroup⟩ := exists_eq_take_append hread hp
  have hbefore := map_number_flatten (List.forall₂_take k hread)
  have hnumbers := hgroup.map_number
  have hi : (placed.map (·.instruction))[k]? = some p.instruction := by
    rw [List.getElem?_map, hp]
    rfl
  -- the tokens of the instruction, behind all those before them
  have hsplit : modulus :: size :: length :: (words ++ groups.flatten) =
      modulus :: size :: length :: (words ++ (groups.take k).flatten) ++
        (group ++ after.flatten) := by
    have hflatten := congrArg List.flatten hgroups
    rw [List.flatten_append, List.flatten_cons] at hflatten
    rw [hflatten]
    simp only [List.cons_append, List.append_assoc]
  rw [hsplit] at htokens
  obtain ⟨htag, hoperands⟩ := hgroup
  refine .mk hi htokens ?_ hnumbers
  simp only [Code.numbersBefore, Table.toList, Table.size, List.map_cons, List.map_append,
    map_number_eq_map_toInt words, hbefore, List.size_toArray, List.length_map, Token.number, hsize,
    hlength, List.map_take]

/-- **The ranges of loaded code tile its source.** -/
theorem ReadFrom.tiles (h : loaded.ReadFrom tokens) (htokens : tokenize text = .ok tokens) :
    loaded.Tiles text where
  length_eq := h.length_spans
  written k span hspan := h.writtenAt htokens hspan
  decodes k span hspan := (h.writtenAt htokens hspan).exists_part
  gap k span next hspan hnext :=
    (h.writtenAt htokens hspan).exists_gap (h.writtenAt htokens hnext)
  header := by
    intro first hfirst
    rw [List.head?_eq_getElem?] at hfirst
    exact (h.writtenAt htokens hfirst).exists_header
  trailer := by
    intro last hlast
    rw [List.getLast?_eq_getElem?] at hlast
    obtain ⟨hpos, -⟩ := List.getElem?_eq_some_iff.1 hlast
    refine (h.writtenAt htokens hlast).exists_trailer ?_ htokens h.map_number
    rw [← h.length_spans]
    omega

theorem instructionSpan?_of_pos {p : Nat} (h : 1 ≤ p) :
    loaded.instructionSpan? p = loaded.spans[p - 1]? := by
  obtain ⟨offset, rfl⟩ := Nat.exists_eq_add_of_le' h
  rfl

theorem Tiles.isSome_instructionSpan?_iff (h : loaded.Tiles text) {p : Nat} :
    (loaded.instructionSpan? p).isSome ↔ 1 ≤ p ∧ p ≤ loaded.code.program.length := by
  cases p with
  | zero => simp [instructionSpan?]
  | succ offset =>
    rw [instructionSpan?, isSome_getElem?, h.length_eq]
    omega

end LoadedCode

/-- **Ranges of instructions tile the source.**  Loaded code has a range for each instruction,
which starts with its tag, ends with its last operand and holds the characters of these and of
nothing else; only blanks, and at least one byte of them, are between two ranges; the header is in
front of the first and nothing but blanks behind the last.  The range asked for by a number is the
one of the instruction with this number, and there is none for numbers of no instruction. -/
theorem spans_tile_source (source : String) (loaded : LoadedCode)
    (h : load source = .ok loaded) :
    loaded.Tiles source.toList ∧
      ∀ p, ((loaded.instructionSpan? p).isSome ↔ 1 ≤ p ∧ p ≤ loaded.code.program.length) ∧
        (1 ≤ p → loaded.instructionSpan? p = loaded.spans[p - 1]?) := by
  obtain ⟨tokens, htokens, hread⟩ := load_eq_ok_iff.1 h
  have htiles : loaded.Tiles source.toList := hread.tiles htokens
  exact ⟨htiles, fun p =>
    ⟨htiles.isSome_instructionSpan?_iff, LoadedCode.instructionSpan?_of_pos⟩⟩

/-- Numerals with signs and leading zeros, an instruction without operands, and a blank at the
end. -/
theorem spans_tile_source_signed :
    let source := "+7 1 2\n-5 1 +01\n2 "
    let loaded : LoadedCode :=
      ⟨⟨⟨7, by decide⟩, ⟨#[-5]⟩, [.load 1, .swap]⟩, [⟨10, 15⟩, ⟨16, 17⟩]⟩
    load source = .ok loaded ∧ loaded.Tiles source.toList ∧
      loaded.instructionSpan? 2 = some ⟨16, 17⟩ := by
  intro source loaded
  have hload : load source = .ok loaded := by decide +kernel
  obtain ⟨htiles, hspans⟩ := spans_tile_source source loaded hload
  exact ⟨hload, htiles, (hspans 2).2 (by decide)⟩

end ResidueMachine
