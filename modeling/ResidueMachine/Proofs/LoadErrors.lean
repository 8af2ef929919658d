import ResidueMachine.Proofs.Completion

/-!
# Where loading stops

The reader takes tokens as long as they can be the beginning of code.  When it fails, it has come
to a place where an item is due and either no token is left or the next one is refused
(`Reading.Stops`), or else it has read code to its end and tokens are left.

* `Reading.words_eq_error`, `Reading.operands_eq_error`, `Reading.instruction_eq_error`,
  `Reading.instructions_eq_error` : where each part of the reader stops;
* `Reading.code_eq_error` : the reader as a whole;
* `Item.describe_injective` : an item in words is no other item in words;
* `load_error_of_tokens` : what loading gives, from the numbers of a source alone.
-/

namespace ResidueMachine

namespace Reading

open Reader

/-- Reading stops where an item is due: no token is left, or the next one is refused. -/
inductive Stops (size : Nat) (item : Item) : List Token → LoadError → Prop
  /-- The source ends where it has `size` bytes. -/
  | ended : Stops size item [] ⟨.unexpectedEnd item, .emptyAt size⟩
  /-- The next token is refused. -/
  | refused {t : Token} {rest : List Token} {fault : LoadFault} :
    item.Refuses t.value fault → Stops size item (t :: rest) ⟨fault, t.span⟩

variable {size : Nat} {tokens : List Token} {e : LoadError}

/-! ### The parts of the reader -/

theorem bind_eq_error_iff {α β : Type} {x : Reading α} {f : α → Reading β} :
    (x >>= f) tokens = .error e ↔
      x tokens = .error e ∨ ∃ a rest, x tokens = .ok (a, rest) ∧ f a rest = .error e := by
  change (x tokens).bind (fun p => f p.1 p.2) = _ ↔ _
  rw [Except.bind_eq_error_iff, Prod.exists]

theorem pure_ne_error {α : Type} {a : α} : (pure a : Reading α) tokens ≠ .error e := by
  intro h
  cases h

theorem token_eq_error {item : Item} (h : token Reading size item tokens = .error e) :
    Stops size item tokens e := by
  cases tokens with
  | nil =>
    cases h
    exact .ended
  | cons t rest => cases h

theorem modulus_eq_error (h : modulus Reading size tokens = .error e) :
    Stops size .modulus tokens e := by
  rcases bind_eq_error_iff.1 h with h | ⟨t, rest, ht, h⟩
  · exact token_eq_error h
  · rw [token_eq_ok_iff.1 ht]
    cases hm : Modulus.ofWord? t.value with
    | none =>
      rw [hm] at h
      cases h
      exact .refused (.modulus (Modulus.ofWord?_eq_none_iff.1 hm))
    | some m =>
      rw [hm] at h
      cases h

theorem count_eq_error {item : Item}
    (hitem : ∀ value : Int64, value.toInt < 0 → item.Refuses value (.negativeCount item value))
    (h : count Reading size item tokens = .error e) : Stops size item tokens e := by
  rcases bind_eq_error_iff.1 h with h | ⟨t, rest, ht, h⟩
  · exact token_eq_error h
  · rw [token_eq_ok_iff.1 ht]
    split at h
    · rename_i hnegative
      cases h
      exact .refused (hitem t.value hnegative)
    · cases h

theorem words_eq_error {count : Nat} {found : Array Int64}
    (h : words Reading size count found tokens = .error e) :
    ∃ read rest, tokens = read ++ rest ∧ read.length < count ∧
      Stops size (.tableWord (found.size + read.length + 1)) rest e := by
  induction count generalizing found tokens with
  | zero => exact absurd h pure_ne_error
  | succ count ih =>
    rw [words_succ] at h
    rcases bind_eq_error_iff.1 h with h | ⟨t, rest, ht, h⟩
    · exact ⟨[], tokens, rfl, Nat.succ_pos count, token_eq_error h⟩
    · obtain ⟨read, rest, rfl, hread, hstops⟩ := ih h
      refine ⟨t :: read, rest, token_eq_ok_iff.1 ht, Nat.succ_lt_succ hread, ?_⟩
      rwa [Array.size_push, Nat.add_right_comm _ 1, Nat.add_assoc _ _ 1] at hstops

theorem operands_eq_error {position count number : Nat}
    (h : operands Reading size position count number tokens = .error e) :
    ∃ read rest, tokens = read ++ rest ∧ read.length < count ∧
      Stops size (.operand (number + read.length) position) rest e := by
  induction count generalizing number tokens with
  | zero => exact absurd h pure_ne_error
  | succ count ih =>
    rcases bind_eq_error_iff.1 h with h | ⟨t, rest, ht, h⟩
    · exact ⟨[], tokens, rfl, Nat.succ_pos count, token_eq_error h⟩
    · rcases bind_eq_error_iff.1 h with h | ⟨others, rest, -, h⟩
      · obtain ⟨read, rest, rfl, hread, hstops⟩ := ih h
        refine ⟨t :: read, rest, token_eq_ok_iff.1 ht, Nat.succ_lt_succ hread, ?_⟩
        rwa [Nat.add_right_comm, Nat.add_assoc] at hstops
      · exact absurd h pure_ne_error

/-- Reading an instruction stops at its tag, or at one of its operands.  Operands of the right
number always decode. -/
theorem instruction_eq_error {position : Nat}
    (h : instruction Reading size position tokens = .error e) :
    Stops size (.tag position) tokens e ∨
      ∃ tag op read rest, tokens = tag :: (read ++ rest) ∧ tag.value.toInt = Opcode.tag op ∧
        read.length < op.arity ∧ Stops size (.operand (read.length + 1) position) rest e := by
  rcases bind_eq_error_iff.1 h with h | ⟨tag, rest, htag, h⟩
  · exact .inl (token_eq_error h)
  rw [token_eq_ok_iff.1 htag]
  cases hop : Opcode.ofTag? tag.value with
  | none =>
    rw [Instruction.arity?, hop] at h
    cases h
    refine .inl (.refused (.tag fun op hvalue => ?_))
    rw [Opcode.ofTag?_eq_some_iff.2 hvalue] at hop
    cases hop
  | some op =>
    rw [Instruction.arity?, hop] at h
    rcases bind_eq_error_iff.1 h with h | ⟨operands, rest, hoperands, hdecode⟩
    · obtain ⟨read, rest, rfl, hread, hstops⟩ := operands_eq_error h
      rw [Nat.add_comm] at hstops
      exact .inr ⟨tag, op, read, rest, rfl, Opcode.ofTag?_eq_some_iff.1 hop, hread, hstops⟩
    · obtain ⟨-, hlength⟩ := operands_eq_ok_iff.1 hoperands
      obtain ⟨i, rfl, hi⟩ := Instruction.exists_of_opcode op
        (operands.map Token.value) (by rw [List.length_map, hlength])
      rw [Instruction.decode_eq_ok_iff.2 ⟨Opcode.ofTag?_eq_some_iff.1 hop, hi⟩] at hdecode
      exact absurd hdecode pure_ne_error

theorem instructions_eq_error {count : Nat} {found : Array PlacedInstruction}
    (h : instructions Reading size count found tokens = .error e) :
    ∃ placed groups rest, List.Forall₂ PlacedInstruction.ReadFrom placed groups ∧
      tokens = groups.flatten ++ rest ∧ placed.length < count ∧
      instruction Reading size (found.size + placed.length + 1) rest = .error e := by
  induction count generalizing found tokens with
  | zero => exact absurd h pure_ne_error
  | succ count ih =>
    rw [instructions_succ] at h
    rcases bind_eq_error_iff.1 h with h | ⟨p, rest, hp, hothers⟩
    · exact ⟨[], [], tokens, .nil, rfl, Nat.succ_pos count, h⟩
    · obtain ⟨group, rfl, hgroup⟩ := instruction_eq_ok_iff.1 hp
      obtain ⟨placed, groups, rest, hread, rfl, hplaced, hstops⟩ := ih hothers
      refine ⟨p :: placed, group :: groups, rest, .cons hgroup hread, ?_,
        Nat.succ_lt_succ hplaced, ?_⟩
      · rw [List.flatten_cons, List.append_assoc]
      · rwa [Array.size_push, Nat.add_right_comm _ 1, Nat.add_assoc _ _ 1] at hstops

theorem finish_eq_error (h : finish Reading size tokens = .error e) :
    ∃ t rest, tokens = t :: rest ∧ e = ⟨.trailingInput, ⟨t.span.start, size⟩⟩ := by
  cases tokens with
  | nil => cases h
  | cons t rest =>
    cases h
    exact ⟨t, rest, rfl, rfl⟩

/-! ### The reader as a whole -/

/-- Reading stops behind the tokens `seen`, where an item is due. -/
def StopsBehind (size : Nat) (tokens : List Token) (e : LoadError) : Prop :=
  ∃ seen rest item, tokens = seen ++ rest ∧ IsDue item (seen.map Token.number) ∧
    Stops size item rest e

section Code

variable {m : Modulus} {n l : Nat} {head : List Token}

theorem stopsBehind_of_words_eq_error
    (hhead : head.map Token.number = [m.val.toInt, (n : Int), (l : Int)])
    (hn : Numeral.FitsWord n) (hl : Numeral.FitsWord l)
    (h : words Reading size n #[] tokens = .error e) : StopsBehind size (head ++ tokens) e := by
  obtain ⟨read, rest, rfl, hread, hstops⟩ := words_eq_error h
  rw [List.size_toArray, List.length_nil, Nat.zero_add] at hstops
  refine ⟨head ++ read, rest, .tableWord (read.length + 1), (List.append_assoc _ _ _).symm, ?_,
    hstops⟩
  have hread : (read.map Token.value).length < n := by rwa [List.length_map]
  have hdue := isDue_tableWord m hn hl hread
  rw [List.length_map] at hdue
  rwa [List.map_append, hhead, map_number_eq_map_toInt]

theorem stopsBehind_of_instructions_eq_error {words : List Token}
    (hhead : head.map Token.number = [m.val.toInt, (n : Int), (l : Int)])
    (hn : Numeral.FitsWord n) (hl : Numeral.FitsWord l) (hwords : words.length = n)
    (h : instructions Reading size l #[] tokens = .error e) :
    StopsBehind size (head ++ (words ++ tokens)) e := by
  subst hwords
  obtain ⟨placed, groups, rest, hplacedRead, rfl, hplaced, h⟩ := instructions_eq_error h
  rw [List.size_toArray, List.length_nil, Nat.zero_add] at h
  have hwords : words.length = (words.map Token.value).length := (List.length_map _).symm
  have hbefore : placed.length = (placed.map (·.instruction)).length := (List.length_map _).symm
  rw [hwords] at hn hhead
  rw [hbefore] at hplaced h
  rcases instruction_eq_error h with hstops | ⟨tag, op, read, rest, rfl, htag, hoperands, hstops⟩
  · refine ⟨head ++ (words ++ groups.flatten), rest, _, by simp, ?_, hstops⟩
    have hdue := isDue_tag m hn hl hplaced
    rwa [List.map_append, hhead, List.map_append, map_number_flatten hplacedRead,
      map_number_eq_map_toInt]
  · have hread : read.length = (read.map Token.value).length := (List.length_map _).symm
    rw [hread] at hoperands hstops
    refine ⟨head ++ (words ++ (groups.flatten ++ tag :: read)), rest, _, by simp, ?_, hstops⟩
    have hdue := isDue_operand m hn hl hplaced hoperands
    rwa [List.map_append, hhead, List.map_append, List.map_append, map_number_flatten hplacedRead,
      List.map_cons, Token.number, htag, map_number_eq_map_toInt, map_number_eq_map_toInt]

/-- **Reading fails where an item is due, or after all of the code.** -/
theorem code_eq_error (h : code Reading size tokens = .error e) :
    StopsBehind size tokens e ∨
      ∃ read t rest, ∃ loaded : LoadedCode, tokens = read ++ t :: rest ∧ loaded.ReadFrom read ∧
        e = ⟨.trailingInput, ⟨t.span.start, size⟩⟩ := by
  rcases bind_eq_error_iff.1 h with h | ⟨m, afterModulus, hm, hcounts⟩
  · exact .inl ⟨[], _, .modulus, rfl, isDue_modulus, modulus_eq_error h⟩
  obtain ⟨modulus, rfl, hmodulus⟩ := modulus_eq_ok_iff.1 hm
  rcases bind_eq_error_iff.1 hcounts with h | ⟨n, afterSize, hn, hcount⟩
  · refine .inl ⟨[modulus], _, .tableSize, rfl, ?_, count_eq_error (fun _ => .tableSize) h⟩
    rw [List.map_singleton, Token.number, hmodulus]
    exact isDue_tableSize m
  obtain ⟨tableSize, rfl, htableSize⟩ := count_eq_ok_iff.1 hn
  have hnfits := htableSize ▸ fitsWord_toInt tableSize.value
  rcases bind_eq_error_iff.1 hcount with h | ⟨l, afterCount, hl, hbody⟩
  · refine .inl ⟨[modulus, tableSize], _, .instructionCount, rfl, ?_,
      count_eq_error (fun _ => .instructionCount) h⟩
    rw [List.map_cons, List.map_singleton, Token.number, Token.number, hmodulus, htableSize]
    exact isDue_instructionCount m hnfits
  obtain ⟨length, rfl, hlength⟩ := count_eq_ok_iff.1 hl
  have hlfits := hlength ▸ fitsWord_toInt length.value
  have hhead : [modulus, tableSize, length].map Token.number =
      [m.val.toInt, (n : Int), (l : Int)] := by
    simp only [List.map_cons, List.map_nil, Token.number, hmodulus, htableSize, hlength]
  rw [allocate_bind] at hbody
  rcases bind_eq_error_iff.1 hbody with h | ⟨table, afterTable, htable, hprogram⟩
  · exact .inl (stopsBehind_of_words_eq_error hhead hnfits hlfits h)
  obtain ⟨words, rfl, hwords, -⟩ := words_eq_ok_iff.1 htable
  rw [allocate_bind] at hprogram
  rcases bind_eq_error_iff.1 hprogram with h | ⟨all, afterProgram, hall, hend⟩
  · exact .inl (stopsBehind_of_instructions_eq_error hhead hnfits hlfits hwords h)
  obtain ⟨placed, groups, hplaced, hread, rfl, -⟩ := instructions_eq_ok_iff.1 hall
  rcases bind_eq_error_iff.1 hend with h | ⟨u, nothing, -, hreturn⟩
  · obtain ⟨t, rest, rfl, he⟩ := finish_eq_error h
    exact .inr ⟨modulus :: tableSize :: length :: (words ++ groups.flatten), t, rest, _, by simp,
      .mk (hmodulus ▸ m.pos) (by rw [htableSize, hwords]) (by rw [hlength, hplaced]) hread, he⟩
  · exact absurd hreturn pure_ne_error

end Code

end Reading

/-! ### Items in words -/

theorem repr_injective : Function.Injective Nat.repr := by
  intro n k h
  have htoList := congrArg String.toList h
  rw [Nat.toList_repr, Nat.toList_repr] at htoList
  rw [← Nat.ofDigitChars_ten_toDigits (n := n), htoList, Nat.ofDigitChars_ten_toDigits]

theorem repr_append_inj {n n' : Nat} {text text' : String}
    (htext : ∀ c ∈ text.toList.head?, ¬ c.isDigit) (htext' : ∀ c ∈ text'.toList.head?, ¬ c.isDigit)
    (h : n.repr ++ text = n'.repr ++ text') : n = n' ∧ text = text' := by
  have hdigits (n : Nat) {text : String} (htext : ∀ c ∈ text.toList.head?, ¬ c.isDigit) :
      (n.repr ++ text).toList.takeWhile Char.isDigit = n.repr.toList := by
    have hn := (Numeral.digits_repr n).isDigit_of_mem
    rw [String.toList_append, takeWhile_append_of_head? hn htext]
  have hrepr : n.repr = n'.repr := by
    rw [← String.toList_inj, ← hdigits n htext, h, hdigits n' htext']
  rw [hrepr, String.append_right_inj] at h
  exact ⟨repr_injective hrepr, h⟩

namespace Item

/-- How an item in words begins.  This tells items of different kinds apart. -/
def opening : Item → String
  | modulus => "the mod"
  | tableSize => "the tab"
  | instructionCount => "the ins"
  | tableWord _ => "table v"
  | tag _ => "the tag"
  | operand _ _ => "operand"

theorem describe_tableWord (index : Nat) :
    (tableWord index).describe = "table value P[" ++ index.repr ++ "]" := rfl

theorem describe_tag (position : Nat) :
    (tag position).describe = "the tag of instruction " ++ position.repr := rfl

theorem describe_operand (number position : Nat) :
    (operand number position).describe =
      "operand " ++ (number.repr ++ (" of instruction " ++ position.repr)) := by
  rw [← String.append_assoc, ← String.append_assoc]
  rfl

theorem take_describe (item : Item) :
    item.describe.toList.take 7 = item.opening.toList := by
  have hfixed (text rest : String) (h : 7 ≤ text.toList.length) :
      (text ++ rest).toList.take 7 = text.toList.take 7 := by
    rw [String.toList_append, List.take_append_of_le_length h]
  cases item with
  | modulus => decide
  | tableSize => decide
  | instructionCount => decide
  | tableWord index =>
    rw [describe_tableWord, String.append_assoc, hfixed _ _ (by decide), opening]
    decide
  | tag position =>
    rw [describe_tag, hfixed _ _ (by decide), opening]
    decide
  | operand number position =>
    rw [describe_operand, hfixed _ _ (by decide), opening]
    decide

theorem describe_injective : Function.Injective Item.describe := by
  intro item item' h
  have hopening : item.opening = item'.opening := by
    rw [← String.toList_inj, ← take_describe, h, take_describe]
  cases item with
  | modulus =>
    cases item' with
    | modulus => rfl
    | _ => simp [opening] at hopening
  | tableSize =>
    cases item' with
    | tableSize => rfl
    | _ => simp [opening] at hopening
  | instructionCount =>
    cases item' with
    | instructionCount => rfl
    | _ => simp [opening] at hopening
  | tableWord index =>
    cases item' with
    | tableWord index' =>
      rw [describe_tableWord, describe_tableWord, String.append_left_inj,
        String.append_right_inj] at h
      rw [repr_injective h]
    | _ => simp [opening] at hopening
  | tag position =>
    cases item' with
    | tag position' =>
      rw [describe_tag, describe_tag, String.append_right_inj] at h
      rw [repr_injective h]
    | _ => simp [opening] at hopening
  | operand number position =>
    cases item' with
    | operand number' position' =>
      rw [describe_operand, describe_operand, String.append_right_inj] at h
      obtain ⟨hnumber, hrest⟩ := repr_append_inj (by simp) (by simp) h
      rw [String.append_right_inj] at hrest
      rw [hnumber, repr_injective hrest]
    | _ => simp [opening] at hopening

end Item

/-! ### Sources -/

theorem Reading.Stops.ne_operandCount {size : Nat} {item : Item} {tokens : List Token}
    {op : Opcode} {found : Nat} {span : Span} :
    ¬ Stops size item tokens ⟨.instruction (.operandCount op found), span⟩ := by
  intro h
  cases h with
  | refused hrefuses => cases hrefuses

theorem load_ne_operandCount {source : String} {op : Opcode} {found : Nat} {span : Span} :
    load source ≠ .error ⟨.instruction (.operandCount op found), span⟩ := by
  intro h
  cases htokens : tokenize source.toList with
  | error e =>
    rw [load_eq_of_tokenize_eq_error htokens] at h
    cases h
    obtain ⟨_, _, _, -, -, -, he⟩ := tokenize_eq_error_iff.1 htokens
    cases he
  | ok tokens =>
    rw [load_eq_of_tokenize htokens, Except.map_eq_error_iff] at h
    rcases Reading.code_eq_error h with ⟨_, _, _, -, -, hstops⟩ | ⟨_, _, _, _, -, -, he⟩
    · exact hstops.ne_operandCount
    · cases he

theorem LoadedCode.ReadFrom.isComplete {loaded : LoadedCode} {tokens : List Token}
    (h : loaded.ReadFrom tokens) : IsComplete (tokens.map Token.number) := by
  refine ⟨fun number hnumber => ?_, loaded.code, h.map_number.symm⟩
  obtain ⟨t, -, rfl⟩ := List.mem_map.1 hnumber
  exact fitsWord_toInt t.value

/-- **Loading fails at the first token that cannot be continued.**  No complete row of numbers is a
proper prefix of another.  A source all of whose runs are numbers is in just one of four cases.
Its numbers are complete, and it is loaded; or they are unfinished, and the item is missed that all
completions go on with; or they go on behind a complete row, and the token after that is reported;
or else the token is reported with which the numbers can first no longer be completed.  A wrong
number of operands is never reported, and the text for a missed item tells which one it is. -/
theorem load_error_of_tokens (source : String) :
    (∀ row full, IsComplete row → IsComplete full → row <+: full → row = full) ∧
      (∀ tokens, tokenize source.toList = .ok tokens →
        let row := tokens.map Token.number
        (IsComplete row ∧ ¬ IsUnfinished row ∧ ¬ HasSurplus row ∧
            ∃ loaded, load source = .ok loaded ∧ loaded.code.numbers = row) ∨
          (¬ IsComplete row ∧ IsUnfinished row ∧ ¬ HasSurplus row ∧
            ∃ item, (∀ c : Code, row <+: c.numbers → c.items[row.length]? = some item) ∧
              load source = .error ⟨.unexpectedEnd item, .emptyAt source.utf8ByteSize⟩) ∨
          (¬ IsComplete row ∧ ¬ IsUnfinished row ∧ HasSurplus row ∧
            ∃ k t, IsComplete (row.take k) ∧ tokens[k]? = some t ∧
              load source = .error ⟨.trailingInput, ⟨t.span.start, source.utf8ByteSize⟩⟩) ∨
          (¬ IsComplete row ∧ ¬ IsUnfinished row ∧ ¬ HasSurplus row ∧
            ∃ j t item fault, IsLeast {j | ¬ IsExtensible (row.take (j + 1))} j ∧
              tokens[j]? = some t ∧
              (∀ c : Code, row.take j <+: c.numbers → c.items[j]? = some item) ∧
              item.Refuses t.value fault ∧ load source = .error ⟨fault, t.span⟩)) ∧
      (∀ op found span, load source ≠ .error ⟨.instruction (.operandCount op found), span⟩) ∧
      Function.Injective Item.describe := by
  refine ⟨fun row full hrow hfull => hrow.eq_of_prefix hfull, fun tokens htokens => ?_,
    fun op found span => load_ne_operandCount, Item.describe_injective⟩
  intro row
  rw [load_eq_of_tokenize htokens]
  cases hcode : Reader.code Reading source.utf8ByteSize tokens with
  | ok read =>
    obtain ⟨loaded, rest⟩ := read
    have hread := (Reading.code_eq_ok_iff.1 hcode).1
    have hcomplete := hread.isComplete
    exact .inl ⟨hcomplete, hcomplete.not_isUnfinished, hcomplete.not_hasSurplus, loaded, rfl,
      hread.map_number.symm⟩
  | error e =>
    obtain ⟨seen, rest, item, rfl, hdue, hstops⟩ | ⟨read, t, rest, loaded, rfl, hread, rfl⟩ :=
      Reading.code_eq_error hcode
    · cases hstops with
      | ended =>
        -- what has been read is all of the row, and something is due behind it
        have hrow : row = seen.map Token.number := by
          rw [← List.append_nil (seen.map _), ← List.map_nil, ← List.map_append]
        rw [hrow]
        exact .inr (.inl ⟨hdue.not_isComplete, hdue.isUnfinished,
          fun hsurplus => hsurplus.not_isExtensible hdue.isExtensible, item, hdue.getElem?_items,
          rfl⟩)
      | @refused t rest fault hrefuses =>
        have hrow : row = seen.map Token.number ++ t.number :: rest.map Token.number := by
          rw [← List.map_cons, ← List.map_append]
        have hlength : (seen.map Token.number).length = seen.length := List.length_map _
        have hbroken := hdue.broken_of_refuses hrefuses (rest.map Token.number)
        rw [← Token.number, ← hrow, hlength] at hbroken
        obtain ⟨hcomplete, hunfinished, hsurplus, hleast⟩ := hbroken
        refine .inr (.inr (.inr ⟨hcomplete, hunfinished, hsurplus, seen.length, t, item, fault,
          hleast, by simp, ?_, hrefuses, rfl⟩))
        rw [hrow, ← hlength, List.take_left]
        exact hdue.getElem?_items
    · -- all of the code has been read, and a token is left
      have hrow : row = read.map Token.number ++ (t :: rest).map Token.number := List.map_append
      have hlength : (read.map Token.number).length = read.length := List.length_map _
      have hcomplete := hread.isComplete
      have hsurplus : HasSurplus row := by
        rw [hrow]
        exact hcomplete.hasSurplus_append (List.cons_ne_nil _ _)
      refine .inr (.inr (.inl ⟨hsurplus.not_isComplete, hsurplus.not_isUnfinished, hsurplus,
        read.length, t, ?_, by simp, rfl⟩))
      rw [hrow, ← hlength, List.take_left]
      exact hcomplete

/-- A header that promises an instruction which does not follow, and one that promises none and is
followed by a number. -/
theorem load_error_of_tokens_header :
    IsUnfinished [1, 0, 1] ∧
      load "1 0 1" = .error ⟨.unexpectedEnd (.tag 1), .emptyAt 5⟩ ∧
      IsComplete [1, 0, 0] ∧ HasSurplus [1, 0, 0, 5] ∧
      load "1 0 0 5" = .error ⟨.trailingInput, ⟨6, 7⟩⟩ := by
  let swap : Code := ⟨⟨1, by decide⟩, ⟨#[]⟩, [.swap]⟩
  have hswap : IsComplete [1, 0, 1, 2] := ⟨by decide, swap, rfl⟩
  have hnone : IsComplete [1, 0, 0] := ⟨by decide, ⟨⟨1, by decide⟩, ⟨#[]⟩, []⟩, rfl⟩
  have hunfinished : IsUnfinished [1, 0, 1] := ⟨_, hswap, by decide, by decide⟩
  have hsurplus : HasSurplus [1, 0, 0, 5] := ⟨_, hnone, by decide, by decide⟩
  refine ⟨hunfinished, ?_, hnone, hsurplus, ?_⟩
  · have htokens : tokenize "1 0 1".toList =
        .ok [⟨1, ⟨0, 1⟩⟩, ⟨0, ⟨2, 3⟩⟩, ⟨1, ⟨4, 5⟩⟩] := by decide +kernel
    obtain ⟨-, hcases, -⟩ := load_error_of_tokens "1 0 1"
    rcases hcases _ htokens with ⟨-, hnot, -⟩ | ⟨-, -, -, item, hitem, hload⟩ | ⟨-, hnot, -⟩ |
      ⟨-, hnot, -⟩
    · exact absurd hunfinished hnot
    · cases hitem swap (by decide)
      exact hload
    · exact absurd hunfinished hnot
    · exact absurd hunfinished hnot
  · have htokens : tokenize "1 0 0 5".toList =
        .ok [⟨1, ⟨0, 1⟩⟩, ⟨0, ⟨2, 3⟩⟩, ⟨0, ⟨4, 5⟩⟩, ⟨5, ⟨6, 7⟩⟩] := by decide +kernel
    obtain ⟨hfree, hcases, -⟩ := load_error_of_tokens "1 0 0 5"
    rcases hcases _ htokens with ⟨-, -, hnot, -⟩ | ⟨-, -, hnot, -⟩ |
      ⟨-, -, -, k, t, hk, ht, hload⟩ | ⟨-, -, hnot, -⟩
    · exact absurd hsurplus hnot
    · exact absurd hsurplus hnot
    · obtain _ | _ | _ | _ | k := k
      · cases hfree _ _ hk hnone (by decide)
      · cases hfree _ _ hk hnone (by decide)
      · cases hfree _ _ hk hnone (by decide)
      · cases ht
        exact hload
      · cases ht
    · exact absurd hsurplus hnot

end ResidueMachine
