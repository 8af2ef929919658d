import ResidueMachine.Proofs.Except
import ResidueMachine.Proofs.Decoding
import ResidueMachine.Source.LoadedCode

/-!
# What the reader takes off the tokens

Each part of the reader takes some tokens off the front and leaves the rest.  For every part there
is one lemma that says which tokens it takes and what it makes of them, in both directions, and
the lemma of a part is put together from those of its own parts by `Reading.bind_eq_ok_iff`.

* `PlacedInstruction.ReadFrom` : an instruction is read from its tag and its operands;
* `LoadedCode.ReadFrom` : loaded code is read from the three numbers of the header, the words of
  the table and the tokens of each instruction;
* `Reading.code_eq_ok_iff` : reading code succeeds on these tokens and on no others;
* `load_eq_ok_iff` : loading a source is reading all of its tokens.
-/

namespace ResidueMachine

/-- An instruction with its place, and the tokens that it is read from. -/
inductive PlacedInstruction.ReadFrom : PlacedInstruction → List Token → Prop
  /-- The tag and the operands of the instruction. -/
  | mk {i : Instruction} {tag : Token} {operands : List Token} :
    tag.value.toInt = i.tag → operands.map Token.value = i.operands →
      ReadFrom ⟨i, tag.span.through (operands.getLastD tag).span⟩ (tag :: operands)

/-- Loaded code and the tokens that it is read from. -/
inductive LoadedCode.ReadFrom : LoadedCode → List Token → Prop
  /-- The header, the words of the table, and the tokens of each instruction. -/
  | mk {modulus size length : Token} {words : List Token} {placed : List PlacedInstruction}
    {groups : List (List Token)} (hpos : 0 < modulus.value.toInt) :
    size.value.toInt = words.length → length.value.toInt = placed.length →
      List.Forall₂ PlacedInstruction.ReadFrom placed groups →
      ReadFrom
        ⟨⟨⟨modulus.value, hpos⟩, ⟨(words.map Token.value).toArray⟩,
          placed.map (·.instruction)⟩, placed.map (·.span)⟩
        (modulus :: size :: length :: (words ++ groups.flatten))

/-! ### The parts of the reader -/

namespace Reading

open Reader

variable {size : Nat} {tokens rest : List Token}

theorem bind_eq_ok_iff {α β : Type} {x : Reading α} {f : α → Reading β} {b : β} :
    (x >>= f) tokens = .ok (b, rest) ↔
      ∃ a mid, x tokens = .ok (a, mid) ∧ f a mid = .ok (b, rest) := by
  change (x tokens).bind (fun p => f p.1 p.2) = _ ↔ _
  rw [Except.bind_eq_ok_iff, Prod.exists]

theorem pure_eq_ok_iff {α : Type} {a b : α} :
    (pure a : Reading α) tokens = .ok (b, rest) ↔ a = b ∧ tokens = rest := by
  constructor
  · intro h
    cases h
    exact ⟨rfl, rfl⟩
  · rintro ⟨rfl, rfl⟩
    rfl

theorem throw_ne_ok {α : Type} {e : LoadError} {b : α} :
    (throw e : Reading α) tokens ≠ .ok (b, rest) := by
  intro h
  cases h

/-- The room that is reserved does not show in what is read. -/
theorem allocate_bind {α β : Type} {count : Nat} {f : Array α → Reading β} :
    (allocate Reading α count >>= f) tokens = f #[] tokens :=
  rfl

theorem token_nil {item : Item} :
    token Reading size item [] = .error ⟨.unexpectedEnd item, .emptyAt size⟩ :=
  rfl

theorem token_cons {item : Item} {t : Token} :
    token Reading size item (t :: rest) = .ok (t, rest) :=
  rfl

theorem token_eq_ok_iff {item : Item} {t : Token} :
    token Reading size item tokens = .ok (t, rest) ↔ tokens = t :: rest := by
  cases tokens <;> simp [token_nil, token_cons]

theorem modulus_eq_ok_iff {m : Modulus} :
    modulus Reading size tokens = .ok (m, rest) ↔ ∃ t, tokens = t :: rest ∧ t.value = m.val := by
  simp only [modulus, bind_eq_ok_iff, token_eq_ok_iff]
  constructor
  · rintro ⟨t, mid, rfl, h⟩
    by_cases hpos : 0 < t.value.toInt
    · rw [Modulus.ofWord?_eq_some hpos] at h
      obtain ⟨rfl, rfl⟩ := pure_eq_ok_iff.1 h
      exact ⟨t, rfl, rfl⟩
    · rw [Modulus.ofWord?_eq_none_iff.2 (Int.not_lt.1 hpos)] at h
      exact absurd h throw_ne_ok
  · rintro ⟨t, rfl, ht⟩
    have hpos : 0 < t.value.toInt := ht ▸ m.pos
    have hm : m = ⟨t.value, hpos⟩ := by
      obtain ⟨val, _⟩ := m
      cases ht
      rfl
    refine ⟨t, rest, rfl, ?_⟩
    rw [Modulus.ofWord?_eq_some hpos, hm]
    rfl

theorem count_eq_ok_iff {item : Item} {n : Nat} :
    count Reading size item tokens = .ok (n, rest) ↔
      ∃ t, tokens = t :: rest ∧ t.value.toInt = n := by
  simp only [count, bind_eq_ok_iff, token_eq_ok_iff]
  constructor
  · rintro ⟨t, mid, rfl, h⟩
    split at h
    · exact absurd h throw_ne_ok
    · obtain ⟨rfl, rfl⟩ := pure_eq_ok_iff.1 h
      exact ⟨t, rfl, by omega⟩
  · rintro ⟨t, rfl, ht⟩
    refine ⟨t, rest, rfl, ?_⟩
    rw [if_neg (by omega), pure_eq_ok_iff]
    exact ⟨by omega, rfl⟩

theorem words_succ {count : Nat} {found : Array Int64} :
    words Reading size (count + 1) found tokens =
      (do
        let t ← token Reading size (.tableWord (found.size + 1))
        words Reading size count (found.push t.value) : Reading (Array Int64)) tokens :=
  rfl

theorem words_eq_ok_iff {count : Nat} {found all : Array Int64} :
    words Reading size count found tokens = .ok (all, rest) ↔
      ∃ read, tokens = read ++ rest ∧ read.length = count ∧
        all.toList = found.toList ++ read.map Token.value := by
  induction count generalizing found tokens with
  | zero =>
    rw [words, pure_eq_ok_iff]
    constructor
    · rintro ⟨rfl, rfl⟩
      exact ⟨[], rfl, rfl, (List.append_nil _).symm⟩
    · rintro ⟨read, rfl, hread, hall⟩
      rw [List.length_eq_zero_iff.1 hread] at hall ⊢
      refine ⟨Array.toList_inj.1 ?_, rfl⟩
      rw [hall, List.map_nil, List.append_nil]
  | succ count ih =>
    simp only [words_succ, bind_eq_ok_iff, token_eq_ok_iff, ih]
    constructor
    · rintro ⟨t, _, rfl, read, rfl, rfl, hall⟩
      exact ⟨t :: read, rfl, rfl, by rw [hall]; simp⟩
    · rintro ⟨read, rfl, hread, hall⟩
      obtain ⟨t, read, rfl⟩ := List.exists_cons_of_length_eq_add_one hread
      exact ⟨t, read ++ rest, rfl, read, rfl, Nat.succ.inj hread, by rw [hall]; simp⟩

theorem operands_eq_ok_iff {position count number : Nat} {read : List Token} :
    operands Reading size position count number tokens = .ok (read, rest) ↔
      tokens = read ++ rest ∧ read.length = count := by
  induction count generalizing number tokens rest read with
  | zero =>
    rw [operands, pure_eq_ok_iff]
    constructor
    · rintro ⟨rfl, rfl⟩
      exact ⟨rfl, rfl⟩
    · rintro ⟨rfl, hread⟩
      rw [List.length_eq_zero_iff.1 hread]
      exact ⟨rfl, rfl⟩
  | succ count ih =>
    simp only [operands, bind_eq_ok_iff, token_eq_ok_iff, pure_eq_ok_iff, ih]
    constructor
    · rintro ⟨t, _, rfl, others, rest, ⟨rfl, rfl⟩, rfl, rfl⟩
      exact ⟨rfl, rfl⟩
    · rintro ⟨rfl, hread⟩
      obtain ⟨t, others, rfl⟩ := List.exists_cons_of_length_eq_add_one hread
      exact ⟨t, others ++ rest, rfl, others, rest, ⟨rfl, Nat.succ.inj hread⟩, rfl, rfl⟩

theorem instruction_eq_ok_iff {position : Nat} {p : PlacedInstruction} :
    instruction Reading size position tokens = .ok (p, rest) ↔
      ∃ read, tokens = read ++ rest ∧ p.ReadFrom read := by
  simp only [instruction, bind_eq_ok_iff, token_eq_ok_iff]
  constructor
  · rintro ⟨tag, mid, rfl, h⟩
    cases harity : Instruction.arity? tag.value with
    | none =>
      rw [harity] at h
      exact absurd h throw_ne_ok
    | some arity =>
      rw [harity] at h
      -- what is decoded has the right number of operands, so that `arity` is not needed again
      obtain ⟨operands, _, hoperands, hplaced⟩ := bind_eq_ok_iff.1 h
      obtain ⟨rfl, -⟩ := operands_eq_ok_iff.1 hoperands
      cases hdecode : Instruction.decode tag.value (operands.map Token.value) with
      | error e =>
        rw [hdecode] at hplaced
        exact absurd hplaced throw_ne_ok
      | ok i =>
        rw [hdecode] at hplaced
        obtain ⟨rfl, rfl⟩ := pure_eq_ok_iff.1 hplaced
        obtain ⟨htag, hvalues⟩ := Instruction.decode_eq_ok_iff.1 hdecode
        exact ⟨tag :: operands, rfl, .mk htag hvalues.symm⟩
  · rintro ⟨_, rfl, ⟨htag, hvalues⟩⟩
    rename_i i tag operands
    refine ⟨tag, operands ++ rest, rfl, ?_⟩
    simp only [Instruction.arity?_of_toInt_eq htag]
    refine bind_eq_ok_iff.2 ⟨operands, rest, operands_eq_ok_iff.2 ⟨rfl, ?_⟩, ?_⟩
    · rw [← hvalues, List.length_map]
    · rw [Instruction.decode_eq_ok_iff.2 ⟨htag, hvalues.symm⟩]
      rfl

theorem instructions_succ {count : Nat} {found : Array PlacedInstruction} :
    instructions Reading size (count + 1) found tokens =
      (do
        let i ← instruction Reading size (found.size + 1)
        instructions Reading size count (found.push i) : Reading (Array PlacedInstruction))
        tokens :=
  rfl

theorem instructions_eq_ok_iff {count : Nat} {found all : Array PlacedInstruction} :
    instructions Reading size count found tokens = .ok (all, rest) ↔
      ∃ placed groups, placed.length = count ∧
        List.Forall₂ PlacedInstruction.ReadFrom placed groups ∧
        tokens = groups.flatten ++ rest ∧ all.toList = found.toList ++ placed := by
  induction count generalizing found tokens with
  | zero =>
    rw [instructions, pure_eq_ok_iff]
    constructor
    · rintro ⟨rfl, rfl⟩
      exact ⟨[], [], rfl, .nil, rfl, (List.append_nil _).symm⟩
    · rintro ⟨placed, groups, hplaced, hread, rfl, hall⟩
      rw [List.length_eq_zero_iff.1 hplaced] at hread hall
      rw [List.forall₂_nil_left_iff.1 hread]
      refine ⟨Array.toList_inj.1 ?_, rfl⟩
      rw [hall, List.append_nil]
  | succ count ih =>
    simp only [instructions_succ, bind_eq_ok_iff, instruction_eq_ok_iff, ih]
    constructor
    · rintro ⟨p, _, ⟨read, rfl, hp⟩, placed, groups, rfl, hread, rfl, hall⟩
      refine ⟨p :: placed, read :: groups, rfl, .cons hp hread, ?_, by rw [hall]; simp⟩
      rw [List.flatten_cons, List.append_assoc]
    · rintro ⟨placed, groups, hplaced, hread, rfl, hall⟩
      obtain ⟨p, placed, rfl⟩ := List.exists_cons_of_length_eq_add_one hplaced
      obtain ⟨read, groups, hp, hrest, rfl⟩ := List.forall₂_cons_left_iff.1 hread
      refine ⟨p, groups.flatten ++ rest, ⟨read, ?_, hp⟩, placed, groups,
        Nat.succ.inj hplaced, hrest, rfl, by rw [hall]; simp⟩
      rw [List.flatten_cons, List.append_assoc]

theorem finish_eq_ok_iff {u : Unit} :
    finish Reading size tokens = .ok (u, rest) ↔ tokens = [] ∧ rest = [] := by
  cases tokens with
  | nil =>
    constructor
    · intro h
      cases h
      exact ⟨rfl, rfl⟩
    · rintro ⟨-, rfl⟩
      rfl
  | cons t tokens =>
    constructor
    · intro h
      cases h
    · rintro ⟨h, -⟩
      cases h

theorem run'_eq_ok_iff {α : Type} {x : Reading α} {a : α} :
    x.run' tokens = .ok a ↔ ∃ rest, x tokens = .ok (a, rest) := by
  change (x tokens).map Prod.fst = _ ↔ _
  rw [Except.map_eq_ok_iff, Prod.exists]
  exact ⟨fun ⟨_, rest, h, ha⟩ => ⟨rest, ha ▸ h⟩, fun ⟨rest, h⟩ => ⟨a, rest, h, rfl⟩⟩

/-- **Code is read from the tokens of its parts**, and none may be left. -/
theorem code_eq_ok_iff {loaded : LoadedCode} :
    code Reading size tokens = .ok (loaded, rest) ↔ loaded.ReadFrom tokens ∧ rest = [] := by
  simp only [code, bind_eq_ok_iff, allocate_bind, modulus_eq_ok_iff, count_eq_ok_iff,
    words_eq_ok_iff, instructions_eq_ok_iff, finish_eq_ok_iff, pure_eq_ok_iff]
  constructor
  · rintro ⟨m, _, ⟨modulus, rfl, hm⟩, n, _, ⟨count, rfl, hn⟩, l, _, ⟨length, rfl, hl⟩, all, _,
      ⟨words, rfl, hwords, hall⟩, allPlaced, _, ⟨placed, groups, hplaced, hread, rfl, hallPlaced⟩,
      -, _, ⟨hnil, rfl⟩, h, rfl⟩
    rw [List.nil_append] at hall hallPlaced
    obtain ⟨_, hpos⟩ := m
    cases hm
    subst hwords hplaced hnil h
    have hall : all = (words.map Token.value).toArray := Array.toList_inj.1 hall
    rw [hall, hallPlaced, List.append_nil]
    exact ⟨.mk hpos hn hl hread, rfl⟩
  · rintro ⟨⟨hpos, hsize, hlength, hread⟩, rfl⟩
    rename_i modulus count length words placed groups
    have hflatten : groups.flatten = groups.flatten ++ [] := (List.append_nil _).symm
    exact ⟨⟨modulus.value, hpos⟩, _, ⟨modulus, rfl, rfl⟩, words.length, _, ⟨count, rfl, hsize⟩,
      placed.length, _, ⟨length, rfl, hlength⟩, (words.map Token.value).toArray, _,
      ⟨words, rfl, rfl, by simp⟩, placed.toArray, [],
      ⟨placed, groups, rfl, hread, hflatten, by simp⟩, (), [], ⟨rfl, rfl⟩, by simp, rfl⟩

end Reading

theorem load_eq_of_tokenize {source : String} {tokens : List Token}
    (h : tokenize source.toList = .ok tokens) :
    load source = (Reader.code Reading source.utf8ByteSize tokens).map Prod.fst := by
  change (tokenize source.toList).bind (Reader.code Reading source.utf8ByteSize).run' = _
  rw [h]
  rfl

theorem load_eq_of_tokenize_eq_error {source : String} {e : LoadError}
    (h : tokenize source.toList = .error e) : load source = .error e := by
  change (tokenize source.toList).bind (Reader.code Reading source.utf8ByteSize).run' = _
  rw [h]
  rfl

/-- **A source is loaded by reading all of its tokens.** -/
theorem load_eq_ok_iff {source : String} {loaded : LoadedCode} :
    load source = .ok loaded ↔
      ∃ tokens, tokenize source.toList = .ok tokens ∧ loaded.ReadFrom tokens := by
  have hcode (tokens : List Token) :
      (Reader.code Reading source.utf8ByteSize).run' tokens = .ok loaded ↔
        loaded.ReadFrom tokens := by
    simp only [Reading.run'_eq_ok_iff, Reading.code_eq_ok_iff, exists_and_left, exists_eq,
      and_true]
  change (tokenize source.toList).bind (Reader.code Reading source.utf8ByteSize).run' = _ ↔ _
  simp only [Except.bind_eq_ok_iff, hcode]

end ResidueMachine
