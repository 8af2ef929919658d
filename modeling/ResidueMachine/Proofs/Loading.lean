import ResidueMachine.Proofs.Reading
import ResidueMachine.Proofs.Spelling

/-!
# The language of the loader

Code is written as a row of integers, `Code.numbers`: the modulus, the two counts, the words of
the table, and then the tag and the operands of each instruction.  The row is self-delimiting,
since a tag tells how many operands follow and the header tells how much there is of the rest
(`Code.numbers_append_inj`).

* `LoadedCode.ReadFrom.map_number` and `exists_readFrom` : code is read from exactly those tokens
  that stand for its numbers;
* `load_iff_spells` : a source loads code iff it spells the numbers of the code and these fit
  words, and it spells the numbers of no other code.
-/

namespace ResidueMachine

/-- The integers that an instruction is written with: its tag, and then its operands. -/
def Instruction.numbers : Instruction → List Int
  | load index => [1, index.toInt]
  | swap => [2]
  | combine2 a b c => [3, a.toInt, b.toInt, c.toInt]
  | combineIndexed index a b c => [4, index.toInt, a.toInt, b.toInt, c.toInt]

/-- The integers that code is written with. -/
def Code.numbers (c : Code) : List Int :=
  c.modulus.val.toInt :: (c.table.size : Int) :: (c.program.length : Int) ::
    (c.table.toList.map Int64.toInt ++ c.program.flatMap Instruction.numbers)

/-! ### The numbers determine the code -/

namespace Instruction

theorem numbers_eq_cons (i : Instruction) :
    i.numbers = (i.tag : Int) :: i.operands.map Int64.toInt := by
  cases i <;> rfl

/-- Two instructions at the front of the same row are equal: the tag tells where they end. -/
theorem numbers_append_inj {i j : Instruction} {xs ys : List Int}
    (h : i.numbers ++ xs = j.numbers ++ ys) : i = j ∧ xs = ys := by
  cases i <;> cases j <;> simp_all [numbers, Int64.toInt_inj]

end Instruction

/-- Programs at the front of the same row are equal if they have the same length, which the row
itself does not tell. -/
theorem Program.numbers_append_inj {p q : Program} {xs ys : List Int}
    (hlength : p.length = q.length)
    (h : p.flatMap Instruction.numbers ++ xs = q.flatMap Instruction.numbers ++ ys) :
    p = q ∧ xs = ys := by
  induction p generalizing q with
  | nil =>
    rw [List.eq_nil_of_length_eq_zero hlength.symm] at h ⊢
    exact ⟨rfl, h⟩
  | cons i p ih =>
    obtain ⟨j, q, rfl⟩ := List.exists_cons_of_length_eq_add_one hlength.symm
    rw [List.flatMap_cons, List.flatMap_cons, List.append_assoc, List.append_assoc] at h
    obtain ⟨rfl, hrest⟩ := Instruction.numbers_append_inj h
    obtain ⟨rfl, rfl⟩ := ih (Nat.succ.inj hlength) hrest
    exact ⟨rfl, rfl⟩

/-- **Rows of numbers are self-delimiting**: two codes at the front of the same row are equal. -/
theorem Code.numbers_append_inj {c d : Code} {xs ys : List Int}
    (h : c.numbers ++ xs = d.numbers ++ ys) : c = d ∧ xs = ys := by
  obtain ⟨⟨m, hm⟩, ⟨words⟩, p⟩ := c
  obtain ⟨⟨m', hm'⟩, ⟨words'⟩, p'⟩ := d
  simp only [numbers, List.cons_append, List.cons.injEq, List.append_assoc, Int64.toInt_inj,
    Int.ofNat_inj] at h
  obtain ⟨rfl, hsize, hlength, hrest⟩ := h
  have hwords : (words.toList.map Int64.toInt).length = (words'.toList.map Int64.toInt).length := by
    rw [List.length_map, List.length_map]
    exact hsize
  -- the counts of the header cut both rows at the same places
  obtain ⟨htable, hprogram⟩ := List.append_inj hrest hwords
  obtain ⟨rfl, rfl⟩ := Program.numbers_append_inj hlength hprogram
  have htoInt : Function.Injective Int64.toInt := fun _ _ => Int64.toInt_inj.1
  have hwords : words = words' := Array.toList_inj.1 (List.map_injective_iff.2 htoInt htable)
  subst hwords
  exact ⟨rfl, rfl⟩

theorem Code.fitsWord_of_mem_numbers {c : Code} (hsize : Numeral.FitsWord c.table.size)
    (hlength : Numeral.FitsWord c.program.length) :
    ∀ number ∈ c.numbers, Numeral.FitsWord number := by
  have htag (i : Instruction) : Numeral.FitsWord i.tag := by
    unfold Instruction.tag
    cases i.opcode <;> decide
  intro number hnumber
  simp only [numbers, List.mem_cons, List.mem_append, List.mem_map, List.mem_flatMap] at hnumber
  rcases hnumber with rfl | rfl | rfl | ⟨word, -, rfl⟩ | ⟨i, -, hi⟩
  · exact fitsWord_toInt _
  · exact hsize
  · exact hlength
  · exact fitsWord_toInt word
  · rw [Instruction.numbers_eq_cons, List.mem_cons, List.mem_map] at hi
    rcases hi with rfl | ⟨word, -, rfl⟩
    · exact htag i
    · exact fitsWord_toInt word

theorem Code.length_program_le (c : Code) : c.program.length ≤ c.numbers.length := by
  have hprogram (p : Program) : p.length ≤ (p.flatMap Instruction.numbers).length := by
    induction p with
    | nil => exact Nat.zero_le _
    | cons i p ih =>
      rw [List.flatMap_cons, List.length_append, Instruction.numbers_eq_cons]
      simp only [List.length_cons]
      omega
  have := hprogram c.program
  simp only [numbers, List.length_cons, List.length_append]
  omega

/-! ### The tokens of code -/

theorem map_number_eq_map_toInt (tokens : List Token) :
    tokens.map Token.number = (tokens.map Token.value).map Int64.toInt := by
  rw [List.map_map]
  rfl

theorem PlacedInstruction.ReadFrom.map_number {p : PlacedInstruction} {group : List Token}
    (h : p.ReadFrom group) : group.map Token.number = p.instruction.numbers := by
  obtain ⟨htag, hoperands⟩ := h
  rw [Instruction.numbers_eq_cons, ← hoperands, List.map_cons, Token.number, htag, List.map_map]
  rfl

theorem map_number_flatten {placed : List PlacedInstruction} {groups : List (List Token)}
    (h : List.Forall₂ PlacedInstruction.ReadFrom placed groups) :
    groups.flatten.map Token.number =
      (placed.map (·.instruction)).flatMap Instruction.numbers := by
  induction h with
  | nil => rfl
  | cons hp _ ih =>
    rw [List.flatten_cons, List.map_append, hp.map_number, ih, List.map_cons, List.flatMap_cons]

theorem LoadedCode.ReadFrom.map_number {loaded : LoadedCode} {tokens : List Token}
    (h : loaded.ReadFrom tokens) : tokens.map Token.number = loaded.code.numbers := by
  obtain ⟨hpos, hsize, hlength, hread⟩ := h
  rename_i modulus size length words placed groups
  simp only [Code.numbers, Table.toList, Table.size, List.map_cons, List.map_append,
    map_number_eq_map_toInt words, map_number_flatten hread, List.size_toArray, List.length_map,
    Token.number, hsize, hlength]

theorem map_value_eq_of_map_number_eq {tokens : List Token} {words : List Int64}
    (h : tokens.map Token.number = words.map Int64.toInt) : tokens.map Token.value = words := by
  have htoInt : Function.Injective Int64.toInt := fun _ _ => Int64.toInt_inj.1
  refine List.map_injective_iff.2 htoInt ?_
  rwa [← map_number_eq_map_toInt]

theorem exists_readFrom_instruction {i : Instruction} {group : List Token}
    (h : group.map Token.number = i.numbers) :
    ∃ p : PlacedInstruction, p.ReadFrom group ∧ p.instruction = i := by
  rw [Instruction.numbers_eq_cons] at h
  obtain ⟨tag, operands, rfl, htag, hoperands⟩ := List.map_eq_cons_iff.1 h
  exact ⟨_, .mk htag (map_value_eq_of_map_number_eq hoperands), rfl⟩

theorem exists_readFrom_program {p : Program} {tokens : List Token}
    (h : tokens.map Token.number = p.flatMap Instruction.numbers) :
    ∃ placed groups, tokens = groups.flatten ∧
      List.Forall₂ PlacedInstruction.ReadFrom placed groups ∧
      placed.map (·.instruction) = p := by
  induction p generalizing tokens with
  | nil =>
    rw [List.flatMap_nil, List.map_eq_nil_iff] at h
    exact ⟨[], [], h, .nil, rfl⟩
  | cons i p ih =>
    rw [List.flatMap_cons, List.map_eq_append_iff] at h
    obtain ⟨group, tokens, rfl, hgroup, htokens⟩ := h
    obtain ⟨first, hfirst, rfl⟩ := exists_readFrom_instruction hgroup
    obtain ⟨placed, groups, rfl, hread, rfl⟩ := ih htokens
    exact ⟨first :: placed, group :: groups, rfl, .cons hfirst hread, rfl⟩

theorem exists_readFrom {c : Code} {tokens : List Token}
    (h : tokens.map Token.number = c.numbers) :
    ∃ loaded : LoadedCode, loaded.ReadFrom tokens ∧ loaded.code = c := by
  obtain ⟨modulus, _, rfl, hmodulus, h⟩ := List.map_eq_cons_iff.1 h
  obtain ⟨size, _, rfl, hsize, h⟩ := List.map_eq_cons_iff.1 h
  obtain ⟨length, _, rfl, hlength, h⟩ := List.map_eq_cons_iff.1 h
  obtain ⟨words, rest, rfl, hwords, hrest⟩ := List.map_eq_append_iff.1 h
  obtain ⟨placed, groups, rfl, hread, hplaced⟩ := exists_readFrom_program hrest
  obtain ⟨⟨m, hm⟩, ⟨table⟩, p⟩ := c
  have hvalue : modulus.value = m := Int64.toInt_inj.1 hmodulus
  have htable : table = (words.map Token.value).toArray :=
    Array.toList_inj.1 (map_value_eq_of_map_number_eq hwords).symm
  subst hvalue htable hplaced
  have hsize : size.value.toInt = words.length := by
    simpa [Token.number, Table.size] using hsize
  have hlength : length.value.toInt = placed.length := by
    simpa [Token.number] using hlength
  exact ⟨_, .mk hm hsize hlength hread, rfl⟩

theorem length_program_le_of_load_eq_ok {source : String} {loaded : LoadedCode}
    (h : load source = .ok loaded) : loaded.code.program.length ≤ source.utf8ByteSize := by
  obtain ⟨tokens, htokens, hread⟩ := load_eq_ok_iff.1 h
  obtain ⟨⟨runs, hruns, hwrites⟩, -⟩ :=
    exists_tokenize_iff_spells.1 ⟨tokens, htokens, hread.map_number⟩
  calc loaded.code.program.length
      ≤ loaded.code.numbers.length := loaded.code.length_program_le
    _ = runs.length := hwrites.length_eq.symm
    _ ≤ byteLength source.toList := hruns.length_le
    _ = source.utf8ByteSize := byteLength_toList source

/-- **The language of the loader.**  A source loads code iff it spells the numbers of the code and
all of them fit words.  It spells the numbers of at most one code.  Code whose counts fit words has
a spelling, and is loaded from each of its spellings and from no other source. -/
theorem load_iff_spells (source : String) (c : Code) :
    ((∃ loaded, load source = .ok loaded ∧ loaded.code = c) ↔
        Spells source.toList c.numbers ∧ ∀ number ∈ c.numbers, Numeral.FitsWord number) ∧
      (∀ d : Code, Spells source.toList c.numbers → Spells source.toList d.numbers → d = c) ∧
      (Numeral.FitsWord c.table.size → Numeral.FitsWord c.program.length →
        (∃ text : String, Spells text.toList c.numbers) ∧
          ((∃ loaded, load source = .ok loaded ∧ loaded.code = c) ↔
            Spells source.toList c.numbers)) := by
  have hload : (∃ loaded, load source = .ok loaded ∧ loaded.code = c) ↔
      Spells source.toList c.numbers ∧ ∀ number ∈ c.numbers, Numeral.FitsWord number := by
    rw [← exists_tokenize_iff_spells]
    simp only [load_eq_ok_iff]
    constructor
    · rintro ⟨loaded, ⟨tokens, htokens, hread⟩, rfl⟩
      exact ⟨tokens, htokens, hread.map_number⟩
    · rintro ⟨tokens, htokens, hnumbers⟩
      obtain ⟨loaded, hread, hcode⟩ := exists_readFrom hnumbers
      exact ⟨loaded, ⟨tokens, htokens, hread⟩, hcode⟩
  refine ⟨hload, fun d hc hd => ?_, fun hsize hlength => ⟨?_, ?_⟩⟩
  · have hnumbers : d.numbers ++ [] = c.numbers ++ [] := by rw [hd.unique hc]
    exact (Code.numbers_append_inj hnumbers).1
  · obtain ⟨text, htext⟩ := exists_spells c.numbers
    exact ⟨String.ofList text, by rwa [String.toList_ofList]⟩
  · rw [hload]
    exact and_iff_left (Code.fitsWord_of_mem_numbers hsize hlength)

end ResidueMachine
