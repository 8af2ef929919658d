import ResidueMachine.Machine.Execute

/-!
# Decoding and its inverse

A tag and a list of operands are decoded to an instruction just if they are what the instruction is
written with, so that no two of them are decoded alike.  A tag that is not one of the four is
unknown, whatever its lowest byte is and whatever the operands are; only for a known tag is the
number of operands looked at.

For this reason an instruction can also be decoded from the lowest byte of the tag, with operands
that are looked up by their indices (`Instruction.decodeByByte?`).  The whole tag has been seen to
be known before, and its operands have been counted: no other tag passes for one of the four, and
no index is out of range.

* `Instruction.decode_eq_ok_iff`, `Instruction.decode_eq_unknownTag_iff`,
  `Instruction.decode_eq_operandCount_iff` : what is decoded, and why something is not;
* `Instruction.decodeByByte?_eq` : decoding by the lowest byte is the same;
* `Instruction.execute_congr`, `Instruction.readsTable_of_tableIndex?` : the table index tells what
  an instruction reads;
* `Instruction.decode_inverts_writing` : decoding undoes writing.
-/

namespace ResidueMachine

/-- The kind that a byte is taken for, once it is known to be the tag of one. -/
def Opcode.ofByte (byte : UInt8) : Opcode :=
  if byte = 1 then .load
  else if byte = 2 then .swap
  else if byte = 3 then .combine2
  else .combineIndexed

namespace Instruction

/-- The instruction of a kind with operands that are looked up by their indices, if none of these
is out of range. -/
def lookUp? (operands : List Int64) : Opcode → Option Instruction
  | .load => do
    let index ← operands[0]?
    return load index
  | .swap => some swap
  | .combine2 => do
    let a ← operands[0]?
    let b ← operands[1]?
    let c ← operands[2]?
    return combine2 a b c
  | .combineIndexed => do
    let index ← operands[0]?
    let a ← operands[1]?
    let b ← operands[2]?
    let c ← operands[3]?
    return combineIndexed index a b c

/-- Decoding by the lowest byte of the tag, with operands that are looked up by their indices.
There is no answer if one of these is out of range. -/
def decodeByByte? (tag : Int64) (operands : List Int64) : Option (Except DecodeError Instruction) :=
  match arity? tag with
  | none => some (.error (.unknownTag tag))
  | some arity =>
    let op := Opcode.ofByte tag.toUInt64.toUInt8
    if operands.length = arity then (lookUp? operands op).map .ok
    else some (.error (.operandCount op operands.length))

/-- What the instruction does depends on the table. -/
def ReadsTable (i : Instruction) : Prop :=
  ∃ (m : Modulus) (t t' : Table) (s : Stack Int64), execute m t i s ≠ execute m t' i s

end Instruction

/-! ### Tags -/

namespace Opcode

variable {tag : Int64} {op : Opcode}

theorem eq_ofNat_of_toInt_eq (h : tag.toInt = op.tag) : tag = Int64.ofNat op.tag := by
  rw [← Int64.toInt_inj, h]
  cases op <;> rfl

theorem ofTag?_eq_none_iff : ofTag? tag = none ↔ ¬ (1 ≤ tag.toInt ∧ tag.toInt ≤ 4) := by
  constructor
  · intro h hrange
    have hop (op : Opcode) : tag.toInt ≠ op.tag := fun htag => by
      rw [ofTag?_eq_some_iff.2 htag] at h
      cases h
    have hload := hop .load
    have hswap := hop .swap
    have hcombine2 := hop .combine2
    have hcombineIndexed := hop .combineIndexed
    simp only [Opcode.tag] at hload hswap hcombine2 hcombineIndexed
    omega
  · intro h
    rw [Option.eq_none_iff_forall_ne_some]
    intro op hop
    have htag := ofTag?_eq_some_iff.1 hop
    cases op <;> simp only [Opcode.tag] at htag <;> omega

theorem ofByte_toUInt8 (h : tag.toInt = op.tag) : ofByte tag.toUInt64.toUInt8 = op := by
  rw [eq_ofNat_of_toInt_eq h]
  cases op <;> decide

end Opcode

namespace Instruction

/-! ### Decoding -/

section Decoding

variable {op : Opcode} {tag : Int64} {operands : List Int64} {i : Instruction}

theorem ofOperands?_eq_some_iff :
    ofOperands? op operands = some i ↔ i.opcode = op ∧ i.operands = operands := by
  constructor
  · intro h
    cases op with
    | load =>
      rcases operands with _ | ⟨index, _ | _⟩ <;> cases h
      exact ⟨rfl, rfl⟩
    | swap =>
      rcases operands with _ | _ <;> cases h
      exact ⟨rfl, rfl⟩
    | combine2 =>
      rcases operands with _ | ⟨a, _ | ⟨b, _ | ⟨c, _ | _⟩⟩⟩ <;> cases h
      exact ⟨rfl, rfl⟩
    | combineIndexed =>
      rcases operands with _ | ⟨index, _ | ⟨a, _ | ⟨b, _ | ⟨c, _ | _⟩⟩⟩⟩ <;> cases h
      exact ⟨rfl, rfl⟩
  · rintro ⟨rfl, rfl⟩
    exact ofOperands?_operands i

theorem exists_of_opcode (op : Opcode) (operands : List Int64) (h : operands.length = op.arity) :
    ∃ i : Instruction, i.opcode = op ∧ i.operands = operands := by
  match op, operands, h with
  | .load, [index], _ => exact ⟨.load index, rfl, rfl⟩
  | .swap, [], _ => exact ⟨.swap, rfl, rfl⟩
  | .combine2, [a, b, c], _ => exact ⟨.combine2 a b c, rfl, rfl⟩
  | .combineIndexed, [index, a, b, c], _ => exact ⟨.combineIndexed index a b c, rfl, rfl⟩

theorem ofOperands?_eq_none_iff : ofOperands? op operands = none ↔ operands.length ≠ op.arity := by
  constructor
  · intro h hlength
    obtain ⟨i, rfl, rfl⟩ := exists_of_opcode op operands hlength
    rw [ofOperands?_operands] at h
    cases h
  · intro h
    rw [Option.eq_none_iff_forall_ne_some]
    intro i hi
    obtain ⟨rfl, rfl⟩ := ofOperands?_eq_some_iff.1 hi
    exact h i.length_operands

theorem arity?_of_toInt_eq_tag (h : tag.toInt = op.tag) : arity? tag = some op.arity := by
  rw [arity?, Opcode.ofTag?_eq_some_iff.2 h, Option.map_some]

theorem arity?_of_toInt_eq (h : tag.toInt = i.tag) : arity? tag = some i.operands.length := by
  rw [length_operands]
  exact arity?_of_toInt_eq_tag h

theorem decode_eq_ok_iff :
    decode tag operands = .ok i ↔ tag.toInt = i.tag ∧ i.operands = operands := by
  constructor
  · intro h
    unfold decode at h
    split at h
    · cases h
    · rename_i op hop
      split at h
      · rename_i i' hi
        cases h
        obtain ⟨rfl, hoperands⟩ := ofOperands?_eq_some_iff.1 hi
        exact ⟨Opcode.ofTag?_eq_some_iff.1 hop, hoperands⟩
      · cases h
  · rintro ⟨htag, rfl⟩
    rw [decode, Opcode.ofTag?_eq_some_iff.2 htag]
    simp only [ofOperands?_operands]

theorem decode_of_ofTag?_eq_none (h : Opcode.ofTag? tag = none) :
    decode tag operands = .error (.unknownTag tag) := by
  simp only [decode, h]

theorem decode_of_length_ne (htag : tag.toInt = op.tag) (h : operands.length ≠ op.arity) :
    decode tag operands = .error (.operandCount op operands.length) := by
  simp only [decode, Opcode.ofTag?_eq_some_iff.2 htag, ofOperands?_eq_none_iff.2 h]

/-- **What decoding does**: it yields the instruction that the tag and the operands write, or tells
what is wrong with the number of operands, or with the tag. -/
theorem decode_cases (tag : Int64) (operands : List Int64) :
    (∃ i : Instruction, tag.toInt = i.tag ∧ i.operands = operands ∧
        decode tag operands = .ok i) ∨
      (∃ op : Opcode, tag.toInt = op.tag ∧ operands.length ≠ op.arity ∧
        decode tag operands = .error (.operandCount op operands.length)) ∨
      (Opcode.ofTag? tag = none ∧ decode tag operands = .error (.unknownTag tag)) := by
  cases hop : Opcode.ofTag? tag with
  | none => exact .inr (.inr ⟨rfl, decode_of_ofTag?_eq_none hop⟩)
  | some op =>
    have htag := Opcode.ofTag?_eq_some_iff.1 hop
    by_cases hlength : operands.length = op.arity
    · obtain ⟨i, rfl, hi⟩ := exists_of_opcode op operands hlength
      exact .inl ⟨i, htag, hi, decode_eq_ok_iff.2 ⟨htag, hi⟩⟩
    · exact .inr (.inl ⟨op, htag, hlength, decode_of_length_ne htag hlength⟩)

theorem decode_eq_unknownTag_iff {tag' : Int64} :
    decode tag operands = .error (.unknownTag tag') ↔
      ¬ (1 ≤ tag.toInt ∧ tag.toInt ≤ 4) ∧ tag' = tag := by
  constructor
  · intro h
    rcases decode_cases tag operands with ⟨i, -, -, hi⟩ | ⟨op, -, -, hop⟩ | ⟨htag, hunknown⟩
    · rw [hi] at h
      cases h
    · rw [hop] at h
      cases h
    · rw [hunknown] at h
      cases h
      exact ⟨Opcode.ofTag?_eq_none_iff.1 htag, rfl⟩
  · rintro ⟨htag, rfl⟩
    exact decode_of_ofTag?_eq_none (Opcode.ofTag?_eq_none_iff.2 htag)

theorem decode_eq_operandCount_iff {found : Nat} :
    decode tag operands = .error (.operandCount op found) ↔
      tag.toInt = op.tag ∧ arity? tag = some op.arity ∧ operands.length ≠ op.arity ∧
        found = operands.length := by
  constructor
  · intro h
    rcases decode_cases tag operands with ⟨i, -, -, hi⟩ | ⟨op', htag, hlength, hop⟩ | ⟨-, hunknown⟩
    · rw [hi] at h
      cases h
    · rw [hop] at h
      cases h
      exact ⟨htag, arity?_of_toInt_eq_tag htag, hlength, rfl⟩
    · rw [hunknown] at h
      cases h
  · rintro ⟨htag, -, hlength, rfl⟩
    exact decode_of_length_ne htag hlength

theorem lookUp?_operands (i : Instruction) : lookUp? i.operands i.opcode = some i := by
  cases i <;> rfl

/-- **Decoding by the lowest byte is decoding**, and looks up no operand that is not there. -/
theorem decodeByByte?_eq (tag : Int64) (operands : List Int64) :
    decodeByByte? tag operands = some (decode tag operands) := by
  rcases decode_cases tag operands with ⟨i, htag, rfl, hi⟩ | ⟨op, htag, hlength, hop⟩ |
    ⟨htag, hunknown⟩
  · rw [decodeByByte?, arity?_of_toInt_eq htag, hi]
    simp only [↓reduceIte, Opcode.ofByte_toUInt8 htag, lookUp?_operands, Option.map_some]
  · rw [decodeByByte?, arity?_of_toInt_eq_tag htag, hop]
    simp only [hlength, ↓reduceIte, Opcode.ofByte_toUInt8 htag]
  · rw [decodeByByte?, arity?, htag, hunknown]
    rfl

end Decoding

/-! ### Reading the table -/

section Table

variable {i : Instruction} {index : Int64} {t t' : Table}

/-- **Of the table, only the word at the table index matters**, and the number of words. -/
theorem execute_congr (m : Modulus) (s : Stack Int64)
    (h : ∀ index ∈ i.tableIndex?, t.get? index = t'.get? index ∧ t.size = t'.size) :
    execute m t i s = execute m t' i s := by
  cases i with
  | load index =>
    obtain ⟨hword, hsize⟩ := h index rfl
    rw [execute_load, execute_load, hword, hsize]
  | swap => rfl
  | combine2 a b c => rfl
  | combineIndexed index a b c =>
    obtain ⟨hword, hsize⟩ := h index rfl
    rw [execute_combineIndexed, execute_combineIndexed, hword, hsize]

theorem readsTable_of_tableIndex? (h : i.tableIndex? = some index) : i.ReadsTable := by
  have hnone : (⟨#[]⟩ : Table).get? index = none := by
    rw [Table.get?_eq_none_iff, Table.size, List.size_toArray, List.length_nil]
    omega
  refine ⟨⟨1, by decide⟩, ⟨#[]⟩, ⟨#[0]⟩, ⟨[0], 2, 1, rfl⟩, fun heq => ?_⟩
  cases i with
  | load read =>
    obtain rfl : read = index := Option.some.inj h
    rw [execute_load, execute_load, hnone] at heq
    cases hword : (⟨#[0]⟩ : Table).get? read <;> simp [hword, Table.size, Stack.push] at heq
  | swap => cases h
  | combine2 _ _ _ => cases h
  | combineIndexed read _ _ _ =>
    obtain rfl : read = index := Option.some.inj h
    rw [execute_combineIndexed, execute_combineIndexed, hnone] at heq
    cases hword : (⟨#[0]⟩ : Table).get? read <;>
      simp [hword, Table.size, Stack.push, Stack.pop] at heq

/-- **The table index is the first operand of the instructions that read the table.** -/
theorem tableIndex?_eq_some_iff :
    i.tableIndex? = some index ↔ i.ReadsTable ∧ i.operands.head? = some index := by
  constructor
  · intro h
    refine ⟨readsTable_of_tableIndex? h, ?_⟩
    cases i <;> cases h <;> rfl
  · rintro ⟨⟨m, t, t', s, hne⟩, hhead⟩
    cases i with
    | load _ => exact hhead
    | swap => exact absurd rfl hne
    | combine2 _ _ _ => exact absurd rfl hne
    | combineIndexed _ _ _ _ => exact hhead

end Table

/-! ### Writing and decoding -/

/-- **Decoding undoes writing.**  A tag and operands decode to an instruction just if they are its
tag and its operands in order, so that an instruction is decoded from one writing only, and from
that one always.  A tag is unknown just if it is not one from `1` to `4`, and the number of operands
is wrong just if the tag is known and asks for another number.  Decoding by the lowest byte of the
tag is the same, and looks up no operand that is not there.  The first operand is a table index just
if the instruction reads the table, and only the word there matters then, and how many there are. -/
theorem decode_inverts_writing (tag : Int64) (operands : List Int64) :
    (∀ i : Instruction, decode tag operands = .ok i ↔ tag.toInt = i.tag ∧ i.operands = operands) ∧
      (∀ i : Instruction, decode (.ofNat i.tag) i.operands = .ok i) ∧
      (∀ tag' operands' i, decode tag operands = .ok i → decode tag' operands' = .ok i →
        tag' = tag ∧ operands' = operands) ∧
      (∀ tag', decode tag operands = .error (.unknownTag tag') ↔
        ¬ (1 ≤ tag.toInt ∧ tag.toInt ≤ 4) ∧ tag' = tag) ∧
      (∀ op found, decode tag operands = .error (.operandCount op found) ↔
        tag.toInt = op.tag ∧ arity? tag = some op.arity ∧ operands.length ≠ op.arity ∧
          found = operands.length) ∧
      decodeByByte? tag operands = some (decode tag operands) ∧
      (∀ i : Instruction, ∀ index, i.tableIndex? = some index ↔
        i.ReadsTable ∧ i.operands.head? = some index) ∧
      ∀ (i : Instruction) (m : Modulus) (t t' : Table) (s : Stack Int64),
        (∀ index ∈ i.tableIndex?, t.get? index = t'.get? index ∧ t.size = t'.size) →
          execute m t i s = execute m t' i s := by
  refine ⟨fun i => decode_eq_ok_iff, fun i => ?_, fun tag' operands' i h h' => ?_,
    fun tag' => decode_eq_unknownTag_iff, fun op found => decode_eq_operandCount_iff,
    decodeByByte?_eq tag operands, fun i index => tableIndex?_eq_some_iff,
    fun i m t t' s h => execute_congr m s h⟩
  · exact decode_eq_ok_iff.2 ⟨by cases i <;> rfl, rfl⟩
  · obtain ⟨htag, rfl⟩ := decode_eq_ok_iff.1 h
    obtain ⟨htag', rfl⟩ := decode_eq_ok_iff.1 h'
    exact ⟨Int64.toInt_inj.1 (htag'.trans htag.symm), rfl⟩

/-- A tag is not taken for the one that its lowest byte is. -/
example : decode 257 [1] = .error (.unknownTag 257) ∧ (257 : Int64).toUInt64.toUInt8 = 1 :=
  ⟨rfl, rfl⟩

end Instruction

end ResidueMachine
