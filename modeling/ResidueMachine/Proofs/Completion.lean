import Mathlib.Order.Bounds.Basic
import ResidueMachine.Proofs.Loading

/-!
# Rows of numbers and what completes them

A row of 64-bit integers is complete if it is all the numbers of some code, and extensible if
something completes it.  Where a row breaks off, what has been read of it decides what its next
number would stand for: the item is *due* (`IsDue`), and it is the same in all completions.

* `IsComplete.eq_of_prefix` : no complete row is a proper prefix of another;
* `isDue_modulus`, `isDue_tableSize`, `isDue_instructionCount`, `isDue_tableWord`, `isDue_tag`,
  `isDue_operand` : what is due after the first parts of a row;
* `IsDue.not_isExtensible` : a number that the item refuses leaves nothing to complete.
-/

namespace ResidueMachine

/-! ### What numbers stand for -/

/-- What the numbers of the instruction at a position stand for. -/
def Instruction.items (position : Nat) (i : Instruction) : List Item :=
  .tag position :: (List.range' 1 i.operands.length).map (.operand · position)

/-- What the numbers of a program stand for, its first instruction having the given position. -/
def Program.items : (position : Nat) → Program → List Item
  | _, [] => []
  | position, i :: rest => i.items position ++ items (position + 1) rest

/-- What the numbers of code stand for. -/
def Code.items (c : Code) : List Item :=
  .modulus :: .tableSize :: .instructionCount ::
    ((List.range' 1 c.table.size).map .tableWord ++ c.program.items 1)

/-- A number that cannot stand for an item, and what is wrong with it. -/
inductive Item.Refuses : Item → Int64 → LoadFault → Prop
  /-- A modulus is positive. -/
  | modulus {value : Int64} : value.toInt ≤ 0 → Refuses .modulus value (.nonPositiveModulus value)
  /-- A size is not negative. -/
  | tableSize {value : Int64} :
    value.toInt < 0 → Refuses .tableSize value (.negativeCount .tableSize value)
  /-- A count is not negative. -/
  | instructionCount {value : Int64} :
    value.toInt < 0 → Refuses .instructionCount value (.negativeCount .instructionCount value)
  /-- A tag is that of a kind of instruction. -/
  | tag {position : Nat} {value : Int64} : (∀ op : Opcode, value.toInt ≠ op.tag) →
      Refuses (.tag position) value (.instruction (.unknownTag value))

theorem Opcode.tag_inj {op op' : Opcode} (h : op.tag = op'.tag) : op = op' := by
  cases op <;> cases op' <;> first | rfl | cases h

/-! ### Complete rows -/

/-- The row is made of 64-bit integers, and is all the numbers of some code. -/
def IsComplete (row : List Int) : Prop :=
  (∀ number ∈ row, Numeral.FitsWord number) ∧ ∃ c : Code, c.numbers = row

/-- Something completes the row. -/
def IsExtensible (row : List Int) : Prop :=
  ∃ full, IsComplete full ∧ row <+: full

/-- Something completes the row, and the row needs it. -/
def IsUnfinished (row : List Int) : Prop :=
  ∃ full, IsComplete full ∧ row <+: full ∧ row ≠ full

/-- Numbers follow those of a complete row. -/
def HasSurplus (row : List Int) : Prop :=
  ∃ full, IsComplete full ∧ full <+: row ∧ full ≠ row

/-- The row can be completed, and goes on with a number that stands for the item whatever
completes it. -/
structure IsDue (item : Item) (row : List Int) : Prop where
  /-- Something completes the row. -/
  isExtensible : IsExtensible row
  /-- The next number stands for the item. -/
  getElem?_items : ∀ c : Code, row <+: c.numbers → c.items[row.length]? = some item

/-- **No complete row is a proper prefix of another.** -/
theorem IsComplete.eq_of_prefix {row full : List Int} (hrow : IsComplete row)
    (hfull : IsComplete full) (h : row <+: full) : row = full := by
  obtain ⟨-, c, rfl⟩ := hrow
  obtain ⟨-, d, rfl⟩ := hfull
  obtain ⟨more, hmore⟩ := h
  rw [← List.append_nil d.numbers] at hmore
  rw [(Code.numbers_append_inj hmore).1]

theorem IsComplete.isExtensible {row : List Int} (h : IsComplete row) : IsExtensible row :=
  ⟨row, h, List.prefix_rfl⟩

theorem IsComplete.not_isUnfinished {row : List Int} (h : IsComplete row) : ¬ IsUnfinished row := by
  rintro ⟨full, hfull, hrow, hne⟩
  exact hne (h.eq_of_prefix hfull hrow)

theorem IsComplete.not_hasSurplus {row : List Int} (h : IsComplete row) : ¬ HasSurplus row := by
  rintro ⟨full, hfull, hrow, hne⟩
  exact hne (hfull.eq_of_prefix h hrow)

theorem HasSurplus.not_isExtensible {row : List Int} (h : HasSurplus row) : ¬ IsExtensible row := by
  obtain ⟨full, hfull, hrow, hne⟩ := h
  rintro ⟨more, hmore, hbegins⟩
  obtain rfl := hfull.eq_of_prefix hmore (hrow.trans hbegins)
  exact hne (hrow.eq_of_length (Nat.le_antisymm hrow.length_le hbegins.length_le))

theorem HasSurplus.not_isComplete {row : List Int} (h : HasSurplus row) : ¬ IsComplete row :=
  fun hcomplete => hcomplete.not_hasSurplus h

theorem IsComplete.hasSurplus_append {row more : List Int} (h : IsComplete row)
    (hmore : more ≠ []) : HasSurplus (row ++ more) :=
  ⟨row, h, List.prefix_append row more, fun heq => hmore (List.self_eq_append_right.1 heq)⟩

theorem IsUnfinished.isExtensible {row : List Int} (h : IsUnfinished row) : IsExtensible row := by
  obtain ⟨full, hfull, hrow, -⟩ := h
  exact ⟨full, hfull, hrow⟩

theorem HasSurplus.not_isUnfinished {row : List Int} (h : HasSurplus row) : ¬ IsUnfinished row :=
  fun hunfinished => h.not_isExtensible hunfinished.isExtensible

theorem IsExtensible.of_prefix {row more : List Int} (h : IsExtensible more) (hrow : row <+: more) :
    IsExtensible row := by
  obtain ⟨full, hfull, hmore⟩ := h
  exact ⟨full, hfull, hrow.trans hmore⟩

theorem not_isExtensible_append {row more : List Int} {number : Int}
    (h : ¬ IsExtensible (row ++ [number])) : ¬ IsExtensible (row ++ number :: more) := by
  intro hmore
  refine h (hmore.of_prefix ?_)
  rw [List.prefix_append_right_inj]
  exact List.prefix_append [number] more

/-- Where the next number leaves nothing to complete, the row can first no longer be completed. -/
theorem isLeast_not_isExtensible {row more : List Int} {number : Int} (hrow : IsExtensible row)
    (hnot : ¬ IsExtensible (row ++ [number])) :
    IsLeast {j | ¬ IsExtensible ((row ++ number :: more).take (j + 1))} row.length := by
  constructor
  · rw [Set.mem_ofPred_eq, List.take_append, Nat.add_sub_cancel_left,
      List.take_of_length_le (Nat.le_succ _)]
    exact hnot
  · intro j hj
    refine Nat.le_of_not_lt fun hlt => hj ?_
    rw [List.take_append_of_le_length hlt]
    exact hrow.of_prefix (List.take_prefix _ _)

/-! ### One item for each number -/

@[simp] theorem Instruction.length_items (position : Nat) (i : Instruction) :
    (i.items position).length = i.numbers.length := by
  rw [numbers_eq_cons, items, List.length_cons, List.length_cons, List.length_map, List.length_map,
    List.length_range']

@[simp] theorem Program.length_items (position : Nat) (p : Program) :
    (p.items position).length = (p.flatMap Instruction.numbers).length := by
  induction p generalizing position with
  | nil => rfl
  | cons i rest ih =>
    rw [items, List.length_append, ih, List.flatMap_cons, List.length_append,
      Instruction.length_items]

theorem Program.items_append (position : Nat) (p q : Program) :
    items position (p ++ q) = p.items position ++ q.items (position + p.length) := by
  induction p generalizing position with
  | nil => rfl
  | cons i rest ih =>
    rw [List.cons_append, items, items, ih, List.length_cons, List.append_assoc,
      Nat.add_right_comm, Nat.add_assoc position]

theorem Code.length_items (c : Code) : c.items.length = c.numbers.length := by
  simp [items, numbers]

theorem IsDue.not_isComplete {item : Item} {row : List Int} (h : IsDue item row) :
    ¬ IsComplete row := by
  rintro ⟨-, c, rfl⟩
  have hitem := h.getElem?_items c List.prefix_rfl
  rw [← c.length_items, List.getElem?_length] at hitem
  cases hitem

theorem IsDue.isUnfinished {item : Item} {row : List Int} (h : IsDue item row) :
    IsUnfinished row := by
  obtain ⟨full, hfull, hrow⟩ := h.isExtensible
  refine ⟨full, hfull, hrow, ?_⟩
  rintro rfl
  exact h.not_isComplete hfull

theorem IsDue.not_hasSurplus_append {item : Item} {row more : List Int} {number : Int}
    (h : IsDue item row) (hnot : ¬ IsExtensible (row ++ [number])) :
    ¬ HasSurplus (row ++ number :: more) := by
  rintro ⟨full, hfull, hbegins, -⟩
  have hnext : row ++ [number] <+: row ++ number :: more :=
    (List.prefix_append_right_inj row).2 (List.prefix_append [number] more)
  rcases List.prefix_or_prefix_of_prefix hbegins hnext with hle | hle
  · rcases List.prefix_concat_iff.1 hle with rfl | hle
    · exact hnot hfull.isExtensible
    · -- a complete row within the row is all of what completes it, and so the row itself
      obtain ⟨full', hfull', hrow⟩ := h.isExtensible
      obtain rfl := hfull.eq_of_prefix hfull' (hle.trans hrow)
      obtain rfl := hle.eq_of_length (Nat.le_antisymm hle.length_le hrow.length_le)
      exact h.not_isComplete hfull
  · exact hnot (hfull.isExtensible.of_prefix hle)

/-! ### Numbers that are refused -/

theorem Instruction.not_refuses {position k : Nat} {i : Instruction} {item : Item} {value : Int64}
    {fault : LoadFault} (hitem : (i.items position)[k]? = some item)
    (hnumber : i.numbers[k]? = some value.toInt) : ¬ item.Refuses value fault := by
  rw [numbers_eq_cons] at hnumber
  cases k with
  | zero =>
    cases hitem
    intro hrefuses
    cases hrefuses with
    | tag htag => exact htag i.opcode (Option.some.inj hnumber).symm
  | succ k =>
    rw [items, List.getElem?_cons_succ, List.getElem?_map, Option.map_eq_some_iff] at hitem
    obtain ⟨number, -, rfl⟩ := hitem
    rintro ⟨⟩

theorem Program.not_refuses {position k : Nat} {p : Program} {item : Item} {value : Int64}
    {fault : LoadFault} (hitem : (p.items position)[k]? = some item)
    (hnumber : (p.flatMap Instruction.numbers)[k]? = some value.toInt) :
    ¬ item.Refuses value fault := by
  induction p generalizing position k with
  | nil => cases hitem
  | cons i rest ih =>
    rw [items] at hitem
    rw [List.flatMap_cons] at hnumber
    by_cases hk : k < i.numbers.length
    · rw [List.getElem?_append_left (by rwa [Instruction.length_items])] at hitem
      rw [List.getElem?_append_left hk] at hnumber
      exact Instruction.not_refuses hitem hnumber
    · have hk := Nat.le_of_not_lt hk
      rw [List.getElem?_append_right (by rwa [Instruction.length_items]),
        Instruction.length_items] at hitem
      rw [List.getElem?_append_right hk] at hnumber
      exact ih hitem hnumber

/-- **No number of code is refused** by the item that it stands for. -/
theorem Code.not_refuses {c : Code} {k : Nat} {item : Item} {value : Int64} {fault : LoadFault}
    (hitem : c.items[k]? = some item) (hnumber : c.numbers[k]? = some value.toInt) :
    ¬ item.Refuses value fault := by
  match k with
  | 0 =>
    cases hitem
    intro hrefuses
    cases hrefuses with
    | modulus hvalue =>
      rw [← Option.some.inj hnumber] at hvalue
      exact absurd c.modulus.pos (Int.not_lt.2 hvalue)
  | 1 =>
    cases hitem
    intro hrefuses
    cases hrefuses with
    | tableSize hvalue =>
      rw [← Option.some.inj hnumber] at hvalue
      omega
  | 2 =>
    cases hitem
    intro hrefuses
    cases hrefuses with
    | instructionCount hvalue =>
      rw [← Option.some.inj hnumber] at hvalue
      omega
  | k + 3 =>
    simp only [items, numbers, List.getElem?_cons_succ] at hitem hnumber
    by_cases hk : k < c.table.size
    · rw [List.getElem?_append_left (by simpa using hk), List.getElem?_map,
        Option.map_eq_some_iff] at hitem
      obtain ⟨index, -, rfl⟩ := hitem
      rintro ⟨⟩
    · have hk := Nat.le_of_not_lt hk
      rw [List.getElem?_append_right (by simpa using hk), List.length_map,
        List.length_range'] at hitem
      rw [List.getElem?_append_right (by simpa using hk), List.length_map,
        Table.length_toList] at hnumber
      exact Program.not_refuses hitem hnumber

/-- **A number that is refused leaves nothing to complete.** -/
theorem IsDue.not_isExtensible {item : Item} {row : List Int} {value : Int64} {fault : LoadFault}
    (h : IsDue item row) (hrefuses : item.Refuses value fault) :
    ¬ IsExtensible (row ++ [value.toInt]) := by
  rintro ⟨_, ⟨-, c, rfl⟩, more, hmore⟩
  have hnumber : c.numbers[row.length]? = some value.toInt := by
    rw [← hmore, List.append_assoc, List.getElem?_append_right (Nat.le_refl _), Nat.sub_self]
    rfl
  have hrow : row <+: c.numbers := ⟨value.toInt :: more, by rw [← hmore]; simp⟩
  exact Code.not_refuses (h.getElem?_items c hrow) hnumber hrefuses

/-- A row that goes on with a number that is refused is broken there: it is of none of the kinds
that are about complete rows. -/
theorem IsDue.broken_of_refuses {item : Item} {row : List Int} {value : Int64} {fault : LoadFault}
    (h : IsDue item row) (hrefuses : item.Refuses value fault) (more : List Int) :
    ¬ IsComplete (row ++ value.toInt :: more) ∧ ¬ IsUnfinished (row ++ value.toInt :: more) ∧
      ¬ HasSurplus (row ++ value.toInt :: more) ∧
      IsLeast {j | ¬ IsExtensible ((row ++ value.toInt :: more).take (j + 1))} row.length := by
  have hnext := h.not_isExtensible hrefuses
  have hnot : ¬ IsExtensible (row ++ value.toInt :: more) := not_isExtensible_append hnext
  exact ⟨fun hcomplete => hnot hcomplete.isExtensible,
    fun hunfinished => hnot hunfinished.isExtensible, h.not_hasSurplus_append hnext,
    isLeast_not_isExtensible h.isExtensible hnext⟩

/-! ### Completing rows -/

theorem fitsWord_zero : Numeral.FitsWord (0 : Nat) := by
  decide

/-- Code that starts as given and then fills up its counts: the table with zeros, the program with
swaps. -/
def Code.filled (m : Modulus) (size length : Nat) (words : List Int64) (p : Program) : Code :=
  ⟨m, ⟨(words ++ List.replicate (size - words.length) 0).toArray⟩,
    p ++ List.replicate (length - p.length) .swap⟩

/-- **A row that keeps to its counts can be completed**, if it has no instructions before all of the
table. -/
theorem isExtensible_of_le (m : Modulus) {size length : Nat} (words : List Int64) (p : Program)
    (hsize : Numeral.FitsWord size) (hlength : Numeral.FitsWord length)
    (hwords : words.length ≤ size) (hp : p.length ≤ length)
    (htable : words.length = size ∨ p = []) :
    IsExtensible (m.val.toInt :: (size : Int) :: (length : Int) ::
      (words.map Int64.toInt ++ p.flatMap Instruction.numbers)) := by
  have htableSize : (Code.filled m size length words p).table.size = size := by
    simp only [Code.filled, Table.size, List.size_toArray, List.length_append,
      List.length_replicate]
    omega
  have hprogramLength : (Code.filled m size length words p).program.length = length := by
    simp only [Code.filled, List.length_append, List.length_replicate]
    omega
  refine ⟨(Code.filled m size length words p).numbers, ⟨?_, _, rfl⟩, ?_⟩
  · refine Code.fitsWord_of_mem_numbers ?_ ?_
    · rwa [htableSize]
    · rwa [hprogramLength]
  · rw [Code.numbers, htableSize, hprogramLength, List.cons_prefix_cons, List.cons_prefix_cons,
      List.cons_prefix_cons]
    refine ⟨rfl, rfl, rfl, ?_⟩
    simp only [Code.filled, Table.toList, List.map_append, List.flatMap_append]
    rcases htable with rfl | rfl
    · rw [Nat.sub_self, List.replicate_zero, List.map_nil, List.append_nil, ← List.append_assoc]
      exact List.prefix_append _ _
    · rw [List.flatMap_nil, List.append_nil, List.append_assoc]
      exact List.prefix_append _ _

/-! ### What rows say about code that they are a prefix of -/

theorem Program.exists_eq_append_cons {p q : Program} {more : List Int}
    (hlength : p.length < q.length)
    (h : p.flatMap Instruction.numbers ++ more <+: q.flatMap Instruction.numbers) :
    ∃ i rest, q = p ++ i :: rest ∧ more <+: i.numbers ++ rest.flatMap Instruction.numbers := by
  obtain ⟨tail, htail⟩ := h
  have hsplit : q = q.take p.length ++ q[p.length] :: q.drop (p.length + 1) := by
    rw [← List.drop_eq_getElem_cons, List.take_append_drop]
  have htake : p.length = (q.take p.length).length :=
    (List.length_take_of_le (Nat.le_of_lt hlength)).symm
  rw [hsplit, List.flatMap_append, List.append_assoc] at htail
  obtain ⟨heq, hmore⟩ := numbers_append_inj htake htail
  rw [← heq] at hsplit
  exact ⟨_, _, hsplit, tail, by rw [hmore, List.flatMap_cons]⟩

section Prefix

variable {c : Code} {m size length : Int} {words : List Int64} {more : List Int}

theorem Code.header_of_prefix (h : m :: size :: length :: more <+: c.numbers) :
    (c.table.size : Int) = size ∧ (c.program.length : Int) = length ∧
      more <+: c.table.toList.map Int64.toInt ++ c.program.flatMap Instruction.numbers := by
  rw [Code.numbers, List.cons_prefix_cons, List.cons_prefix_cons, List.cons_prefix_cons] at h
  obtain ⟨-, hsize, hlength, hmore⟩ := h
  exact ⟨hsize.symm, hlength.symm, hmore⟩

theorem Code.program_of_prefix (hwords : c.table.size = words.length)
    (h : words.map Int64.toInt ++ more <+:
      c.table.toList.map Int64.toInt ++ c.program.flatMap Instruction.numbers) :
    more <+: c.program.flatMap Instruction.numbers := by
  obtain ⟨tail, htail⟩ := h
  rw [List.append_assoc] at htail
  obtain ⟨-, hmore⟩ := List.append_inj htail (by simp [hwords])
  exact ⟨tail, hmore⟩

theorem Code.getElem?_items_program (c : Code) (k : Nat) :
    c.items[c.table.size + k + 3]? = (c.program.items 1)[k]? := by
  rw [items, List.getElem?_cons_succ, List.getElem?_cons_succ, List.getElem?_cons_succ,
    List.getElem?_append_right (by simp)]
  simp

end Prefix

/-! ### What is due -/

section Due

variable {m : Modulus} {size length : Nat} {words : List Int64} {p : Program}

theorem isDue_modulus : IsDue .modulus [] where
  isExtensible := by
    have hrow := isExtensible_of_le ⟨1, by decide⟩ [] [] fitsWord_zero fitsWord_zero
      (Nat.le_refl 0) (Nat.le_refl 0) (.inl rfl)
    exact hrow.of_prefix List.nil_prefix
  getElem?_items _ _ := rfl

theorem isDue_tableSize (m : Modulus) : IsDue .tableSize [m.val.toInt] where
  isExtensible := by
    have hrow := isExtensible_of_le m [] [] fitsWord_zero fitsWord_zero (Nat.le_refl 0)
      (Nat.le_refl 0) (.inl rfl)
    exact hrow.of_prefix (List.prefix_append [_] _)
  getElem?_items _ _ := rfl

theorem isDue_instructionCount (m : Modulus) (hsize : Numeral.FitsWord size) :
    IsDue .instructionCount [m.val.toInt, size] where
  isExtensible := by
    have hrow := isExtensible_of_le m [] [] hsize fitsWord_zero (Nat.zero_le size) (Nat.le_refl 0)
      (.inr rfl)
    exact hrow.of_prefix (List.prefix_append [_, _] _)
  getElem?_items _ _ := rfl

theorem isDue_tableWord (m : Modulus) (hsize : Numeral.FitsWord size)
    (hlength : Numeral.FitsWord length) (hwords : words.length < size) :
    IsDue (.tableWord (words.length + 1))
      (m.val.toInt :: (size : Int) :: (length : Int) :: words.map Int64.toInt) where
  isExtensible := by
    have hrow := isExtensible_of_le m words [] hsize hlength (Nat.le_of_lt hwords)
      (Nat.zero_le length) (.inr rfl)
    rwa [List.flatMap_nil, List.append_nil] at hrow
  getElem?_items c hc := by
    obtain ⟨htable, -, -⟩ := Code.header_of_prefix hc
    have hword : words.length < c.table.size := by omega
    simp only [Code.items, List.length_cons, List.length_map, List.getElem?_cons_succ]
    rw [List.getElem?_append_left (by simpa using hword), List.getElem?_map,
      List.getElem?_range' hword]
    simp [Nat.add_comm]

theorem isDue_tag (m : Modulus) (hsize : Numeral.FitsWord words.length)
    (hlength : Numeral.FitsWord length) (hp : p.length < length) :
    IsDue (.tag (p.length + 1))
      (m.val.toInt :: (words.length : Int) :: (length : Int) ::
        (words.map Int64.toInt ++ p.flatMap Instruction.numbers)) where
  isExtensible :=
    isExtensible_of_le m words p hsize hlength (Nat.le_refl _) (Nat.le_of_lt hp) (.inl rfl)
  getElem?_items c hc := by
    obtain ⟨htable, hprogram, hmore⟩ := Code.header_of_prefix hc
    have htable : c.table.size = words.length := Int.ofNat_inj.1 htable
    have hmore := Code.program_of_prefix htable hmore
    rw [← List.append_nil (p.flatMap _)] at hmore
    obtain ⟨i, rest, hrest, -⟩ := Program.exists_eq_append_cons (by omega) hmore
    rw [List.length_cons, List.length_cons, List.length_cons, List.length_append, List.length_map,
      ← htable, Code.getElem?_items_program, hrest, Program.items_append, ← Program.length_items 1,
      List.getElem?_append_right (Nat.le_refl _), Nat.sub_self, Nat.add_comm 1]
    rfl

theorem isDue_operand (m : Modulus) (hsize : Numeral.FitsWord words.length)
    (hlength : Numeral.FitsWord length) (hp : p.length < length) {op : Opcode}
    {operands : List Int64} (hoperands : operands.length < op.arity) :
    IsDue (.operand (operands.length + 1) (p.length + 1))
      (m.val.toInt :: (words.length : Int) :: (length : Int) ::
        (words.map Int64.toInt ++
          (p.flatMap Instruction.numbers ++ (op.tag : Int) :: operands.map Int64.toInt))) where
  isExtensible := by
    obtain ⟨i, rfl, hi⟩ := Instruction.exists_of_opcode op
      (operands ++ List.replicate (op.arity - operands.length) 0)
      (by rw [List.length_append, List.length_replicate]; omega)
    have hrow := isExtensible_of_le m words (p ++ [i]) hsize hlength (Nat.le_refl _)
      (by rw [List.length_append]; exact hp) (.inl rfl)
    refine hrow.of_prefix ?_
    rw [List.flatMap_append, List.flatMap_singleton, Instruction.numbers_eq_cons, hi,
      List.map_append]
    simp only [List.cons_prefix_cons, List.prefix_append_right_inj, true_and]
    exact ⟨rfl, List.prefix_append _ _⟩
  getElem?_items c hc := by
    obtain ⟨htable, hprogram, hmore⟩ := Code.header_of_prefix hc
    have htable : c.table.size = words.length := Int.ofNat_inj.1 htable
    obtain ⟨i, rest, hrest, hmore⟩ :=
      Program.exists_eq_append_cons (by omega) (Code.program_of_prefix htable hmore)
    rw [Instruction.numbers_eq_cons, List.cons_append, List.cons_prefix_cons] at hmore
    have hop : op.arity = i.operands.length := by
      rw [Instruction.length_operands, Opcode.tag_inj (Int.ofNat_inj.1 hmore.1)]
    rw [hop] at hoperands
    simp only [List.length_cons, List.length_append, List.length_map]
    rw [← htable, Code.getElem?_items_program, hrest, Program.items_append,
      ← Program.length_items 1, List.getElem?_append_right (Nat.le_add_right _ _),
      Nat.add_sub_cancel_left, Program.items, Instruction.items, List.cons_append,
      List.getElem?_cons_succ, List.getElem?_append_left (by simpa using hoperands),
      List.getElem?_map, List.getElem?_range' hoperands]
    simp [Nat.add_comm]

end Due

end ResidueMachine
