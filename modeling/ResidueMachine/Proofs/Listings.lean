import ResidueMachine.Code.Listing
import ResidueMachine.Proofs.Spelling

/-!
# What a listing tells

A listing shows code in columns, and a number or an instruction that is wider than its column moves
what follows it to the right.  So the place of a character in a line tells nothing.  The words of
the listing do: read from the first to the last, without a look at blanks and line ends, they give
back all of the code.  Nothing in them says how many entries or operands follow, but each line of
the table and of the program begins with a word that cannot be the one behind the last line, and the
name of an instruction tells how many operands it has.

* `HasWords` : the words of a text, whatever blanks stand between them;
* `hasWords_listing` : the words of a listing;
* `instructionWords_append_inj`, `tableRows_append_inj` : the words of an instruction and those of a
  table tell it, and where they end;
* `Code.listing_eq_iff` : different code has different listings.
-/

namespace ResidueMachine

/-! ### Words -/

/-- The text is not empty and has no blank. -/
def IsWord (word : String) : Prop :=
  word ≠ "" ∧ ∀ c ∈ word.toList, isSolid c

instance (word : String) : Decidable (IsWord word) :=
  decidable_of_iff (word ≠ "" ∧ word.toList.all isSolid) (by simp [IsWord])

/-- The words of a text, whatever blanks stand between them. -/
def HasWords (text : List Char) (words : List String) : Prop :=
  ∀ offset, ∃ runs, MaximalRuns offset text runs ∧
    runs.map Lexeme.text = words.map String.toList

/-- Words in a line of their own, behind an indentation. -/
def indentedRow (indent : Nat) (words : List String) : List Char :=
  List.replicate indent ' ' ++ (" ".intercalate words).toList

section Words

variable {text text' : List Char} {words words' : List String} {word word' : String}

theorem HasWords.nil : HasWords [] [] := by
  intro offset
  exact ⟨[], .nil, rfl⟩

theorem HasWords.blank {c : Char} (hc : isBlank c) (h : HasWords text words) :
    HasWords (c :: text) words := by
  intro offset
  obtain ⟨runs, hruns, hwords⟩ := h (offset + c.utf8Size)
  exact ⟨runs, .blank hc hruns, hwords⟩

theorem HasWords.append (h : HasWords text words) (hend : ∀ c ∈ text'.head?, isBlank c)
    (h' : HasWords text' words') : HasWords (text ++ text') (words ++ words') := by
  intro offset
  obtain ⟨runs, hruns, hwords⟩ := h offset
  obtain ⟨runs', hruns', hwords'⟩ := h' (offset + byteLength text)
  exact ⟨runs ++ runs', hruns.append hend hruns', by
    rw [List.map_append, List.map_append, hwords, hwords']⟩

theorem HasWords.unique (h : HasWords text words) (h' : HasWords text words') :
    words = words' := by
  obtain ⟨runs, hruns, hwords⟩ := h 0
  obtain ⟨runs', hruns', hwords'⟩ := h' 0
  rw [← maximalRuns_iff.1 hruns, maximalRuns_iff.1 hruns', hwords'] at hwords
  exact (List.map_injective_iff.2 (fun _ _ => String.toList_inj.1) hwords).symm

theorem hasWords_word (h : IsWord word) : HasWords word.toList [word] := by
  intro offset
  have hne : word.toList ≠ [] := by
    rw [Ne, String.toList_eq_nil_iff]
    exact h.1
  have hrun : MaximalRuns offset (word.toList ++ []) [⟨word.toList, offset⟩] :=
    .run hne h.2 (by simp) .nil
  rw [List.append_nil] at hrun
  exact ⟨_, hrun, rfl⟩

theorem hasWords_intercalate {c : Char} (hc : isBlank c) {texts : List (List Char)}
    {rows : List (List String)} (h : List.Forall₂ HasWords texts rows) :
    HasWords ([c].intercalate texts) rows.flatten := by
  induction h with
  | nil => exact .nil
  | @cons text words texts rows hfirst hrest ih =>
    cases hrest with
    | nil =>
      rw [List.intercalate_singleton, List.flatten_singleton]
      exact hfirst
    | cons _ _ =>
      rw [List.intercalate_cons_cons, List.append_assoc, List.flatten_cons]
      refine hfirst.append ?_ (.blank hc ih)
      rintro d ⟨⟩
      exact hc

theorem hasWords_indentedRow (indent : Nat) (h : ∀ word ∈ words, IsWord word) :
    HasWords (indentedRow indent words) words := by
  induction indent with
  | zero =>
    have hwords : List.Forall₂ HasWords (words.map String.toList)
        (words.map fun word => [word]) := by
      rw [List.forall₂_map_left_iff, List.forall₂_map_right_iff, List.forall₂_same]
      exact fun word hword => hasWords_word (h word hword)
    have hjoined := hasWords_intercalate (c := ' ') (by decide) hwords
    rw [← List.flatMap_def, List.flatMap_singleton'] at hjoined
    rw [indentedRow, String.toList_intercalate]
    exact hjoined
  | succ indent ih => exact .blank (by decide) ih

@[simp] theorem indentedRow_singleton {indent : Nat} :
    indentedRow indent [word] = List.replicate indent ' ' ++ word.toList := by
  rw [indentedRow, String.toList_intercalate, List.map_singleton, List.intercalate_singleton]

@[simp] theorem indentedRow_cons_cons {indent : Nat} :
    indentedRow indent (word :: word' :: words) =
      List.replicate indent ' ' ++ word.toList ++ indentedRow 1 (word' :: words) := by
  simp [indentedRow, String.toList_intercalate]

theorem HasWords.append_row (h : HasWords text words) (indent : Nat)
    (h' : ∀ word ∈ words', IsWord word) :
    HasWords (text ++ indentedRow (indent + 1) words') (words ++ words') := by
  refine h.append ?_ (hasWords_indentedRow _ h')
  rintro c ⟨⟩
  decide

theorem IsWord.append (h : IsWord word) (h' : IsWord word') : IsWord (word ++ word') := by
  refine ⟨?_, ?_⟩
  · rw [Ne, String.append_eq_empty_iff]
    exact fun hempty => h.1 hempty.1
  · rw [String.toList_append, List.forall_mem_append]
    exact ⟨h.2, h'.2⟩

theorem isWord_repr (number : Int) : IsWord number.repr := by
  have hwrites := Numeral.writes_repr number
  refine ⟨?_, hwrites.isSolid_of_mem⟩
  rw [Ne, ← String.toList_eq_nil_iff]
  exact hwrites.ne_nil

theorem isWord_nat_repr (number : Nat) : IsWord number.repr :=
  isWord_repr number

end Words

/-! ### The words of a listing -/

/-- The words of the line of an instruction at a position. -/
def instructionWords (entry : Instruction × Nat) : List String :=
  entry.2.repr :: entry.1.opcode.mnemonic :: entry.1.operands.map toString ++
    [";", "-" ++ entry.1.effect.pops.repr, "+" ++ entry.1.effect.pushes.repr]

/-- The words of the line of a word at an index of the table. -/
def entryWords (entry : Int64 × Nat) : List String :=
  ["[" ++ entry.2.repr ++ "]", "=", toString entry.1]

/-- The words of the lines of a table. -/
def tableRows (t : Table) : List (List String) :=
  if t.isEmpty then [["table:", "[]"]]
  else ["table:", "["] :: (t.toList.zipIdx 1).map entryWords ++ [["]"]]

/-- The words of the lines of a listing. -/
def listingRows (c : Code) : List (List String) :=
  [["Code", "\x7b"], ["modulus:", c.modulus.display]] ++ tableRows c.table ++
    [["instructions:"]] ++ (c.program.zipIdx 1).map instructionWords ++ [["\x7d"]]

section Lines

theorem toList_alignRight (width : Nat) (text : String) :
    (alignRight width text).toList = List.replicate (width - text.length) ' ' ++ text.toList := by
  rw [alignRight, String.toList_ofList, List.leftpad, String.length_toList]

theorem toList_alignLeft (width : Nat) (text : String) :
    (alignLeft width text).toList = text.toList ++ List.replicate (width - text.length) ' ' := by
  rw [alignLeft, String.toList_ofList, List.rightpad, String.length_toList]

/-- The line of an instruction consists of three rows.  A number or an instruction that is wider
than its column leaves at least one blank in front of the next row. -/
theorem toList_instructionLine (i : Instruction) (position : Nat) :
    (Code.instructionLine i position).toList =
      indentedRow (4 + (4 - position.repr.length)) [position.repr] ++
        indentedRow 2 (i.opcode.mnemonic :: i.operands.map toString) ++
        indentedRow (28 - i.display.length + 1)
          [";", "-" ++ i.effect.pops.repr, "+" ++ i.effect.pushes.repr] := by
  have hline : Code.instructionLine i position =
      "    " ++ alignRight 4 position.repr ++ "  " ++ alignLeft 28 i.display ++ " ; -" ++
        i.effect.pops.repr ++ " +" ++ i.effect.pushes.repr := rfl
  have hdisplay : indentedRow 2 (i.opcode.mnemonic :: i.operands.map toString) =
      "  ".toList ++ i.display.toList := rfl
  rw [hline, hdisplay, indentedRow_cons_cons, indentedRow_cons_cons, indentedRow_singleton,
    indentedRow_singleton, List.replicate_add, List.replicate_succ' (n := 28 - i.display.length)]
  simp only [String.toList_append, toList_alignRight, toList_alignLeft, List.append_assoc]
  rfl

theorem toList_wordLine (word : Int64) (index : Nat) :
    (Code.wordLine word index).toList = indentedRow 4 (entryWords (word, index)) := by
  have hline : Code.wordLine word index = "    [" ++ index.repr ++ "] = " ++ toString word := rfl
  rw [hline, entryWords, indentedRow_cons_cons, indentedRow_cons_cons, indentedRow_singleton]
  simp only [String.toList_append, List.append_assoc]
  rfl

theorem isWord_toString (word : Int64) : IsWord (toString word) :=
  isWord_repr word.toInt

theorem isWord_mnemonic (op : Opcode) : IsWord op.mnemonic := by
  cases op <;> decide

theorem hasWords_instructionLine (i : Instruction) (position : Nat) :
    HasWords (Code.instructionLine i position).toList (instructionWords (i, position)) := by
  have hnumber : ∀ word ∈ [position.repr], IsWord word := by
    simpa using isWord_nat_repr position
  have hinstruction : ∀ word ∈ i.opcode.mnemonic :: i.operands.map toString, IsWord word := by
    rw [List.forall_mem_cons, List.forall_mem_map]
    exact ⟨isWord_mnemonic i.opcode, fun operand _ => isWord_toString operand⟩
  have heffect : ∀ word ∈ [";", "-" ++ i.effect.pops.repr, "+" ++ i.effect.pushes.repr],
      IsWord word := by
    simp only [List.forall_mem_cons]
    exact ⟨by decide, .append (by decide) (isWord_nat_repr _),
      .append (by decide) (isWord_nat_repr _), List.forall_mem_nil _⟩
  rw [toList_instructionLine]
  exact ((hasWords_indentedRow _ hnumber).append_row _ hinstruction).append_row _ heffect

theorem hasWords_wordLine (word : Int64) (index : Nat) :
    HasWords (Code.wordLine word index).toList (entryWords (word, index)) := by
  have hwords : ∀ text ∈ entryWords (word, index), IsWord text := by
    simp only [entryWords, List.forall_mem_cons]
    exact ⟨.append (.append (by decide) (isWord_nat_repr index)) (by decide), by decide,
      isWord_toString word, List.forall_mem_nil _⟩
  rw [toList_wordLine]
  exact hasWords_indentedRow 4 hwords

/-- The lines have the words of the rows, one by one. -/
def LinesHaveWords (lines : List String) (rows : List (List String)) : Prop :=
  List.Forall₂ (fun line words => HasWords line.toList words) lines rows

theorem LinesHaveWords.append {lines lines' : List String} {rows rows' : List (List String)}
    (h : LinesHaveWords lines rows) (h' : LinesHaveWords lines' rows') :
    LinesHaveWords (lines ++ lines') (rows ++ rows') :=
  List.rel_append h h'

theorem linesHaveWords_singleton {line : String} {words : List String} (indent : Nat)
    (h : line.toList = indentedRow indent words ∧ ∀ word ∈ words, IsWord word) :
    LinesHaveWords [line] [words] := by
  refine .cons ?_ .nil
  rw [h.1]
  exact hasWords_indentedRow indent h.2

theorem linesHaveWords_map_zipIdx {α : Type} {line : α → Nat → String}
    {words : α × Nat → List String}
    (h : ∀ a index, HasWords (line a index).toList (words (a, index))) (entries : List α)
    (start : Nat) :
    LinesHaveWords ((entries.zipIdx start).map fun (a, index) => line a index)
      ((entries.zipIdx start).map words) := by
  rw [LinesHaveWords, List.forall₂_map_left_iff, List.forall₂_map_right_iff, List.forall₂_same]
  exact fun entry _ => h entry.1 entry.2

theorem linesHaveWords_table (t : Table) : LinesHaveWords (Code.tableLines t) (tableRows t) := by
  unfold Code.tableLines tableRows
  by_cases h : t.isEmpty
  · rw [if_pos h, if_pos h]
    exact linesHaveWords_singleton 2 (by decide)
  · have hfirst : LinesHaveWords ["  table: ["] [["table:", "["]] :=
      linesHaveWords_singleton 2 (by decide)
    have hwords := linesHaveWords_map_zipIdx hasWords_wordLine t.toList 1
    rw [if_neg h, if_neg h]
    exact (hfirst.append hwords).append (linesHaveWords_singleton 2 (by decide))

theorem linesHaveWords_modulus (m : Modulus) :
    LinesHaveWords [s!"  modulus: {m.display}"] [["modulus:", m.display]] := by
  have hline : ("  modulus: " ++ m.display).toList = indentedRow 2 ["modulus:", m.display] := by
    rw [indentedRow_cons_cons, indentedRow_singleton, String.toList_append]
    rfl
  have hwords : ∀ word ∈ ["modulus:", m.display], IsWord word := by
    simp only [List.forall_mem_cons]
    exact ⟨by decide, isWord_repr m.val.toInt, List.forall_mem_nil _⟩
  exact linesHaveWords_singleton 2 ⟨hline, hwords⟩

/-- **The words of a listing**, whatever blanks pad its columns. -/
theorem hasWords_listing (c : Code) : HasWords c.listing.toList (listingRows c).flatten := by
  have hfirst : LinesHaveWords ["Code \x7b"] [["Code", "\x7b"]] :=
    linesHaveWords_singleton 0 (by decide)
  have hheading : LinesHaveWords ["  instructions:"] [["instructions:"]] :=
    linesHaveWords_singleton 2 (by decide)
  have hlast : LinesHaveWords ["\x7d"] [["\x7d"]] := linesHaveWords_singleton 0 (by decide)
  have hinstructions := linesHaveWords_map_zipIdx hasWords_instructionLine c.program 1
  have hlines : LinesHaveWords c.listingLines (listingRows c) :=
    ((((hfirst.append (linesHaveWords_modulus c.modulus)).append
      (linesHaveWords_table c.table)).append hheading).append hinstructions).append hlast
  rw [Code.listing, String.toList_intercalate]
  refine hasWords_intercalate (by decide) ?_
  rw [List.forall₂_map_left_iff]
  exact hlines

end Lines

/-! ### Code out of words -/

theorem toString_injective : Function.Injective (toString : Int64 → String) := by
  intro word word' h
  have hwrites := Numeral.writes_repr word.toInt
  have htext : word.toInt.repr = word'.toInt.repr := h
  rw [htext] at hwrites
  exact Int64.toInt_inj.1 (hwrites.unique (Numeral.writes_repr word'.toInt))

theorem Opcode.mnemonic_injective : Function.Injective Opcode.mnemonic := by
  intro op op' h
  cases op <;> cases op' <;> first | rfl | exact absurd h (by decide)

theorem Modulus.display_injective : Function.Injective Modulus.display := by
  rintro ⟨word, hpos⟩ ⟨word', hpos'⟩ h
  obtain rfl : word = word' := toString_injective h
  rfl

theorem Table.toList_injective : Function.Injective Table.toList := by
  intro t t' h
  exact congrArg Table.mk (Array.toList_inj.1 h)

theorem Table.toList_of_isEmpty {t : Table} (h : t.isEmpty) : t.toList = [] := by
  rw [toList, Array.isEmpty_iff.1 h]

section Reading

variable {n : Nat} {rest rest' : List String}

/-- **The words of an instruction tell it, and where they end.** -/
theorem instructionWords_append_inj {i i' : Instruction}
    (h : instructionWords (i, n) ++ rest = instructionWords (i', n) ++ rest') :
    i = i' ∧ rest = rest' := by
  simp only [instructionWords, List.cons_append, List.append_assoc, List.cons.injEq] at h
  obtain ⟨-, hmnemonic, hrest⟩ := h
  have hopcode : i.opcode = i'.opcode := Opcode.mnemonic_injective hmnemonic
  have hlength : (i.operands.map toString).length = (i'.operands.map toString).length := by
    rw [List.length_map, List.length_map, Instruction.length_operands,
      Instruction.length_operands, hopcode]
  obtain ⟨htexts, heffects⟩ := List.append_inj hrest hlength
  have hoperands : i.operands = i'.operands :=
    List.map_injective_iff.2 toString_injective htexts
  have hsome : some i = some i' := by
    rw [← Instruction.ofOperands?_operands i, hopcode, hoperands,
      Instruction.ofOperands?_operands i']
  obtain rfl := Option.some.inj hsome
  exact ⟨rfl, by simpa using heffects⟩

theorem entryWords_append_inj {word word' : Int64}
    (h : entryWords (word, n) ++ rest = entryWords (word', n) ++ rest') :
    word = word' ∧ rest = rest' := by
  simp only [entryWords, List.cons_append, List.nil_append, List.cons.injEq] at h
  exact ⟨toString_injective h.2.2.1, h.2.2.2⟩

/-- **The words for the entries of a list tell them, and where they end**, if those for one entry
do, and if none of them begin with the word that stands behind the last entry. -/
theorem flatten_append_inj {α : Type} {words : α × Nat → List String} {stop : String}
    (hentry : ∀ {x y n rest rest'}, words (x, n) ++ rest = words (y, n) ++ rest' →
      x = y ∧ rest = rest')
    (hstop : ∀ {x n rest rest'}, words (x, n) ++ rest ≠ stop :: rest')
    {xs ys : List α}
    (h : ((xs.zipIdx n).map words).flatten ++ stop :: rest =
      ((ys.zipIdx n).map words).flatten ++ stop :: rest') :
    xs = ys ∧ rest = rest' := by
  induction xs generalizing n ys with
  | nil =>
    cases ys with
    | nil => exact ⟨rfl, List.tail_eq_of_cons_eq h⟩
    | cons y ys =>
      rw [List.zipIdx_cons, List.map_cons, List.flatten_cons, List.append_assoc] at h
      exact absurd h.symm hstop
  | cons x xs ih =>
    rw [List.zipIdx_cons, List.map_cons, List.flatten_cons, List.append_assoc] at h
    cases ys with
    | nil => exact absurd h hstop
    | cons y ys =>
      rw [List.zipIdx_cons, List.map_cons, List.flatten_cons, List.append_assoc] at h
      obtain ⟨rfl, hxs⟩ := hentry h
      obtain ⟨rfl, hrest⟩ := ih hxs
      exact ⟨rfl, hrest⟩

theorem flatten_listingRows (c : Code) :
    (listingRows c).flatten =
      "Code" :: "\x7b" :: "modulus:" :: c.modulus.display :: ((tableRows c.table).flatten ++
        "instructions:" :: (((c.program.zipIdx 1).map instructionWords).flatten ++ ["\x7d"])) := by
  simp [listingRows]

/-- The closing bracket of a table begins no line of a word. -/
theorem entryWords_append_ne_stop {entry : Int64 × Nat} :
    entryWords entry ++ rest ≠ "]" :: rest' := by
  intro h
  have hhead := congrArg (·.toList.head?) (List.head_eq_of_cons_eq h)
  simp at hhead

theorem instructionWords_append_ne_stop {entry : Instruction × Nat} :
    instructionWords entry ++ rest ≠ "\x7d" :: rest' := by
  intro h
  have hdigit := (Numeral.digits_repr entry.2).isDigit_of_mem
  rw [List.head_eq_of_cons_eq h] at hdigit
  exact absurd (hdigit '\x7d' (by decide)) (by decide)

theorem tableRows_append_inj {t t' : Table}
    (h : (tableRows t).flatten ++ rest = (tableRows t').flatten ++ rest') :
    t = t' ∧ rest = rest' := by
  unfold tableRows at h
  -- the brackets tell an empty table from the others
  by_cases hempty : t.isEmpty
  · by_cases hempty' : t'.isEmpty
    · rw [if_pos hempty, if_pos hempty'] at h
      have hwords : t.toList = t'.toList := by
        rw [Table.toList_of_isEmpty hempty, Table.toList_of_isEmpty hempty']
      exact ⟨Table.toList_injective hwords, List.append_cancel_left h⟩
    · rw [if_pos hempty, if_neg hempty'] at h
      simp at h
  · by_cases hempty' : t'.isEmpty
    · rw [if_neg hempty, if_pos hempty'] at h
      simp at h
    · rw [if_neg hempty, if_neg hempty'] at h
      simp only [List.flatten_append, List.flatten_cons, List.append_assoc, List.cons_append,
        List.cons.injEq, List.nil_append, List.flatten_nil, true_and] at h
      obtain ⟨hwords, hrest⟩ :=
        flatten_append_inj entryWords_append_inj entryWords_append_ne_stop h
      exact ⟨Table.toList_injective hwords, hrest⟩

end Reading

namespace Code

/-- **A listing tells all of a code.**  Neither a number or an instruction that is wider than its
column, nor a negative number, nor an empty table, nor anything else makes the listings of two codes
alike. -/
theorem listing_eq_iff {c d : Code} : c.listing = d.listing ↔ c = d := by
  constructor
  · intro h
    have hlisting := hasWords_listing c
    rw [h] at hlisting
    have hwords := hlisting.unique (hasWords_listing d)
    rw [flatten_listingRows, flatten_listingRows] at hwords
    simp only [List.cons.injEq, true_and] at hwords
    -- from the first word to the last, each part is told and leaves the words behind it
    obtain ⟨hmodulus, hbehind⟩ := hwords
    obtain ⟨htable, hbehind⟩ := tableRows_append_inj hbehind
    obtain ⟨hprogram, -⟩ := flatten_append_inj instructionWords_append_inj
      instructionWords_append_ne_stop (List.tail_eq_of_cons_eq hbehind)
    calc c = ⟨c.modulus, c.table, c.program⟩ := rfl
      _ = ⟨d.modulus, d.table, d.program⟩ := by
        rw [Modulus.display_injective hmodulus, htable, hprogram]
      _ = d := rfl
  · exact congrArg listing

end Code

end ResidueMachine
