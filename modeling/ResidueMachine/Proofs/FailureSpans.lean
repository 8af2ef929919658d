import ResidueMachine.Diagnostic.Place
import ResidueMachine.Proofs.EmptyResults
import ResidueMachine.Proofs.InstructionSpans

/-!
# Where failures are shown

A failure of loaded code is shown at the instruction that failed.  Its position is that of an
instruction whenever the fault is one of an instruction, so that its range is always found.  An
empty result is the fault of no instruction: it is shown at the last digit of the source, as
everything behind the last token is white space.

* `Code.run_eq_error_cases` : a run fails at one of its instructions, or has none;
* `lastVisible_append` : the last visible character of a text;
* `TokensFrom.exists_digit` : the last visible character of a source is a digit of its last token;
* `failure_shown_at_instruction` : where the failures of loaded code are shown.
-/

namespace ResidueMachine

/-! ### Positions of failures -/

/-- **A run fails at one of its instructions**, or has none to execute. -/
theorem Code.run_eq_error_cases {c : Code} {limit : Option Nat} {failure : Failure}
    (h : c.run limit = .error failure) :
    (failure.fault ≠ .emptyResult ∧ 1 ≤ failure.position ∧
        failure.position ≤ c.program.length) ∨
      (failure.fault = .emptyResult ∧ c.program = []) := by
  by_cases hempty : failure.fault = .emptyResult
  · obtain ⟨fault, position⟩ := failure
    obtain rfl : fault = .emptyResult := hempty
    exact .inr ⟨rfl, (run_eq_emptyResult_iff.1 h).1⟩
  · refine .inl ⟨hempty, ?_⟩
    rw [run, Machine.run_eq_eval (Machine.bounded_start c limit) rfl,
      Except.bind_eq_error_iff] at h
    rcases h with h | ⟨values, -, htop⟩
    · obtain ⟨k, i, -, fault, hi, -, -, rfl⟩ := Program.eval_eq_error_iff.1 h
      obtain ⟨hk, -⟩ := List.getElem?_eq_some_iff.1 hi
      exact ⟨Nat.le_add_right 1 k, by rwa [Fault.at, Machine.start, Nat.add_comm 1]⟩
    · -- at the end of the program, only an empty result is met
      cases values with
      | nil =>
        cases htop
        exact absurd rfl hempty
      | cons value rest => cases htop

/-! ### The last visible character -/

theorem isWhiteSpace_of_isBlank {c : Char} (h : isBlank c) : isWhiteSpace c :=
  isWhiteSpace_of_isWhitespace h

theorem dropWhile_reverse_append {front back : List Char} {c : Char} (hc : ¬ isWhiteSpace c)
    (hback : ∀ d ∈ back, isWhiteSpace d) :
    (front ++ c :: back).reverse.dropWhile isWhiteSpace = c :: front.reverse := by
  have hreverse : (front ++ c :: back).reverse = back.reverse ++ c :: front.reverse := by
    simp
  rw [hreverse]
  refine dropWhile_append_of_head? (fun d hd => hback d (List.mem_reverse.1 hd)) ?_
  rintro d ⟨⟩
  exact hc

theorem lastVisible_append {front back : List Char} {c : Char} (hc : ¬ isWhiteSpace c)
    (hback : ∀ d ∈ back, isWhiteSpace d) :
    lastVisible (front ++ c :: back) = ⟨byteLength front, byteLength front + c.utf8Size⟩ := by
  rw [lastVisible, dropWhile_reverse_append hc hback]
  simp only [List.reverse_reverse]

namespace Numeral

theorem toNat_of_isDigit {c : Char} (h : c.isDigit) : 48 ≤ c.toNat ∧ c.toNat ≤ 57 :=
  Char.isDigit_iff_toNat.1 h

theorem not_isWhiteSpace_of_isDigit {c : Char} (h : c.isDigit) : ¬ isWhiteSpace c := by
  have hc := toNat_of_isDigit h
  simp only [isWhiteSpace, whiteSpaceRanges, List.any_cons, List.any_nil, Bool.or_false,
    Bool.or_eq_true, Bool.and_eq_true, decide_eq_true_eq]
  omega

theorem utf8Size_of_isDigit {c : Char} (h : c.isDigit) : c.utf8Size = 1 := by
  rw [Char.utf8Size_eq_one_iff, UInt32.le_iff_toNat_le]
  exact Nat.le_trans (toNat_of_isDigit h).2 (by decide)

theorem Digits.exists_digit {row : List Char} {value : Nat} (h : Digits row value) :
    ∃ front digit, row = front ++ [digit] ∧ digit.isDigit := by
  cases h with
  | @single c hc => exact ⟨[], c, rfl, hc⟩
  | @snoc row _ c _ hc => exact ⟨row, c, rfl, hc⟩

theorem Writes.exists_digit {text : List Char} {number : Int} (h : Writes text number) :
    ∃ front digit, text = front ++ [digit] ∧ digit.isDigit := by
  rcases h with h | h | h
  · exact h.exists_digit
  · obtain ⟨front, digit, rfl, hdigit⟩ := h.exists_digit
    exact ⟨'+' :: front, digit, rfl, hdigit⟩
  · obtain ⟨front, digit, rfl, hdigit⟩ := h.exists_digit
    exact ⟨'-' :: front, digit, rfl, hdigit⟩

end Numeral

/-- **The last visible character of a source is the last digit of its last token.** -/
theorem TokensFrom.exists_digit {text : List Char} {tokens : List Token} {last : Token}
    (h : TokensFrom 0 text tokens) (hlast : last ∈ tokens.getLast?) :
    ∃ digit, digit.isDigit ∧ (lastVisible text).Covers text [digit] ∧
      (lastVisible text).length = 1 ∧ last.span.start ≤ (lastVisible text).start ∧
      (lastVisible text).stop = last.span.stop := by
  obtain ⟨front, back, htext, hfront, hblank⟩ := h.exists_back hlast
  obtain ⟨runs, run, hruns, hrun, hwrites, hspan⟩ := h.exists_run (List.mem_of_getLast? hlast)
  obtain ⟨before, after, htext', hstart, hstop⟩ := hruns.covers hrun
  obtain ⟨row, digit, hrow, hdigit⟩ := hwrites.exists_digit
  rw [← hspan, hrow] at hstop
  rw [← hspan] at hstart
  rw [hrow, htext, ← List.append_assoc] at htext'
  -- the run of the last token ends where the blanks begin
  obtain ⟨rfl, rfl⟩ := append_inj_of_byteLength_eq htext'
    (hfront.symm.trans (hstop.trans (byteLength_append _ _).symm))
  have hsize := Numeral.utf8Size_of_isDigit hdigit
  have hsplit : text = (before ++ row) ++ digit :: back := by
    rw [htext]
    simp
  have hvisible : lastVisible text =
      ⟨byteLength (before ++ row), byteLength (before ++ row) + 1⟩ := by
    rw [hsplit, lastVisible_append (Numeral.not_isWhiteSpace_of_isDigit hdigit)
      fun d hd => isWhiteSpace_of_isBlank (hblank d hd), hsize]
  rw [hvisible]
  refine ⟨digit, hdigit, ⟨before ++ row, back, hsplit, rfl, ?_⟩, ?_, ?_, ?_⟩
  · simp [hsize]
  · exact Nat.add_sub_cancel_left _ _
  · rw [hstart, byteLength_append]
    exact Nat.le_add_right _ _
  · rw [hstop]
    simp [hsize, Nat.add_assoc]

/-! ### Failures of loaded code -/

theorem failureSpan_of_fault_ne {failure : Failure} (h : failure.fault ≠ .emptyResult)
    (loaded : LoadedCode) (text : List Char) :
    failureSpan failure loaded text =
      (loaded.instructionSpan? failure.position).getD (lastVisible text) := by
  unfold failureSpan
  split
  · contradiction
  · rfl

theorem failureSpan_of_fault_eq {failure : Failure} (h : failure.fault = .emptyResult)
    (loaded : LoadedCode) (text : List Char) :
    failureSpan failure loaded text = lastVisible text := by
  simp only [failureSpan, h]

/-- **Failures are shown at the instruction that failed.**  The range of a failure starts and ends
between characters of the source, and is not empty.  The fault of an instruction is shown from the
tag of the instruction that the failure names to its last operand.  An empty result is shown at the
last digit of the last number of the source. -/
theorem failure_shown_at_instruction (source : String) (loaded : LoadedCode) (limit : Option Nat)
    (failure : Failure) (h : load source = .ok loaded)
    (hrun : loaded.code.run limit = .error failure) :
    let text := source.toList
    let span := failureSpan failure loaded text
    (span.start < span.stop ∧ span.stop ≤ source.utf8ByteSize ∧
        ∃ shown, span.Covers text shown) ∧
      (failure.fault ≠ .emptyResult →
        1 ≤ failure.position ∧ failure.position ≤ loaded.code.program.length ∧
          loaded.instructionSpan? failure.position = some span ∧
          loaded.code.WrittenAt text (failure.position - 1) span) ∧
      (failure.fault = .emptyResult →
        ∃ tokens last digit, tokenize text = .ok tokens ∧ last ∈ tokens.getLast? ∧
          digit.isDigit ∧ span.Covers text [digit] ∧ span.length = 1 ∧
          last.span.start ≤ span.start ∧ span.stop = last.span.stop) := by
  intro text span
  obtain ⟨tokens, htokens, hread⟩ := load_eq_ok_iff.1 h
  have htiles : loaded.Tiles text := hread.tiles htokens
  rcases Code.run_eq_error_cases hrun with ⟨hfault, hpos, hle⟩ | ⟨hfault, -⟩
  · obtain ⟨recorded, hrecorded⟩ :=
      Option.isSome_iff_exists.1 (htiles.isSome_instructionSpan?_iff.2 ⟨hpos, hle⟩)
    have hspan : span = recorded := by
      change failureSpan failure loaded text = recorded
      rw [failureSpan_of_fault_ne hfault, hrecorded, Option.getD_some]
    rw [← hspan] at hrecorded
    have htile := hrecorded
    rw [LoadedCode.instructionSpan?_of_pos hpos] at htile
    obtain ⟨hlt, part, -, -, -, hcovers, -⟩ := htiles.decodes _ span htile
    exact ⟨⟨hlt, byteLength_toList source ▸ hcovers.stop_le, part, hcovers⟩,
      fun _ => ⟨hpos, hle, hrecorded, htiles.written _ span htile⟩,
      fun hempty => absurd hempty hfault⟩
  · -- the header is not empty, so that there is a last token
    have hne : tokens ≠ [] := by
      rintro rfl
      cases hread
    have hlast := List.getLast?_eq_some_getLast hne
    obtain ⟨digit, hdigit, hcovers, hlength, hstart, hstop⟩ :=
      (tokenize_eq_ok_iff_tokensFrom.1 htokens).exists_digit hlast
    rw [← failureSpan_of_fault_eq hfault loaded text] at hcovers hlength hstart hstop
    exact ⟨⟨hcovers.start_lt_stop (List.cons_ne_nil _ _),
        byteLength_toList source ▸ hcovers.stop_le, _, hcovers⟩,
      fun hne => absurd hfault hne,
      fun _ => ⟨tokens, _, digit, htokens, hlast, hdigit, hcovers, hlength, hstart, hstop⟩⟩

/-- An instruction on two lines that fails, and an empty result in front of white space. -/
theorem failure_shown_at_second_instruction :
    let source := "10 2 2\n5 6\n1 1\n4 3\n1 1 0\n"
    let loaded : LoadedCode :=
      ⟨⟨⟨10, by decide⟩, ⟨#[5, 6]⟩, [.load 1, .combineIndexed 3 1 1 0]⟩, [⟨11, 14⟩, ⟨15, 24⟩]⟩
    let failure : Failure := (Fault.indexOutOfRange 3 2).at 2
    let bare := "10 1 0\n-57 \n"
    let empty : LoadedCode := ⟨⟨⟨10, by decide⟩, ⟨#[-57]⟩, []⟩, []⟩
    (load source = .ok loaded ∧ loaded.code.run none = .error failure ∧
        loaded.code.WrittenAt source.toList 1 ⟨15, 24⟩) ∧
      load bare = .ok empty ∧ empty.code.run none = .error (Fault.emptyResult.at 1) ∧
        ∃ digit, digit.isDigit ∧ Span.Covers ⟨9, 10⟩ bare.toList [digit] := by
  intro source loaded failure bare empty
  refine ⟨?_, ?_⟩
  · have hload : load source = .ok loaded := by decide +kernel
    have hrun : loaded.code.run none = .error failure := by decide +kernel
    have hspan : failureSpan failure loaded source.toList = ⟨15, 24⟩ := by decide +kernel
    obtain ⟨-, hshown, -⟩ := failure_shown_at_instruction source loaded none failure hload hrun
    obtain ⟨-, -, -, hwritten⟩ := hshown (by decide)
    rw [hspan] at hwritten
    exact ⟨hload, hrun, hwritten⟩
  · have hload : load bare = .ok empty := by decide +kernel
    have hrun : empty.code.run none = .error (Fault.emptyResult.at 1) := by decide +kernel
    have hspan : failureSpan (Fault.emptyResult.at 1) empty bare.toList = ⟨9, 10⟩ := by
      decide +kernel
    obtain ⟨-, -, hshown⟩ := failure_shown_at_instruction bare empty none _ hload hrun
    obtain ⟨tokens, last, digit, -, -, hdigit, hcovers, -⟩ := hshown rfl
    rw [hspan] at hcovers
    exact ⟨hload, hrun, digit, hdigit, hcovers⟩

end ResidueMachine
