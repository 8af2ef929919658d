import ResidueMachine.Proofs.FailureSpans

/-!
# Failures shown in any text

The text that a failure is shown in need not be the one that the code was loaded from, and the
failure may be any.  Its range is then still one of two: the one that was recorded for the
instruction that it names, or that of the last visible character of the text.

That character is found by cutting the white space off the end of the text
(`lastVisibleByCut?`).  A text can be cut between two of its characters only, and that is where
this cut is.

* `Span.Covers.isValid`, `frontAt?_eq_some` : texts can be cut between two characters;
* `failureSpanByCut?_eq` : cutting never fails, and finds the range of a failure;
* `lastVisible_cases` : what there is at the end of a text;
* `failure_shown_in_any_text` : where any failure is shown in any text.
-/

namespace ResidueMachine

/-- The part of a text in front of an offset, if that is between two characters. -/
def frontAt? (text : String) (offset : Nat) : Option String :=
  (text.pos? ⟨offset⟩).map fun pos => (text.sliceTo pos).copy

/-- The range of the last visible character, found by cutting off what follows it. -/
def lastVisibleByCut? (text : String) : Option Span := do
  let stop := byteLength (trimEnd text.toList)
  let visible ← frontAt? text stop
  match visible.toList.getLast? with
  | none => return .emptyAt 0
  | some c => return ⟨visible.utf8ByteSize - c.utf8Size, stop⟩

/-- The range of a failure, found by cutting the text. -/
def failureSpanByCut? (failure : Failure) (loaded : LoadedCode) (text : String) : Option Span := do
  let last ← lastVisibleByCut? text
  match failure.fault with
  | .emptyResult => return last
  | _ => return (loaded.instructionSpan? failure.position).getD last

/-- The failure names an instruction that has a range. -/
def Failure.NamesSpan (failure : Failure) (loaded : LoadedCode) : Prop :=
  failure.fault ≠ .emptyResult ∧ 1 ≤ failure.position ∧ failure.position ≤ loaded.spans.length

/-! ### Cuts -/

theorem utf8ByteSize_ofList (text : List Char) :
    (String.ofList text).utf8ByteSize = byteLength text := by
  rw [← byteLength_toList, String.toList_ofList]

section Cuts

variable {text : String} {front back : List Char}

theorem eq_append_of_toList_eq (h : text.toList = front ++ back) :
    text = .ofList front ++ .ofList back := by
  rw [← String.ofList_append, ← h, String.ofList_toList]

theorem rawEndPos_ofList (front : List Char) :
    (⟨byteLength front⟩ : String.Pos.Raw) = (String.ofList front).rawEndPos :=
  congrArg String.Pos.Raw.mk (utf8ByteSize_ofList front).symm

theorem isValid_of_toList_eq (h : text.toList = front ++ back) :
    String.Pos.Raw.IsValid text ⟨byteLength front⟩ :=
  String.Pos.Raw.isValid_iff_exists_append.2
    ⟨_, _, eq_append_of_toList_eq h, rawEndPos_ofList front⟩

theorem Span.Covers.isValid {span : Span} {shown : List Char} (h : span.Covers text.toList shown) :
    String.Pos.Raw.IsValid text ⟨span.start⟩ ∧ String.Pos.Raw.IsValid text ⟨span.stop⟩ := by
  obtain ⟨before, after, htext, hstart, hstop⟩ := h
  rw [hstart, hstop, ← byteLength_append]
  exact ⟨isValid_of_toList_eq htext, isValid_of_toList_eq (htext.trans (List.append_assoc ..).symm)⟩

theorem pos?_eq_some {pos : String.Pos.Raw} (h : pos.IsValid text) :
    text.pos? pos = some ⟨pos, h⟩ := by
  have hslice : pos.isValidForSlice text.toSlice = true := by
    rw [String.Pos.Raw.isValidForSlice_eq_true_iff, String.Pos.Raw.isValidForSlice_toSlice_iff]
    exact h
  rw [String.pos?, String.Slice.pos?, dif_pos hslice]
  rfl

/-- **A text can be cut between two characters.** -/
theorem frontAt?_eq_some (h : text.toList = front ++ back) :
    frontAt? text (byteLength front) = some (.ofList front) := by
  rw [frontAt?, pos?_eq_some (isValid_of_toList_eq h), Option.map_some]
  exact congrArg some ((String.Pos.splits _).eq_left
    ⟨eq_append_of_toList_eq h, rawEndPos_ofList front⟩)

end Cuts

/-! ### The end of a text -/

theorem isWhiteSpace_or_exists_visible (text : List Char) :
    (∀ c ∈ text, isWhiteSpace c) ∨
      ∃ before c after, text = before ++ c :: after ∧ ¬ isWhiteSpace c ∧
        ∀ d ∈ after, isWhiteSpace d := by
  induction text with
  | nil => exact .inl (List.forall_mem_nil _)
  | cons first rest ih =>
    rcases ih with hrest | ⟨before, c, after, rfl, hc, hafter⟩
    · by_cases hfirst : isWhiteSpace first
      · exact .inl (List.forall_mem_cons.2 ⟨hfirst, hrest⟩)
      · exact .inr ⟨[], first, rest, rfl, hfirst, hrest⟩
    · exact .inr ⟨first :: before, c, after, rfl, hc, hafter⟩

section White

variable {text : List Char}

theorem dropWhile_reverse_of_white (h : ∀ c ∈ text, isWhiteSpace c) :
    text.reverse.dropWhile isWhiteSpace = [] := by
  have hreverse : ∀ c ∈ text.reverse, isWhiteSpace c := fun c hc => h c (List.mem_reverse.1 hc)
  have hend : ∀ c ∈ ([] : List Char).head?, ¬ isWhiteSpace c := by
    intro c hc
    cases hc
  have hdrop := dropWhile_append_of_head? hreverse hend
  rwa [List.append_nil] at hdrop

theorem trimEnd_of_white (h : ∀ c ∈ text, isWhiteSpace c) : trimEnd text = [] := by
  rw [trimEnd, dropWhile_reverse_of_white h, List.reverse_nil]

theorem lastVisible_of_white (h : ∀ c ∈ text, isWhiteSpace c) : lastVisible text = ⟨0, 0⟩ := by
  rw [lastVisible, dropWhile_reverse_of_white h]
  rfl

theorem trimEnd_append {front back : List Char} {c : Char} (hc : ¬ isWhiteSpace c)
    (hback : ∀ d ∈ back, isWhiteSpace d) : trimEnd (front ++ c :: back) = front ++ [c] := by
  rw [trimEnd, dropWhile_reverse_append hc hback, List.reverse_cons, List.reverse_reverse]

end White

/-- **Cutting finds the last visible character.** -/
theorem lastVisibleByCut?_eq (text : String) :
    lastVisibleByCut? text = some (lastVisible text.toList) := by
  rcases isWhiteSpace_or_exists_visible text.toList with
    hwhite | ⟨before, c, after, htext, hc, hafter⟩
  · have hcut : frontAt? text (byteLength (trimEnd text.toList)) = some (.ofList []) := by
      rw [trimEnd_of_white hwhite]
      exact frontAt?_eq_some (List.nil_append _).symm
    simp only [lastVisibleByCut?, hcut, lastVisible_of_white hwhite]
    rfl
  · have hfront : text.toList = (before ++ [c]) ++ after := by
      rw [htext, List.append_assoc, List.singleton_append]
    have htrim : trimEnd text.toList = before ++ [c] := by
      rw [htext, trimEnd_append hc hafter]
    have hvisible : lastVisible text.toList =
        ⟨byteLength before, byteLength before + c.utf8Size⟩ := by
      rw [htext, lastVisible_append hc hafter]
    have hlength : byteLength (before ++ [c]) = byteLength before + c.utf8Size := by
      simp
    have hcut := frontAt?_eq_some hfront
    have hlast : (String.ofList (before ++ [c])).toList.getLast? = some c := by
      rw [String.toList_ofList, List.getLast?_concat]
    simp only [lastVisibleByCut?, htrim, hcut, Option.bind_eq_bind, Option.bind_some, hlast,
      utf8ByteSize_ofList]
    -- the character takes up the end of what is left of the text
    rw [hvisible, hlength, Nat.add_sub_cancel]
    rfl

/-- **Cutting finds where a failure is shown.** -/
theorem failureSpanByCut?_eq (failure : Failure) (loaded : LoadedCode) (text : String) :
    failureSpanByCut? failure loaded text = some (failureSpan failure loaded text.toList) := by
  rw [failureSpanByCut?, lastVisibleByCut?_eq]
  by_cases hfault : failure.fault = .emptyResult
  · rw [failureSpan_of_fault_eq hfault]
    simp only [hfault]
    rfl
  · rw [failureSpan_of_fault_ne hfault]
    simp only [Option.bind_eq_bind, Option.bind_some]
    rfl

/-! ### Where failures are shown -/

section Shown

variable {failure : Failure} {loaded : LoadedCode}

theorem Failure.NamesSpan.getElem?_spans (h : failure.NamesSpan loaded) (text : List Char) :
    loaded.spans[failure.position - 1]? = some (failureSpan failure loaded text) := by
  obtain ⟨hfault, hpos, hle⟩ := h
  obtain ⟨span, hspan⟩ : ∃ span, loaded.spans[failure.position - 1]? = some span :=
    ⟨_, List.getElem?_eq_getElem (by omega)⟩
  rw [failureSpan_of_fault_ne hfault, LoadedCode.instructionSpan?_of_pos hpos, hspan,
    Option.getD_some]

theorem failureSpan_of_not_namesSpan (h : ¬ failure.NamesSpan loaded) (text : List Char) :
    failureSpan failure loaded text = lastVisible text := by
  by_cases hfault : failure.fault = .emptyResult
  · exact failureSpan_of_fault_eq hfault loaded text
  · have hnone : loaded.instructionSpan? failure.position = none := by
      by_cases hpos : 1 ≤ failure.position
      · rw [LoadedCode.instructionSpan?_of_pos hpos, List.getElem?_eq_none_iff]
        have hlong : ¬ failure.position ≤ loaded.spans.length := fun hle => h ⟨hfault, hpos, hle⟩
        omega
      · rw [Nat.eq_zero_of_not_pos hpos]
        rfl
    rw [failureSpan_of_fault_ne hfault, hnone, Option.getD_none]

end Shown

/-- The range is that of the last visible character of the text: it holds one character that is
not white space, and only white space is behind it. -/
def Span.IsLastVisible (span : Span) (text : String) : Prop :=
  ∃ before c after, text.toList = before ++ c :: after ∧ ¬ isWhiteSpace c ∧
    (∀ d ∈ after, isWhiteSpace d) ∧
    span = ⟨byteLength before, byteLength before + c.utf8Size⟩

namespace Span.IsLastVisible

variable {span : Span} {text : String}

theorem exists_covers (h : span.IsLastVisible text) : ∃ c, span.Covers text.toList [c] := by
  obtain ⟨before, c, after, htext, -, -, rfl⟩ := h
  exact ⟨c, before, after, htext, rfl, rfl⟩

/-- The last visible character has one to four bytes, which are in the text. -/
theorem bounds (h : span.IsLastVisible text) :
    1 ≤ span.length ∧ span.length ≤ 4 ∧ span.stop ≤ text.utf8ByteSize := by
  obtain ⟨c, hc⟩ := h.exists_covers
  obtain ⟨hlength, -⟩ := hc.length_eq
  rw [hlength]
  exact ⟨c.utf8Size_pos, c.utf8Size_le_four, byteLength_toList text ▸ hc.stop_le⟩

theorem ne_empty (h : span.IsLastVisible text) : span ≠ ⟨0, 0⟩ := by
  rintro rfl
  exact absurd h.bounds.1 (by decide)

end Span.IsLastVisible

/-- **The last visible character of a text is found**, or the text is white. -/
theorem lastVisible_cases (text : String) :
    ((∃ c ∈ text.toList, ¬ isWhiteSpace c) ∧ (lastVisible text.toList).IsLastVisible text) ∨
      ((∀ c ∈ text.toList, isWhiteSpace c) ∧ lastVisible text.toList = ⟨0, 0⟩) := by
  rcases isWhiteSpace_or_exists_visible text.toList with
    hwhite | ⟨before, c, after, htext, hc, hafter⟩
  · exact .inr ⟨hwhite, lastVisible_of_white hwhite⟩
  · refine .inl ⟨⟨c, by simp [htext], hc⟩, before, c, after, htext, hc, hafter, ?_⟩
    rw [htext, lastVisible_append hc hafter]

/-- **Where any failure is shown in any text.**  Finding its range never cuts the text inside a
character.  A failure of an instruction that has a range is shown there.  Any other one is shown at
the last visible character, which has one to four bytes, all of them in the text; if there is no
such character, and in no other case, it is shown at the start of the text.  In loaded code, just
the numbers of its instructions are those that have ranges. -/
theorem failure_shown_in_any_text (text : String) (loaded : LoadedCode) (failure : Failure) :
    let span := failureSpan failure loaded text.toList
    failureSpanByCut? failure loaded text = some span ∧
      (failure.NamesSpan loaded → loaded.spans[failure.position - 1]? = some span) ∧
      (¬ failure.NamesSpan loaded →
        ((∃ c ∈ text.toList, ¬ isWhiteSpace c) →
          span.IsLastVisible text ∧ 1 ≤ span.length ∧ span.length ≤ 4 ∧
            span.stop ≤ text.utf8ByteSize ∧ String.Pos.Raw.IsValid text ⟨span.start⟩ ∧
            String.Pos.Raw.IsValid text ⟨span.stop⟩) ∧
        (span = ⟨0, 0⟩ ↔ ∀ c ∈ text.toList, isWhiteSpace c)) ∧
      ∀ source, load source = .ok loaded →
        (failure.NamesSpan loaded ↔ failure.fault ≠ .emptyResult ∧ 1 ≤ failure.position ∧
          failure.position ≤ loaded.code.program.length) := by
  intro span
  refine ⟨failureSpanByCut?_eq failure loaded text, fun h => h.getElem?_spans text.toList, ?_, ?_⟩
  · intro hnot
    have hspan : span = lastVisible text.toList := failureSpan_of_not_namesSpan hnot text.toList
    rw [hspan]
    rcases lastVisible_cases text with ⟨⟨c, hmem, hc⟩, hlast⟩ | ⟨hwhite, hlast⟩
    · obtain ⟨hpos, hfour, hstop⟩ := hlast.bounds
      obtain ⟨d, hcovers⟩ := hlast.exists_covers
      refine ⟨fun _ => ⟨hlast, hpos, hfour, hstop, hcovers.isValid⟩, ?_⟩
      exact ⟨fun hempty => absurd hempty hlast.ne_empty, fun hwhite => absurd (hwhite c hmem) hc⟩
    · refine ⟨?_, fun _ => hwhite, fun _ => hlast⟩
      rintro ⟨c, hmem, hc⟩
      exact absurd (hwhite c hmem) hc
  · intro source hload
    obtain ⟨tokens, -, hread⟩ := load_eq_ok_iff.1 hload
    rw [Failure.NamesSpan, hread.length_spans]

/-- A character of three bytes, between others of as many that are white. -/
example :
    failureSpanByCut? ⟨.emptyResult, 1⟩ ⟨⟨⟨1, by decide⟩, ⟨#[]⟩, []⟩, []⟩ "\u3000\u221e\u3000" =
      some ⟨3, 6⟩ := by
  decide +kernel

end ResidueMachine
