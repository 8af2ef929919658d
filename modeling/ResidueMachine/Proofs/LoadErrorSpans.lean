import ResidueMachine.Proofs.LoadErrors
import ResidueMachine.Proofs.Ranges

/-!
# Where load errors are reported

The range of a load error starts and ends between characters of the source, and the characters in
it are what the fault is about (`LoadFault.Describes`): a run that writes no number, a number that
cannot stand where it does, the end of the source, or all that follows the code.

Lengths of ranges are differences of offsets.  They are computed from the start of a run and the
end of the same run, of a later one or of the source, so that none is negative
(`start_lt_stop_of_le`).

* `Reading.Stops.exists_describes` : what is reported where reading stops;
* `load_error_describes_range` : where load errors are reported.
-/

namespace ResidueMachine

/-- The run is one of those of the text, and writes the word. -/
def Lexeme.WritesIn (run : Lexeme) (text : List Char) (value : Int64) : Prop :=
  ∃ runs, MaximalRuns 0 text runs ∧ run ∈ runs ∧ Numeral.Writes run.text value.toInt

/-- A fault, the range that it is reported at, and the characters in the range. -/
inductive LoadFault.Describes (text : List Char) : LoadFault → Span → List Char → Prop
  /-- The first run that writes no 64-bit word. -/
  | invalidInteger {before after : List Lexeme} {run : Lexeme} :
    MaximalRuns 0 text (before ++ run :: after) → (∀ earlier ∈ before, earlier.WritesWord) →
      ¬ run.WritesWord → Describes text (.invalidInteger run.text) run.span run.text
  /-- A number that is not positive. -/
  | nonPositiveModulus {run : Lexeme} {value : Int64} :
    run.WritesIn text value → value.toInt ≤ 0 →
      Describes text (.nonPositiveModulus value) run.span run.text
  /-- A negative number. -/
  | negativeCount {run : Lexeme} {item : Item} {value : Int64} :
    run.WritesIn text value → value.toInt < 0 →
      Describes text (.negativeCount item value) run.span run.text
  /-- A number that is not one from `1` to `4`. -/
  | unknownTag {run : Lexeme} {value : Int64} :
    run.WritesIn text value → ¬ (1 ≤ value.toInt ∧ value.toInt ≤ 4) →
      Describes text (.instruction (.unknownTag value)) run.span run.text
  /-- The end of the text. -/
  | unexpectedEnd {item : Item} :
    Describes text (.unexpectedEnd item) ⟨byteLength text, byteLength text⟩ []
  /-- The rest of the text, from the start of a number. -/
  | trailingInput {run : Lexeme} {value : Int64} {rest : List Char} :
    run.WritesIn text value → run.text ++ rest ≠ [] →
      Describes text .trailingInput ⟨run.start, byteLength text⟩ (run.text ++ rest)

/-! ### Lengths -/

theorem maximalRuns_lexemes (text : List Char) : MaximalRuns 0 text (lexemes text) :=
  maximalRuns_lexemesFrom 0 text

/-- **No length is negative**: a run ends within the text, and behind the start of itself and of
all runs before it. -/
theorem start_lt_stop_of_le {text : List Char} {i j : Nat} {first last : Lexeme} (hij : i ≤ j)
    (hi : (lexemes text)[i]? = some first) (hj : (lexemes text)[j]? = some last) :
    first.span.start < last.span.stop ∧ last.span.stop ≤ byteLength text := by
  have hruns := maximalRuns_lexemes text
  have hpairwise := hruns.pairwise_stop_lt
  have hnonempty {run : Lexeme} (hrun : run ∈ lexemes text) : run.span.start < run.span.stop :=
    (hruns.covers hrun).start_lt_stop (hruns.text_ne_nil run hrun)
  have hfirst := hnonempty (List.mem_of_getElem? hi)
  have hlast := hnonempty (List.mem_of_getElem? hj)
  refine ⟨?_, (hruns.covers (List.mem_of_getElem? hj)).stop_le⟩
  obtain ⟨hilt, rfl⟩ := List.getElem?_eq_some_iff.1 hi
  obtain ⟨hjlt, rfl⟩ := List.getElem?_eq_some_iff.1 hj
  rcases Nat.lt_or_eq_of_le hij with hlt | rfl
  · have hbetween := List.pairwise_iff_getElem.1 hpairwise i j hilt hjlt hlt
    omega
  · exact hfirst

/-! ### Reports -/

section Reports

variable {text : List Char} {tokens rest : List Token} {item : Item} {e : LoadError}

theorem TokensFrom.exists_writesIn (h : TokensFrom 0 text tokens) {t : Token} (ht : t ∈ tokens) :
    ∃ run : Lexeme, run.WritesIn text t.value ∧ t.span = run.span ∧
      run.span.Covers text run.text := by
  obtain ⟨runs, run, hruns, hrun, hwrites, hspan⟩ := h.exists_run ht
  exact ⟨run, ⟨runs, hruns, hrun, hwrites⟩, hspan, hruns.covers hrun⟩

theorem Item.Refuses.describes {value : Int64} {fault : LoadFault} {run : Lexeme}
    (h : item.Refuses value fault) (hrun : run.WritesIn text value) :
    fault.Describes text run.span run.text := by
  cases h with
  | modulus hvalue => exact .nonPositiveModulus hrun hvalue
  | tableSize hvalue => exact .negativeCount hrun hvalue
  | instructionCount hvalue => exact .negativeCount hrun hvalue
  | tag htag =>
    refine .unknownTag hrun ?_
    rintro ⟨hpos, hle⟩
    have hload := htag .load
    have hswap := htag .swap
    have hcombine2 := htag .combine2
    have hcombineIndexed := htag .combineIndexed
    simp only [Opcode.tag] at hload hswap hcombine2 hcombineIndexed
    omega

theorem Reading.Stops.exists_describes (h : TokensFrom 0 text tokens)
    (hstops : Stops (byteLength text) item rest e) (hrest : ∀ t ∈ rest, t ∈ tokens) :
    ∃ shown, e.span.Covers text shown ∧ e.fault.Describes text e.span shown := by
  cases hstops with
  | ended => exact ⟨[], ⟨text, [], (List.append_nil text).symm, rfl, rfl⟩, .unexpectedEnd⟩
  | @refused t rest fault hrefuses =>
    obtain ⟨run, hrun, hspan, hcovers⟩ := h.exists_writesIn (hrest t List.mem_cons_self)
    change ∃ shown, t.span.Covers text shown ∧ fault.Describes text t.span shown
    rw [hspan]
    exact ⟨run.text, hcovers, hrefuses.describes hrun⟩

theorem TokensFrom.exists_trailing (h : TokensFrom 0 text tokens) {t : Token} (ht : t ∈ tokens) :
    ∃ shown, Span.Covers ⟨t.span.start, byteLength text⟩ text shown ∧
      LoadFault.Describes text .trailingInput ⟨t.span.start, byteLength text⟩ shown := by
  obtain ⟨run, hrun, hspan, before, after, htext, hstart, -⟩ := h.exists_writesIn ht
  rw [hspan]
  refine ⟨run.text ++ after, ⟨before, [], ?_, hstart, ?_⟩, .trailingInput hrun ?_⟩
  · rw [List.append_nil, htext]
  · rw [← byteLength_append, ← htext]
  · obtain ⟨runs, -, -, hwrites⟩ := hrun
    exact List.append_ne_nil_of_left_ne_nil hwrites.ne_nil after

end Reports

/-- **Load errors are reported where the fault is.**  The range of an error starts and ends between
characters of the source and shows what the fault describes: for a text that is no number the first
run that is none; for a modulus, a count or a tag the whole number that cannot be one; the empty
range at the end of the source if this comes too early; and otherwise all of the source from the
first number that is not part of the code.  The end of a run, and that of the source, is behind the
start of every run up to it, so that lengths of ranges are differences that do not underflow. -/
theorem load_error_describes_range (source : String) (e : LoadError)
    (h : load source = .error e) :
    let text := source.toList
    (e.span.start + e.span.length = e.span.stop ∧ e.span.stop ≤ source.utf8ByteSize ∧
        ∃ shown, e.span.Covers text shown ∧ e.fault.Describes text e.span shown) ∧
      ∀ (i j : Nat) (first last : Lexeme), i ≤ j → (lexemes text)[i]? = some first →
        (lexemes text)[j]? = some last →
        first.span.start < last.span.stop ∧ last.span.stop ≤ source.utf8ByteSize := by
  intro text
  have hsize : byteLength text = source.utf8ByteSize := byteLength_toList source
  rw [← hsize]
  refine ⟨?_, fun i j first last hij => start_lt_stop_of_le hij⟩
  have hreport : ∃ shown, e.span.Covers text shown ∧ e.fault.Describes text e.span shown := by
    cases htokens : tokenize text with
    | error e' =>
      rw [load_eq_of_tokenize_eq_error htokens] at h
      cases h
      obtain ⟨before, run, after, hruns, hbefore, hrun, rfl⟩ := tokenize_eq_error_iff.1 htokens
      exact ⟨run.text, hruns.covers (List.mem_append_right before List.mem_cons_self),
        .invalidInteger hruns hbefore hrun⟩
    | ok tokens =>
      rw [load_eq_of_tokenize htokens, Except.map_eq_error_iff, ← hsize] at h
      have hfrom := tokenize_eq_ok_iff_tokensFrom.1 htokens
      rcases Reading.code_eq_error h with ⟨seen, rest, item, rfl, -, hstops⟩ |
        ⟨read, t, rest, -, rfl, -, rfl⟩
      · exact hstops.exists_describes hfrom fun t => List.mem_append_right seen
      · exact hfrom.exists_trailing (List.mem_append_right read List.mem_cons_self)
  obtain ⟨shown, hcovers, hdescribes⟩ := hreport
  exact ⟨hcovers.length_eq.2, hcovers.stop_le, shown, hcovers, hdescribes⟩

/-- A letter of two bytes behind a number, and a numeral of three characters that is no tag. -/
theorem load_error_describes_range_letter :
    let letter := "7 é"
    let tag := "7\t0\r\n1 +05 1"
    (load letter = .error ⟨.invalidInteger ['é'], ⟨2, 4⟩⟩ ∧
        LoadFault.Describes letter.toList (.invalidInteger ['é']) ⟨2, 4⟩ ['é']) ∧
      load tag = .error ⟨.instruction (.unknownTag 5), ⟨7, 10⟩⟩ ∧
        LoadFault.Describes tag.toList (.instruction (.unknownTag 5)) ⟨7, 10⟩ ['+', '0', '5'] := by
  intro letter tag
  refine ⟨?_, ?_⟩
  · have hload : load letter = .error ⟨.invalidInteger ['é'], ⟨2, 4⟩⟩ := by decide +kernel
    have hletter : Span.Covers ⟨2, 4⟩ letter.toList ['é'] :=
      ⟨['7', ' '], [], by decide +kernel, by decide +kernel, by decide +kernel⟩
    obtain ⟨⟨-, -, shown, hcovers, hdescribes⟩, -⟩ := load_error_describes_range letter _ hload
    rw [hcovers.unique hletter] at hdescribes
    exact ⟨hload, hdescribes⟩
  · have hload : load tag = .error ⟨.instruction (.unknownTag 5), ⟨7, 10⟩⟩ := by decide +kernel
    have htag : Span.Covers ⟨7, 10⟩ tag.toList ['+', '0', '5'] :=
      ⟨"7\t0\r\n1 ".toList, " 1".toList, by decide +kernel, by decide +kernel, by decide +kernel⟩
    obtain ⟨⟨-, -, shown, hcovers, hdescribes⟩, -⟩ := load_error_describes_range tag _ hload
    rw [hcovers.unique htag] at hdescribes
    exact ⟨hload, hdescribes⟩

end ResidueMachine
