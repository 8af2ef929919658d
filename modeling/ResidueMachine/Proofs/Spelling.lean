import Mathlib.Data.List.Induction
import ResidueMachine.Proofs.Except
import ResidueMachine.Source.Token

/-!
# How texts write numbers

What a text writes is described here without a word on how it is read.  A text falls into its
maximal runs of characters other than blanks (`MaximalRuns`), and a run writes an integer if it is
an optional sign and a row of digits (`Numeral.Writes`).  A text then spells a list of integers,
`Spells`, if its runs write them in order.

* `maximalRuns_iff` : the lexemes of a text are its maximal runs, with their offsets;
* `Numeral.value?_eq_some_iff` : the value of a numeral is the integer that it writes;
* `Numeral.writes_repr` : the decimal text of an integer writes it;
* `tokenize_eq_ok_iff` : the tokens of a text are its runs with the words that they write;
* `tokenize_eq_error_iff` : a text without tokens has a run that writes no word, and its leftmost
  one is reported;
* `exists_tokenize_iff_spells` : a text has tokens iff it spells integers that fit words;
* `exists_spells` : all lists of integers have a spelling.
-/

namespace ResidueMachine

/-- The maximal runs of characters other than blanks, in order, in a text that starts at an
offset.  A run ends at a blank or with the text. -/
inductive MaximalRuns : Nat → List Char → List Lexeme → Prop
  /-- The empty text has no run. -/
  | nil {offset : Nat} : MaximalRuns offset [] []
  /-- A blank stands between the runs. -/
  | blank {offset : Nat} {c : Char} {text : List Char} {runs : List Lexeme} :
    isBlank c → MaximalRuns (offset + c.utf8Size) text runs → MaximalRuns offset (c :: text) runs
  /-- A run is not empty, holds no blank, and reaches up to one. -/
  | run {offset : Nat} {word text : List Char} {runs : List Lexeme} :
    word ≠ [] → (∀ c ∈ word, isSolid c) → (∀ c ∈ text.head?, isBlank c) →
      MaximalRuns (offset + byteLength word) text runs →
      MaximalRuns offset (word ++ text) (⟨word, offset⟩ :: runs)

namespace Numeral

/-- A row of decimal digits and its value. -/
inductive Digits : List Char → Nat → Prop
  /-- One digit. -/
  | single {c : Char} : c.isDigit → Digits [c] (c.toNat - '0'.toNat)
  /-- One more digit on the right. -/
  | snoc {row : List Char} {value : Nat} {c : Char} :
    Digits row value → c.isDigit → Digits (row ++ [c]) (10 * value + (c.toNat - '0'.toNat))

/-- A numeral and the integer that it writes. -/
inductive Writes : List Char → Int → Prop
  /-- Digits without a sign. -/
  | unsigned {row : List Char} {value : Nat} : Digits row value → Writes row value
  /-- Digits after a plus sign. -/
  | plus {row : List Char} {value : Nat} : Digits row value → Writes ('+' :: row) value
  /-- Digits after a minus sign. -/
  | minus {row : List Char} {value : Nat} : Digits row value → Writes ('-' :: row) (-value)

end Numeral

/-- The integer that a token stands for. -/
def Token.number (t : Token) : Int :=
  t.value.toInt

/-- The run writes an integer that fits a word. -/
def Lexeme.WritesWord (l : Lexeme) : Prop :=
  ∃ number, Numeral.Writes l.text number ∧ Numeral.FitsWord number

/-- The maximal runs of a text write the given integers, in order. -/
def Spells (text : List Char) (numbers : List Int) : Prop :=
  ∃ runs, MaximalRuns 0 text runs ∧
    List.Forall₂ (fun run number => Numeral.Writes run.text number) runs numbers

/-! ### Runs -/

section Splitting

variable {p : Char → Bool} {word text : List Char}

theorem takeWhile_append_of_head? (hword : ∀ c ∈ word, p c) (hend : ∀ c ∈ text.head?, ¬ p c) :
    (word ++ text).takeWhile p = word := by
  rw [List.takeWhile_append_of_pos hword]
  cases text with
  | nil => exact List.append_nil word
  | cons c _ => rw [List.takeWhile_cons_of_neg (hend c rfl), List.append_nil]

theorem dropWhile_append_of_head? (hword : ∀ c ∈ word, p c) (hend : ∀ c ∈ text.head?, ¬ p c) :
    (word ++ text).dropWhile p = text := by
  rw [List.dropWhile_append_of_pos hword]
  cases text with
  | nil => rfl
  | cons c _ => exact List.dropWhile_cons_of_neg (hend c rfl)

theorem not_of_mem_head?_dropWhile {c : Char} (h : c ∈ (text.dropWhile p).head?) : ¬ p c := by
  have hnot := List.head?_dropWhile_not p text
  rw [Option.mem_def.1 h] at hnot
  simpa using hnot

end Splitting

section Runs

variable {offset : Nat} {c : Char} {text word : List Char} {runs : List Lexeme}

theorem isSolid_iff : isSolid c ↔ ¬ isBlank c := by
  simp [isSolid]

theorem lexemesFrom_blank (h : isBlank c) :
    lexemesFrom #[] offset (c :: text) = lexemesFrom #[] (offset + c.utf8Size) text := by
  have hdrop : (c :: text).dropWhile isBlank = text.dropWhile isBlank :=
    List.dropWhile_cons_of_pos h
  cases htext : text.dropWhile isBlank with
  | nil =>
    rw [lexemesFrom_of_dropWhile_eq_nil (hdrop.trans htext),
      lexemesFrom_of_dropWhile_eq_nil htext]
  | cons d rest =>
    rw [lexemesFrom_of_dropWhile_eq_cons (hdrop.trans htext),
      lexemesFrom_of_dropWhile_eq_cons htext, List.takeWhile_cons_of_pos h, byteLength_cons,
      Nat.add_assoc]

theorem lexemesFrom_run (hword : word ≠ []) (hsolid : ∀ c ∈ word, isSolid c)
    (hend : ∀ c ∈ text.head?, isBlank c) :
    (lexemesFrom #[] offset (word ++ text)).toList =
      ⟨word, offset⟩ :: (lexemesFrom #[] (offset + byteLength word) text).toList := by
  obtain ⟨c, rest, rfl⟩ := List.exists_cons_of_ne_nil hword
  have hc : ¬ isBlank c := isSolid_iff.1 (hsolid c List.mem_cons_self)
  have hrest : ∀ d ∈ rest, isSolid d := fun d hd => hsolid d (List.mem_cons_of_mem c hd)
  have hend : ∀ d ∈ text.head?, ¬ isSolid d := fun d hd hsolid => isSolid_iff.1 hsolid (hend d hd)
  rw [List.cons_append, lexemesFrom_of_dropWhile_eq_cons (List.dropWhile_cons_of_neg hc),
    List.takeWhile_cons_of_neg hc]
  simp only [byteLength_nil, Nat.add_zero, takeWhile_append_of_head? hrest hend,
    dropWhile_append_of_head? hrest hend]
  rw [lexemesFrom_eq_append, Array.toList_append]
  rfl

theorem maximalRuns_lexemesFrom (offset : Nat) (text : List Char) :
    MaximalRuns offset text (lexemesFrom #[] offset text).toList := by
  match text with
  | [] =>
    rw [lexemesFrom_of_dropWhile_eq_nil List.dropWhile_nil]
    exact .nil
  | c :: rest =>
    by_cases hc : isBlank c
    · rw [lexemesFrom_blank hc]
      exact .blank hc (maximalRuns_lexemesFrom _ rest)
    · -- the first run is all that can be taken without a blank, and a blank or nothing follows
      have hsplit : c :: rest.takeWhile isSolid ++ rest.dropWhile isSolid = c :: rest := by
        rw [List.cons_append, List.takeWhile_append_dropWhile]
      have hword : ∀ d ∈ c :: rest.takeWhile isSolid, isSolid d := by
        intro d hd
        rcases List.mem_cons.1 hd with rfl | hd
        · exact isSolid_iff.2 hc
        · exact List.all_eq_true.1 List.all_takeWhile d hd
      have hend : ∀ d ∈ (rest.dropWhile isSolid).head?, isBlank d := by
        intro d hd
        simpa [isSolid] using not_of_mem_head?_dropWhile hd
      have hlt : (rest.dropWhile isSolid).length < (c :: rest).length :=
        Nat.lt_succ_of_le (List.dropWhile_sublist _).length_le
      rw [← hsplit, lexemesFrom_run (List.cons_ne_nil _ _) hword hend]
      exact .run (List.cons_ne_nil _ _) hword hend (maximalRuns_lexemesFrom _ _)
termination_by text.length
decreasing_by
  · exact Nat.lt_succ_self _
  · exact hlt

/-- **The lexemes of a text are its maximal runs**, and it has no others. -/
theorem maximalRuns_iff :
    MaximalRuns offset text runs ↔ (lexemesFrom #[] offset text).toList = runs := by
  constructor
  · intro h
    induction h with
    | nil => rw [lexemesFrom_of_dropWhile_eq_nil List.dropWhile_nil]
    | blank hc _ ih => rw [lexemesFrom_blank hc, ih]
    | run hword hsolid hend _ ih => rw [lexemesFrom_run hword hsolid hend, ih]
  · rintro rfl
    exact maximalRuns_lexemesFrom offset text

theorem MaximalRuns.length_le (h : MaximalRuns offset text runs) :
    runs.length ≤ byteLength text := by
  induction h with
  | nil => exact Nat.zero_le _
  | blank _ _ ih =>
    rw [byteLength_cons]
    exact Nat.le_trans ih (Nat.le_add_left _ _)
  | run hword _ _ _ ih =>
    obtain ⟨c, rest, rfl⟩ := List.exists_cons_of_ne_nil hword
    have := c.utf8Size_pos
    rw [List.length_cons, byteLength_append, byteLength_cons]
    omega

/-- The runs of a text and those of another one that begins with a blank. -/
theorem MaximalRuns.append {text' : List Char} {runs' : List Lexeme}
    (h : MaximalRuns offset text runs) (hend : ∀ c ∈ text'.head?, isBlank c)
    (h' : MaximalRuns (offset + byteLength text) text' runs') :
    MaximalRuns offset (text ++ text') (runs ++ runs') := by
  induction h with
  | nil => simpa using h'
  | blank hc _ ih =>
    rw [byteLength_cons, ← Nat.add_assoc] at h'
    exact .blank hc (ih h')
  | @run offset word text runs hne hsolid hnext _ ih =>
    have hblank : ∀ c ∈ (text ++ text').head?, isBlank c := by
      cases text with
      | nil => exact hend
      | cons c rest => exact hnext
    rw [byteLength_append, ← Nat.add_assoc] at h'
    rw [List.append_assoc]
    exact .run hne hsolid hblank (ih h')

end Runs

/-! ### Numerals -/

namespace Numeral

variable {c : Char} {text row : List Char} {value : Nat} {number : Int}

theorem isSolid_of_isDigit (h : c.isDigit) : isSolid c := by
  rw [isSolid_iff]
  intro hblank
  simp only [isBlank, Bool.or_eq_true, decide_eq_true_eq] at hblank
  rcases hblank with ((rfl | rfl) | rfl) | rfl <;> cases h

theorem Digits.isDigit_of_mem (h : Digits row value) : ∀ c ∈ row, c.isDigit := by
  induction h with
  | single hc =>
    intro d hd
    rw [List.mem_singleton.1 hd]
    exact hc
  | snoc _ hc ih =>
    intro d hd
    rcases List.mem_append.1 hd with hd | hd
    · exact ih d hd
    · rw [List.mem_singleton.1 hd]
      exact hc

theorem Digits.ne_nil (h : Digits row value) : row ≠ [] := by
  cases h <;> simp

/-- **A row of digits has the value that is read off it.** -/
theorem digits?_eq_some_iff : digits? text = some value ↔ Digits text value := by
  constructor
  · -- from the right, as the value grows by one digit there
    intro h
    simp only [digits?] at h
    split at h
    · rename_i hrow
      obtain ⟨hne, hall⟩ := hrow
      cases h
      induction text using List.reverseRecOn with
      | nil => exact absurd rfl hne
      | append_singleton row c ih =>
        rw [List.all_append, Bool.and_eq_true, List.all_cons, Bool.and_eq_true] at hall
        obtain ⟨hrow, hc, -⟩ := hall
        rw [Nat.ofDigitChars_append, Nat.ofDigitChars_cons, Nat.ofDigitChars_nil]
        by_cases hempty : row = []
        · subst hempty
          simpa using Digits.single hc
        · exact .snoc (ih hempty hrow) hc
    · cases h
  · intro h
    have hrow : text ≠ [] ∧ text.all Char.isDigit :=
      ⟨h.ne_nil, List.all_eq_true.2 h.isDigit_of_mem⟩
    rw [digits?, if_pos hrow]
    clear hrow
    induction h with
    | single _ => simp [Nat.ofDigitChars_cons]
    | snoc _ _ ih =>
      rw [Nat.ofDigitChars_append, Option.some.inj ih, Nat.ofDigitChars_cons,
        Nat.ofDigitChars_nil]

/-- **A numeral has the value that it writes**, and other texts have none. -/
theorem value?_eq_some_iff : value? text = some number ↔ Writes text number := by
  constructor
  · intro h
    unfold value? at h
    split at h
    · obtain ⟨value, hvalue, rfl⟩ := Option.map_eq_some_iff.1 h
      exact .plus (digits?_eq_some_iff.1 hvalue)
    · obtain ⟨value, hvalue, rfl⟩ := Option.map_eq_some_iff.1 h
      exact .minus (digits?_eq_some_iff.1 hvalue)
    · obtain ⟨value, hvalue, rfl⟩ := Option.map_eq_some_iff.1 h
      exact .unsigned (digits?_eq_some_iff.1 hvalue)
  · rintro (h | h | h)
    · have hdigits := digits?_eq_some_iff.2 h
      unfold value?
      -- a sign is no digit
      split
      · exact absurd (h.isDigit_of_mem '+' List.mem_cons_self) (by decide)
      · exact absurd (h.isDigit_of_mem '-' List.mem_cons_self) (by decide)
      · rw [hdigits]
        rfl
    · simp only [value?, digits?_eq_some_iff.2 h]
      rfl
    · simp only [value?, digits?_eq_some_iff.2 h]
      rfl

theorem Writes.ne_nil (h : Writes text number) : text ≠ [] := by
  rcases h with h | h | h
  · exact h.ne_nil
  · exact List.cons_ne_nil _ _
  · exact List.cons_ne_nil _ _

theorem Writes.isSolid_of_mem (h : Writes text number) : ∀ c ∈ text, isSolid c := by
  have hdigit {row value} (h : Digits row value) (c : Char) (hc : c ∈ row) : isSolid c :=
    isSolid_of_isDigit (h.isDigit_of_mem c hc)
  intro c hc
  rcases h with h | h | h
  · exact hdigit h c hc
  · rcases List.mem_cons.1 hc with rfl | hc
    · decide
    · exact hdigit h c hc
  · rcases List.mem_cons.1 hc with rfl | hc
    · decide
    · exact hdigit h c hc

theorem Writes.unique {number' : Int} (h : Writes text number) (h' : Writes text number') :
    number = number' := by
  have hvalue := value?_eq_some_iff.2 h
  rw [value?_eq_some_iff.2 h'] at hvalue
  exact (Option.some.inj hvalue).symm

theorem digits_repr (value : Nat) : Digits value.repr.toList value := by
  have hdigit : ∀ c ∈ value.repr.toList, c.isDigit := by
    rw [Nat.toList_repr]
    exact fun c => Nat.isDigit_of_mem_toDigits (by decide) (by decide)
  have hne : value.repr.toList ≠ [] := by
    rw [Ne, String.toList_eq_nil_iff]
    exact Nat.repr_ne_empty
  rw [← digits?_eq_some_iff, digits?, if_pos ⟨hne, List.all_eq_true.2 hdigit⟩, Nat.toList_repr,
    Nat.ofDigitChars_ten_toDigits]

theorem writes_repr (number : Int) : Writes number.repr.toList number := by
  cases number with
  | ofNat value => exact .unsigned (digits_repr value)
  | negSucc value =>
    change Writes ("-" ++ (value + 1).repr).toList (-(value + 1 : Nat))
    rw [String.toList_append]
    exact .minus (digits_repr (value + 1))

end Numeral

/-! ### Tokens -/

theorem Token.ofLexeme_eq_ok_iff {l : Lexeme} {t : Token} :
    Token.ofLexeme l = .ok t ↔ Numeral.Writes l.text t.number ∧ t.span = l.span := by
  rw [Token.number, ← Numeral.value?_eq_some_iff, ← Numeral.word?_eq_some_iff, Token.ofLexeme]
  cases Numeral.word? l.text with
  | none => simp
  | some value =>
    obtain ⟨value', span⟩ := t
    simp [eq_comm]

theorem fitsWord_toInt (word : Int64) : Numeral.FitsWord word.toInt :=
  ⟨word.minValue_le_toInt, word.toInt_le⟩

theorem Lexeme.writesWord_iff {l : Lexeme} : l.WritesWord ↔ ∃ t, Token.ofLexeme l = .ok t := by
  simp only [Token.ofLexeme_eq_ok_iff]
  constructor
  · rintro ⟨number, hwrites, hfits⟩
    rw [← Numeral.toInt_ofInt_of_fitsWord hfits] at hwrites
    exact ⟨⟨Int64.ofInt number, l.span⟩, hwrites, rfl⟩
  · rintro ⟨t, hwrites, -⟩
    exact ⟨t.number, hwrites, fitsWord_toInt t.value⟩

theorem Token.ofLexeme_eq_error_iff {l : Lexeme} {e : LoadError} :
    Token.ofLexeme l = .error e ↔ ¬ l.WritesWord ∧ e = ⟨.invalidInteger l.text, l.span⟩ := by
  rw [Lexeme.writesWord_iff, Token.ofLexeme]
  cases Numeral.word? l.text with
  | none => simp [eq_comm]
  | some value => simp

variable {text : List Char} {tokens : List Token} {numbers : List Int}

/-- **The tokens of a text are its maximal runs**, with the words that they write. -/
theorem tokenize_eq_ok_iff :
    tokenize text = .ok tokens ↔
      ∃ runs, MaximalRuns 0 text runs ∧
        List.Forall₂ (fun run t => Numeral.Writes run.text t.number ∧ t.span = run.span)
          runs tokens := by
  rw [tokenize, Except.mapM_eq_ok_iff]
  simp only [Token.ofLexeme_eq_ok_iff, maximalRuns_iff, exists_eq_left', lexemes]

theorem writesWord_of_forall₂ {runs : List Lexeme}
    (h : List.Forall₂ (fun run t => Numeral.Writes run.text t.number ∧ t.span = run.span)
      runs tokens) : ∀ run ∈ runs, run.WritesWord := by
  induction h with
  | nil => exact List.forall_mem_nil _
  | @cons _ t _ _ hrun _ ih =>
    exact List.forall_mem_cons.2 ⟨⟨t.number, hrun.1, fitsWord_toInt t.value⟩, ih⟩

/-- **The leftmost run that writes no word is reported**, and nothing else. -/
theorem tokenize_eq_error_iff {e : LoadError} :
    tokenize text = .error e ↔
      ∃ before run after, MaximalRuns 0 text (before ++ run :: after) ∧
        (∀ earlier ∈ before, earlier.WritesWord) ∧ ¬ run.WritesWord ∧
        e = ⟨.invalidInteger run.text, run.span⟩ := by
  rw [tokenize, Except.mapM_eq_error_iff]
  simp only [Token.ofLexeme_eq_error_iff, Lexeme.writesWord_iff, maximalRuns_iff, lexemes]

theorem exists_tokens {runs : List Lexeme}
    (h : List.Forall₂ (fun run number => Numeral.Writes run.text number) runs numbers)
    (hfits : ∀ number ∈ numbers, Numeral.FitsWord number) :
    ∃ tokens : List Token, tokens.map Token.number = numbers ∧
      List.Forall₂ (fun run t => Numeral.Writes run.text t.number ∧ t.span = run.span)
        runs tokens := by
  induction h with
  | nil => exact ⟨[], rfl, .nil⟩
  | @cons run number _ _ hwrites _ ih =>
    rw [List.forall_mem_cons] at hfits
    obtain ⟨tokens, rfl, htokens⟩ := ih hfits.2
    let t : Token := ⟨Int64.ofInt number, run.span⟩
    have hnumber : t.number = number := Numeral.toInt_ofInt_of_fitsWord hfits.1
    refine ⟨t :: tokens, ?_, .cons ⟨?_, rfl⟩ htokens⟩
    · rw [List.map_cons, hnumber]
    · rw [hnumber]
      exact hwrites

/-- **A text has tokens iff it spells integers that fit words.** -/
theorem exists_tokenize_iff_spells :
    (∃ tokens, tokenize text = .ok tokens ∧ tokens.map Token.number = numbers) ↔
      Spells text numbers ∧ ∀ number ∈ numbers, Numeral.FitsWord number := by
  simp only [tokenize_eq_ok_iff]
  constructor
  · rintro ⟨tokens, ⟨runs, hruns, htokens⟩, rfl⟩
    refine ⟨⟨runs, hruns, ?_⟩, ?_⟩
    · rw [List.forall₂_map_right_iff]
      exact htokens.imp fun _ _ h => h.1
    · intro number hnumber
      obtain ⟨t, -, rfl⟩ := List.mem_map.1 hnumber
      exact fitsWord_toInt t.value
  · rintro ⟨⟨runs, hruns, hwrites⟩, hfits⟩
    obtain ⟨tokens, hnumbers, htokens⟩ := exists_tokens hwrites hfits
    exact ⟨tokens, ⟨runs, hruns, htokens⟩, hnumbers⟩

theorem Spells.unique {others : List Int} (h : Spells text numbers) (h' : Spells text others) :
    numbers = others := by
  obtain ⟨runs, hruns, hwrites⟩ := h
  obtain ⟨runs', hruns', hwrites'⟩ := h'
  obtain rfl : runs = runs' := (maximalRuns_iff.1 hruns).symm.trans (maximalRuns_iff.1 hruns')
  exact List.right_unique_forall₂' (fun _ _ _ h h' => h.unique h') hwrites hwrites'

/-- **All lists of integers have a spelling.** -/
theorem exists_spells (numbers : List Int) : ∃ text, Spells text numbers := by
  have hruns (offset : Nat) : ∃ text runs, MaximalRuns offset text runs ∧
      List.Forall₂ (fun run number => Numeral.Writes run.text number) runs numbers := by
    induction numbers generalizing offset with
    | nil => exact ⟨[], [], .nil, .nil⟩
    | cons number numbers ih =>
      obtain ⟨word, hword⟩ : ∃ word, Numeral.Writes word number := ⟨_, Numeral.writes_repr number⟩
      obtain ⟨text, runs, hruns, hwrites⟩ := ih (offset + byteLength word + ' '.utf8Size)
      -- a blank ends each numeral
      have hblank : MaximalRuns (offset + byteLength word) (' ' :: text) runs :=
        .blank (by decide) hruns
      exact ⟨word ++ ' ' :: text, ⟨word, offset⟩ :: runs,
        .run hword.ne_nil hword.isSolid_of_mem (fun c hc => by cases hc; decide) hblank,
        .cons hword hwrites⟩
  obtain ⟨text, runs, h⟩ := hruns 0
  exact ⟨text, runs, h⟩

end ResidueMachine
