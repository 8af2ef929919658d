import ResidueMachine.Source.Span

/-!
# Lexemes

A text is split at its blanks.  Blanks are the space, the tab, the carriage return and the line
feed, and no other character.  A `Lexeme` is a maximal run of other characters, with the offset
of its first byte; `lexemes` lists those of a text in order.
-/

namespace ResidueMachine

/-- The characters that separate lexemes. -/
def isBlank (c : Char) : Bool :=
  c = ' ' || c = '\t' || c = '\r' || c = '\n'

/-- The characters of lexemes. -/
def isSolid (c : Char) : Bool :=
  !isBlank c

/-- A run of characters without a blank. -/
structure Lexeme where
  /-- The characters. -/
  text : List Char
  /-- The offset of the first byte. -/
  start : Nat
  deriving DecidableEq

/-- The bytes that a lexeme takes up. -/
def Lexeme.span (l : Lexeme) : Span :=
  ⟨l.start, l.start + byteLength l.text⟩

/-- What follows the first lexeme of a text is shorter than the text. -/
theorem length_dropWhile_lt {text rest : List Char} {c : Char}
    (h : text.dropWhile isBlank = c :: rest) :
    (rest.dropWhile isSolid).length < text.length := by
  have hrest : (rest.dropWhile isSolid).length ≤ rest.length :=
    (List.dropWhile_sublist _).length_le
  have htext : (text.dropWhile isBlank).length ≤ text.length :=
    (List.dropWhile_sublist _).length_le
  rw [h, List.length_cons] at htext
  omega

/-- The lexemes found so far, and then those of a text that starts at an offset. -/
def lexemesFrom (found : Array Lexeme) (offset : Nat) (text : List Char) : Array Lexeme :=
  match _h : text.dropWhile isBlank with
  | [] => found
  | c :: rest =>
    let word := c :: rest.takeWhile isSolid
    let start := offset + byteLength (text.takeWhile isBlank)
    lexemesFrom (found.push ⟨word, start⟩) (start + byteLength word) (rest.dropWhile isSolid)
termination_by text.length
decreasing_by exact length_dropWhile_lt _h

/-- The lexemes of a text, in order. -/
def lexemes (text : List Char) : List Lexeme :=
  (lexemesFrom #[] 0 text).toList

/-! ### One lexeme at a time -/

theorem lexemesFrom_of_dropWhile_eq_nil {found : Array Lexeme} {offset : Nat} {text : List Char}
    (h : text.dropWhile isBlank = []) : lexemesFrom found offset text = found := by
  rw [lexemesFrom]
  split
  · rfl
  · rename_i h'
    rw [h] at h'
    cases h'

theorem lexemesFrom_of_dropWhile_eq_cons {found : Array Lexeme} {offset : Nat}
    {text rest : List Char} {c : Char} (h : text.dropWhile isBlank = c :: rest) :
    lexemesFrom found offset text =
      let word := c :: rest.takeWhile isSolid
      let start := offset + byteLength (text.takeWhile isBlank)
      lexemesFrom (found.push ⟨word, start⟩) (start + byteLength word)
        (rest.dropWhile isSolid) := by
  rw [lexemesFrom]
  split
  · rename_i h'
    rw [h] at h'
    cases h'
  · rename_i h'
    rw [h] at h'
    cases h'
    rfl

/-- The lexemes found so far stay in front. -/
theorem lexemesFrom_eq_append (found : Array Lexeme) (offset : Nat) (text : List Char) :
    lexemesFrom found offset text = found ++ lexemesFrom #[] offset text := by
  cases h : text.dropWhile isBlank with
  | nil => simp [lexemesFrom_of_dropWhile_eq_nil h]
  | cons c rest =>
    have hlt := length_dropWhile_lt h
    rw [lexemesFrom_of_dropWhile_eq_cons h, lexemesFrom_of_dropWhile_eq_cons h]
    simp only
    rw [lexemesFrom_eq_append (found.push _), lexemesFrom_eq_append (Array.push #[] _)]
    simp
termination_by text.length

end ResidueMachine
