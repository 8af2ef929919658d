/-!
# Byte ranges of a text

A `Span` is a range of byte offsets in the UTF-8 encoding of a text.  Texts are lists of
characters here, and `byteLength` measures them.
-/

namespace ResidueMachine

/-- The number of bytes in the UTF-8 encoding of a text. -/
def byteLength (text : List Char) : Nat :=
  text.foldr (fun c bytes => c.utf8Size + bytes) 0

@[simp] theorem byteLength_nil : byteLength [] = 0 := rfl

@[simp] theorem byteLength_cons (c : Char) (text : List Char) :
    byteLength (c :: text) = c.utf8Size + byteLength text := rfl

@[simp] theorem byteLength_append (text more : List Char) :
    byteLength (text ++ more) = byteLength text + byteLength more := by
  induction text with
  | nil => simp
  | cons c rest ih => simp [ih, Nat.add_assoc]

/-- The characters of a string take up its bytes. -/
theorem byteLength_toList (s : String) : byteLength s.toList = s.utf8ByteSize := by
  rw [← String.size_toByteArray, ← String.utf8Encode_toList]
  induction s.toList with
  | nil => rfl
  | cons c rest ih => simp [ih, List.utf8Encode]

/-- A range of bytes, from `start` up to and without `stop`. -/
structure Span where
  /-- The offset of the first byte. -/
  start : Nat
  /-- The offset after the last byte. -/
  stop : Nat
  deriving DecidableEq, Repr

namespace Span

/-- The number of bytes in the range. -/
def length (s : Span) : Nat :=
  s.stop - s.start

/-- The range before the byte at an offset, which holds no byte. -/
def emptyAt (offset : Nat) : Span :=
  ⟨offset, offset⟩

/-- The range from the start of one range to the end of another. -/
def through (first last : Span) : Span :=
  ⟨first.start, last.stop⟩

end Span

end ResidueMachine
