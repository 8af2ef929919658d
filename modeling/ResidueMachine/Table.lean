/-!
# Lookup tables

A `Table` is a read-only sequence of words, addressed from `1`.

* `Table.get?` : the word at a 1-based index, if there is one.
* `Table.get?_eq_none_iff` : the indices without a word are those outside `[1, size]`.
-/

namespace ResidueMachine

/-- A read-only sequence of words. -/
structure Table where
  /-- The words, the one with index `1` first. -/
  words : Array Int64
  deriving DecidableEq

namespace Table

/-- The number of words. -/
def size (t : Table) : Nat :=
  t.words.size

/-- The table has no words. -/
def isEmpty (t : Table) : Bool :=
  t.words.isEmpty

/-- The words in order. -/
def toList (t : Table) : List Int64 :=
  t.words.toList

/-- The word at a 1-based index.  Zero and the negative indices name no word. -/
def get? (t : Table) (index : Int64) : Option Int64 :=
  if 0 < index.toInt then t.words[index.toInt.toNat - 1]? else none

/-- The table as it is shown to a developer, its words first and then their number. -/
def debug (t : Table) : String :=
  let words := ", ".intercalate (t.toList.map toString)
  s!"LookupTable \x7b values: [{words}], len: {t.size} \x7d"

@[simp] theorem length_toList (t : Table) : t.toList.length = t.size := rfl

theorem get?_eq_none_iff {t : Table} {index : Int64} :
    t.get? index = none ↔ index.toInt < 1 ∨ (t.size : Int) < index.toInt := by
  simp only [get?, size]
  split
  · rw [Array.getElem?_eq_none_iff]; omega
  · simp; omega

end Table

end ResidueMachine
