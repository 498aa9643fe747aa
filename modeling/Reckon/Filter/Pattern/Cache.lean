import Reckon.Filter.Pattern.Search
import Std.Data.HashMap

/-!
# Caching patterns

A filter meets the same few patterns on every row.  The cache keeps them in the form in which they
are searched for; that a pattern comes out of it changes nothing (`find_pattern`).
-/

namespace Reckon

/-- Patterns by their text. -/
structure PatternCache where
  entries : Std.HashMap String Pattern
  /-- Every entry is the pattern of its text. -/
  sound : ∀ text p, entries[text]? = some p → p = Pattern.ofString text

namespace PatternCache

/-- A cache without patterns. -/
def empty : PatternCache := ⟨∅, by simp⟩

/-- How many patterns a cache may hold before it is emptied. -/
def capacity : Nat := 256

/-- The pattern of a text, and a cache that holds it. -/
def find (cache : PatternCache) (text : String) : Pattern × PatternCache :=
  match cache.entries[text]? with
  | some p => (p, cache)
  | none => (Pattern.ofString text, {
      entries := cache.entries.insert text (Pattern.ofString text)
      sound := by
        intro other p h
        rw [Std.HashMap.getElem?_insert] at h
        split at h
        · simp_all
        · exact cache.sound other p h })

/-- The cache as a row begins: emptied if it holds too much. -/
def trim (cache : PatternCache) : PatternCache :=
  if cache.entries.size > capacity then empty else cache

/-- The pattern that is found is that of the text, whether it was kept or not. -/
theorem find_pattern (cache : PatternCache) (text : String) :
    (cache.find text).1 = Pattern.ofString text := by
  unfold find
  split
  · exact cache.sound _ _ ‹_›
  · rfl

end PatternCache

end Reckon
