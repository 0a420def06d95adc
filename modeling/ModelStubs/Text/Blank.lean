/-
# Blank characters and trimming

A character is blank if Unicode gives it the property White_Space. `trim` takes
the blank characters off both ends of a text and leaves those inside alone.

Key definitions: `Text.isBlank`, `Text.trim`.
Key theorems: `Text.dropBlank_append_of_blank`.
-/
namespace ModelStubs
namespace Text

/-- The characters with the property White_Space: the five controls from tab to
carriage return, the space, the next-line control and the space separators and
line separators beyond ASCII. -/
def isBlank (c : Char) : Bool :=
  let n := c.toNat
  (9 ≤ n && n ≤ 13) || n == 0x20 || n == 0x85 || n == 0xA0 || n == 0x1680 ||
    (0x2000 ≤ n && n ≤ 0x200A) || n == 0x2028 || n == 0x2029 || n == 0x202F ||
    n == 0x205F || n == 0x3000

/-- The text without the blanks it starts with. -/
def dropBlank (s : List Char) : List Char := s.dropWhile isBlank

/-- Blanks put in front are dropped with the others. -/
theorem dropBlank_append_of_blank : ∀ (w s : List Char), (∀ c ∈ w, isBlank c = true) →
    dropBlank (w ++ s) = dropBlank s
  | [], _, _ => rfl
  | c :: w, s, h => by
    have hc := h c (by simp)
    simpa [dropBlank, hc] using dropBlank_append_of_blank w s fun d hd => h d (by simp [hd])

/-- The text without the blanks at its two ends. -/
def trimmed (s : List Char) : List Char := (dropBlank (dropBlank s).reverse).reverse

/-- The string without the blanks at its two ends. -/
def trim (s : String) : String := String.ofList (trimmed s.toList)

end Text
end ModelStubs
