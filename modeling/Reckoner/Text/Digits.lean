/-
This file reads the digits of a number and the point among them.
-/

namespace Reckoner

/-- There is a fraction, perhaps an empty one, exactly when there is a point. -/
structure Digits where
  whole : List Char
  fraction? : Option (List Char)

namespace Digits

def fraction (digits : Digits) : List Char := digits.fraction?.getD []

def text (digits : Digits) : List Char :=
  match digits.fraction? with
  | none => digits.whole
  | some fraction => digits.whole ++ '.' :: fraction

/-- The longest run of digits with at most one point, and what follows it. -/
def span (source : List Char) : Digits × List Char :=
  let whole := source.takeWhile Char.isDigit
  match source.dropWhile Char.isDigit with
  | '.' :: rest => (⟨whole, some (rest.takeWhile Char.isDigit)⟩, rest.dropWhile Char.isDigit)
  | rest => (⟨whole, none⟩, rest)

theorem text_append_span (source : List Char) :
    (span source).1.text ++ (span source).2 = source := by
  have whole := List.takeWhile_append_dropWhile (p := Char.isDigit) (l := source)
  unfold span
  split
  · next rest point =>
      have fraction := List.takeWhile_append_dropWhile (p := Char.isDigit) (l := rest)
      rw [point] at whole
      simp only [text, List.append_assoc, List.cons_append, fraction, whole]
  · exact whole

theorem text_span_ne_nil {first : Char} (rest : List Char)
    (starts : (first.isDigit || first == '.') = true) :
    (span (first :: rest)).1.text ≠ [] := by
  unfold span
  split
  · simp [text]
  · next point =>
      by_cases digit : first.isDigit
      · simp [text, List.takeWhile_cons_of_pos digit]
      · obtain rfl : first = '.' := by simpa [digit] using starts
        simp [List.dropWhile_cons_of_neg digit] at point

/-- A number that starts with a digit or a point leaves less text behind. -/
theorem length_span_lt {first : Char} (rest : List Char)
    (starts : (first.isDigit || first == '.') = true) :
    (span (first :: rest)).2.length < (first :: rest).length := by
  have lengths := congrArg List.length (text_append_span (first :: rest))
  have positive := List.length_pos_iff.mpr (text_span_ne_nil rest starts)
  rw [List.length_append] at lengths
  omega

end Digits

end Reckoner
