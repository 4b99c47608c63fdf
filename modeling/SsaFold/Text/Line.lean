/-!
# Lines

A line ends with a line feed, or with a carriage return and a line feed.  The last line need
not be ended; a carriage return in front of the end of the text belongs to the line.
-/

namespace SsaFold.Text

/-- The lines of a text. -/
def splitLines : List Char → List (List Char)
  | [] => []
  | '\r' :: '\n' :: cs => [] :: splitLines cs
  | c :: cs =>
    if c = '\n' then [] :: splitLines cs
    else match splitLines cs with
      | [] => [[c]]
      | line :: lines => (c :: line) :: lines

/-- The lines of a text, numbered from one. -/
def numberedLines (text : String) : List (Nat × String) :=
  (splitLines text.toList).zipIdx.map fun (line, k) => (k + 1, String.ofList line)

theorem splitLines_newline (cs : List Char) : splitLines ('\n' :: cs) = [] :: splitLines cs := by
  simp [splitLines]

/-- No line holds a line feed. -/
theorem not_mem_of_mem_splitLines {cs line : List Char} (h : line ∈ splitLines cs) :
    '\n' ∉ line := by
  fun_induction splitLines cs generalizing line with
  | case1 => simp at h
  | case2 cs ih =>
    rcases List.mem_cons.1 h with rfl | h
    · simp
    · exact ih h
  | case3 cs _ ih =>
    rcases List.mem_cons.1 h with rfl | h
    · simp
    · exact ih h
  | case4 c cs _ hc hnil ih =>
    rcases List.mem_cons.1 h with rfl | h
    · simpa using Ne.symm hc
    · simp at h
  | case5 c cs _ hc head tail hcons ih =>
    rcases List.mem_cons.1 h with rfl | h
    · simp only [List.mem_cons, not_or]
      exact ⟨Ne.symm hc, ih (by simp [hcons])⟩
    · exact ih (by simp [hcons, h])

end SsaFold.Text
