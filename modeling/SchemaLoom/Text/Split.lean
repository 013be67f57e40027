namespace SchemaLoom

/-! Texts in parts: between the occurrences of a character, and as lines. -/

/-- The parts of a text between all occurrences of a character; one more than
there are occurrences. -/
def splitAtChar (separator : Char) : List Char → List (List Char)
  | [] => [[]]
  | char :: rest =>
      if char = separator then [] :: splitAtChar separator rest
      else
        match splitAtChar separator rest with
        | [] => [[char]]
        | part :: parts => (char :: part) :: parts

def splitText (separator : Char) (text : String) : List String :=
  (splitAtChar separator text.toList).map String.ofList

theorem splitAtChar_eq_splitOn (separator : Char) (text : List Char) :
    splitAtChar separator text = text.splitOn separator := by
  induction text with
  | nil => rfl
  | cons char rest ih =>
      rw [splitAtChar, List.splitOn_cons_eq_if_modifyHead, ih]
      by_cases hchar : char = separator
      · rw [if_pos hchar, if_pos (beq_iff_eq.mpr hchar)]
      · rw [if_neg hchar, if_neg (mt beq_iff_eq.mp hchar)]
        cases hrest : rest.splitOn separator with
        | nil => exact absurd hrest (List.splitOn_ne_nil separator rest)
        | cons part parts => rfl

theorem not_mem_of_mem_splitAtChar {separator : Char} {text part : List Char}
    (h : part ∈ splitAtChar separator text) : separator ∉ part := by
  fun_induction splitAtChar separator text generalizing part with
  | case1 =>
      rw [List.mem_singleton.mp h]
      exact List.not_mem_nil
  | case2 rest ih =>
      rcases List.mem_cons.mp h with rfl | h
      · exact List.not_mem_nil
      · exact ih h
  | case3 char rest hchar hnone ih =>
      rw [List.mem_singleton.mp h]
      simpa using Ne.symm hchar
  | case4 char rest hchar first parts hsome ih =>
      rcases List.mem_cons.mp h with rfl | h
      · exact List.not_mem_cons_of_ne_of_not_mem (Ne.symm hchar)
          (ih (hsome ▸ List.mem_cons_self))
      · exact ih (hsome ▸ List.mem_cons_of_mem _ h)

theorem not_mem_of_mem_splitText {separator : Char} {text part : String}
    (h : part ∈ splitText separator text) : separator ∉ part.toList := by
  obtain ⟨chars, hchars, rfl⟩ := List.mem_map.mp h
  rw [String.toList_ofList]
  exact not_mem_of_mem_splitAtChar hchars

/-! A text as lines.  A line ends at a line feed, and one carriage return right
before the line feed belongs to the ending.  No line starts behind a final line
feed, and a carriage return that ends the text stays. -/

/-- Puts a character in front of the first line. -/
def consFirst (char : Char) : List (List Char) → List (List Char)
  | [] => [[char]]
  | line :: rest => (char :: line) :: rest

def splitLines : List Char → List (List Char)
  | [] => []
  | '\n' :: rest => [] :: splitLines rest
  | '\r' :: '\n' :: rest => [] :: splitLines rest
  | char :: rest => consFirst char (splitLines rest)

/-- Lines with a line feed between them and none at the end. -/
def joinLines (lines : List (List Char)) : List Char :=
  ['\n'].intercalate lines

end SchemaLoom
