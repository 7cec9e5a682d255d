import DesignTokens.Css.Character

/-!
Names and escapes. A reader returns what it read and the rest, and the rest is a suffix of the
text; where a name starts, it takes at least one character.
-/

namespace DesignTokens.Css

def startsWithNewline : List Char → Bool
  | c :: _ => isNewline c
  | [] => false

/-- A carriage return and a line feed count as one newline. -/
def dropNewline : List Char → List Char
  | '\r' :: '\n' :: rest => rest
  | c :: rest => if isNewline c then rest else c :: rest
  | [] => []

def dropOneSpace : List Char → List Char
  | '\r' :: '\n' :: rest => rest
  | c :: rest => if isSpace c then rest else c :: rest
  | [] => []

/-- Reads an escape after its backslash: up to six hexadecimal digits, or any one character. At
the end of the text it is the replacement character. -/
def escape : List Char → Char × List Char
  | [] => (replacementCharacter, [])
  | c :: rest =>
    if isHexDigit c then
      let digits := ((c :: rest).take 6).takeWhile isHexDigit
      (escapedCharacter (readHex digits), dropOneSpace ((c :: rest).drop digits.length))
    else
      (readable c, rest)

theorem dropNewline_suffix (text : List Char) : dropNewline text <:+ text := by
  unfold dropNewline
  split
  · exact ⟨['\r', '\n'], rfl⟩
  · split
    · exact List.suffix_cons _ _
    · exact List.suffix_refl _
  · exact List.suffix_refl _

theorem dropOneSpace_suffix (text : List Char) : dropOneSpace text <:+ text := by
  unfold dropOneSpace
  split
  · exact ⟨['\r', '\n'], rfl⟩
  · split
    · exact List.suffix_cons _ _
    · exact List.suffix_refl _
  · exact List.suffix_refl _

theorem escape_suffix (text : List Char) : (escape text).2 <:+ text := by
  unfold escape
  split
  · exact List.suffix_refl _
  · split
    · exact (dropOneSpace_suffix _).trans (List.drop_suffix _ _)
    · exact List.suffix_cons _ _

theorem escape_length (text : List Char) : (escape text).2.length ≤ text.length :=
  (escape_suffix text).length_le

def name (text : List Char) : List Char × List Char :=
  match text with
  | [] => ([], [])
  | c :: rest =>
    if c = '\\' then
      if startsWithNewline rest then ([], text)
      else
        have := escape_length rest
        let following := name (escape rest).2
        ((escape rest).1 :: following.1, following.2)
    else if isNameChar c then
      let following := name rest
      (readable c :: following.1, following.2)
    else
      ([], text)
termination_by text.length
decreasing_by all_goals simp_all only [List.length_cons]; omega

theorem name_suffix (text : List Char) : (name text).2 <:+ text := by
  fun_induction name text with
  | case1 => exact List.suffix_refl _
  | case2 => exact List.suffix_refl _
  | case3 rest _ _ following ih =>
    exact ih.trans ((escape_suffix rest).trans (List.suffix_cons _ _))
  | case4 c rest _ _ following ih => exact ih.trans (List.suffix_cons _ _)
  | case5 => exact List.suffix_refl _

/-- Whether a name starts here. A backslash starts one unless a newline follows it; after a
hyphen it always does. -/
def startsName : List Char → Bool
  | '-' :: c :: _ => isNameStart c || c = '-' || c = '\\'
  | '\\' :: rest => !startsWithNewline rest
  | c :: _ => isNameStart c
  | [] => false

theorem name_length_lt {text : List Char} (starts : startsName text = true) :
    (name text).2.length < text.length := by
  have escaped (rest : List Char) := (name_suffix (escape rest).2).length_le
  have plain (rest : List Char) := (name_suffix rest).length_le
  unfold name
  match text with
  | [] => simp [startsName] at starts
  | c :: rest =>
    have shorter := escape_length rest
    have inner := escaped rest
    have tail := plain rest
    by_cases slash : c = '\\'
    · subst slash
      have unbroken : startsWithNewline rest = false := by simpa [startsName] using starts
      simp [unbroken]
      omega
    · have allowed : isNameChar c = true := by
        by_cases hyphen : c = '-'
        · simp [isNameChar, hyphen]
        · cases rest <;> simp_all [startsName, isNameChar]
      simp [slash, allowed]
      omega

end DesignTokens.Css
