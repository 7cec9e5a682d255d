import DesignTokens.Css.Name

/-!
The inside of strings and of unquoted urls, each read after its opening. Both end quietly at the
end of the text; a missing value marks a malformed one.
-/

namespace DesignTokens.Css

/-- Reads a string after its opening quote. The value is missing if a newline comes before the
closing quote; the end of the text closes the string. An escaped newline counts for nothing. -/
def quoted (quote : Char) (text : List Char) : Option (List Char) × List Char :=
  match text with
  | [] => (some [], [])
  | c :: rest =>
    if c = quote then (some [], rest)
    else if isNewline c then (none, text)
    else if c = '\\' then
      match rest with
      | [] => (some [], [])
      | next :: after =>
        if isNewline next then
          have := (dropNewline_suffix (next :: after)).length_le
          quoted quote (dropNewline (next :: after))
        else
          have := escape_length (next :: after)
          let following := quoted quote (escape (next :: after)).2
          (following.1.map ((escape (next :: after)).1 :: ·), following.2)
    else
      let following := quoted quote rest
      (following.1.map (readable c :: ·), following.2)
termination_by text.length
decreasing_by all_goals simp_all only [List.length_cons]; omega

theorem quoted_suffix (quote : Char) (text : List Char) : (quoted quote text).2 <:+ text := by
  fun_induction quoted quote text with
  | case1 => exact List.suffix_refl _
  | case2 => exact List.suffix_cons _ _
  | case3 => exact List.suffix_refl _
  | case4 => exact List.nil_suffix
  | case5 next after _ _ _ _ ih =>
    exact ih.trans ((dropNewline_suffix _).trans (List.suffix_cons _ _))
  | case6 next after _ _ _ _ following ih =>
    exact ih.trans ((escape_suffix _).trans (List.suffix_cons _ _))
  | case7 c rest _ _ _ following ih => exact ih.trans (List.suffix_cons _ _)

/-- What is left after a malformed url: all up to its closing parenthesis. An escaped closing
parenthesis or backslash does not count. -/
def urlRemnants : List Char → List Char
  | [] => []
  | ')' :: rest => rest
  | '\\' :: ')' :: rest => urlRemnants rest
  | '\\' :: '\\' :: rest => urlRemnants rest
  | _ :: rest => urlRemnants rest

theorem urlRemnants_suffix (text : List Char) : urlRemnants text <:+ text := by
  fun_induction urlRemnants text with
  | case1 => exact List.suffix_refl _
  | case2 => exact List.suffix_cons _ _
  | case3 rest ih => exact ih.trans ⟨['\\', ')'], rfl⟩
  | case4 rest ih => exact ih.trans ⟨['\\', '\\'], rfl⟩
  | case5 c rest _ _ _ ih => exact ih.trans (List.suffix_cons _ _)

def urlEnd (text : List Char) : Option (List Char) × List Char :=
  match text.dropWhile isSpace with
  | [] => (some [], [])
  | ')' :: rest => (some [], rest)
  | _ :: rest => (none, urlRemnants rest)

theorem urlEnd_suffix (text : List Char) : (urlEnd text).2 <:+ text := by
  have dropped : text.dropWhile isSpace <:+ text := List.dropWhile_suffix _
  unfold urlEnd
  split
  · exact List.nil_suffix
  · rename_i rest found
    exact (List.suffix_cons _ _).trans (found ▸ dropped)
  · rename_i c rest _ found
    exact (urlRemnants_suffix rest).trans ((List.suffix_cons _ _).trans (found ▸ dropped))

/-- Reads an unquoted url after the white space that may precede it. The value is missing if the
url is malformed; the end of the text closes it. -/
def unquoted (text : List Char) : Option (List Char) × List Char :=
  match text with
  | [] => (some [], [])
  | c :: rest =>
    if isSpace c then urlEnd text
    else if c = ')' then (some [], rest)
    else if isNonPrintable c || c = '"' || c = '\'' || c = '(' then (none, urlRemnants rest)
    else if c = '\\' then
      if startsWithNewline rest then (none, urlRemnants rest)
      else
        have := escape_length rest
        let following := unquoted (escape rest).2
        (following.1.map ((escape rest).1 :: ·), following.2)
    else
      let following := unquoted rest
      (following.1.map (readable c :: ·), following.2)
termination_by text.length
decreasing_by all_goals simp_all only [List.length_cons]; omega

theorem unquoted_suffix (text : List Char) : (unquoted text).2 <:+ text := by
  fun_induction unquoted text with
  | case1 => exact List.suffix_refl _
  | case2 c rest _ => exact urlEnd_suffix _
  | case3 => exact List.suffix_cons _ _
  | case4 c rest _ _ _ => exact (urlRemnants_suffix _).trans (List.suffix_cons _ _)
  | case5 => exact (urlRemnants_suffix _).trans (List.suffix_cons _ _)
  | case6 rest _ _ _ _ _ following ih =>
    exact ih.trans ((escape_suffix rest).trans (List.suffix_cons _ _))
  | case7 c rest _ _ _ _ following ih => exact ih.trans (List.suffix_cons _ _)

end DesignTokens.Css
