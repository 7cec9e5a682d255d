import DesignTokens.Css.Quoted
import DesignTokens.Css.Token
import DesignTokens.Text.Blank

/-!
The tokenizer. A reader takes the text after what was recognised already and returns what it read
and the rest; the rest is always a suffix of the text. The lexemes of a text, put together, are
the text again.
-/

namespace DesignTokens.Css

open DesignTokens.Text

def startsWithQuote : List Char → Bool
  | c :: _ => c = '"' || c = '\''
  | [] => false

/-- Reads what follows a name and an opening parenthesis when the name is `url`. With a quote
ahead it is an ordinary function. -/
def urlAfter (called : String) (text : List Char) : Token × List Char :=
  if startsWithQuote (text.dropWhile isSpace) then (.function called, text)
  else
    let body := unquoted (text.dropWhile isSpace)
    match body.1 with
    | some address => (.url (String.ofList address), body.2)
    | none => (.unclassified, body.2)

theorem urlAfter_suffix (called : String) (text : List Char) :
    (urlAfter called text).2 <:+ text := by
  unfold urlAfter
  split
  · exact List.suffix_refl _
  · dsimp only
    split <;> exact (unquoted_suffix _).trans (List.dropWhile_suffix _)

def nameLike (text : List Char) : Token × List Char :=
  let named := name text
  match named.2 with
  | '(' :: rest =>
    if sameIgnoringCase (String.ofList named.1) "url" then urlAfter (String.ofList named.1) rest
    else (.function (String.ofList named.1), rest)
  | rest => (.ident (String.ofList named.1), rest)

theorem nameLike_suffix (text : List Char) : (nameLike text).2 <:+ (name text).2 := by
  unfold nameLike
  dsimp only
  split
  · rename_i rest found
    have after : rest <:+ (name text).2 := found ▸ List.suffix_cons _ _
    split
    · exact (urlAfter_suffix _ rest).trans after
    · exact after
  · exact List.suffix_refl _

def numeric (text : List Char) : Token × List Char :=
  let read := numeral text
  match read.2 with
  | '%' :: rest => (.percentage read.1, rest)
  | rest =>
    if startsName rest then
      let unit := name rest
      (.dimension read.1 (String.ofList unit.1), unit.2)
    else
      (.number read.1, rest)

theorem numeric_suffix (text : List Char) : (numeric text).2 <:+ (numeral text).2 := by
  unfold numeric
  dsimp only
  split
  · rename_i rest found
    exact found ▸ List.suffix_cons _ _
  · split
    · exact name_suffix _
    · exact List.suffix_refl _

def afterComment : List Char → List Char
  | [] => []
  | '*' :: '/' :: rest => rest
  | _ :: rest => afterComment rest

theorem afterComment_suffix (text : List Char) : afterComment text <:+ text := by
  fun_induction afterComment text with
  | case1 => exact List.suffix_refl _
  | case2 rest => exact ⟨['*', '/'], rfl⟩
  | case3 c rest _ ih => exact ih.trans (List.suffix_cons _ _)

def quotedToken (quote : Char) (text : List Char) : Token × List Char :=
  let body := quoted quote text
  match body.1 with
  | some value => (.quoted (String.ofList value), body.2)
  | none => (.unclassified, body.2)

theorem quotedToken_suffix (quote : Char) (text : List Char) :
    (quotedToken quote text).2 <:+ text := by
  unfold quotedToken
  dsimp only
  split <;> exact quoted_suffix quote text

def hashToken (text : List Char) : Token × List Char :=
  let named := name text
  match text with
  | c :: _ =>
    if startsName text || c.isDigit || c = '-' then (.hash (String.ofList named.1), named.2)
    else (.delimiter '#', text)
  | [] => (.delimiter '#', text)

theorem hashToken_suffix (text : List Char) : (hashToken text).2 <:+ text := by
  unfold hashToken
  dsimp only
  split
  · split
    · exact name_suffix _
    · exact List.suffix_refl _
  · exact List.suffix_refl _

def atToken (text : List Char) : Token × List Char :=
  if startsName text then (.atKeyword (String.ofList (name text).1), (name text).2)
  else (.delimiter '@', text)

theorem atToken_suffix (text : List Char) : (atToken text).2 <:+ text := by
  unfold atToken
  split
  · exact name_suffix _
  · exact List.suffix_refl _

def punctuation (c : Char) : Token :=
  match c with
  | ',' => .comma
  | ':' => .colon
  | ';' => .semicolon
  | '(' => .opening .round
  | ')' => .closing .round
  | '[' => .opening .square
  | ']' => .closing .square
  | '{' => .opening .curly
  | '}' => .closing .curly
  | _ => .delimiter c

def startsMatch (c : Char) : Bool :=
  c = '$' || c = '*' || c = '^' || c = '|' || c = '~'

/-- Reads what starts with a character of no other kind: a comment, a match operator, the marks
of an HTML comment, or the character alone. -/
def symbol (c : Char) (rest : List Char) : Token × List Char :=
  match c, rest with
  | '/', '*' :: after => (.comment, afterComment after)
  | '<', '!' :: '-' :: '-' :: after => (.unclassified, after)
  | _, '=' :: after =>
    if startsMatch c then (.unclassified, after) else (punctuation c, '=' :: after)
  | _, _ => (punctuation c, rest)

theorem symbol_suffix (c : Char) (rest : List Char) : (symbol c rest).2 <:+ rest := by
  unfold symbol
  split
  · exact (afterComment_suffix _).trans (List.suffix_cons _ _)
  · exact ⟨['!', '-', '-'], rfl⟩
  · split
    · exact List.suffix_cons _ _
    · exact List.suffix_refl _
  · exact List.suffix_refl _

def scan (c : Char) (rest : List Char) : Token × List Char :=
  if isSpace c then (.space, rest.dropWhile isSpace)
  else if c = '"' || c = '\'' then quotedToken c rest
  else if c = '#' then hashToken rest
  else if c = '@' then atToken rest
  else if startsNumber (c :: rest) then numeric (c :: rest)
  else if ['-', '-', '>'].isPrefixOf (c :: rest) then (.unclassified, rest.drop 2)
  else if startsName (c :: rest) then nameLike (c :: rest)
  else symbol c rest

theorem suffix_tail {text rest : List Char} {c : Char} (suffix : text <:+ c :: rest)
    (shorter : text.length < (c :: rest).length) : text <:+ rest := by
  rcases List.suffix_cons_iff.1 suffix with rfl | found
  · exact absurd shorter (Nat.lt_irrefl _)
  · exact found

theorem scan_suffix (c : Char) (rest : List Char) : (scan c rest).2 <:+ rest := by
  unfold scan
  split
  · exact List.dropWhile_suffix _
  · split
    · exact quotedToken_suffix c rest
    · split
      · exact hashToken_suffix rest
      · split
        · exact atToken_suffix rest
        · split
          · rename_i starts
            exact (numeric_suffix _).trans
              (suffix_tail (numeral_suffix _) (numeral_length_lt starts))
          · split
            · exact List.drop_suffix _ _
            · split
              · rename_i starts
                exact (nameLike_suffix _).trans
                  (suffix_tail (name_suffix _) (name_length_lt starts))
              · exact symbol_suffix c rest

def consumed (text rest : List Char) : List Char :=
  text.take (text.length - rest.length)

theorem consumed_append {text rest : List Char} (suffix : rest <:+ text) :
    consumed text rest ++ rest = text := by
  obtain ⟨before, rfl⟩ := suffix
  simp [consumed]

def lexemesFrom (start : Nat) (text : List Char) : List Lexeme :=
  match text with
  | [] => []
  | c :: rest =>
    have := (scan_suffix c rest).length_le
    let lexeme : Lexeme := ⟨(scan c rest).1, consumed (c :: rest) (scan c rest).2, start⟩
    lexeme :: lexemesFrom lexeme.stop (scan c rest).2
termination_by text.length
decreasing_by simp_all only [List.length_cons]; omega

def lexemes (text : List Char) : List Lexeme :=
  lexemesFrom 0 text

theorem flatMap_lexemesFrom (start : Nat) (text : List Char) :
    (lexemesFrom start text).flatMap Lexeme.text = text := by
  fun_induction lexemesFrom start text with
  | case1 => rfl
  | case2 start c rest _ lexeme ih =>
    rw [List.flatMap_cons, ih]
    exact consumed_append ((scan_suffix c rest).trans (List.suffix_cons _ _))

theorem flatMap_lexemes (text : List Char) : (lexemes text).flatMap Lexeme.text = text :=
  flatMap_lexemesFrom 0 text

end DesignTokens.Css
