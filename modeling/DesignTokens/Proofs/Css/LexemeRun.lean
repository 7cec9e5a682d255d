import DesignTokens.Proofs.Css.Locality

/-!
Runs of lexemes. The lexemes of a text follow each other without a gap, a text that starts later has
the same lexemes further on, and what is read up to a guard is read there whatever follows it.
-/

namespace DesignTokens.Css

open DesignTokens.Text

def Lexeme.shift (lexeme : Lexeme) (offset : Nat) : Lexeme :=
  { lexeme with start := lexeme.start + offset }

theorem Lexeme.stop_shift (lexeme : Lexeme) (offset : Nat) :
    (lexeme.shift offset).stop = lexeme.stop + offset := by
  simp only [Lexeme.shift, Lexeme.stop]
  omega

def lexemeText (run : List Lexeme) : List Char :=
  run.flatMap Lexeme.text

@[simp] theorem lexemeText_nil : lexemeText [] = [] := rfl

@[simp] theorem lexemeText_cons (lexeme : Lexeme) (run : List Lexeme) :
    lexemeText (lexeme :: run) = lexeme.text ++ lexemeText run := rfl

@[simp] theorem lexemeText_append (left right : List Lexeme) :
    lexemeText (left ++ right) = lexemeText left ++ lexemeText right :=
  List.flatMap_append

/-- The lexemes follow each other from the given offset, and none is empty. -/
def Contiguous (start : Nat) : List Lexeme → Prop
  | [] => True
  | lexeme :: rest => lexeme.start = start ∧ lexeme.text ≠ [] ∧ Contiguous lexeme.stop rest

theorem contiguous_append {start : Nat} {left right : List Lexeme} :
    Contiguous start (left ++ right) ↔
      Contiguous start left ∧ Contiguous (start + byteLength (lexemeText left)) right := by
  induction left generalizing start with
  | nil => simp [Contiguous]
  | cons lexeme rest ih =>
    simp only [List.cons_append, Contiguous, ih, and_assoc, lexemeText_cons, byteLength_append]
    apply and_congr_right
    intro begins
    have place : lexeme.stop + byteLength (lexemeText rest) =
        start + (byteLength lexeme.text + byteLength (lexemeText rest)) := by
      rw [Lexeme.stop, begins, Nat.add_assoc]
    rw [place]

theorem byteLength_pos {text : List Char} (nonempty : text ≠ []) : 0 < byteLength text := by
  cases text with
  | nil => contradiction
  | cons c rest =>
    have positive := c.utf8Size_pos
    simp only [byteLength_cons]
    omega

theorem consumed_of_append (left right : List Char) : consumed (left ++ right) right = left := by
  simp [consumed]

theorem consumed_scan (c : Char) (rest : List Char) :
    consumed (c :: rest) (scan c rest).2 ++ (scan c rest).2 = c :: rest :=
  consumed_append ((scan_suffix c rest).trans (List.suffix_cons _ _))

theorem consumed_scan_ne_nil (c : Char) (rest : List Char) :
    consumed (c :: rest) (scan c rest).2 ≠ [] := by
  intro empty
  have whole := consumed_scan c rest
  have shorter := (scan_suffix c rest).length_le
  rw [empty, List.nil_append] at whole
  rw [whole, List.length_cons] at shorter
  omega

def firstLexeme (start : Nat) (c : Char) (rest : List Char) : Lexeme :=
  ⟨(scan c rest).1, consumed (c :: rest) (scan c rest).2, start⟩

theorem lexemesFrom_cons (start : Nat) (c : Char) (rest : List Char) :
    lexemesFrom start (c :: rest) =
      firstLexeme start c rest ::
        lexemesFrom (firstLexeme start c rest).stop (scan c rest).2 := by
  rw [lexemesFrom]
  rfl

theorem contiguous_lexemesFrom (start : Nat) (text : List Char) :
    Contiguous start (lexemesFrom start text) := by
  fun_induction lexemesFrom start text with
  | case1 => trivial
  | case2 start c rest _ lexeme ih => exact ⟨rfl, consumed_scan_ne_nil c rest, ih⟩

theorem lexemesFrom_shift (start offset : Nat) (text : List Char) :
    lexemesFrom (start + offset) text =
      (lexemesFrom start text).map fun lexeme => lexeme.shift offset := by
  fun_induction lexemesFrom start text with
  | case1 => simp [lexemesFrom]
  | case2 start c rest _ lexeme ih =>
    rw [lexemesFrom_cons, List.map_cons, ← ih]
    have moved : firstLexeme (start + offset) c rest = lexeme.shift offset := rfl
    rw [moved, Lexeme.stop_shift]

theorem lexemeText_lexemesFrom (start : Nat) (text : List Char) :
    lexemeText (lexemesFrom start text) = text :=
  flatMap_lexemesFrom start text

theorem lexeme_scanned {start : Nat} {text : List Char} {lexeme : Lexeme}
    (member : lexeme ∈ lexemesFrom start text) :
    ∃ begins c rest, lexeme = firstLexeme begins c rest := by
  fun_induction lexemesFrom start text with
  | case1 => contradiction
  | case2 start c rest _ first ih =>
    rcases List.mem_cons.1 member with rfl | later
    · exact ⟨start, c, rest, rfl⟩
    · exact ih later

/-- A text is read on from any of its lexemes as if it started there. -/
theorem lexemesFrom_suffix {start : Nat} {text : List Char} {before after : List Lexeme}
    (read : lexemesFrom start text = before ++ after) :
    lexemesFrom (start + byteLength (lexemeText before)) (lexemeText after) = after := by
  induction before generalizing start text with
  | nil =>
    have whole := lexemeText_lexemesFrom start text
    rw [List.nil_append] at read
    rw [← read, whole, lexemeText_nil, byteLength_nil, Nat.add_zero]
  | cons lexeme rest ih =>
    cases text with
    | nil => simp [lexemesFrom] at read
    | cons c tail =>
      rw [lexemesFrom_cons, List.cons_append, List.cons.injEq] at read
      obtain ⟨rfl, following⟩ := read
      have place : start + byteLength (lexemeText (firstLexeme start c tail :: rest)) =
          (firstLexeme start c tail).stop + byteLength (lexemeText rest) := by
        rw [lexemeText_cons, byteLength_append, Lexeme.stop, Nat.add_assoc]
        rfl
      rw [place]
      exact ih following

section Guards

variable {guard : Char} (guarded : isGuard guard = true)
include guarded

theorem not_startsNumber_guard (after : List Char) : startsNumber (guard :: after) = false := by
  have plus : guard ≠ '+' := guard_ne guarded rfl
  have minus : guard ≠ '-' := guard_ne guarded rfl
  have point : guard ≠ '.' := guard_ne guarded rfl
  simp [startsNumber, plus, minus, startsDigits_cons, point, guard_not_digit guarded]

theorem scan_guard (after : List Char) : scan guard after = (punctuation guard, after) := by
  have matchless : startsMatch guard = false := by
    rcases guard_cases guarded with rfl | rfl | rfl | rfl | rfl | rfl | rfl | rfl | rfl <;> rfl
  have single : guard ≠ '"' := guard_ne guarded rfl
  have double : guard ≠ '\'' := guard_ne guarded rfl
  have hash : guard ≠ '#' := guard_ne guarded rfl
  have command : guard ≠ '@' := guard_ne guarded rfl
  have hyphen : '-' ≠ guard := (guard_ne guarded rfl).symm
  have slash : guard ≠ '/' := guard_ne guarded rfl
  have less : guard ≠ '<' := guard_ne guarded rfl
  simp [scan, guard_not_space guarded, single, double, hash, command, hyphen, slash, less,
    not_startsNumber_guard guarded, not_startsName_guard guarded, symbol_eq, matchless,
    List.isPrefixOf]

theorem firstLexeme_guard (start : Nat) (after : List Char) :
    firstLexeme start guard after = ⟨punctuation guard, [guard], start⟩ := by
  simp [firstLexeme, scan_guard guarded, consumed]

theorem lexemesFrom_guard (start : Nat) (after : List Char) :
    lexemesFrom start (guard :: after) =
      ⟨punctuation guard, [guard], start⟩ :: lexemesFrom (start + guard.utf8Size) after := by
  rw [lexemesFrom_cons, firstLexeme_guard guarded, scan_guard guarded]
  simp [Lexeme.stop]

/-- A token that ends before a guard is the same whatever comes after the guard. -/
theorem firstLexeme_before_guard (start : Nat) {c : Char} {taken rest after : List Char}
    (left : (scan c (taken ++ rest ++ guard :: after)).2 = rest ++ guard :: after)
    (other : List Char) :
    firstLexeme start c (taken ++ rest ++ guard :: other) =
        ⟨(scan c (taken ++ rest ++ guard :: after)).1, c :: taken, start⟩ ∧
      (scan c (taken ++ rest ++ guard :: other)).2 = rest ++ guard :: other := by
  rcases scan_decided guarded c (taken ++ rest) with ⟨value, kept, stops⟩ | passes
  · have same : kept = rest := by
      rw [stops after] at left
      exact List.append_cancel_right left
    have text : c :: (taken ++ rest ++ guard :: other) = c :: taken ++ (rest ++ guard :: other) := by
      simp
    subst same
    refine ⟨?_, by rw [stops other]⟩
    rw [firstLexeme, stops other, stops after, text, consumed_of_append]
  · have short := (passes after).length_le
    rw [left, List.length_append, List.length_cons] at short
    omega

theorem lexemesFrom_before_guard {start : Nat} {run following : List Lexeme} {after : List Char}
    (read : lexemesFrom start (lexemeText run ++ guard :: after) = run ++ following)
    (other : List Char) :
    lexemesFrom start (lexemeText run ++ guard :: other) =
      run ++ lexemesFrom (start + byteLength (lexemeText run)) (guard :: other) := by
  induction run generalizing start with
  | nil => simp
  | cons lexeme run ih =>
    obtain ⟨c, taken, shape⟩ : ∃ c taken, lexeme.text = c :: taken := by
      have filled := contiguous_lexemesFrom start (lexemeText (lexeme :: run) ++ guard :: after)
      rw [read] at filled
      exact List.exists_cons_of_ne_nil filled.2.1
    have text (tail : List Char) : lexemeText (lexeme :: run) ++ guard :: tail =
        c :: (taken ++ lexemeText run ++ guard :: tail) := by
      simp [shape]
    rw [text, lexemesFrom_cons, List.cons_append, List.cons.injEq] at read
    obtain ⟨first, next⟩ := read
    have left : (scan c (taken ++ lexemeText run ++ guard :: after)).2 =
        lexemeText run ++ guard :: after := by
      have whole := consumed_scan c (taken ++ lexemeText run ++ guard :: after)
      have same : consumed _ _ = c :: taken := (congrArg Lexeme.text first).trans shape
      rw [same] at whole
      simpa using whole
    obtain ⟨again, stops⟩ := firstLexeme_before_guard guarded start left other
    have token := congrArg Lexeme.token first
    have begins := congrArg Lexeme.start first
    have same : firstLexeme start c (taken ++ lexemeText run ++ guard :: other) = lexeme := by
      rw [again, ← shape]
      cases lexeme
      simp_all [firstLexeme]
    rw [first, left] at next
    rw [text, lexemesFrom_cons, same, stops, ih next, lexemeText_cons, byteLength_append,
      ← Nat.add_assoc, List.cons_append]
    have place : lexeme.stop = start + byteLength lexeme.text := by
      rw [Lexeme.stop, ← begins]
      rfl
    rw [place]

end Guards

def Token.isPunctuation : Token → Bool
  | .comma | .colon | .semicolon | .opening _ | .closing _ => true
  | _ => false

def Token.isMark : Token → Bool
  | .function _ => true
  | token => token.isPunctuation

theorem Token.isMark_of_isPunctuation {token : Token} (found : token.isPunctuation = true) :
    token.isMark = true := by
  cases token <;> first | rfl | contradiction

theorem guard_of_punctuation {c : Char} (found : (punctuation c).isMark = true) :
    isGuard c = true := by
  unfold punctuation at found
  split at found <;> first | rfl | contradiction

theorem guard_of_symbol {c : Char} {rest : List Char}
    (found : (symbol c rest).1.isMark = true) : isGuard c = true := by
  rw [symbol_eq] at found
  split at found
  · contradiction
  · split at found
    · contradiction
    · split at found
      · contradiction
      · exact guard_of_punctuation found

theorem numeric_not_mark (text : List Char) : (numeric text).1.isMark = false := by
  unfold numeric
  dsimp only
  split
  · rfl
  · split <;> rfl

theorem quotedToken_not_mark (quote : Char) (text : List Char) :
    (quotedToken quote text).1.isMark = false := by
  rw [quotedToken_eq]
  cases (quoted quote text).1 <;> rfl

theorem hashToken_not_mark (text : List Char) : (hashToken text).1.isMark = false := by
  rw [hashToken_eq]
  split <;> rfl

theorem atToken_not_mark (text : List Char) : (atToken text).1.isMark = false := by
  unfold atToken
  split <;> rfl

theorem nameLike_not_punctuation (text : List Char) :
    (nameLike text).1.isPunctuation = false := by
  unfold nameLike urlAfter
  dsimp only
  split
  · split
    · split
      · rfl
      · split <;> rfl
    · rfl
  · rfl

def startsWord (c : Char) (rest : List Char) : Bool :=
  !isSpace c && !(c = '"' || c = '\'') && c != '#' && c != '@' && !startsNumber (c :: rest) &&
    !(['-', '-', '>'].isPrefixOf (c :: rest)) && startsName (c :: rest)

theorem scan_word {c : Char} {rest : List Char} (word : startsWord c rest = true) :
    scan c rest = nameLike (c :: rest) := by
  simp only [startsWord, Bool.and_eq_true, Bool.not_eq_true', bne_iff_ne, ne_eq] at word
  obtain ⟨⟨⟨⟨⟨⟨space, quote⟩, hash⟩, command⟩, number⟩, arrow⟩, starts⟩ := word
  simp [scan, space, quote, hash, command, number, arrow, starts]

theorem scan_mark {c : Char} {rest : List Char} (found : (scan c rest).1.isMark = true) :
    isGuard c = true ∨ startsWord c rest = true := by
  unfold scan at found
  split at found
  · contradiction
  split at found
  · simp [quotedToken_not_mark] at found
  split at found
  · simp [hashToken_not_mark] at found
  split at found
  · simp [atToken_not_mark] at found
  split at found
  · simp [numeric_not_mark] at found
  split at found
  · contradiction
  split at found
  · rename_i space quote hash command number arrow starts
    exact Or.inr (by simp [startsWord, space, quote, hash, command, number, arrow, starts])
  · exact Or.inl (guard_of_symbol found)

/-- Punctuation comes from a guard and from nothing else. -/
theorem guard_of_scan {c : Char} {rest : List Char}
    (found : (scan c rest).1.isPunctuation = true) : isGuard c = true := by
  rcases scan_mark (Token.isMark_of_isPunctuation found) with guarded | named
  · exact guarded
  · rw [scan_word named, nameLike_not_punctuation] at found
    contradiction

theorem punctuation_lexeme {start : Nat} {text : List Char} {before after : List Lexeme}
    {lexeme : Lexeme} (read : lexemesFrom start text = before ++ lexeme :: after)
    (mark : lexeme.token.isPunctuation = true) :
    ∃ guard, isGuard guard = true ∧ lexeme.text = [guard] := by
  have follows := lexemesFrom_suffix read
  cases shape : lexemeText (lexeme :: after) with
  | nil =>
    rw [shape] at follows
    simp [lexemesFrom] at follows
  | cons c rest =>
    rw [shape, lexemesFrom_cons, List.cons.injEq] at follows
    have guarded : isGuard c = true := guard_of_scan (by rw [← follows.1] at mark; exact mark)
    rw [firstLexeme_guard guarded] at follows
    exact ⟨c, guarded, (congrArg Lexeme.text follows.1).symm⟩

theorem lexemesFrom_punctuation {start : Nat} {text : List Char} {before after : List Lexeme}
    {lexeme : Lexeme} (read : lexemesFrom start text = before ++ lexeme :: after)
    (mark : lexeme.token.isPunctuation = true) (other : List Char) :
    lexemesFrom start (lexemeText (before ++ [lexeme]) ++ other) =
      before ++ lexeme :: lexemesFrom lexeme.stop other := by
  obtain ⟨guard, guarded, shape⟩ := punctuation_lexeme read mark
  have whole := lexemeText_lexemesFrom start text
  rw [read, lexemeText_append, lexemeText_cons, shape, List.singleton_append] at whole
  rw [← whole] at read
  have placed := contiguous_lexemesFrom start (lexemeText before ++ guard :: lexemeText after)
  rw [read, contiguous_append] at placed
  have again := lexemesFrom_before_guard guarded read other
  have same : ⟨punctuation guard, [guard], start + byteLength (lexemeText before)⟩ = lexeme := by
    have original := lexemesFrom_before_guard guarded read (lexemeText after)
    rw [read, List.append_cancel_left_eq, lexemesFrom_guard guarded, List.cons.injEq] at original
    exact original.1.symm
  rw [lexemesFrom_guard guarded, same] at again
  have stop : lexeme.stop = start + byteLength (lexemeText before) + guard.utf8Size := by
    rw [Lexeme.stop, placed.2.1, shape]
    simp
  rw [lexemeText_append, lexemeText_cons, shape, lexemeText_nil, List.append_nil,
    List.append_assoc, List.singleton_append, again, stop]

end DesignTokens.Css
