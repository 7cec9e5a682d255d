import DesignTokens.Proofs.Css.LexemeRun
import DesignTokens.Proofs.Text.Cutting

/-!
What stands between tokens. White space and comments are told apart from all else by their text
alone: blanks, and what runs from one comment mark to the next or to the end.
-/

namespace DesignTokens.Css

open DesignTokens.Text

/-- Blanks and comments in front of the rest of a text. A comment ends with its first closing mark;
only at the end of the text it may lack one. -/
inductive Trivia (after : List Char) : List Char → Prop where
  | nil : Trivia after []
  | blank {c : Char} {rest : List Char} (blank : isBlank c = true)
      (following : Trivia after rest) : Trivia after (c :: rest)
  | comment {body rest : List Char} (unbroken : occursIn ['*', '/'] body = false)
      (following : Trivia after rest) : Trivia after ('/' :: '*' :: body ++ '*' :: '/' :: rest)
  | unclosed {body : List Char} (unbroken : occursIn ['*', '/'] body = false)
      (final : after = []) : Trivia after ('/' :: '*' :: body)

theorem Trivia.blanks {blanks rest after : List Char} (all : ∀ c ∈ blanks, isBlank c = true)
    (following : Trivia after rest) : Trivia after (blanks ++ rest) := by
  induction blanks with
  | nil => exact following
  | cons c blanks ih =>
    obtain ⟨first, others⟩ := List.forall_mem_cons.1 all
    exact .blank first (ih others)

theorem isBlank_of_isSpace {c : Char} (space : isSpace c = true) : isBlank c = true := by
  simp only [isSpace, isNewline, Bool.or_eq_true, decide_eq_true_eq] at space
  rcases space with (rfl | rfl) | (rfl | rfl) | rfl <;> rfl

theorem afterComment_split (text : List Char) :
    (∃ body, occursIn ['*', '/'] body = false ∧ text = body ++ '*' :: '/' :: afterComment text) ∨
      (occursIn ['*', '/'] text = false ∧ afterComment text = []) := by
  fun_induction afterComment text with
  | case1 => exact Or.inr ⟨rfl, rfl⟩
  | case2 rest => exact Or.inl ⟨[], rfl, rfl⟩
  | case3 c rest open_ ih =>
    have first (tail : List Char) (same : tail <+: rest) :
        ['*', '/'].isPrefixOf (c :: tail) = false := by
      rw [Bool.eq_false_iff, ne_eq, List.isPrefixOf_iff_prefix]
      intro found
      obtain ⟨more, whole⟩ := found.trans (List.cons_prefix_cons.2 ⟨rfl, same⟩)
      obtain ⟨rfl, rfl⟩ := List.cons.inj whole
      exact open_ more rfl rfl
    rcases ih with ⟨body, unbroken, split⟩ | ⟨unbroken, ending⟩
    · refine Or.inl ⟨c :: body, ?_, by rw [List.cons_append, ← split]⟩
      rw [occursIn, first body ⟨_, split.symm⟩, unbroken]
      rfl
    · refine Or.inr ⟨?_, ending⟩
      rw [occursIn, first rest (List.prefix_refl rest), unbroken]
      rfl

theorem numeric_not_trivia (text : List Char) : (numeric text).1.isTrivia = false := by
  unfold numeric
  dsimp only
  split
  · rfl
  · split <;> rfl

theorem quotedToken_not_trivia (quote : Char) (text : List Char) :
    (quotedToken quote text).1.isTrivia = false := by
  rw [quotedToken_eq]
  cases (quoted quote text).1 <;> rfl

theorem hashToken_not_trivia (text : List Char) : (hashToken text).1.isTrivia = false := by
  rw [hashToken_eq]
  split <;> rfl

theorem atToken_not_trivia (text : List Char) : (atToken text).1.isTrivia = false := by
  unfold atToken
  split <;> rfl

theorem nameLike_not_trivia (text : List Char) : (nameLike text).1.isTrivia = false := by
  unfold nameLike urlAfter
  dsimp only
  split
  · split
    · split
      · rfl
      · split <;> rfl
    · rfl
  · rfl

theorem punctuation_not_trivia (c : Char) : (punctuation c).isTrivia = false := by
  unfold punctuation
  split <;> rfl

theorem symbol_trivia {c : Char} {rest : List Char} (found : (symbol c rest).1.isTrivia = true) :
    c = '/' ∧ ∃ after, rest = '*' :: after ∧ (symbol c rest).2 = afterComment after := by
  rw [symbol_eq] at found ⊢
  split
  · rename_i both
    simp only [Bool.and_eq_true, decide_eq_true_eq] at both
    obtain ⟨tail, rfl⟩ := List.head?_eq_some_iff.1 both.2
    exact ⟨both.1, tail, rfl, rfl⟩
  · rename_i other
    rw [if_neg other] at found
    split at found
    · contradiction
    · split at found
      · contradiction
      · rw [punctuation_not_trivia] at found
        contradiction

theorem scan_trivia {c : Char} {rest : List Char} (found : (scan c rest).1.isTrivia = true) :
    (isSpace c = true ∧ (scan c rest).2 = rest.dropWhile isSpace) ∨
      (c = '/' ∧ ∃ after, rest = '*' :: after ∧ (scan c rest).2 = afterComment after) := by
  unfold scan at found ⊢
  split at found
  · rename_i space
    rw [if_pos space]
    exact Or.inl ⟨space, rfl⟩
  split at found
  · simp [quotedToken_not_trivia] at found
  split at found
  · simp [hashToken_not_trivia] at found
  split at found
  · simp [atToken_not_trivia] at found
  split at found
  · simp [numeric_not_trivia] at found
  split at found
  · contradiction
  split at found
  · simp [nameLike_not_trivia] at found
  · rename_i space quote hash command number arrow starts
    rw [if_neg space, if_neg quote, if_neg hash, if_neg command, if_neg number, if_neg arrow,
      if_neg starts]
    exact Or.inr (symbol_trivia found)

/-- White space or a comment, with more of it from what follows. -/
theorem trivia_scan {c : Char} {rest gap after : List Char}
    (found : (scan c rest).1.isTrivia = true) (left : (scan c rest).2 = gap ++ after)
    (trivia : Trivia after gap) : Trivia after (consumed (c :: rest) (gap ++ after) ++ gap) := by
  rw [← left]
  rcases scan_trivia found with ⟨space, same⟩ | ⟨rfl, body, rfl, same⟩
  · have split : c :: rest = c :: rest.takeWhile isSpace ++ rest.dropWhile isSpace := by
      rw [List.cons_append, List.takeWhile_append_dropWhile]
    rw [same, split, consumed_of_append]
    refine .blanks (List.forall_mem_cons.2 ⟨isBlank_of_isSpace space, fun d member => ?_⟩) trivia
    exact isBlank_of_isSpace (List.mem_takeWhile_imp member)
  · rw [same] at left ⊢
    rcases afterComment_split body with ⟨closed, unbroken, split⟩ | ⟨unbroken, ending⟩
    · have whole : '/' :: '*' :: body =
          '/' :: '*' :: closed ++ ['*', '/'] ++ afterComment body := by
        simpa using split
      rw [whole, consumed_of_append]
      simpa using Trivia.comment unbroken trivia
    · rw [ending] at left ⊢
      obtain ⟨rfl, rfl⟩ := List.nil_eq_append_iff.1 left
      have whole : consumed ('/' :: '*' :: body) [] = '/' :: '*' :: body := by
        simpa using consumed_of_append ('/' :: '*' :: body) []
      rw [whole, List.append_nil]
      exact .unclosed unbroken rfl

def Lexeme.Legible (lexeme : Lexeme) (following : List Char) : Prop :=
  (lexeme.token.isTrivia = true → ∀ gap after, following = gap ++ after → Trivia after gap →
      Trivia after (lexeme.text ++ gap)) ∧
    (lexeme.token = .colon → lexeme.text = [':'])

def LegibleRun : List Lexeme → Prop
  | [] => True
  | lexeme :: rest => lexeme.Legible (lexemeText rest) ∧ LegibleRun rest

theorem legible_firstLexeme (start : Nat) (c : Char) (rest : List Char) :
    (firstLexeme start c rest).Legible (scan c rest).2 := by
  refine ⟨fun found gap after left trivia => ?_, fun colon => ?_⟩
  · rw [firstLexeme, left]
    exact trivia_scan found left trivia
  have mark : (scan c rest).1 = .colon := colon
  have guarded : isGuard c = true := guard_of_scan (by rw [mark]; rfl)
  rw [firstLexeme_guard guarded]
  rw [scan_guard guarded] at mark
  rcases guard_cases guarded with rfl | rfl | rfl | rfl | rfl | rfl | rfl | rfl | rfl <;>
    first | rfl | contradiction

theorem legibleRun_lexemesFrom (start : Nat) (text : List Char) :
    LegibleRun (lexemesFrom start text) := by
  fun_induction lexemesFrom start text with
  | case1 => trivial
  | case2 start c rest _ lexeme ih =>
    refine ⟨?_, ih⟩
    rw [lexemeText_lexemesFrom]
    exact legible_firstLexeme start c rest

theorem LegibleRun.right {left right : List Lexeme} (legible : LegibleRun (left ++ right)) :
    LegibleRun right := by
  induction left with
  | nil => exact legible
  | cons lexeme left ih => exact ih legible.2

end DesignTokens.Css
