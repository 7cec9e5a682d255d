import DesignTokens.Proofs.Css.Alone
import DesignTokens.Proofs.Css.RawValues

/-!
Style sheets one after the other. A text that ends with a whole statement leaves nothing open, and
the machine stands where it started, so whatever follows is read as if it stood alone.
-/

namespace DesignTokens.Css

open DesignTokens.Text

/-- A last component that ends a statement: a semicolon, or a closed curly block that is not part of
the value of a custom property. A value that the block belongs to reaches to the end of the text. -/
def Ending (text : List Char) : Component → Prop
  | .token lexeme => lexeme.token = .semicolon
  | .group opener _ closer =>
    opener.token = .opening .curly ∧ closer.isSome = true ∧
      ∀ value ∈ rawValues (parse .statements text), value.2.stop ≠ byteLength text

/-- A style sheet that is empty or ends with a whole statement. -/
def Complete (text : List Char) : Prop :=
  ∀ last ∈ (components text).getLast?, Ending text last

instance (text : List Char) : DecidablePred (Ending text)
  | .token lexeme => inferInstanceAs (Decidable (lexeme.token = .semicolon))
  | .group opener _ closer =>
    inferInstanceAs (Decidable (opener.token = .opening .curly ∧ closer.isSome = true ∧
      ∀ value ∈ rawValues (parse .statements text), value.2.stop ≠ byteLength text))

instance (text : List Char) : Decidable (Complete text) :=
  inferInstanceAs (Decidable (∀ last ∈ (components text).getLast?, Ending text last))

theorem nest_append {first : List Component} (closed : ∀ component ∈ first, Sealed none component)
    (following : List Lexeme) :
    nest (componentLexemes first ++ following) = first ++ nest following := by
  have start := run_components (fun component member current =>
    (closed component member).run (rfl : innermost [] = none) current) []
  have rest := (nested_nest following).run (rfl : innermost [] = none) (first.reverse ++ [])
  rw [componentLexemes_nest] at rest
  rw [nest, List.foldl_append, start, rest]
  simp [Nesting.finish]

section Complete

variable {text : List Char} (complete : Complete text)

include complete

theorem sealed_of_complete : ∀ component ∈ components text, Sealed none component := by
  apply (nested_nest (lexemes text)).all_sealed
  intro opener contents last
  have ending := complete _ last
  exact absurd ending.2.1 (by simp)

theorem last_lexeme {last : Component} {before : List Component}
    (whole : components text = before ++ [last]) :
    ∃ run mark, lexemes text = run ++ [mark] ∧ mark.token.isPunctuation = true ∧
      ∃ inner, last.text = inner ++ mark.text := by
  have closed := sealed_of_complete complete last (by rw [whole]; simp)
  have ending : Ending text last := complete last (by rw [whole]; simp)
  have spelled : lexemes text = componentLexemes before ++ last.lexemes := by
    rw [← componentLexemes_components, whole, componentLexemes_append]
    simp [componentLexemes]
  cases closed with
  | @token _ lexeme plain kept =>
    have mark : lexeme.token = .semicolon := ending
    refine ⟨_, lexeme, spelled, ?_, [], ?_⟩
    · rw [mark]
      rfl
    · rw [Component.text_token, List.nil_append]
  | @group _ bracket opener closer contents opens inside closes =>
    refine ⟨componentLexemes before ++ opener :: componentLexemes contents, closer, ?_,
      punctuation_of_closes closes, opener.text ++ componentsText contents, ?_⟩
    · rw [spelled, Component.lexemes, Option.toList_some, ← List.append_assoc]
    · rw [Component.text_group]
      simp

theorem lexemes_append (other : List Char) : lexemes (text ++ other) =
    lexemes text ++ (lexemes other).map fun lexeme => lexeme.shift (byteLength text) := by
  cases shape : (components text).getLast? with
  | none =>
    have empty : text = [] := by
      have whole := componentsText_components text
      rw [List.getLast?_eq_none_iff.1 shape] at whole
      exact whole.symm
    subst empty
    simp [lexemes, lexemesFrom, Lexeme.shift]
  | some last =>
    obtain ⟨before, whole⟩ := List.getLast?_eq_some_iff.1 shape
    obtain ⟨run, mark, spelled, punctuation, _⟩ := last_lexeme complete whole
    have covered := lexemeText_lexemesFrom 0 text
    have placed := contiguous_lexemesFrom 0 text
    have read : lexemesFrom 0 text = run ++ mark :: [] := spelled
    rw [read] at covered placed
    have stop : mark.stop = 0 + byteLength text := by
      rw [contiguous_append] at placed
      rw [Lexeme.stop, placed.2.1, ← covered]
      simp
    have further := lexemesFrom_punctuation read punctuation other
    rw [covered, stop, lexemesFrom_shift] at further
    rw [lexemes, further, spelled]
    simp [lexemes]

theorem components_append (other : List Char) : components (text ++ other) =
    components text ++
      (components other).map fun component => component.shift (byteLength text) := by
  rw [components, lexemes_append complete, ← componentLexemes_components text,
    nest_append (sealed_of_complete complete), nest_shift]
  rfl

end Complete

theorem guard_not_blank {guard : Char} (guarded : isGuard guard = true) :
    isBlank guard = false := by
  rcases guard_cases guarded with rfl | rfl | rfl | rfl | rfl | rfl | rfl | rfl | rfl <;> rfl

theorem ordinary_semicolon {mode : Mode} {atStart : Bool} {reading : Reading}
    (same : reading.component.head = .semicolon) : (ordinary mode atStart reading).2 = .start := by
  unfold ordinary
  simp only [same]
  cases mode <;> rfl

theorem step_semicolon {mode : Mode} {place : Place} {reading : Reading}
    (same : reading.component.head = .semicolon) : (step mode place reading).2 = .start := by
  cases place <;> simp [step, same, Token.isTrivia, ordinary_semicolon same]

theorem ordinary_curly {mode : Mode} {atStart : Bool} {reading : Reading}
    (same : reading.component.head = .opening .curly) :
    (ordinary mode atStart reading).2 = .start := by
  unfold ordinary
  simp only [same]
  cases mode <;> rfl

theorem step_curly (mode : Mode) (place : Place) (reading : Reading)
    (same : reading.component.head = .opening .curly) :
    (step mode place reading).2 = .start ∨ ∃ first text, place = .value first text ∧
      (step mode place reading).2 = .value first (text ++ reading.component.text) := by
  cases place with
  | value first text => exact Or.inr ⟨first, text, rfl, by simp [step, same]⟩
  | prelude => exact Or.inl (by simp [step, same, Token.isTrivia, isCurly])
  | start => exact Or.inl (by simp [step, same, Token.isTrivia, ordinary_curly same])
  | inside => exact Or.inl (by simp [step, same, Token.isTrivia, ordinary_curly same])
  | named => exact Or.inl (by simp [step, same, Token.isTrivia, ordinary_curly same])

theorem advance_append (mode : Mode) (place : Place) (left right : List Reading) :
    (advance mode place (left ++ right)).2 =
      (advance mode (advance mode place left).2 right).2 := by
  induction left generalizing place with
  | nil => rfl
  | cons reading rest ih => simp [advance, ih]

/-- A value that the last component leaves unfinished ends where the text ends. -/
theorem value_reaches_end {text : List Char} {first : Nat} {value : List Char}
    (place : (advance .statements .start (readings (components text))).2 = .value first value)
    {inner : List Char} {c : Char} (shape : value = inner ++ [c]) (solid : isBlank c = false) :
    ∃ value ∈ rawValues (parse .statements text), value.2.stop = byteLength text := by
  have free : Pending 0 .start [] := .start
  obtain ⟨done, left, whole, _, held⟩ := advance_derives free (eachDerives_components text)
    (by simpa using contiguous_components text) .statements
  have covered := componentsText_components text
  rw [List.nil_append] at whole
  rw [whole, componentsText_append] at covered
  have member : rawNode first value ∈ walk (parse .statements text) := by
    rw [parse, assemble_eq, place, walk_append, Place.finish, walk_cons]
    simp
  rw [place] at held
  have size := congrArg byteLength (trim_of_last inner solid)
  rw [← shape, byteLength_append] at size
  generalize start : 0 + byteLength (componentsText done) = offset at held
  cases held with
  | value =>
    refine ⟨_, mem_rawValues.2 member, ?_⟩
    rw [← covered, byteLength_append]
    dsimp only
    omega

theorem advance_complete {text : List Char} (complete : Complete text) :
    (advance .statements .start (readings (components text))).2 = .start := by
  cases shape : (components text).getLast? with
  | none =>
    rw [List.getLast?_eq_none_iff.1 shape]
    rfl
  | some last =>
    obtain ⟨before, whole⟩ := List.getLast?_eq_some_iff.1 shape
    have ending := complete last shape
    have final : (advance .statements .start (readings (components text))).2 =
        (step .statements (advance .statements .start (readings before)).2
          ⟨last, last.node⟩).2 := by
      rw [whole, readings_append, advance_append]
      rfl
    cases last with
    | token lexeme =>
      rw [final]
      exact step_semicolon ending
    | group opener contents closer =>
      obtain ⟨curly, _, outside⟩ := ending
      have next := step_curly .statements (advance .statements .start (readings before)).2
        ⟨.group opener contents closer, (Component.group opener contents closer).node⟩ curly
      rw [← final] at next
      rcases next with free | ⟨first, value, _, same⟩
      · exact free
      · dsimp only at same
        obtain ⟨run, mark, spelled, punctuation, inner, text⟩ := last_lexeme complete whole
        obtain ⟨guard, guarded, single⟩ := punctuation_lexeme spelled punctuation
        rw [single] at text
        have closing : value ++ (Component.group opener contents closer).text =
            value ++ inner ++ [guard] := by
          rw [text, List.append_assoc]
        obtain ⟨written, member, reaches⟩ :=
          value_reaches_end same closing (guard_not_blank guarded)
        exact absurd reaches (outside written member)

theorem parse_append {text : List Char} (complete : Complete text) (other : List Char) :
    parse .statements (text ++ other) = parse .statements text ++
      (parse .statements other).map fun node => node.shift (byteLength text) := by
  have place := advance_complete complete
  have first : parse .statements text =
      (advance .statements .start (readings (components text))).1 := by
    rw [parse, assemble_eq, place, Place.finish, List.append_nil]
  have second : parse .statements other =
      assemble .statements .start (readings (components other)) := rfl
  rw [second, ← assemble_shift, ← readings_shift, shiftComponents_eq, parse,
    components_append complete, readings_append, assemble_append, place, ← first]
  rfl

end DesignTokens.Css
