import DesignTokens.Proofs.Css.Nesting
import DesignTokens.Proofs.Css.Unplaced
import DesignTokens.Proofs.NameClash
import DesignTokens.Proofs.NameTokens

/-!
The names that custom properties are declared and referenced under. The two are one text. A style
sheet reads it as one identifier, and a reference as one call of that, exactly when the prefix and
the keys of a token hold nothing but characters that may stand in an identifier as they are, and
dots.
-/

namespace DesignTokens

open DesignTokens.Css DesignTokens.Text

theorem scan_var (rest : List Char) :
    scan 'v' ('a' :: 'r' :: '(' :: rest) = (.function "var", rest) := by
  have closed : scan 'v' (['a', 'r'] ++ '(' :: []) = (.function "var", []) := by decide +kernel
  exact scan_function_elsewhere closed (by decide +kernel) rest

theorem nest_call {opener argument closer : Lexeme} {called name : String}
    (opens : opener.token = .function called) (ident : argument.token = .ident name)
    (closes : closer.token = .closing .round) :
    nest [opener, argument, closer] = [.group opener [.token argument] (some closer)] := by
  have nested : Nested none [.group opener [.token argument] (some closer)] := by
    refine .complete fun component member => ?_
    rw [List.mem_singleton.1 member]
    refine .group (by rw [opens]; rfl) (fun part found => ?_) (by rw [closes]; rfl)
    rw [List.mem_singleton.1 found]
    exact sealed_token ident rfl rfl
  exact nested.nest

namespace TokenPath

theorem toList_cssReference (path : TokenPath) :
    path.cssReference.toList =
      'v' :: 'a' :: 'r' :: '(' :: '-' :: '-' :: (path.word.toList.flatMap dotEscape ++ [')']) := by
  rw [cssReference, String.toList_append, String.toList_append, toList_cssVariable]
  rfl

variable {path : TokenPath}

theorem tokens_cssVariable_iff :
    (lexemes path.cssVariable.toList).map Lexeme.token = [.ident ("--" ++ path.word)] ↔
      path.Plain := by
  rw [lexemes, toList_cssVariable, custom_word, tokens_name_iff, plain_word_iff]

theorem lexemes_cssReference :
    ∃ (opener : Lexeme) (start : Nat), opener.token = .function "var" ∧
      lexemes path.cssReference.toList = opener ::
        lexemesFrom start ('-' :: '-' :: (path.word.toList.flatMap dotEscape ++ [')'])) := by
  rw [lexemes, toList_cssReference, lexemesFrom_cons, firstLexeme, scan_var]
  exact ⟨_, _, rfl, rfl⟩

theorem tokens_cssReference_iff :
    (lexemes path.cssReference.toList).map Lexeme.token =
        [.function "var", .ident ("--" ++ path.word), .closing .round] ↔
      path.Plain := by
  obtain ⟨opener, start, opens, read⟩ := path.lexemes_cssReference
  rw [read, List.map_cons, opens, List.cons.injEq, custom_word, tokens_argument_iff,
    plain_word_iff, and_iff_right rfl]

/-- A reference is one call of `var` that holds the name. -/
theorem parseValue_cssReference (plain : path.Plain) :
    parseValue .omitted path.cssReference =
      [.function "var" [.leaf (.ident ("--" ++ path.word)) none] none] := by
  obtain ⟨opener, start, opens, read⟩ := path.lexemes_cssReference
  obtain ⟨named, closer, ident, closes, argument⟩ :=
    lexemesFrom_argument (plain_word_iff.2 plain) start
  have shape : components path.cssReference.toList =
      [.group opener [.token named] (some closer)] := by
    rw [components, read, argument]
    exact nest_call opens ident closes
  rw [parseValue, Positions.keep, parseUnplaced_eq, parse, shape, custom_word]
  simp [readings, assemble, step, ordinary, Component.head, Component.node, opens, ident, enclose,
    contentMode, isCurly, Lexeme.leaf, Token.isTrivia, Place.afterOrdinary, Place.finish,
    withoutSpans, Node.withoutSpans]

end TokenPath

/-- What a style sheet makes of the name of a path and of a reference to it. -/
structure NameReading (path : TokenPath) : Prop where
  name : (lexemes path.cssVariable.toList).map Lexeme.token = [.ident ("--" ++ path.word)] ↔
    path.Plain
  reference : (lexemes path.cssReference.toList).map Lexeme.token =
      [.function "var", .ident ("--" ++ path.word), .closing .round] ↔
    path.Plain
  call : path.Plain → parseValue .omitted path.cssReference =
    [.function "var" [.leaf (.ident ("--" ++ path.word)) none] none]

structure NamedAlike (config : Config) (token : Token) : Prop where
  declared : ∀ style, emit style (resolveAll config).1 =
    sheet style (config.tokens.map Token.property)
  referenced : ∀ path location, config.find? path = some token →
    ((Call.token path location).resolve config).1.map ResolvedToken.replacement =
      some ("var(" ++ token.property.name ++ ")")
  identifier : (lexemes token.property.name.toList).map Lexeme.token =
      [.ident ("--" ++ token.path.word)] ↔
    ∀ key ∈ config.namePrefix.toList ++ config.keysOf token, ∀ c ∈ key.toList, isPlain c = true

/-- The name of a path is one identifier, and a reference to it one call of that, exactly when the
path is plain; and the tokens of a configuration are declared and referenced under that name. -/
theorem name_read_iff_plain :
    (∀ path, NameReading path) ∧
    ∀ config : Config, config.Accepted → ∀ token ∈ config.tokens, NamedAlike config token := by
  refine ⟨fun path => ⟨TokenPath.tokens_cssVariable_iff, TokenPath.tokens_cssReference_iff,
    TokenPath.parseValue_cssReference⟩, fun config accepted token member => ⟨fun style => ?_,
    fun path location found => replacement_of_reference found location, ?_⟩⟩
  · rw [emit_eq_sheet, properties_resolveAll]
  · rw [← (accepted.segments_eq member).2]
    exact TokenPath.tokens_cssVariable_iff

def blankKeys : Settings :=
  .ofTokens (.entry "a b" (.text "1px") (.entry "0.5" (.text "2px") .empty))

theorem ofSettings_blankKeys : Config.ofSettings blankKeys =
    .ok ⟨blankKeys, none, none, indexLeaves none blankKeys.tokens.leaves⟩ :=
  Config.ofSettings_checked (by decide +kernel) (by simp [Config.trimmedPrefix, blankKeys,
    Settings.ofTokens])

theorem decimal_key_named :
    let config : Config := ⟨blankKeys, none, none, indexLeaves none blankKeys.tokens.leaves⟩
    let token : Token := ⟨⟨["0.5"]⟩, "2px"⟩
    (config.Accepted ∧ token ∈ config.tokens) ∧ token.path.Plain ∧ NameReading token.path ∧
      NamedAlike config token := by
  intro config token
  have accepted : config.Accepted := Config.accepted_ofSettings ofSettings_blankKeys
  have member : token ∈ config.tokens := by decide +kernel
  exact ⟨⟨accepted, member⟩, by decide +kernel, name_read_iff_plain.1 token.path,
    name_read_iff_plain.2 config accepted token member⟩

/-- A token whose name is cut at the blank in its key. -/
theorem blank_key_cut :
    ∃ config : Config, Config.ofSettings blankKeys = .ok config ∧ ∃ token ∈ config.tokens,
      (lexemes token.path.cssVariable.toList).map Lexeme.token ≠
        [.ident ("--" ++ token.path.word)] ∧
      (lexemes token.path.cssReference.toList).map Lexeme.token ≠
        [.function "var", .ident ("--" ++ token.path.word), .closing .round] := by
  refine ⟨_, ofSettings_blankKeys, ⟨⟨["a b"]⟩, "1px"⟩, ?_, ?_, ?_⟩
  all_goals decide +kernel

end DesignTokens
