import DesignTokens.Proofs.Css.SelfContained
import DesignTokens.Proofs.Emission
import DesignTokens.Proofs.NameTokens

/-!
Reading an emitted style sheet back. Each declaration is read as its own name, value and semicolon,
whatever stands around it, so the block of the root element holds the tokens in their order.
-/

namespace DesignTokens

open DesignTokens.Css DesignTokens.Text

def declaredNodes (name value : String) : List Node :=
  [.leaf (.ident name) none, .leaf (.raw value) none, .leaf (.operator ";") none]

theorem advance_blank (mode : Mode) {place : Css.Place} (free : place = .start ∨ place = .inside)
    {run : List Lexeme} (blank : ∀ lexeme ∈ run, lexeme.token = .space) :
    advance mode place (readings (run.map .token)) = ([], place) := by
  induction run with
  | nil => rfl
  | cons lexeme rest ih =>
    have here : step mode place ⟨.token lexeme, (Component.token lexeme).node⟩ = ([], place) := by
      have space := blank lexeme List.mem_cons_self
      rcases free with rfl | rfl <;> simp [step, Component.head, space, Token.isTrivia]
    rw [List.map_cons, readings, advance, here,
      ih fun other member => blank other (List.mem_cons_of_mem _ member)]
    rfl

theorem componentLexemes_tokens (run : List Lexeme) :
    componentLexemes (run.map .token) = run := by
  induction run with
  | nil => rfl
  | cons lexeme rest ih =>
    rw [List.map_cons, componentLexemes, ih]
    rfl

theorem sealed_blank {around : Option Bracket} {run : List Lexeme}
    (blank : ∀ lexeme ∈ run, lexeme.token = .space) :
    ∀ component ∈ run.map Component.token, Sealed around component := by
  rw [List.forall_mem_map]
  exact fun lexeme member => sealed_token (blank lexeme member) rfl rfl

/-- The white space that a style puts before a value does not belong to it. -/
theorem selfContained_gap (style : EmissionStyle) {value : List Char}
    (whole : SelfContained value) : SelfContained (style.gap ++ value) := by
  cases style with
  | pretty => exact whole.space
  | minified => exact whole

theorem trim_gap (style : EmissionStyle) (value : List Char) :
    trim (style.gap ++ value) = trim value := by
  cases style <;> rfl

theorem advance_declaration {called : String} (custom : isCustomName called = true)
    {named colon semicolon : Lexeme} (ident : named.token = .ident called)
    (mark : colon.token = .colon) (ending : semicolon.token = .semicolon)
    {value : List Component}
    (undivided : ∀ component ∈ value, component.head ≠ .semicolon) :
    advance .statements .start
        (readings (.token named :: .token colon :: value ++ [.token semicolon])) =
      ([.leaf (.ident called) (some named.span),
          rawNode colon.stop (componentsText value),
          .leaf (.operator ";") (some semicolon.span)], .start) := by
  have first : step .statements .start ⟨.token named, (Component.token named).node⟩ =
      ([.leaf (.ident called) (some named.span)], .named) := by
    simp [step, ordinary, Component.head, Component.node, Lexeme.leaf, ident, custom,
      Token.isTrivia]
  have second : step .statements .named ⟨.token colon, (Component.token colon).node⟩ =
      ([], .value colon.stop []) := by
    simp [step, Component.head, mark, Token.isTrivia, Component.stop]
  have last (text : List Char) : step .statements (.value colon.stop text)
      ⟨.token semicolon, (Component.token semicolon).node⟩ =
        ([rawNode colon.stop text, .leaf (.operator ";") (some semicolon.span)], .start) := by
    simp [step, ordinary, Component.head, Component.node, Lexeme.leaf, ending, Place.afterOrdinary]
  rw [List.cons_append, List.cons_append, readings, readings, advance, first, advance, second,
    readings_append, advance_parts, advance_value .statements undivided, readings, advance, last]
  rfl

section Declaration

variable {blank word body : List Char} (spaces : ∀ c ∈ blank, isSpace c = true)
  (plain : ∀ c ∈ word, isPlain c = true) (whole : SelfContained body)
include spaces plain whole

theorem lexemesFrom_declaration (start : Nat) (following : List Char) :
    ∃ (before : List Lexeme) (named colon semicolon : Lexeme) (place : Nat),
      (∀ lexeme ∈ before, lexeme.token = .space) ∧
      named.token = .ident (String.ofList ('-' :: '-' :: word)) ∧ colon.token = .colon ∧
      semicolon.token = .semicolon ∧
      lexemesFrom start (blank ++ '-' :: '-' :: word.flatMap dotEscape ++ ':' :: body ++ [';'] ++
        following) =
          before ++ named :: colon :: (lexemesFrom place body ++ [semicolon]) ++
            lexemesFrom (start + byteLength (blank ++ '-' :: '-' :: word.flatMap dotEscape ++
              ':' :: body ++ [';'])) following := by
  have text : blank ++ '-' :: '-' :: word.flatMap dotEscape ++ ':' :: body ++ [';'] ++ following =
      blank ++ '-' :: '-' :: (word.flatMap dotEscape ++ ':' :: (body ++ ';' :: following)) := by
    simp
  obtain ⟨before, spaceTokens, leading⟩ := lexemesFrom_blank spaces (c := '-') rfl start
    ('-' :: (word.flatMap dotEscape ++ ':' :: (body ++ ';' :: following)))
  have colonGuard : isGuard ':' = true := rfl
  have semicolonGuard : isGuard ';' = true := rfl
  rw [lexemesFrom_name plain (endsName_guard colonGuard (by decide) _),
    lexemesFrom_guard colonGuard, whole.lexemes_before,
    lexemesFrom_guard semicolonGuard, ← text] at leading
  let named : Lexeme := ⟨.ident (String.ofList ('-' :: '-' :: word)),
    '-' :: '-' :: word.flatMap dotEscape, start + byteLength blank⟩
  let colon : Lexeme := ⟨.colon, [':'], named.stop⟩
  let semicolon : Lexeme := ⟨.semicolon, [';'], colon.stop + byteLength body⟩
  have stop : semicolon.stop = start + byteLength (blank ++ '-' :: '-' :: word.flatMap dotEscape ++
      ':' :: body ++ [';']) := by
    simp only [semicolon, colon, named, Lexeme.stop, byteLength_append, byteLength_cons,
      byteLength_nil]
    omega
  refine ⟨before, named, colon, semicolon, colon.stop, spaceTokens, rfl, rfl, rfl, ?_⟩
  rw [leading, ← stop]
  simp [punctuation, Lexeme.stop, named, colon, semicolon]

/-- A declaration is read the same wherever it stands in the block. -/
theorem statements_declaration :
    Statements (blank ++ '-' :: '-' :: word.flatMap dotEscape ++ ':' :: body ++ [';'])
      (declaredNodes (String.ofList ('-' :: '-' :: word)) (String.ofList (trim body))) := by
  intro start following
  obtain ⟨before, named, colon, semicolon, place, spaceTokens, ident, mark, ending, read⟩ :=
    lexemesFrom_declaration spaces plain whole start following
  let value := (components body).map fun component => component.shift place
  have undivided : ∀ component ∈ value, component.head ≠ .semicolon := by
    intro component member
    obtain ⟨original, found, rfl⟩ := List.mem_map.1 member
    rw [Component.head_shift]
    exact whole.undivided original found
  have custom : isCustomName (String.ofList ('-' :: '-' :: word)) = true := by
    simp [isCustomName]
  have body_text : componentsText value = body := by
    rw [componentsText, componentLexemes_shifted, lexemeText_lexemesFrom]
  have machine := advance_declaration custom ident mark ending undivided
  refine ⟨before.map .token ++ (.token named :: .token colon :: value ++ [.token semicolon]), ?_,
    fun component member => ?_, ?_, ?_⟩
  · rw [read, componentLexemes_append, componentLexemes_tokens, List.cons_append, List.cons_append,
      componentLexemes, componentLexemes, componentLexemes_append, componentLexemes_shifted]
    simp [Component.lexemes, componentLexemes]
  · rw [List.mem_append, List.mem_append, List.mem_cons, List.mem_cons,
      List.mem_singleton] at member
    rcases member with found | (rfl | rfl | found) | rfl
    · exact sealed_blank spaceTokens component found
    · exact sealed_token ident rfl rfl
    · exact sealed_token mark rfl rfl
    · obtain ⟨original, inside, rfl⟩ := List.mem_map.1 found
      exact (whole.sealed _ original inside).shift place
    · exact sealed_token ending rfl rfl
  · rw [readings_append, advance_parts, advance_blank _ (Or.inl rfl) spaceTokens, machine,
      body_text]
    rfl
  · rw [readings_append, advance_parts, advance_blank _ (Or.inl rfl) spaceTokens, machine]

end Declaration

theorem lexemes_header (style : EmissionStyle) :
    ∃ (colon named : Lexeme) (blank : List Lexeme) (opener : Lexeme),
      colon.token = .colon ∧ named.token = .ident "root" ∧
      (∀ lexeme ∈ blank, lexeme.token = .space) ∧ opener.token = .opening .curly ∧
      lexemesFrom 0 (":root".toList ++ style.gap ++ ['{']) =
        colon :: named :: blank ++ [opener] := by
  cases style with
  | pretty =>
    refine ⟨⟨.colon, [':'], 0⟩, ⟨.ident "root", "root".toList, 1⟩, [⟨.space, [' '], 5⟩],
      ⟨.opening .curly, ['{'], 6⟩, rfl, rfl, by simp, rfl, ?_⟩
    decide +kernel
  | minified =>
    refine ⟨⟨.colon, [':'], 0⟩, ⟨.ident "root", "root".toList, 1⟩, [],
      ⟨.opening .curly, ['{'], 5⟩, rfl, rfl, by simp, rfl, ?_⟩
    decide +kernel

theorem withoutSpans_contents {run : List Component} {nodes : List Node} {blank : List Lexeme}
    (read : withoutSpans (advance .statements .start (readings run)).1 = nodes)
    (place : (advance .statements .start (readings run)).2 = .start)
    (spaces : ∀ lexeme ∈ blank, lexeme.token = .space) :
    withoutSpans (assemble .statements .start (readings (run ++ blank.map .token))) = nodes := by
  rw [readings_append, assemble_append, place, assemble_eq,
    advance_blank _ (Or.inl rfl) spaces, withoutSpans_append, read]
  exact List.append_nil nodes

/-- The rule for the root element is its selector and one closed block. -/
theorem components_rule (style : EmissionStyle) {body : List Char} {nodes : List Node}
    (inside : Statements body nodes) :
    ∃ (colon named : Lexeme) (blank : List Lexeme) (opener closer : Lexeme)
        (contents : List Component),
      colon.token = .colon ∧ named.token = .ident "root" ∧
      (∀ lexeme ∈ blank, lexeme.token = .space) ∧ opener.token = .opening .curly ∧
      withoutSpans (assemble .statements .start (readings contents)) = nodes ∧
      components (":root".toList ++ style.gap ++ '{' :: (body ++ style.tail) ++ ['}']) =
        .token colon :: .token named :: blank.map .token ++
          [.group opener contents (some closer)] := by
  obtain ⟨colon, named, blank, opener, mark, ident, spaces, opens, header⟩ := lexemes_header style
  obtain ⟨run, read, closed, children, place⟩ := inside opener.stop (style.tail ++ ['}'])
  have ending : ∀ c ∈ style.tail, isSpace c = true :=
    List.all_eq_true.1 (by cases style <;> rfl)
  obtain ⟨after, trailing, last⟩ := lexemesFrom_blank ending (c := '}') rfl
    (opener.stop + byteLength body) []
  have curly : isGuard '}' = true := rfl
  let closer : Lexeme :=
    ⟨.closing .curly, ['}'], opener.stop + byteLength body + byteLength style.tail⟩
  let contents := run ++ after.map Component.token
  let list := .token colon :: .token named :: blank.map Component.token ++
    [.group opener contents (some closer)]
  have inner : ∀ component ∈ contents, Sealed (some .curly) component := fun component member =>
    (List.mem_append.1 member).elim (closed component) (sealed_blank trailing component)
  have nested : Nested none list := by
    refine .complete fun component member => ?_
    rw [List.mem_append, List.mem_cons, List.mem_cons, List.mem_singleton] at member
    rcases member with (rfl | rfl | found) | rfl
    · exact sealed_token mark rfl rfl
    · exact sealed_token ident rfl rfl
    · exact sealed_blank spaces component found
    · exact .group (by rw [opens]; rfl) inner rfl
  have written : lexemes (":root".toList ++ style.gap ++ '{' :: (body ++ style.tail) ++ ['}']) =
      componentLexemes list := by
    have covered := lexemeText_lexemesFrom 0 (":root".toList ++ style.gap ++ ['{'])
    have whole := lexemesFrom_punctuation header (by rw [opens]; rfl)
      (body ++ (style.tail ++ ['}']))
    rw [← header, covered, read, last, lexemesFrom_guard curly, lexemesFrom] at whole
    have text : ":root".toList ++ style.gap ++ '{' :: (body ++ style.tail) ++ ['}'] =
        ":root".toList ++ style.gap ++ ['{'] ++ (body ++ (style.tail ++ ['}'])) := by simp
    rw [lexemes, text, whole]
    simp [list, contents, closer, componentLexemes, Component.lexemes, componentLexemes_append,
      componentLexemes_tokens, punctuation]
  refine ⟨colon, named, blank, opener, closer, contents, mark, ident, spaces, opens,
    withoutSpans_contents children place trailing, ?_⟩
  rw [components, written, nested.nest]

theorem parse_rule (style : EmissionStyle) {body : List Char} {nodes : List Node}
    (inside : Statements body nodes) :
    parseUnplaced .statements
        (":root".toList ++ style.gap ++ '{' :: (body ++ style.tail) ++ ['}']) =
      [.leaf (.operator ":") none, .leaf (.ident "root") none, .block .curly nodes none] := by
  obtain ⟨colon, named, blank, opener, closer, contents, mark, ident, spaces, opens, children,
    shape⟩ := components_rule style inside
  have first : step .statements .start ⟨.token colon, (Component.token colon).node⟩ =
      ([.leaf (.operator ":") (some colon.span)], .inside) := by
    simp [step, ordinary, Component.head, Component.node, Lexeme.leaf, mark, Token.isTrivia,
      Place.afterOrdinary, isCurly]
  have second : step .statements .inside ⟨.token named, (Component.token named).node⟩ =
      ([.leaf (.ident "root") (some named.span)], .inside) := by
    simp [step, ordinary, Component.head, Component.node, Lexeme.leaf, ident, Token.isTrivia]
  let block := Component.group opener contents (some closer)
  have third : step .statements .inside ⟨block, block.node⟩ =
      ([.block .curly (assemble .statements .start (readings contents)) (some block.span)],
        .start) := by
    simp [step, ordinary, block, Component.head, Component.node, opens, Token.isTrivia,
      Place.afterOrdinary, isCurly, contentMode, enclose]
  have selector : advance .statements .start
      (readings (.token colon :: .token named :: blank.map .token)) =
        ([.leaf (.operator ":") (some colon.span), .leaf (.ident "root") (some named.span)],
          .inside) := by
    rw [readings, readings, advance, first, advance, second, advance_blank _ (Or.inr rfl) spaces]
    rfl
  have rule : assemble .statements .inside (readings [block]) =
      [.block .curly (assemble .statements .start (readings contents)) (some block.span)] := by
    rw [readings, readings, assemble_eq, advance, third]
    rfl
  rw [parseUnplaced_eq, parse, shape, readings_append, assemble_append, selector, rule,
    withoutSpans_append]
  simp [withoutSpans, Node.withoutSpans, children]

theorem statements_property (style : EmissionStyle) {token : ResolvedToken}
    (plain : ∀ segment ∈ token.path.segments, ∀ c ∈ segment.toList, isPlain c = true)
    (whole : SelfContained token.valueText.toList) :
    Statements (token.property.text style)
      (declaredNodes ("--" ++ token.path.word) (trimmed token.valueText)) := by
  have spaces : ∀ c ∈ style.lead, isSpace c = true :=
    List.all_eq_true.1 (by cases style <;> rfl)
  have read := statements_declaration spaces (TokenPath.plain_word_iff.2 plain)
    (selfContained_gap style whole)
  rw [Property.text, ResolvedToken.property, TokenPath.custom_word, trimmed,
    TokenPath.toList_cssVariable, ← trim_gap style]
  exact read

/-- An emitted style sheet is read back as the declarations of its tokens in their order, and both
styles are read the same. -/
theorem emitted_sheet_reads_back (style : EmissionStyle) {tokens : List ResolvedToken}
    (some : tokens ≠ [])
    (plain : ∀ token ∈ tokens, ∀ segment ∈ token.path.segments, ∀ c ∈ segment.toList,
      isPlain c = true)
    (whole : ∀ token ∈ tokens, SelfContained token.valueText.toList) :
    ∃ written, emit style tokens = Option.some written ∧
      parseStylesheet .omitted written =
        [.leaf (.operator ":") none, .leaf (.ident "root") none,
          .block .curly (tokens.flatMap fun token =>
            declaredNodes ("--" ++ token.path.word) (trimmed token.valueText)) none] := by
  have inside := Statements.flatMap fun token member =>
    statements_property style (plain token member) (whole token member)
  have read := parse_rule style inside
  refine ⟨String.ofList (sheetText style (tokens.map ResolvedToken.property)), ?_, ?_⟩
  · rw [emit_eq_sheet, sheet, if_neg (by simpa using some)]
  · rw [parseStylesheet, String.toList_ofList, sheetText_eq, List.flatMap_map]
    exact read

/-- Values with every kind of bracket, a string, a comment, a url and an escape that hold what would
end a declaration, and a name with dots. -/
theorem hard_values_read_back :
    let tokens : List ResolvedToken := [
      ⟨.value, ⟨["space", "1.5", "élan"]⟩, [], ["calc(1px * [a \x7b b; c \x7d])", "\"x;\\\"\x7d\""],
        Span.empty⟩,
      ⟨.value, ⟨["space", "url"]⟩, [], [" /* ; \x7d */ url(a;\\)b) \\; "], Span.empty⟩]
    (tokens ≠ [] ∧
      (∀ token ∈ tokens, ∀ segment ∈ token.path.segments, ∀ c ∈ segment.toList,
        isPlain c = true) ∧
      ∀ token ∈ tokens, SelfContained token.valueText.toList) ∧
    ∃ written, emit .pretty tokens = some written ∧
      parseStylesheet .omitted written =
        [.leaf (.operator ":") none, .leaf (.ident "root") none,
          .block .curly (tokens.flatMap fun token =>
            declaredNodes ("--" ++ token.path.word) (trimmed token.valueText)) none] := by
  intro tokens
  have some : tokens ≠ [] := List.cons_ne_nil _ _
  have plain : ∀ token ∈ tokens, ∀ segment ∈ token.path.segments, ∀ c ∈ segment.toList,
      isPlain c = true := by
    have checked : tokens.all (·.path.segments.all (·.toList.all isPlain)) = true := by
      decide +kernel
    simpa only [List.all_eq_true] using checked
  have whole : ∀ token ∈ tokens, SelfContained token.valueText.toList := by decide +kernel
  exact ⟨⟨some, plain, whole⟩, emitted_sheet_reads_back .pretty some plain whole⟩

end DesignTokens
