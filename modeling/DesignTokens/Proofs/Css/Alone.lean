import DesignTokens.Proofs.Css.NodeSpans
import DesignTokens.Proofs.Css.Shift

/-!
A group on its own. The text from a bracket to its closing bracket, or to the end of the text where
nothing closes it, is read as the same group when it stands alone, and only the offsets differ.
-/

namespace DesignTokens.Css

open DesignTokens.Text

theorem punctuation_of_closes {token : Token} {bracket : Bracket}
    (closes : token.closes = some bracket) : token.isPunctuation = true := by
  cases token <;> first | rfl | contradiction

section Group

variable {text : List Char} {opener : Lexeme} {contents : List Component} {closer : Option Lexeme}
  (within : Within (.group opener contents closer) (components text))

include within

theorem group_placed : ∃ before after, lexemes text =
      before ++ (Component.group opener contents closer).lexemes ++ after ∧
    Contiguous (byteLength (lexemeText before))
      (Component.group opener contents closer).lexemes := by
  obtain ⟨before, after, whole⟩ := within.lexemes
  have placed := contiguous_components text
  rw [whole, contiguous_append, contiguous_append, Nat.zero_add] at placed
  rw [componentLexemes_components] at whole
  exact ⟨before, after, whole, placed.1.2⟩

theorem slice_group : slice text (Component.group opener contents closer).span =
    some (Component.group opener contents closer).text := by
  obtain ⟨before, after, whole, placed⟩ := group_placed within
  refine slice_eq_some_iff.2 ⟨lexemeText before, lexemeText after, ?_, Component.span_eq placed⟩
  have covered := lexemeText_lexemesFrom 0 text
  rw [show lexemesFrom 0 text = lexemes text from rfl, whole] at covered
  rw [← covered, lexemeText_append, lexemeText_append]
  rfl

/-- Nothing around a group has a say in its lexemes. -/
theorem lexemesFrom_group :
    lexemesFrom opener.start (Component.group opener contents closer).text =
      (Component.group opener contents closer).lexemes := by
  obtain ⟨alone, reaches⟩ := within.group (nested_nest (lexemes text))
  have covered : lexemesFrom 0 text = componentLexemes (components text) :=
    (componentLexemes_components text).symm
  have placed := contiguous_components text
  cases closer with
  | none =>
    obtain ⟨before, ending⟩ := reaches rfl
    rw [ending] at covered placed
    rw [contiguous_append] at placed
    have follows := lexemesFrom_suffix covered
    rwa [← placed.2.1] at follows
  | some closer =>
    obtain ⟨before, after, middle⟩ := within.lexemes
    rw [middle, List.append_assoc] at covered placed
    rw [contiguous_append] at placed
    obtain ⟨bracket, closes⟩ := alone.closes
    have follows := lexemesFrom_suffix covered
    rw [← placed.2.1, Component.lexemes, Option.toList_some, List.append_assoc,
      List.singleton_append] at follows
    have cut := lexemesFrom_punctuation follows (punctuation_of_closes closes) []
    rwa [List.append_nil, lexemesFrom] at cut

theorem components_group : ∃ small,
    components (Component.group opener contents closer).text = [small] ∧
      small.shift opener.start = .group opener contents closer := by
  have alone := (within.group (nested_nest (lexemes text))).1.nest
  have read := lexemesFrom_group within
  rw [← Nat.zero_add opener.start, lexemesFrom_shift] at read
  simp only [componentLexemes, List.append_nil] at alone
  rw [← read, nest_shift, List.map_eq_singleton_iff] at alone
  exact alone

end Group

theorem finish_afterOrdinary (head : Token) : (Place.afterOrdinary head).finish = [] := by
  unfold Place.afterOrdinary
  split <;> rfl

theorem parse_values_group {text : List Char} {opener : Lexeme} {contents : List Component}
    {closer : Option Lexeme} (single : components text = [.group opener contents closer])
    {bracket : Bracket} (opens : opener.token.opens = some bracket) :
    parse .values text = [enclose opener.token (groupChildren opener contents)
      (Component.group opener contents closer).span] := by
  have solid : opener.token.isTrivia = false := by
    cases blank : opener.token.isTrivia with
    | false => rfl
    | true =>
      rw [opens_of_trivia blank] at opens
      contradiction
  rw [parse, single]
  simp [readings, assemble, step, Component.head, solid, ordinary, finish_afterOrdinary,
    Component.node_group]

theorem Lexeme.leaf_of_trivia {lexeme : Lexeme} (blank : lexeme.token.isTrivia = true) :
    lexeme.leaf = none := by
  obtain ⟨token, text, start⟩ := lexeme
  cases token with
  | space => rfl
  | comment => rfl
  | _ => contradiction

theorem parse_values_token {text : List Char} {lexeme : Lexeme} {leaf : Leaf}
    (single : lexemes text = [lexeme]) (plain : lexeme.token.opens = none)
    (read : lexeme.leaf = some leaf) :
    parse .values text = [.leaf leaf (some lexeme.span)] := by
  have alone : components text = [.token lexeme] := by
    rw [components, single, nest, List.foldl_cons, Nesting.step, plain]
    rfl
  have solid : lexeme.token.isTrivia = false := by
    cases blank : lexeme.token.isTrivia with
    | false => rfl
    | true =>
      rw [Lexeme.leaf_of_trivia blank] at read
      contradiction
  rw [parse, alone]
  simp [readings, assemble, step, Component.head, solid, ordinary, finish_afterOrdinary,
    Component.node, read]

theorem groupChildren_shift (offset : Nat) (opener : Lexeme) (contents : List Component) :
    groupChildren (opener.shift offset) (shiftComponents offset contents) =
      (groupChildren opener contents).map fun node => node.shift offset := by
  rw [groupChildren, groupChildren, readings_shift, ← assemble_shift]
  rfl

/-- The text of a function is that function when it stands alone. -/
theorem function_alone {text : List Char} {name : String} {arguments : List Node} {span : Span}
    (found : FromGroup name arguments (some span) (components text)) :
    ∃ inside children, slice text span = some inside ∧ inside ≠ [] ∧
      parse .values inside = [.function name children (some ⟨0, byteLength inside⟩)] ∧
      children.map (fun node => node.shift span.start) = arguments := by
  obtain ⟨opener, contents, closer, within, called, rfl, place⟩ := found
  cases place
  have filled : (Component.group opener contents closer).text ≠ [] := by
    obtain ⟨before, after, _, placed⟩ := group_placed within
    exact Component.text_ne_nil placed
  obtain ⟨small, single, same⟩ := components_group within
  cases small with
  | token lexeme => simp [Component.shift] at same
  | group first inner last =>
    have place : (Component.group first inner last).span =
        ⟨0, byteLength (Component.group opener contents closer).text⟩ := by
      have placed := contiguous_components (Component.group opener contents closer).text
      have whole := componentsText_components (Component.group opener contents closer).text
      rw [single, componentsText_cons, componentsText_nil, List.append_nil] at whole
      rw [single, contiguous_cons_components] at placed
      rw [Component.span_eq placed.1, whole, Nat.zero_add]
    rw [Component.shift, Component.group.injEq] at same
    obtain ⟨begins, inside, _⟩ := same
    have token : first.token = .function name := by
      rw [← called, ← begins]
      rfl
    have opens : first.token.opens = some .round := by
      rw [token]
      rfl
    refine ⟨_, groupChildren first inner, slice_group within, filled, ?_, ?_⟩
    · rw [parse_values_group single opens, token, place]
      rfl
    · have moved := groupChildren_shift opener.start first inner
      rw [begins, inside] at moved
      exact moved.symm

end DesignTokens.Css
