import DesignTokens.Proofs.Css.Placement
import DesignTokens.Proofs.Css.Trivia

/-!
A tree leaves out no part of its text. Between its topmost nodes, before the first and after the
last of them, there is nothing but white space and comments, and a colon between the name of a
custom property and its raw value. With the place of every node inside the one above it, each
part of the text is covered once.
-/

namespace DesignTokens.Css

open DesignTokens.Text

namespace Node

def isRaw : Node → Bool
  | .leaf (.raw _) _ => true
  | _ => false

def namesProperty : Node → Bool
  | .leaf (.ident name) _ => isCustomName name
  | _ => false

end Node

/-- Nodes side by side with what stands between them, in a text from an offset on. The flag tells
whether the name of a custom property stands right before the text. -/
inductive Covers : Bool → Nat → List Char → List Node → Prop where
  | last {named : Bool} {offset : Nat} {gap : List Char} (trivia : Trivia [] gap) :
      Covers named offset gap []
  | node {named : Bool} {offset : Nat} {gap inside rest : List Char} {node : Node}
      {nodes : List Node} (trivia : Trivia (inside ++ rest) gap) (cooked : node.isRaw = false)
      (located : node.span = some ⟨offset + byteLength gap, offset + byteLength (gap ++ inside)⟩)
      (following : Covers node.namesProperty (offset + byteLength (gap ++ inside)) rest nodes) :
      Covers named offset (gap ++ inside ++ rest) (node :: nodes)
  /-- Only here a colon is passed over, and blanks around the value. -/
  | value {offset : Nat} {gap blanks value rest : List Char} {nodes : List Node}
      (trivia : Trivia (':' :: blanks ++ value ++ rest) gap)
      (blank : ∀ c ∈ blanks, isBlank c = true)
      (following : Covers false (offset + byteLength (gap ++ ':' :: blanks ++ value)) rest nodes) :
      Covers true offset (gap ++ ':' :: blanks ++ value ++ rest)
        (.leaf (.raw (String.ofList value)) (some ⟨offset + byteLength (gap ++ ':' :: blanks),
          offset + byteLength (gap ++ ':' :: blanks ++ value)⟩) :: nodes)

theorem Covers.skip {named : Bool} {offset : Nat} {separator text : List Char} {nodes : List Node}
    (separates : ∀ gap after, text = gap ++ after → Trivia after gap →
      Trivia after (separator ++ gap))
    (covers : Covers named (offset + byteLength separator) text nodes) :
    Covers named offset (separator ++ text) nodes := by
  cases covers with
  | last trivia => exact .last (separates text [] (List.append_nil text).symm trivia)
  | @node _ _ gap inside rest node nodes trivia cooked located following =>
    have longer := separates gap (inside ++ rest) (List.append_assoc _ _ _) trivia
    have place : node.span = some ⟨offset + byteLength (separator ++ gap),
        offset + byteLength (separator ++ gap ++ inside)⟩ := by
      rw [located]
      simp [Nat.add_assoc]
    have further : Covers node.namesProperty (offset + byteLength (separator ++ gap ++ inside))
        rest nodes := by
      simpa [Nat.add_assoc] using following
    have covers : Covers named offset (separator ++ gap ++ inside ++ rest) (node :: nodes) :=
      .node longer cooked place further
    simpa [List.append_assoc] using covers
  | @value _ gap blanks value rest nodes trivia blank following =>
    have longer := separates gap (':' :: blanks ++ value ++ rest) (by simp) trivia
    have further : Covers false (offset + byteLength (separator ++ gap ++ ':' :: blanks ++ value))
        rest nodes := by
      simpa [Nat.add_assoc] using following
    simpa [List.append_assoc, Nat.add_assoc] using Covers.value longer blank further

theorem covers_raw {offset : Nat} {text rest : List Char} {nodes : List Node}
    (following : Covers false (offset + byteLength (':' :: text)) rest nodes) :
    Covers true offset (':' :: text ++ rest)
      (rawNode (offset + byteLength [':']) text :: nodes) := by
  obtain ⟨trailing, split, blank⟩ := trim_split text
  have size := congrArg byteLength split
  have further : Covers false (offset + byteLength ([] ++ ':' :: leadingBlanks text ++ trim text))
      (trailing ++ rest) nodes := by
    refine .skip (fun gap after _ trivia => .blanks blank trivia) ?_
    have place : offset + byteLength ([] ++ ':' :: leadingBlanks text ++ trim text) +
        byteLength trailing = offset + byteLength (':' :: text) := by
      simp only [List.nil_append, List.cons_append, byteLength_cons, byteLength_append] at size ⊢
      omega
    rwa [place]
  have covers := Covers.value .nil (fun _ => leadingBlanks_blank _) further
  have whole : [] ++ ':' :: leadingBlanks text ++ trim text ++ (trailing ++ rest) =
      ':' :: text ++ rest := by
    conv_rhs => rw [split]
    simp
  rw [whole] at covers
  simpa [rawNode, Nat.add_assoc] using covers

/-! What single components are read as. -/

theorem Component.located {offset : Nat} {component : Component}
    (placed : Contiguous offset component.lexemes) {node : Node}
    (read : component.node = some node) :
    node.span = some ⟨offset, offset + byteLength component.text⟩ ∧ node.isRaw = false := by
  cases component with
  | token lexeme =>
    rw [Component.node, Option.map_eq_some_iff] at read
    obtain ⟨leaf, found, rfl⟩ := read
    refine ⟨?_, ?_⟩
    · rw [Node.span, Lexeme.span, Lexeme.stop, placed.1, Component.text_token]
    · cases leaf with
      | raw text => exact absurd rfl (Lexeme.leaf_ne_raw found text)
      | _ => rfl
  | group opener contents closer =>
    rw [Component.node_group, Option.some.injEq] at read
    subst read
    refine ⟨by rw [enclose_span, Component.span_eq placed], ?_⟩
    unfold enclose
    split <;> rfl

theorem Component.read_of_solid {component : Component} (solid : component.head.isTrivia = false) :
    ∃ node, component.node = some node := by
  cases component with
  | token lexeme =>
    rw [Component.node]
    rw [Component.head] at solid
    cases read : lexeme.leaf with
    | some leaf => exact ⟨_, rfl⟩
    | none =>
      unfold Lexeme.leaf at read
      split at read <;> simp_all [Token.isTrivia]
  | group opener contents closer => exact ⟨_, Component.node_group opener contents closer⟩

theorem Component.namesProperty_of_ident {component : Component} (proper : Proper component)
    {name : String} (ident : component.head = .ident name) {node : Node}
    (read : component.node = some node) : node.namesProperty = isCustomName name := by
  obtain ⟨lexeme, rfl, -⟩ := proper.token_of_head (by rw [ident]; rfl)
  have token : lexeme.token = .ident name := ident
  simp only [Component.node, Lexeme.leaf, token, Option.map_some, Option.some.injEq] at read
  rw [← read]
  rfl

/-! What a whole list is read as, from any place of the machine. -/

inductive Awaits : Bool → Nat → Place → List Char → Prop where
  | start {named : Bool} {offset : Nat} : Awaits named offset .start []
  | inside {named : Bool} {offset : Nat} : Awaits named offset .inside []
  | named {offset : Nat} : Awaits true offset .named []
  | value {offset : Nat} {text : List Char} :
      Awaits true offset (.value (offset + byteLength [':']) text) (':' :: text)
  | prelude {named : Bool} {offset : Nat} {name : String} {held : List Char} {nodes : List Node} :
      Awaits named offset (.prelude name offset (offset + byteLength held) nodes) held

theorem covers_rule {named : Bool} {offset : Nat} {held rest : List Char} (name : String)
    (prelude : List Node) (block : Option Node) {nodes : List Node}
    (following : Covers false (offset + byteLength held) rest nodes) :
    Covers named offset (held ++ rest)
      (.atRule name prelude block (some ⟨offset, offset + byteLength held⟩) :: nodes) := by
  have covers : Covers named offset ([] ++ held ++ rest)
      (.atRule name prelude block (some ⟨offset, offset + byteLength held⟩) :: nodes) :=
    .node .nil rfl (by simp [Node.span]) (by simpa [Node.namesProperty] using following)
  simpa using covers

theorem Awaits.finish {named : Bool} {offset : Nat} {place : Place} {held : List Char}
    (awaits : Awaits named offset place held) : Covers named offset held place.finish := by
  cases awaits with
  | start => exact .last .nil
  | inside => exact .last .nil
  | named => exact .last .nil
  | @value _ text =>
    have covers : Covers true offset (':' :: text ++ []) _ := covers_raw (.last .nil)
    rwa [List.append_nil] at covers
  | @prelude _ _ name _ nodes =>
    have covers : Covers named offset (held ++ []) _ := covers_rule name nodes none (.last .nil)
    rwa [List.append_nil] at covers

/-- From where they start on, components are covered whatever place they are read from. -/
def ReadsOn (mode : Mode) (start : Nat) (components : List Component) : Prop :=
  ∀ named offset place held, Awaits named offset place held → offset + byteLength held = start →
    Covers named offset (held ++ componentsText components)
      (assemble mode place (readings components))

section Step

variable {mode : Mode} {start : Nat} {component : Component} {rest : List Component}
  (placed : Contiguous start component.lexemes) (proper : Proper component)
  (later : ReadsOn mode (start + byteLength component.text) rest)
include placed later

theorem covers_done {named : Bool} {node : Node} (read : component.node = some node) {place : Place}
    (awaits : Awaits node.namesProperty (start + byteLength component.text) place []) :
    Covers named start (component.text ++ componentsText rest)
      (component.node.toList ++ assemble mode place (readings rest)) := by
  obtain ⟨located, cooked⟩ := Component.located placed read
  have following := later _ _ _ _ awaits (by simp)
  have covers : Covers named start ([] ++ component.text ++ componentsText rest)
      (node :: assemble mode place (readings rest)) :=
    .node .nil cooked (by simpa using located) (by simpa using following)
  simpa [read] using covers

include proper

theorem ordinary_covers {named : Bool} (solid : component.head.isTrivia = false) (atStart : Bool) :
    Covers named start (component.text ++ componentsText rest)
      ((ordinary mode atStart ⟨component, component.node⟩).1 ++
        assemble mode (ordinary mode atStart ⟨component, component.node⟩).2 (readings rest)) := by
  obtain ⟨node, read⟩ := Component.read_of_solid solid
  unfold ordinary
  dsimp only
  split
  · rw [Component.start_eq placed, Component.stop_eq component placed]
    exact later _ _ _ _ .prelude rfl
  · rename_i name ident
    have names := Component.namesProperty_of_ident proper ident read
    split
    · rename_i custom
      rw [Bool.and_eq_true] at custom
      refine covers_done placed later read ?_
      rw [names, custom.2]
      exact .named
    · exact covers_done placed later read .inside
  · refine covers_done placed later read ?_
    unfold Place.afterOrdinary
    split
    · exact .start
    · exact .inside

variable (legible : LegibleRun (componentLexemes (component :: rest)))
include legible

/-- White space and comments do not move the machine. -/
theorem trivia_covers {named : Bool} (blank : component.head.isTrivia = true) {place : Place}
    (awaits : Awaits named (start + byteLength component.text) place []) :
    Covers named start (component.text ++ componentsText rest)
      (assemble mode place (readings rest)) := by
  obtain ⟨lexeme, rfl, -⟩ := proper.token_of_head (opens_of_trivia blank)
  rw [componentLexemes, Component.lexemes] at legible
  rw [Component.text_token] at later awaits ⊢
  refine .skip (legible.1.1 blank) ?_
  simpa using later _ _ _ _ awaits (by simp)

/-! One component more, from each of the places. -/

/-- The start and the inside of a declaration differ only in how they read what is no trivia. -/
theorem quiet_covers {named atStart : Bool} {place : Place}
    (quiet : ∀ reading, step mode place reading =
      if reading.component.head.isTrivia then ([], place) else ordinary mode atStart reading)
    (awaits : Awaits named (start + byteLength component.text) place []) :
    Covers named start (componentsText (component :: rest))
      (assemble mode place (readings (component :: rest))) := by
  rw [componentsText_cons, readings, assemble, quiet]
  dsimp only
  split
  · rename_i blank
    exact trivia_covers placed proper later legible blank awaits
  · rename_i solid
    exact ordinary_covers placed proper later (Bool.eq_false_iff.2 solid) atStart

theorem named_covers : Covers true start (componentsText (component :: rest))
    (assemble mode .named (readings (component :: rest))) := by
  rw [componentsText_cons, readings, assemble]
  unfold step
  dsimp only
  split
  · rename_i blank
    exact trivia_covers placed proper later legible blank .named
  · rename_i solid
    split
    · rename_i colon
      obtain ⟨lexeme, rfl, -⟩ := proper.token_of_head (by rw [colon]; rfl)
      rw [componentLexemes, Component.lexemes] at legible
      have text : (Component.token lexeme).text = [':'] := by
        rw [Component.text_token]
        exact legible.1.2 colon
      rw [text] at later ⊢
      rw [Component.stop_eq _ placed, text]
      exact later _ _ _ _ .value rfl
    · exact ordinary_covers placed proper later (Bool.eq_false_iff.2 solid) false

omit legible

theorem value_covers {offset : Nat} {text : List Char}
    (begins : offset + byteLength (':' :: text) = start) :
    Covers true offset (':' :: text ++ componentsText (component :: rest))
      (assemble mode (.value (offset + byteLength [':']) text) (readings (component :: rest))) := by
  rw [componentsText_cons, readings, assemble]
  unfold step
  dsimp only
  split
  · rename_i semicolon
    have solid : component.head.isTrivia = false := by rw [semicolon]; rfl
    rw [← begins] at placed later
    exact covers_raw (ordinary_covers placed proper later solid false)
  · have held : Awaits true offset _ (':' :: (text ++ component.text)) := .value
    have longer := later _ _ _ _ held (by simp at begins ⊢; omega)
    simpa [List.append_assoc] using longer

omit proper

theorem prelude_covers {named : Bool} {offset : Nat} {held : List Char}
    (begins : offset + byteLength held = start) (name : String) (nodes : List Node) :
    Covers named offset (held ++ componentsText (component :: rest))
      (assemble mode (.prelude name offset (offset + byteLength held) nodes)
        (readings (component :: rest))) := by
  rw [componentsText_cons, readings, assemble, ← List.append_assoc]
  have stop : component.stop = offset + byteLength (held ++ component.text) := by
    rw [Component.stop_eq component placed, ← begins]
    simp [Nat.add_assoc]
  have further : start + byteLength component.text =
      offset + byteLength (held ++ component.text) := by
    rw [← begins]
    simp [Nat.add_assoc]
  have waiting (more : List Node) : Covers named offset (held ++ component.text ++
      componentsText rest) (assemble mode (.prelude name offset component.stop more)
        (readings rest)) := by
    rw [stop]
    exact later _ _ _ _ .prelude further.symm
  have closed (block : Option Node) : Covers named offset (held ++ component.text ++
      componentsText rest) (.atRule name nodes block (some ⟨offset, component.stop⟩) ::
        assemble mode .start (readings rest)) := by
    rw [stop]
    refine covers_rule name nodes block ?_
    simpa [further] using later false _ .start _ .start (Nat.add_zero _)
  unfold step
  dsimp only
  split
  · exact waiting _
  · split
    · exact closed none
    · split
      · exact closed _
      · exact waiting _

include proper legible

theorem readsOn_cons : ReadsOn mode start (component :: rest) := by
  intro named offset place held awaits begins
  cases awaits with
  | start =>
    obtain rfl : offset = start := begins
    exact quiet_covers placed proper later legible (fun _ => rfl) .start
  | inside =>
    obtain rfl : offset = start := begins
    exact quiet_covers placed proper later legible (fun _ => rfl) .inside
  | named =>
    obtain rfl : offset = start := begins
    exact named_covers placed proper later legible
  | value => exact value_covers placed proper later begins
  | prelude => exact prelude_covers placed later begins _ _

end Step

theorem readsOn_components (mode : Mode) {start : Nat} {components : List Component}
    (placed : Contiguous start (componentLexemes components))
    (proper : ∀ component ∈ components, Proper component)
    (legible : LegibleRun (componentLexemes components)) : ReadsOn mode start components := by
  induction components generalizing start with
  | nil =>
    intro named offset place held awaits _
    simpa [readings, assemble] using awaits.finish
  | cons component rest ih =>
    obtain ⟨own, others⟩ := List.forall_mem_cons.1 proper
    obtain ⟨here, after⟩ := contiguous_cons_components.1 placed
    exact readsOn_cons here own (ih after others legible.right) legible

theorem parse_covers (mode : Mode) (text : List Char) : Covers false 0 text (parse mode text) := by
  have legible : LegibleRun (componentLexemes (components text)) := by
    rw [componentLexemes_components]
    exact legibleRun_lexemesFrom 0 text
  have reads := readsOn_components mode (contiguous_components text)
    (nested_nest (lexemes text)).proper legible
  simpa [parse] using reads false 0 .start [] .start rfl

/-- A tree that drops no part of its text and covers none twice. -/
structure CoversOnce (text : List Char) (nodes : List Node) : Prop where
  placed : ∀ node ∈ walk nodes, ∃ span, node.Placed text span
  ordered : nodes.Pairwise Node.Before
  covers : Covers false 0 text nodes

theorem parse_coversOnce (mode : Mode) (text : List Char) : CoversOnce text (parse mode text) :=
  ⟨fun _ member => (parse_laid mode text).placed member, (parse_laid mode text).pairwise,
    parse_covers mode text⟩

/-- The trees of a text, read as a style sheet or as a value, cover it once. -/
theorem trees_cover_text_once (input : String) :
    CoversOnce input.toList (parseStylesheet .recorded input) ∧
      CoversOnce input.toList (parseValue .recorded input) :=
  ⟨parse_coversOnce .statements input.toList, parse_coversOnce .values input.toList⟩

end DesignTokens.Css
