import DesignTokens.Css.Tree
import DesignTokens.Proofs.Css.LexemeRun
import DesignTokens.Proofs.Css.Nesting

/-!
How a syntax tree covers its text. A derivation goes through components that stand from an offset
on and says which of them each node was read from: a leaf or a group from one, the raw value of a
custom property from a run of them, an at-rule from its name, its prelude and its body. The machine
that reads a text always follows a derivation.
-/

namespace DesignTokens.Css

open DesignTokens.Text

def componentsText (components : List Component) : List Char :=
  lexemeText (componentLexemes components)

@[simp] theorem componentsText_nil : componentsText [] = [] := by
  simp [componentsText, componentLexemes]

@[simp] theorem componentsText_cons (component : Component) (rest : List Component) :
    componentsText (component :: rest) = component.text ++ componentsText rest := by
  simp [componentsText, componentLexemes, Component.text, lexemeText]

@[simp] theorem componentsText_append (left right : List Component) :
    componentsText (left ++ right) = componentsText left ++ componentsText right := by
  simp [componentsText, componentLexemes_append]

@[simp] theorem Component.text_token (lexeme : Lexeme) :
    (Component.token lexeme).text = lexeme.text := by
  simp [Component.text, Component.lexemes]

theorem Component.text_group (opener : Lexeme) (contents : List Component) (closer : Option Lexeme) :
    (Component.group opener contents closer).text =
      opener.text ++ componentsText contents ++ lexemeText closer.toList := by
  simp [Component.text, Component.lexemes, componentsText, lexemeText]

/-! Components that follow each other without a gap end where their text ends. -/

theorem contiguous_group {offset : Nat} {opener : Lexeme} {contents : List Component}
    {closer : Option Lexeme} :
    Contiguous offset (Component.group opener contents closer).lexemes ↔
      opener.start = offset ∧ opener.text ≠ [] ∧
        Contiguous (offset + byteLength opener.text) (componentLexemes contents) ∧
        Contiguous (offset + byteLength opener.text + byteLength (componentsText contents))
          closer.toList := by
  rw [Component.lexemes, List.cons_append, Contiguous, contiguous_append, Lexeme.stop]
  apply and_congr_right
  intro begins
  rw [begins]
  rfl

theorem stopOfContents_cons (offset other : Nat) (component : Component) (rest : List Component) :
    stopOfContents offset (component :: rest) = stopOfContents other (component :: rest) := by
  induction rest generalizing component with
  | nil => simp [stopOfContents]
  | cons next rest ih => simpa [stopOfContents] using ih next

mutual

theorem Component.stop_eq {offset : Nat} (component : Component)
    (placed : Contiguous offset component.lexemes) :
    component.stop = offset + byteLength component.text := by
  match component with
  | .token lexeme =>
    rw [Component.stop, Lexeme.stop, Component.text_token]
    rw [Component.lexemes] at placed
    rw [placed.1]
  | .group opener contents none =>
    obtain ⟨begins, _, inside, _⟩ := contiguous_group.1 placed
    have last := stopOfContents_eq contents inside
    rw [Component.stop, Lexeme.stop, begins, last, Component.text_group]
    simp
    omega
  | .group opener contents (some closer) =>
    obtain ⟨_, _, _, closes, _⟩ := contiguous_group.1 placed
    rw [Component.stop, Lexeme.stop, closes, Component.text_group]
    simp
    omega

theorem stopOfContents_eq {offset : Nat} (components : List Component)
    (placed : Contiguous offset (componentLexemes components)) :
    stopOfContents offset components = offset + byteLength (componentsText components) := by
  match components with
  | [] => simp [stopOfContents]
  | [component] =>
    rw [componentLexemes, contiguous_append] at placed
    rw [stopOfContents, Component.stop_eq component placed.1]
    simp
  | first :: component :: rest =>
    rw [componentLexemes, contiguous_append] at placed
    have last := stopOfContents_eq (component :: rest) placed.2
    rw [stopOfContents, stopOfContents_cons offset, last]
    simp [Component.text, lexemeText]
    omega

end

theorem Component.start_eq {offset : Nat} {component : Component}
    (placed : Contiguous offset component.lexemes) : component.start = offset := by
  cases component with
  | token lexeme => exact placed.1
  | group opener contents closer => exact placed.1

theorem Component.span_eq {offset : Nat} {component : Component}
    (placed : Contiguous offset component.lexemes) :
    component.span = ⟨offset, offset + byteLength component.text⟩ := by
  rw [Component.span, Component.start_eq placed, Component.stop_eq component placed]

theorem Component.text_ne_nil {offset : Nat} {component : Component}
    (placed : Contiguous offset component.lexemes) : component.text ≠ [] := by
  cases component with
  | token lexeme =>
    rw [Component.text_token]
    exact placed.2.1
  | group opener contents closer =>
    rw [Component.text_group]
    simp [(contiguous_group.1 placed).2.1]

theorem contiguous_cons_components {offset : Nat} {component : Component} {rest : List Component} :
    Contiguous offset (componentLexemes (component :: rest)) ↔
      Contiguous offset component.lexemes ∧
        Contiguous (offset + byteLength component.text) (componentLexemes rest) := by
  rw [componentLexemes, contiguous_append]
  rfl

def groupChildren (opener : Lexeme) (contents : List Component) : List Node :=
  assemble (contentMode opener.token) .start (readings contents)

theorem Component.node_group (opener : Lexeme) (contents : List Component)
    (closer : Option Lexeme) :
    (Component.group opener contents closer).node =
      some (enclose opener.token (groupChildren opener contents)
        (Component.group opener contents closer).span) := by
  rw [Component.node, groupChildren]

theorem readings_append (left right : List Component) :
    readings (left ++ right) = readings left ++ readings right := by
  induction left with
  | nil => simp [readings]
  | cons component rest ih => simp [readings, ih]

/-- The nodes that components from an offset on are read as. -/
inductive Derives : Nat → List Component → List Node → Prop where
  | nil {offset : Nat} : Derives offset [] []
  | skip {offset : Nat} {lexeme : Lexeme} {components : List Component} {nodes : List Node}
      (plain : lexeme.token.opens = none)
      (following : Derives (offset + byteLength lexeme.text) components nodes) :
      Derives offset (.token lexeme :: components) nodes
  | leaf {offset : Nat} {lexeme : Lexeme} {leaf : Leaf} {components : List Component}
      {nodes : List Node} (plain : lexeme.token.opens = none) (filled : lexeme.text ≠ [])
      (read : lexeme.leaf = some leaf)
      (following : Derives (offset + byteLength lexeme.text) components nodes) :
      Derives offset (.token lexeme :: components)
        (.leaf leaf (some ⟨offset, offset + byteLength lexeme.text⟩) :: nodes)
  | group {offset : Nat} {bracket : Bracket} {opener : Lexeme} {closer : Option Lexeme}
      {contents components : List Component} {nodes : List Node}
      (opens : opener.token.opens = some bracket) (filled : opener.text ≠ [])
      (closes : ∀ lexeme ∈ closer, lexeme.token.opens = none)
      (inside : Derives (offset + byteLength opener.text) contents (groupChildren opener contents))
      (following : Derives (offset + byteLength (Component.group opener contents closer).text)
        components nodes) :
      Derives offset (.group opener contents closer :: components)
        (enclose opener.token (groupChildren opener contents)
          ⟨offset, offset + byteLength (Component.group opener contents closer).text⟩ :: nodes)
  | raw {offset : Nat} {value components : List Component} {nodes : List Node}
      (following : Derives (offset + byteLength (componentsText value)) components nodes) :
      Derives offset (value ++ components) (rawNode offset (componentsText value) :: nodes)
  | rule {offset : Nat} {command : Lexeme} {name : String}
      {header body components : List Component} {prelude nodes : List Node} {block : Option Node}
      (named : command.token = .atKeyword name) (filled : command.text ≠ [])
      (above : Derives (offset + byteLength command.text) header prelude)
      (below : Derives (offset + byteLength (command.text ++ componentsText header)) body
        block.toList)
      (following : Derives
        (offset + byteLength (command.text ++ componentsText (header ++ body))) components nodes) :
      Derives offset (.token command :: header ++ body ++ components)
        (.atRule name prelude block
          (some ⟨offset, offset + byteLength (command.text ++ componentsText (header ++ body))⟩) ::
            nodes)

theorem Derives.append {offset : Nat} {left right : List Component} {first second : List Node}
    (before : Derives offset left first)
    (after : Derives (offset + byteLength (componentsText left)) right second) :
    Derives offset (left ++ right) (first ++ second) := by
  induction before with
  | nil => simpa using after
  | skip plain following ih =>
    refine .skip plain (ih ?_)
    simpa [Nat.add_assoc] using after
  | leaf plain filled read following ih =>
    refine .leaf plain filled read (ih ?_)
    simpa [Nat.add_assoc] using after
  | group opens filled closes inside following insideIh ih =>
    refine .group opens filled closes inside (ih ?_)
    simpa [Nat.add_assoc] using after
  | raw following ih =>
    rw [List.append_assoc]
    refine .raw (ih ?_)
    simpa [Nat.add_assoc] using after
  | rule named filled above below following aboveIh belowIh ih =>
    rw [List.append_assoc]
    refine .rule named filled above below (ih ?_)
    simpa [Nat.add_assoc] using after

/-- Components that a place still holds back, from the offset where the first of them starts. -/
inductive Pending : Nat → Place → List Component → Prop where
  | start {offset : Nat} : Pending offset .start []
  | inside {offset : Nat} : Pending offset .inside []
  | named {offset : Nat} : Pending offset .named []
  | value {offset : Nat} {components : List Component} :
      Pending offset (.value offset (componentsText components)) components
  | prelude {offset : Nat} {command : Lexeme} {name : String} {header : List Component}
      {nodes : List Node} (named : command.token = .atKeyword name) (filled : command.text ≠ [])
      (above : Derives (offset + byteLength command.text) header nodes) :
      Pending offset
        (.prelude name offset (offset + byteLength (command.text ++ componentsText header)) nodes)
        (.token command :: header)

theorem Pending.finish {offset : Nat} {place : Place} {waiting : List Component}
    (pending : Pending offset place waiting) : Derives offset waiting place.finish := by
  cases pending with
  | start => exact .nil
  | inside => exact .nil
  | named => exact .nil
  | value =>
    have read : Derives offset (waiting ++ []) [rawNode offset (componentsText waiting)] := .raw .nil
    rwa [List.append_nil] at read
  | prelude named filled above =>
    have read (derived : Derives _ [] (none : Option Node).toList) :=
      Derives.rule named filled above derived .nil
    simpa [Place.finish] using read .nil

/-- What one more component does: some components are done, the others are held back. -/
def Advances (offset : Nat) (waiting : List Component) (component : Component)
    (result : List Node × Place) : Prop :=
  ∃ done left, waiting ++ [component] = done ++ left ∧ Derives offset done result.1 ∧
    Pending (offset + byteLength (componentsText done)) result.2 left

theorem opens_of_trivia {token : Token} (blank : token.isTrivia = true) : token.opens = none := by
  cases token <;> first | rfl | contradiction

theorem Proper.token_of_head {component : Component} (proper : Proper component)
    (plain : component.head.opens = none) :
    ∃ lexeme, component = .token lexeme ∧ lexeme.token.opens = none := by
  cases proper with
  | token free => exact ⟨_, rfl, free⟩
  | group opens inside closes =>
    have same : _ = none := plain
    rw [Component.head, opens] at same
    contradiction

theorem Proper.skip {component : Component} (proper : Proper component)
    (plain : component.head.opens = none) (offset : Nat) : Derives offset [component] [] := by
  obtain ⟨lexeme, rfl, free⟩ := proper.token_of_head plain
  exact .skip free .nil

theorem advances_done {offset : Nat} {component : Component} {nodes : List Node} {place : Place}
    (single : Derives offset [component] nodes)
    (free : ∀ offset, Pending offset place []) : Advances offset [] component (nodes, place) :=
  ⟨[component], [], rfl, single, free _⟩

theorem pending_afterOrdinary (head : Token) (offset : Nat) :
    Pending offset (Place.afterOrdinary head) [] := by
  unfold Place.afterOrdinary
  split
  · exact .start
  · exact .inside

section Machine

variable {offset : Nat} {component : Component}

theorem ordinary_advances (placed : Contiguous offset component.lexemes) (proper : Proper component)
    (single : Derives offset [component] component.node.toList) (mode : Mode) (atStart : Bool) :
    Advances offset [] component (ordinary mode atStart ⟨component, component.node⟩) := by
  unfold ordinary
  dsimp only
  split
  · rename_i name found
    obtain ⟨lexeme, rfl, free⟩ := proper.token_of_head (by rw [found]; rfl)
    refine ⟨[], [.token lexeme], rfl, .nil, ?_⟩
    rw [Component.start_eq placed, Component.stop_eq _ placed]
    have above : Derives (offset + byteLength lexeme.text) [] [] := .nil
    have held : Pending offset _ [.token lexeme] := .prelude found placed.2.1 above
    simpa using held
  · split
    · exact advances_done single fun offset => .named
    · exact advances_done single fun offset => .inside
  · exact advances_done single (pending_afterOrdinary _)

theorem value_advances {waiting : List Component}
    (placed : Contiguous (offset + byteLength (componentsText waiting)) component.lexemes)
    (proper : Proper component)
    (single : Derives (offset + byteLength (componentsText waiting)) [component]
      component.node.toList) (mode : Mode) :
    Advances offset waiting component
      (step mode (.value offset (componentsText waiting)) ⟨component, component.node⟩) := by
  unfold step
  dsimp only
  split
  · obtain ⟨done, left, split, derived, pending⟩ :=
      ordinary_advances placed proper single mode false
    refine ⟨waiting ++ done, left, by rw [List.append_assoc, ← split]; rfl, .raw derived, ?_⟩
    simpa [Nat.add_assoc] using pending
  · refine ⟨[], waiting ++ [component], rfl, .nil, ?_⟩
    have text : componentsText waiting ++ component.text =
        componentsText (waiting ++ [component]) := by simp
    rw [text]
    have held : Pending offset _ (waiting ++ [component]) := .value
    simpa using held

theorem prelude_advances {command : Lexeme} {name : String} {header : List Component}
    {nodes : List Node} (named : command.token = .atKeyword name) (filled : command.text ≠ [])
    (above : Derives (offset + byteLength command.text) header nodes)
    (placed : Contiguous (offset + byteLength (command.text ++ componentsText header))
      component.lexemes) (proper : Proper component)
    (single : Derives (offset + byteLength (command.text ++ componentsText header)) [component]
      component.node.toList) (mode : Mode) :
    Advances offset (.token command :: header) component
      (step mode
        (.prelude name offset (offset + byteLength (command.text ++ componentsText header)) nodes)
        ⟨component, component.node⟩) := by
  have ending : component.stop =
      offset + byteLength (command.text ++ componentsText (header ++ [component])) := by
    rw [Component.stop_eq component placed]
    simp
    omega
  have place : offset + byteLength command.text + byteLength (componentsText header) =
      offset + byteLength (command.text ++ componentsText header) := by
    simp [Nat.add_assoc]
  have longer {more : List Node}
      (read : Derives (offset + byteLength (command.text ++ componentsText header)) [component] more) :
      Advances offset (.token command :: header) component
        ([], .prelude name offset component.stop (nodes ++ more)) := by
    refine ⟨[], .token command :: (header ++ [component]), rfl, .nil, ?_⟩
    rw [ending]
    rw [← place] at read
    have held : Pending offset _ (.token command :: (header ++ [component])) :=
      .prelude named filled (above.append read)
    simpa using held
  have closed (block : Option Node)
      (read : Derives (offset + byteLength (command.text ++ componentsText header)) [component]
        block.toList) :
      Advances offset (.token command :: header) component
        ([.atRule name nodes block (some ⟨offset, component.stop⟩)], .start) := by
    refine ⟨.token command :: header ++ [component], [], by simp, ?_, .start⟩
    rw [ending]
    have rule := Derives.rule named filled above read .nil
    rwa [List.append_nil] at rule
  unfold step
  dsimp only
  split
  · rename_i blank
    simpa using longer (proper.skip (opens_of_trivia blank) _)
  · split
    · rename_i semicolon
      exact closed none (proper.skip (by rw [semicolon]; rfl) _)
    · split
      · exact closed _ single
      · exact longer single

theorem step_advances {place : Place} {waiting : List Component}
    (pending : Pending offset place waiting)
    (placed : Contiguous (offset + byteLength (componentsText waiting)) component.lexemes)
    (proper : Proper component)
    (single : Derives (offset + byteLength (componentsText waiting)) [component]
      component.node.toList) (mode : Mode) :
    Advances offset waiting component (step mode place ⟨component, component.node⟩) := by
  cases pending with
  | value => exact value_advances placed proper single mode
  | prelude named filled above =>
    simp only [componentsText_cons, Component.text_token] at placed single
    exact prelude_advances named filled above placed proper single mode
  | start =>
    simp only [componentsText_nil, byteLength_nil, Nat.add_zero] at placed single
    unfold step
    dsimp only
    split
    · rename_i blank
      exact advances_done (proper.skip (opens_of_trivia blank) _) fun offset => .start
    · exact ordinary_advances placed proper single mode true
  | inside =>
    simp only [componentsText_nil, byteLength_nil, Nat.add_zero] at placed single
    unfold step
    dsimp only
    split
    · rename_i blank
      exact advances_done (proper.skip (opens_of_trivia blank) _) fun offset => .inside
    · exact ordinary_advances placed proper single mode false
  | named =>
    simp only [componentsText_nil, byteLength_nil, Nat.add_zero] at placed single
    unfold step
    dsimp only
    split
    · rename_i blank
      exact advances_done (proper.skip (opens_of_trivia blank) _) fun offset => .named
    · split
      · rename_i colon
        refine ⟨[component], [], rfl, proper.skip (by rw [colon]; rfl) _, ?_⟩
        rw [Component.stop_eq component placed]
        have held : Pending (offset + byteLength component.text) _ [] := .value
        simpa using held
      · exact ordinary_advances placed proper single mode false

end Machine

def EachDerives (components : List Component) : Prop :=
  ∀ component ∈ components, Proper component ∧ ∀ offset, Contiguous offset component.lexemes →
    Derives offset [component] component.node.toList

def advance (mode : Mode) (place : Place) : List Reading → List Node × Place
  | [] => ([], place)
  | reading :: rest =>
    let now := step mode place reading
    let later := advance mode now.2 rest
    (now.1 ++ later.1, later.2)

theorem assemble_append (mode : Mode) (place : Place) (left right : List Reading) :
    assemble mode place (left ++ right) =
      (advance mode place left).1 ++ assemble mode (advance mode place left).2 right := by
  induction left generalizing place with
  | nil => rfl
  | cons reading rest ih => simp [assemble, advance, ih]

theorem assemble_eq (mode : Mode) (place : Place) (list : List Reading) :
    assemble mode place list =
      (advance mode place list).1 ++ (advance mode place list).2.finish := by
  have whole := assemble_append mode place list []
  rwa [List.append_nil] at whole

/-- The machine follows a derivation up to what it holds back. -/
theorem advance_derives {offset : Nat} {place : Place} {waiting components : List Component}
    (pending : Pending offset place waiting) (each : EachDerives components)
    (placed : Contiguous (offset + byteLength (componentsText waiting))
      (componentLexemes components)) (mode : Mode) :
    ∃ done left, waiting ++ components = done ++ left ∧
      Derives offset done (advance mode place (readings components)).1 ∧
      Pending (offset + byteLength (componentsText done))
        (advance mode place (readings components)).2 left := by
  induction components generalizing offset place waiting with
  | nil => exact ⟨[], waiting, by simp, .nil, by simpa [readings, advance] using pending⟩
  | cons component rest ih =>
    rw [contiguous_cons_components] at placed
    obtain ⟨proper, single⟩ := each component (by simp)
    obtain ⟨done, left, split, derived, next⟩ :=
      step_advances pending placed.1 proper (single _ placed.1) mode
    have lengths := congrArg (fun components => byteLength (componentsText components)) split
    simp only [componentsText_append, componentsText_cons, componentsText_nil, List.append_nil,
      byteLength_append] at lengths
    obtain ⟨further, kept, parts, following, held⟩ := ih next
      (fun other member => each other (by simp [member]))
      (by rw [Nat.add_assoc, ← lengths, ← Nat.add_assoc]; exact placed.2)
    refine ⟨done ++ further, kept, ?_, derived.append following, ?_⟩
    · rw [← List.singleton_append, ← List.append_assoc, split, List.append_assoc, parts,
        List.append_assoc]
    · simpa [readings, advance, Nat.add_assoc] using held

theorem assemble_derives {offset : Nat} {components : List Component}
    (each : EachDerives components) (placed : Contiguous offset (componentLexemes components))
    (mode : Mode) : Derives offset components (assemble mode .start (readings components)) := by
  have free : Pending offset .start [] := .start
  obtain ⟨done, left, whole, derived, held⟩ := advance_derives free each (by simpa using placed) mode
  have complete := derived.append held.finish
  rwa [← whole, List.nil_append, ← assemble_eq] at complete

theorem node_derives {component : Component} (proper : Proper component) {offset : Nat}
    (placed : Contiguous offset component.lexemes) :
    Derives offset [component] component.node.toList := by
  induction proper generalizing offset with
  | @token lexeme plain =>
    rw [Component.node, show lexeme.span = ⟨offset, offset + byteLength lexeme.text⟩ by
      rw [Lexeme.span, Lexeme.stop, placed.1]]
    cases read : lexeme.leaf with
    | none => exact .skip plain .nil
    | some leaf => exact .leaf plain placed.2.1 read .nil
  | @group bracket opener contents closer opens inside closes ih =>
    rw [Component.node_group, Component.span_eq placed]
    obtain ⟨_, filled, below, _⟩ := contiguous_group.1 placed
    have each : EachDerives contents := fun component member =>
      ⟨inside component member, fun offset placed => ih component member placed⟩
    exact .group opens filled closes (assemble_derives each below (contentMode opener.token)) .nil

theorem contiguous_components (text : List Char) :
    Contiguous 0 (componentLexemes (components text)) := by
  rw [componentLexemes_components]
  exact contiguous_lexemesFrom 0 text

@[simp] theorem componentsText_components (text : List Char) :
    componentsText (components text) = text := by
  rw [componentsText, componentLexemes_components]
  exact lexemeText_lexemesFrom 0 text

theorem eachDerives_components (text : List Char) : EachDerives (components text) := by
  intro component member
  have proper := (nested_nest (lexemes text)).proper component member
  exact ⟨proper, fun offset placed => node_derives proper placed⟩

/-- The tree of a text is derived from its components. -/
theorem parse_derives (mode : Mode) (text : List Char) :
    Derives 0 (components text) (parse mode text) :=
  assemble_derives (eachDerives_components text) (contiguous_components text) mode

end DesignTokens.Css
