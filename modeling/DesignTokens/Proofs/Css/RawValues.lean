import DesignTokens.Proofs.Css.NodeSpans

/-!
The raw values of custom properties in a tree. A raw value is a run of components without the blanks
around it. The tree keeps every function token, as a function of its own or inside one raw value,
and functions and raw values stand apart.
-/

namespace DesignTokens.Css

open DesignTokens.Text

def Part (other : Nat) (inner : List Component) (offset : Nat) (outer : List Component) : Prop :=
  ∃ before after, componentLexemes outer = before ++ componentLexemes inner ++ after ∧
    other = offset + byteLength (lexemeText before)

namespace Part

variable {offset other : Nat}

theorem contiguous {inner outer : List Component} (part : Part other inner offset outer)
    (placed : Contiguous offset (componentLexemes outer)) :
    Contiguous other (componentLexemes inner) := by
  obtain ⟨before, after, whole, start⟩ := part
  rw [whole, contiguous_append, contiguous_append] at placed
  rw [start]
  exact placed.1.2

theorem after (value components : List Component) :
    Part (offset + byteLength (componentsText value)) components offset (value ++ components) :=
  ⟨componentLexemes value, [], by simp [componentLexemes_append], rfl⟩

theorem rest (component : Component) (components : List Component) :
    Part (offset + byteLength component.text) components offset (component :: components) :=
  ⟨component.lexemes, [], by simp [componentLexemes], rfl⟩

theorem token (lexeme : Lexeme) (components : List Component) :
    Part (offset + byteLength lexeme.text) components offset (.token lexeme :: components) := by
  have part : Part (offset + byteLength (Component.token lexeme).text) components offset
      (.token lexeme :: components) := rest _ _
  rwa [Component.text_token] at part

theorem contents (opener : Lexeme) (contents : List Component) (closer : Option Lexeme)
    (components : List Component) :
    Part (offset + byteLength opener.text) contents offset
      (.group opener contents closer :: components) :=
  ⟨[opener], closer.toList ++ componentLexemes components,
    by simp [componentLexemes, Component.lexemes], by simp⟩

theorem header (command : Lexeme) (header body components : List Component) :
    Part (offset + byteLength command.text) header offset
      (.token command :: header ++ body ++ components) :=
  ⟨[command], componentLexemes (body ++ components),
    by simp [componentLexemes_append, componentLexemes, Component.lexemes], by simp⟩

theorem body (command : Lexeme) (header body components : List Component) :
    Part (offset + byteLength (command.text ++ componentsText header)) body offset
      (.token command :: header ++ body ++ components) :=
  ⟨command :: componentLexemes header, componentLexemes components,
    by simp [componentLexemes_append, componentLexemes, Component.lexemes],
    by simp [componentsText]⟩

theorem following (command : Lexeme) (header body components : List Component) :
    Part (offset + byteLength (command.text ++ componentsText (header ++ body))) components offset
      (.token command :: header ++ body ++ components) :=
  ⟨command :: componentLexemes (header ++ body), [],
    by simp [componentLexemes_append, componentLexemes, Component.lexemes],
    by simp [componentsText]⟩

end Part

/-! Raw values come from runs of components. -/

/-- A raw value that was read from a run of components without the blanks around it. -/
def FromValue (offset : Nat) (text : String) (span : Option Span) (components : List Component) :
    Prop :=
  ∃ before value after, componentLexemes components = before ++ componentLexemes value ++ after ∧
    .leaf (.raw text) span =
      rawNode (offset + byteLength (lexemeText before)) (componentsText value)

theorem FromValue.among {other offset : Nat} {text : String} {span : Option Span}
    {inner outer : List Component} (known : FromValue other text span inner)
    (part : Part other inner offset outer) : FromValue offset text span outer := by
  obtain ⟨left, value, right, split, same⟩ := known
  obtain ⟨before, after, whole, start⟩ := part
  refine ⟨before ++ left, value, right ++ after, by simp [whole, split], ?_⟩
  rw [same, start]
  simp [Nat.add_assoc]

theorem Derives.raw_value {offset : Nat} {components : List Component} {nodes : List Node}
    (derived : Derives offset components nodes) {text : String} {span : Option Span}
    (found : .leaf (.raw text) span ∈ walk nodes) : FromValue offset text span components := by
  induction derived with
  | nil => simp at found
  | skip plain following ih => exact (ih found).among (.token _ _)
  | @leaf offset lexeme leaf components nodes plain filled read following ih =>
    simp only [walk_cons, Node.children, walk_nil, List.nil_append, List.mem_cons] at found
    rcases found with self | later
    · exact absurd (Node.leaf.inj self).1.symm (Lexeme.leaf_ne_raw read text)
    · exact (ih later).among (.token _ _)
  | @group offset bracket opener closer contents components nodes opens filled closes inside
      following insideIh ih =>
    simp only [walk_cons, enclose_children, List.mem_cons, List.mem_append] at found
    rcases found with self | below | later
    · exact absurd self.symm (enclose_ne_leaf _ _ _ _ _)
    · exact (insideIh below).among (.contents opener contents closer components)
    · exact (ih later).among (.rest _ _)
  | @raw offset value components nodes following ih =>
    simp only [walk_cons, List.mem_cons, List.mem_append] at found
    rcases found with self | below | later
    · exact ⟨[], value, componentLexemes components, by simp [componentLexemes_append],
        by simpa using self⟩
    · simp [rawNode, Node.children] at below
    · exact (ih later).among (.after value components)
  | @rule offset command name header body components prelude nodes block named filled above below
      following aboveIh belowIh ih =>
    simp only [walk_cons, Node.children, walk_append, List.mem_cons, List.mem_append] at found
    rcases found with self | (upper | lower) | later
    · simp at self
    · exact (aboveIh upper).among (.header command header body components)
    · exact (belowIh lower).among (.body command header body components)
    · exact (ih later).among (.following command header body components)

theorem raw_slice {mode : Mode} {text : List Char} {value : String} {span : Option Span}
    (found : .leaf (.raw value) span ∈ walk (parse mode text)) :
    ∃ place, span = some place ∧ slice text place = some value.toList := by
  obtain ⟨before, run, after, whole, same⟩ := (parse_derives mode text).raw_value found
  obtain ⟨trailing, blanks, _⟩ := trim_split (componentsText run)
  have covered := componentsText_components text
  rw [componentsText, whole, lexemeText_append, lexemeText_append] at covered
  simp only [rawNode, Node.leaf.injEq, Leaf.raw.injEq, Nat.zero_add] at same
  obtain ⟨rfl, rfl⟩ := same
  refine ⟨_, rfl, slice_eq_some_iff.2 ⟨lexemeText before ++ leadingBlanks (componentsText run),
    trailing ++ lexemeText after, ?_, ?_⟩⟩
  · rw [String.toList_ofList, ← covered]
    conv_lhs => rw [← componentsText, blanks]
    simp
  · simp

/-! Every function token becomes a function of the tree, unless it stands in a raw value. -/

theorem walk_subset_rest (node : Node) (rest : List Node) : walk rest ⊆ walk (node :: rest) := by
  intro other found
  rw [walk_cons]
  exact .tail _ (List.mem_append_right _ found)

theorem walk_subset_children (node : Node) (rest : List Node) :
    walk node.children ⊆ walk (node :: rest) := by
  intro other found
  rw [walk_cons]
  exact .tail _ (List.mem_append_left _ found)

theorem mem_walk_self (node : Node) (rest : List Node) : node ∈ walk (node :: rest) := by
  rw [walk_cons]
  exact List.mem_cons_self

/-- Where the tree keeps a function token: in a function that starts there, or in a raw value. -/
def KeptIn (offset : Nat) (components : List Component) (nodes : List Node) (lexeme : Lexeme)
    (name : String) : Prop :=
  (∃ arguments stop, .function name arguments (some ⟨lexeme.start, stop⟩) ∈ walk nodes) ∨
    ∃ before value after,
      componentLexemes components = before ++ componentLexemes value ++ after ∧
        lexeme ∈ componentLexemes value ∧
          rawNode (offset + byteLength (lexemeText before)) (componentsText value) ∈ walk nodes

theorem KeptIn.among {other offset : Nat} {inner outer : List Component} {nodes more : List Node}
    {lexeme : Lexeme} {name : String} (kept : KeptIn other inner nodes lexeme name)
    (part : Part other inner offset outer) (below : walk nodes ⊆ walk more) :
    KeptIn offset outer more lexeme name := by
  obtain ⟨before, after, whole, start⟩ := part
  rcases kept with ⟨arguments, stop, found⟩ | ⟨left, value, right, split, member, found⟩
  · exact Or.inl ⟨arguments, stop, below found⟩
  · refine Or.inr ⟨before ++ left, value, right ++ after, by simp [whole, split], member, ?_⟩
    have deep := below found
    rw [start] at deep
    simpa [Nat.add_assoc] using deep

theorem Derives.function_kept {offset : Nat} {components : List Component} {nodes : List Node}
    (derived : Derives offset components nodes)
    (placed : Contiguous offset (componentLexemes components)) {lexeme : Lexeme} {name : String}
    (member : lexeme ∈ componentLexemes components) (called : lexeme.token = .function name) :
    KeptIn offset components nodes lexeme name := by
  have opens : lexeme.token.opens ≠ none := by
    rw [called]
    exact Option.some_ne_none _
  induction derived with
  | nil => simp [componentLexemes] at member
  | @skip offset first components nodes plain following ih =>
    have part : Part _ components offset (.token first :: components) := .token _ _
    rw [componentLexemes, Component.lexemes, List.singleton_append, List.mem_cons] at member
    rcases member with rfl | later
    · exact absurd plain opens
    · exact (ih (part.contiguous placed) later).among part (List.Subset.refl _)
  | @leaf offset first leaf components nodes plain filled read following ih =>
    have part : Part _ components offset (.token first :: components) := .token _ _
    rw [componentLexemes, Component.lexemes, List.singleton_append, List.mem_cons] at member
    rcases member with rfl | later
    · exact absurd plain opens
    · exact (ih (part.contiguous placed) later).among part (walk_subset_rest _ _)
  | @group offset bracket opener closer contents components nodes _ filled closes inside
      following insideIh ih =>
    have below : Part _ contents offset (.group opener contents closer :: components) :=
      .contents _ _ _ _
    have after : Part _ components offset (.group opener contents closer :: components) :=
      .rest _ _
    simp only [componentLexemes, Component.lexemes, List.cons_append, List.append_assoc,
      List.mem_cons, List.mem_append, Option.mem_toList] at member
    rcases member with rfl | inner | ending | later
    · have begins : lexeme.start = offset := placed.1
      refine Or.inl ⟨groupChildren lexeme contents,
        offset + byteLength (Component.group lexeme contents closer).text, ?_⟩
      rw [called, begins]
      exact mem_walk_self _ _
    · refine (insideIh (below.contiguous placed) inner).among below ?_
      have children := walk_subset_children (enclose opener.token (groupChildren opener contents)
        ⟨offset, offset + byteLength (Component.group opener contents closer).text⟩) nodes
      rwa [enclose_children] at children
    · exact absurd (closes lexeme ending) opens
    · exact (ih (after.contiguous placed) later).among after (walk_subset_rest _ _)
  | @raw offset value components nodes following ih =>
    have part : Part _ components offset (value ++ components) := .after _ _
    rw [componentLexemes_append, List.mem_append] at member
    rcases member with here | later
    · exact Or.inr ⟨[], value, componentLexemes components, componentLexemes_append _ _, here,
        mem_walk_self _ _⟩
    · exact (ih (part.contiguous placed) later).among part (walk_subset_rest _ _)
  | @rule offset command title header body components prelude nodes block named filled above below
      following aboveIh belowIh ih =>
    have first : Part _ header offset (.token command :: header ++ body ++ components) :=
      .header _ _ _ _
    have second : Part _ body offset (.token command :: header ++ body ++ components) :=
      .body _ _ _ _
    have third : Part _ components offset (.token command :: header ++ body ++ components) :=
      .following _ _ _ _
    have children := walk_subset_children (.atRule title prelude block (some ⟨offset,
      offset + byteLength (command.text ++ componentsText (header ++ body))⟩)) nodes
    rw [Node.children, walk_append] at children
    simp only [List.cons_append, componentLexemes, componentLexemes_append, Component.lexemes,
      List.mem_cons, List.mem_append, List.not_mem_nil, false_or] at member
    rcases member with rfl | (upper | lower) | later
    · rw [named] at called
      contradiction
    · exact (aboveIh (first.contiguous placed) upper).among first
        (List.Subset.trans (List.subset_append_left _ _) children)
    · exact (belowIh (second.contiguous placed) lower).among second
        (List.Subset.trans (List.subset_append_right _ _) children)
    · exact (ih (third.contiguous placed) later).among third (walk_subset_rest _ _)

/-! Functions and raw values stand apart. -/

def rawValues (nodes : List Node) : List (String × Span) :=
  (walk nodes).filterMap fun node =>
    match node with
    | .leaf (.raw text) (some span) => some (text, span)
    | _ => none

theorem mem_rawValues {nodes : List Node} {text : String} {span : Span} :
    (text, span) ∈ rawValues nodes ↔ .leaf (.raw text) (some span) ∈ walk nodes := by
  rw [rawValues, List.mem_filterMap]
  constructor
  · rintro ⟨node, member, found⟩
    split at found
    · cases found
      exact member
    · contradiction
  · intro member
    exact ⟨_, member, rfl⟩

def places : Node → List Span
  | .function _ _ (some span) => [span]
  | .leaf (.raw _) (some span) => span.steps
  | _ => []

theorem places_sound : Contribution places := by
  refine ⟨fun node span placed cooked => ?_, fun first text => ?_⟩
  · cases node with
    | leaf leaf place =>
      cases leaf with
      | raw text => exact absurd rfl (cooked text place)
      | _ => exact Or.inl rfl
    | function name arguments place =>
      cases placed
      exact Or.inr rfl
    | block => exact Or.inl rfl
    | atRule => exact Or.inl rfl
  · obtain ⟨trailing, whole, _⟩ := trim_split text
    have length := congrArg byteLength whole
    rw [byteLength_append, byteLength_append] at length
    exact (SpanOrder.steps ⟨first + byteLength (leadingBlanks text),
      first + byteLength (leadingBlanks text) + byteLength (trim text)⟩
      (Nat.le_add_right _ _)).mono (Nat.le_add_right _ _) (by dsimp only; omega)

/-- Two nodes of a tree never take up the same place. -/
theorem places_apart {mode : Mode} {text : List Char} {one other : Node}
    (first : one ∈ walk (parse mode text)) (second : other ∈ walk (parse mode text))
    {left right : Span} (here : left ∈ places one) (there : right ∈ places other)
    (same : left.start = right.start) : one = other := by
  have order := ((parse_derives mode text).spanOrder places_sound).ordered
  rw [List.pairwise_flatMap] at order
  have apart : (walk (parse mode text)).Pairwise fun one other =>
      ∀ left ∈ places one, ∀ right ∈ places other, left.start ≠ right.start :=
    order.2.imp fun precedes left here right there =>
      Nat.ne_of_lt (precedes left here right there).1
  have symmetric : Std.Symm fun one other =>
      ∀ left ∈ places one, ∀ right ∈ places other, left.start ≠ right.start :=
    ⟨fun one other differ left here right there => (differ right there left here).symm⟩
  by_contra distinct
  exact apart.forall first second distinct left here right there same

theorem function_outside_raw {mode : Mode} {text : List Char} {name value : String}
    {arguments : List Node} {span place : Span}
    (one : .function name arguments (some span) ∈ walk (parse mode text))
    (other : (value, place) ∈ rawValues (parse mode text)) : place.holds span.start = false := by
  cases held : place.holds span.start with
  | false => rfl
  | true =>
    have same := places_apart one (mem_rawValues.1 other) (List.mem_singleton.2 rfl)
      (Span.mem_steps held) rfl
    contradiction

theorem raw_unique {mode : Mode} {text : List Char} {offset : Nat} {one other : String × Span}
    (first : one ∈ rawValues (parse mode text)) (second : other ∈ rawValues (parse mode text))
    (here : one.2.holds offset = true) (there : other.2.holds offset = true) : one = other := by
  have same := places_apart (mem_rawValues.1 first) (mem_rawValues.1 second)
    (Span.mem_steps here) (Span.mem_steps there) rfl
  simp only [Node.leaf.injEq, Leaf.raw.injEq, Option.some.injEq] at same
  exact Prod.ext same.1 same.2

end DesignTokens.Css
