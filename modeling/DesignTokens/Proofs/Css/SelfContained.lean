import DesignTokens.Proofs.Css.Joining
import DesignTokens.Proofs.Css.Unfinished
import DesignTokens.Proofs.Css.Unplaced

/-!
Values that can stand in any declaration. A text that divides no statement, closes no bracket of the
text around it and leaves nothing open is read between a colon and a semicolon as it is read alone.
-/

namespace DesignTokens.Css

open DesignTokens.Text

def Component.isClosed : Component → Bool
  | .group _ _ none => false
  | _ => true

/-- A text that holds no semicolon outside brackets, closes only what it opens, and leaves no
bracket and no token open at its end. -/
structure SelfContained (text : List Char) : Prop where
  undivided : ∀ component ∈ components text, component.head ≠ .semicolon
  matched : ∀ component ∈ components text, component.head.closes = none
  closed : ∀ last ∈ (components text).getLast?, last.isClosed = true
  finished : ∀ last ∈ (lexemes text).getLast?, last.leftOpen = false

instance : DecidablePred SelfContained := fun text =>
  decidable_of_iff
    ((∀ component ∈ components text, component.head ≠ .semicolon) ∧
      (∀ component ∈ components text, component.head.closes = none) ∧
      (∀ last ∈ (components text).getLast?, last.isClosed = true) ∧
      ∀ last ∈ (lexemes text).getLast?, last.leftOpen = false)
    ⟨fun ⟨undivided, matched, closed, finished⟩ => ⟨undivided, matched, closed, finished⟩,
      fun whole => ⟨whole.undivided, whole.matched, whole.closed, whole.finished⟩⟩

theorem Sealed.anywhere {around : Option Bracket} {component : Component}
    (whole : Sealed around component) (matched : component.head.closes = none)
    (other : Option Bracket) : Sealed other component := by
  cases whole with
  | token plain kept =>
    refine .token plain fun bracket _ closes => ?_
    exact Option.some_ne_none bracket (closes.symm.trans matched)
  | group opens inside closes => exact .group opens inside closes

theorem Sealed.shift {around : Option Bracket} {component : Component}
    (whole : Sealed around component) (offset : Nat) : Sealed around (component.shift offset) := by
  induction whole with
  | token plain kept => exact .token plain kept
  | group opens inside closes ih =>
    rw [Component.shift, shiftComponents_eq]
    refine .group opens (fun component member => ?_) closes
    obtain ⟨original, found, rfl⟩ := List.mem_map.1 member
    exact ih original found

theorem Component.isClosed_shift (component : Component) (offset : Nat) :
    (component.shift offset).isClosed = component.isClosed := by
  cases component with
  | token lexeme => rfl
  | group opener contents closer => cases closer <;> rfl

theorem SelfContained.sealed {text : List Char} (whole : SelfContained text)
    (around : Option Bracket) : ∀ component ∈ components text, Sealed around component := by
  intro component member
  refine (Nested.all_sealed (nested_nest (lexemes text)) ?_ component member).anywhere
    (whole.matched component member) around
  intro opener contents last
  have ending := whole.closed _ last
  contradiction

/-! White space in front of a text is one token, and what comes after it stays the same. -/

section Space

variable {c : Char} (space : isSpace c = true) (rest : List Char)
include space

theorem lexemes_space : ∃ lexeme offset, lexeme.token = .space ∧
    lexemes (c :: rest) = lexeme ::
      (lexemes (rest.dropWhile isSpace)).map fun lexeme => lexeme.shift offset := by
  have read : scan c rest = (.space, rest.dropWhile isSpace) := by rw [scan, if_pos space]
  refine ⟨firstLexeme 0 c rest, (firstLexeme 0 c rest).stop, by rw [firstLexeme, read], ?_⟩
  rw [lexemes, lexemesFrom_cons, read, lexemes, ← lexemesFrom_shift, Nat.zero_add]

theorem components_space : ∃ lexeme offset, lexeme.token = .space ∧
    components (c :: rest) = .token lexeme ::
      (components (rest.dropWhile isSpace)).map fun component => component.shift offset := by
  obtain ⟨lexeme, offset, blank, whole⟩ := lexemes_space space rest
  have free : ∀ component ∈ [Component.token lexeme], Sealed none component := by
    intro component member
    rw [List.mem_singleton.1 member]
    exact .token (by rw [blank]; rfl) (by simp)
  refine ⟨lexeme, offset, blank, ?_⟩
  have split := nest_append free
    ((lexemes (rest.dropWhile isSpace)).map fun lexeme => lexeme.shift offset)
  rw [components, whole, components, ← nest_shift]
  exact split

theorem selfContained_space :
    SelfContained (c :: rest) ↔ SelfContained (rest.dropWhile isSpace) := by
  obtain ⟨first, offset, blank, tokens⟩ := lexemes_space space rest
  obtain ⟨start, place, empty, whole⟩ := components_space space rest
  have heads (p : Token → Prop) (free : p .space) :
      (∀ component ∈ components (c :: rest), p component.head) ↔
        ∀ component ∈ components (rest.dropWhile isSpace), p component.head := by
    rw [whole, List.forall_mem_cons, List.forall_mem_map]
    simp only [Component.head_shift]
    exact and_iff_right (by rw [Component.head, empty]; exact free)
  have ends : (∀ last ∈ (components (c :: rest)).getLast?, last.isClosed = true) ↔
      ∀ last ∈ (components (rest.dropWhile isSpace)).getLast?, last.isClosed = true := by
    rw [whole, List.getLast?_cons, List.getLast?_map]
    have inert : (Component.token start).isClosed = true := rfl
    cases (components (rest.dropWhile isSpace)).getLast? <;> simp [inert, Component.isClosed_shift]
  have stops : (∀ last ∈ (lexemes (c :: rest)).getLast?, last.leftOpen = false) ↔
      ∀ last ∈ (lexemes (rest.dropWhile isSpace)).getLast?, last.leftOpen = false := by
    have inert : first.leftOpen = false := by rw [Lexeme.leftOpen, blank]
    have moved (lexeme : Lexeme) : (lexeme.shift offset).leftOpen = lexeme.leftOpen := rfl
    rw [tokens, List.getLast?_cons, List.getLast?_map]
    cases (lexemes (rest.dropWhile isSpace)).getLast? <;> simp [inert, moved]
  have undivided := heads (· ≠ .semicolon) Token.noConfusion
  have matched := heads (·.closes = none) rfl
  exact ⟨fun found => ⟨undivided.1 found.undivided, matched.1 found.matched, ends.1 found.closed,
      stops.1 found.finished⟩,
    fun found => ⟨undivided.2 found.undivided, matched.2 found.matched, ends.2 found.closed,
      stops.2 found.finished⟩⟩

end Space

theorem SelfContained.space {text : List Char} (whole : SelfContained text) :
    SelfContained (' ' :: text) := by
  refine (selfContained_space rfl text).2 ?_
  cases text with
  | nil => exact whole
  | cons c rest =>
    by_cases blank : isSpace c = true
    · rw [List.dropWhile_cons, if_pos blank]
      exact (selfContained_space blank rest).1 whole
    · rwa [List.dropWhile_cons, if_neg blank]

theorem componentLexemes_shifted (start : Nat) (text : List Char) :
    componentLexemes ((components text).map fun component => component.shift start) =
      lexemesFrom start text := by
  rw [← shiftComponents_eq, componentLexemes_shift, componentLexemes_components, lexemes,
    ← lexemesFrom_shift, Nat.zero_add]

/-- Before a semicolon a self-contained text has its own lexemes. -/
theorem SelfContained.lexemes_before {text : List Char} (whole : SelfContained text) (start : Nat)
    (after : List Char) :
    lexemesFrom start (text ++ ';' :: after) =
      lexemesFrom start text ++ lexemesFrom (start + byteLength text) (';' :: after) := by
  refine lexemesFrom_finished rfl (by decide) start text after fun last found => ?_
  rw [← Nat.zero_add start, lexemesFrom_shift, List.getLast?_map] at found
  obtain ⟨original, member, rfl⟩ := Option.map_eq_some_iff.1 found
  exact whole.finished original member

theorem lexemesFrom_blank {blank : List Char} (spaces : ∀ c ∈ blank, isSpace c = true) {c : Char}
    (solid : isSpace c = false) (start : Nat) (rest : List Char) :
    ∃ run : List Lexeme, (∀ lexeme ∈ run, lexeme.token = .space) ∧
      lexemesFrom start (blank ++ c :: rest) =
        run ++ lexemesFrom (start + byteLength blank) (c :: rest) := by
  cases blank with
  | nil => exact ⟨[], by simp, rfl⟩
  | cons d tail =>
    have read : scan d (tail ++ c :: rest) = (.space, c :: rest) := by
      rw [scan, if_pos (spaces d List.mem_cons_self), dropWhile_guard solid,
        List.dropWhile_eq_nil_iff.2 fun e member => spaces e (List.mem_cons_of_mem _ member)]
      rfl
    have taken : firstLexeme start d (tail ++ c :: rest) = ⟨.space, d :: tail, start⟩ := by
      rw [firstLexeme, read, ← List.cons_append, consumed_of_append]
    refine ⟨[⟨.space, d :: tail, start⟩], by simp, ?_⟩
    rw [List.cons_append, lexemesFrom_cons, taken, read]
    rfl

theorem withoutSpans_append (left right : List Node) :
    withoutSpans (left ++ right) = withoutSpans left ++ withoutSpans right := by
  simp only [withoutSpans_eq, List.map_append]

theorem advance_parts (mode : Mode) (place : Place) (left right : List Reading) :
    advance mode place (left ++ right) =
      ((advance mode place left).1 ++ (advance mode (advance mode place left).2 right).1,
        (advance mode (advance mode place left).2 right).2) := by
  induction left generalizing place with
  | nil => rfl
  | cons reading rest ih => simp [advance, ih]

/-- A text that is read as the given nodes inside a block whatever follows it, and that leaves the
machine at the start of a declaration again. -/
def Statements (text : List Char) (nodes : List Node) : Prop :=
  ∀ start following, ∃ run : List Component,
    lexemesFrom start (text ++ following) =
      componentLexemes run ++ lexemesFrom (start + byteLength text) following ∧
    (∀ component ∈ run, Sealed (some .curly) component) ∧
    withoutSpans (advance .statements .start (readings run)).1 = nodes ∧
    (advance .statements .start (readings run)).2 = .start

theorem Statements.nil : Statements [] [] :=
  fun _ _ => ⟨[], by simp [componentLexemes], by simp, rfl, rfl⟩

theorem Statements.append {left right : List Char} {first second : List Node}
    (before : Statements left first) (after : Statements right second) :
    Statements (left ++ right) (first ++ second) := by
  intro start following
  obtain ⟨run, lexed, closed, nodes, place⟩ := before start (right ++ following)
  obtain ⟨further, rest, sealed, others, final⟩ := after (start + byteLength left) following
  refine ⟨run ++ further, ?_, ?_, ?_, ?_⟩
  · rw [List.append_assoc, lexed, rest, componentLexemes_append, List.append_assoc,
      byteLength_append, Nat.add_assoc]
  · exact fun component member =>
      (List.mem_append.1 member).elim (closed component) (sealed component)
  · rw [readings_append, advance_parts, place, withoutSpans_append, nodes, others]
  · rw [readings_append, advance_parts, place, final]

theorem Statements.flatMap {α : Type} {text : α → List Char} {nodes : α → List Node}
    {list : List α} (each : ∀ item ∈ list, Statements (text item) (nodes item)) :
    Statements (list.flatMap text) (list.flatMap nodes) := by
  induction list with
  | nil => exact .nil
  | cons item rest ih =>
    exact (each item List.mem_cons_self).append
      (ih fun other member => each other (List.mem_cons_of_mem _ member))

/-- Components without a semicolon go on with the value of a custom property. -/
theorem advance_value (mode : Mode) {components : List Component}
    (undivided : ∀ component ∈ components, component.head ≠ .semicolon) (first : Nat)
    (text : List Char) :
    advance mode (.value first text) (readings components) =
      ([], .value first (text ++ componentsText components)) := by
  induction components generalizing text with
  | nil => simp [readings, advance]
  | cons component rest ih =>
    have here : step mode (.value first text) ⟨component, component.node⟩ =
        ([], .value first (text ++ component.text)) := by
      simp [step, undivided component List.mem_cons_self]
    have later := ih fun other member => undivided other (List.mem_cons_of_mem _ member)
    rw [readings, advance, here, later]
    simp

end DesignTokens.Css
