import DesignTokens.Proofs.Css.RawValues

/-!
Where the at-rules of a tree stand. An at-rule reaches over a run of lexemes from its name to its
block, its semicolon or the end of what holds it, so its span always cuts a part out of the text.
-/

namespace DesignTokens.Css

open DesignTokens.Text

def OverRun (offset : Nat) (span : Option Span) (components : List Component) : Prop :=
  ∃ before run after, componentLexemes components = before ++ run ++ after ∧
    span = some ⟨offset + byteLength (lexemeText before),
      offset + byteLength (lexemeText before) + byteLength (lexemeText run)⟩

theorem OverRun.among {other offset : Nat} {span : Option Span} {inner outer : List Component}
    (known : OverRun other span inner) (part : Part other inner offset outer) :
    OverRun offset span outer := by
  obtain ⟨left, run, right, split, same⟩ := known
  obtain ⟨before, after, whole, start⟩ := part
  refine ⟨before ++ left, run, right ++ after, by simp [whole, split], ?_⟩
  rw [same, start]
  simp [Nat.add_assoc]

theorem enclose_ne_atRule (opener : Token) (children : List Node) (span : Span) (name : String)
    (prelude : List Node) (block : Option Node) (place : Option Span) :
    enclose opener children span ≠ .atRule name prelude block place := by
  unfold enclose
  split <;> simp

theorem Derives.rule_run {offset : Nat} {components : List Component} {nodes : List Node}
    (derived : Derives offset components nodes) {name : String} {prelude : List Node}
    {block : Option Node} {span : Option Span}
    (found : .atRule name prelude block span ∈ walk nodes) : OverRun offset span components := by
  induction derived with
  | nil => simp at found
  | skip plain following ih => exact (ih found).among (.token _ _)
  | leaf plain filled read following ih =>
    simp only [walk_cons, Node.children, walk_nil, List.nil_append, List.mem_cons] at found
    rcases found with self | later
    · contradiction
    · exact (ih later).among (.token _ _)
  | @group offset bracket opener closer contents components nodes opens filled closes inside
      following insideIh ih =>
    simp only [walk_cons, enclose_children, List.mem_cons, List.mem_append] at found
    rcases found with self | below | later
    · exact absurd self.symm (enclose_ne_atRule _ _ _ _ _ _ _)
    · exact (insideIh below).among (.contents opener contents closer components)
    · exact (ih later).among (.rest _ _)
  | @raw offset value components nodes following ih =>
    simp only [walk_cons, List.mem_cons, List.mem_append] at found
    rcases found with self | below | later
    · contradiction
    · simp [rawNode, Node.children] at below
    · exact (ih later).among (.after value components)
  | @rule offset command called header body components above nodes below named filled upper lower
      following aboveIh belowIh ih =>
    simp only [walk_cons, Node.children, walk_append, List.mem_cons, List.mem_append] at found
    rcases found with self | (inner | inner) | later
    · refine ⟨[], command :: componentLexemes (header ++ body), componentLexemes components, ?_, ?_⟩
      · simp [componentLexemes_append, componentLexemes, Component.lexemes]
      · rw [(Node.atRule.inj self).2.2.2]
        simp [componentsText, componentLexemes_append]
    · exact (aboveIh inner).among (.header command header body components)
    · exact (belowIh inner).among (.body command header body components)
    · exact (ih later).among (.following command header body components)

theorem atRule_slice {mode : Mode} {text : List Char} {name : String} {prelude : List Node}
    {block : Option Node} {span : Option Span}
    (found : .atRule name prelude block span ∈ walk (parse mode text)) :
    ∃ place inside, span = some place ∧ slice text place = some inside := by
  obtain ⟨before, run, after, whole, same⟩ := (parse_derives mode text).rule_run found
  have covered := componentsText_components text
  rw [componentsText, whole, lexemeText_append, lexemeText_append] at covered
  rw [Nat.zero_add] at same
  exact ⟨_, lexemeText run, same, slice_eq_some_iff.2 ⟨lexemeText before, lexemeText after,
    covered.symm, rfl⟩⟩

def ruleSpan? (called : String → Bool) : Node → Option Span
  | .atRule name _ _ span => if called name then span else none
  | _ => none

theorem ruleSpan_sound (called : String → Bool) :
    Contribution fun node => (ruleSpan? called node).toList := by
  refine ⟨fun node span placed cooked => ?_, fun first text => .nil⟩
  cases node with
  | atRule name prelude block place =>
    cases placed
    by_cases known : called name = true
    · exact Or.inr (by simp [ruleSpan?, known])
    · exact Or.inl (by simp [ruleSpan?, known])
  | _ => exact Or.inl rfl

def ruleSpans (called : String → Bool) (text : List Char) : List Span :=
  (walk (parse .statements text)).filterMap (ruleSpan? called)

/-- Each at-rule starts after those before it in the tree, and it fits the text. -/
theorem ruleSpans_rising (called : String → Bool) (text : List Char) :
    (ruleSpans called text).Pairwise fun earlier later => earlier.start < later.start := by
  have order := ((parse_derives .statements text).spanOrder (ruleSpan_sound called)).ordered
  rw [ruleSpans, List.filterMap_eq_flatMap_toList]
  exact order.imp fun precedes => precedes.1

theorem ruleSpans_fit {called : String → Bool} {text : List Char} {span : Span}
    (member : span ∈ ruleSpans called text) : ∃ inside, slice text span = some inside := by
  obtain ⟨node, found, read⟩ := List.mem_filterMap.1 member
  cases node with
  | atRule name prelude block place =>
    obtain ⟨kept, inside, same, cut⟩ := atRule_slice found
    subst same
    rw [ruleSpan?] at read
    split at read
    · cases read
      exact ⟨inside, cut⟩
    · contradiction
  | _ => contradiction

end DesignTokens.Css
