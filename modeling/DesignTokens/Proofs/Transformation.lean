import DesignTokens.Proofs.Compilation
import DesignTokens.Proofs.Css.AtRules
import DesignTokens.Proofs.Emission
import DesignTokens.Session

/-!
What a session makes of one style sheet. Errors come from the search for calls alone. Without one
the code is the text with its calls replaced, and under at-rule injection its first mark, if it has
any, gives way to the style sheet of all tokens.
-/

namespace DesignTokens

open DesignTokens.Css DesignTokens.Text

/-- The spans of the at-rules that mark where the tokens go, in the order of the tree. -/
def markSpans (text : String) : List Span :=
  ruleSpans (fun name => sameIgnoringCase name "snowcss") text.toList

theorem location_injectionMark? (source : List Char) (node : Node) :
    ((injectionMark? source node).bind Except.toOption).map InjectionMark.location =
      ruleSpan? (fun name => sameIgnoringCase name "snowcss") node := by
  cases node with
  | atRule name prelude block span =>
    simp only [injectionMark?, ruleSpan?]
    split
    · cases span <;> rfl
    · rfl
  | _ => rfl

theorem locations_injectionMarks (text : String) :
    (injectionMarks text).1.map InjectionMark.location = markSpans text := by
  simp only [injectionMarks, injectionMarksWith, parseStylesheet, Positions.keep, markSpans,
    ruleSpans, List.filterMap_filterMap, List.map_filterMap, location_injectionMark?]

theorem injectionMarks_complete (text : String) : (injectionMarks text).2 = [] := by
  refine List.filterMap_eq_nil_iff.2 fun mark member => ?_
  obtain ⟨node, found, read⟩ := List.mem_filterMap.1 member
  cases mark with
  | ok => rfl
  | error name =>
    cases node with
    | atRule called prelude block span =>
      obtain ⟨place, _, rfl, _⟩ := atRule_slice found
      rw [injectionMark?] at read
      split at read <;> simp at read
    | _ => contradiction

theorem resolve_warns (config : Config) (calls : List Call) :
    hasErrors (resolve config calls).2 = false := by
  refine List.any_eq_false.2 fun diagnostic member => ?_
  obtain ⟨result, _, read⟩ := List.mem_filterMap.1 member
  obtain ⟨problem, _, rfl⟩ := Option.map_eq_some_iff.1 read
  simp [ResolutionProblem.diagnostic, Diagnostic.isError]

theorem resolveAll_quiet (config : Config) : (resolveAll config).2 = [] := by
  refine List.filterMap_eq_nil_iff.2 fun result member => ?_
  obtain ⟨token, _, rfl⟩ := List.mem_map.1 member
  rfl

theorem config_remember (session : Session) (tokens : List ResolvedToken) :
    (tokens.foldl Session.remember session).config = session.config := by
  induction tokens generalizing session with
  | nil => rfl
  | cons token rest ih =>
    rw [List.foldl_cons, ih, Session.remember]
    cases token.name <;> rfl

def rewritten (config : Config) (text : String) : String :=
  replaceCalls text (resolvedCalls config text)

def findings (config : Config) (text : String) : List Diagnostic :=
  (extract text).2 ++ (resolve config (extract text).1).2

theorem hasErrors_findings (config : Config) (text : String) :
    hasErrors (findings config text) = hasErrors (extract text).2 := by
  have quiet := resolve_warns config (extract text).1
  rw [hasErrors] at quiet
  rw [findings, hasErrors, List.any_append, quiet, Bool.or_false, hasErrors]

theorem transform_eq (session : Session) (text : String) :
    (session.transform text).2 =
      if hasErrors (extract text).2 then (none, findings session.config text)
      else
        match session.config.injection with
        | .atRule =>
          (some (session.injectAtMark (rewritten session.config text)).1,
            findings session.config text ++
              (session.injectAtMark (rewritten session.config text)).2)
        | _ => (some (rewritten session.config text), findings session.config text) := by
  have collected : session.collect text = ((session.collect text).1,
      resolvedCalls session.config text, findings session.config text) := rfl
  have same : (session.collect text).1.config = session.config := config_remember session _
  have injected (output : String) :
      (session.collect text).1.injectAtMark output = session.injectAtMark output := by
    unfold Session.injectAtMark Session.emitAll
    rw [same]
  unfold Session.transform
  rw [collected]
  dsimp only
  rw [hasErrors_findings, same, injected]
  split
  · rfl
  · cases session.config.injection <;> rfl

theorem injectAtMark_unmarked {session : Session} {text : String} (unmarked : markSpans text = []) :
    session.injectAtMark text = (text, []) := by
  have none : (injectionMarks text).1 = [] := by
    rw [← locations_injectionMarks] at unmarked
    exact List.map_eq_nil_iff.1 unmarked
  simp only [Session.injectAtMark, none, injectionMarks_complete]

def tokenSheet (config : Config) : String :=
  (sheet .pretty (config.tokens.map Token.property)).getD ""

/-- The first mark gives way to the declarations of all tokens, and further marks are reported. -/
theorem injectAtMark_marked {session : Session} {text : String} {first : Span}
    {others : List Span} (marked : markSpans text = first :: others) :
    session.injectAtMark text =
      (replaceSpan text first (tokenSheet session.config),
        if others.isEmpty then [] else [Session.severalMarks (others.length + 1)]) := by
  rw [← locations_injectionMarks] at marked
  obtain ⟨mark, rest, found, rfl, rfl⟩ := List.map_eq_cons_iff.1 marked
  simp only [Session.injectAtMark, Session.emitAll, found, injectionMarks_complete,
    resolveAll_quiet, emit_eq_sheet, properties_resolveAll, tokenSheet, List.nil_append,
    List.append_nil, List.length_cons, List.length_map, List.isEmpty_map]

theorem replaceSpan_fits {text : String} {span : Span} {inside : List Char}
    (cut : slice text.toList span = some inside) (replacement : String) :
    ∃ before after, text.toList = before ++ inside ++ after ∧
      span = ⟨byteLength before, byteLength before + byteLength inside⟩ ∧
      replaceSpan text span replacement =
        String.ofList (before ++ replacement.toList ++ after) := by
  obtain ⟨before, after, whole, place⟩ := slice_eq_some_iff.1 cut
  have parts := cutSpan_eq_some_iff.2 ⟨whole, place⟩
  refine ⟨before, after, whole, place, ?_⟩
  rw [replaceSpan, exchange, parts]
  rfl

/-- What a session makes of a style sheet: nothing if there is an error in a call, otherwise the text
with its outermost calls exchanged, and under at-rule injection with the declarations of all tokens
in place of its first mark. -/
structure TransformsTo (session : Session) (text : String) : Prop where
  failed : (session.transform text).2.1 = none ↔ hasErrors (extract text).2 = true
  exchanged : Exchanged 0 text.toList
    ((outermost (resolvedCalls session.config text)).map ResolvedToken.edit)
    (rewritten session.config text).toList
  replaced : hasErrors (extract text).2 = false →
    session.config.injection ≠ .atRule ∨ markSpans (rewritten session.config text) = [] →
    (session.transform text).2.1 = some (rewritten session.config text)
  injected : hasErrors (extract text).2 = false → session.config.injection = .atRule →
    ∀ first others, markSpans (rewritten session.config text) = first :: others →
      (∀ other ∈ others, first.start < other.start) ∧
      ∃ before inside after,
        (rewritten session.config text).toList = before ++ inside ++ after ∧
        first = ⟨byteLength before, byteLength before + byteLength inside⟩ ∧
        (session.transform text).2.1 =
          some (String.ofList (before ++ (tokenSheet session.config).toList ++ after))
  reported : (session.transform text).2.2 = findings session.config text ++
    if hasErrors (extract text).2 = false ∧ session.config.injection = .atRule ∧
        1 < (markSpans (rewritten session.config text)).length then
      [Session.severalMarks (markSpans (rewritten session.config text)).length]
    else []

theorem rewritten_exchanged (config : Config) (text : String) :
    Exchanged 0 text.toList ((outermost (resolvedCalls config text)).map ResolvedToken.edit)
      (rewritten config text).toList :=
  compile_exchanged config text

theorem transformsTo_failed {session : Session} {text : String}
    (failing : hasErrors (extract text).2 = true) : TransformsTo session text := by
  have whole := transform_eq session text
  rw [failing, if_pos rfl] at whole
  refine ⟨by rw [whole, failing]; simp, rewritten_exchanged session.config text, by simp [failing],
    by simp [failing], ?_⟩
  rw [whole, failing]
  simp

theorem transformsTo_replaced {session : Session} {text : String}
    (clean : hasErrors (extract text).2 = false)
    (unfilled : session.config.injection ≠ .atRule ∨
      markSpans (rewritten session.config text) = []) : TransformsTo session text := by
  have whole : (session.transform text).2 =
      (some (rewritten session.config text), findings session.config text) := by
    rw [transform_eq, clean, if_neg Bool.false_ne_true]
    cases kind : session.config.injection with
    | atRule =>
      have unmarked := unfilled.resolve_left (not_not_intro kind)
      simp [injectAtMark_unmarked unmarked]
    | asset => rfl
    | inlined => rfl
  refine ⟨by simp [whole, clean], rewritten_exchanged session.config text,
    fun _ _ => by rw [whole], fun _ kind first others marked => ?_, ?_⟩
  · have unmarked := unfilled.resolve_left (not_not_intro kind)
    rw [unmarked] at marked
    contradiction
  · have silent : ¬ (hasErrors (extract text).2 = false ∧ session.config.injection = .atRule ∧
        1 < (markSpans (rewritten session.config text)).length) := by
      rintro ⟨_, kind, several⟩
      rw [unfilled.resolve_left (not_not_intro kind)] at several
      contradiction
    rw [whole, if_neg silent, List.append_nil]

theorem transformsTo_injected {session : Session} {text : String}
    (clean : hasErrors (extract text).2 = false) (kind : session.config.injection = .atRule)
    {first : Span} {others : List Span}
    (marked : markSpans (rewritten session.config text) = first :: others) :
    TransformsTo session text := by
  have rising := ruleSpans_rising (fun name => sameIgnoringCase name "snowcss")
    (rewritten session.config text).toList
  rw [← markSpans, marked, List.pairwise_cons] at rising
  have member : first ∈ markSpans (rewritten session.config text) := by
    rw [marked]
    exact List.mem_cons_self
  obtain ⟨inside, cut⟩ := ruleSpans_fit member
  obtain ⟨before, after, parts, place, spliced⟩ := replaceSpan_fits cut
    (tokenSheet session.config)
  have whole := transform_eq session text
  rw [clean, if_neg Bool.false_ne_true, kind] at whole
  dsimp only at whole
  rw [injectAtMark_marked marked, spliced] at whole
  refine ⟨by simp [whole, clean], rewritten_exchanged session.config text, fun _ unfilled => ?_,
    fun _ _ one rest same => ?_, ?_⟩
  · rw [unfilled.resolve_left (not_not_intro kind)] at marked
    contradiction
  · obtain ⟨rfl, rfl⟩ := List.cons.inj (marked.symm.trans same)
    exact ⟨rising.1, before, inside, after, parts, place, by rw [whole]⟩
  · rw [whole, marked]
    cases others with
    | nil => simp
    | cons second rest => simp [clean, kind]

/-- Any style sheet is either refused for an error in a call, or compiled with every call replaced
and, under at-rule injection, with the tokens in place of its first mark. -/
theorem transform_replaces_first_mark (session : Session) (text : String) :
    TransformsTo session text := by
  cases failing : hasErrors (extract text).2 with
  | true => exact transformsTo_failed failing
  | false =>
    by_cases kind : session.config.injection = .atRule
    · cases marked : markSpans (rewritten session.config text) with
      | nil => exact transformsTo_replaced failing (Or.inr marked)
      | cons first others => exact transformsTo_injected failing kind marked
    · exact transformsTo_replaced failing (Or.inl kind)

def markedConfig : Config :=
  ⟨{ Settings.ofTokens .empty with injection := .atRule }, none, none,
    ⟨[("x", ⟨⟨["x"]⟩, "1px"⟩)]⟩⟩

def markedText : String :=
  "@snowcss;\na \x7b b: --token(\"x\") \x7d\n@snowcss;\n"

theorem marked_text_transformed :
    TransformsTo (.start markedConfig) markedText ∧
      ((Session.start markedConfig).transform markedText).2 =
        (some ":root \x7b\n  --x: 1px;\n\x7d\na \x7b b: var(--x) \x7d\n@snowcss;\n",
          [Session.severalMarks 2]) :=
  ⟨transform_replaces_first_mark (.start markedConfig) markedText, by decide +kernel⟩

end DesignTokens
