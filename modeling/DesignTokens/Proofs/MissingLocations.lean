import DesignTokens.Proofs.CallGrammar
import DesignTokens.Proofs.CallText
import DesignTokens.Proofs.Css.Unplaced
import Mathlib.Data.List.Forall2

/-!
The search for calls where no locations are known. The tree is the same without its spans, the same
values are read a second time, and every reserved call that the search comes upon is dropped with one
error. So there are as many errors as a search with locations keeps calls and drops calls together.
-/

namespace DesignTokens

open DesignTokens.Css DesignTokens.Text

def Report.unplaced (report : Report) : CallReading :=
  .dropped (.missingLocation report.name.text)

theorem reservedCall?_withoutSpans {nodes : List Node} (located : Located nodes) {node : Node}
    (member : node ∈ walk nodes) (base : Option Nat) :
    reservedCall? base node.withoutSpans = (report? node).map Report.unplaced := by
  cases node with
  | function name arguments span =>
    obtain ⟨place, rfl⟩ := located name arguments span member
    rw [Node.withoutSpans, reservedCall?, report?, Option.map_map]
    cases found : ReservedName.ofText? name with
    | none => rfl
    | some reserved =>
      rw [ReservedName.eq_text_of_ofText? found]
      rfl
  | leaf => rfl
  | block => rfl
  | atRule => rfl

theorem valueReports_unplaced (text : String) :
    (walk (parseValue .omitted text)).filterMap (reservedCall? none) =
      (valueReports text).map Report.unplaced := by
  rw [parseValue, walk_keep_omitted, List.filterMap_map, valueReports, List.map_filterMap]
  refine List.filterMap_congr fun node member => ?_
  exact reservedCall?_withoutSpans (located_parse .values text.toList) member none

theorem reservedCalls_withoutSpans {text : List Char} {node : Node}
    (member : node ∈ walk (parse .statements text)) :
    reservedCalls .omitted node.withoutSpans = (nodeReports node).map Report.unplaced := by
  have direct : (reservedCall? (some 0) node.withoutSpans).toList =
      (report? node).toList.map Report.unplaced := by
    rw [reservedCall?_withoutSpans (located_parse .statements text) member]
    cases report? node <;> rfl
  cases node with
  | leaf leaf span =>
    cases leaf with
    | raw value =>
      obtain ⟨place, rfl, _⟩ := raw_slice member
      simp only [Node.withoutSpans, reservedCalls, nodeReports, Option.map_none,
        valueReports_unplaced]
      split
      · rw [List.map_map]
        rfl
      · rfl
    | _ => exact direct
  | function => exact direct
  | block => exact direct
  | atRule => exact direct

theorem readCalls_omitted (text : String) :
    readCalls .omitted text = (reports text).map Report.unplaced := by
  rw [readCalls, parseStylesheet, walk_keep_omitted, List.flatMap_map, reports, List.map_flatMap]
  exact List.flatMap_congr fun node member => reservedCalls_withoutSpans member

theorem callsOf_unplaced (list : List Report) : callsOf (list.map Report.unplaced) = [] := by
  induction list with
  | nil => rfl
  | cons report rest ih => exact ih

theorem diagnosticsOf_unplaced (list : List Report) :
    diagnosticsOf (list.map Report.unplaced) =
      list.map fun report => (CallProblem.missingLocation report.name.text).diagnostic := by
  induction list with
  | nil => rfl
  | cons report rest ih => exact congrArg (_ :: ·) ih

def dropErrors : List Diagnostic :=
  dropProblems.map CallProblem.diagnostic

def CallReading.isDropped : CallReading → Bool
  | .kept _ _ => false
  | .dropped _ => true

theorem unknownUnit_not_dropErrors (unit : String) :
    (CallProblem.unknownUnit unit).diagnostic ∉ dropErrors := by
  intro member
  -- None of the other messages starts with the same letter.
  have start : "unexpected unit '".toList.head? = some 'u' := by decide +kernel
  have first : (CallProblem.unknownUnit unit).diagnostic.message.toList.head? = some 'u' := by
    change ("unexpected unit '" ++ unit ++ "'; expected 'px' or 'rem'").toList.head? = some 'u'
    rw [String.toList_append, String.toList_append, List.append_assoc, List.head?_append, start,
      Option.some_or]
  have heads : some 'u' ∈ dropErrors.map fun other => other.message.toList.head? :=
    List.mem_map.2 ⟨_, member, first⟩
  exact absurd heads (by decide +kernel)

theorem trailingContent_not_dropErrors (path : TokenPath) :
    (CallProblem.trailingContent path).diagnostic ∉ dropErrors := by
  intro member
  have severities : Severity.warning ∈ dropErrors.map Diagnostic.severity :=
    List.mem_map.2 ⟨_, member, rfl⟩
  exact absurd severities (by decide)

theorem missingLocation_not_dropErrors (name : String) :
    (CallProblem.missingLocation name).diagnostic ∉ dropErrors := by
  intro member
  have contexts : some "extract:parse" ∈ dropErrors.map Diagnostic.context :=
    List.mem_map.2 ⟨_, member, rfl⟩
  exact absurd contexts (by decide)

theorem diagnostic_mem_dropErrors (problem : CallProblem) :
    problem.diagnostic ∈ dropErrors ↔ problem ∈ dropProblems := by
  cases problem with
  | unquotedPath | emptyPath | tokenModifier => decide
  | unknownModifier | missingUnit | missingPercentage => decide
  | unknownUnit unit => simp [unknownUnit_not_dropErrors, dropProblems]
  | trailingContent path => simp [trailingContent_not_dropErrors, dropProblems]
  | missingLocation name => simp [missingLocation_not_dropErrors, dropProblems]

/-- A diagnostic of a reading tells whether the call was dropped. -/
theorem ArgumentsRead.dropErrors_counted {location : Span} {name : ReservedName}
    {arguments : List Node} {reading : CallReading}
    (read : ArgumentsRead location name arguments reading) :
    (diagnosticsOf [reading]).countP (· ∈ dropErrors) =
      [reading].countP CallReading.isDropped := by
  have one {problem : CallProblem} (found : reading.problem? = some problem) :
      (diagnosticsOf [reading]).countP (· ∈ dropErrors) =
        if problem ∈ dropProblems then 1 else 0 := by
    have alone : diagnosticsOf [reading] = [problem.diagnostic] := by simp [diagnosticsOf, found]
    simp only [alone, List.countP_singleton, decide_eq_true_eq, diagnostic_mem_dropErrors]
  cases read with
  | accepted form => rfl
  | refused form among => rw [one rfl, if_pos among]; rfl
  | malformed form keeps => rw [one rfl, if_neg keeps.1]; rfl
  | trailing form => rw [one rfl, if_neg (by simp [dropProblems])]; rfl

theorem dropErrors_counted (list : List Report) :
    (diagnosticsOf (list.map Report.reading)).countP (· ∈ dropErrors) =
      (list.map Report.reading).countP CallReading.isDropped := by
  induction list with
  | nil => rfl
  | cons report rest ih =>
    have here : (diagnosticsOf [report.reading]).countP (· ∈ dropErrors) =
        [report.reading].countP CallReading.isDropped :=
      (readCall_read report.span report.name report.arguments).dropErrors_counted
    have parts : diagnosticsOf (report.reading :: rest.map Report.reading) =
        diagnosticsOf [report.reading] ++ diagnosticsOf (rest.map Report.reading) :=
      List.filterMap_append (l := [report.reading])
    rw [List.map_cons, parts, List.countP_append, here, ih, ← List.countP_append]
    rfl

theorem length_readings (readings : List CallReading) :
    readings.length = (callsOf readings).length + readings.countP CallReading.isDropped := by
  induction readings with
  | nil => rfl
  | cons reading rest ih =>
    cases reading with
    | kept call problem =>
      have calls : callsOf (.kept call problem :: rest) = call :: callsOf rest := rfl
      rw [calls, List.countP_cons_of_neg (by simp [CallReading.isDropped]), List.length_cons,
        List.length_cons, ih]
      omega
    | dropped problem =>
      have calls : callsOf (.dropped problem :: rest) = callsOf rest := rfl
      rw [calls, List.countP_cons_of_pos rfl, List.length_cons, ih]
      omega

theorem omitted_errors (text : String) :
    (extractWith .omitted text).2 = (reports text).map fun report =>
      (CallProblem.missingLocation report.name.text).diagnostic := by
  rw [extractWith, readCalls_omitted]
  exact diagnosticsOf_unplaced (reports text)

theorem recorded_dropErrors (text : String) :
    (extractWith .recorded text).2.countP (· ∈ dropErrors) =
      (readCalls .recorded text).countP CallReading.isDropped := by
  rw [extractWith, readCalls_eq]
  exact dropErrors_counted (reports text)

/-- A text that is searched without locations, beside the same text with them. -/
structure SearchedAlike (text : String) : Prop where
  stylesheet : parseStylesheet .omitted text = withoutSpans (parseStylesheet .recorded text)
  value : parseValue .omitted text = withoutSpans (parseValue .recorded text)
  unplaced : ∀ node ∈ walk (parseStylesheet .omitted text) ++ walk (parseValue .omitted text),
    node.span = none
  calls : (extractWith .omitted text).1 = []
  errors : List.Forall₂ (fun diagnostic reading => ∃ name arguments location,
      diagnostic = (CallProblem.missingLocation (ReservedName.text name)).diagnostic ∧
        reading = readCall name arguments location)
    (extractWith .omitted text).2 (readCalls .recorded text)
  dropped : (extractWith .recorded text).2.countP (· ∈ dropErrors) =
    (readCalls .recorded text).countP CallReading.isDropped
  counted : (extractWith .omitted text).2.length = (extractWith .recorded text).1.length +
    (extractWith .recorded text).2.countP (· ∈ dropErrors)

/-- Without locations the tree is the same without its spans, and no reserved call is passed over:
each gives one error for its missing location. -/
theorem missing_locations_reported (text : String) : SearchedAlike text := by
  have sheet : parseStylesheet .omitted text = withoutSpans (parseStylesheet .recorded text) :=
    parseUnplaced_eq .statements text.toList
  have value : parseValue .omitted text = withoutSpans (parseValue .recorded text) :=
    parseUnplaced_eq .values text.toList
  refine ⟨sheet, value, ?_, ?_, ?_, recorded_dropErrors text, ?_⟩
  · intro node member
    rw [sheet, value, walk_withoutSpans, walk_withoutSpans, ← List.map_append] at member
    obtain ⟨other, _, rfl⟩ := List.mem_map.1 member
    exact other.withoutSpans_span
  · rw [extractWith, readCalls_omitted]
    exact callsOf_unplaced (reports text)
  · rw [omitted_errors, readCalls_eq, List.forall₂_map_left_iff, List.forall₂_map_right_iff]
    exact List.forall₂_same.2 fun report _ =>
      ⟨report.name, report.arguments, report.span, rfl, rfl⟩
  · have all := length_readings (readCalls .recorded text)
    rw [readCalls_eq, List.length_map, ← readCalls_eq] at all
    rw [recorded_dropErrors, omitted_errors, List.length_map]
    exact all

end DesignTokens
