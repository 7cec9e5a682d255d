import DesignTokens.Proofs.CallReports
import DesignTokens.Proofs.Css.Alone

/-!
The text of a call. What the span of a call cuts out of the style sheet reads as one function that
fills it, and its arguments give the call again.
-/

namespace DesignTokens

open DesignTokens.Css DesignTokens.Text

/-! A reading does not depend on where its arguments stand. -/

def Call.at (call : Call) (location : Span) : Call :=
  match call with
  | .token path _ => .token path location
  | .value path modifier _ => .value path modifier location

def CallReading.at (reading : CallReading) (location : Span) : CallReading :=
  match reading with
  | .kept call problem => .kept (call.at location) problem
  | .dropped problem => .dropped problem

def shiftRest {α : Type} (offset : Nat) (read : α × List Node) : α × List Node :=
  (read.1, read.2.map fun node => node.shift offset)

theorem readPath_shift (offset : Nat) (arguments : List Node) :
    readPath (arguments.map fun node => node.shift offset) =
      (readPath arguments).map (shiftRest offset) := by
  cases arguments with
  | nil => rfl
  | cons first rest =>
    cases first with
    | leaf leaf span =>
      cases leaf with
      | quoted text =>
        simp only [List.map_cons, Node.shift, readPath]
        split <;> rfl
      | _ => rfl
    | _ => rfl

theorem readUnit_shift (offset : Nat) (arguments : List Node) :
    readUnit (arguments.map fun node => node.shift offset) =
      (readUnit arguments).map (shiftRest offset) := by
  cases arguments with
  | nil => rfl
  | cons first rest =>
    cases first with
    | leaf leaf span =>
      cases leaf with
      | ident name =>
        simp only [List.map_cons, Node.shift, readUnit]
        split <;> rfl
      | _ => rfl
    | _ => rfl

theorem readAlpha_shift (offset : Nat) (arguments : List Node) :
    readAlpha (arguments.map fun node => node.shift offset) =
      (readAlpha arguments).map (shiftRest offset) := by
  cases arguments with
  | nil => rfl
  | cons first rest =>
    cases first with
    | leaf leaf span => cases leaf <;> rfl
    | _ => rfl

theorem readModifier_shift (offset : Nat) (first : Node) (rest : List Node) :
    readModifier (first.shift offset) (rest.map fun node => node.shift offset) =
      (readModifier first rest).map (shiftRest offset) := by
  cases first with
  | leaf leaf span =>
    cases leaf with
    | ident name =>
      simp only [Node.shift, readModifier, readUnit_shift]
      split
      · rfl
      · split <;> rfl
    | operator symbol =>
      simp only [Node.shift, readModifier, readAlpha_shift]
      split <;> rfl
    | _ => rfl
  | _ => rfl

theorem readCall_shift (name : ReservedName) (offset : Nat) (arguments : List Node) (span : Span) :
    readCall name (arguments.map fun node => node.shift offset) span =
      readCall name arguments span := by
  unfold readCall
  rw [readPath_shift]
  cases readPath arguments with
  | error problem => rfl
  | ok read =>
    obtain ⟨path, rest⟩ := read
    cases name with
    | token => cases rest <;> rfl
    | value =>
      cases rest with
      | nil => rfl
      | cons first rest =>
        simp only [Except.map, shiftRest, List.map_cons, readValueCall, readModifier_shift]
        cases readModifier first rest with
        | error problem => rfl
        | ok found =>
          obtain ⟨modifier, more⟩ := found
          cases more <;> rfl

theorem readCall_at (name : ReservedName) (arguments : List Node) (span location : Span) :
    readCall name arguments location = (readCall name arguments span).at location := by
  unfold readCall
  cases readPath arguments with
  | error problem => rfl
  | ok read =>
    obtain ⟨path, rest⟩ := read
    cases name with
    | token => cases rest <;> rfl
    | value =>
      cases rest with
      | nil => rfl
      | cons first rest =>
        simp only [readValueCall]
        cases readModifier first rest with
        | error problem => rfl
        | ok found =>
          obtain ⟨modifier, more⟩ := found
          cases more <;> rfl

theorem readPath_error {arguments : List Node} {problem : CallProblem}
    (failed : readPath arguments = .error problem) : problem.severity = .error := by
  unfold readPath at failed
  split at failed
  · split at failed
    · cases failed
      rfl
    · contradiction
  · cases failed
    rfl

theorem readCall_cases (name : ReservedName) (arguments : List Node) (span : Span) :
    (∃ call problem, readCall name arguments span = .kept call problem ∧ call.name = name ∧
      call.location = span) ∨
    ∃ problem, readCall name arguments span = .dropped problem ∧ problem.severity = .error := by
  unfold readCall
  cases read : readPath arguments with
  | error problem => exact Or.inr ⟨problem, rfl, readPath_error read⟩
  | ok found =>
    obtain ⟨path, rest⟩ := found
    cases name with
    | token =>
      cases rest with
      | nil => exact Or.inl ⟨_, _, rfl, rfl, rfl⟩
      | cons first rest => exact Or.inr ⟨_, rfl, rfl⟩
    | value =>
      refine Or.inl ?_
      cases rest with
      | nil => exact ⟨_, _, rfl, rfl, rfl⟩
      | cons first rest =>
        simp only [readValueCall]
        cases readModifier first rest with
        | error problem => exact ⟨_, _, rfl, rfl, rfl⟩
        | ok found =>
          obtain ⟨modifier, more⟩ := found
          cases more <;> exact ⟨_, _, rfl, rfl, rfl⟩

theorem Report.call_located {report : Report} {call : Call}
    (kept : report.reading.call? = some call) :
    call.name = report.name ∧ call.location = report.span := by
  unfold Report.reading at kept
  rcases readCall_cases report.name report.arguments report.span with
    ⟨other, problem, read, name, location⟩ | ⟨problem, read, _⟩
  · rw [read] at kept
    cases kept
    exact ⟨name, location⟩
  · rw [read] at kept
    contradiction

/-! A report cut out of its text. -/

/-- What a report comes to when its text stands alone. -/
def Report.Alone (text : List Char) (report : Report) : Prop :=
  ∃ inside children offset, slice text report.span = some inside ∧ inside ≠ [] ∧
    parse .values inside =
      [.function report.name.text children (some ⟨0, byteLength inside⟩)] ∧
    children.map (fun node => node.shift offset) = report.arguments

theorem report?_alone {mode : Mode} {text : List Char} {node : Node} {report : Report}
    (member : node ∈ walk (parse mode text)) (found : report? node = some report) :
    report.Alone text := by
  unfold report? at found
  split at found
  · obtain ⟨reserved, name, rfl⟩ := Option.map_eq_some_iff.1 found
    obtain ⟨inside, children, same⟩ := function_alone
      ((parse_derives mode text).function_group (contiguous_components text) member)
    rw [ReservedName.eq_text_of_ofText? name] at same
    exact ⟨inside, children, _, same⟩
  · contradiction

/-- Every report is a text that reads as nothing but the call. -/
theorem report_alone {text : String} {report : Report} (found : report ∈ reports text) :
    report.Alone text.toList := by
  rcases mem_reports.1 found with ⟨node, member, direct⟩ |
    ⟨value, span, member, _, inner, among, rfl⟩
  · exact report?_alone member direct
  · obtain ⟨place, same, outer⟩ := raw_slice (mem_rawValues.1 member)
    cases same
    obtain ⟨below, deep, direct⟩ := List.mem_filterMap.1 among
    obtain ⟨inside, children, offset, cut, filled, read, moved⟩ := report?_alone deep direct
    exact ⟨inside, children, offset, slice_slice outer cut, filled, read, moved⟩

/-- The span of a call cuts out a text that reads as that call and nothing else. -/
theorem call_reads_alone {input : String} {call : Call} (found : call ∈ (extract input).1) :
    ∃ inside children, slice input.toList call.location = some inside ∧ inside ≠ [] ∧
      parseValue .recorded (String.ofList inside) =
        [.function call.name.text children (some ⟨0, byteLength inside⟩)] ∧
      ∀ location, ∃ problem, readCall call.name children location =
        .kept (call.at location) problem := by
  simp only [extract, extractWith, callsOf, readCalls_eq] at found
  obtain ⟨reading, member, kept⟩ := List.mem_filterMap.1 found
  obtain ⟨report, among, rfl⟩ := List.mem_map.1 member
  obtain ⟨name, place⟩ := report.call_located kept
  obtain ⟨inside, children, offset, cut, filled, read, moved⟩ := report_alone among
  rw [name, place]
  refine ⟨inside, children, cut, filled, ?_, fun location => ?_⟩
  · simpa [parseValue, Positions.keep] using read
  · have again : readCall report.name children location = report.reading.at location := by
      rw [← readCall_shift report.name offset children location, moved]
      exact readCall_at report.name report.arguments report.span location
    rw [again]
    cases whole : report.reading with
    | kept other problem =>
      rw [whole] at kept
      cases kept
      exact ⟨problem, rfl⟩
    | dropped problem =>
      rw [whole] at kept
      contradiction

/-- A call that nothing closes, in the value of a custom property. -/
theorem unclosed_call_reads_alone :
    ∃ call ∈ (extract "--a: --value(\"é\" negate").1,
      call.path = ⟨["é"]⟩ ∧ call.location = ⟨5, 24⟩ ∧
      ∃ inside children,
        slice "--a: --value(\"é\" negate".toList call.location = some inside ∧ inside ≠ [] ∧
        parseValue .recorded (String.ofList inside) =
          [.function call.name.text children (some ⟨0, byteLength inside⟩)] ∧
        ∀ location, ∃ problem, readCall call.name children location =
          .kept (call.at location) problem := by
  have calls : (extract "--a: --value(\"é\" negate").1.map
      (fun call => (call.path, call.location)) = [(⟨["é"]⟩, ⟨5, 24⟩)] := by
    decide +kernel
  have listed : (⟨["é"]⟩, ⟨5, 24⟩) ∈ (extract "--a: --value(\"é\" negate").1.map
      (fun call => (call.path, call.location)) := by
    rw [calls]
    exact List.mem_singleton.2 rfl
  obtain ⟨call, found, same⟩ := List.mem_map.1 listed
  rw [Prod.mk.injEq] at same
  exact ⟨call, found, same.1, same.2, call_reads_alone found⟩

end DesignTokens
