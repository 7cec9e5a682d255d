import DesignTokens.Extraction
import DesignTokens.Proofs.Css.RawValues

/-!
What the search for reserved calls comes upon. A report is a reserved function with its place in the
style sheet, whether it stands in the tree or in the value of a custom property. The reports give
all readings, their spans fit the style sheet and follow the order of its tree.
-/

namespace DesignTokens

open DesignTokens.Css DesignTokens.Text

structure Report where
  name : ReservedName
  arguments : List Node
  span : Span

namespace Report

def reading (report : Report) : CallReading :=
  readCall report.name report.arguments report.span

def moved (report : Report) (offset : Nat) : Report :=
  { report with span := report.span.shift offset }

end Report

def report? : Node → Option Report
  | .function name arguments (some span) =>
    (ReservedName.ofText? name).map fun reserved => ⟨reserved, arguments, span⟩
  | _ => none

def valueReports (text : String) : List Report :=
  (walk (parseValue .recorded text)).filterMap report?

def nodeReports : Node → List Report
  | .leaf (.raw text) (some span) =>
    if mentionsReserved text then
      (valueReports text).map fun report => report.moved span.start
    else
      []
  | node => (report? node).toList

def reports (text : String) : List Report :=
  (walk (parseStylesheet .recorded text)).flatMap nodeReports

/-- A report comes from a function of the tree or from a value that mentions a reserved name. -/
theorem mem_nodeReports {node : Node} {report : Report} :
    report ∈ nodeReports node ↔ report? node = some report ∨
      ∃ value span inner, node = .leaf (.raw value) (some span) ∧ mentionsReserved value = true ∧
        inner ∈ valueReports value ∧ inner.moved span.start = report := by
  constructor
  · intro found
    unfold nodeReports at found
    split at found
    · rename_i value span
      split at found
      · rename_i mentioned
        obtain ⟨inner, member, same⟩ := List.mem_map.1 found
        exact Or.inr ⟨value, span, inner, rfl, mentioned, member, same⟩
      · contradiction
    · exact Or.inl (Option.mem_toList.1 found)
  · rintro (found | ⟨value, span, inner, rfl, mentioned, member, same⟩)
    · cases node with
      | function name arguments span =>
        rw [nodeReports, Option.mem_toList]
        · exact found
        · simp
      | _ => contradiction
    · rw [nodeReports, if_pos mentioned]
      exact List.mem_map.2 ⟨inner, member, same⟩

theorem mem_reports {input : String} {report : Report} :
    report ∈ reports input ↔
      (∃ node ∈ walk (parse .statements input.toList), report? node = some report) ∨
      ∃ value span, (value, span) ∈ rawValues (parse .statements input.toList) ∧
        mentionsReserved value = true ∧
        ∃ inner ∈ valueReports value, inner.moved span.start = report := by
  simp only [reports, List.mem_flatMap, mem_nodeReports, mem_rawValues]
  constructor
  · rintro ⟨node, member, direct | ⟨value, span, inner, rfl, mentioned, among, same⟩⟩
    · exact Or.inl ⟨node, member, direct⟩
    · exact Or.inr ⟨value, span, member, mentioned, inner, among, same⟩
  · rintro (⟨node, member, direct⟩ | ⟨value, span, member, mentioned, inner, among, same⟩)
    · exact ⟨node, member, Or.inl direct⟩
    · exact ⟨_, member, Or.inr ⟨value, span, inner, rfl, mentioned, among, same⟩⟩

def Located (nodes : List Node) : Prop :=
  ∀ name arguments span, .function name arguments span ∈ walk nodes → ∃ place, span = some place

theorem located_parse (mode : Mode) (text : List Char) : Located (parse mode text) := by
  intro name arguments span found
  obtain ⟨opener, contents, closer, _, _, _, same⟩ :=
    (parse_derives mode text).function_group (contiguous_components text) found
  exact ⟨_, same⟩

theorem reservedCall?_eq {nodes : List Node} (located : Located nodes) {node : Node}
    (member : node ∈ walk nodes) (offset : Nat) :
    reservedCall? (some offset) node =
      (report? node).map fun report => (report.moved offset).reading := by
  cases node with
  | function name arguments span =>
    obtain ⟨place, rfl⟩ := located name arguments span member
    rw [reservedCall?, report?, Option.map_map]
    rfl
  | leaf => rfl
  | block => rfl
  | atRule => rfl

theorem valueReports_readings (text : String) (offset : Nat) :
    (walk (parseValue .recorded text)).filterMap (reservedCall? (some offset)) =
      ((valueReports text).map fun report => report.moved offset).map Report.reading := by
  have each : ∀ node ∈ walk (parseValue .recorded text), reservedCall? (some offset) node =
      (report? node).map fun report => (report.moved offset).reading :=
    fun node member => reservedCall?_eq (located_parse .values text.toList) member offset
  rw [List.filterMap_congr each, valueReports, List.map_map, List.map_filterMap]
  rfl

theorem readCalls_eq (text : String) :
    readCalls .recorded text = (reports text).map Report.reading := by
  rw [readCalls, reports, List.map_flatMap]
  apply List.flatMap_congr
  intro node member
  have direct := reservedCall?_eq (located_parse .statements text.toList) member 0
  have plain : (reservedCall? (some 0) node).toList = (report? node).toList.map Report.reading := by
    rw [direct]
    cases report? node <;> rfl
  cases node with
  | leaf leaf span =>
    cases leaf with
    | raw value =>
      obtain ⟨place, rfl, _⟩ := raw_slice member
      simp only [reservedCalls, nodeReports, Option.map_some, valueReports_readings]
      split <;> rfl
    | _ => exact plain
  | function => exact plain
  | block => exact plain
  | atRule => exact plain

theorem report?_span {node : Node} {span : Span} (placed : node.span = some span) :
    ((report? node).toList.map Report.span) = [] ∨
      ((report? node).toList.map Report.span) = [span] := by
  cases node with
  | function name arguments place =>
    cases placed
    rw [report?]
    cases ReservedName.ofText? name with
    | none => exact Or.inl rfl
    | some reserved => exact Or.inr rfl
  | leaf => exact Or.inl rfl
  | block => exact Or.inl rfl
  | atRule => exact Or.inl rfl

theorem valueReports_order (text : String) :
    SpanOrder 0 (byteLength text.toList) ((valueReports text).map Report.span) := by
  have sound : Contribution fun node => (report? node).toList.map Report.span :=
    ⟨fun node span placed _ => report?_span placed, fun first text => .nil⟩
  have order := (parse_derives .values text.toList).spanOrder sound
  rw [componentsText_components, Nat.zero_add, ← List.map_flatMap] at order
  rw [valueReports, List.filterMap_eq_flatMap_toList]
  exact order

theorem nodeReports_raw (first : Nat) (text : List Char) :
    SpanOrder first (first + byteLength text)
      ((nodeReports (rawNode first text)).map Report.span) := by
  obtain ⟨trailing, whole, _⟩ := trim_split text
  have length := congrArg byteLength whole
  rw [byteLength_append, byteLength_append] at length
  simp only [rawNode, nodeReports]
  split
  · have order := (valueReports_order (String.ofList (trim text))).shift
      (first + byteLength (leadingBlanks text))
    rw [String.toList_ofList, List.map_map] at order
    rw [List.map_map]
    exact order.mono (by omega) (by omega)
  · exact .nil

/-- Reports that come later start later, and lie inside the earlier ones or after them. -/
theorem reports_order (text : String) :
    SpanOrder 0 (byteLength text.toList) ((reports text).map Report.span) := by
  have sound : Contribution fun node => (nodeReports node).map Report.span := by
    refine ⟨fun node span placed cooked => ?_, nodeReports_raw⟩
    cases node with
    | leaf leaf place =>
      cases leaf with
      | raw value => exact absurd rfl (cooked value place)
      | _ => exact Or.inl rfl
    | function => exact report?_span placed
    | block => exact Or.inl rfl
    | atRule => exact Or.inl rfl
  have order := (parse_derives .statements text.toList).spanOrder sound
  rw [componentsText_components, Nat.zero_add, ← List.map_flatMap] at order
  exact order

end DesignTokens
