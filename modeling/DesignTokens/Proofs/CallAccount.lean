import DesignTokens.Proofs.CallText
import DesignTokens.Proofs.ValueCalls

/-!
Accounting for calls. Every reserved function token of a style sheet leads to one call or to one
error, in order, and nothing else does. The values of custom properties are searched by their text:
one that does not mention a reserved name as it is written is passed over.
-/

namespace DesignTokens

open DesignTokens.Css DesignTokens.Text

def Report.site (report : Report) : CallSite :=
  ⟨report.name, report.span.start⟩

/-- A report is one call in its place, or one error. -/
def Report.Settled (report : Report) : Prop :=
  (∃ call problem, report.reading = .kept call problem ∧ call.name = report.name ∧
    call.location = report.span) ∨
  ∃ problem, report.reading = .dropped problem ∧ problem.severity = .error

def customValues (input : List Char) : List (String × Span) :=
  rawValues (parse .statements input)

def startsToken (input : List Char) (offset : Nat) : Bool :=
  (lexemes input).any fun lexeme => lexeme.start = offset

def outsideInner (value : String) (offset : Nat) : Bool :=
  (rawValues (parse .values value.toList)).all fun inner => !inner.2.holds offset

/-- Whether the calls that start at an offset are accounted for. Outside the values of custom
properties all are. Inside one it takes that the value mentions a reserved name, that trimming it
cuts no token, and that the call is not in the value of a custom property in one of its blocks. -/
def accounted (input : List Char) (offset : Nat) : Bool :=
  (customValues input).all fun (value, span) => !span.holds offset ||
    (mentionsReserved value && startsToken input span.start &&
      outsideInner value (offset - span.start))

def passedOver (input : List Char) (offset : Nat) : Bool :=
  (customValues input).any fun (value, span) => span.holds offset && !mentionsReserved value

theorem contiguous_bounds {start : Nat} {run : List Lexeme} (placed : Contiguous start run)
    {lexeme : Lexeme} (member : lexeme ∈ run) :
    start ≤ lexeme.start ∧ lexeme.start < start + byteLength (lexemeText run) := by
  obtain ⟨before, after, rfl⟩ := List.append_of_mem member
  rw [contiguous_append] at placed
  have positive := byteLength_pos placed.2.2.1
  rw [placed.2.1, lexemeText_append, lexemeText_cons, byteLength_append, byteLength_append]
  omega

theorem rising_of_contiguous {start : Nat} {run : List Lexeme} (placed : Contiguous start run) :
    run.Pairwise fun one other => one.start < other.start := by
  induction run generalizing start with
  | nil => exact .nil
  | cons lexeme rest ih =>
    refine .cons (fun other member => ?_) (ih placed.2.2)
    have bound := (contiguous_bounds placed.2.2 member).1
    have positive := byteLength_pos placed.2.1
    rw [Lexeme.stop] at bound
    omega

theorem report?_callSite {mode : Mode} {text : List Char} {node : Node} {report : Report}
    (member : node ∈ walk (parse mode text)) (found : report? node = some report) :
    report.site ∈ callSites text := by
  unfold report? at found
  split at found
  · obtain ⟨reserved, name, rfl⟩ := Option.map_eq_some_iff.1 found
    obtain ⟨opener, contents, closer, within, called, _, place⟩ :=
      (parse_derives mode text).function_group (contiguous_components text) member
    obtain ⟨before, after, whole⟩ := within.lexemes
    rw [componentLexemes_components] at whole
    cases place
    refine mem_callSites.2 ⟨opener, ?_, ?_, rfl⟩
    · rw [whole]
      simp [Component.lexemes]
    · rw [called, ReservedName.eq_text_of_ofText? name]
      rfl
  · contradiction

theorem value_cut {mode : Mode} {text : List Char} {value : String} {span : Span}
    (member : (value, span) ∈ rawValues (parse mode text)) :
    ∃ before run after lead trailing, lexemes text = before ++ run ++ after ∧
      lexemeText run = lead ++ value.toList ++ trailing ∧
      (∀ c ∈ lead, isBlank c = true) ∧ (∀ c ∈ trailing, isBlank c = true) ∧
      span = ⟨byteLength (lexemeText before) + byteLength lead,
        byteLength (lexemeText before) + byteLength lead + byteLength value.toList⟩ := by
  obtain ⟨before, run, after, whole, same⟩ :=
    (parse_derives mode text).raw_value (mem_rawValues.1 member)
  obtain ⟨trailing, split, blank⟩ := trim_split (componentsText run)
  rw [componentLexemes_components] at whole
  simp only [rawNode, Node.leaf.injEq, Leaf.raw.injEq, Option.some.injEq, Nat.zero_add] at same
  obtain ⟨rfl, rfl⟩ := same
  refine ⟨before, componentLexemes run, after, leadingBlanks (componentsText run), trailing, whole,
    ?_, leadingBlanks_blank, blank, ?_⟩
  · rw [String.toList_ofList]
    exact split
  · rw [String.toList_ofList]

/-- The calls inside a value, if trimming it cuts no token. -/
theorem callSite_in_value {mode : Mode} {text : List Char} {value : String} {span : Span}
    (member : (value, span) ∈ rawValues (parse mode text))
    (whole : startsToken text span.start = true) {site : CallSite}
    (held : span.holds site.start = true) :
    site ∈ callSites text ↔ ∃ inner ∈ callSites value.toList, inner.moved span.start = site := by
  obtain ⟨before, run, after, lead, trailing, split, spelled, clear, clean, rfl⟩ :=
    value_cut member
  obtain ⟨first, among, begins⟩ := List.any_eq_true.1 whole
  have same := value_callSites split spelled clear clean among (of_decide_eq_true begins)
  rw [← List.mem_map, ← same]
  have width := congrArg byteLength spelled
  simp only [byteLength_append] at width
  have place := Span.holds_iff.1 held
  dsimp only at place
  have placed := contiguous_lexemesFrom 0 text
  rw [show lexemesFrom 0 text = lexemes text from rfl, split, contiguous_append,
    contiguous_append] at placed
  constructor
  · intro found
    obtain ⟨lexeme, member, called⟩ := List.mem_filterMap.1 found
    have start := (Lexeme.callSite?_eq_some_iff.1 called).2
    rw [split, List.mem_append, List.mem_append] at member
    rcases member with (early | here) | late
    · have bounds := contiguous_bounds placed.1.1 early
      omega
    · exact List.mem_filterMap.2 ⟨lexeme, here, called⟩
    · have bounds := contiguous_bounds placed.2 late
      rw [lexemeText_append, byteLength_append] at bounds
      omega
  · intro found
    obtain ⟨lexeme, member, called⟩ := List.mem_filterMap.1 found
    refine List.mem_filterMap.2 ⟨lexeme, ?_, called⟩
    rw [split]
    exact List.mem_append_left _ (List.mem_append_right _ member)

/-- Each call site of a text is a function of its tree, or it stands in a value. -/
theorem callSite_found (mode : Mode) {text : List Char} {site : CallSite}
    (member : site ∈ callSites text) :
    (∃ node ∈ walk (parse mode text), ∃ report, report? node = some report ∧ report.site = site) ∨
      ∃ value span, (value, span) ∈ rawValues (parse mode text) ∧
        span.holds site.start = true := by
  obtain ⟨lexeme, among, called, start⟩ := mem_callSites.1 member
  rw [← componentLexemes_components] at among
  rcases (parse_derives mode text).function_kept (contiguous_components text) among called with
    ⟨arguments, stop, found⟩ | ⟨before, value, after, whole, inside, found⟩
  · refine Or.inl ⟨_, found, ⟨site.name, arguments, ⟨lexeme.start, stop⟩⟩, ?_, ?_⟩
    · rw [report?, ReservedName.ofText?_text]
      rfl
    · rw [Report.site, start]
  · refine Or.inr ⟨_, _, mem_rawValues.2 found, Span.holds_iff.2 ?_⟩
    obtain ⟨one, two, shape⟩ := List.append_of_mem inside
    obtain ⟨trailing, split, blank⟩ := trim_split (componentsText value)
    rw [componentsText, shape] at split
    rw [componentLexemes_components] at among
    have bounds := callSite_in_trimmed among called split leadingBlanks_blank blank
    have placed := contiguous_components text
    rw [whole, shape, contiguous_append, contiguous_append, contiguous_append] at placed
    have begins := placed.1.2.2.1
    rw [componentsText, shape, ← start, begins]
    dsimp only
    omega

/-! Reports. -/

theorem report_settled (report : Report) : report.Settled :=
  readCall_cases report.name report.arguments report.span

theorem report_in_value {mode : Mode} {text : List Char} {value : String} {span : Span}
    (member : (value, span) ∈ rawValues (parse mode text)) {inner : Report}
    (among : inner ∈ valueReports value) :
    span.holds (inner.moved span.start).span.start = true := by
  obtain ⟨before, run, after, lead, trailing, _, _, _, _, rfl⟩ := value_cut member
  have bounds := (valueReports_order value).inside inner.span (List.mem_map_of_mem among)
  rw [Span.holds_iff]
  simp only [Report.moved, Span.shift]
  omega

theorem site_iff {input : String} {site : CallSite}
    (open_ : accounted input.toList site.start = true) :
    site ∈ (reports input).map Report.site ↔ site ∈ callSites input.toList := by
  have searched {value : String} {span : Span} (member : (value, span) ∈ customValues input.toList)
      (held : span.holds site.start = true) : mentionsReserved value = true ∧
        startsToken input.toList span.start = true ∧
        outsideInner value (site.start - span.start) = true := by
    have all := List.all_eq_true.1 open_ _ member
    simpa [held, and_assoc] using all
  rw [List.mem_map]
  constructor
  · rintro ⟨report, member, rfl⟩
    rcases mem_reports.1 member with ⟨node, found, direct⟩ | ⟨value, span, found, _, inner, among, rfl⟩
    · exact report?_callSite found direct
    -- A value is read a second time, so its tokens have to be those of the style sheet.
    · have held := report_in_value found among
      obtain ⟨below, deep, direct⟩ := List.mem_filterMap.1 among
      refine (callSite_in_value found (searched found held).2.1 held).2 ⟨inner.site, ?_, rfl⟩
      exact report?_callSite deep direct
  · intro member
    rcases callSite_found .statements member with ⟨node, found, report, direct, same⟩ |
      ⟨value, span, found, held⟩
    · exact ⟨report, mem_reports.2 (Or.inl ⟨node, found, direct⟩), same⟩
    · obtain ⟨mentioned, whole, outside⟩ := searched found held
      obtain ⟨inner, among, rfl⟩ := (callSite_in_value found whole held).1 member
      rcases callSite_found .values among with ⟨node, deep, report, direct, same⟩ |
        ⟨nested, place, deep, within⟩
      · refine ⟨report.moved span.start, mem_reports.2 (Or.inr ⟨value, span, found, mentioned,
          report, List.mem_filterMap.2 ⟨node, deep, direct⟩, rfl⟩), ?_⟩
        rw [← same]
        rfl
      · have start : (inner.moved span.start).start - span.start = inner.start := by
          rw [CallSite.moved]
          exact Nat.add_sub_cancel _ _
        rw [start] at outside
        have clear := List.all_eq_true.1 outside _ deep
        rw [within] at clear
        contradiction

theorem report_not_passedOver {input : String} {report : Report} (member : report ∈ reports input) :
    passedOver input.toList report.span.start = false := by
  cases passed : passedOver input.toList report.span.start with
  | false => rfl
  | true =>
    obtain ⟨⟨value, span⟩, found, silent⟩ := List.any_eq_true.1 passed
    simp only [Bool.and_eq_true, Bool.not_eq_true'] at silent
    obtain ⟨held, unmentioned⟩ := silent
    rcases mem_reports.1 member with ⟨node, deep, direct⟩ |
      ⟨other, place, deep, mentioned, inner, among, rfl⟩
    · unfold report? at direct
      split at direct
      · obtain ⟨name, _, rfl⟩ := Option.map_eq_some_iff.1 direct
        have outside := function_outside_raw deep found
        rw [held] at outside
        contradiction
      · contradiction
    · have same := raw_unique found deep held (report_in_value deep among)
      rw [Prod.mk.injEq] at same
      rw [same.1, mentioned] at unmentioned
      contradiction

/-! Order. -/

theorem reports_rising (input : String) :
    ((reports input).map Report.site).Pairwise fun one other => one.start < other.start := by
  have order := (reports_order input).ordered
  rw [List.pairwise_map] at order ⊢
  exact order.imp And.left

theorem callSites_rising (text : List Char) :
    (callSites text).Pairwise fun one other => one.start < other.start := by
  refine List.pairwise_filterMap.2 ((rising_of_contiguous (contiguous_lexemesFrom 0 text)).imp ?_)
  intro one other before site found also alsoFound
  have first := (Lexeme.callSite?_eq_some_iff.1 found).2
  have second := (Lexeme.callSite?_eq_some_iff.1 alsoFound).2
  omega

/-- The reserved function tokens that are accounted for and the reports are the same, one for one
and in order. A report is one call in its place or one error for a call that is dropped. Nothing is
reported from a value that mentions no reserved name. -/
theorem reserved_calls_accounted (input : String) :
    extract input = (callsOf ((reports input).map Report.reading),
      diagnosticsOf ((reports input).map Report.reading)) ∧
    (∀ report ∈ reports input, report.Settled) ∧
    ((reports input).map Report.site).filter (fun site => accounted input.toList site.start) =
      (callSites input.toList).filter (fun site => accounted input.toList site.start) ∧
    ∀ report ∈ reports input, passedOver input.toList report.span.start = false := by
  refine ⟨?_, fun report _ => report_settled report, ?_, fun report => report_not_passedOver⟩
  · rw [← readCalls_eq]
    rfl
  · refine eq_of_rising CallSite.start ((reports_rising input).sublist List.filter_sublist)
      ((callSites_rising input.toList).sublist List.filter_sublist) fun site => ?_
    rw [List.mem_filter, List.mem_filter]
    exact and_congr_left site_iff

/-- A call that escapes a letter of its name stays unseen in the value of a custom property. -/
theorem escaped_call_unreported :
    callSites "--a: --\\74oken(\"x\");".toList = [⟨.token, 5⟩] ∧
      extract "--a: --\\74oken(\"x\");" = ([], []) :=
  ⟨by decide +kernel, Prod.ext (by decide +kernel) (by decide +kernel)⟩

end DesignTokens
