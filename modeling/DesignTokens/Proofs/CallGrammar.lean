import DesignTokens.Proofs.CallText
import DesignTokens.Proofs.DotPaths

/-!
The arguments of the reserved calls. A grammar says which lists of nodes are the arguments of a call
and which call they make; reading them reports nothing on just these lists. On every other list one
thing is reported, and the list itself says whether the call is dropped, loses its modifier or keeps
it.
-/

namespace DesignTokens

open DesignTokens.Css DesignTokens.Text

/-- The argument that names a token is a string that is not blank. -/
inductive PathArgument : Node → TokenPath → Prop where
  | quoted (text : String) (span : Option Span) (filled : trim text.toList ≠ []) :
      PathArgument (.leaf (.quoted text) span) (TokenPath.ofDotPath text)

inductive ModifierArguments : List Node → Modifier → Prop where
  | convert (target : TargetUnit) (word unit : Option Span) :
      ModifierArguments [.leaf (.ident "to") word, .leaf (.ident target.name) unit]
        (.convert target)
  | negate (word : Option Span) : ModifierArguments [.leaf (.ident "negate") word] .negate
  | alpha (percent : Float) (slash amount : Option Span) :
      ModifierArguments [.leaf (.operator "/") slash, .leaf (.percentage percent) amount]
        (.alpha (percent / 100.0))

/-- The arguments of the calls, and the calls that they make. -/
inductive CallArguments (location : Span) : ReservedName → List Node → Call → Prop where
  | token {first : Node} {path : TokenPath} (named : PathArgument first path) :
      CallArguments location .token [first] (.token path location)
  | value {first : Node} {path : TokenPath} (named : PathArgument first path) :
      CallArguments location .value [first] (.value path none location)
  | modified {first : Node} {path : TokenPath} {words : List Node} {modifier : Modifier}
      (named : PathArgument first path) (changed : ModifierArguments words modifier) :
      CallArguments location .value (first :: words) (.value path (some modifier) location)

/-- The first argument does not name a token, or a reference has further arguments. -/
inductive RefusedArguments : ReservedName → List Node → Prop where
  | unnamed {name : ReservedName} {arguments : List Node}
      (unnamed : ∀ first ∈ arguments.head?, ∀ path, ¬ PathArgument first path) :
      RefusedArguments name arguments
  | further {first next : Node} {path : TokenPath} {rest : List Node}
      (named : PathArgument first path) : RefusedArguments .token (first :: next :: rest)

/-- There are arguments after the name of the token, but they do not start with a modifier. -/
inductive MalformedArguments : List Node → TokenPath → Prop where
  | modifier {first next : Node} {path : TokenPath} {rest : List Node}
      (named : PathArgument first path)
      (other : ∀ words modifier, ModifierArguments words modifier → ¬ words <+: next :: rest) :
      MalformedArguments (first :: next :: rest) path

inductive TrailingArguments : List Node → TokenPath → Modifier → Prop where
  | further {first next : Node} {path : TokenPath} {words rest : List Node} {modifier : Modifier}
      (named : PathArgument first path) (changed : ModifierArguments words modifier) :
      TrailingArguments (first :: (words ++ next :: rest)) path modifier

/-- The problems for which a call is dropped where its place is known. -/
def dropProblems : List CallProblem :=
  [.unquotedPath, .emptyPath, .tokenModifier]

theorem severity_of_dropProblems {problem : CallProblem} (among : problem ∈ dropProblems) :
    problem.severity = .error := by
  simp only [dropProblems, List.mem_cons, List.not_mem_nil, or_false] at among
  rcases among with rfl | rfl | rfl <;> rfl

def KeepsCall (problem : CallProblem) : Prop :=
  problem ∉ dropProblems ∧ problem.severity = .error

theorem keepsCall_of_modifier {problem : CallProblem}
    (kind : problem = .unknownModifier ∨ problem = .missingUnit ∨ problem = .missingPercentage ∨
      ∃ unit, problem = .unknownUnit unit) : KeepsCall problem := by
  rcases kind with rfl | rfl | rfl | ⟨unit, rfl⟩ <;> exact ⟨by simp [dropProblems], rfl⟩

/-! Reading the parts. -/

theorem TargetUnit.eq_name_of_ofName? {name : String} {target : TargetUnit}
    (found : TargetUnit.ofName? name = some target) : name = target.name := by
  unfold TargetUnit.ofName? at found
  split at found
  · cases found
    assumption
  · split at found
    · cases found
      assumption
    · contradiction

theorem readPath_named {first : Node} {path : TokenPath} (named : PathArgument first path)
    (rest : List Node) : readPath (first :: rest) = .ok (path, rest) := by
  cases named with
  | quoted text span filled => rw [readPath, if_neg (by simpa using filled)]

theorem readPath_unnamed {arguments : List Node}
    (unnamed : ∀ first ∈ arguments.head?, ∀ path, ¬ PathArgument first path) :
    ∃ problem ∈ dropProblems, readPath arguments = .error problem := by
  unfold readPath
  split
  · rename_i text span rest
    split
    · exact ⟨_, by simp [dropProblems], rfl⟩
    · rename_i filled
      exact absurd (.quoted text span (by simpa using filled)) (unnamed _ rfl _)
  · exact ⟨_, by simp [dropProblems], rfl⟩

theorem readModifier_words {words : List Node} {modifier : Modifier}
    (changed : ModifierArguments words modifier) {first : Node} {rest more : List Node}
    (split : first :: rest = words ++ more) : readModifier first rest = .ok (modifier, more) := by
  cases changed with
  | convert target word unit =>
    obtain ⟨rfl, rfl⟩ := List.cons.inj split
    change readUnit (.leaf (.ident target.name) unit :: more) = _
    simp only [readUnit, TargetUnit.ofName?_name]
  | negate word =>
    obtain ⟨rfl, rfl⟩ := List.cons.inj split
    rfl
  | alpha percent slash amount =>
    obtain ⟨rfl, rfl⟩ := List.cons.inj split
    rfl

theorem readUnit_cases (word : Option Span) (rest : List Node) :
    (∃ words modifier more, .leaf (.ident "to") word :: rest = words ++ more ∧
      ModifierArguments words modifier) ∨
    ∃ problem, readUnit rest = .error problem ∧ KeepsCall problem := by
  unfold readUnit
  split
  · rename_i name span more
    cases found : TargetUnit.ofName? name with
    | none => exact Or.inr ⟨_, rfl, keepsCall_of_modifier (by simp)⟩
    | some target =>
      rw [TargetUnit.eq_name_of_ofName? found]
      exact Or.inl ⟨_, _, more, rfl, .convert target word span⟩
  · exact Or.inr ⟨_, rfl, keepsCall_of_modifier (by simp)⟩

theorem readAlpha_cases (slash : Option Span) (rest : List Node) :
    (∃ words modifier more, .leaf (.operator "/") slash :: rest = words ++ more ∧
      ModifierArguments words modifier) ∨
    ∃ problem, readAlpha rest = .error problem ∧ KeepsCall problem := by
  unfold readAlpha
  split
  · rename_i percent amount more
    exact Or.inl ⟨_, _, more, rfl, .alpha percent slash amount⟩
  · exact Or.inr ⟨_, rfl, keepsCall_of_modifier (by simp)⟩

/-- Arguments start with a modifier, or reading one fails with an error. -/
theorem readModifier_cases (first : Node) (rest : List Node) :
    (∃ words modifier more, first :: rest = words ++ more ∧ ModifierArguments words modifier) ∨
    ∃ problem, readModifier first rest = .error problem ∧ KeepsCall problem := by
  unfold readModifier
  split
  · rename_i name word
    split
    · rename_i same
      subst same
      exact readUnit_cases word rest
    · split
      · rename_i same
        subst same
        exact Or.inl ⟨_, _, rest, rfl, .negate word⟩
      · exact Or.inr ⟨_, rfl, keepsCall_of_modifier (by simp)⟩
  · rename_i symbol slash
    split
    · rename_i same
      subst same
      exact readAlpha_cases slash rest
    · exact Or.inr ⟨_, rfl, keepsCall_of_modifier (by simp)⟩
  · exact Or.inr ⟨_, rfl, keepsCall_of_modifier (by simp)⟩

/-! What each kind of arguments is read as. -/

section Readings

variable (location : Span)

theorem readCall_accepted {location : Span} {name : ReservedName} {arguments : List Node}
    {call : Call} (accepted : CallArguments location name arguments call) :
    readCall name arguments location = .kept call none := by
  cases accepted with
  | token named => rw [readCall, readPath_named named]; rfl
  | value named => rw [readCall, readPath_named named]; rfl
  | modified named changed =>
    rename_i first path words modifier
    rw [readCall, readPath_named named]
    obtain ⟨next, rest, rfl⟩ : ∃ next rest, words = next :: rest := by
      cases changed <;> exact ⟨_, _, rfl⟩
    have read := readModifier_words changed (List.append_nil _).symm
    simp only [readValueCall, read]

theorem readCall_refused {name : ReservedName} {arguments : List Node}
    (refused : RefusedArguments name arguments) :
    ∃ problem ∈ dropProblems, readCall name arguments location = .dropped problem := by
  cases refused with
  | unnamed unnamed =>
    obtain ⟨problem, among, failed⟩ := readPath_unnamed unnamed
    refine ⟨problem, among, ?_⟩
    rw [readCall, failed]
  | further named =>
    refine ⟨.tokenModifier, by simp [dropProblems], ?_⟩
    rw [readCall, readPath_named named]
    rfl

theorem readCall_malformed {arguments : List Node} {path : TokenPath}
    (malformed : MalformedArguments arguments path) :
    ∃ problem, readCall .value arguments location =
      .kept (.value path none location) (some problem) ∧ KeepsCall problem := by
  cases malformed with
  | modifier named other =>
    rename_i first next rest
    rcases readModifier_cases next rest with ⟨words, modifier, more, split, changed⟩ |
      ⟨problem, failed, keeps⟩
    · exact absurd ⟨more, split.symm⟩ (other words modifier changed)
    · refine ⟨problem, ?_, keeps⟩
      rw [readCall, readPath_named named]
      simp only [readValueCall, failed]

theorem readCall_trailing {arguments : List Node} {path : TokenPath} {modifier : Modifier}
    (trailing : TrailingArguments arguments path modifier) :
    readCall .value arguments location =
      .kept (.value path (some modifier) location) (some (.trailingContent path)) := by
  cases trailing with
  | further named changed =>
    rename_i first next words rest
    obtain ⟨word, others, rfl⟩ : ∃ word others, words = word :: others := by
      cases changed <;> exact ⟨_, _, rfl⟩
    have split : word :: (others ++ next :: rest) = word :: others ++ next :: rest := rfl
    have read := readModifier_words changed split
    rw [readCall, readPath_named named]
    simp only [readValueCall, List.cons_append, read]

/-- Arguments of each kind with what they are read as. -/
inductive ArgumentsRead (location : Span) : ReservedName → List Node → CallReading → Prop where
  | accepted {name : ReservedName} {arguments : List Node} {call : Call}
      (form : CallArguments location name arguments call) :
      ArgumentsRead location name arguments (.kept call none)
  | refused {name : ReservedName} {arguments : List Node} {problem : CallProblem}
      (form : RefusedArguments name arguments) (among : problem ∈ dropProblems) :
      ArgumentsRead location name arguments (.dropped problem)
  | malformed {arguments : List Node} {path : TokenPath} {problem : CallProblem}
      (form : MalformedArguments arguments path) (keeps : KeepsCall problem) :
      ArgumentsRead location .value arguments
        (.kept (.value path none location) (some problem))
  | trailing {arguments : List Node} {path : TokenPath} {modifier : Modifier}
      (form : TrailingArguments arguments path modifier) :
      ArgumentsRead location .value arguments
        (.kept (.value path (some modifier) location) (some (.trailingContent path)))

theorem ArgumentsRead.ofAccepted {location : Span} {name : ReservedName} {arguments : List Node}
    {call : Call} (form : CallArguments location name arguments call) :
    ArgumentsRead location name arguments (readCall name arguments location) := by
  rw [readCall_accepted form]
  exact .accepted form

theorem ArgumentsRead.ofRefused {name : ReservedName} {arguments : List Node}
    (form : RefusedArguments name arguments) :
    ArgumentsRead location name arguments (readCall name arguments location) := by
  obtain ⟨problem, among, read⟩ := readCall_refused location form
  rw [read]
  exact .refused form among

theorem readCall_read (name : ReservedName) (arguments : List Node) :
    ArgumentsRead location name arguments (readCall name arguments location) := by
  by_cases unnamed : ∀ first ∈ arguments.head?, ∀ path, ¬ PathArgument first path
  · exact .ofRefused location (.unnamed unnamed)
  cases arguments with
  | nil => exact absurd (by simp) unnamed
  | cons first rest =>
    obtain ⟨path, named⟩ : ∃ path, PathArgument first path := by simpa using unnamed
    cases name with
    | token =>
      cases rest with
      | nil => exact .ofAccepted (.token named)
      | cons next rest => exact .ofRefused location (.further named)
    | value =>
      cases rest with
      | nil => exact .ofAccepted (.value named)
      | cons next rest =>
        rcases readModifier_cases next rest with ⟨words, modifier, more, split, changed⟩ |
          ⟨problem, failed, _⟩
        · cases more with
          | nil =>
            rw [split, List.append_nil]
            exact .ofAccepted (.modified named changed)
          | cons other more =>
            rw [split]
            have form : TrailingArguments (first :: (words ++ other :: more)) path modifier :=
              .further named changed
            rw [readCall_trailing location form]
            exact .trailing form
        · have form : MalformedArguments (first :: next :: rest) path := by
            refine .modifier named fun words modifier changed start => ?_
            obtain ⟨more, split⟩ := start
            rw [readModifier_words changed split.symm] at failed
            contradiction
          obtain ⟨problem, read, keeps⟩ := readCall_malformed location form
          rw [read]
          exact .malformed form keeps

end Readings

theorem segments_ofDotPath {text : String} (filled : trim text.toList ≠ []) :
    (TokenPath.ofDotPath text).segments ≠ [] := by
  have divided := dotPieces_splitDots text.toList
  obtain ⟨front, last, shape⟩ := (List.eq_nil_or_concat _).resolve_left divided.filled
  rw [List.concat_eq_append] at shape
  have read := ofPieces_concat front last
  intro nothing
  rw [TokenPath.ofDotPath, shape] at nothing
  rw [nothing, List.map_nil, eq_comm, List.append_eq_nil_iff, List.map_eq_nil_iff] at read
  obtain ⟨alone, blank⟩ := read
  have whole := divided.joined
  rw [shape, alone, List.nil_append, List.intercalate_singleton] at whole
  rw [whole, if_neg filled] at blank
  contradiction

theorem PathArgument.filled {first : Node} {path : TokenPath} (named : PathArgument first path) :
    path.segments ≠ [] := by
  cases named with
  | quoted text span filled => exact segments_ofDotPath filled

theorem ArgumentsRead.filled {location : Span} {name : ReservedName} {arguments : List Node}
    {reading : CallReading} (read : ArgumentsRead location name arguments reading) {call : Call}
    (kept : reading.call? = some call) : call.path.segments ≠ [] := by
  cases read with
  | accepted form =>
    cases kept
    cases form with
    | token named => exact named.filled
    | value named => exact named.filled
    | modified named changed => exact named.filled
  | refused form among => contradiction
  | malformed form keeps =>
    cases kept
    cases form with
    | modifier named other => exact named.filled
  | trailing form =>
    cases kept
    cases form with
    | further named changed => exact named.filled

def CallReading.outcome (reading : CallReading) : Option Call × List Diagnostic :=
  (reading.call?, diagnosticsOf [reading])

def Single (severity : Severity) (diagnostics : List Diagnostic) : Prop :=
  ∃ diagnostic, diagnostics = [diagnostic] ∧ diagnostic.severity = severity

section Reported

variable (name : ReservedName) (arguments : List Node) (location : Span)

theorem accepted_iff (call : Call) :
    (readCall name arguments location).outcome = (some call, []) ↔
      CallArguments location name arguments call := by
  constructor
  · have read := readCall_read location name arguments
    generalize readCall name arguments location = reading at read
    intro kept
    cases read with
    | accepted form =>
      cases kept
      exact form
    | refused | malformed | trailing => cases kept
  · intro form
    rw [readCall_accepted form]
    rfl

theorem refused_iff :
    ((readCall name arguments location).outcome.1 = none ∧
        Single .error (readCall name arguments location).outcome.2) ↔
      RefusedArguments name arguments := by
  constructor
  · have read := readCall_read location name arguments
    generalize readCall name arguments location = reading at read
    rintro ⟨dropped, _⟩
    cases read with
    | refused form among => exact form
    | accepted | malformed | trailing => cases dropped
  · intro form
    obtain ⟨problem, among, dropped⟩ := readCall_refused location form
    rw [dropped]
    exact ⟨rfl, _, rfl, severity_of_dropProblems among⟩

theorem malformed_iff (path : TokenPath) :
    ((readCall name arguments location).outcome.1 = some (.value path none location) ∧
        Single .error (readCall name arguments location).outcome.2) ↔
      name = .value ∧ MalformedArguments arguments path := by
  constructor
  · have read := readCall_read location name arguments
    generalize readCall name arguments location = reading at read
    rintro ⟨kept, diagnostic, one, _⟩
    cases read with
    | malformed form keeps =>
      cases kept
      exact ⟨rfl, form⟩
    | accepted form => cases one
    | refused | trailing => cases kept
  · rintro ⟨rfl, form⟩
    obtain ⟨problem, kept, _, severity⟩ := readCall_malformed location form
    rw [kept]
    exact ⟨rfl, _, rfl, severity⟩

theorem trailing_iff (path : TokenPath) (modifier : Modifier) :
    ((readCall name arguments location).outcome.1 = some (.value path (some modifier) location) ∧
        Single .warning (readCall name arguments location).outcome.2) ↔
      name = .value ∧ TrailingArguments arguments path modifier := by
  constructor
  · have read := readCall_read location name arguments
    generalize readCall name arguments location = reading at read
    rintro ⟨kept, diagnostic, one, _⟩
    cases read with
    | trailing form =>
      cases kept
      exact ⟨rfl, form⟩
    | accepted form => cases one
    | refused | malformed => cases kept
  · rintro ⟨rfl, form⟩
    rw [readCall_trailing location form]
    exact ⟨rfl, _, rfl, rfl⟩

end Reported

/-- What is reported of a call with the given arguments. -/
structure ReadByGrammar (name : ReservedName) (arguments : List Node) (location : Span) : Prop where
  accepted : ∀ call, (readCall name arguments location).outcome = (some call, []) ↔
    CallArguments location name arguments call
  single : (¬ ∃ call, CallArguments location name arguments call) →
    ∃ diagnostic, (readCall name arguments location).outcome.2 = [diagnostic]
  refused : ((readCall name arguments location).outcome.1 = none ∧
      Single .error (readCall name arguments location).outcome.2) ↔
    RefusedArguments name arguments
  malformed : ∀ path, ((readCall name arguments location).outcome.1 =
        some (.value path none location) ∧
      Single .error (readCall name arguments location).outcome.2) ↔
    name = .value ∧ MalformedArguments arguments path
  trailing : ∀ path modifier, ((readCall name arguments location).outcome.1 =
        some (.value path (some modifier) location) ∧
      Single .warning (readCall name arguments location).outcome.2) ↔
    name = .value ∧ TrailingArguments arguments path modifier
  kinds : (∃ call, CallArguments location name arguments call) ∨ RefusedArguments name arguments ∨
    name = .value ∧ ((∃ path, MalformedArguments arguments path) ∨
      ∃ path modifier, TrailingArguments arguments path modifier)
  filled : ∀ call, (readCall name arguments location).outcome.1 = some call →
    call.path.segments ≠ []

/-- The arguments of a call are accepted by the grammar, or they give exactly one diagnostic, which
is an error unless a whole modifier was read. -/
theorem calls_read_by_grammar (name : ReservedName) (arguments : List Node) (location : Span) :
    ReadByGrammar name arguments location := by
  have read := readCall_read location name arguments
  refine ⟨accepted_iff name arguments location, fun other => ?_,
    refused_iff name arguments location, malformed_iff name arguments location,
    trailing_iff name arguments location, ?_, fun call => read.filled⟩
  · generalize readCall name arguments location = reading at read
    cases read with
    | accepted form => exact absurd ⟨_, form⟩ other
    | refused | malformed | trailing => exact ⟨_, rfl⟩
  · generalize readCall name arguments location = reading at read
    cases read with
    | accepted form => exact Or.inl ⟨_, form⟩
    | refused form among => exact Or.inr (Or.inl form)
    | malformed form keeps => exact Or.inr (Or.inr ⟨rfl, Or.inl ⟨_, form⟩⟩)
    | trailing form => exact Or.inr (Or.inr ⟨rfl, Or.inr ⟨_, _, form⟩⟩)

end DesignTokens
