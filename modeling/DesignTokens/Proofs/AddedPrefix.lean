import DesignTokens.Proofs.TokenIndex
import DesignTokens.Resolution

/-!
Settings with a prefix beside the same settings without one. The index has the same names in the
same order, and only the paths of its tokens gain the prefix. A path that the index holds is found
as it is written before the prefix is looked at, so calls that were resolved without a prefix are
resolved to the same values with any.
-/

namespace DesignTokens

open DesignTokens.Text

def Register.mapValues {α β : Type} (f : α → β) (register : Register α) : Register β :=
  ⟨register.entries.map fun (name, value) => (name, f value)⟩

namespace Register

variable {α β : Type} (f : α → β) (register : Register α)

theorem get?_mapValues (name : String) :
    (register.mapValues f).get? name = (register.get? name).map f := by
  obtain ⟨entries⟩ := register
  induction entries with
  | nil => rfl
  | cons entry rest ih =>
    obtain ⟨other, value⟩ := entry
    simp only [mapValues, get?, List.map_cons, findEntry] at ih ⊢
    split
    · rfl
    · exact ih

theorem mapValues_put (name : String) (value : α) :
    (register.put name value).mapValues f = (register.mapValues f).put name (f value) := by
  obtain ⟨entries⟩ := register
  induction entries with
  | nil => rfl
  | cons entry rest ih =>
    obtain ⟨other, old⟩ := entry
    simp only [mapValues, put, List.map_cons, putEntry, Register.mk.injEq] at ih ⊢
    split
    · rfl
    · rw [List.map_cons, ih]

end Register

def Token.underPrefix (token : Token) (first : String) : Token :=
  { token with path := token.path.underPrefix first }

def ResolvedToken.underPrefix (token : ResolvedToken) (first : String) : ResolvedToken :=
  { token with path := token.path.underPrefix first }

def ResolutionProblem.underPrefix (problem : ResolutionProblem) (first : String) :
    ResolutionProblem :=
  match problem with
  | .notFound path => .notFound (path.underPrefix first)
  | .emptyToken path => .emptyToken (path.underPrefix first)
  | .severalValues path => .severalValues (path.underPrefix first)

theorem TokenLeaf.token_underPrefix (leaf : TokenLeaf) (first : String) :
    leaf.token (some first) = (leaf.token none).underPrefix first :=
  rfl

/-- The index with a prefix is the index without it, except for the paths of the tokens. -/
theorem indexLeaves_underPrefix (first : String) (leaves : List TokenLeaf) :
    indexLeaves (some first) leaves =
      (indexLeaves none leaves).mapValues fun token => token.underPrefix first := by
  rw [indexLeaves_eq, indexLeaves_eq]
  induction leaves using List.reverseRecOn with
  | nil => rfl
  | append_singleton leaves leaf ih =>
    rw [Register.putAll_concat, Register.putAll_concat, ih, Register.mapValues_put,
      TokenLeaf.token_underPrefix]

namespace Config

variable {config : Config}

theorem find?_unprefixed (bare : config.namePrefix = none) (path : TokenPath) :
    config.find? path = config.index.get? path.dotPath := by
  rw [find?, bare]
  cases config.index.get? path.dotPath <;> rfl

def under (config : Config) (first : String) : Config :=
  { config with
    settings := { config.settings with namePrefix := some first }
    namePrefix := some first
    index := config.index.mapValues fun token => token.underPrefix first }

theorem find?_under {path : TokenPath} {token : Token} (bare : config.namePrefix = none)
    (found : config.find? path = some token) (first : String) :
    (config.under first).find? path = some (token.underPrefix first) := by
  rw [find?_unprefixed bare] at found
  have held : (config.under first).index.get? path.dotPath = some (token.underPrefix first) := by
    rw [under, Register.get?_mapValues, found]
    rfl
  rw [find?, held]

theorem ofSettings_under {settings : Settings} (made : Config.ofSettings settings = .ok config)
    (bare : trimmedPrefix settings = none) {first : String} (clean : trimmed first = first)
    (filled : first ≠ "") (undotted : '.' ∉ first.toList) :
    Config.ofSettings { settings with namePrefix := some first } = .ok (config.under first) := by
  have shape := of_ofSettings made
  rw [bare] at shape
  let prefixed : Settings := { settings with namePrefix := some first }
  have size : (prefixed.rootFontSize.isFinite && decide (0.0 < prefixed.rootFontSize)) = true := by
    by_contra refused
    rw [ofSettings, Bool.eq_false_iff.2 refused, if_pos (by rfl)] at made
    contradiction
  have named : trimmedPrefix prefixed = some first := by
    rw [trimmedPrefix, Option.map_some, clean, Option.filter_some, if_pos (by simpa using filled)]
  have free : ∀ namePrefix ∈ trimmedPrefix prefixed, namePrefix.toList.contains '.' = false := by
    rw [named]
    simpa using undotted
  rw [ofSettings_checked size free, named, indexLeaves_underPrefix, shape]
  rfl

end Config

/-! What a call makes of a token hangs on the value of the token alone. -/

theorem Token.modified_underPrefix (rootFontSize : Float) (token : Token) (first : String)
    (modifier : Modifier) :
    (token.underPrefix first).modified rootFontSize modifier =
      ((token.modified rootFontSize modifier).1,
        (token.modified rootFontSize modifier).2.map fun problem => problem.underPrefix first) := by
  have values : (token.underPrefix first).values = token.values := rfl
  unfold Token.modified
  rw [values]
  split
  · rfl
  · rfl
  · rfl

theorem Call.resolveAs_underPrefix (rootFontSize : Float) (call : Call) (token : Token)
    (first : String) :
    call.resolveAs rootFontSize (token.underPrefix first) =
      ((call.resolveAs rootFontSize token).1.underPrefix first,
        (call.resolveAs rootFontSize token).2.map fun problem => problem.underPrefix first) := by
  unfold Call.resolveAs
  cases call.modifier with
  | none => rfl
  | some modifier =>
    simp only [Token.modified_underPrefix]
    rfl

theorem Call.resolve_under {config : Config} (bare : config.namePrefix = none) {call : Call}
    (found : (config.find? call.path).isSome) (first : String) :
    call.resolve (config.under first) =
      ((call.resolve config).1.map fun token => token.underPrefix first,
        (call.resolve config).2.map fun problem => problem.underPrefix first) := by
  obtain ⟨token, held⟩ := Option.isSome_iff_exists.1 found
  have size : (config.under first).rootFontSize = config.rootFontSize := rfl
  simp only [Call.resolve, held, Config.find?_under bare held, size, Call.resolveAs_underPrefix,
    Option.map_some]

theorem Call.resolve_found {config : Config} {call : Call}
    (found : (config.find? call.path).isSome) :
    ∃ token, (call.resolve config).1 = some token ∧ token.name = call.name ∧
      token.location = call.location := by
  obtain ⟨token, held⟩ := Option.isSome_iff_exists.1 found
  refine ⟨(call.resolveAs config.rootFontSize token).1, ?_, rfl, rfl⟩
  simp only [Call.resolve, held]

section Resolved

variable {config : Config} {calls : List Call}

theorem resolve_in_order (resolves : ∀ call ∈ calls, (config.find? call.path).isSome) :
    (resolve config calls).1.map (fun token => (token.name, token.location)) =
      calls.map fun call => (call.name, call.location) := by
  rw [resolve, List.filterMap_map, List.map_filterMap, ← List.filterMap_eq_map]
  refine List.filterMap_congr fun call member => ?_
  obtain ⟨token, held, name, location⟩ := Call.resolve_found (resolves call member)
  rw [Function.comp_apply, held, Option.map_some, name, location]
  rfl

theorem resolve_tokens_under (bare : config.namePrefix = none)
    (resolves : ∀ call ∈ calls, (config.find? call.path).isSome) (first : String) :
    (resolve (config.under first) calls).1 =
      (resolve config calls).1.map fun token => token.underPrefix first := by
  simp only [resolve, List.filterMap_map, List.map_filterMap]
  refine List.filterMap_congr fun call member => ?_
  rw [Function.comp_apply, Call.resolve_under bare (resolves call member)]
  rfl

theorem resolve_problems (config : Config) (calls : List Call) :
    (resolve config calls).2 =
      (calls.filterMap fun call => (call.resolve config).2).map ResolutionProblem.diagnostic := by
  simp only [resolve, List.filterMap_map, List.map_filterMap]
  rfl

theorem resolve_problems_under (bare : config.namePrefix = none)
    (resolves : ∀ call ∈ calls, (config.find? call.path).isSome) (first : String) :
    (resolve (config.under first) calls).2 =
      (calls.filterMap fun call => (call.resolve config).2).map fun problem =>
        (problem.underPrefix first).diagnostic := by
  rw [resolve_problems, List.map_filterMap, List.map_filterMap]
  refine List.filterMap_congr fun call member => ?_
  rw [Call.resolve_under bare (resolves call member), Option.map_map]
  rfl

end Resolved

structure ResolvedAlike (config prefixed : Config) (first : String) (calls : List Call) : Prop where
  all : (resolve config calls).1.map (fun token => (token.name, token.location)) =
    calls.map fun call => (call.name, call.location)
  tokens : (resolve prefixed calls).1 =
    (resolve config calls).1.map fun token => token.underPrefix first
  inlined : ∀ token ∈ (resolve config calls).1, token.name = .value →
    (token.underPrefix first).replacement = token.replacement
  problems : ∃ problems : List ResolutionProblem,
    (resolve config calls).2 = problems.map ResolutionProblem.diagnostic ∧
    (resolve prefixed calls).2 = problems.map fun problem => (problem.underPrefix first).diagnostic
  warnings : countSeverity .warning (resolve prefixed calls).2 =
    countSeverity .warning (resolve config calls).2

/-- Calls that are all resolved without a prefix are resolved to the same values under any prefix,
be it the name of a table or not, and only the paths of the tokens gain it. -/
theorem prefix_keeps_values {settings : Settings} {config : Config}
    (made : Config.ofSettings settings = .ok config) (bare : Config.trimmedPrefix settings = none)
    {first : String} (clean : trimmed first = first) (filled : first ≠ "")
    (undotted : '.' ∉ first.toList) {calls : List Call}
    (resolves : ∀ call ∈ calls, (config.find? call.path).isSome) :
    ∃ prefixed, Config.ofSettings { settings with namePrefix := some first } = .ok prefixed ∧
      ResolvedAlike config prefixed first calls := by
  have plain : config.namePrefix = none := by
    rw [Config.of_ofSettings made, bare]
  have before := resolve_problems config calls
  have after := resolve_problems_under plain resolves first
  refine ⟨config.under first, Config.ofSettings_under made bare clean filled undotted,
    resolve_in_order resolves, resolve_tokens_under plain resolves first, ?_,
    ⟨_, before, after⟩, ?_⟩
  · intro token _ value
    simp only [ResolvedToken.replacement, ResolvedToken.underPrefix, value]
    rfl
  · rw [before, after, countSeverity, countSeverity, List.countP_map, List.countP_map]
    rfl

def tableNamedAsPrefix : Settings :=
  .ofTokens (.entry "app" (.table (.entry "x" (.text "1px") .empty))
    (.entry "x" (.text "2px") (.entry "pair" (.text "1px 2px") .empty)))

theorem table_name_as_prefix_keeps_values :
    let config : Config := ⟨tableNamedAsPrefix, none, none,
      indexLeaves none tableNamedAsPrefix.tokens.leaves⟩
    let calls : List Call := [.value ⟨["app", "x"]⟩ none ⟨4, 20⟩, .token ⟨["x"]⟩ ⟨24, 36⟩,
      .value ⟨["pair"]⟩ (some .negate) ⟨40, 60⟩]
    (Config.ofSettings tableNamedAsPrefix = .ok config ∧
      Config.trimmedPrefix tableNamedAsPrefix = none ∧ trimmed "app" = "app" ∧ "app" ≠ "" ∧
      '.' ∉ "app".toList ∧ ∀ call ∈ calls, (config.find? call.path).isSome) ∧
    ∃ prefixed, Config.ofSettings { tableNamedAsPrefix with namePrefix := some "app" } =
        .ok prefixed ∧ ResolvedAlike config prefixed "app" calls := by
  intro config calls
  have bare : Config.trimmedPrefix tableNamedAsPrefix = none := by
    simp [Config.trimmedPrefix, tableNamedAsPrefix, Settings.ofTokens]
  have made : Config.ofSettings tableNamedAsPrefix = .ok config :=
    Config.ofSettings_checked (by decide +kernel) (by simp [bare])
  have clean : trimmed "app" = "app" := by decide +kernel
  have undotted : '.' ∉ "app".toList := by decide +kernel
  have resolves : ∀ call ∈ calls, (config.find? call.path).isSome := by decide +kernel
  exact ⟨⟨made, bare, clean, by decide, undotted, resolves⟩,
    prefix_keeps_values made bare clean (by decide) undotted resolves⟩

end DesignTokens
