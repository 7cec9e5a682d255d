import DesignTokens.Proofs.DotPaths
import DesignTokens.Proofs.LeafIndex
import DesignTokens.Proofs.Transformation

/-!
Looking tokens up by their paths. A path is tried as it is written, that is without the prefix,
before the prefix is taken off. So the path of a token, which has the prefix, leads to the token
unless the keys of another token spell the same path, and a name of the index leads to its token
when it is read as it is written.
-/

namespace DesignTokens

open DesignTokens.Text

theorem TokenTable.Holds.top_key {table : TokenTable} {keys : List String} {node : TokenNode}
    (holds : table.Holds keys node) :
    ∃ key rest top, keys = key :: rest ∧ (key, top) ∈ table.toList := by
  cases holds with
  | here entry => exact ⟨_, [], _, rfl, entry⟩
  | inside entry _ => exact ⟨_, _, _, rfl, entry⟩

theorem toList_joinWith_cons (first : String) {keys : List String} (filled : keys ≠ []) :
    (joinWith ['.'] (first :: keys)).toList =
      first.toList ++ '.' :: (joinWith ['.'] keys).toList := by
  obtain ⟨next, others, rfl⟩ := List.exists_cons_of_ne_nil filled
  simp [joinWith, List.intercalate_cons_cons]

/-- Keys that spell a prefix, a dot and more have the prefix as their first key, or the first key
goes on from it. -/
theorem first_key_of_spelled {first : String} {others : List String} {before after : List Char}
    (undotted : '.' ∉ before)
    (spelled : (joinWith ['.'] (first :: others)).toList = before ++ '.' :: after) :
    first.toList = before ∨ before ++ ['.'] <+: first.toList := by
  obtain ⟨tail, written, dotted⟩ : ∃ tail, first.toList ++ tail = before ++ '.' :: after ∧
      (tail = [] ∨ tail.head? = some '.') := by
    by_cases none : others = []
    · refine ⟨[], ?_, Or.inl rfl⟩
      simpa [none, joinWith] using spelled
    · exact ⟨_, (toList_joinWith_cons first none).symm.trans spelled, Or.inr rfl⟩
  rcases List.append_eq_append_iff.1 written with ⟨more, longer, rest⟩ | ⟨more, longer, rest⟩
  · -- The first key ends within the prefix, which has no dot, so it ends where the prefix does.
    cases more with
    | nil => exact Or.inl (by rw [longer, List.append_nil])
    | cons c more =>
      rw [rest] at dotted
      have dot : c = '.' := by simpa using dotted
      exact absurd (by rw [longer, dot]; simp) undotted
  · cases more with
    | nil => exact Or.inl (by rw [longer, List.append_nil])
    | cons c more =>
      have dot : '.' = c := (List.cons.inj rest).1
      exact Or.inr ⟨more, by rw [longer, ← dot, List.append_assoc, List.singleton_append]⟩

namespace Config

section Lookup

variable {config : Config}

theorem find?_direct {path : TokenPath} {token : Token}
    (held : config.index.get? path.dotPath = some token) : config.find? path = some token := by
  rw [find?, held]

theorem find?_prefixed {namePrefix : String} {keys : List String}
    (named : config.namePrefix = some namePrefix) (filled : keys ≠ [])
    (missing : config.index.get? (TokenPath.mk (namePrefix :: keys)).dotPath = none) :
    config.find? ⟨namePrefix :: keys⟩ = config.index.get? (joinWith ['.'] keys) := by
  obtain ⟨next, others, rfl⟩ := List.exists_cons_of_ne_nil filled
  simp only [find?, missing, named, if_true]

theorem find?_cases {path : TokenPath} {token : Token} (found : config.find? path = some token) :
    config.index.get? path.dotPath = some token ∨
      ∃ namePrefix keys, config.namePrefix = some namePrefix ∧ keys ≠ [] ∧
        path.segments = namePrefix :: keys ∧
        config.index.get? (joinWith ['.'] keys) = some token := by
  unfold find? at found
  split at found
  · rename_i held
    exact Or.inl (held.trans found)
  · split at found
    · rename_i namePrefix first second rest named segments
      split at found
      · rename_i same
        exact Or.inr ⟨namePrefix, second :: rest, named, List.cons_ne_nil _ _, same ▸ segments,
          found⟩
      · contradiction
    · contradiction

/-- The keys of one token, without the prefix, spell the path of another, which has it. -/
def Shadows (config : Config) (other token : Token) : Prop :=
  other ∈ config.tokens ∧ other ≠ token ∧
    joinWith ['.'] (config.keysOf other) = token.path.dotPath

end Lookup

section Accepted

variable {config : Config} (accepted : config.Accepted)
include accepted

/-- A name of the index leads to its token exactly when reading does not change it. -/
theorem Accepted.get?_iff_canonical {name : String} {token : Token}
    (held : config.index.get? name = some token) :
    config.get? name = some token ↔ CanonicalDotPath name.toList := by
  obtain ⟨_, spelled⟩ := accepted.get?_eq_some_iff.1 held
  rw [← dotPath_ofDotPath_iff]
  constructor
  · intro found
    rcases find?_cases found with direct | ⟨namePrefix, keys, _, filled, segments, rest⟩
    · rw [← (accepted.get?_eq_some_iff.1 direct).2, spelled]
    · -- The path that was read would have the whole name in it and the prefix before that.
      have same : joinWith ['.'] keys = name := by
        rw [← (accepted.get?_eq_some_iff.1 rest).2, spelled]
      have shorter := length_dotPath_ofDotPath name
      rw [TokenPath.dotPath, segments, toList_joinWith_cons _ filled, same, List.length_append,
        List.length_cons] at shorter
      omega
  · intro same
    exact find?_direct (by rw [same, held])

variable {token : Token}

theorem Accepted.find?_own (member : token ∈ config.tokens)
    (alone : ∀ other, ¬ config.Shadows other token) :
    config.find? token.path = some token := by
  obtain ⟨filled, segments⟩ := accepted.segments_eq member
  have held : config.index.get? (joinWith ['.'] (config.keysOf token)) = some token :=
    accepted.get?_eq_some_iff.2 ⟨member, rfl⟩
  cases whole : config.index.get? token.path.dotPath with
  | some other =>
    obtain ⟨inside, spelled⟩ := accepted.get?_eq_some_iff.1 whole
    have same : other = token := by_contra fun different => alone other ⟨inside, different, spelled⟩
    rw [find?_direct whole, same]
  | none =>
    cases named : config.namePrefix with
    | none =>
      rw [named] at segments
      rw [TokenPath.dotPath, segments, Option.toList_none, List.nil_append, held] at whole
      contradiction
    | some namePrefix =>
      rw [named] at segments
      have path : token.path = ⟨namePrefix :: config.keysOf token⟩ := congrArg TokenPath.mk segments
      rw [path] at whole ⊢
      rw [find?_prefixed named filled whole, held]

theorem Accepted.find?_shadowed {other : Token} (shadow : config.Shadows other token) :
    config.find? token.path = some other :=
  find?_direct (accepted.get?_eq_some_iff.2 ⟨shadow.1, shadow.2.2⟩)

theorem Accepted.leaf_of_token (member : token ∈ config.tokens) :
    ∃ leaf ∈ config.settings.tokens.leaves, config.keysOf token = leaf.keys := by
  obtain ⟨name, held⟩ := mem_tokens.1 member
  obtain ⟨leaf, listed, same⟩ := accepted.leaf_of_entry held
  obtain ⟨_, rfl⟩ := Prod.mk.inj same
  exact ⟨leaf, listed, List.drop_left⟩

/-- A token is shadowed only under a prefix, and only by a token below a key of the whole table that
is the prefix or goes on from it with a dot. -/
theorem Accepted.key_of_shadow (member : token ∈ config.tokens) {other : Token}
    (shadow : config.Shadows other token) :
    ∃ namePrefix key node, config.namePrefix = some namePrefix ∧
      (key, node) ∈ config.settings.tokens.toList ∧
      (key = namePrefix ∨ namePrefix.toList ++ ['.'] <+: key.toList) := by
  obtain ⟨inside, different, spelled⟩ := shadow
  obtain ⟨filled, segments⟩ := accepted.segments_eq member
  obtain ⟨leaf, listed, keys⟩ := accepted.leaf_of_token inside
  obtain ⟨node, holds, _⟩ := TokenTable.mem_leaves.1 listed
  obtain ⟨key, rest, top, first, entry⟩ := holds.top_key
  cases named : config.namePrefix with
  | none =>
    rw [named, Option.toList_none, List.nil_append] at segments
    rw [TokenPath.dotPath, segments] at spelled
    exact absurd (accepted.token_of_keys inside member spelled) different
  | some namePrefix =>
    rw [named, Option.toList_some, List.singleton_append] at segments
    rw [TokenPath.dotPath, segments, keys, first, ← String.toList_inj,
      toList_joinWith_cons namePrefix filled] at spelled
    refine ⟨namePrefix, key, top, rfl, entry, ?_⟩
    rw [← String.toList_inj]
    exact first_key_of_spelled (accepted.undotted namePrefix named) spelled

end Accepted

end Config

/-! What calls for a token by its own path resolve to. -/

def Token.written (token : Token) (location : Span) : ResolvedToken :=
  ⟨.value, token.path, token.values, [token.raw], location⟩

theorem resolve_value {config : Config} {path : TokenPath} {found : Token}
    (looked : config.find? path = some found) (location : Span) :
    resolve config [.value path none location] = ([found.written location], []) := by
  have step : (Call.value path none location).resolve config =
      (some (found.written location), none) := by
    simp only [Call.resolve, Call.path, looked]
    rfl
  simp only [resolve, List.map_cons, List.map_nil, step, List.filterMap_cons, List.filterMap_nil,
    Option.map_none]

theorem resolveAll_eq (config : Config) :
    resolveAll config = (config.tokens.map fun token => token.written Span.empty, []) := by
  refine Prod.ext ?_ (resolveAll_quiet config)
  rw [resolveAll, List.map_map]
  rfl

/-- What the path of a token of a configuration leads to. -/
structure FoundByPath (config : Config) (token : Token) : Prop where
  own : config.find? token.path = some token ↔ ∀ other, ¬ config.Shadows other token
  shadowed : ∀ other, config.Shadows other token → config.find? token.path = some other
  /-- This takes a prefix, and a key of the whole table that is the prefix or goes on from it with
  a dot. -/
  underPrefix : ∀ other, config.Shadows other token → ∃ namePrefix key node,
    config.namePrefix = some namePrefix ∧ (key, node) ∈ config.settings.tokens.toList ∧
      (key = namePrefix ∨ namePrefix.toList ++ ['.'] <+: key.toList)
  resolved : ∀ found, config.find? token.path = some found → ∀ location,
    resolve config [.value token.path none location] = ([found.written location], [])
  listed : resolveAll config = (config.tokens.map fun token => token.written Span.empty, [])

/-- The path of a token leads back to the token, unless the keys of another token spell it. -/
theorem own_path_found {config : Config} (accepted : config.Accepted) {token : Token}
    (member : token ∈ config.tokens) : FoundByPath config token := by
  refine ⟨⟨fun found other shadow => ?_, accepted.find?_own member⟩,
    fun other => accepted.find?_shadowed, fun other => accepted.key_of_shadow member,
    fun found looked location => resolve_value looked location, resolveAll_eq config⟩
  have same : some other = some token := (accepted.find?_shadowed shadow).symm.trans found
  exact shadow.2.1 (Option.some.inj same)

def prefixedTable : Settings :=
  { Settings.ofTokens (.entry "app" (.table (.entry "x" (.text "1px") .empty))
      (.entry "x" (.text "2px") .empty)) with namePrefix := some "app" }

theorem ofSettings_prefixedTable : Config.ofSettings prefixedTable =
    .ok ⟨prefixedTable, some "app", none,
      indexLeaves (some "app") prefixedTable.tokens.leaves⟩ := by
  have short : Config.trimmedPrefix prefixedTable = some "app" := by decide +kernel
  rw [← short]
  exact Config.ofSettings_checked (by decide +kernel) (by decide +kernel)

theorem prefixed_table_path_found :
    let config : Config := ⟨prefixedTable, some "app", none,
      indexLeaves (some "app") prefixedTable.tokens.leaves⟩
    let token : Token := ⟨⟨["app", "app", "x"]⟩, "1px"⟩
    (config.Accepted ∧ token ∈ config.tokens) ∧ FoundByPath config token := by
  intro config token
  have accepted : config.Accepted := Config.accepted_ofSettings ofSettings_prefixedTable
  have member : token ∈ config.tokens := by decide +kernel
  exact ⟨⟨accepted, member⟩, own_path_found accepted member⟩

/-- A token whose own path leads to another token, and to the value of that one. -/
theorem shadowed_path_misleads :
    ∃ config : Config, Config.ofSettings prefixedTable = .ok config ∧ ∃ token ∈ config.tokens,
      config.find? token.path ≠ some token ∧
      (resolve config [.value token.path none Span.empty]).1.map ResolvedToken.valueText ≠
        [(token.written Span.empty).valueText] := by
  refine ⟨_, ofSettings_prefixedTable, ⟨⟨["app", "x"]⟩, "2px"⟩, ?_, ?_, ?_⟩
  all_goals decide +kernel

/-! Names of the index as dot paths. -/

/-- A text has one division at its separator dots, and it is read and written back as it is when no
piece of that has blanks at an end and the text ends with no dot. Just then a name of an index
leads to the token that the index holds under it. -/
theorem canonical_name_found (text : String) :
    (∃! pieces, DotPieces text.toList pieces) ∧
    ((TokenPath.ofDotPath text).dotPath = text ↔ CanonicalDotPath text.toList) ∧
    ∀ config : Config, config.Accepted → ∀ token, config.index.get? text = some token →
      (config.get? text = some token ↔ CanonicalDotPath text.toList) := by
  refine ⟨existsUnique_dotPieces text.toList, dotPath_ofDotPath_iff text,
    fun config accepted token held => ?_⟩
  exact accepted.get?_iff_canonical held

def spelledKeys : Settings :=
  .ofTokens (.entry "size" (.table (.entry "0.5" (.text "2px") .empty))
    (.entry "a.b" (.text "1px") (.entry "c " (.text "3px") .empty)))

theorem ofSettings_spelledKeys : Config.ofSettings spelledKeys =
    .ok ⟨spelledKeys, none, none, indexLeaves none spelledKeys.tokens.leaves⟩ :=
  Config.ofSettings_checked (by decide +kernel) (by simp [Config.trimmedPrefix, spelledKeys,
    Settings.ofTokens])

theorem decimal_name_found :
    let config : Config := ⟨spelledKeys, none, none, indexLeaves none spelledKeys.tokens.leaves⟩
    let token : Token := ⟨⟨["size", "0.5"]⟩, "2px"⟩
    (config.Accepted ∧ config.index.get? "size.0.5" = some token) ∧
      (config.get? "size.0.5" = some token ↔ CanonicalDotPath "size.0.5".toList) := by
  intro config token
  have accepted : config.Accepted := Config.accepted_ofSettings ofSettings_spelledKeys
  have held : config.index.get? "size.0.5" = some token := by decide +kernel
  exact ⟨⟨accepted, held⟩, (canonical_name_found "size.0.5").2.2 config accepted token held⟩

example : CanonicalDotPath "size.0.5".toList ∧ ¬ CanonicalDotPath "c ".toList := by
  decide +kernel

end DesignTokens
