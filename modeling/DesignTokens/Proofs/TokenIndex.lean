import DesignTokens.Config
import DesignTokens.Proofs.Registers

/-!
The tokens of an accepted configuration. Each comes from one leaf of the table: its path is the
prefix and the keys of the leaf, and the index holds it under the keys alone. So a token is known by
its dot path, with or without the prefix.
-/

namespace DesignTokens

theorem directLeaves_keys {above : List String} {table : TokenTable} {leaf : TokenLeaf}
    (member : leaf ∈ table.directLeaves above) : leaf.keys ≠ [] := by
  rw [TokenTable.directLeaves, List.mem_filterMap] at member
  obtain ⟨⟨key, node⟩, _, read⟩ := member
  obtain ⟨text, _, rfl⟩ := Option.map_eq_some_iff.1 read
  exact List.append_ne_nil_of_right_ne_nil above (List.cons_ne_nil key [])

mutual

theorem TokenNode.nestedLeaves_keys {above : List String} (node : TokenNode) {leaf : TokenLeaf}
    (member : leaf ∈ node.nestedLeaves above) : leaf.keys ≠ [] := by
  match node with
  | .text _ => contradiction
  | .number _ => contradiction
  | .table entries =>
    rw [TokenNode.nestedLeaves, List.mem_append] at member
    exact member.elim directLeaves_keys (TokenTable.nestedLeaves_keys entries)

theorem TokenTable.nestedLeaves_keys {above : List String} (table : TokenTable) {leaf : TokenLeaf}
    (member : leaf ∈ table.nestedLeaves above) : leaf.keys ≠ [] := by
  match table with
  | .empty => contradiction
  | .entry key node rest =>
    rw [TokenTable.nestedLeaves, List.mem_append] at member
    exact member.elim (TokenNode.nestedLeaves_keys node) (TokenTable.nestedLeaves_keys rest)

end

theorem leaves_keys {table : TokenTable} {leaf : TokenLeaf} (member : leaf ∈ table.leaves) :
    leaf.keys ≠ [] :=
  (List.mem_append.1 member).elim directLeaves_keys (TokenTable.nestedLeaves_keys table)

theorem indexLeaves_eq (namePrefix : Option String) (leaves : List TokenLeaf) :
    indexLeaves namePrefix leaves =
      Register.empty.putAll TokenLeaf.dotPath (TokenLeaf.token namePrefix) leaves :=
  rfl

/-- A configuration made from settings that passed their checks, wherever they were read from. -/
def Config.Accepted (config : Config) : Prop :=
  Config.ofSettings config.settings = .ok { config with source := none }

namespace Config

theorem of_ofSettings {settings : Settings} {config : Config}
    (made : Config.ofSettings settings = .ok config) :
    config = ⟨settings, trimmedPrefix settings, none,
      indexLeaves (trimmedPrefix settings) settings.tokens.leaves⟩ := by
  unfold ofSettings at made
  split at made
  · contradiction
  · cases trimmed : trimmedPrefix settings with
    | none =>
      rw [trimmed] at made
      exact (Except.ok.inj made).symm
    | some namePrefix =>
      simp only [trimmed] at made
      split at made
      · contradiction
      · exact (Except.ok.inj made).symm

theorem ofSettings_checked {settings : Settings}
    (size : (settings.rootFontSize.isFinite && decide (0.0 < settings.rootFontSize)) = true)
    (undotted : ∀ namePrefix ∈ trimmedPrefix settings, namePrefix.toList.contains '.' = false) :
    Config.ofSettings settings = .ok ⟨settings, trimmedPrefix settings, none,
      indexLeaves (trimmedPrefix settings) settings.tokens.leaves⟩ := by
  rw [ofSettings, size, if_neg (by simp)]
  cases named : trimmedPrefix settings with
  | none => rfl
  | some namePrefix =>
    have free := undotted namePrefix named
    simp only [free, Bool.false_eq_true, if_false]

theorem undotted_of_ofSettings {settings : Settings} {config : Config}
    (made : Config.ofSettings settings = .ok config) :
    ∀ namePrefix ∈ trimmedPrefix settings, '.' ∉ namePrefix.toList := by
  intro namePrefix named dotted
  unfold ofSettings at made
  split at made
  · contradiction
  · rw [Option.mem_def.1 named] at made
    simp [dotted] at made

theorem accepted_ofSettings {settings : Settings} {config : Config}
    (made : Config.ofSettings settings = .ok config) : config.Accepted := by
  have shape := of_ofSettings made
  rw [Accepted, shape]
  rwa [shape] at made

variable {config : Config}

theorem Accepted.index_eq (accepted : config.Accepted) :
    config.index = indexLeaves config.namePrefix config.settings.tokens.leaves := by
  have shape := of_ofSettings accepted
  have named := congrArg namePrefix shape
  have held := congrArg index shape
  dsimp only at named held
  rw [held, named]

theorem Accepted.undotted (accepted : config.Accepted) :
    ∀ namePrefix ∈ config.namePrefix, '.' ∉ namePrefix.toList := by
  have named := congrArg namePrefix (of_ofSettings accepted)
  dsimp only at named
  rw [named]
  exact undotted_of_ofSettings accepted

theorem Accepted.nodup (accepted : config.Accepted) : config.index.names.Nodup := by
  rw [accepted.index_eq, indexLeaves_eq, Register.names_putAll]
  exact Register.nodup_eraseDups _

theorem Accepted.leaf_of_entry (accepted : config.Accepted) {entry : String × Token}
    (member : entry ∈ config.index.entries) :
    ∃ leaf ∈ config.settings.tokens.leaves, entry = (leaf.dotPath, leaf.token config.namePrefix) := by
  rw [accepted.index_eq, indexLeaves_eq] at member
  exact Register.mem_putAll _ _ member

theorem Accepted.leaf (accepted : config.Accepted) {entry : String × Token}
    (member : entry ∈ config.index.entries) :
    ∃ leaf : TokenLeaf, leaf.keys ≠ [] ∧
      entry = (leaf.dotPath, leaf.token config.namePrefix) := by
  obtain ⟨leaf, found, same⟩ := accepted.leaf_of_entry member
  exact ⟨leaf, leaves_keys found, same⟩

theorem mem_tokens {token : Token} :
    token ∈ config.tokens ↔ ∃ name, (name, token) ∈ config.index.entries := by
  rw [tokens, Register.values, List.mem_map]
  exact ⟨fun ⟨(name, _), member, same⟩ => ⟨name, same ▸ member⟩,
    fun ⟨name, member⟩ => ⟨(name, token), member, rfl⟩⟩

theorem mem_of_find? {path : TokenPath} {token : Token} (found : config.find? path = some token) :
    token ∈ config.tokens := by
  unfold find? at found
  split at found
  · rename_i direct
    cases found
    exact mem_tokens.2 ⟨_, Register.mem_of_get? direct⟩
  · split at found
    · split at found
      · exact mem_tokens.2 ⟨_, Register.mem_of_get? found⟩
      · contradiction
    · contradiction

end Config

def Config.keysOf (config : Config) (token : Token) : List String :=
  token.path.segments.drop config.namePrefix.toList.length

/-- Texts after a prefix, if there is one, are joined the same only if they are the same without
it. -/
theorem joinWith_after_first {separator : List Char} {namePrefix : Option String}
    {left right : List String} (filled : left ≠ []) (some : right ≠ [])
    (same : joinWith separator (namePrefix.toList ++ left) =
      joinWith separator (namePrefix.toList ++ right)) :
    joinWith separator left = joinWith separator right := by
  cases namePrefix with
  | none => exact same
  | some first =>
    obtain ⟨one, others, rfl⟩ := List.exists_cons_of_ne_nil filled
    obtain ⟨two, rest, rfl⟩ := List.exists_cons_of_ne_nil some
    have lists := congrArg String.toList same
    simp only [joinWith, String.toList_ofList, Option.toList_some, List.singleton_append,
      List.map_cons, List.intercalate_cons_cons, List.append_cancel_left_eq] at lists
    exact congrArg String.ofList lists

namespace Config

variable {config : Config} (accepted : config.Accepted)
include accepted

theorem Accepted.entry_eq {name : String} {token : Token}
    (member : (name, token) ∈ config.index.entries) :
    config.keysOf token ≠ [] ∧ name = joinWith ['.'] (config.keysOf token) ∧
      token.path.segments = config.namePrefix.toList ++ config.keysOf token := by
  obtain ⟨leaf, filled, same⟩ := accepted.leaf member
  obtain ⟨rfl, rfl⟩ := Prod.mk.inj same
  have keys : config.keysOf (leaf.token config.namePrefix) = leaf.keys := List.drop_left
  rw [keys]
  exact ⟨filled, rfl, rfl⟩

/-- The index holds each token under its joined keys, and under nothing else. -/
theorem Accepted.get?_eq_some_iff {name : String} {token : Token} :
    config.index.get? name = some token ↔
      token ∈ config.tokens ∧ joinWith ['.'] (config.keysOf token) = name := by
  constructor
  · intro found
    have held := Register.mem_of_get? found
    exact ⟨mem_tokens.2 ⟨name, held⟩, (accepted.entry_eq held).2.1.symm⟩
  · rintro ⟨member, rfl⟩
    obtain ⟨name, held⟩ := mem_tokens.1 member
    rw [← (accepted.entry_eq held).2.1]
    exact Register.get?_of_mem accepted.nodup held

theorem Accepted.segments_eq {token : Token} (member : token ∈ config.tokens) :
    config.keysOf token ≠ [] ∧
      token.path.segments = config.namePrefix.toList ++ config.keysOf token := by
  obtain ⟨name, held⟩ := mem_tokens.1 member
  obtain ⟨filled, _, segments⟩ := accepted.entry_eq held
  exact ⟨filled, segments⟩

theorem Accepted.joined_keys {separator : List Char} {left right : Token}
    (first : left ∈ config.tokens) (second : right ∈ config.tokens)
    (same : joinWith separator left.path.segments = joinWith separator right.path.segments) :
    joinWith separator (config.keysOf left) = joinWith separator (config.keysOf right) := by
  obtain ⟨filled, segments⟩ := accepted.segments_eq first
  obtain ⟨some, parts⟩ := accepted.segments_eq second
  rw [segments, parts] at same
  exact joinWith_after_first filled some same

/-- Two tokens with the same keys, up to the place of their dots, are the same token. -/
theorem Accepted.token_of_keys {left right : Token} (first : left ∈ config.tokens)
    (second : right ∈ config.tokens)
    (same : joinWith ['.'] (config.keysOf left) = joinWith ['.'] (config.keysOf right)) :
    left = right := by
  obtain ⟨name, held⟩ := mem_tokens.1 first
  obtain ⟨other, kept⟩ := mem_tokens.1 second
  obtain ⟨_, written, _⟩ := accepted.entry_eq held
  obtain ⟨_, spelled, _⟩ := accepted.entry_eq kept
  have names : name = other := by rw [written, spelled, same]
  exact congrArg Prod.snd (Register.entry_of_name accepted.nodup held kept names)

theorem Accepted.token_of_dotPath {left right : Token} (first : left ∈ config.tokens)
    (second : right ∈ config.tokens) (same : left.path.dotPath = right.path.dotPath) :
    left = right :=
  accepted.token_of_keys first second (accepted.joined_keys first second same)

end Config

end DesignTokens
