import DesignTokens.Proofs.Emission
import DesignTokens.Proofs.Naming
import DesignTokens.Proofs.TokenIndex

/-!
Whether a custom property holds the value of its token. All tokens of a configuration are declared
in the order of the index, and of several declarations of one name the last one counts. Two tokens
share a name exactly when their segments give the same word, which takes a hyphen inside a key.
-/

namespace DesignTokens

/-- The value that the last declaration of a name gives it. -/
def declaredValue (name : String) (properties : List Property) : Option String :=
  (properties.reverse.find? fun property => property.name = name).map Property.value

/-- A reference to a token is replaced by a reference to its custom property. -/
theorem replacement_of_reference {config : Config} {path : TokenPath} {token : Token}
    (found : config.find? path = some token) (location : Text.Span) :
    ((Call.token path location).resolve config).1.map ResolvedToken.replacement =
      some ("var(" ++ token.path.cssVariable ++ ")") := by
  simp only [Call.resolve, Call.path, found, Call.resolveAs, Option.map_some]
  rfl

theorem declaredValue_last {before after : List Token} {last : Token}
    (others : ∀ token ∈ after, token.path.cssVariable ≠ last.path.cssVariable) :
    declaredValue last.path.cssVariable ((before ++ last :: after).map Token.property) =
      some last.raw := by
  have nothing : (after.map Token.property).reverse.find?
      (fun property => property.name = last.path.cssVariable) = none := by
    rw [List.find?_eq_none]
    intro property member
    obtain ⟨token, found, rfl⟩ := List.mem_map.1 (List.mem_reverse.1 member)
    exact fun same => others token found (of_decide_eq_true same)
  have here : decide (last.property.name = last.path.cssVariable) = true := decide_eq_true rfl
  rw [declaredValue, List.map_append, List.map_cons, List.reverse_append, List.reverse_cons,
    List.append_assoc, List.find?_append, nothing, List.singleton_append, List.find?_cons, here]
  rfl

theorem exists_last {α : Type} {p : α → Prop} {list : List α} (some : ∃ item ∈ list, p item) :
    ∃ before last after, list = before ++ last :: after ∧ p last ∧ ∀ item ∈ after, ¬ p item := by
  induction list with
  | nil => simp at some
  | cons first rest ih =>
    by_cases later : ∃ item ∈ rest, p item
    · obtain ⟨before, last, after, rfl, found, none⟩ := ih later
      exact ⟨first :: before, last, after, rfl, found, none⟩
    · obtain ⟨item, member, found⟩ := some
      have none : ∀ item ∈ rest, ¬ p item := fun item inside kind => later ⟨item, inside, kind⟩
      rcases List.mem_cons.1 member with rfl | inside
      · exact ⟨[], item, rest, rfl, found, none⟩
      · exact absurd found (none item inside)

/-- Two tokens with one word are the same token unless a key of one of them has a hyphen. -/
theorem hyphen_of_clash {config : Config} (accepted : config.Accepted) {left right : Token}
    (first : left ∈ config.tokens) (second : right ∈ config.tokens)
    (same : left.path.word = right.path.word) (different : left ≠ right) :
    ∃ key ∈ config.keysOf left ++ config.keysOf right, '-' ∈ key.toList := by
  by_contra none
  have keys := joinWith_injective (accepted.segments_eq first).1 (accepted.segments_eq second).1
    (fun key member inside => none ⟨key, member, inside⟩) (accepted.joined_keys first second same)
  exact different (accepted.token_of_keys first second (by rw [keys]))

/-- How a token is declared when all tokens of its configuration are emitted. -/
structure LastDeclared (config : Config) (token : Token) : Prop where
  reference : ∀ path location, config.find? path = some token →
    ((Call.token path location).resolve config).1.map ResolvedToken.replacement =
      some ("var(" ++ token.path.cssVariable ++ ")")
  declarations : ∀ style, emit style (resolveAll config).1 =
    sheet style (config.tokens.map Token.property)
  last : ∃ before last after, config.tokens = before ++ last :: after ∧
    last.path.word = token.path.word ∧ (∀ other ∈ after, other.path.word ≠ token.path.word) ∧
    declaredValue token.path.cssVariable (config.tokens.map Token.property) = some last.raw
  own : (∀ other ∈ config.tokens, other.path.word = token.path.word → other.raw = token.raw) →
    declaredValue token.path.cssVariable (config.tokens.map Token.property) = some token.raw
  shared : ∀ other ∈ config.tokens,
    other.path.cssVariable = token.path.cssVariable ↔ other.path.word = token.path.word
  hyphen : ∀ other ∈ config.tokens, other.path.word = token.path.word → other ≠ token →
    ∃ key ∈ config.keysOf other ++ config.keysOf token, '-' ∈ key.toList

/-- The custom property of a token holds the value of the last token with the same word, which is
its own value unless a hyphen inside a key makes two words the same. -/
theorem last_token_of_word_declared {config : Config} (accepted : config.Accepted) {token : Token}
    (member : token ∈ config.tokens) : LastDeclared config token := by
  obtain ⟨before, last, after, split, word, others⟩ :=
    exists_last (p := fun other : Token => other.path.word = token.path.word) ⟨token, member, rfl⟩
  have named : token.path.cssVariable = last.path.cssVariable :=
    TokenPath.cssVariable_inj.2 word.symm
  have value : declaredValue token.path.cssVariable (config.tokens.map Token.property) =
      some last.raw := by
    rw [split, named]
    refine declaredValue_last fun other found same => others other found ?_
    exact (TokenPath.cssVariable_inj.1 same).trans word
  refine ⟨fun path location found => replacement_of_reference found location, fun style => ?_,
    ⟨before, last, after, split, word, others, value⟩, fun agree => ?_,
    fun other _ => TokenPath.cssVariable_inj, fun other inside => hyphen_of_clash accepted inside
      member⟩
  · rw [emit_eq_sheet, properties_resolveAll]
  · rw [value, agree last (by rw [split]; simp) word]

def clashing : Settings :=
  .ofTokens (.entry "a" (.table (.entry "b" (.text "1px") .empty))
    (.entry "a-b" (.text "2px") .empty))

theorem ofSettings_clashing : Config.ofSettings clashing =
    .ok ⟨clashing, none, none, indexLeaves none clashing.tokens.leaves⟩ :=
  Config.ofSettings_checked (by decide +kernel) (by simp [Config.trimmedPrefix, clashing,
    Settings.ofTokens])

theorem nested_token_declared :
    let config : Config := ⟨clashing, none, none, indexLeaves none clashing.tokens.leaves⟩
    let token : Token := ⟨⟨["a", "b"]⟩, "1px"⟩
    (config.Accepted ∧ token ∈ config.tokens) ∧ LastDeclared config token := by
  intro config token
  have accepted : config.Accepted := Config.accepted_ofSettings ofSettings_clashing
  have member : token ∈ config.tokens := by decide +kernel
  exact ⟨⟨accepted, member⟩, last_token_of_word_declared accepted member⟩

/-- A token whose custom property holds the value of another token. -/
theorem hyphenated_token_overwritten :
    ∃ config : Config, Config.ofSettings clashing = .ok config ∧
      ∃ token ∈ config.tokens, ∃ other ∈ config.tokens,
        token.raw ≠ other.raw ∧ token.path.cssVariable = other.path.cssVariable ∧
        declaredValue token.path.cssVariable ((resolveAll config).1.map ResolvedToken.property) ≠
          some token.raw := by
  refine ⟨_, ofSettings_clashing, ⟨⟨["a-b"]⟩, "2px"⟩, ?_, ⟨⟨["a", "b"]⟩, "1px"⟩, ?_, ?_, ?_, ?_⟩
  all_goals decide +kernel

end DesignTokens
