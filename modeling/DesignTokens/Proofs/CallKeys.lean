import DesignTokens.Call
import DesignTokens.Proofs.Text.Fingerprints

/-!
The keys under which results of calls are kept. A key ends in the fingerprints that were put in, and
no fingerprint holds a colon. So a key is cut at its last colons, whatever the path before them
holds, and two keys are the same exactly when their parts are.
-/

namespace DesignTokens

open DesignTokens.Text

theorem eq_nil_of_cons_eq {α : Type} {mark : α} {skipped left right : List α} (free : mark ∉ left)
    (same : mark :: left = skipped ++ mark :: right) : skipped = [] := by
  cases skipped with
  | nil => rfl
  | cons first others =>
    have rest : left = others ++ mark :: right := (List.cons.inj same).2
    exact absurd (rest ▸ List.mem_append_right others List.mem_cons_self) free

theorem append_last_mark_inj {α : Type} {mark : α} {front back left right : List α}
    (free : mark ∉ left) (free' : mark ∉ right) :
    front ++ mark :: left = back ++ mark :: right ↔ front = back ∧ left = right := by
  constructor
  · intro same
    rcases List.append_eq_append_iff.1 same with ⟨skipped, longer, rest⟩ | ⟨skipped, longer, rest⟩
    · have none := eq_nil_of_cons_eq free rest
      subst none
      exact ⟨(longer.trans (List.append_nil front)).symm, (List.cons.inj rest).2⟩
    · have none := eq_nil_of_cons_eq free' rest
      subst none
      exact ⟨longer.trans (List.append_nil back), (List.cons.inj rest).2.symm⟩
  · rintro ⟨rfl, rfl⟩
    rfl

/-- Texts that end in a colon and a fingerprint are the same only part by part. -/
theorem append_fingerprint_inj {front back left right : String} :
    front ++ ":" ++ fingerprint left = back ++ ":" ++ fingerprint right ↔
      front = back ∧ digest left.toList = digest right.toList := by
  have parts (text ending : String) : (text ++ ":" ++ fingerprint ending).toList =
      text.toList ++ ':' :: (fingerprint ending).toList := by
    rw [String.toList_append, String.toList_append, List.append_assoc]
    rfl
  rw [← String.toList_inj, parts, parts, append_last_mark_inj (colon_not_mem_fingerprint left)
    (colon_not_mem_fingerprint right), String.toList_inj, String.toList_inj, fingerprint_inj]

theorem Token.key_inj {left right : Token} :
    left.key = right.key ↔ left.path.dotPath = right.path.dotPath ∧
      digest left.raw.toList = digest right.raw.toList :=
  append_fingerprint_inj

namespace Call

def modifierKey (call : Call) : String :=
  (call.modifier.map Modifier.key).getD "None"

section

variable {path path' : TokenPath} {location location' : Span} {token target : Token}

theorem key_token_inj : (Call.token path location).key token =
    (Call.token path' location').key target ↔ token.key = target.key :=
  String.append_right_inj "token:"

theorem key_value_inj {modifier modifier' : Option Modifier} :
    (Call.value path modifier location).key token =
        (Call.value path' modifier' location').key target ↔
      token.key = target.key ∧
        digest (Call.value path modifier location).modifierKey.toList =
          digest (Call.value path' modifier' location').modifierKey.toList := by
  have named : token.key = target.key ↔ "value:" ++ token.key = "value:" ++ target.key :=
    (String.append_right_inj "value:").symm
  rw [named]
  exact append_fingerprint_inj

/-- The first letter of a key tells the two reserved names apart. -/
theorem key_token_ne_key_value {modifier : Option Modifier} :
    (Call.token path location).key token ≠ (Call.value path' modifier location').key target := by
  intro same
  have letters := congrArg (fun key : String => key.toList.head?) same
  simp [key] at letters

end

end Call

/-- Two keys are the same only if the calls have the same name, the tokens the same path in dots and
values with the same digest, and the modifiers of `--value` calls texts with the same digest.
Nothing that is written in a path makes two keys run together. -/
theorem call_key_eq_iff (call other : Call) (token target : Token) :
    call.key token = other.key target ↔
      call.name = other.name ∧ token.path.dotPath = target.path.dotPath ∧
        digest token.raw.toList = digest target.raw.toList ∧
        (call.name = .value →
          digest call.modifierKey.toList = digest other.modifierKey.toList) := by
  cases call with
  | token path location =>
    cases other with
    | token path' location' =>
      rw [Call.key_token_inj, Token.key_inj]
      simp [Call.name]
    | value path' modifier' location' =>
      simp [Call.name, Call.key_token_ne_key_value]
  | value path modifier location =>
    cases other with
    | token path' location' =>
      simp [Call.name, Call.key_token_ne_key_value.symm]
    | value path' modifier' location' =>
      rw [Call.key_value_inj, Token.key_inj]
      simp [Call.name, and_assoc]

end DesignTokens
