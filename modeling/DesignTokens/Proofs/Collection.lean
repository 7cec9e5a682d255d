import DesignTokens.Proofs.Compilation
import DesignTokens.Proofs.Emission
import DesignTokens.Proofs.TokenIndex
import DesignTokens.Session

/-!
What a session remembers over a build. Whatever operations it goes through, it holds the tokens
that were referred to since it was last cleared, each once and in the order of the first reference,
so the custom properties it emits are those that the compiled style sheets refer to.
-/

namespace DesignTokens

open DesignTokens.Text

inductive Operation where
  | collect (text : String)
  | transform (text : String)
  | clear
  | findMarks (text : String)
  | replace (text : String) (tokens : List ResolvedToken)
  | replaceMark (text : String) (mark : InjectionMark) (replacement : String)
  | emitCollected (style : EmissionStyle)
  | emitAll (style : EmissionStyle)

def Session.after (session : Session) : Operation → Session
  | .collect text => (session.collect text).1
  | .transform text => (session.transform text).1
  | .clear => session.clear
  | .findMarks _ | .replace _ _ | .replaceMark _ _ _ | .emitCollected _ | .emitAll _ => session

def Session.run (session : Session) (operations : List Operation) : Session :=
  operations.foldl Session.after session

namespace Operation

def isClear : Operation → Bool
  | .clear => true
  | _ => false

def searched : Operation → Option String
  | .collect text | .transform text => some text
  | _ => none

end Operation

/-- The tokens that the references of a style sheet lead to, in order. -/
def referred (config : Config) (text : String) : List Token :=
  (extract text).1.filterMap fun call =>
    match call with
    | .token path _ => config.find? path
    | .value _ _ _ => none

/-- The operations after the last one that clears the session. -/
def sinceClear (operations : List Operation) : List Operation :=
  (operations.reverse.takeWhile fun operation => !operation.isClear).reverse

/-- The tokens referred to since the session was last cleared, in the order of the references. -/
def referredSince (config : Config) (operations : List Operation) : List Token :=
  (sinceClear operations).flatMap fun operation =>
    operation.searched.toList.flatMap (referred config)

theorem sinceClear_concat (operations : List Operation) (operation : Operation) :
    sinceClear (operations ++ [operation]) =
      if operation.isClear then [] else sinceClear operations ++ [operation] := by
  rw [sinceClear, List.reverse_append, List.reverse_singleton, List.singleton_append,
    List.takeWhile_cons]
  cases operation.isClear <;> simp [sinceClear]

/-! What is remembered: the references themselves, as they were resolved. -/

def references (config : Config) (text : String) : List ResolvedToken :=
  (resolvedCalls config text).filter fun token => token.name = .token

def Operation.references (config : Config) (operation : Operation) : List ResolvedToken :=
  operation.searched.toList.flatMap (DesignTokens.references config)

def remembered (references : List ResolvedToken) : Register ResolvedToken :=
  Register.empty.putAll (fun token => token.path.dotPath) id references

theorem remember_all (session : Session) (tokens : List ResolvedToken) :
    tokens.foldl Session.remember session =
      { session with
        collected := session.collected.putAll (fun token => token.path.dotPath) id
          (tokens.filter fun token => token.name = .token) } := by
  induction tokens generalizing session with
  | nil => rfl
  | cons token rest ih =>
    rw [List.foldl_cons, ih, List.filter_cons, Session.remember]
    cases token.name <;> rfl

theorem collect_eq (session : Session) (text : String) :
    (session.collect text).1 =
      { session with
        collected := session.collected.putAll (fun token => token.path.dotPath) id
          (references session.config text) } :=
  remember_all session _

theorem transform_eq_collect (session : Session) (text : String) :
    (session.transform text).1 = (session.collect text).1 := by
  unfold Session.transform
  dsimp only
  split
  · rfl
  · split <;> rfl

/-- One operation adds the references of its style sheet, or forgets all of them. -/
theorem after_remembered (config : Config) (earlier : List ResolvedToken) (operation : Operation) :
    Session.after ⟨config, remembered earlier⟩ operation =
      ⟨config, remembered
        (if operation.isClear then [] else earlier ++ operation.references config)⟩ := by
  have searched (text : String) : (Session.collect ⟨config, remembered earlier⟩ text).1 =
      ⟨config, remembered (earlier ++ references config text)⟩ := by
    rw [collect_eq, remembered, remembered, Register.putAll_append]
  cases operation with
  | collect text => simpa [Session.after, Operation.isClear, Operation.references,
      Operation.searched] using searched text
  | transform text => simpa [Session.after, Operation.isClear, Operation.references,
      Operation.searched, transform_eq_collect] using searched text
  | clear => rfl
  | findMarks | replace | replaceMark | emitCollected | emitAll =>
    simp [Session.after, Operation.isClear, Operation.references, Operation.searched]

/-- A session always holds the references since it was last cleared. -/
theorem run_remembered (config : Config) (operations : List Operation) :
    (Session.start config).run operations =
      ⟨config, remembered ((sinceClear operations).flatMap (Operation.references config))⟩ := by
  induction operations using List.reverseRecOn with
  | nil => rfl
  | append_singleton operations operation ih =>
    rw [Session.run, List.foldl_concat, ← Session.run, ih, after_remembered, sinceClear_concat]
    split
    · rfl
    · rw [List.flatMap_append, List.flatMap_singleton]

/-! The tokens behind the references. -/

def ResolvedToken.origin (token : ResolvedToken) : Token :=
  ⟨token.path, token.valueText⟩

theorem origin_resolveAs (rootFontSize : Float) (path : TokenPath) (location : Span)
    (token : Token) :
    ((Call.token path location).resolveAs rootFontSize token).1.origin = token := by
  simp [Call.resolveAs, Call.modifier, ResolvedToken.origin, ResolvedToken.valueText, joinWith]

theorem origin_resolve (config : Config) (call : Call) :
    ((call.resolve config).1.filter fun token => token.name = .token).map ResolvedToken.origin =
      match call with
      | .token path _ => config.find? path
      | .value _ _ _ => none := by
  unfold Call.resolve
  cases call with
  | token path location =>
    simp only [Call.path]
    cases config.find? path with
    | none => rfl
    | some token => exact congrArg some (origin_resolveAs config.rootFontSize path location token)
  | value path modifier location =>
    cases config.find? (Call.value path modifier location).path with
    | none => rfl
    | some token => rfl

theorem origins_references (config : Config) (text : String) :
    (references config text).map ResolvedToken.origin = referred config text := by
  rw [references, resolvedCalls, resolve, referred, List.filterMap_map, List.filter_filterMap,
    List.map_filterMap]
  exact List.filterMap_congr fun call _ => origin_resolve config call

theorem origins_since (config : Config) (operations : List Operation) :
    ((sinceClear operations).flatMap (Operation.references config)).map ResolvedToken.origin =
      referredSince config operations := by
  rw [List.map_flatMap, referredSince]
  refine List.flatMap_congr fun operation _ => ?_
  rw [Operation.references, List.map_flatMap]
  exact List.flatMap_congr fun text _ => origins_references config text

theorem mem_referredSince {config : Config} {operations : List Operation} {token : Token}
    (member : token ∈ referredSince config operations) : token ∈ config.tokens := by
  obtain ⟨operation, _, inside⟩ := List.mem_flatMap.1 member
  obtain ⟨text, _, found⟩ := List.mem_flatMap.1 inside
  obtain ⟨call, _, same⟩ := List.mem_filterMap.1 found
  cases call with
  | token path location => exact Config.mem_of_find? same
  | value => contradiction

theorem eq_of_map_eq {α β : Type} {f : α → β} {left right : List α}
    (apart : ∀ first ∈ left, ∀ second ∈ right, f first = f second → first = second)
    (same : left.map f = right.map f) : left = right := by
  induction left generalizing right with
  | nil =>
    rw [List.map_nil] at same
    exact (List.map_eq_nil_iff.1 same.symm).symm
  | cons first left ih =>
    cases right with
    | nil => contradiction
    | cons second right =>
      obtain ⟨head, tail⟩ := List.cons.inj same
      rw [apart first List.mem_cons_self second List.mem_cons_self head,
        ih (fun one before other after => apart one (List.mem_cons_of_mem _ before) other
          (List.mem_cons_of_mem _ after)) tail]

/-- The remembered tokens are the distinct ones, in the order of their first references. -/
theorem origins_remembered {config : Config} (accepted : config.Accepted)
    {tokens : List ResolvedToken} (held : ∀ token ∈ tokens, token.origin ∈ config.tokens) :
    (remembered tokens).values.map ResolvedToken.origin =
      (tokens.map ResolvedToken.origin).eraseDups := by
  have apart (left right : Token) (first : left ∈ config.tokens) (second : right ∈ config.tokens)
      (same : left.path.dotPath = right.path.dotPath) : left = right :=
    accepted.token_of_dotPath first second same
  have origins : ∀ token ∈ tokens.map ResolvedToken.origin, token ∈ config.tokens := by
    rwa [List.forall_mem_map]
  have entries : ∀ entry ∈ (remembered tokens).entries,
      entry.2 ∈ tokens ∧ entry.1 = entry.2.path.dotPath := by
    intro entry member
    obtain ⟨token, found, rfl⟩ := Register.mem_putAll _ _ member
    exact ⟨found, rfl⟩
  -- The register holds the last reference to each path, in the place of the first one. Both lists
  -- have the same dot paths, and the dot path of a token is its own.
  refine eq_of_map_eq (f := fun token : Token => token.path.dotPath) ?_ ?_
  · intro left first right second
    obtain ⟨token, value, rfl⟩ := List.mem_map.1 first
    obtain ⟨entry, member, rfl⟩ := List.mem_map.1 value
    exact apart _ _ (held _ (entries entry member).1) (origins _ (List.mem_eraseDups.1 second))
  · have names := Register.names_putAll (fun token : ResolvedToken => token.path.dotPath) id tokens
    rw [← Register.eraseDups_map fun left first right second =>
      apart left right (origins left first) (origins right second)]
    rw [List.map_map, List.map_map]
    refine Eq.trans ?_ names
    rw [Register.values, List.map_map, Register.names]
    exact List.map_congr_left fun entry member => ((entries entry member).2).symm

theorem properties_since {config : Config} (accepted : config.Accepted)
    (operations : List Operation) :
    ((Session.start config).run operations).collected.values.map ResolvedToken.property =
      (referredSince config operations).eraseDups.map Token.property := by
  have held : ∀ token ∈ (sinceClear operations).flatMap (Operation.references config),
      token.origin ∈ config.tokens := fun token member =>
    mem_referredSince (by rw [← origins_since]; exact List.mem_map_of_mem member)
  rw [run_remembered, ← origins_since, ← origins_remembered accepted held, List.map_map]
  rfl

theorem mem_sinceClear {before after : List Operation} {operation : Operation}
    (kept : operation.isClear = false) (later : ∀ other ∈ after, other.isClear = false) :
    operation ∈ sinceClear (before ++ operation :: after) := by
  have uncleared : ∀ other ∈ after.reverse ++ [operation], (!other.isClear) = true := by
    intro other member
    rw [List.mem_append, List.mem_reverse, List.mem_singleton] at member
    rcases member with found | rfl
    · rw [later other found]
      rfl
    · rw [kept]
      rfl
  rw [sinceClear, List.mem_reverse, List.reverse_append, List.reverse_cons,
    List.takeWhile_append_of_pos uncleared]
  simp

/-- What a session emits after a run of operations. -/
structure Declares (config : Config) (operations : List Operation) : Prop where
  emitted : ∀ style, ((Session.start config).run operations).emitCollected style =
    sheet style ((referredSince config operations).eraseDups.map Token.property)
  nothing : ∀ style, ((Session.start config).run operations).emitCollected style = none ↔
    referredSince config operations = []
  known : ∀ token ∈ referredSince config operations, token ∈ config.tokens
  distinct : ((referredSince config operations).eraseDups.map fun token =>
    token.path.dotPath).Nodup
  declared : ∀ before operation after, operations = before ++ operation :: after →
    (∀ other ∈ after, other.isClear = false) → ∀ text, operation.searched = some text →
    ∀ call ∈ resolvedCalls config text, call.name = .token →
      ∃ token ∈ (referredSince config operations).eraseDups,
        call.replacement = "var(" ++ token.path.cssVariable ++ ")"

/-- A session emits the tokens referred to since it was last cleared, each once, in the order of the
first references and with its own value. -/
theorem collected_tokens_declared {config : Config} (accepted : config.Accepted)
    (operations : List Operation) : Declares config operations := by
  have emitted (style : EmissionStyle) :
      ((Session.start config).run operations).emitCollected style =
        sheet style ((referredSince config operations).eraseDups.map Token.property) := by
    rw [Session.emitCollected, emit_eq_sheet, properties_since accepted]
  refine ⟨emitted, fun style => ?_, fun token => mem_referredSince, ?_, ?_⟩
  · rw [emitted style, sheet]
    cases referredSince config operations with
    | nil => simp
    | cons token rest => simp [List.eraseDups_cons]
  · have apart : ∀ left ∈ referredSince config operations,
        ∀ right ∈ referredSince config operations,
        left.path.dotPath = right.path.dotPath → left = right :=
      fun left first right second =>
        accepted.token_of_dotPath (mem_referredSince first) (mem_referredSince second)
    rw [← Register.eraseDups_map apart]
    exact Register.nodup_eraseDups _
  · rintro before operation after rfl later text searched call member reference
    have kept : operation.isClear = false := by
      cases operation <;> first | rfl | contradiction
    have remembered : call ∈ references config text :=
      List.mem_filter.2 ⟨member, decide_eq_true reference⟩
    refine ⟨call.origin, List.mem_eraseDups.2 (List.mem_flatMap.2 ⟨operation,
      mem_sinceClear kept later, ?_⟩), ?_⟩
    · rw [searched, Option.toList_some, List.flatMap_singleton, ← origins_references]
      exact List.mem_map_of_mem remembered
    · rw [ResolvedToken.replacement, reference]
      rfl

/-- References with and without the prefix, before and after the session is cleared. -/
theorem prefixed_references_declared :
    let settings : Settings := ⟨some " p ", .atRule, Settings.defaultRootFontSize,
      .entry "x" (.text "1px") (.entry "y" (.text "2px") .empty)⟩
    let config : Config := ⟨settings, Config.trimmedPrefix settings, none,
      indexLeaves (Config.trimmedPrefix settings) settings.tokens.leaves⟩
    let operations : List Operation := [.collect "--token(\"x\")", .clear,
      .transform "a: --token(\"p.y\") --token(\"none\")", .emitAll .pretty,
      .collect "--token(\"x\") --token(\"y\")"]
    config.Accepted ∧ Declares config operations ∧
      ((Session.start config).run operations).emitCollected .minified =
        some ":root\x7b--p-y:2px;--p-x:1px;\x7d" := by
  intro settings config operations
  have accepted : config.Accepted := Config.accepted_ofSettings
    (Config.ofSettings_checked (by decide +kernel) (by decide +kernel))
  refine ⟨accepted, collected_tokens_declared accepted operations, ?_⟩
  decide +kernel

end DesignTokens
