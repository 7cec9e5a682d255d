import DesignTokens.Proofs.Compilation
import DesignTokens.Proofs.Css.Joining

/-!
Compiling style sheets one after the other. After a complete style sheet the next one is searched,
resolved and replaced as if it stood alone, and only the places of its calls move.
-/

namespace DesignTokens

open DesignTokens.Css DesignTokens.Text

/-! The same findings further on. -/

def Call.moved (offset : Nat) (call : Call) : Call :=
  call.at (call.location.shift offset)

def CallReading.moved (offset : Nat) : CallReading → CallReading
  | .kept call problem => .kept (call.moved offset) problem
  | .dropped problem => .dropped problem

def ResolvedToken.moved (offset : Nat) (token : ResolvedToken) : ResolvedToken :=
  { token with location := token.location.shift offset }

theorem readCall_moved (name : ReservedName) (offset : Nat) (arguments : List Node) (span : Span) :
    readCall name arguments (span.shift offset) =
      (readCall name arguments span).moved offset := by
  rw [readCall_at name arguments span]
  rcases readCall_cases name arguments span with
    ⟨call, problem, read, _, place⟩ | ⟨problem, read, _⟩
  · rw [read, CallReading.moved, Call.moved, place]
    rfl
  · rw [read]
    rfl

theorem reservedCall?_base (node : Node) (base offset : Nat) :
    reservedCall? (some (base + offset)) node =
      (reservedCall? (some base) node).map (CallReading.moved offset) := by
  cases node with
  | function name arguments span =>
    cases span with
    | none => simp only [reservedCall?, Option.map_map]; rfl
    | some span =>
      have place : span.shift (base + offset) = (span.shift base).shift offset := by
        simp only [Span.shift, Span.mk.injEq]
        omega
      simp only [reservedCall?, Option.map_map, place, readCall_moved]
      rfl
  | _ => rfl

theorem reservedCall?_shift (node : Node) (offset : Nat) :
    reservedCall? (some 0) (node.shift offset) =
      (reservedCall? (some 0) node).map (CallReading.moved offset) := by
  cases node with
  | function name arguments span =>
    cases span with
    | none =>
      simp only [Node.shift, reservedCall?, Option.map_map]
      rfl
    | some span =>
      have place : (span.shift offset).shift 0 = (span.shift 0).shift offset := rfl
      simp only [Node.shift, reservedCall?, Option.map_map, Option.map_some, shiftNodes_eq,
        readCall_shift, place, readCall_moved]
      rfl
  | _ => rfl

theorem reservedCall?_unplaced (node : Node) (offset : Nat) :
    reservedCall? none node = (reservedCall? none node).map (CallReading.moved offset) := by
  cases node with
  | function name arguments span =>
    rw [reservedCall?, Option.map_map]
    cases span <;> rfl
  | _ => rfl

theorem reservedCalls_shift (node : Node) (offset : Nat) :
    reservedCalls .recorded (node.shift offset) =
      (reservedCalls .recorded node).map (CallReading.moved offset) := by
  have direct := reservedCall?_shift node offset
  have plain : (reservedCall? (some 0) (node.shift offset)).toList =
      (reservedCall? (some 0) node).toList.map (CallReading.moved offset) := by
    rw [direct]
    cases reservedCall? (some 0) node <;> rfl
  cases node with
  | leaf leaf span =>
    cases leaf with
    | raw text =>
      simp only [Node.shift, reservedCalls]
      split
      · rw [List.map_filterMap]
        apply List.filterMap_congr
        intro node _
        cases span with
        | none => exact reservedCall?_unplaced node offset
        | some span => exact reservedCall?_base node span.start offset
      · rfl
    | _ => exact plain
  | function => exact plain
  | block => exact plain
  | atRule => exact plain

/-- A complete style sheet and the next one are searched one after the other. -/
theorem readCalls_append {first : String} (complete : Complete first.toList) (second : String) :
    readCalls .recorded (first ++ second) = readCalls .recorded first ++
      (readCalls .recorded second).map (CallReading.moved (byteLength first.toList)) := by
  have tree := parse_append complete second.toList
  rw [← shiftNodes_eq] at tree
  simp only [readCalls, parseStylesheet, Positions.keep, String.toList_append, tree, walk_append,
    List.flatMap_append, walk_shift, List.flatMap_map, reservedCalls_shift, List.map_flatMap]

theorem callsOf_append (left right : List CallReading) :
    callsOf (left ++ right) = callsOf left ++ callsOf right :=
  List.filterMap_append

theorem diagnosticsOf_append (left right : List CallReading) :
    diagnosticsOf (left ++ right) = diagnosticsOf left ++ diagnosticsOf right :=
  List.filterMap_append

theorem callsOf_moved (offset : Nat) (readings : List CallReading) :
    callsOf (readings.map (CallReading.moved offset)) =
      (callsOf readings).map (Call.moved offset) := by
  rw [callsOf, callsOf, List.filterMap_map, List.map_filterMap]
  apply List.filterMap_congr
  intro reading _
  cases reading <;> rfl

theorem diagnosticsOf_moved (offset : Nat) (readings : List CallReading) :
    diagnosticsOf (readings.map (CallReading.moved offset)) = diagnosticsOf readings := by
  rw [diagnosticsOf, diagnosticsOf, List.filterMap_map]
  apply List.filterMap_congr
  intro reading _
  cases reading <;> rfl

theorem extract_append {first : String} (complete : Complete first.toList) (second : String) :
    extract (first ++ second) =
      ((extract first).1 ++ (extract second).1.map (Call.moved (byteLength first.toList)),
        (extract first).2 ++ (extract second).2) := by
  simp only [extract, extractWith, readCalls_append complete, callsOf_append, diagnosticsOf_append,
    callsOf_moved, diagnosticsOf_moved]

/-! Resolving and replacing. -/

theorem Call.moved_path (offset : Nat) (call : Call) : (call.moved offset).path = call.path := by
  cases call <;> rfl

theorem Call.resolveAs_moved (rootFontSize : Float) (offset : Nat) (call : Call) (token : Token) :
    (call.moved offset).resolveAs rootFontSize token =
      ((call.resolveAs rootFontSize token).1.moved offset,
        (call.resolveAs rootFontSize token).2) := by
  cases call <;> rfl

theorem Call.resolve_moved (config : Config) (offset : Nat) (call : Call) :
    (call.moved offset).resolve config =
      ((call.resolve config).1.map (ResolvedToken.moved offset), (call.resolve config).2) := by
  unfold Call.resolve
  rw [Call.moved_path]
  cases config.find? call.path with
  | none => rfl
  | some found => simp only [Call.resolveAs_moved, Option.map_some]

theorem resolvedCalls_append (config : Config) {first : String} (complete : Complete first.toList)
    (second : String) :
    resolvedCalls config (first ++ second) = resolvedCalls config first ++
      (resolvedCalls config second).map (ResolvedToken.moved (byteLength first.toList)) := by
  simp only [resolvedCalls, resolve, extract_append complete, List.map_append,
    List.filterMap_append, List.filterMap_map, List.map_filterMap, List.map_map]
  refine congrArg _ (List.filterMap_congr fun call _ => ?_)
  simp only [Function.comp_apply, Call.resolve_moved]

theorem outermost_append {middle last : Nat} {left right : List ResolvedToken}
    (before : SpanOrder 0 middle (left.map ResolvedToken.location))
    (after : SpanOrder middle last (right.map ResolvedToken.location)) :
    outermost (left ++ right) = outermost left ++ outermost right := by
  have early : ∀ token ∈ left, token.location.start < token.location.stop ∧
      token.location.stop ≤ middle := fun token member =>
    (before.inside token.location (List.mem_map_of_mem member)).2
  have late : ∀ token ∈ right, middle ≤ token.location.start ∧
      token.location.start < token.location.stop := fun token member =>
    have bounds := after.inside token.location (List.mem_map_of_mem member)
    ⟨bounds.1, bounds.2.1⟩
  unfold outermost
  rw [List.filter_append]
  congr 1
  · apply List.filter_congr
    intro token member
    have nothing : right.countP (fun other => token.location.within other.location) = 0 := by
      apply List.countP_eq_zero.2
      intro other found inside
      rw [Span.within_iff] at inside
      have bounds := early token member
      have beyond := late other found
      omega
    rw [List.countP_append, nothing, Nat.add_zero]
  · apply List.filter_congr
    intro token member
    have nothing : left.countP (fun other => token.location.within other.location) = 0 := by
      apply List.countP_eq_zero.2
      intro other found inside
      rw [Span.within_iff] at inside
      have bounds := late token member
      have beyond := early other found
      omega
    rw [List.countP_append, nothing, Nat.zero_add]

theorem outermost_moved (offset : Nat) (tokens : List ResolvedToken) :
    outermost (tokens.map (ResolvedToken.moved offset)) =
      (outermost tokens).map (ResolvedToken.moved offset) := by
  rw [outermost, List.filter_map, outermost]
  refine congrArg _ (List.filter_congr fun token _ => ?_)
  rw [Function.comp_apply, List.countP_map]
  have same : (fun other : ResolvedToken => (token.moved offset).location.within other.location) ∘
      ResolvedToken.moved offset = fun other => token.location.within other.location := by
    funext other
    exact Span.within_shift token.location other.location offset
  rw [same]

theorem compile_append (config : Config) {first : String} (complete : Complete first.toList)
    (second : String) :
    (compile config (first ++ second)).1 = (compile config first).1 ++ (compile config second).1 := by
  have whole := compile_exchanged config (first ++ second)
  have left := compile_exchanged config first
  have right := (compile_exchanged config second).shift (byteLength first.toList)
  rw [Nat.zero_add] at right
  have later : SpanOrder (byteLength first.toList)
      (byteLength second.toList + byteLength first.toList)
      (((resolvedCalls config second).map (ResolvedToken.moved (byteLength first.toList))).map
        ResolvedToken.location) := by
    have order := (resolved_order config second).shift (byteLength first.toList)
    rw [Nat.zero_add, List.map_map] at order
    rw [List.map_map]
    exact order
  have both := left.append (by rw [Nat.zero_add]; exact right)
  rw [resolvedCalls_append config complete, outermost_append (resolved_order config first) later,
    outermost_moved, List.map_append, List.map_map, String.toList_append] at whole
  rw [List.map_map] at both
  refine String.toList_injective ?_
  rw [String.toList_append]
  exact whole.unique both

/-- A complete style sheet and whatever follows it are extracted and compiled one after the other. -/
theorem complete_stylesheet_compiles_apart (config : Config) {first : String}
    (complete : Complete first.toList) (second : String) :
    extract (first ++ second) =
        ((extract first).1 ++ (extract second).1.map (Call.moved (byteLength first.toList)),
          (extract first).2 ++ (extract second).2) ∧
      (compile config (first ++ second)).1 =
        (compile config first).1 ++ (compile config second).1 :=
  ⟨extract_append complete second, compile_append config complete second⟩

/-- A rule with a broken call, and then one with a good call that is found and replaced where it
stands. -/
theorem broken_rule_compiles_apart :
    let config : Config :=
      ⟨Settings.ofTokens .empty, none, none, ⟨[("x", ⟨⟨["x"]⟩, "1px"⟩)]⟩⟩
    let first := "a \x7b top: --token(1); \x7d"
    let second := "b \x7b top: --value(\"x\"); \x7d"
    Complete first.toList ∧
      extract (first ++ second) =
        ((extract first).1 ++ (extract second).1.map (Call.moved (byteLength first.toList)),
          (extract first).2 ++ (extract second).2) ∧
      (compile config (first ++ second)).1 =
        (compile config first).1 ++ (compile config second).1 ∧
      (extract (first ++ second)).1.map Call.location = [⟨31, 43⟩] ∧
      (extract (first ++ second)).2.map Diagnostic.message =
        ["expected a quoted string path as first argument"] ∧
      (compile config (first ++ second)).1 =
        "a \x7b top: --token(1); \x7db \x7b top: 1px; \x7d" := by
  intro config first second
  have complete : Complete first.toList := by decide +kernel
  obtain ⟨extracted, compiled⟩ := complete_stylesheet_compiles_apart config complete second
  exact ⟨complete, extracted, compiled, by decide +kernel, by decide +kernel, by decide +kernel⟩

end DesignTokens
