import DesignTokens.Proofs.CallText
import DesignTokens.Proofs.Outermost

/-!
What compiling makes of a style sheet. The spans of the resolved calls follow the order of the tree,
so the outermost of them give way to their replacements and everything else stays.
-/

namespace DesignTokens

open DesignTokens.Text

def resolvedCalls (config : Config) (input : String) : List ResolvedToken :=
  (resolve config (extract input).1).1

theorem map_filterMap_sublist {α β γ : Type} (choose : α → Option β) (part : β → γ) (whole : α → γ)
    (same : ∀ item chosen, choose item = some chosen → part chosen = whole item) (list : List α) :
    ((list.filterMap choose).map part).Sublist (list.map whole) := by
  induction list with
  | nil => exact .slnil
  | cons item rest ih =>
    cases found : choose item with
    | none =>
      rw [List.filterMap_cons_none found, List.map_cons]
      exact ih.cons _
    | some chosen =>
      rw [List.filterMap_cons_some found, List.map_cons, List.map_cons, same item chosen found]
      exact ih.cons_cons _

theorem calls_sublist (input : String) :
    ((extract input).1.map Call.location).Sublist ((reports input).map Report.span) := by
  have kept := map_filterMap_sublist (fun report : Report => report.reading.call?) Call.location
    Report.span (fun report call found => (report.call_located found).2) (reports input)
  simpa [extract, extractWith, callsOf, readCalls_eq, List.filterMap_map] using kept

theorem Call.resolve_location {config : Config} {call : Call} {token : ResolvedToken}
    (found : (call.resolve config).1 = some token) : token.location = call.location := by
  unfold Call.resolve at found
  split at found
  · contradiction
  · cases found
    rfl

theorem resolved_sublist (config : Config) (input : String) :
    ((resolvedCalls config input).map ResolvedToken.location).Sublist
      ((reports input).map Report.span) := by
  refine List.Sublist.trans ?_ (calls_sublist input)
  have kept := map_filterMap_sublist (fun call : Call => (call.resolve config).1)
    ResolvedToken.location Call.location (fun call token found => Call.resolve_location found)
    (extract input).1
  simpa [resolvedCalls, resolve, List.filterMap_map] using kept

theorem resolved_fits {config : Config} {input : String} {token : ResolvedToken}
    (member : token ∈ resolvedCalls config input) : token.location.fits input.toList = true := by
  have among := (resolved_sublist config input).subset (List.mem_map_of_mem member)
  obtain ⟨report, found, same⟩ := List.mem_map.1 among
  obtain ⟨inside, _, _, cut, _⟩ := report_alone found
  exact Span.fits_iff.2 ⟨inside, by rw [← same, cut]⟩

theorem resolved_order (config : Config) (input : String) :
    SpanOrder 0 (byteLength input.toList)
      ((resolvedCalls config input).map ResolvedToken.location) :=
  (reports_order input).sublist (resolved_sublist config input)

theorem compile_exchanged (config : Config) (input : String) :
    Exchanged 0 input.toList ((outermost (resolvedCalls config input)).map ResolvedToken.edit)
      (compile config input).1.toList := by
  have text : (compile config input).1.toList =
      applyEdits input.toList ((resolvedCalls config input).map ResolvedToken.edit) :=
    String.toList_ofList
  rw [text]
  exact applyEdits_outermost (resolved_order config input) fun token member =>
    resolved_fits member

/-- Replacing the resolved calls never fails, and it exchanges the outermost of them and nothing
else. -/
theorem replaceCalls_exchanges_outermost (config : Config) (input : String) :
    editInPlace input.toList ((resolvedCalls config input).map ResolvedToken.edit) =
        some (replaceCalls input (resolvedCalls config input)).toList ∧
      Exchanged 0 input.toList ((outermost (resolvedCalls config input)).map ResolvedToken.edit)
        (replaceCalls input (resolvedCalls config input)).toList := by
  constructor
  · rw [editInPlace_eq, replaceCalls, String.toList_ofList]
  · exact compile_exchanged config input

end DesignTokens
