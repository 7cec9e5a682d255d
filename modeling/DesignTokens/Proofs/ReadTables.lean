import DesignTokens.Files.ConfigFile
import DesignTokens.Proofs.MergedTables

/-!
The token tables that are read from configuration files. In both formats a table is filled by
inserting its entries one after the other, and a list of tables is merged, so no key stands twice
in what is read.
-/

namespace DesignTokens

theorem forall_of_mapM {α β : Type} {read : α → Option β} {p : β → Prop}
    (each : ∀ item value, read item = some value → p value) {items : List α} {values : List β}
    (all : items.mapM read = some values) : ∀ value ∈ values, p value := by
  induction items generalizing values with
  | nil =>
    rw [List.mapM_nil] at all
    cases all
    exact List.forall_mem_nil p
  | cons item rest ih =>
    rw [List.mapM_cons] at all
    obtain ⟨value, first, later⟩ := Option.bind_eq_some_iff.1 all
    obtain ⟨others, after, same⟩ := Option.bind_eq_some_iff.1 later
    cases same
    exact List.forall_mem_cons.2 ⟨each item value first, ih after⟩

theorem TokenTable.distinct_of_mapM {α : Type} {read : α → Option TokenTable} {items : List α}
    (each : ∀ item table, read item = some table → table.Distinct) {table : TokenTable}
    (all : (items.mapM read).map mergeAll = some table) : table.Distinct := by
  obtain ⟨tables, found, rfl⟩ := Option.map_eq_some_iff.1 all
  exact distinct_mergeAll (forall_of_mapM each found)

namespace Toml

mutual

theorem distinct_nodeOf? (tree : Tree) {node : TokenNode} (read : nodeOf? tree = some node) :
    node.Distinct := by
  match tree with
  | .text _ => cases read; trivial
  | .integer _ => cases read; trivial
  | .float _ => cases read; trivial
  | .dateTime _ => cases read; exact ⟨rfl, trivial, trivial⟩
  | .table _ entries =>
    rw [nodeOf?] at read
    obtain ⟨table, found, rfl⟩ := Option.map_eq_some_iff.1 read
    exact distinct_addEntries? entries TokenTable.distinct_empty found
  | .boolean _ => contradiction
  | .array _ => contradiction
  | .tables _ => contradiction

theorem distinct_addEntries? (entries : Entries) {base table : TokenTable}
    (distinct : base.Distinct) (read : addEntries? base entries = some table) :
    table.Distinct := by
  match entries with
  | [] => cases read; exact distinct
  | (key, value) :: rest =>
    rw [addEntries?] at read
    split at read
    · rename_i node found
      have inserted := TokenTable.distinct_insert distinct key (distinct_nodeOf? value found)
      exact distinct_addEntries? rest inserted read
    · contradiction

end

theorem distinct_tableOf? (tree : Tree) (table : TokenTable) (read : tableOf? tree = some table) :
    table.Distinct := by
  unfold tableOf? at read
  split at read
  · cases read
    exact ⟨rfl, trivial, trivial⟩
  · exact distinct_addEntries? _ TokenTable.distinct_empty read
  · contradiction

theorem distinct_tokensOf? {tree : Tree} {table : TokenTable} (read : tokensOf? tree = some table) :
    table.Distinct := by
  unfold tokensOf? at read
  split at read
  · exact TokenTable.distinct_of_mapM distinct_tableOf? read
  · refine TokenTable.distinct_of_mapM (fun entries table found => ?_) read
    exact distinct_addEntries? entries TokenTable.distinct_empty found
  · exact distinct_tableOf? _ _ read

end Toml

namespace Json

mutual

theorem distinct_nodeOf? (tree : Tree) {node : TokenNode} (read : nodeOf? tree = some node) :
    node.Distinct := by
  match tree with
  | .quoted _ =>
    obtain ⟨text, _, rfl⟩ := Option.map_eq_some_iff.1 read
    trivial
  | .number _ =>
    obtain ⟨value, _, rfl⟩ := Option.map_eq_some_iff.1 read
    trivial
  | .object members =>
    rw [nodeOf?] at read
    obtain ⟨table, found, rfl⟩ := Option.map_eq_some_iff.1 read
    exact distinct_addMembers? members TokenTable.distinct_empty found
  | .null => contradiction
  | .boolean _ => contradiction
  | .array _ => contradiction

theorem distinct_addMembers? (members : List (List Piece × Tree)) {base table : TokenTable}
    (distinct : base.Distinct) (read : addMembers? base members = some table) :
    table.Distinct := by
  match members with
  | [] => cases read; exact distinct
  | (name, value) :: rest =>
    rw [addMembers?] at read
    split at read
    · rename_i key node named found
      have inserted := TokenTable.distinct_insert distinct key (distinct_nodeOf? value found)
      exact distinct_addMembers? rest inserted read
    · contradiction

end

theorem distinct_tableOf? (tree : Tree) (table : TokenTable) (read : tableOf? tree = some table) :
    table.Distinct := by
  unfold tableOf? at read
  split at read
  · exact distinct_addMembers? _ TokenTable.distinct_empty read
  · contradiction

theorem distinct_tokensOf? {tree : Tree} {table : TokenTable} (read : tokensOf? tree = some table) :
    table.Distinct := by
  unfold tokensOf? at read
  split at read
  · contradiction
  · split at read
    · exact TokenTable.distinct_of_mapM distinct_tableOf? read
    · exact distinct_tableOf? _ _ read

end Json

theorem Fields.tokens_of_settings? {α : Type} {fields : Fields α}
    {readPrefix : α → Option (Option String)} {readInjection : α → Option Injection}
    {readNumber : α → Option Float} {readTokens : α → Option TokenTable} {settings : Settings}
    (read : fields.settings? readPrefix readInjection readNumber readTokens = some settings) :
    ∃ value, readTokens value = some settings.tokens := by
  simp only [settings?, Option.bind_eq_bind, Option.bind_eq_some_iff] at read
  obtain ⟨_, _, _, _, _, _, value, _, tokens, found, made⟩ := read
  cases made
  exact ⟨value, found⟩

theorem ConfigFormat.distinct_tokens {format : ConfigFormat} {text : String} {settings : Settings}
    (read : format.readSettings? text = some settings) : settings.tokens.Distinct := by
  cases format with
  | toml =>
    obtain ⟨entries, _, later⟩ := Option.bind_eq_some_iff.1 read
    obtain ⟨fields, _, last⟩ := Option.bind_eq_some_iff.1 later
    obtain ⟨tree, found⟩ := Fields.tokens_of_settings? last
    exact Toml.distinct_tokensOf? found
  | json =>
    obtain ⟨tree, _, later⟩ := Option.bind_eq_some_iff.1 read
    obtain ⟨fields, _, last⟩ := Option.bind_eq_some_iff.1 later
    obtain ⟨tokens, found⟩ := Fields.tokens_of_settings? last
    exact Json.distinct_tokensOf? found

end DesignTokens
