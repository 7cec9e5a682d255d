import DesignTokens.Files.ConfigFile
import DesignTokens.Proofs.Json.Tables

/-!
Settings that are written as JSON and read again. Every key, leaf and nested table comes back in its
place, as long as the numbers survive being written and the tables are not nested too deeply; a list
of tables comes back as the one table that they make together.
-/

namespace DesignTokens

namespace Json

def settingsTextWith (settings : Settings) (tokens : List Char) : String :=
  let namePrefix := match settings.namePrefix with
    | some text => [memberText "prefix" (quote text)]
    | none => []
  String.ofList (braced (namePrefix ++ [
    memberText "inject" (quote settings.injection.name),
    memberText "rootFontSize" (floatText settings.rootFontSize),
    memberText "tokens" tokens]))

theorem settingsText_eq (settings : Settings) :
    settingsText settings = settingsTextWith settings (nodeText (.table settings.tokens)) :=
  rfl

theorem lexemes?_object {texts : List (List Char)} {members : List (List Piece × Tree)}
    (reads : List.Forall₂ Reads texts (memberLexemes members)) :
    lexemes? (braced texts) = some (Tree.object members).lexemes := by
  have read := lexemes?_braced reads []
  rw [List.append_nil, lexemes?] at read
  rw [read, Tree.lexemes, Option.map_some, List.append_nil]

def settingsMembers (settings : Settings) (tokens : Tree) : List (List Piece × Tree) :=
  let namePrefix := match settings.namePrefix with
    | some text => [(piecesOf "prefix", .quoted (piecesOf text))]
    | none => []
  namePrefix ++ [
    (piecesOf "inject", .quoted (piecesOf settings.injection.name)),
    (piecesOf "rootFontSize", .number (writtenNumeral settings.rootFontSize)),
    (piecesOf "tokens", tokens)]

section Around

variable {settings : Settings} (survives : Survives settings.rootFontSize)
include survives

theorem parse?_settingsTextWith {text : List Char} {tokens : Tree}
    (reads : Reads text tokens.lexemes) :
    parse? (settingsTextWith settings text).toList =
      some (.object (settingsMembers settings tokens)) := by
  refine parse?_of_lexemes ?_
  have fields : List.Forall₂ Reads
      [memberText "inject" (quote settings.injection.name),
        memberText "rootFontSize" (floatText settings.rootFontSize), memberText "tokens" text]
      (memberLexemes [(piecesOf "inject", .quoted (piecesOf settings.injection.name)),
        (piecesOf "rootFontSize", .number (writtenNumeral settings.rootFontSize)),
        (piecesOf "tokens", tokens)]) :=
    .cons (reads_member "inject" (reads_quote _)) (.cons (reads_member "rootFontSize" survives.reads)
      (.cons (reads_member "tokens" reads) .nil))
  rw [settingsTextWith, String.toList_ofList, settingsMembers]
  cases settings.namePrefix with
  | none => exact lexemes?_object fields
  | some namePrefix =>
    exact lexemes?_object (.cons (reads_member "prefix" (reads_quote namePrefix)) fields)

omit survives in
theorem fieldsOf?_settingsMembers (tokens : Tree) :
    fieldsOf? (.object (settingsMembers settings tokens)) =
      some ⟨settings.namePrefix.map fun text => .quoted (piecesOf text),
        some (.quoted (piecesOf settings.injection.name)),
        some (.number (writtenNumeral settings.rootFontSize)), some tokens⟩ := by
  rw [settingsMembers]
  cases settings.namePrefix <;>
    simp [fieldsOf?, addFields?, stringOf?_piecesOf, Fields.add, Fields.once, Fields.none]

/-- Settings are read back with the tokens that are read in their place. -/
theorem readSettings?_settingsTextWith {text : List Char} {tokens : Tree}
    (reads : Reads text tokens.lexemes) :
    readSettings? (settingsTextWith settings text) =
      (tokensOf? tokens).map fun tokens => { settings with tokens } := by
  have injection : injectionOf? (.quoted (piecesOf settings.injection.name)) =
      some settings.injection := by
    rw [injectionOf?, stringOf?_piecesOf, Option.bind_some, Injection.ofName?_name]
  have size : numberOf? (.number (writtenNumeral settings.rootFontSize)) =
      some settings.rootFontSize := survives.numeral.2
  have namePrefix : Fields.readOr (settings.namePrefix.map fun text => .quoted (piecesOf text)) none
      prefixOf? = some settings.namePrefix := by
    cases settings.namePrefix with
    | none => rfl
    | some text =>
      rw [Option.map_some, Fields.readOr, prefixOf?, stringOf?_piecesOf, Option.map_some]
  rw [readSettings?, parse?_settingsTextWith survives reads, Option.bind_eq_bind, Option.bind_some,
    fieldsOf?_settingsMembers, Option.bind_eq_bind, Option.bind_some, Fields.settings?, namePrefix]
  simp only [Fields.readOr, injection, size, Option.bind_eq_bind, Option.bind_some]
  exact Option.map_eq_bind.symm

end Around

end Json

structure Settings.Storable (settings : Settings) : Prop where
  size : Json.Survives settings.rootFontSize
  tokens : settings.tokens.Storable

/-- How settings come back from their text. -/
structure ReadBack (settings : Settings) (path : FilePath) : Prop where
  alone : parseSettings .json path (Json.settingsText settings) =
    if settings.tokens.depth + 1 < Json.depthLimit then .ok settings
    else .error (.malformed .json path)
  /-- A list of tables in the place of the tokens gives the tables merged, where the list counts as
  one more level. -/
  listed : ∀ tables : List TokenTable, (∀ table ∈ tables, table.Storable) →
    parseSettings .json path (Json.settingsTextWith settings (Json.tablesText tables)) =
      if ∀ table ∈ tables, table.depth + 2 < Json.depthLimit then
        .ok { settings with tokens := TokenTable.mergeAll tables }
      else .error (.malformed .json path)

/-- Settings are read back from their text. -/
theorem written_settings_read_back {settings : Settings} (storable : settings.Storable)
    (path : FilePath) : ReadBack settings path := by
  refine ⟨?_, fun tables each => ?_⟩
  · have read := Json.readSettings?_settingsTextWith storable.size
      (Json.reads_nodeText (.table settings.tokens) storable.tokens)
    rw [Json.tokensOf?_table storable.tokens] at read
    rw [parseSettings, ConfigFormat.readSettings?, Json.settingsText_eq, read]
    by_cases fits : settings.tokens.depth + 1 < Json.depthLimit
    · rw [if_pos fits, if_pos fits]
      rfl
    · rw [if_neg fits, if_neg fits]
      rfl
  · have read := Json.readSettings?_settingsTextWith storable.size (Json.reads_tablesText each)
    rw [Json.tokensOf?_tables each] at read
    rw [parseSettings, ConfigFormat.readSettings?, read]
    by_cases fit : ∀ table ∈ tables, table.depth + 2 < Json.depthLimit
    · rw [if_pos fit, if_pos fit]
      rfl
    · rw [if_neg fit, if_neg fit]
      rfl

def mixedSettings : Settings :=
  ⟨some "a\"b\n", .inlined, 12.5,
    .entry "k\\ey\x01" (.table (.entry "x" (.text "\tπ😀") (.entry "e" (.table .empty) .empty)))
      (.entry "" (.number (-0.0)) (.entry "x" (.number 600.0) .empty))⟩

theorem storable_mixedSettings : mixedSettings.Storable := by
  refine ⟨?_, rfl, ⟨rfl, trivial, rfl, trivial, trivial⟩, rfl, ?_, rfl, ?_, trivial⟩
  all_goals
    change (_ : Option Float) = _
    decide +kernel

theorem mixed_settings_read_back :
    mixedSettings.Storable ∧ ReadBack mixedSettings ⟨"a.json"⟩ ∧
      Json.settingsText mixedSettings =
        "\x7b\"prefix\":\"a\\\"b\\n\",\"inject\":\"inline\",\"rootFontSize\":12.5," ++
          "\"tokens\":\x7b\"k\\\\ey\\u0001\":\x7b\"x\":\"\\tπ😀\",\"e\":\x7b\x7d\x7d," ++
          "\"\":-0.0,\"x\":600.0\x7d\x7d" ∧
      parseSettings .json ⟨"a.json"⟩ (Json.settingsText mixedSettings) = .ok mixedSettings := by
  have back := written_settings_read_back storable_mixedSettings ⟨"a.json"⟩
  exact ⟨storable_mixedSettings, back, by decide +kernel, back.alone.trans (if_pos (by decide))⟩

end DesignTokens
