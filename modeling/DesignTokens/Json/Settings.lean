import DesignTokens.Config.Fields
import DesignTokens.Json.Tree

/-!
Settings written in JSON: an object with named fields or an array of all four in order. Reading and
writing are inverse to each other on settings that JSON can hold.
-/

namespace DesignTokens.Json

def prefixOf? : Tree → Option (Option String)
  | .null => some none
  | .quoted pieces => (stringOf? pieces).map some
  | _ => none

def injectionOf? : Tree → Option Injection
  | .quoted pieces => (stringOf? pieces).bind Injection.ofName?
  | .object [(key, .null)] => (stringOf? key).bind Injection.ofName?
  | _ => none

def numberOf? : Tree → Option Float
  | .number numeral => numeralValue? numeral
  | _ => none

mutual

def nodeOf? : Tree → Option TokenNode
  | .quoted pieces => (stringOf? pieces).map TokenNode.text
  | .number numeral => (numeralValue? numeral).map TokenNode.number
  | .object members => (addMembers? .empty members).map TokenNode.table
  | _ => none

def addMembers? (table : TokenTable) : List (List Piece × Tree) → Option TokenTable
  | [] => some table
  | (key, value) :: rest =>
    match stringOf? key, nodeOf? value with
    | some key, some node => addMembers? (table.insert key node) rest
    | _, _ => none

end

def tableOf? : Tree → Option TokenTable
  | .object members => addMembers? .empty members
  | _ => none

/-- Deeper nesting is refused; the field itself stands at depth one. -/
def depthLimit : Nat := 127

/-- One table, or a list of tables of which later ones win. -/
def tokensOf? (tree : Tree) : Option TokenTable :=
  if depthLimit ≤ tree.depth then none
  else
    match tree with
    | .array items => (items.mapM tableOf?).map TokenTable.mergeAll
    | tree => tableOf? tree

def addFields? (fields : Fields Tree) : List (List Piece × Tree) → Option (Fields Tree)
  | [] => some fields
  | (key, value) :: rest =>
    match stringOf? key with
    | none => none
    | some name =>
      match fields.add name value with
      | none => none
      | some fields => addFields? fields rest

def fieldsOf? : Tree → Option (Fields Tree)
  | .object members => addFields? Fields.none members
  | .array [namePrefix, injection, rootFontSize, tokens] =>
    some ⟨some namePrefix, some injection, some rootFontSize, some tokens⟩
  | _ => none

def readSettings? (text : String) : Option Settings := do
  let tree ← parse? text.toList
  let fields ← fieldsOf? tree
  fields.settings? prefixOf? injectionOf? numberOf? tokensOf?

def commaSeparated : List (List Char) → List Char
  | [] => []
  | [text] => text
  | text :: rest => text ++ ',' :: commaSeparated rest

def braced (members : List (List Char)) : List Char :=
  '\x7b' :: commaSeparated members ++ ['\x7d']

def memberText (name : String) (value : List Char) : List Char :=
  quote name ++ ':' :: value

mutual

def nodeText : TokenNode → List Char
  | .text value => quote value
  | .number value => floatText value
  | .table entries => braced (memberTexts entries)

def memberTexts : TokenTable → List (List Char)
  | .empty => []
  | .entry key node rest => memberText key (nodeText node) :: memberTexts rest

end

def settingsText (settings : Settings) : String :=
  let namePrefix := match settings.namePrefix with
    | some text => [memberText "prefix" (quote text)]
    | none => []
  String.ofList (braced (namePrefix ++ [
    memberText "inject" (quote settings.injection.name),
    memberText "rootFontSize" (floatText settings.rootFontSize),
    memberText "tokens" (braced (memberTexts settings.tokens))]))

end DesignTokens.Json
