import DesignTokens.Toml.DateTime
import DesignTokens.Toml.Numeral
import DesignTokens.Toml.Quoted
import DesignTokens.Toml.Tree

/-!
Values of TOML. Arrays may spread over several lines; inline tables may not, and have no comma
after their last entry.
-/

namespace DesignTokens.Toml

abbrev Reader := List Char → Option (Tree × List Char)

def items? (item : Reader) (limit : Nat) (text : List Char) : Option (List Tree × List Char) :=
  match limit with
  | 0 => none
  | limit + 1 => do
    match ← dropBlank? false text with
    | ']' :: rest => return ([], rest)
    | text =>
      let (first, text) ← item text
      match ← dropBlank? false text with
      | ',' :: rest =>
        let (others, rest) ← items? item limit rest
        return (first :: others, rest)
      | ']' :: rest => return ([first], rest)
      | _ => none

def entry? (value : Reader) (text : List Char) : Option ((List String × Tree) × List Char) := do
  let (path, text) ← keyPath? text
  match text with
  | '=' :: rest =>
    let (tree, rest) ← value (dropSpaces rest)
    return ((path, tree), rest)
  | _ => none

def inlineEntries? (value : Reader) (limit : Nat) (entries : Entries) (text : List Char) :
    Option (Entries × List Char) :=
  match limit with
  | 0 => none
  | limit + 1 => do
    let ((path, tree), text) ← entry? value text
    let entries ← addValue? entries path tree
    match dropSpaces text with
    | ',' :: rest => inlineEntries? value limit entries rest
    | '\x7d' :: rest => return (entries, rest)
    | _ => none

def inlineTable? (value : Reader) (text : List Char) : Option (Entries × List Char) :=
  match dropSpaces text with
  | '\x7d' :: rest => some ([], rest)
  | text => inlineEntries? value text.length [] text

def numeric? (text : List Char) : Option (Tree × List Char) :=
  match dateTime? text with
  | some (value, rest) => some (.dateTime value, rest)
  | none =>
    match float? text with
    | some (value, rest) => some (.float value, rest)
    | none => (integer? text).map fun (value, rest) => (.integer value, rest)

def scalar? (text : List Char) : Option (Tree × List Char) :=
  match text with
  | 't' :: 'r' :: 'u' :: 'e' :: rest => some (.boolean true, rest)
  | 'f' :: 'a' :: 'l' :: 's' :: 'e' :: rest => some (.boolean false, rest)
  | _ =>
    match string? text with
    | some (value, rest) => some (.text value, rest)
    | none => numeric? text

def value? (depth : Nat) (text : List Char) : Option (Tree × List Char) :=
  match depth, text with
  | depth + 1, '[' :: rest =>
    (items? (value? depth) (rest.length + 1) rest).map fun (items, rest) => (.array items, rest)
  | depth + 1, '\x7b' :: rest =>
    (inlineTable? (value? depth) rest).map fun (entries, rest) => (.table .inlined entries, rest)
  | _, text => scalar? text

def depthLimit : Nat := 79

end DesignTokens.Toml
