import DesignTokens.Toml.Value

/-!
Documents of TOML: keys with values, under headers of tables.
-/

namespace DesignTokens.Toml

inductive Place where
  | top
  | table (path : List String)
  | item (path : List String)

/-- A document part way through: the finished tables, and the entries of the table that is open. -/
structure Document where
  root : Entries
  opened : Entries
  place : Place

namespace Document

def placeTable (path : List String) (change : String → Entries → Option Entries)
    (root : Entries) : Option Entries :=
  match path.getLast? with
  | none => none
  | some key =>
    (changeAt .header (fun _ entries => (change key entries).map fun entries => (entries, ()))
      path.dropLast .header root).map Prod.fst

def addItem? (entries : Entries) (key : String) (parent : Entries) : Option Entries :=
  match Register.findEntry key parent with
  | none => some (parent ++ [(key, .tables [entries])])
  | some (.tables items) => some (Register.putEntry key (.tables (items ++ [entries])) parent)
  | some _ => none

def close? (document : Document) : Option Entries :=
  match document.place with
  | .top => some document.opened
  | .table path =>
    placeTable path (fun key => addNew? key (.table .header document.opened)) document.root
  | .item path => placeTable path (addItem? document.opened) document.root

/-- Takes out a table that may get a header now: one that was only implied, or a new one. -/
def takeTable? (key : String) (parent : Entries) : Option (Entries × Entries) :=
  match Register.findEntry key parent with
  | none => some (parent, [])
  | some (.table .implied entries) => some (parent.filter fun entry => entry.1 ≠ key, entries)
  | some _ => none

def openTable? (document : Document) (path : List String) : Option Document := do
  let root ← document.close?
  let key ← path.getLast?
  let (root, opened) ← changeAt .header (fun _ entries => takeTable? key entries) path.dropLast
    .header root
  return ⟨root, opened, .table path⟩

def reserveItems? (key : String) (parent : Entries) : Option Entries :=
  match Register.findEntry key parent with
  | none => some (parent ++ [(key, .tables [])])
  | some (.tables _) => some parent
  | some _ => none

def openItem? (document : Document) (path : List String) : Option Document := do
  let root ← document.close?
  let root ← placeTable path reserveItems? root
  return ⟨root, [], .item path⟩

def header? (document : Document) (text : List Char) : Option (Document × List Char) := do
  match text with
  | '[' :: rest =>
    let (path, text) ← keyPath? rest
    match text with
    | ']' :: ']' :: rest => return (← document.openItem? path, ← finishLine? rest)
    | _ => none
  | _ =>
    let (path, text) ← keyPath? text
    match text with
    | ']' :: rest => return (← document.openTable? path, ← finishLine? rest)
    | _ => none

def keyValue? (document : Document) (text : List Char) : Option (Document × List Char) := do
  let ((path, tree), text) ← entry? (value? depthLimit) text
  let opened ← addValue? document.opened path tree
  return ({ document with opened := opened }, ← finishLine? text)

def run? (document : Document) (limit : Nat) (text : List Char) : Option Document :=
  match limit with
  | 0 => none
  | limit + 1 =>
    match dropSpaces text with
    | [] => some document
    | '#' :: rest =>
      match finishLine? ('#' :: rest) with
      | some rest => document.run? limit rest
      | none => none
    | '[' :: rest =>
      match document.header? rest with
      | some (document, rest) => document.run? limit rest
      | none => none
    | text =>
      match newline? text with
      | some rest => document.run? limit rest
      | none =>
        match document.keyValue? text with
        | some (document, rest) => document.run? limit rest
        | none => none

end Document

def dropMark : List Char → List Char
  | '\ufeff' :: rest => rest
  | text => text

def parse? (text : List Char) : Option Entries := do
  let document ← Document.run? ⟨[], [], .top⟩ (text.length + 1) (dropMark text)
  document.close?

end DesignTokens.Toml
