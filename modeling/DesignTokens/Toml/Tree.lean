import DesignTokens.Register

/-!
TOML as a tree. A table remembers how it came about, because that decides what may still be added
to it: an inline table is closed; a table that a header names is closed to dotted keys; a table
that only lies on the way to another one may still get a header of its own.
-/

namespace DesignTokens.Toml

inductive Kind where
  | inlined
  | header
  | implied
  | dotted
  deriving DecidableEq, Repr

inductive Tree where
  | text (value : String)
  | integer (value : Int)
  | float (value : Float)
  | boolean (value : Bool)
  | dateTime (text : String)
  | array (items : List Tree)
  | table (kind : Kind) (entries : List (String × Tree))
  | tables (items : List (List (String × Tree)))

abbrev Entries := List (String × Tree)

/-- Which way leads through the tables. -/
inductive Way where
  | header
  | dottedKey
  deriving DecidableEq, Repr

def Way.kind : Way → Kind
  | .header => .implied
  | .dottedKey => .dotted

def Way.enters (way : Way) (kind : Kind) : Bool :=
  match kind, way with
  | .inlined, _ => false
  | .header, .dottedKey => false
  | _, _ => true

/-- Changes the table at a path and makes the tables missing on the way. Of repeated tables the
last one is meant. -/
def changeAt {α : Type} (way : Way) (change : Kind → Entries → Option (Entries × α))
    (path : List String) (kind : Kind) (entries : Entries) : Option (Entries × α) :=
  match path with
  | [] => change kind entries
  | key :: rest =>
    match Register.findEntry key entries with
    | none =>
      (changeAt way change rest way.kind []).map fun (inner, result) =>
        (Register.putEntry key (.table way.kind inner) entries, result)
    | some (.table innerKind inner) =>
      if way.enters innerKind then
        (changeAt way change rest innerKind inner).map fun (inner, result) =>
          (Register.putEntry key (.table innerKind inner) entries, result)
      else
        none
    | some (.tables items) =>
      match items.getLast? with
      | none => none
      | some last =>
        (changeAt way change rest .header last).map fun (inner, result) =>
          (Register.putEntry key (.tables (items.dropLast ++ [inner])) entries, result)
    | some _ => none

def addNew? (key : String) (value : Tree) (entries : Entries) : Option Entries :=
  match Register.findEntry key entries with
  | none => some (entries ++ [(key, value)])
  | some _ => none

/-- Adds a value under a dotted key. With one part the key has to belong to the table itself, with
more parts to a table that dotted keys have made. -/
def addValue? (entries : Entries) (path : List String) (value : Tree) : Option Entries :=
  match path.getLast? with
  | none => none
  | some key =>
    let above := path.dropLast
    (changeAt .dottedKey (fun kind inner =>
      if (kind = .dotted) = above.isEmpty then none
      else (addNew? key value inner).map fun inner => (inner, ())) above .header entries).map
      Prod.fst

end DesignTokens.Toml
