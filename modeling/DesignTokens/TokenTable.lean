import DesignTokens.Number.Layout

/-!
Nested tables of token values, in the order of declaration.
-/

namespace DesignTokens

open DesignTokens.Number

mutual

inductive TokenNode where
  | text (value : String)
  | number (value : Float)
  | table (entries : TokenTable)

inductive TokenTable where
  | empty
  | entry (key : String) (node : TokenNode) (rest : TokenTable)

end

instance : Inhabited TokenTable := ⟨.empty⟩

namespace TokenNode

def leafText : TokenNode → Option String
  | .text value => some value
  | .number value => some (cssText value)
  | .table _ => none

def isTable : TokenNode → Bool
  | .table _ => true
  | _ => false

end TokenNode

namespace TokenTable

def toList : TokenTable → List (String × TokenNode)
  | .empty => []
  | .entry key node rest => (key, node) :: rest.toList

def size (table : TokenTable) : Nat :=
  table.toList.length

def isEmpty : TokenTable → Bool
  | .empty => true
  | .entry _ _ _ => false

def get? (table : TokenTable) (key : String) : Option TokenNode :=
  match table with
  | .empty => none
  | .entry other node rest => if other = key then some node else rest.get? key

/-- A new key comes last; an old one keeps its place. -/
def insert (table : TokenTable) (key : String) (node : TokenNode) : TokenTable :=
  match table with
  | .empty => .entry key node .empty
  | .entry other old rest =>
    if other = key then .entry key node rest
    else .entry other old (rest.insert key node)

def ofList (entries : List (String × TokenNode)) : TokenTable :=
  entries.foldl (fun table (key, node) => table.insert key node) .empty

end TokenTable

mutual

/-- Puts a node under a key; two tables under one key are merged. -/
def TokenNode.mergeInto (base : TokenTable) (key : String) : TokenNode → TokenTable
  | .text value => base.insert key (.text value)
  | .number value => base.insert key (.number value)
  | .table incoming =>
    match base.get? key with
    | some (.table existing) => base.insert key (.table (TokenTable.merge existing incoming))
    | _ => base.insert key (.table incoming)

def TokenTable.merge (base : TokenTable) : TokenTable → TokenTable
  | .empty => base
  | .entry key node rest => TokenTable.merge (node.mergeInto base key) rest

end

def TokenTable.mergeAll (tables : List TokenTable) : TokenTable :=
  tables.foldl TokenTable.merge .empty

namespace TokenTable

theorem get?_insert_self (table : TokenTable) (key : String) (node : TokenNode) :
    (table.insert key node).get? key = some node := by
  induction table using TokenTable.rec (motive_1 := fun _ => True) with
  | text => trivial
  | number => trivial
  | table => trivial
  | empty => simp [insert, get?]
  | entry other old rest _ ih =>
    simp only [insert]
    split
    · simp [get?]
    · rename_i different
      simp [get?, different, ih]

theorem get?_insert_of_ne (table : TokenTable) {key sought : String} (node : TokenNode)
    (different : key ≠ sought) : (table.insert key node).get? sought = table.get? sought := by
  induction table using TokenTable.rec (motive_1 := fun _ => True) with
  | text => trivial
  | number => trivial
  | table => trivial
  | empty => simp [insert, get?, different]
  | entry other old rest _ ih =>
    simp only [insert]
    split
    · rename_i same
      subst same
      simp [get?, different]
    · simp [get?, ih]

end TokenTable

end DesignTokens
