import DesignTokens.Json.Settings
import DesignTokens.Proofs.Json.Lexemes
import DesignTokens.Proofs.Json.Trees

/-!
Tables of tokens that are written as JSON and read again. The text of a table is read as one tree,
which gives back every key, leaf and nested table in its place.
-/

namespace DesignTokens.Json

open DesignTokens.Number

/-! How the pieces of an object or an array are read. -/

theorem lexemes?_mark {mark : Char} (lexeme : Lexeme) (after : List Char)
    (visible : isBlank mark = false) (quote : mark ≠ '"')
    (read : fixedLexeme? (mark :: after) = some (lexeme, after)) :
    lexemes? (mark :: after) = (lexemes? after).map (lexeme :: ·) := by
  refine lexemes?_lexeme (by simp [visible]) ?_
  rw [lexeme?]
  · simp only [read]
  · exact fun rest same => quote (List.cons.inj same).1

theorem lexemes?_comma (after : List Char) :
    lexemes? (',' :: after) = (lexemes? after).map (.comma :: ·) :=
  lexemes?_mark .comma after rfl (by decide) rfl

theorem reads_member (name : String) {value : List Char} {written : List Lexeme}
    (reads : Reads value written) :
    Reads (memberText name value) (.quoted (piecesOf name) :: .colon :: written) := by
  intro mark ends after
  have colon := lexemes?_mark .colon (value ++ mark :: after) rfl (by decide : ':' ≠ '"') rfl
  rw [memberText, List.append_assoc, lexemes?_quote, List.cons_append, colon,
    reads mark ends, Option.map_map, Option.map_map]
  rfl

theorem reads_commaSeparated {texts : List (List Char)} {parts : List (List Lexeme)}
    (reads : List.Forall₂ Reads texts parts) : Reads (commaSeparated texts) (separated parts) := by
  induction reads with
  | nil =>
    intro mark _ after
    exact Option.map_id'.symm
  | @cons text part texts parts first others ih =>
    cases others with
    | nil => simpa [commaSeparated, separated] using first
    | @cons second other texts parts next rest =>
      intro mark ends after
      have joined : separated (part :: other :: parts) =
          part ++ .comma :: separated (other :: parts) := by
        rw [separated_cons part, separated_cons other]
        rfl
      rw [commaSeparated, List.append_assoc, List.cons_append, first _ rfl, lexemes?_comma,
        ih mark ends, Option.map_map, Option.map_map, joined]
      · congr 1
        funext later
        simp
      · intro empty
        contradiction

/-- An object ends with its own bracket, so it is read whatever follows. -/
theorem lexemes?_braced {texts : List (List Char)} {parts : List (List Lexeme)}
    (reads : List.Forall₂ Reads texts parts) (after : List Char) :
    lexemes? (braced texts ++ after) =
      (lexemes? after).map (.openObject :: separated parts ++ [.closeObject] ++ ·) := by
  have start := lexemes?_mark .openObject (commaSeparated texts ++ '\x7d' :: after) rfl
    (by decide : '\x7b' ≠ '"') rfl
  have finish := lexemes?_mark .closeObject after rfl (by decide : '\x7d' ≠ '"') rfl
  rw [braced, List.append_assoc, List.cons_append, List.singleton_append, start,
    reads_commaSeparated reads _ rfl, finish, Option.map_map, Option.map_map]
  congr 1
  funext later
  simp

theorem reads_braced {texts : List (List Char)} {parts : List (List Lexeme)}
    (reads : List.Forall₂ Reads texts parts) :
    Reads (braced texts) (.openObject :: separated parts ++ [.closeObject]) :=
  fun _ _ _ => lexemes?_braced reads _

def bracketed (items : List (List Char)) : List Char :=
  '[' :: commaSeparated items ++ [']']

theorem reads_bracketed {texts : List (List Char)} {parts : List (List Lexeme)}
    (reads : List.Forall₂ Reads texts parts) :
    Reads (bracketed texts) (.openArray :: separated parts ++ [.closeArray]) := by
  intro mark _ after
  have start := lexemes?_mark .openArray (commaSeparated texts ++ ']' :: mark :: after) rfl
    (by decide : '[' ≠ '"') rfl
  have finish := lexemes?_mark .closeArray (mark :: after) rfl (by decide : ']' ≠ '"') rfl
  rw [bracketed, List.append_assoc, List.cons_append, List.singleton_append, start,
    reads_commaSeparated reads _ rfl, finish, Option.map_map, Option.map_map]
  congr 1
  funext later
  simp

/-! Numbers that are read as they were. -/

def wholeNumeral? (text : List Char) : Option Numeral :=
  match numeral? text with
  | some (numeral, []) => some numeral
  | _ => none

/-- The double comes back when it is written and read. -/
def Survives (x : Float) : Prop :=
  (wholeNumeral? (floatText x)).bind numeralValue? = some x

def writtenNumeral (x : Float) : Numeral :=
  (wholeNumeral? (floatText x)).getD ⟨false, [], [], none⟩

theorem Survives.numeral {x : Float} (survives : Survives x) :
    numeral? (floatText x) = some (writtenNumeral x, []) ∧
      numeralValue? (writtenNumeral x) = some x := by
  obtain ⟨numeral, found, value⟩ := Option.bind_eq_some_iff.1 survives
  rw [writtenNumeral, found, Option.getD_some]
  refine ⟨?_, value⟩
  unfold wholeNumeral? at found
  split at found
  · rename_i read
    rw [read, Option.some.inj found]
  · contradiction

theorem Survives.reads {x : Float} (survives : Survives x) :
    Reads (floatText x) [.number (writtenNumeral x)] :=
  reads_numeral survives.numeral.1

end DesignTokens.Json

namespace DesignTokens

/-! Tables that can be written. -/

mutual

/-- No key stands twice in a table, and the numbers come back when they are written and read. -/
def TokenNode.Storable : TokenNode → Prop
  | .text _ => True
  | .number value => Json.Survives value
  | .table entries => entries.Storable

def TokenTable.Storable : TokenTable → Prop
  | .empty => True
  | .entry key node rest => rest.get? key = none ∧ node.Storable ∧ rest.Storable

end

mutual

def TokenNode.depth : TokenNode → Nat
  | .text _ => 0
  | .number _ => 0
  | .table entries => entries.depth + 1

def TokenTable.depth : TokenTable → Nat
  | .empty => 0
  | .entry _ node rest => max node.depth rest.depth

end

namespace TokenTable

def append (table after : TokenTable) : TokenTable :=
  match table with
  | .empty => after
  | .entry key node rest => .entry key node (rest.append after)

theorem append_empty (table : TokenTable) : table.append .empty = table := by
  match table with
  | .empty => rfl
  | .entry key node rest => rw [append, append_empty rest]

theorem append_entry (table rest : TokenTable) (key : String) (node : TokenNode) :
    (table.append (.entry key node .empty)).append rest = table.append (.entry key node rest) := by
  match table with
  | .empty => rfl
  | .entry other old others => rw [append, append, append, append_entry others]

theorem insert_absent {table : TokenTable} {key : String} (absent : table.get? key = none)
    (node : TokenNode) : table.insert key node = table.append (.entry key node .empty) := by
  match table with
  | .empty => rfl
  | .entry other old rest =>
    rw [get?] at absent
    split at absent
    · contradiction
    · rename_i different
      rw [insert, if_neg different, append, insert_absent absent]

theorem get?_append (table after : TokenTable) (key : String) :
    (table.append after).get? key = (table.get? key).or (after.get? key) := by
  match table with
  | .empty => rfl
  | .entry other old rest =>
    rw [append, get?, get?]
    split
    · rfl
    · exact get?_append rest after key

end TokenTable

namespace Json

mutual

def nodeTree : TokenNode → Tree
  | .text value => .quoted (piecesOf value)
  | .number value => .number (writtenNumeral value)
  | .table entries => .object (memberTrees entries)

def memberTrees : TokenTable → List (List Piece × Tree)
  | .empty => []
  | .entry key node rest => (piecesOf key, nodeTree node) :: memberTrees rest

end

mutual

theorem reads_nodeText (node : TokenNode) (storable : node.Storable) :
    Reads (nodeText node) (nodeTree node).lexemes := by
  match node with
  | .text value => exact reads_quote value
  | .number value => exact Survives.reads storable
  | .table entries => exact reads_braced (reads_memberTexts entries storable)

theorem reads_memberTexts (table : TokenTable) (storable : table.Storable) :
    List.Forall₂ Reads (memberTexts table) (memberLexemes (memberTrees table)) := by
  match table with
  | .empty => exact .nil
  | .entry key node rest =>
    obtain ⟨-, first, others⟩ := storable
    exact .cons (reads_member key (reads_nodeText node first)) (reads_memberTexts rest others)

end

theorem stringOf?_piecesOf (text : String) : stringOf? (piecesOf text) = some text := by
  rw [stringOf?, piecesOf, textOfPieces?_pieceOf, Option.map_some, String.ofList_toList]

mutual

theorem nodeOf?_nodeTree (node : TokenNode) (storable : node.Storable) :
    nodeOf? (nodeTree node) = some node := by
  match node with
  | .text value => rw [nodeTree, nodeOf?, stringOf?_piecesOf, Option.map_some]
  | .number value => rw [nodeTree, nodeOf?, (Survives.numeral storable).2, Option.map_some]
  | .table entries =>
    have read := addMembers?_memberTrees entries storable .empty fun _ _ => rfl
    rw [nodeTree, nodeOf?, read]
    rfl

theorem addMembers?_memberTrees (table : TokenTable) (storable : table.Storable)
    (base : TokenTable) (fresh : ∀ key, (table.get? key).isSome = true → base.get? key = none) :
    addMembers? base (memberTrees table) = some (base.append table) := by
  match table with
  | .empty => rw [memberTrees, addMembers?, TokenTable.append_empty]
  | .entry key node rest =>
    obtain ⟨alone, first, others⟩ := storable
    have new : base.get? key = none := fresh key (by simp [TokenTable.get?])
    have later : ∀ other, (rest.get? other).isSome = true →
        (base.append (.entry key node .empty)).get? other = none := by
      intro other found
      have different : key ≠ other := by
        rintro rfl
        rw [alone] at found
        contradiction
      have absent := fresh other (by rwa [TokenTable.get?, if_neg different])
      rw [TokenTable.get?_append, absent, TokenTable.get?, if_neg different]
      rfl
    have tail := addMembers?_memberTrees rest others (base.append (.entry key node .empty)) later
    rw [memberTrees, addMembers?, stringOf?_piecesOf, nodeOf?_nodeTree node first]
    simp only
    rw [TokenTable.insert_absent new, tail, TokenTable.append_entry]

end

mutual

theorem depth_nodeTree (node : TokenNode) : (nodeTree node).depth = node.depth := by
  match node with
  | .text _ => rfl
  | .number _ => rfl
  | .table entries => rw [nodeTree, Tree.depth, TokenNode.depth, depth_memberTrees entries]

theorem depth_memberTrees (table : TokenTable) :
    depthOfMembers (memberTrees table) = table.depth := by
  match table with
  | .empty => rfl
  | .entry _ node rest =>
    rw [memberTrees, depthOfMembers, TokenTable.depth, depth_nodeTree node, depth_memberTrees rest]

end

/-! Tables, alone and in a list. -/

theorem tableOf?_nodeTree {table : TokenTable} (storable : table.Storable) :
    tableOf? (nodeTree (.table table)) = some table :=
  addMembers?_memberTrees table storable .empty fun _ _ => rfl

theorem tokensOf?_table {table : TokenTable} (storable : table.Storable) :
    tokensOf? (nodeTree (.table table)) =
      if table.depth + 1 < depthLimit then some table else none := by
  rw [tokensOf?, depth_nodeTree, TokenNode.depth]
  · by_cases fits : table.depth + 1 < depthLimit
    · rw [if_neg (by omega), if_pos fits]
      exact tableOf?_nodeTree storable
    · rw [if_pos (by omega), if_neg fits]
  · exact fun items same => nomatch same

def tablesText (tables : List TokenTable) : List Char :=
  bracketed (tables.map fun table => nodeText (.table table))

def tablesTree (tables : List TokenTable) : Tree :=
  .array (tables.map fun table => nodeTree (.table table))

theorem reads_tablesText {tables : List TokenTable}
    (storable : ∀ table ∈ tables, table.Storable) :
    Reads (tablesText tables) (tablesTree tables).lexemes := by
  refine reads_bracketed ?_
  induction tables with
  | nil => exact .nil
  | cons table rest ih =>
    exact .cons (reads_nodeText (.table table) (storable table List.mem_cons_self))
      (ih fun other member => storable other (List.mem_cons_of_mem _ member))

theorem depthOfItems_lt (tables : List TokenTable) {bound : Nat} (positive : 0 < bound) :
    depthOfItems (tables.map fun table => nodeTree (.table table)) < bound ↔
      ∀ table ∈ tables, table.depth + 1 < bound := by
  induction tables with
  | nil => simpa [depthOfItems] using positive
  | cons table rest ih =>
    rw [List.map_cons, depthOfItems, depth_nodeTree, TokenNode.depth, List.forall_mem_cons, ← ih]
    omega

theorem mapM_tableOf? {tables : List TokenTable} (storable : ∀ table ∈ tables, table.Storable) :
    (tables.map fun table => nodeTree (.table table)).mapM tableOf? = some tables := by
  induction tables with
  | nil => rfl
  | cons table rest ih =>
    obtain ⟨first, others⟩ := List.forall_mem_cons.1 storable
    rw [List.map_cons, List.mapM_cons, tableOf?_nodeTree first, ih others]
    rfl

theorem tokensOf?_tables {tables : List TokenTable}
    (storable : ∀ table ∈ tables, table.Storable) :
    tokensOf? (tablesTree tables) =
      if ∀ table ∈ tables, table.depth + 2 < depthLimit then some (TokenTable.mergeAll tables)
      else none := by
  have fits : depthOfItems (tables.map fun table => nodeTree (.table table)) + 1 < depthLimit ↔
      ∀ table ∈ tables, table.depth + 2 < depthLimit := by
    have positive : 0 < depthLimit - 1 := by decide
    have below := depthOfItems_lt tables positive
    simpa only [Nat.lt_sub_iff_add_lt] using below
  rw [tablesTree, tokensOf?, Tree.depth, mapM_tableOf? storable, Option.map_some]
  simp only [← Nat.not_lt, fits]
  split <;> simp_all

end Json

end DesignTokens
