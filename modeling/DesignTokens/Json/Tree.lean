import DesignTokens.Json.Lexeme

/-!
JSON as a tree. A machine reads the lexemes one by one and keeps the arrays and objects that are
still open; a text is JSON if the machine ends with one value. Strings and numbers stay as they are
written, so that parts of a text that nobody looks at are only checked for their form.
-/

namespace DesignTokens.Json

open DesignTokens.Number

inductive Tree where
  | null
  | boolean (value : Bool)
  | number (numeral : Numeral)
  | quoted (pieces : List Piece)
  | array (items : List Tree)
  | object (members : List (List Piece × Tree))

/-- An array or object that is still open, its contents latest first. An object keeps the key that
was read last. -/
inductive Frame where
  | array (items : List Tree)
  | object (members : List (List Piece × Tree)) (key : List Piece)

inductive Phase where
  | value
  | firstItem
  | firstKey
  | key
  | colon
  | separator
  | finished (tree : Tree)

structure Reader where
  frames : List Frame
  phase : Phase

namespace Reader

def complete (frames : List Frame) (tree : Tree) : Reader :=
  match frames with
  | [] => ⟨[], .finished tree⟩
  | .array items :: outer => ⟨.array (tree :: items) :: outer, .separator⟩
  | .object members key :: outer => ⟨.object ((key, tree) :: members) key :: outer, .separator⟩

def startValue (frames : List Frame) : Lexeme → Option Reader
  | .null => some (complete frames .null)
  | .boolean value => some (complete frames (.boolean value))
  | .number numeral => some (complete frames (.number numeral))
  | .quoted pieces => some (complete frames (.quoted pieces))
  | .openArray => some ⟨.array [] :: frames, .firstItem⟩
  | .openObject => some ⟨.object [] [] :: frames, .firstKey⟩
  | _ => none

def close (frames : List Frame) (lexeme : Lexeme) : Option Reader :=
  match frames, lexeme with
  | .array items :: outer, .closeArray => some (complete outer (.array items.reverse))
  | .object members _ :: outer, .closeObject => some (complete outer (.object members.reverse))
  | _, _ => none

def readKey (frames : List Frame) (lexeme : Lexeme) : Option Reader :=
  match frames, lexeme with
  | .object members _ :: outer, .quoted key => some ⟨.object members key :: outer, .colon⟩
  | _, _ => none

def afterComma (frames : List Frame) : Option Reader :=
  match frames with
  | .array _ :: _ => some ⟨frames, .value⟩
  | .object _ _ :: _ => some ⟨frames, .key⟩
  | [] => none

def step (reader : Reader) (lexeme : Lexeme) : Option Reader :=
  match reader.phase with
  | .value => startValue reader.frames lexeme
  | .firstItem =>
    if lexeme = .closeArray then close reader.frames lexeme
    else startValue reader.frames lexeme
  | .firstKey =>
    if lexeme = .closeObject then close reader.frames lexeme
    else readKey reader.frames lexeme
  | .key => readKey reader.frames lexeme
  | .colon => if lexeme = .colon then some ⟨reader.frames, .value⟩ else none
  | .separator =>
    if lexeme = .comma then afterComma reader.frames else close reader.frames lexeme
  | .finished _ => none

def result? (reader : Reader) : Option Tree :=
  match reader.phase with
  | .finished tree => some tree
  | _ => none

end Reader

def parse? (text : List Char) : Option Tree := do
  let lexemes ← lexemes? text
  let reader ← lexemes.foldlM Reader.step ⟨[], .value⟩
  reader.result?

mutual

def Tree.depth : Tree → Nat
  | .array items => depthOfItems items + 1
  | .object members => depthOfMembers members + 1
  | _ => 0

def depthOfItems : List Tree → Nat
  | [] => 0
  | item :: rest => max item.depth (depthOfItems rest)

def depthOfMembers : List (List Piece × Tree) → Nat
  | [] => 0
  | (_, value) :: rest => max value.depth (depthOfMembers rest)

end

def stringOf? (pieces : List Piece) : Option String :=
  (textOfPieces? pieces).map String.ofList

end DesignTokens.Json
