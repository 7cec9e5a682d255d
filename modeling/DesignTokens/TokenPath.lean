import DesignTokens.Text.Blank

/-!
Paths of tokens. A path is written with dots between its segments; a dot between two digits is a
decimal point and belongs to the segment.
-/

namespace DesignTokens

open DesignTokens.Text

structure TokenPath where
  segments : List String
  deriving DecidableEq, Repr, Inhabited

/-- Whether a dot with these neighbours is a decimal point. -/
def isDecimalPoint (before after : Option Char) : Bool :=
  before.any Char.isDigit && after.any Char.isDigit

/-- The pieces of a text between its separator dots; `before` is the character in front of it. -/
def splitDots (before : Option Char) : List Char → List (List Char)
  | [] => [[]]
  | c :: rest =>
    let pieces := splitDots (some c) rest
    if c = '.' && !isDecimalPoint before rest.head? then
      [] :: pieces
    else
      match pieces with
      | piece :: others => (c :: piece) :: others
      | [] => [[c]]

def joinWith (separator : List Char) (texts : List String) : String :=
  String.ofList (separator.intercalate (texts.map String.toList))

def escapeDots (text : String) : String :=
  String.ofList (text.toList.flatMap fun c => if c = '.' then ['\\', '.'] else [c])

namespace TokenPath

/-- The trimmed pieces; an empty last piece is left out. -/
def ofPieces (pieces : List (List Char)) : TokenPath :=
  let trimmed := pieces.map trim
  let kept := if trimmed.getLast? = some [] then trimmed.dropLast else trimmed
  ⟨kept.map String.ofList⟩

def ofDotPath (text : String) : TokenPath :=
  ofPieces (splitDots none text.toList)

def dotPath (path : TokenPath) : String :=
  joinWith ['.'] path.segments

def isEmpty (path : TokenPath) : Bool :=
  path.segments.isEmpty

def underPrefix (path : TokenPath) (first : String) : TokenPath :=
  ⟨first :: path.segments⟩

def cssVariable (path : TokenPath) : String :=
  "--" ++ joinWith ['-'] (path.segments.map escapeDots)

def cssReference (path : TokenPath) : String :=
  "var(" ++ path.cssVariable ++ ")"

end TokenPath

end DesignTokens
