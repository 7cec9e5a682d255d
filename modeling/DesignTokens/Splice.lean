import DesignTokens.Resolution

/-!
Putting replacements into a text. Edits are made from the end of the text backwards, so that the
offsets of the edits still to come stay right.
-/

namespace DesignTokens

open DesignTokens.Text

structure Edit where
  span : Span
  text : List Char
  deriving DecidableEq, Repr

/-- A text that is edited from its end: the part still untouched, and the finished part after it. -/
structure Editing where
  untouched : List Char
  finished : List Char
  deriving DecidableEq, Repr

/-- An edit that does not fit into the untouched part is left out. -/
def Editing.step (editing : Editing) (edit : Edit) : Editing :=
  match cutSpan editing.untouched edit.span with
  | some (before, _, after) => ⟨before, edit.text ++ after ++ editing.finished⟩
  | none => editing

/-- Edits that end later come first; those that end together keep their order. -/
def latestFirst (edits : List Edit) : List Edit :=
  edits.mergeSort fun left right => right.span.stop ≤ left.span.stop

def applyEdits (text : List Char) (edits : List Edit) : List Char :=
  let editing := (latestFirst edits).foldl Editing.step ⟨text, []⟩
  editing.untouched ++ editing.finished

def ResolvedToken.edit (token : ResolvedToken) : Edit :=
  ⟨token.location, token.replacement.toList⟩

def replaceCalls (text : String) (tokens : List ResolvedToken) : String :=
  String.ofList (applyEdits text.toList (tokens.map ResolvedToken.edit))

def replaceSpan (text : String) (span : Span) (replacement : String) : String :=
  match exchange text.toList span replacement.toList with
  | some result => String.ofList result
  | none => text

def compile (config : Config) (text : String) : String × List Diagnostic :=
  let (calls, found) := extract text
  let (resolved, unresolved) := resolve config calls
  (replaceCalls text resolved, found ++ unresolved)

end DesignTokens
