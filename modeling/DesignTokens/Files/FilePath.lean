/-!
Paths of files, as text. A path is read as a list of steps: repeated and trailing slashes count for
nothing, and neither does a dot, except at the start of a relative path.
-/

namespace DesignTokens

structure FilePath where
  text : String
  deriving DecidableEq, Repr, Inhabited

inductive PathStep where
  | root
  | here
  | up
  | down (name : List Char)
  deriving DecidableEq, Repr

namespace FilePath

def splitSlashes : List Char → List (List Char)
  | [] => [[]]
  | c :: rest =>
    if c = '/' then [] :: splitSlashes rest
    else
      match splitSlashes rest with
      | piece :: others => (c :: piece) :: others
      | [] => [[c]]

def isAbsolute (path : FilePath) : Bool :=
  path.text.toList.head? = some '/'

def startsHere : List Char → Bool
  | ['.'] => true
  | '.' :: '/' :: _ => true
  | _ => false

def stepOfPiece? (piece : List Char) : Option PathStep :=
  if piece = [] || piece = ['.'] then none
  else if piece = ['.', '.'] then some .up
  else some (.down piece)

def steps (path : FilePath) : List PathStep :=
  let text := path.text.toList
  let first := if path.isAbsolute then [.root] else if startsHere text then [.here] else []
  first ++ (splitSlashes text).filterMap stepOfPiece?

/-- The steps of a text where idle pieces stay in place, as they need a directory to stay in. -/
def trail (path : FilePath) : List PathStep :=
  (splitSlashes path.text.toList).map fun piece => (stepOfPiece? piece).getD .here

def same (left right : FilePath) : Bool :=
  left.steps = right.steps

def startsWith (path start : FilePath) : Bool :=
  start.steps.isPrefixOf path.steps

def dropIdle : List Char → List Char
  | '/' :: rest => dropIdle rest
  | ['.'] => []
  | '.' :: '/' :: rest => dropIdle rest
  | text => text

def headAndBody (path : FilePath) : List Char × List Char :=
  let text := path.text.toList
  if path.isAbsolute || startsHere text then (text.take 1, (text.drop 1).reverse)
  else ([], text.reverse)

/-- The path without its last step. The root and the empty path have no parent. -/
def parent? (path : FilePath) : Option FilePath :=
  let (head, body) := path.headAndBody
  match dropIdle body with
  | [] => if head = ['.'] then some ⟨""⟩ else none
  | body => some ⟨String.ofList (head ++ (dropIdle (body.dropWhile (· ≠ '/'))).reverse)⟩

def fileName? (path : FilePath) : Option (List Char) :=
  match path.steps.getLast? with
  | some (.down name) => some name
  | _ => none

/-- The part of the file name after its last dot, unless that dot comes first. -/
def extension? (path : FilePath) : Option String := do
  let name := (← path.fileName?).reverse
  let ending := name.takeWhile (· ≠ '.')
  match name.dropWhile (· ≠ '.') with
  | _ :: _ :: _ => some (String.ofList ending.reverse)
  | _ => none

def join (base below : FilePath) : FilePath :=
  if below.isAbsolute then below
  else
    match base.text.toList.getLast? with
    | none => below
    | some '/' => ⟨base.text ++ below.text⟩
    | some _ => ⟨base.text ++ "/" ++ below.text⟩

theorem dropIdle_suffix (text : List Char) : dropIdle text <:+ text := by
  fun_induction dropIdle text with
  | case1 rest ih => exact ih.trans (List.suffix_cons _ _)
  | case2 => exact List.nil_suffix
  | case3 rest ih => exact ih.trans ⟨['.', '/'], rfl⟩
  | case4 => exact List.suffix_refl _

theorem dropIdle_ne_slash (text rest : List Char) : dropIdle text ≠ '/' :: rest := by
  fun_induction dropIdle text with
  | case1 _ ih => exact ih
  | case2 => simp
  | case3 _ ih => exact ih
  | case4 text slashless _ _ =>
    intro starts
    exact slashless rest starts

theorem parent?_length (path : FilePath) {directory : FilePath}
    (above : path.parent? = some directory) : directory.text.length < path.text.length := by
  have parts : path.headAndBody.1.length + path.headAndBody.2.length = path.text.length := by
    unfold headAndBody
    rw [← String.length_toList]
    dsimp only
    split
    · simp only [List.length_take, List.length_reverse, List.length_drop]
      omega
    · simp
  unfold parent? at above
  generalize path.headAndBody = both at above parts
  obtain ⟨head, body⟩ := both
  dsimp only at above parts
  have suffix := (dropIdle_suffix body).length_le
  split at above
  · split at above
    · rename_i starts
      simp only [Option.some.injEq] at above
      subst above
      simp [starts] at parts ⊢
      omega
    · contradiction
  · rename_i nonempty
    simp only [Option.some.injEq] at above
    subst above
    have idle := (dropIdle_suffix ((dropIdle body).dropWhile (· ≠ '/'))).length_le
    have shorter : ((dropIdle body).dropWhile (· ≠ '/')).length < (dropIdle body).length := by
      cases found : dropIdle body with
      | nil => exact absurd found nonempty
      | cons c rest =>
        have slashless : c ≠ '/' := fun same => dropIdle_ne_slash body rest (same ▸ found)
        have dropped := (List.dropWhile_suffix (l := rest) fun other => decide ¬other = '/').length_le
        simp only [List.dropWhile_cons, slashless, ne_eq, not_false_eq_true, decide_true, if_true,
          List.length_cons]
        omega
    simp only [String.length_ofList, List.length_append, List.length_reverse]
    omega

end FilePath

end DesignTokens
