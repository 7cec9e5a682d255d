import DesignTokens.Json.Tree
import Mathlib.Data.List.Basic

/-!
The lexemes of a JSON tree. The machine that reads them ends with the tree they were made of, so
what is written in this form is read back, however deeply it is nested.
-/

namespace DesignTokens.Json

def separated (parts : List (List Lexeme)) : List Lexeme :=
  [.comma].intercalate parts

theorem separated_cons (first : List Lexeme) (rest : List (List Lexeme)) :
    separated (first :: rest) = first ++ rest.flatMap (.comma :: ·) := by
  induction rest generalizing first with
  | nil => simp [separated]
  | cons second rest ih =>
    have tail := ih second
    rw [separated] at tail ⊢
    rw [List.intercalate_cons_cons, tail, List.flatMap_cons, List.append_assoc]
    rfl

mutual

def Tree.lexemes : Tree → List Lexeme
  | .null => [.null]
  | .boolean value => [.boolean value]
  | .number numeral => [.number numeral]
  | .quoted pieces => [.quoted pieces]
  | .array items => .openArray :: separated (itemLexemes items) ++ [.closeArray]
  | .object members => .openObject :: separated (memberLexemes members) ++ [.closeObject]

def itemLexemes : List Tree → List (List Lexeme)
  | [] => []
  | item :: rest => item.lexemes :: itemLexemes rest

def memberLexemes : List (List Piece × Tree) → List (List Lexeme)
  | [] => []
  | (key, value) :: rest => (.quoted key :: .colon :: value.lexemes) :: memberLexemes rest

end

namespace Reader

/-- A value starts in the same way whether or not a closing bracket might stand in its place. -/
theorem run_firstItem (tree : Tree) (frames : List Frame) (rest : List Lexeme) :
    (tree.lexemes ++ rest).foldlM step ⟨frames, .firstItem⟩ =
      (tree.lexemes ++ rest).foldlM step ⟨frames, .value⟩ := by
  cases tree <;> rfl

mutual

/-- The machine takes the lexemes of a tree as one complete value. -/
theorem run_tree (tree : Tree) (frames : List Frame) (rest : List Lexeme) :
    (tree.lexemes ++ rest).foldlM step ⟨frames, .value⟩ =
      rest.foldlM step (complete frames tree) := by
  match tree with
  | .null | .boolean _ | .number _ | .quoted _ => rfl
  | .array [] => rfl
  | .array (item :: items) =>
    calc ((Tree.array (item :: items)).lexemes ++ rest).foldlM step ⟨frames, .value⟩
      _ = (item.lexemes ++ ((itemLexemes items).flatMap (.comma :: ·) ++
            .closeArray :: rest)).foldlM step ⟨.array [] :: frames, .firstItem⟩ := by
        rw [Tree.lexemes, itemLexemes, separated_cons]
        simp only [List.cons_append, List.append_assoc, List.nil_append]
        rfl
      _ = ((itemLexemes items).flatMap (.comma :: ·) ++ .closeArray :: rest).foldlM step
            ⟨.array [item] :: frames, .separator⟩ := by
        rw [run_firstItem, run_tree item]
        rfl
      _ = rest.foldlM step (complete frames (.array (item :: items))) :=
        run_items items [item] frames rest
  | .object [] => rfl
  | .object ((key, value) :: members) =>
    calc ((Tree.object ((key, value) :: members)).lexemes ++ rest).foldlM step ⟨frames, .value⟩
      _ = (value.lexemes ++ ((memberLexemes members).flatMap (.comma :: ·) ++
            .closeObject :: rest)).foldlM step ⟨.object [] key :: frames, .value⟩ := by
        rw [Tree.lexemes, memberLexemes, separated_cons]
        simp only [List.cons_append, List.append_assoc, List.nil_append]
        rfl
      _ = ((memberLexemes members).flatMap (.comma :: ·) ++ .closeObject :: rest).foldlM step
            ⟨.object [(key, value)] key :: frames, .separator⟩ := by
        rw [run_tree value]
        rfl
      _ = rest.foldlM step (complete frames (.object ((key, value) :: members))) :=
        run_members members [(key, value)] key frames rest

theorem run_items (items done : List Tree) (frames : List Frame) (rest : List Lexeme) :
    ((itemLexemes items).flatMap (.comma :: ·) ++ .closeArray :: rest).foldlM step
        ⟨.array done :: frames, .separator⟩ =
      rest.foldlM step (complete frames (.array (done.reverse ++ items))) := by
  match items with
  | [] =>
    rw [List.append_nil]
    rfl
  | item :: items =>
    rw [itemLexemes, List.flatMap_cons, List.cons_append, List.cons_append, List.append_assoc,
      List.foldlM_cons]
    refine (run_tree item (.array done :: frames) _).trans ?_
    refine (run_items items (item :: done) frames rest).trans ?_
    rw [List.reverse_cons, List.append_assoc, List.singleton_append]

theorem run_members (members done : List (List Piece × Tree)) (last : List Piece)
    (frames : List Frame) (rest : List Lexeme) :
    ((memberLexemes members).flatMap (.comma :: ·) ++ .closeObject :: rest).foldlM step
        ⟨.object done last :: frames, .separator⟩ =
      rest.foldlM step (complete frames (.object (done.reverse ++ members))) := by
  match members with
  | [] =>
    rw [List.append_nil]
    rfl
  | (key, value) :: members =>
    rw [memberLexemes, List.flatMap_cons, List.cons_append, List.cons_append, List.append_assoc,
      List.foldlM_cons]
    refine (run_tree value (.object done key :: frames) _).trans ?_
    refine (run_members members ((key, value) :: done) key frames rest).trans ?_
    rw [List.reverse_cons, List.append_assoc, List.singleton_append]

end

end Reader

theorem parse?_of_lexemes {text : List Char} {tree : Tree} (read : lexemes? text = some tree.lexemes) :
    parse? text = some tree := by
  have run := Reader.run_tree tree [] []
  rw [List.append_nil] at run
  rw [parse?, read, Option.bind_eq_bind, Option.bind_some, run]
  rfl

end DesignTokens.Json
