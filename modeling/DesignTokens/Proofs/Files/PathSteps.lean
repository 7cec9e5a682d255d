import DesignTokens.Files.ConfigFile
import Mathlib.Data.List.TakeWhile

/-!
The steps of a path. Joining a name adds one step, the parent has one step less, and the directories
above an absolute path are the shorter and shorter beginnings of its steps.
-/

namespace DesignTokens

namespace FilePath

def stepsOf (text : List Char) : List PathStep :=
  (splitSlashes text).filterMap stepOfPiece?

theorem splitSlashes_ne_nil (text : List Char) : splitSlashes text ≠ [] := by
  cases text with
  | nil => simp [splitSlashes]
  | cons c rest =>
    rw [splitSlashes]
    split
    · simp
    · split <;> simp

theorem splitSlashes_append (left right : List Char) :
    splitSlashes (left ++ '/' :: right) = splitSlashes left ++ splitSlashes right := by
  induction left with
  | nil => simp [splitSlashes]
  | cons c left ih =>
    obtain ⟨piece, others, pieces⟩ := List.exists_cons_of_ne_nil (splitSlashes_ne_nil left)
    rw [List.cons_append, splitSlashes, splitSlashes, ih, pieces]
    split <;> rfl

theorem splitSlashes_name {name : List Char} (free : '/' ∉ name) : splitSlashes name = [name] := by
  induction name with
  | nil => rfl
  | cons c name ih =>
    rw [List.mem_cons, not_or] at free
    rw [splitSlashes, if_neg (Ne.symm free.1), ih free.2]

theorem slash_not_mem_splitSlashes {text piece : List Char} (member : piece ∈ splitSlashes text) :
    '/' ∉ piece := by
  induction text generalizing piece with
  | nil => simp_all [splitSlashes]
  | cons c text ih =>
    obtain ⟨first, others, pieces⟩ := List.exists_cons_of_ne_nil (splitSlashes_ne_nil text)
    rw [pieces] at ih
    rw [splitSlashes, pieces] at member
    split at member
    · rcases List.mem_cons.1 member with rfl | later
      · exact List.not_mem_nil
      · exact ih later
    · rename_i different
      rcases List.mem_cons.1 member with rfl | later
      · rw [List.mem_cons, not_or]
        exact ⟨Ne.symm different, ih List.mem_cons_self⟩
      · exact ih (List.mem_cons_of_mem _ later)

theorem stepsOf_append (left right : List Char) :
    stepsOf (left ++ '/' :: right) = stepsOf left ++ stepsOf right := by
  rw [stepsOf, splitSlashes_append, List.filterMap_append]
  rfl

/-- A name that a path can lead to: it is one piece, and not one that stays or goes up. -/
def ProperName (name : List Char) : Prop :=
  '/' ∉ name ∧ stepOfPiece? name = some (.down name)

theorem ProperName.stepsOf {name : List Char} (proper : ProperName name) :
    FilePath.stepsOf name = [.down name] := by
  rw [FilePath.stepsOf, splitSlashes_name proper.1, List.filterMap_cons, proper.2]
  rfl

theorem step_of_piece {piece : List Char} {step : PathStep}
    (read : stepOfPiece? piece = some step) : step = .up ∨ step = .down piece := by
  unfold stepOfPiece? at read
  split at read
  · contradiction
  · split at read
    · exact Or.inl (Option.some.inj read).symm
    · exact Or.inr (Option.some.inj read).symm

theorem mem_stepsOf {text : List Char} {step : PathStep} (member : step ∈ stepsOf text) :
    step = .up ∨ ∃ name, step = .down name ∧ ProperName name := by
  obtain ⟨piece, split, read⟩ := List.mem_filterMap.1 member
  rcases step_of_piece read with rfl | rfl
  · exact Or.inl rfl
  · exact Or.inr ⟨piece, rfl, slash_not_mem_splitSlashes split, read⟩

theorem absolute_text {path : FilePath} (absolute : path.isAbsolute = true) :
    ∃ rest, path.text.toList = '/' :: rest := by
  have head : path.text.toList.head? = some '/' := of_decide_eq_true absolute
  exact List.head?_eq_some_iff.1 head

theorem steps_absolute {path : FilePath} (absolute : path.isAbsolute = true) :
    path.steps = .root :: stepsOf path.text.toList := by
  rw [steps, if_pos absolute]
  rfl

theorem isAbsolute_of_root {path : FilePath} (member : .root ∈ path.steps) :
    path.isAbsolute = true := by
  by_contra relative
  rw [steps, if_neg relative] at member
  rcases List.mem_append.1 member with first | later
  · split at first <;> simp at first
  · rcases mem_stepsOf later with up | ⟨name, down, -⟩
    · contradiction
    · contradiction

/-! The forms of a path. -/

theorem startsHere_iff {text : List Char} :
    startsHere text = true ↔ text = ['.'] ∨ ∃ rest, text = '.' :: '/' :: rest := by
  constructor
  · intro starts
    unfold startsHere at starts
    split at starts
    · exact Or.inl rfl
    · exact Or.inr ⟨_, rfl⟩
    · contradiction
  · intro shape
    rcases shape with rfl | ⟨rest, rfl⟩
    · rfl
    · rfl

theorem stepsOf_here {rest : List Char} (here : startsHere ('.' :: rest) = true) :
    stepsOf ('.' :: rest) = stepsOf rest := by
  rcases startsHere_iff.1 here with alone | ⟨tail, longer⟩
  · rw [(List.cons.inj alone).2]
    rfl
  · rw [(List.cons.inj longer).2]
    exact (stepsOf_append ['.'] tail).trans (stepsOf_append [] tail).symm

inductive Form (path : FilePath) : Prop where
  | rooted (rest : List Char) (text : path.text.toList = '/' :: rest)
  | here (rest : List Char) (text : path.text.toList = '.' :: rest)
      (starts : startsHere ('.' :: rest) = true)
  | plain (relative : path.isAbsolute = false) (plain : startsHere path.text.toList = false)

theorem form (path : FilePath) : path.Form := by
  cases absolute : path.isAbsolute with
  | true =>
    obtain ⟨rest, text⟩ := absolute_text absolute
    exact Form.rooted rest text
  | false =>
    cases starts : startsHere path.text.toList with
    | true =>
      obtain ⟨rest, text⟩ : ∃ rest, path.text.toList = '.' :: rest := by
        rcases startsHere_iff.1 starts with alone | ⟨tail, longer⟩
        · exact ⟨_, alone⟩
        · exact ⟨_, longer⟩
      rw [text] at starts
      exact Form.here rest text starts
    | false => exact Form.plain absolute starts

section

variable {path : FilePath} {rest : List Char}

theorem of_rooted (text : path.text.toList = '/' :: rest) :
    path.isAbsolute = true ∧ path.headAndBody = (['/'], rest.reverse) ∧
      path.steps = .root :: stepsOf rest := by
  have absolute : path.isAbsolute = true := by
    rw [isAbsolute, text]
    rfl
  refine ⟨absolute, ?_, ?_⟩
  · rw [headAndBody, absolute, text]
    rfl
  · rw [steps_absolute absolute, text]
    exact congrArg (PathStep.root :: ·) (stepsOf_append [] rest)

theorem of_here (text : path.text.toList = '.' :: rest) (starts : startsHere ('.' :: rest) = true) :
    path.isAbsolute = false ∧ path.headAndBody = (['.'], rest.reverse) ∧
      path.steps = .here :: stepsOf rest := by
  have relative : path.isAbsolute = false := by
    rw [isAbsolute, text]
    rfl
  refine ⟨relative, ?_, ?_⟩
  · rw [headAndBody, relative, text, starts]
    rfl
  · simp only [steps, relative, text, starts, if_true]
    exact congrArg (PathStep.here :: ·) (stepsOf_here starts)

theorem of_plain (relative : path.isAbsolute = false)
    (plain : startsHere path.text.toList = false) :
    path.headAndBody = ([], path.text.toList.reverse) ∧ path.steps = stepsOf path.text.toList := by
  constructor
  · rw [headAndBody, relative, plain]
    rfl
  · rw [steps, relative, plain]
    rfl

end

theorem isAbsolute_congr {left right : FilePath} (same : left.steps = right.steps) :
    left.isAbsolute = right.isAbsolute := by
  rw [Bool.eq_iff_iff]
  constructor
  · intro absolute
    apply isAbsolute_of_root
    rw [← same, steps_absolute absolute]
    exact List.mem_cons_self
  · intro absolute
    apply isAbsolute_of_root
    rw [same, steps_absolute absolute]
    exact List.mem_cons_self

theorem stepsOf_eq_filter (path : FilePath) :
    stepsOf path.text.toList =
      path.steps.filter fun step => decide (step ≠ .root ∧ step ≠ .here) := by
  have later : (stepsOf path.text.toList).filter
      (fun step => decide (step ≠ .root ∧ step ≠ .here)) = stepsOf path.text.toList := by
    rw [List.filter_eq_self]
    intro step member
    rcases mem_stepsOf member with rfl | ⟨name, rfl, -⟩
    · rfl
    · rfl
  cases path.form with
  | rooted rest text =>
    rw [steps_absolute (of_rooted text).1]
    exact later.symm
  | here rest text starts =>
    rw [(of_here text starts).2.2, ← stepsOf_here starts, ← text]
    exact later.symm
  | plain relative plain =>
    rw [(of_plain relative plain).2]
    exact later.symm

/-! Joining a name. -/

theorem join_name (base : FilePath) {name : List Char} (proper : ProperName name) :
    (base.join ⟨String.ofList name⟩).text.toList = name ∧ base.text.toList = [] ∨
      (∃ front, base.text.toList = front ++ ['/'] ∧
        (base.join ⟨String.ofList name⟩).text.toList = front ++ '/' :: name) ∨
      (base.join ⟨String.ofList name⟩).text.toList = base.text.toList ++ '/' :: name ∧
        base.text.toList ≠ [] := by
  have relative : (FilePath.mk (String.ofList name)).isAbsolute = false := by
    refine decide_eq_false fun head => proper.1 ?_
    rw [String.toList_ofList] at head
    exact List.mem_of_head? head
  unfold join
  rw [relative, if_neg Bool.false_ne_true]
  split
  · rename_i empty
    exact Or.inl ⟨String.toList_ofList, List.getLast?_eq_none_iff.1 empty⟩
  · rename_i slash
    obtain ⟨front, split⟩ := List.getLast?_eq_some_iff.1 slash
    refine Or.inr (Or.inl ⟨front, split, ?_⟩)
    rw [String.toList_append, String.toList_ofList, split, List.append_assoc]
    rfl
  · rename_i last found
    refine Or.inr (Or.inr ⟨?_, fun empty => ?_⟩)
    · rw [String.toList_append, String.toList_append, List.append_assoc]
      exact congrArg (base.text.toList ++ '/' :: ·) String.toList_ofList
    · rw [empty] at found
      contradiction

/-- The pieces of a joined path are those of the base, up to idle ones, and the name. -/
theorem splitSlashes_join (base : FilePath) {name : List Char} (proper : ProperName name) :
    ∃ pieces, splitSlashes (base.join ⟨String.ofList name⟩).text.toList = pieces ++ [name] ∧
      pieces.filterMap stepOfPiece? = stepsOf base.text.toList := by
  have piece := splitSlashes_name proper.1
  rcases join_name base proper with ⟨joined, empty⟩ | ⟨front, slash, joined⟩ | ⟨joined, -⟩
  · exact ⟨[], by rw [joined, piece, List.nil_append], by rw [empty]; rfl⟩
  · refine ⟨splitSlashes front, by rw [joined, splitSlashes_append, piece], ?_⟩
    rw [slash, stepsOf_append]
    exact (List.append_nil _).symm
  · exact ⟨_, by rw [joined, splitSlashes_append, piece], rfl⟩

theorem join_absolute (base : FilePath) {name : List Char} (proper : ProperName name) :
    (base.join ⟨String.ofList name⟩).isAbsolute = base.isAbsolute := by
  unfold isAbsolute
  rcases join_name base proper with ⟨joined, empty⟩ | ⟨front, slash, joined⟩ | ⟨joined, filled⟩
  · rw [joined, empty]
    exact decide_eq_false fun head => proper.1 (List.mem_of_head? head)
  · rw [joined, slash]
    cases front <;> rfl
  · obtain ⟨c, rest, text⟩ := List.exists_cons_of_ne_nil filled
    rw [joined, text]
    rfl

theorem startsHere_slash {text : List Char} (filled : text ≠ []) (rest : List Char) :
    startsHere (text ++ '/' :: rest) = startsHere text := by
  obtain ⟨c, more, rfl⟩ := List.exists_cons_of_ne_nil filled
  rw [Bool.eq_iff_iff, startsHere_iff, startsHere_iff]
  cases more with
  | nil => simp
  | cons d more => simp

theorem ProperName.not_startsHere {name : List Char} (proper : ProperName name) :
    startsHere name = false := by
  rw [Bool.eq_false_iff]
  intro starts
  rcases startsHere_iff.1 starts with rfl | ⟨rest, rfl⟩
  · exact nomatch proper.2
  · exact proper.1 (List.mem_cons_of_mem _ List.mem_cons_self)

theorem startsHere_join (base : FilePath) {name : List Char} (proper : ProperName name) :
    startsHere (base.join ⟨String.ofList name⟩).text.toList = startsHere base.text.toList := by
  rcases join_name base proper with ⟨joined, empty⟩ | ⟨front, slash, joined⟩ | ⟨joined, filled⟩
  · rw [joined, empty]
    exact proper.not_startsHere
  · rw [joined, slash]
    cases front with
    | nil => rfl
    | cons c front =>
      have filled : c :: front ≠ [] := List.cons_ne_nil c front
      exact (startsHere_slash filled name).trans (startsHere_slash filled []).symm
  · rw [joined]
    exact startsHere_slash filled name

theorem steps_join (base : FilePath) {name : List Char} (proper : ProperName name) :
    (base.join ⟨String.ofList name⟩).steps = base.steps ++ [.down name] := by
  obtain ⟨pieces, split, others⟩ := splitSlashes_join base proper
  have last : [name].filterMap stepOfPiece? = [.down name] := by
    rw [List.filterMap_cons, proper.2]
    rfl
  simp only [steps, join_absolute base proper, startsHere_join base proper, split,
    List.filterMap_append, others, last, List.append_assoc]
  rfl

theorem steps_below (base : FilePath) {name : FilePath} (proper : ProperName name.text.toList) :
    (base.join name).steps = base.steps ++ [.down name.text.toList] := by
  have steps := steps_join base proper
  rwa [String.ofList_toList] at steps

/-! The parent. -/

theorem stepsOf_dropIdle (text : List Char) :
    stepsOf (dropIdle text).reverse = stepsOf text.reverse := by
  fun_induction dropIdle text with
  | case1 rest ih =>
    rw [ih, List.reverse_cons, stepsOf_append]
    exact (List.append_nil _).symm
  | case2 => rfl
  | case3 rest ih =>
    rw [ih, List.reverse_cons, List.reverse_cons, List.append_assoc]
    exact ((stepsOf_append rest.reverse ['.']).trans (List.append_nil _)).symm
  | case4 => rfl

theorem dropIdle_ne_dot (text : List Char) :
    dropIdle text ≠ ['.'] ∧ ∀ rest, dropIdle text ≠ '.' :: '/' :: rest := by
  fun_induction dropIdle text with
  | case1 _ ih => exact ih
  | case2 => simp
  | case3 _ ih => exact ih
  | case4 text _ dot dotSlash => exact ⟨dot, dotSlash⟩

/-- What is left of a reversed text ends with a piece that is a step. -/
theorem dropIdle_piece {text : List Char} (filled : dropIdle text ≠ []) :
    ∃ step, stepOfPiece? ((dropIdle text).takeWhile (· ≠ '/')).reverse = some step := by
  obtain ⟨c, rest, shape⟩ := List.exists_cons_of_ne_nil filled
  have slashless : c ≠ '/' := fun same => dropIdle_ne_slash text rest (by rw [shape, same])
  obtain ⟨dot, dotSlash⟩ := dropIdle_ne_dot text
  rw [shape] at dot dotSlash ⊢
  have kept : (decide (c ≠ '/')) = true := decide_eq_true slashless
  rw [List.takeWhile_cons, kept, if_pos rfl, List.reverse_cons]
  have idle : ¬ ((rest.takeWhile (· ≠ '/')).reverse ++ [c] = [] ∨
      (rest.takeWhile (· ≠ '/')).reverse ++ [c] = ['.']) := by
    rintro (none | alone)
    · simp at none
    · have parts := congrArg List.reverse alone
      rw [List.reverse_concat, List.reverse_reverse, List.reverse_singleton] at parts
      obtain ⟨rfl, ended⟩ := List.cons.inj parts
      cases rest with
      | nil => exact dot rfl
      | cons d rest =>
        have slash : d = '/' := by simpa using List.takeWhile_eq_nil_iff.1 ended (by simp)
        exact dotSlash rest (by rw [slash])
  unfold stepOfPiece?
  simp only [Bool.or_eq_true, decide_eq_true_eq, idle, if_false]
  split
  · exact ⟨_, rfl⟩
  · exact ⟨_, rfl⟩

/-- The text before the last step of a text, and that step. -/
theorem stepsOf_cut (text : List Char) (filled : dropIdle text ≠ []) :
    ∃ step, stepsOf text.reverse =
      stepsOf (dropIdle ((dropIdle text).dropWhile (· ≠ '/'))).reverse ++ [step] := by
  obtain ⟨step, last⟩ := dropIdle_piece filled
  have free : '/' ∉ ((dropIdle text).takeWhile (· ≠ '/')).reverse := by
    intro member
    have passed := List.mem_takeWhile_imp (List.mem_reverse.1 member)
    simp at passed
  have piece : stepsOf ((dropIdle text).takeWhile (· ≠ '/')).reverse = [step] := by
    rw [stepsOf, splitSlashes_name free, List.filterMap_cons, last]
    rfl
  have whole := List.takeWhile_append_dropWhile (p := (· ≠ '/')) (l := dropIdle text)
  refine ⟨step, ?_⟩
  calc stepsOf text.reverse
    _ = stepsOf (((dropIdle text).dropWhile (· ≠ '/')).reverse ++
          ((dropIdle text).takeWhile (· ≠ '/')).reverse) := by
      rw [← stepsOf_dropIdle, ← List.reverse_append, whole]
    _ = stepsOf ((dropIdle text).dropWhile (· ≠ '/')).reverse ++ [step] := by
      cases shape : (dropIdle text).dropWhile (· ≠ '/') with
      | nil => exact piece
      | cons c rest =>
        have slash : c = '/' := by
          have left : (dropIdle text).dropWhile (· ≠ '/') ≠ [] :=
            fun empty => nomatch shape.symm.trans empty
          have stopped := List.head_dropWhile_not (· ≠ '/') left
          simp only [shape, List.head_cons] at stopped
          simpa using stopped
        rw [slash, List.reverse_cons, List.append_assoc, List.singleton_append, stepsOf_append,
          stepsOf_append, piece, List.append_assoc]
        rfl
    _ = stepsOf (dropIdle ((dropIdle text).dropWhile (· ≠ '/'))).reverse ++ [step] := by
      rw [stepsOf_dropIdle]

def cutLast (text : List Char) : List Char :=
  (dropIdle ((dropIdle text.reverse).dropWhile (· ≠ '/'))).reverse

theorem cutLast_prefix (text : List Char) : cutLast text <+: text := by
  have inner := (dropIdle_suffix ((dropIdle text.reverse).dropWhile (· ≠ '/'))).trans
    ((List.dropWhile_suffix _).trans (dropIdle_suffix text.reverse))
  have outer := List.reverse_prefix.2 inner
  rwa [List.reverse_reverse] at outer

theorem cutLast_ne_dot (text : List Char) : cutLast text ≠ ['.'] := by
  intro dot
  have turned := congrArg List.reverse dot
  rw [cutLast, List.reverse_reverse] at turned
  exact (dropIdle_ne_dot _).1 turned

theorem cutLast_steps {text : List Char} (filled : dropIdle text.reverse ≠ []) :
    ∃ step, stepsOf text = stepsOf (cutLast text) ++ [step] := by
  have cut := stepsOf_cut text.reverse filled
  rwa [List.reverse_reverse] at cut

theorem stepsOf_idle {text : List Char} (idle : dropIdle text.reverse = []) :
    stepsOf text = [] := by
  have same := stepsOf_dropIdle text.reverse
  rw [idle, List.reverse_reverse] at same
  exact same.symm

theorem startsHere_cutLast {rest : List Char} (starts : startsHere ('.' :: rest) = true) :
    startsHere ('.' :: cutLast rest) = true := by
  obtain ⟨back, split⟩ := cutLast_prefix rest
  rw [← split] at starts
  rcases startsHere_iff.1 starts with alone | ⟨tail, longer⟩
  · rw [(List.append_eq_nil_iff.1 (List.cons.inj alone).2).1]
    rfl
  · cases left : cutLast rest with
    | nil => rfl
    | cons c more =>
      rw [left] at longer
      cases longer
      rfl

theorem cutLast_plain {text : List Char} (plain : startsHere text = false) :
    startsHere (cutLast text) = false := by
  rw [Bool.eq_false_iff]
  intro starts
  rcases startsHere_iff.1 starts with alone | ⟨tail, longer⟩
  · exact cutLast_ne_dot text alone
  · obtain ⟨back, split⟩ := cutLast_prefix text
    rw [← split, longer] at plain
    exact nomatch plain

theorem parent?_of_parts {path : FilePath} {head text : List Char}
    (parts : path.headAndBody = (head, text.reverse)) :
    path.parent? =
      if dropIdle text.reverse = [] then if head = ['.'] then some ⟨""⟩ else none
      else some ⟨String.ofList (head ++ cutLast text)⟩ := by
  rw [parent?, parts]
  dsimp only
  split
  · rename_i idle
    rw [if_pos idle]
  · rename_i filled
    rw [if_neg filled]
    rfl

theorem parent?_steps {path directory : FilePath} (above : path.parent? = some directory) :
    directory.isAbsolute = path.isAbsolute ∧ ∃ step, path.steps = directory.steps ++ [step] := by
  cases path.form with
  | rooted rest text =>
    obtain ⟨absolute, parts, steps⟩ := of_rooted text
    rw [parent?_of_parts parts] at above
    split at above
    · contradiction
    · rename_i filled
      have inside : directory.text.toList = '/' :: cutLast rest := by
        rw [← Option.some.inj above, String.toList_ofList]
        rfl
      obtain ⟨step, cut⟩ := cutLast_steps filled
      obtain ⟨rooted, -, shorter⟩ := of_rooted inside
      exact ⟨rooted.trans absolute.symm, step, by rw [steps, cut, shorter]; rfl⟩
  | here rest text starts =>
    obtain ⟨relative, parts, steps⟩ := of_here text starts
    rw [parent?_of_parts parts, if_pos rfl] at above
    split at above
    · rename_i idle
      rw [← Option.some.inj above, relative, steps, stepsOf_idle idle]
      exact ⟨rfl, .here, rfl⟩
    · rename_i filled
      have inside : directory.text.toList = '.' :: cutLast rest := by
        rw [← Option.some.inj above, String.toList_ofList]
        rfl
      obtain ⟨step, cut⟩ := cutLast_steps filled
      obtain ⟨below, -, shorter⟩ := of_here inside (startsHere_cutLast starts)
      exact ⟨below.trans relative.symm, step, by rw [steps, cut, shorter]; rfl⟩
  | plain relative plain =>
    obtain ⟨parts, steps⟩ := of_plain relative plain
    rw [parent?_of_parts parts] at above
    split at above
    · contradiction
    · rename_i filled
      have inside : directory.text.toList = cutLast path.text.toList := by
        rw [← Option.some.inj above, String.toList_ofList]
        rfl
      obtain ⟨step, cut⟩ := cutLast_steps filled
      have below : directory.isAbsolute = false := by
        rw [isAbsolute, decide_eq_false_iff_not, inside]
        intro slash
        obtain ⟨back, split⟩ := cutLast_prefix path.text.toList
        obtain ⟨tail, starts⟩ := List.head?_eq_some_iff.1 slash
        rw [isAbsolute, ← split, starts] at relative
        contradiction
      have shorter := (of_plain below (by rw [inside]; exact cutLast_plain plain)).2
      exact ⟨below.trans relative.symm, step, by rw [steps, cut, shorter, inside]⟩

theorem steps_of_parent?_none {path : FilePath} (top : path.parent? = none) :
    path.steps = if path.isAbsolute then [.root] else [] := by
  cases path.form with
  | rooted rest text =>
    obtain ⟨absolute, parts, steps⟩ := of_rooted text
    rw [parent?_of_parts parts] at top
    split at top
    · rename_i idle
      rw [steps, stepsOf_idle idle, absolute, if_pos rfl]
    · contradiction
  | here rest text starts =>
    obtain ⟨relative, parts, steps⟩ := of_here text starts
    rw [parent?_of_parts parts, if_pos rfl] at top
    split at top
    · contradiction
    · contradiction
  | plain relative plain =>
    obtain ⟨parts, steps⟩ := of_plain relative plain
    rw [parent?_of_parts parts] at top
    split at top
    · rename_i idle
      rw [steps, stepsOf_idle idle, relative, if_neg Bool.false_ne_true]
    · contradiction

end FilePath

/-- The directories above an absolute path include one with the first steps of the path, and the
ones before it in the list lie deeper. -/
theorem directoriesAbove_split {path : FilePath} (absolute : path.isAbsolute = true)
    {front : List PathStep} {step : PathStep} {back : List PathStep}
    (steps : path.steps = .root :: front ++ step :: back) :
    ∃ nearer directory farther, directoriesAbove path = nearer ++ directory :: farther ∧
      directory.isAbsolute = true ∧ directory.steps = .root :: front ∧
      ∀ other ∈ nearer, front.length + 1 < other.steps.length := by
  fun_induction directoriesAbove path generalizing step back with
  | case1 path top =>
    rw [FilePath.steps_of_parent?_none top, absolute] at steps
    simp at steps
  | case2 path directory above _ ih =>
    obtain ⟨kept, last, cut⟩ := FilePath.parent?_steps above
    have inside := kept.trans absolute
    rw [steps] at cut
    rcases List.eq_nil_or_concat back with rfl | ⟨back, other, rfl⟩
    · have here := (List.append_inj' cut rfl).1
      exact ⟨[], directory, _, rfl, inside, here.symm, fun other member => nomatch member⟩
    · rw [List.concat_eq_append, ← List.cons_append, ← List.append_assoc] at cut
      have shorter := (List.append_inj' cut rfl).1
      obtain ⟨nearer, found, farther, split, rest⟩ := ih inside shorter.symm
      refine ⟨directory :: nearer, found, farther, by rw [split]; rfl, rest.1, rest.2.1, ?_⟩
      rintro deep (_ | ⟨_, member⟩)
      · rw [← shorter]
        simp
      · exact rest.2.2 deep member

theorem steps_of_mem_directoriesAbove {path : FilePath} (absolute : path.isAbsolute = true) :
    ∀ directory ∈ directoriesAbove path, directory.isAbsolute = true ∧
      ∃ step back, path.steps = directory.steps ++ step :: back := by
  fun_induction directoriesAbove path with
  | case1 path top => exact fun directory member => nomatch member
  | case2 path directory above _ ih =>
    obtain ⟨kept, last, cut⟩ := FilePath.parent?_steps above
    have inside := kept.trans absolute
    rintro other (_ | ⟨_, member⟩)
    · exact ⟨inside, last, [], cut⟩
    · obtain ⟨rooted, step, back, steps⟩ := ih inside other member
      exact ⟨rooted, step, back ++ [last], by rw [cut, steps, List.append_assoc, List.cons_append]⟩

theorem directoriesAbove_pairwise {path : FilePath} (absolute : path.isAbsolute = true) :
    (directoriesAbove path).Pairwise fun nearer farther =>
      farther.steps.length < nearer.steps.length := by
  fun_induction directoriesAbove path with
  | case1 path top => exact List.Pairwise.nil
  | case2 path directory above _ ih =>
    have inside := (FilePath.parent?_steps above).1.trans absolute
    refine List.Pairwise.cons (fun other member => ?_) (ih inside)
    obtain ⟨-, step, back, steps⟩ := steps_of_mem_directoriesAbove inside other member
    rw [steps, List.length_append, List.length_cons]
    omega

end DesignTokens
