import DesignTokens.Proofs.Files.PathSteps
import Mathlib.Data.List.Induction

/-!
Where paths lead in a file tree. Whatever links a path leads through, it leads to a place that is
reached from the root by its own names and through no link. So the canonical path of a place leads
back to it, and a path that was made canonical is canonical.
-/

namespace DesignTokens

open FilePath

/-! The trail of a path. -/

namespace FilePath

theorem trail_slash {path : FilePath} {left right : List Char}
    (text : path.text.toList = left ++ '/' :: right) :
    path.trail = trail ⟨String.ofList left⟩ ++ trail ⟨String.ofList right⟩ := by
  simp only [trail, text, splitSlashes_append, List.map_append, String.toList_ofList]

theorem filter_pieces (pieces : List (List Char)) :
    (pieces.map fun piece => (stepOfPiece? piece).getD .here).filter (· ≠ .here) =
      pieces.filterMap stepOfPiece? := by
  induction pieces with
  | nil => rfl
  | cons piece pieces ih =>
    rw [List.map_cons, List.filterMap_cons]
    cases read : stepOfPiece? piece with
    | none => exact ih
    | some step =>
      have moving : step ≠ .here := by
        rcases step_of_piece read with rfl | rfl
        · simp
        · simp
      rw [Option.getD_some, List.filter_cons_of_pos (by simpa using moving), ih]

theorem filter_trail (path : FilePath) :
    path.trail.filter (· ≠ .here) = stepsOf path.text.toList :=
  filter_pieces _

/-- The trail of a joined path ends with the name, and has the steps of the base before it. -/
theorem trail_join (base : FilePath) {name : FilePath} (proper : ProperName name.text.toList) :
    ∃ front, (base.join name).trail = front ++ [.down name.text.toList] ∧
      front.filter (· ≠ .here) = stepsOf base.text.toList := by
  obtain ⟨pieces, split, others⟩ := splitSlashes_join base proper
  rw [String.ofList_toList] at split
  refine ⟨_, ?_, (filter_pieces pieces).trans others⟩
  rw [trail, split, List.map_append, List.map_singleton, proper.2]
  rfl

theorem proper_of_mem_trail {path : FilePath} {name : List Char}
    (member : .down name ∈ path.trail) : ProperName name := by
  have kept : .down name ∈ path.trail.filter (· ≠ .here) :=
    List.mem_filter.2 ⟨member, rfl⟩
  rw [filter_trail] at kept
  rcases mem_stepsOf kept with up | ⟨other, down, proper⟩
  · contradiction
  · exact PathStep.down.inj down ▸ proper

end FilePath

def Place.land (place : Place) : PathStep → Place
  | .down name => place ++ [name]
  | .up => place.dropLast
  | .root | .here => place

namespace FileSystem

variable {files : FileSystem}

/-! One step. -/

/-- A link starts again from the root or from its own directory. -/
theorem landOnLink_eq_ok {place : Place} {path : FilePath} {landing : Landing}
    (landed : landOnLink place path = .ok landing) :
    ∃ start, landing = .link start path.trail ∧ (start = [] ∨ start = place) := by
  unfold landOnLink at landed
  split at landed
  · contradiction
  · refine ⟨_, (Except.ok.inj landed).symm, ?_⟩
    split
    · exact Or.inl rfl
    · exact Or.inr rfl

theorem move_place {place next : Place} {step : PathStep}
    (moved : files.move place step = .ok (.place next)) : next = place.land step := by
  unfold move at moved
  split at moved
  · contradiction
  · cases step with
    | down name =>
      dsimp only at moved
      split at moved
      · obtain ⟨start, link, -⟩ := landOnLink_eq_ok moved
        contradiction
      · exact (Landing.place.inj (Except.ok.inj moved)).symm
      · contradiction
    | up => exact (Landing.place.inj (Except.ok.inj moved)).symm
    | root => exact (Landing.place.inj (Except.ok.inj moved)).symm
    | here => exact (Landing.place.inj (Except.ok.inj moved)).symm

theorem move_link {place start : Place} {step : PathStep} {target : List PathStep}
    (moved : files.move place step = .ok (.link start target)) :
    (start = [] ∨ start = place) ∧ ∃ (path : FilePath) (name : List Char), target = path.trail ∧
      files.entry? (place ++ [name]) = some (.link path) := by
  unfold move at moved
  split at moved
  · contradiction
  · cases step with
    | down name =>
      dsimp only at moved
      split at moved
      · rename_i path found
        obtain ⟨again, same, start⟩ := landOnLink_eq_ok moved
        obtain ⟨rfl, rfl⟩ := Landing.link.inj same
        exact ⟨start, path, name, rfl, found⟩
      · exact nomatch Except.ok.inj moved
      · contradiction
    | up => exact nomatch Except.ok.inj moved
    | root => exact nomatch Except.ok.inj moved
    | here => exact nomatch Except.ok.inj moved

theorem move_stuck {place : Place} (blocked : files.isDirectory place = false) (step : PathStep) :
    files.move place step = .error .notADirectory := by
  unfold move
  rw [blocked]
  rfl

theorem move_here {place : Place} (stands : files.isDirectory place = true) :
    files.move place .here = .ok (.place place) := by
  unfold move
  rw [stands]
  rfl

section

variable {place : Place} {name : List Char} (stands : files.isDirectory place = true)
include stands

theorem move_missing (found : files.entry? (place ++ [name]) = none) :
    files.move place (.down name) = .error .notFound := by
  unfold move
  simp [stands, found]

theorem move_file {content : ByteArray}
    (found : files.entry? (place ++ [name]) = some (.file content)) :
    files.move place (.down name) = .ok (.place (place ++ [name])) := by
  unfold move
  simp [stands, found]

theorem move_directory (found : files.entry? (place ++ [name]) = some .directory) :
    files.move place (.down name) = .ok (.place (place ++ [name])) := by
  unfold move
  simp [stands, found]

theorem move_through {target : FilePath}
    (found : files.entry? (place ++ [name]) = some (.link target)) :
    files.move place (.down name) = landOnLink place target := by
  unfold move
  simp [stands, found]

end

/-! Steps one after the other. -/

section

variable {links : Nat} {place : Place} {step : PathStep} (steps : List PathStep)

theorem walk_nil : files.walk links place [] = .ok (place, links) := by
  cases links <;> rfl

theorem walk_error {problem : FileError} (moved : files.move place step = .error problem) :
    files.walk links place (step :: steps) = .error problem := by
  cases links <;> simp only [walk, stride, moved]

theorem walk_place {next : Place} (moved : files.move place step = .ok (.place next)) :
    files.walk links place (step :: steps) = files.walk links next steps := by
  cases links <;> simp only [walk, stride, moved]

theorem walk_spent {start : Place} {target : List PathStep}
    (moved : files.move place step = .ok (.link start target)) :
    files.walk 0 place (step :: steps) = .error .tooManyLinks := by
  simp only [walk, stride, moved]

theorem walk_link {start : Place} {target : List PathStep}
    (moved : files.move place step = .ok (.link start target)) :
    files.walk (links + 1) place (step :: steps) = files.walk links start (target ++ steps) := by
  simp only [walk, stride, moved]

end

/-- Induction along a walk, first on the links that are left and then on the steps. -/
@[elab_as_elim]
theorem walk_induction {motive : Nat → Place → List PathStep → Prop}
    (done : ∀ links place, motive links place [])
    (stuck : ∀ links place step steps problem, files.move place step = .error problem →
      motive links place (step :: steps))
    (goes : ∀ links place step steps next, files.move place step = .ok (.place next) →
      motive links next steps → motive links place (step :: steps))
    (spent : ∀ place step steps start target, files.move place step = .ok (.link start target) →
      motive 0 place (step :: steps))
    (linked : ∀ links place step steps start target,
      files.move place step = .ok (.link start target) → motive links start (target ++ steps) →
      motive (links + 1) place (step :: steps))
    (links : Nat) (place : Place) (steps : List PathStep) : motive links place steps := by
  induction links generalizing place steps with
  | zero =>
    induction steps generalizing place with
    | nil => exact done 0 place
    | cons step steps ih =>
      cases moved : files.move place step with
      | error problem => exact stuck 0 place step steps problem moved
      | ok landing =>
        cases landing with
        | place next => exact goes 0 place step steps next moved (ih next)
        | link start target => exact spent place step steps start target moved
  | succ links shorter =>
    induction steps generalizing place with
    | nil => exact done _ place
    | cons step steps ih =>
      cases moved : files.move place step with
      | error problem => exact stuck _ place step steps problem moved
      | ok landing =>
        cases landing with
        | place next => exact goes _ place step steps next moved (ih next)
        | link start target => exact linked links place step steps start target moved (shorter _ _)

/-- Where some steps lead, further steps go on with the links that are left. -/
theorem walk_append (links : Nat) (place : Place) (first second : List PathStep) :
    files.walk links place (first ++ second) =
      files.walk links place first >>= fun (next, left) => files.walk left next second := by
  induction links, place, first using files.walk_induction with
  | done links place =>
    rw [walk_nil]
    rfl
  | stuck links place step steps problem moved =>
    rw [List.cons_append, walk_error _ moved, walk_error _ moved]
    rfl
  | goes links place step steps next moved ih =>
    rw [List.cons_append, walk_place _ moved, walk_place _ moved, ih]
  | spent place step steps start target moved =>
    rw [List.cons_append, walk_spent _ moved, walk_spent _ moved]
    rfl
  | linked links place step steps start target moved ih =>
    rw [List.cons_append, walk_link _ moved, walk_link _ moved, ← List.append_assoc, ih]

/-- An idle step asks for a directory, as does every step; so idle steps in front of a name change
nothing. -/
theorem walk_filter (links : Nat) (place : Place) (steps : List PathStep) (name : List Char) :
    files.walk links place (steps ++ [.down name]) =
      files.walk links place (steps.filter (· ≠ .here) ++ [.down name]) := by
  induction steps generalizing links place with
  | nil => rfl
  | cons step steps ih =>
    by_cases idle : step = .here
    · subst idle
      rw [List.filter_cons_of_neg (by simp), List.cons_append]
      cases stands : files.isDirectory place with
      | true => rw [walk_place _ (move_here stands), ih]
      | false =>
        rw [walk_error _ (move_stuck stands _), ← ih]
        cases steps with
        | nil => exact (walk_error _ (move_stuck stands _)).symm
        | cons next steps => exact (walk_error _ (move_stuck stands _)).symm
    · rw [List.filter_cons_of_pos (by simp [idle]), ← List.singleton_append, List.append_assoc,
        ← List.singleton_append (l := steps.filter _), List.append_assoc, walk_append, walk_append]
      exact congrArg _ (funext fun next => ih next.2 next.1)

/-! Places that are reached from the root. -/

/-- A place that is reached from the root by its names, through no link. -/
inductive Reached (files : FileSystem) : Place → Prop where
  | root : Reached files []
  | child {place : Place} {name : List Char} (above : Reached files place)
    (proper : ProperName name)
    (moved : files.move place (.down name) = .ok (.place (place ++ [name]))) :
    Reached files (place ++ [name])

theorem Reached.last {place : Place} {name : List Char} (reached : files.Reached (place ++ [name])) :
    files.Reached place ∧ ProperName name ∧
      files.move place (.down name) = .ok (.place (place ++ [name])) := by
  generalize whole : place ++ [name] = target at reached
  cases reached with
  | root => simp at whole
  | child above proper moved =>
    obtain ⟨rfl, same⟩ := List.append_inj' whole rfl
    obtain rfl := List.singleton_inj.1 same
    exact ⟨above, proper, moved⟩

theorem Reached.entry {place : Place} (reached : files.Reached place) :
    files.entry? place = some .directory ∨
      ∃ content, files.entry? place = some (.file content) := by
  cases reached with
  | root => exact Or.inl rfl
  | child above proper moved =>
    unfold FileSystem.move at moved
    split at moved
    · contradiction
    · dsimp only at moved
      split at moved
      · obtain ⟨start, link, -⟩ := landOnLink_eq_ok moved
        contradiction
      · rename_i _ entry unlinked found
        cases entry with
        | file content => exact Or.inr ⟨content, found⟩
        | directory => exact Or.inl found
        | link target => exact (unlinked target rfl).elim
      · contradiction

theorem Reached.proper {place : Place} (reached : files.Reached place) :
    ∀ name ∈ place, ProperName name := by
  induction reached with
  | root => exact fun name member => nomatch member
  | child above proper moved ih =>
    intro name member
    rcases List.mem_append.1 member with inside | last
    · exact ih name inside
    · exact List.mem_singleton.1 last ▸ proper

theorem Reached.move {place next : Place} {step : PathStep} (reached : files.Reached place)
    (named : ∀ name, step = .down name → ProperName name)
    (moved : files.move place step = .ok (.place next)) : files.Reached next := by
  cases move_place moved
  cases step with
  | down name => exact .child reached (named name rfl) moved
  | up =>
    rcases List.eq_nil_or_concat place with rfl | ⟨front, name, rfl⟩
    · exact reached
    · rw [List.concat_eq_append] at reached
      rw [Place.land, List.concat_eq_append, List.dropLast_concat]
      exact reached.last.1
  | root => exact reached
  | here => exact reached

theorem Reached.walk {links left : Nat} {place target : Place} {steps : List PathStep}
    (reached : files.Reached place) (named : ∀ name, .down name ∈ steps → ProperName name)
    (walked : files.walk links place steps = .ok (target, left)) : files.Reached target := by
  induction links, place, steps using files.walk_induction with
  | done links place =>
    rw [walk_nil] at walked
    exact (Prod.mk.inj (Except.ok.inj walked)).1 ▸ reached
  | stuck links place step steps problem moved =>
    rw [walk_error _ moved] at walked
    contradiction
  | goes links place step steps next moved ih =>
    rw [walk_place _ moved] at walked
    have there := reached.move (fun name down => named name (down ▸ List.mem_cons_self)) moved
    exact ih there (fun name member => named name (List.mem_cons_of_mem step member)) walked
  | spent place step steps start target moved =>
    rw [walk_spent _ moved] at walked
    contradiction
  | linked links place step steps start target moved ih =>
    rw [walk_link _ moved] at walked
    obtain ⟨again, path, -, rfl, -⟩ := move_link moved
    refine ih ?_ (fun name member => ?_) walked
    · rcases again with rfl | rfl
      · exact Reached.root
      · exact reached
    · rcases List.mem_append.1 member with inside | later
      · exact proper_of_mem_trail inside
      · exact named name (List.mem_cons_of_mem step later)

/-- The names of a reached place lead to it, and what comes after them goes on from there. -/
theorem Reached.walk_names {place : Place} (reached : files.Reached place) (links : Nat)
    (steps : List PathStep) :
    files.walk links [] (place.map .down ++ steps) = files.walk links place steps := by
  induction reached generalizing steps with
  | root => rfl
  | child above proper moved ih =>
    rw [List.map_append, List.append_assoc, ih]
    exact walk_place steps moved

/-! Paths of places. -/

theorem pathOf_text (place : Place) :
    place = [] ∧ (pathOf place).text.toList = ['/'] ∨
      place ≠ [] ∧ (pathOf place).text.toList = place.flatMap ('/' :: ·) := by
  cases place with
  | nil => exact Or.inl ⟨rfl, rfl⟩
  | cons name place => exact Or.inr ⟨List.cons_ne_nil name place, String.toList_ofList⟩

theorem pathOf_absolute (place : Place) : (pathOf place).isAbsolute = true := by
  refine decide_eq_true ?_
  rcases pathOf_text place with ⟨-, text⟩ | ⟨filled, text⟩
  · rw [text]
    rfl
  · obtain ⟨name, rest, rfl⟩ := List.exists_cons_of_ne_nil filled
    rw [text]
    rfl

theorem stepsOf_places (place : Place) (proper : ∀ name ∈ place, ProperName name) :
    stepsOf (place.flatMap ('/' :: ·)) = place.map .down := by
  induction place using List.reverseRec with
  | nil => rfl
  | append_singleton front name ih =>
    have inside := ih fun other member => proper other (List.mem_append_left _ member)
    have last := proper name List.mem_concat_self
    rw [List.flatMap_append, List.flatMap_singleton, stepsOf_append, inside, last.stepsOf,
      List.map_append]
    rfl

theorem steps_pathOf {place : Place} (proper : ∀ name ∈ place, ProperName name) :
    (pathOf place).steps = .root :: place.map .down := by
  rw [steps_absolute (pathOf_absolute place)]
  rcases pathOf_text place with ⟨rfl, text⟩ | ⟨-, text⟩
  · rw [text]
    rfl
  · rw [text, stepsOf_places place proper]

theorem steps_pathOf_inj {place other : Place} (proper : ∀ name ∈ place, ProperName name)
    (alsoProper : ∀ name ∈ other, ProperName name) :
    (pathOf place).steps = (pathOf other).steps ↔ place = other := by
  rw [steps_pathOf proper, steps_pathOf alsoProper, List.cons.injEq, eq_self, true_and]
  exact List.map_inj_right fun _ _ => PathStep.down.inj

/-! Resolving paths. -/

theorem stepsFromRoot_eq (files : FileSystem) (path : FilePath) :
    files.stepsFromRoot path =
      (if path.isAbsolute then [] else stepsOf files.currentDirectory.text.toList) ++
        stepsOf path.text.toList := by
  rw [stepsFromRoot, FileSystem.trail]
  split
  · exact filter_trail path
  · rw [List.filter_append, filter_trail, filter_trail]

theorem proper_of_mem_trail {path : FilePath} {name : List Char}
    (member : .down name ∈ files.trail path) : ProperName name := by
  unfold FileSystem.trail at member
  split at member
  · exact FilePath.proper_of_mem_trail member
  · rcases List.mem_append.1 member with first | later
    · exact FilePath.proper_of_mem_trail first
    · exact FilePath.proper_of_mem_trail later

theorem resolve_eq_ok {path : FilePath} {place : Place} (found : files.resolve path = .ok place) :
    path.text.isEmpty = false ∧
      ∃ left, files.walk linkLimit [] (files.trail path) = .ok (place, left) := by
  unfold resolve at found
  split at found
  · contradiction
  · rename_i filled
    refine ⟨eq_false_of_ne_true filled, ?_⟩
    cases walked : files.walk linkLimit [] (files.trail path) with
    | error problem =>
      rw [walked] at found
      contradiction
    | ok result =>
      rw [walked] at found
      exact ⟨result.2, congrArg _ (Prod.ext (Except.ok.inj found) rfl)⟩

theorem reached_of_resolve {path : FilePath} {place : Place}
    (found : files.resolve path = .ok place) : files.Reached place := by
  obtain ⟨-, left, walked⟩ := resolve_eq_ok found
  exact Reached.root.walk (fun name => proper_of_mem_trail) walked

theorem Reached.resolve {place : Place} (reached : files.Reached place) :
    files.resolve (pathOf place) = .ok place := by
  have filled : (pathOf place).text.isEmpty = false := by
    obtain ⟨rest, text⟩ := absolute_text (pathOf_absolute place)
    rw [Bool.eq_false_iff, ne_eq, String.isEmpty_iff, ← String.toList_inj, text]
    exact List.cons_ne_nil _ _
  have trail : files.walk linkLimit [] (pathOf place).trail = .ok (place, linkLimit) := by
    rcases List.eq_nil_or_concat place with rfl | ⟨front, name, rfl⟩
    · rfl
    · rw [List.concat_eq_append] at reached ⊢
      obtain ⟨above, proper, -⟩ := reached.last
      rcases pathOf_text (front ++ [name]) with ⟨empty, -⟩ | ⟨-, text⟩
      · simp at empty
      · rw [List.flatMap_append, List.flatMap_singleton] at text
        have last : FilePath.trail ⟨String.ofList name⟩ = [.down name] := by
          rw [FilePath.trail, String.toList_ofList, splitSlashes_name proper.1, List.map_singleton,
            proper.2]
          rfl
        rw [trail_slash text, last, walk_filter, filter_trail, String.toList_ofList,
          stepsOf_places front above.proper]
        have walked := reached.walk_names linkLimit []
        rw [List.append_nil, List.map_append, walk_nil] at walked
        exact walked
  rw [FileSystem.resolve, filled, if_neg Bool.false_ne_true, FileSystem.trail,
    if_pos (pathOf_absolute place), trail]
  rfl

theorem isFile_iff {path : FilePath} :
    files.isFile path = true ↔
      ∃ place content, files.resolve path = .ok place ∧
        files.entry? place = some (.file content) := by
  unfold isFile
  cases found : files.resolve path with
  | error problem => simp [Except.toOption]
  | ok place =>
    cases stands : files.entry? place with
    | none => simp [Except.toOption, stands]
    | some entry => cases entry <;> simp [Except.toOption, stands]

/-! Normal paths. -/

theorem holds_iff {path : FilePath} :
    files.holds path = true ↔ ∃ place, files.resolve path = .ok place := by
  unfold holds
  cases found : files.resolve path with
  | error problem => simp
  | ok place => simp

theorem normal_of_resolve {path : FilePath} {place : Place}
    (found : files.resolve path = .ok place) : files.normal path = pathOf place := by
  rw [normal, canonical, found]
  rfl

theorem normal_of_unresolved {path : FilePath} {problem : FileError}
    (missing : files.resolve path = .error problem) : files.normal path = path := by
  rw [normal, canonical, missing]
  rfl

@[simp] theorem normal_normal (files : FileSystem) (path : FilePath) :
    files.normal (files.normal path) = files.normal path := by
  cases found : files.resolve path with
  | error problem => rw [normal_of_unresolved found, normal_of_unresolved found]
  | ok place =>
    rw [normal_of_resolve found]
    exact normal_of_resolve (reached_of_resolve found).resolve

end FileSystem

end DesignTokens
