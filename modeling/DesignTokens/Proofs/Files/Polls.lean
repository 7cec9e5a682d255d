import DesignTokens.Files.Watcher
import DesignTokens.Proofs.Files.StoreKeys
import Mathlib.Data.Char
import Mathlib.Data.List.Lex
import Mathlib.Data.Prod.Lex

/-!
What a watcher reports. Of the notices that were handed over those count that tell of a watched file
whose changes have come to rest. Each such file is reported once, in the order of the paths, as
modified if it is there now and as removed otherwise.
-/

namespace DesignTokens

namespace PathStep

def key (step : PathStep) : ℕ ×ₗ List Char :=
  toLex (step.rank, step.name)

theorem before_iff {left right : PathStep} : left.before right = true ↔ left.key < right.key := by
  rw [key, key, Prod.Lex.toLex_lt_toLex]
  simp [before]

theorem key_injective : Function.Injective key := by
  intro left right same
  have parts := Prod.mk.inj (toLex.injective same)
  cases left <;> cases right <;> simp_all [rank, name]

theorem lex_iff {left right : List PathStep} :
    left.lex right before = true ↔ left.map key < right.map key := by
  induction left generalizing right with
  | nil => cases right <;> simp
  | cons step left ih =>
    cases right with
    | nil => simp
    | cons other right =>
      rw [List.cons_lex_cons, List.map_cons, List.map_cons, List.cons_lt_cons_iff, ← ih,
        ← before_iff, key_injective.eq_iff]
      simp

end PathStep

namespace FilePath

def stepKeys (path : FilePath) : List (ℕ ×ₗ List Char) :=
  path.steps.map PathStep.key

theorem notAfter_iff {left right : FilePath} :
    left.notAfter right = true ↔ left.stepKeys ≤ right.stepKeys := by
  rw [notAfter, Bool.not_eq_true', ← Bool.not_eq_true, PathStep.lex_iff, not_lt]
  rfl

theorem same_iff_stepKeys {left right : FilePath} :
    left.same right = true ↔ left.stepKeys = right.stepKeys := by
  rw [same_iff, stepKeys, stepKeys, List.map_inj_right fun _ _ same => PathStep.key_injective same]

end FilePath

namespace Watcher

variable {watcher : Watcher} {files : FileSystem}

theorem dropRepeated_sublist (last : FilePath) (changes : List Change) :
    (dropRepeated last changes).Sublist changes := by
  induction changes generalizing last with
  | nil => exact List.Sublist.refl []
  | cons change rest ih =>
    rw [dropRepeated]
    split
    · exact (ih last).cons change
    · exact (ih change.path).cons_cons change

theorem firstOfEach_sublist (changes : List Change) : (firstOfEach changes).Sublist changes := by
  cases changes with
  | nil => exact List.Sublist.refl []
  | cons change rest => exact (dropRepeated_sublist change.path rest).cons_cons change

theorem exists_dropRepeated (last : FilePath) {changes : List Change} {change : Change}
    (member : change ∈ changes) :
    change.path.same last = true ∨
      ∃ kept ∈ dropRepeated last changes, kept.path.same change.path = true := by
  induction changes generalizing last with
  | nil => contradiction
  | cons first rest ih =>
    rw [dropRepeated]
    cases repeated : first.path.same last with
    | true =>
      rw [if_pos rfl]
      rcases List.mem_cons.1 member with rfl | later
      · exact Or.inl repeated
      · exact ih last later
    | false =>
      rw [if_neg Bool.false_ne_true]
      refine Or.inr ?_
      rcases List.mem_cons.1 member with rfl | later
      · exact ⟨change, List.mem_cons_self, Store.same_self _⟩
      · rcases ih first.path later with same | ⟨kept, inside, same⟩
        · exact ⟨first, List.mem_cons_self, same_iff.2 (same_iff.1 same).symm⟩
        · exact ⟨kept, List.mem_cons_of_mem first inside, same⟩

theorem exists_firstOfEach {changes : List Change} {change : Change} (member : change ∈ changes) :
    ∃ kept ∈ firstOfEach changes, kept.path.same change.path = true := by
  cases changes with
  | nil => contradiction
  | cons first rest =>
    rcases List.mem_cons.1 member with rfl | later
    · exact ⟨change, List.mem_cons_self, Store.same_self _⟩
    · rcases exists_dropRepeated first.path later with same | ⟨kept, inside, same⟩
      · exact ⟨first, List.mem_cons_self, same_iff.2 (same_iff.1 same).symm⟩
      · exact ⟨kept, List.mem_cons_of_mem first inside, same⟩

/-- In sorted changes repetitions stand side by side, so that none is left. -/
theorem dropRepeated_pairwise {last : FilePath} {changes : List Change}
    (sorted : changes.Pairwise fun change later => change.path.stepKeys ≤ later.path.stepKeys)
    (after : ∀ change ∈ changes, last.stepKeys ≤ change.path.stepKeys) :
    (∀ change ∈ dropRepeated last changes, last.stepKeys < change.path.stepKeys) ∧
      (dropRepeated last changes).Pairwise fun change later =>
        change.path.stepKeys < later.path.stepKeys := by
  induction changes generalizing last with
  | nil => exact ⟨List.forall_mem_nil _, List.Pairwise.nil⟩
  | cons first rest ih =>
    obtain ⟨least, sorted⟩ := List.pairwise_cons.1 sorted
    obtain ⟨next, others⟩ := List.forall_mem_cons.1 after
    rw [dropRepeated]
    split
    · exact ih sorted others
    · rename_i fresh
      have above : last.stepKeys < first.path.stepKeys :=
        lt_of_le_of_ne next fun equal => fresh (FilePath.same_iff_stepKeys.2 equal.symm)
      obtain ⟨later, apart⟩ := ih sorted least
      refine ⟨List.forall_mem_cons.2 ⟨above, fun change member => ?_⟩,
        List.pairwise_cons.2 ⟨later, apart⟩⟩
      exact above.trans (later change member)

theorem firstOfEach_pairwise {changes : List Change}
    (sorted : changes.Pairwise fun change later => change.path.stepKeys ≤ later.path.stepKeys) :
    (firstOfEach changes).Pairwise fun change later =>
      change.path.stepKeys < later.path.stepKeys := by
  cases changes with
  | nil => exact List.Pairwise.nil
  | cons first rest =>
    obtain ⟨least, sorted⟩ := List.pairwise_cons.1 sorted
    obtain ⟨later, apart⟩ := dropRepeated_pairwise sorted least
    exact List.pairwise_cons.2 ⟨later, apart⟩

def Settled (watcher : Watcher) (path : FilePath) : Prop :=
  ∃ delivery ∈ watcher.received, ⟨path, .settled⟩ ∈ delivery.toList

theorem change?_eq_some {notice : Notice} {change : Change} :
    watcher.change? files notice = some change ↔
      notice = ⟨change.path, .settled⟩ ∧ watcher.watches change.path = true ∧
        change.kind = if files.holds change.path then .modified else .removed := by
  obtain ⟨path, kind⟩ := notice
  obtain ⟨changed, what⟩ := change
  rw [change?]
  constructor
  · intro told
    split at told
    · rename_i counts
      rw [Bool.and_eq_true, decide_eq_true_eq] at counts
      obtain ⟨rfl, watched⟩ := counts
      cases told
      exact ⟨rfl, watched, rfl⟩
    · contradiction
  · rintro ⟨same, watched, told⟩
    cases same
    dsimp only at told
    rw [watched, told]
    rfl

theorem mem_changes {change : Change} :
    change ∈ (watcher.received.flatMap Delivery.toList).filterMap (watcher.change? files) ↔
      watcher.watches change.path = true ∧ watcher.Settled change.path ∧
        change.kind = if files.holds change.path then .modified else .removed := by
  simp only [List.mem_filterMap, List.mem_flatMap, change?_eq_some, Settled]
  constructor
  · rintro ⟨notice, delivered, rfl, watched, kind⟩
    exact ⟨watched, delivered, kind⟩
  · rintro ⟨watched, delivered, kind⟩
    exact ⟨_, delivered, rfl, watched, kind⟩

/-- A poll reports the watched files with settled changes, each once and in the order of the paths,
and by what is there now. Nothing waits after it, and the same files are watched. -/
theorem poll_reports (watcher : Watcher) (files : FileSystem) :
    let reported := (watcher.poll files).1
    (∀ change ∈ reported, watcher.watches change.path = true ∧ watcher.Settled change.path ∧
        change.kind = if files.holds change.path then .modified else .removed) ∧
      (∀ path, watcher.watches path = true → watcher.Settled path →
        ∃ change ∈ reported, change.path.same path = true) ∧
      (reported.Pairwise fun change later => change.path.notAfter later.path = true ∧
        change.path.same later.path = false) ∧
      (watcher.poll files).2 = ⟨watcher.watched, []⟩ := by
  intro reported
  let changes := (watcher.received.flatMap Delivery.toList).filterMap (watcher.change? files)
  let sorted := changes.mergeSort fun left right => left.path.notAfter right.path
  have order : sorted.Pairwise fun change later =>
      change.path.stepKeys ≤ later.path.stepKeys := by
    simp only [← FilePath.notAfter_iff]
    refine List.pairwise_mergeSort (fun one two three => ?_) (fun one two => ?_) changes
    · simp only [FilePath.notAfter_iff]
      exact le_trans
    · rw [Bool.or_eq_true, FilePath.notAfter_iff, FilePath.notAfter_iff]
      exact le_total _ _
  have kept (change : Change) : change ∈ sorted ↔ change ∈ changes :=
    (List.mergeSort_perm changes _).mem_iff
  refine ⟨fun change member => ?_, fun path watched settled => ?_, ?_, rfl⟩
  · exact mem_changes.1 ((kept change).1 ((firstOfEach_sublist sorted).subset member))
  · have told : (⟨path, if files.holds path then .modified else .removed⟩ : Change) ∈ changes :=
      mem_changes.2 ⟨watched, settled, rfl⟩
    obtain ⟨change, inside, same⟩ := exists_firstOfEach ((kept _).2 told)
    exact ⟨change, inside, same⟩
  · refine (firstOfEach_pairwise order).imp fun {change later} less => ⟨?_, ?_⟩
    · exact FilePath.notAfter_iff.2 less.le
    · rw [Bool.eq_false_iff, ne_eq, FilePath.same_iff_stepKeys]
      exact less.ne

end Watcher

end DesignTokens
