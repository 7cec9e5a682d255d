import DesignTokens.Files.Watcher
import DesignTokens.Proofs.Files.CachedDocuments
import Mathlib.Data.List.Basic
import Mathlib.Data.List.Induction

/-!
What changes to files mean for a store. They drop the entries whose files they name and nothing
else, however often and in whatever order they name them, and the count is that of these entries.
-/

namespace DesignTokens

namespace Store

variable {store : Store}

theorem Distinct.split (distinct : store.Distinct) {key : FilePath} {config : Config}
    (found : store.find? key = some config) :
    ∃ front entry back, store.entries = front ++ entry :: back ∧ entry.1.same key = true ∧
      ∀ other ∈ front ++ back, other.1.same key = false := by
  obtain ⟨entry, first, -⟩ := Option.map_eq_some_iff.1 found
  have named := List.find?_some first
  obtain ⟨front, back, split⟩ := List.append_of_mem (List.mem_of_find?_eq_some first)
  rw [Distinct, split, List.pairwise_append, List.pairwise_cons] at distinct
  obtain ⟨-, ⟨later, -⟩, earlier⟩ := distinct
  refine ⟨front, entry, back, split, named, fun other member => ?_⟩
  have apart : other.1.same entry.1 = false := by
    rcases List.mem_append.1 member with before | after
    · exact earlier other before entry List.mem_cons_self
    · exact same_symm (later other after)
  rw [FilePath.same, ← of_decide_eq_true named]
  exact apart

theorem size_invalidate (distinct : store.Distinct) (files : FileSystem) (path : FilePath) :
    (store.invalidate files path).1.toNat + (store.invalidate files path).2.size = store.size := by
  rw [invalidate]
  cases found : store.find? (files.normal path) with
  | none =>
    have kept : ∀ entry ∈ store.entries, (!entry.1.same (files.normal path)) = true :=
      fun entry member => congrArg not (find?_eq_none.1 found entry member)
    rw [size, size, List.filter_eq_self.2 kept]
    exact Nat.zero_add _
  | some config =>
    obtain ⟨front, entry, back, split, named, apart⟩ := distinct.split found
    have kept : ∀ other ∈ front ++ back, (!other.1.same (files.normal path)) = true :=
      fun other member => congrArg not (apart other member)
    obtain ⟨before, after⟩ := List.forall_mem_append.1 kept
    rw [size, size, split, List.filter_append, List.filter_cons_of_neg (by simp [named]),
      List.filter_eq_self.2 before, List.filter_eq_self.2 after, List.length_append,
      List.length_append, List.length_cons]
    exact Nat.add_comm 1 _

end Store

namespace Watcher

def keysOf (files : FileSystem) (changes : List Change) : List FilePath :=
  changes.map fun change => files.normal change.path

def names (files : FileSystem) (changes : List Change) (entry : FilePath × Config) : Bool :=
  (keysOf files changes).any entry.1.same

section

variable (files : FileSystem) (store : Store) (changes : List Change)

theorem applyChanges_concat (change : Change) :
    applyChanges files store (changes ++ [change]) =
      let earlier := applyChanges files store changes
      let (dropped, left) := earlier.2.invalidate files change.path
      (earlier.1 + dropped.toNat, left) := by
  rw [applyChanges, List.foldl_append, ← applyChanges]
  dsimp only [List.foldl_cons, List.foldl_nil]
  cases ((applyChanges files store changes).2.invalidate files change.path).1 <;> rfl

theorem applyChanges_entries :
    (applyChanges files store changes).2.entries =
      store.entries.filter fun entry => !names files changes entry := by
  induction changes using List.reverseRecOn with
  | nil => exact (List.filter_eq_self.2 fun _ _ => rfl).symm
  | append_singleton changes change ih =>
    rw [applyChanges_concat]
    change (applyChanges files store changes).2.entries.filter _ = _
    rw [ih, List.filter_filter]
    congr 1
    funext entry
    simp [names, keysOf, Bool.and_comm]

variable {store}

theorem applyChanges_distinct (distinct : store.Distinct) :
    (applyChanges files store changes).2.Distinct := by
  apply distinct.sublist
  rw [applyChanges_entries]
  exact List.filter_sublist

/-- The count and the entries that are left make up the store. -/
theorem applyChanges_size (distinct : store.Distinct) :
    (applyChanges files store changes).1 + (applyChanges files store changes).2.size =
      store.size := by
  induction changes using List.reverseRecOn with
  | nil => exact Nat.zero_add _
  | append_singleton changes change ih =>
    have left := Store.size_invalidate (applyChanges_distinct files changes distinct) files
      change.path
    rw [applyChanges_concat]
    dsimp only
    omega

theorem applyChanges_count (distinct : store.Distinct) :
    (applyChanges files store changes).1 =
      (store.entries.filter (names files changes)).length := by
  have parts := List.length_eq_length_filter_add (l := store.entries) (names files changes)
  have sizes := applyChanges_size files changes distinct
  rw [Store.size, Store.size, applyChanges_entries] at sizes
  omega

end

section

variable {files : FileSystem} {changes others : List Change}

theorem names_congr (same : ∀ key, key ∈ keysOf files others ↔ key ∈ keysOf files changes) :
    names files others = names files changes := by
  funext entry
  rw [names, names, Bool.eq_iff_iff, List.any_eq_true, List.any_eq_true]
  simp only [same]

theorem applyChanges_congr {store : Store} (distinct : store.Distinct)
    (same : ∀ key, key ∈ keysOf files others ↔ key ∈ keysOf files changes) :
    applyChanges files store others = applyChanges files store changes := by
  apply Prod.ext
  · rw [applyChanges_count files others distinct, applyChanges_count files changes distinct,
      names_congr same]
  · apply congrArg Store.mk
    rw [applyChanges_entries, applyChanges_entries, names_congr same]

end

end Watcher

/-- Changes drop exactly the entries whose keys are normal paths of theirs, and count these entries.
How often, in which order, with which kinds and in which spelling the paths come makes no difference.
The keys of a store that operations come to always differ. -/
theorem changes_drop_named {store : Store} (distinct : store.Distinct) (files : FileSystem)
    (changes : List Change) :
    let dropped := Watcher.applyChanges files store changes
    dropped.1 = (store.entries.filter (Watcher.names files changes)).length ∧
      dropped.1 + dropped.2.size = store.size ∧
      dropped.2.entries = (store.entries.filter fun entry => !Watcher.names files changes entry) ∧
      ∀ others : List Change,
        (∀ key, key ∈ Watcher.keysOf files others ↔ key ∈ Watcher.keysOf files changes) →
          Watcher.applyChanges files store others = dropped :=
  ⟨Watcher.applyChanges_count files changes distinct,
    Watcher.applyChanges_size files changes distinct, Watcher.applyChanges_entries files store changes,
    fun _ same => Watcher.applyChanges_congr distinct same⟩

def nestedState : StoreState :=
  (StoreState.start nestedFiles).run
    [.getOrLoad ⟨"/snow.config.json"⟩, .getOrLoad ⟨"/pkg/snow.config.json"⟩]

/-- Two spellings of the upper file, and one file that is not there. -/
def repeatedChanges : List Change :=
  [⟨⟨"/pkg/../snow.config.json"⟩, .modified⟩, ⟨⟨"/absent.toml"⟩, .removed⟩,
    ⟨⟨"snow.config.json"⟩, .removed⟩]

theorem repeated_changes_drop_one :
    nestedState.store.Distinct ∧
      (∀ key, key ∈ Watcher.keysOf nestedFiles repeatedChanges.reverse ↔
        key ∈ Watcher.keysOf nestedFiles repeatedChanges) ∧
      (Watcher.applyChanges nestedFiles nestedState.store repeatedChanges.reverse).1 = 1 ∧
      (Watcher.applyChanges nestedFiles nestedState.store repeatedChanges).2.paths =
        [⟨"/pkg/snow.config.json"⟩] := by
  have distinct : nestedState.store.Distinct := StoreState.start_run_distinct _ _
  have same (key : FilePath) : key ∈ Watcher.keysOf nestedFiles repeatedChanges.reverse ↔
      key ∈ Watcher.keysOf nestedFiles repeatedChanges := by
    rw [Watcher.keysOf, Watcher.keysOf, List.map_reverse, List.mem_reverse]
  obtain ⟨count, -, -, congr⟩ := changes_drop_named distinct nestedFiles repeatedChanges
  refine ⟨distinct, same, ?_, by decide +kernel⟩
  rw [congr _ same, count]
  decide +kernel

end DesignTokens
