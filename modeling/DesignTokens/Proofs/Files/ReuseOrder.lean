import DesignTokens.Proofs.Files.CachedDocuments
import Mathlib.Data.List.Perm.Basic

/-!
Whether it matters in which order the entries of a store were loaded, and in which order they are
gone through. A document gets a cached configuration from the deepest directory that has one. Where
that directory has one cached file, the order makes no difference; where it has several, each of
them is the answer in some order.
-/

namespace DesignTokens

def FilePath.beside (left right : FilePath) : Bool :=
  match left.parent?, right.parent? with
  | some directory, some other => directory.same other
  | _, _ => false

theorem beside_comm (left right : FilePath) : left.beside right = right.beside left := by
  rw [FilePath.beside, FilePath.beside]
  cases left.parent? with
  | none => cases right.parent? <;> rfl
  | some directory =>
    cases right.parent? with
    | none => rfl
    | some other => exact decide_eq_decide.2 eq_comm

namespace EntryOrder

/-- The order in which the entry at a position comes last. -/
def lastly (i : Nat) : EntryOrder where
  arrange entries := entries.eraseIdx i ++ entries[i]?.toList
  perm entries := by
    cases found : entries[i]? with
    | none =>
      rw [List.eraseIdx_of_length_le (List.getElem?_eq_none_iff.1 found)]
      exact List.Perm.of_eq (List.append_nil entries)
    | some entry =>
      obtain ⟨within, rfl⟩ := List.getElem?_eq_some_iff.1 found
      exact (List.perm_append_singleton _ _).trans (List.getElem_cons_eraseIdx_perm within)

end EntryOrder

namespace Store

def Reordered (store other : Store) : Prop :=
  other.entries.Perm store.entries

/-- An entry of the deepest directory among those that a document lies in. -/
def Eligible (store : Store) (document : FilePath) (entry : FilePath × Config) : Prop :=
  ∃ directory, store.Deepest document entry directory

variable {store other : Store} {order : EntryOrder} {document : FilePath}

theorem Reordered.covers_iff (reordered : store.Reordered other) {entry : FilePath × Config}
    {directory : FilePath} :
    other.Covers document entry directory ↔ store.Covers document entry directory := by
  constructor
  · rintro ⟨member, inside, below⟩
    exact ⟨reordered.mem_iff.1 member, inside, below⟩
  · rintro ⟨member, inside, below⟩
    exact ⟨reordered.mem_iff.2 member, inside, below⟩

theorem Reordered.eligible_iff (reordered : store.Reordered other) {entry : FilePath × Config} :
    other.Eligible document entry ↔ store.Eligible document entry := by
  constructor
  · rintro ⟨directory, covers, deepest⟩
    exact ⟨directory, reordered.covers_iff.1 covers,
      fun another above covered => deepest another above (reordered.covers_iff.2 covered)⟩
  · rintro ⟨directory, covers, deepest⟩
    exact ⟨directory, reordered.covers_iff.2 covers,
      fun another above covered => deepest another above (reordered.covers_iff.1 covered)⟩

theorem eligible_of_findCovering {config : Config}
    (found : store.findCovering order document = some config) :
    ∃ key, store.Eligible document (key, config) := by
  obtain ⟨key, directory, deepest⟩ := deepest_of_findCovering found
  exact ⟨key, directory, deepest⟩

theorem mem_of_foldl_deeper {entries : List (FilePath × Config)} {best : FilePath × Config}
    (found : entries.foldl deeper none = some best) : best ∈ entries := by
  cases entries with
  | nil => contradiction
  | cons first others =>
    obtain ⟨deepest, member, same, -⟩ := foldl_deeper first others
    rw [List.foldl_cons, deeper, same] at found
    exact Option.some.inj found ▸ member

/-- An eligible entry is the one that is reused if it comes last. -/
theorem findCovering_last {front : List (FilePath × Config)} {entry : FilePath × Config}
    (arranged : order.arrange store.entries = front ++ [entry])
    (eligible : store.Eligible document entry) :
    store.findCovering order document = some entry.2 := by
  obtain ⟨directory, ⟨-, inside, below⟩, deepest⟩ := eligible
  have last : covering (order.arrange store.entries) document =
      covering front document ++ [(directory, entry.2)] := by
    rw [covering, covering, arranged, List.filterMap_append]
    simp only [List.filterMap_cons, List.filterMap_nil, inside, below, if_true]
  rw [findCovering, last, List.foldl_append, List.foldl_cons, List.foldl_nil]
  cases best : (covering front document).foldl deeper none with
  | none => rfl
  | some earlier =>
    have member : earlier ∈ covering (order.arrange store.entries) document := by
      rw [last]
      exact List.mem_append_left _ (mem_of_foldl_deeper best)
    obtain ⟨key, covers⟩ := mem_covering.1 member
    have shallower := deepest (key, earlier.2) earlier.1 covers
    rw [deeper, if_pos shallower]
    rfl

theorem Eligible.reused {entry : FilePath × Config} (eligible : store.Eligible document entry) :
    ∃ order, store.findCovering order document = some entry.2 := by
  have ⟨directory, covers, _⟩ := eligible
  obtain ⟨i, found⟩ := List.mem_iff_getElem?.1 covers.member
  have arranged : (EntryOrder.lastly i).arrange store.entries =
      store.entries.eraseIdx i ++ [entry] := by
    have last : (EntryOrder.lastly i).arrange store.entries =
        store.entries.eraseIdx i ++ store.entries[i]?.toList := rfl
    rw [last, found]
    rfl
  exact ⟨_, findCovering_last arranged eligible⟩

/-- Eligible entries are files of one directory. -/
theorem Eligible.beside {entry other : FilePath × Config} (first : store.Eligible document entry)
    (second : store.Eligible document other) : entry.1.beside other.1 = true := by
  obtain ⟨directory, covers, deepest⟩ := first
  obtain ⟨above, covered, deepest'⟩ := second
  have level := Nat.le_antisymm (deepest _ _ covered) (deepest' _ _ covers)
  rw [FilePath.beside, covers.inside, covered.inside]
  exact same_iff.2 (covers.steps_eq covered level)

theorem eligible_alone
    (apart : store.paths.Pairwise fun path later => path.beside later = false)
    {entry other : FilePath × Config} (first : store.Eligible document entry)
    (second : store.Eligible document other) : entry = other := by
  have symmetric : Std.Symm fun one two : FilePath × Config => one.1.beside two.1 = false :=
    ⟨fun one two => (beside_comm two.1 one.1).trans⟩
  by_contra different
  have ⟨_, covers, _⟩ := first
  have ⟨_, covered, _⟩ := second
  have elsewhere := List.Pairwise.forall (List.pairwise_map.1 apart) covers.member covered.member
    different
  rw [first.beside second] at elsewhere
  contradiction

/-! The whole answer. -/

theorem Distinct.find?_reordered (distinct : store.Distinct) (reordered : store.Reordered other)
    (key : FilePath) : other.find? key = store.find? key := by
  cases found : store.find? key with
  | none =>
    rw [find?_eq_none] at found ⊢
    exact fun entry member => found entry (reordered.mem_iff.1 member)
  | some config =>
    obtain ⟨entry, first, rfl⟩ := Option.map_eq_some_iff.1 found
    have named := List.find?_some first
    have member := List.mem_of_find?_eq_some first
    cases again : other.find? key with
    | none =>
      have absent := find?_eq_none.1 again entry (reordered.mem_iff.2 member)
      rw [absent] at named
      contradiction
    | some config =>
      obtain ⟨entry', second, rfl⟩ := Option.map_eq_some_iff.1 again
      have named' := List.find?_some second
      have inside := reordered.mem_iff.1 (List.mem_of_find?_eq_some second)
      rw [distinct.eq inside member named' named]

theorem getOrLoad_congr {files : FileSystem} {path : FilePath}
    (found : other.find? (files.normal path) = store.find? (files.normal path)) :
    (other.getOrLoad files path).map Prod.fst = (store.getOrLoad files path).map Prod.fst := by
  cases known : store.find? (files.normal path) with
  | some config =>
    rw [getOrLoad, getOrLoad, found, known]
    rfl
  | none =>
    rw [getOrLoad_absent known, getOrLoad_absent (found.trans known)]
    cases readConfig files (files.normal path) <;> rfl

/-- An answer depends on what is reused and on what is found under a key. -/
theorem answer_congr {files : FileSystem} {path : FilePath} {order' : EntryOrder}
    (reused : other.findCovering order' (files.normal path) =
      store.findCovering order (files.normal path))
    (found : ∀ key, other.find? key = store.find? key) (roots : List FilePath) :
    other.answer files ⟨path, roots, order'⟩ = store.answer files ⟨path, roots, order⟩ := by
  rw [answer, answer, forDocument, forDocument, reused]
  dsimp only
  cases store.findCovering order (files.normal path) with
  | some config => rfl
  | none =>
    cases findNearestConfig files (files.normal path) roots with
    | none => rfl
    | some near =>
      have loaded : (other.getOrLoad files near).map Prod.fst =
          (store.getOrLoad files near).map Prod.fst := getOrLoad_congr (found _)
      dsimp only
      generalize other.getOrLoad files near = left at loaded
      generalize store.getOrLoad files near = right at loaded
      cases left with
      | error problem =>
        cases right with
        | error cause => exact congrArg Except.error (Except.error.inj loaded)
        | ok found => contradiction
      | ok found =>
        cases right with
        | error cause => contradiction
        | ok known =>
          have same : found.1 = known.1 := Except.ok.inj loaded
          exact congrArg (fun config => Except.ok (some config)) same

theorem answer_of_findCovering {files : FileSystem} {path : FilePath} {config : Config}
    (found : store.findCovering order (files.normal path) = some config) (roots : List FilePath) :
    store.answer files ⟨path, roots, order⟩ = .ok (some config) := by
  rw [answer, forDocument, found]
  rfl

theorem findCovering_reordered (reordered : store.Reordered other)
    (alone : ∀ entry later, store.Eligible document entry → store.Eligible document later →
      entry = later) (order' : EntryOrder) :
    other.findCovering order' document = store.findCovering order document := by
  cases found : store.findCovering order document with
  | none =>
    rw [findCovering_eq_none] at found ⊢
    exact fun entry directory covers => found entry directory (reordered.covers_iff.1 covers)
  | some config =>
    obtain ⟨key, eligible⟩ := eligible_of_findCovering found
    cases again : other.findCovering order' document with
    | none =>
      obtain ⟨directory, covers, -⟩ := eligible
      exact absurd (reordered.covers_iff.2 covers) (findCovering_eq_none.1 again _ _)
    | some config =>
      obtain ⟨key', eligible'⟩ := eligible_of_findCovering again
      have same := alone _ _ (reordered.eligible_iff.1 eligible') eligible
      exact congrArg some (Prod.mk.inj same).2

/-- Different entries have different configurations, so one answer is that of one entry. -/
theorem Sourced.eq (sourced : store.Sourced) {entry later : FilePath × Config}
    (first : entry ∈ store.entries) (second : later ∈ store.entries) (same : entry.2 = later.2) :
    entry = later := by
  have source := sourced entry first
  rw [same, sourced later second] at source
  exact Prod.ext (Option.some.inj source).symm same

end Store

theorem StoreState.start_run_sourced (files : FileSystem) {events : List StoreEvent}
    (read : ∀ event ∈ events, event.inserts = false) :
    ((start files).run events).store.Sourced := by
  apply run_invariant fun state => state.store.Sourced
  · exact fun event member state sourced => after_sourced sourced (read event member)
  · exact fun entry member => nomatch member

/-- The configurations that a document may get from the cache are those of the eligible entries,
which are files of one directory, and each of them is the answer in some order. So the answer
depends neither on the order of the loads nor on that of the entries if and only if there is at most
one of them. -/
theorem answer_order_free_iff (files : FileSystem) {events : List StoreEvent}
    (read : ∀ event ∈ events, event.inserts = false) (document : FilePath) :
    let state := (StoreState.start files).run events
    let normal := state.files.normal document
    (∀ config, (∃ order, state.store.findCovering order normal = some config) ↔
        ∃ key, state.store.Eligible normal (key, config)) ∧
      (∀ entry other, state.store.Eligible normal entry → state.store.Eligible normal other →
        entry.1.beside other.1 = true) ∧
      ((∀ other roots order order', state.store.Reordered other →
          other.answer state.files ⟨document, roots, order'⟩ =
            state.store.answer state.files ⟨document, roots, order⟩) ↔
        ∀ entry other, state.store.Eligible normal entry → state.store.Eligible normal other →
          entry = other) := by
  intro state normal
  -- Insertion apart, a configuration carries its key, so that answers tell entries apart.
  have sourced : state.store.Sourced := StoreState.start_run_sourced files read
  have distinct : state.store.Distinct := StoreState.start_run_distinct files events
  refine ⟨fun config => ⟨?_, ?_⟩, fun _ _ => Store.Eligible.beside, ?_, ?_⟩
  · rintro ⟨order, found⟩
    exact Store.eligible_of_findCovering found
  · rintro ⟨key, eligible⟩
    exact eligible.reused
  · -- Each of two eligible entries is the answer in an order of its own.
    intro free entry other first second
    obtain ⟨order, found⟩ := first.reused
    obtain ⟨order', found'⟩ := second.reused
    have same := free state.store [] order' order (.refl _)
    rw [Store.answer_of_findCovering found, Store.answer_of_findCovering found'] at same
    obtain ⟨directory, covers, -⟩ := first
    obtain ⟨above, covered, -⟩ := second
    exact sourced.eq covers.member covered.member (Option.some.inj (Except.ok.inj same))
  · intro alone other roots order order' reordered
    have reused : other.findCovering order' normal = state.store.findCovering order normal :=
      Store.findCovering_reordered reordered alone order'
    exact Store.answer_congr reused (distinct.find?_reordered reordered) roots

/-- Both of the nested files are loaded, so a document below has its configuration in any order. -/
theorem nested_answer_order_free :
    let events : List StoreEvent :=
      [.getOrLoad ⟨"/snow.config.json"⟩, .getOrLoad ⟨"/pkg/snow.config.json"⟩]
    let state := (StoreState.start nestedFiles).run events
    (∀ event ∈ events, event.inserts = false) ∧
      sourceOf? (state.store.answer nestedFiles ⟨⟨"/pkg/y.css"⟩, [], .loaded⟩) =
        some ⟨"/pkg/snow.config.json"⟩ ∧
      ∀ other roots order order', state.store.Reordered other →
        other.answer state.files ⟨⟨"/pkg/y.css"⟩, roots, order'⟩ =
          state.store.answer state.files ⟨⟨"/pkg/y.css"⟩, roots, order⟩ := by
  intro events state
  have read : ∀ event ∈ events, event.inserts = false := by decide
  have apart : state.store.paths.Pairwise fun path later => path.beside later = false := by
    decide +kernel
  obtain ⟨-, -, free⟩ := answer_order_free_iff nestedFiles read ⟨"/pkg/y.css"⟩
  exact ⟨read, by decide +kernel, free.2 fun _ _ => Store.eligible_alone apart⟩

def siblingFiles : FileSystem :=
  ((FileSystem.vacant []).write ⟨"/snow.config.toml"⟩ "[tokens]\na = \"1px\"".toUTF8).write
    ⟨"/snow.config.json"⟩ "\x7b\"tokens\":\x7b\"a\":\"2px\"\x7d\x7d".toUTF8

/-- Which of the siblings is the answer depends on the order of the entries. -/
theorem siblings_answer_by_order :
    let store := ((StoreState.start siblingFiles).run
      [.getOrLoad ⟨"/snow.config.toml"⟩, .getOrLoad ⟨"/snow.config.json"⟩]).store
    store.answer siblingFiles ⟨⟨"/x.css"⟩, [], .loaded⟩ ≠
      store.answer siblingFiles ⟨⟨"/x.css"⟩, [], .reversed⟩ := by
  intro store
  have later : sourceOf? (store.answer siblingFiles ⟨⟨"/x.css"⟩, [], .loaded⟩) =
      some ⟨"/snow.config.json"⟩ := by decide +kernel
  have earlier : sourceOf? (store.answer siblingFiles ⟨⟨"/x.css"⟩, [], .reversed⟩) =
      some ⟨"/snow.config.toml"⟩ := by decide +kernel
  intro same
  rw [same, earlier] at later
  exact absurd later (by decide)

end DesignTokens
