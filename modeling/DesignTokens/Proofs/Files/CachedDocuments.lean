import DesignTokens.Proofs.Files.Directories
import DesignTokens.Proofs.Files.StoreKeys

/-!
Which configuration a document gets when others were looked up before, while the files stay as they
are. A store answers as a fresh one does, unless it holds a configuration of a directory that the
document lies in; one of the deepest of those is the answer, even where a search for the document
would find something else. It finds the same file if nothing nearer stops it, provided that the file
is the configuration of its directory and was not come by through a link.
-/

namespace DesignTokens

open FilePath

namespace Store

/-! The deepest of the entries that cover a document. -/

theorem foldl_deeper (first : FilePath × Config) (entries : List (FilePath × Config)) :
    ∃ deepest ∈ first :: entries, entries.foldl deeper (some first) = some deepest ∧
      ∀ other ∈ first :: entries, other.1.steps.length ≤ deepest.1.steps.length := by
  induction entries generalizing first with
  | nil =>
    refine ⟨first, List.mem_cons_self, rfl, fun other member => ?_⟩
    rw [List.mem_singleton.1 member]
  | cons entry entries ih =>
    rw [List.foldl_cons, deeper]
    split
    · rename_i shallower
      obtain ⟨deepest, member, found, most⟩ := ih entry
      refine ⟨deepest, List.mem_cons_of_mem first member, found, ?_⟩
      exact List.forall_mem_cons.2 ⟨shallower.trans (most entry List.mem_cons_self), most⟩
    · rename_i deep
      obtain ⟨deepest, member, found, most⟩ := ih first
      have bound := most first List.mem_cons_self
      refine ⟨deepest, ?_, found, ?_⟩
      · rcases List.mem_cons.1 member with rfl | later
        · exact List.mem_cons_self
        · exact List.mem_cons_of_mem _ (List.mem_cons_of_mem _ later)
      · have rest : ∀ other ∈ entries, other.1.steps.length ≤ deepest.1.steps.length :=
          fun other inside => most other (List.mem_cons_of_mem _ inside)
        have second : entry.1.steps.length ≤ deepest.1.steps.length := by omega
        exact List.forall_mem_cons.2 ⟨bound, List.forall_mem_cons.2 ⟨second, rest⟩⟩

/-- An entry of a directory in which a document lies. -/
structure Covers (store : Store) (document : FilePath) (entry : FilePath × Config)
    (directory : FilePath) : Prop where
  member : entry ∈ store.entries
  inside : entry.1.parent? = some directory
  below : document.startsWith directory = true

theorem mem_covering {store : Store} {order : EntryOrder} {document directory : FilePath}
    {config : Config} :
    (directory, config) ∈ covering (order.arrange store.entries) document ↔
      ∃ key, store.Covers document (key, config) directory := by
  rw [covering, List.mem_filterMap]
  constructor
  · rintro ⟨⟨key, other⟩, member, found⟩
    dsimp only at found
    split at found
    · rename_i above parent
      split at found
      · rename_i below
        obtain ⟨rfl, rfl⟩ := Prod.mk.inj (Option.some.inj found)
        exact ⟨key, (order.perm _).mem_iff.1 member, parent, below⟩
      · contradiction
    · contradiction
  · rintro ⟨key, member, inside, below⟩
    refine ⟨(key, config), (order.perm _).mem_iff.2 member, ?_⟩
    dsimp only at inside ⊢
    rw [inside]
    exact if_pos below

theorem findCovering_eq_none {store : Store} {order : EntryOrder} {document : FilePath} :
    store.findCovering order document = none ↔
      ∀ entry directory, ¬ store.Covers document entry directory := by
  rw [findCovering, Option.map_eq_none_iff]
  constructor
  · intro found entry directory covers
    have member : (directory, entry.2) ∈ covering (order.arrange store.entries) document :=
      mem_covering.2 ⟨entry.1, covers⟩
    cases shape : covering (order.arrange store.entries) document with
    | nil =>
      rw [shape] at member
      contradiction
    | cons first others =>
      obtain ⟨deepest, -, some, -⟩ := foldl_deeper first others
      rw [shape, List.foldl_cons, deeper, some] at found
      contradiction
  · intro uncovered
    cases shape : covering (order.arrange store.entries) document with
    | nil => rfl
    | cons first others =>
      have member : (first.1, first.2) ∈ covering (order.arrange store.entries) document := by
        rw [shape]
        exact List.mem_cons_self
      obtain ⟨key, covers⟩ := mem_covering.1 member
      exact absurd covers (uncovered _ _)

/-- An entry of the deepest directory among those that a document lies in. -/
structure Deepest (store : Store) (document : FilePath) (entry : FilePath × Config)
    (directory : FilePath) : Prop extends store.Covers document entry directory where
  deepest : ∀ other above, store.Covers document other above →
    above.steps.length ≤ directory.steps.length

theorem deepest_of_findCovering {store : Store} {order : EntryOrder} {document : FilePath}
    {config : Config} (found : store.findCovering order document = some config) :
    ∃ key directory, store.Deepest document (key, config) directory := by
  obtain ⟨⟨directory, same⟩, best, rfl⟩ := Option.map_eq_some_iff.1 found
  cases shape : covering (order.arrange store.entries) document with
  | nil =>
    rw [shape] at best
    contradiction
  | cons first others =>
    obtain ⟨deepest, member, some, most⟩ := foldl_deeper first others
    rw [shape, List.foldl_cons, deeper, some] at best
    cases Option.some.inj best
    rw [← shape] at member most
    obtain ⟨key, covers⟩ := mem_covering.1 member
    exact ⟨key, directory, covers, fun other above covered =>
      most (above, other.2) (mem_covering.2 ⟨other.1, covered⟩)⟩

end Store

/-- A look-up of a document with its workspace roots, and the order of the entries at that time. -/
structure DocumentQuery where
  document : FilePath
  roots : List FilePath
  order : EntryOrder

namespace Store

def answer (store : Store) (files : FileSystem) (query : DocumentQuery) :
    Except LoadError (Option Config) :=
  (store.forDocument files query.order query.document query.roots).map Prod.fst

theorem answer_empty (files : FileSystem) (query : DocumentQuery) :
    empty.answer files query =
      match findNearestConfig files (files.normal query.document) query.roots with
      | none => .ok none
      | some path => (readConfig files (files.normal path)).map some := by
  have uncovered : empty.findCovering query.order (files.normal query.document) = none :=
    findCovering_eq_none.2 fun entry directory covers => nomatch covers.member
  rw [answer, forDocument, uncovered]
  dsimp only
  cases findNearestConfig files (files.normal query.document) query.roots with
  | none => rfl
  | some path =>
    have looked := empty.getOrLoad_lookUp files path
    dsimp only
    generalize empty.getOrLoad files path = result at looked
    cases looked with
    | known found => contradiction
    | read absent built =>
      rw [built]
      rfl
    | failed absent broken =>
      rw [broken]
      rfl

end Store

/-! What earlier look-ups leave in the store. -/

def documentEvents (queries : List DocumentQuery) : List StoreEvent :=
  queries.map fun query => .forDocument query.order query.document query.roots

/-- An entry that one of the look-ups of documents finds. -/
def Discovered (files : FileSystem) (queries : List DocumentQuery) (entry : FilePath × Config) :
    Prop :=
  ∃ query ∈ queries, ∃ path,
    findNearestConfig files (files.normal query.document) query.roots = some path ∧
      entry.1 = files.normal path ∧ readConfig files entry.1 = .ok entry.2

variable {files : FileSystem} {queries : List DocumentQuery}

/-- All entries were found by look-ups, in files that are as they were. -/
structure Stocked (files : FileSystem) (queries : List DocumentQuery) (state : StoreState) :
    Prop where
  unchanged : state.files = files
  discovered : ∀ entry ∈ state.store.entries, Discovered files queries entry

theorem Stocked.after {state : StoreState} (stocked : Stocked files queries state)
    {query : DocumentQuery} (member : query ∈ queries) :
    Stocked files queries
      (state.after (.forDocument query.order query.document query.roots)) := by
  obtain ⟨rfl, discovered⟩ := stocked
  have looked :=
    state.store.forDocument_lookUp state.files query.order query.document query.roots
  rw [StoreState.after, StoreState.step]
  generalize state.store.forDocument state.files query.order query.document query.roots = result
    at looked
  cases looked with
  | covered found => exact ⟨rfl, discovered⟩
  | nothing uncovered absent => exact ⟨rfl, discovered⟩
  | nearest uncovered near lookUp =>
    cases lookUp with
    | known found => exact ⟨rfl, discovered⟩
    | failed absent broken => exact ⟨rfl, discovered⟩
    | read absent built =>
      refine ⟨rfl, fun entry inside => ?_⟩
      rcases List.mem_append.1 inside with old | new
      · exact discovered entry old
      · rw [List.mem_singleton.1 new]
        exact ⟨query, member, _, near, rfl, built⟩

def stockedStore (files : FileSystem) (queries : List DocumentQuery) : Store :=
  ((StoreState.start files).run (documentEvents queries)).store

theorem stockedStore_discovered :
    ∀ entry ∈ (stockedStore files queries).entries, Discovered files queries entry := by
  have stocked : Stocked files queries
      ((StoreState.start files).run (documentEvents queries)) := by
    apply StoreState.run_invariant
    · intro event member state stocked
      obtain ⟨query, listed, rfl⟩ := List.mem_map.1 member
      exact stocked.after listed
    · exact ⟨rfl, fun entry member => nomatch member⟩
  exact stocked.discovered

theorem stockedStore_distinct : (stockedStore files queries).Distinct :=
  StoreState.start_run_distinct files _

/-- The entry of a look-up is what a fresh store answers to it. -/
theorem Discovered.answered {entry : FilePath × Config}
    (discovered : Discovered files queries entry) :
    ∃ query ∈ queries, Store.empty.answer files query = .ok (some entry.2) := by
  obtain ⟨query, member, path, near, key, read⟩ := discovered
  refine ⟨query, member, ?_⟩
  rw [Store.answer_empty, near]
  dsimp only
  rw [← key, read]
  rfl

theorem Discovered.located {entry : FilePath × Config}
    (discovered : Discovered files queries entry) :
    ∃ base path, configIn? files base = some path ∧ entry.1 = files.normal path := by
  obtain ⟨query, -, path, near, key, -⟩ := discovered
  obtain ⟨base, -, found⟩ := List.exists_of_findSome?_eq_some near
  exact ⟨base, path, found, key⟩

theorem Discovered.key {entry : FilePath × Config} (discovered : Discovered files queries entry) :
    ∃ place, entry.1 = FileSystem.pathOf place ∧ files.Reached place := by
  obtain ⟨base, path, found, key⟩ := discovered.located
  obtain ⟨target, content, resolved, -⟩ := FileSystem.resolve_of_configIn? found
  exact ⟨target, key.trans (FileSystem.normal_of_resolve resolved),
    FileSystem.reached_of_resolve resolved⟩

theorem answer_of_uncovered {store : Store}
    (discovered : ∀ entry ∈ store.entries, Discovered files queries entry) {query : DocumentQuery}
    (uncovered : store.findCovering query.order (files.normal query.document) = none) :
    store.answer files query = Store.empty.answer files query := by
  rw [Store.answer_empty, Store.answer, Store.forDocument, uncovered]
  dsimp only
  cases near : findNearestConfig files (files.normal query.document) query.roots with
  | none => rfl
  | some path =>
    have looked := store.getOrLoad_lookUp files path
    dsimp only
    generalize store.getOrLoad files path = result at looked
    cases looked with
    | read absent built =>
      rw [built]
      rfl
    | failed absent broken =>
      rw [broken]
      rfl
    -- The nearest file may be known although its directory does not cover the document: the
    -- document's path may be relative, or go up, or the file may be linked.
    | @known config found =>
      obtain ⟨entry, first, rfl⟩ := Option.map_eq_some_iff.1 found
      have inside := discovered entry (List.mem_of_find?_eq_some first)
      have same := List.find?_some first
      rw [same_iff] at same
      obtain ⟨base, -, above⟩ := List.exists_of_findSome?_eq_some near
      obtain ⟨target, content, resolved, -⟩ := FileSystem.resolve_of_configIn? above
      obtain ⟨place, key, reached⟩ := inside.key
      obtain ⟨_, _, _, _, _, read⟩ := inside
      rw [FileSystem.normal_of_resolve resolved] at same ⊢
      rw [key, FileSystem.steps_pathOf_inj reached.proper
        (FileSystem.reached_of_resolve resolved).proper] at same
      rw [← same, ← key, read]
      rfl

/-! Where an entry covers the document. -/

/-- A search for a document ends before it comes to a directory: the document is the directory
itself, or a nearer directory has a configuration or is a workspace root. -/
def Obstructed (files : FileSystem) (document : FilePath) (roots : List FilePath)
    (directory : FilePath) : Prop :=
  document.steps = directory.steps ∨
    ∃ nearer ∈ directoriesAbove document, directory.steps.length < nearer.steps.length ∧
      ((configIn? files nearer).isSome = true ∨ roots.any nearer.same = true)

section Covered

variable {store : Store} {document directory : FilePath} {entry : FilePath × Config}
  (discovered : Discovered files queries entry) (covers : store.Covers document entry directory)

include discovered covers in
/-- The directory is spelled by names from the root on, and the document's steps start with it. -/
theorem covers_steps :
    directory.isAbsolute = true ∧ document.isAbsolute = true ∧
      ∃ (names : Place) (back : List PathStep), directory.steps = .root :: names.map .down ∧
        document.steps = directory.steps ++ back := by
  obtain ⟨place, key, reached⟩ := discovered.key
  have inside := covers.inside
  rw [key] at inside
  obtain ⟨names, -, -, absolute, steps⟩ := FileSystem.parent_of_pathOf reached inside
  obtain ⟨back, split⟩ := List.isPrefixOf_iff_prefix.1 covers.below
  refine ⟨absolute, ?_, names, back, steps, split.symm⟩
  apply isAbsolute_of_root
  rw [← split, steps]
  exact List.mem_append_left back List.mem_cons_self

include discovered covers in
/-- A search that comes to the directory gives the entry's file, if that is the configuration of the
directory. -/
theorem findNearestConfig_of_open (own : files.OwnConfig directory entry.1)
    {roots : List FilePath} (clear : ¬ Obstructed files document roots directory) :
    ∃ path, findNearestConfig files document roots = some path ∧
      files.normal path = entry.1 := by
  obtain ⟨-, absolute, names, back, straight, split⟩ := covers_steps discovered covers
  obtain ⟨apart, free⟩ := not_or.1 clear
  cases back with
  | nil => exact absurd (split.trans (List.append_nil _)) apart
  | cons step back =>
    have steps := split
    rw [straight] at steps
    obtain ⟨nearer, here, farther, above, inside, same, deeper⟩ :=
      directoriesAbove_split absolute steps
    obtain ⟨again, hit, equal⟩ :=
      own.congr (FileSystem.placeOf_congr (straight.trans same.symm))
    have length : directory.steps.length = (names.map PathStep.down).length + 1 := by
      rw [straight, List.length_cons]
    have passed : ∀ other ∈ nearer, ¬ ((configIn? files other).isSome = true ∨
        roots.any other.same = true) := by
      intro other member stops
      refine free ⟨other, ?_, length ▸ deeper other member, stops⟩
      rw [above]
      exact List.mem_append_left _ member
    refine ⟨again, ?_, equal⟩
    rw [findNearestConfig, above]
    refine findSome?_throughFirst (fun other member => ?_) (fun other member => ?_) hit
    · exact eq_false_of_ne_true fun stops => passed other member (Or.inr stops)
    · exact Option.not_isSome_iff_eq_none.1 fun stops => passed other member (Or.inl stops)

include covers in
/-- Without links, and for a document whose path never goes up, only such a search gives the entry's
file. -/
theorem open_of_findNearestConfig (linkless : files.Linkless)
    (absolute : document.isAbsolute = true) (down : .up ∉ document.steps) {roots : List FilePath}
    {path : FilePath} (near : findNearestConfig files document roots = some path)
    (same : files.normal path = entry.1) : ¬ Obstructed files document roots directory := by
  obtain ⟨nearer, here, farther, above, found, passed⟩ := findSome?_throughFirst_eq_some near
  have member : here ∈ directoriesAbove document := by
    rw [above]
    exact List.mem_append_right _ List.mem_cons_self
  obtain ⟨rooted, step, back, split⟩ := steps_of_mem_directoriesAbove absolute here member
  have straight : here.steps = directory.steps := by
    have inside := covers.inside
    rw [← same] at inside
    obtain ⟨place, there, -, steps⟩ := linkless.placeOf_parent found inside
    have level : .up ∉ here.steps := by
      intro up
      apply down
      rw [split]
      exact List.mem_append_left _ up
    rw [steps, linkless.spelled rooted level there]
  have order := directoriesAbove_pairwise absolute
  rw [above, List.pairwise_append] at order
  rintro (whole | ⟨other, inside, deeper, stops⟩)
  · rw [split, ← straight] at whole
    simp at whole
  · rw [← straight] at deeper
    rw [above] at inside
    rcases List.mem_append.1 inside with first | rest
    · obtain ⟨free, empty⟩ := passed other first
      rcases stops with hit | root
      · rw [empty] at hit
        contradiction
      · rw [free] at root
        contradiction
    · rcases List.mem_cons.1 rest with rfl | later
      · omega
      · have shallower := (List.pairwise_cons.1 order.2.1).1 other later
        omega

include discovered covers in
theorem ownConfig_of_linkless (linkless : files.Linkless) :
    files.OwnConfig directory entry.1 := by
  obtain ⟨base, path, found, key⟩ := discovered.located
  have inside := covers.inside
  rw [key] at inside ⊢
  obtain ⟨place, there, here, -⟩ := linkless.placeOf_parent found inside
  exact FileSystem.OwnConfig.congr (there.trans here.symm) ⟨path, found, rfl⟩

end Covered

theorem answer_empty_iff {entry : FilePath × Config} (discovered : Discovered files queries entry)
    (query : DocumentQuery) :
    Store.empty.answer files query = .ok (some entry.2) ↔
      ∃ path, findNearestConfig files (files.normal query.document) query.roots = some path ∧
        files.normal path = entry.1 := by
  obtain ⟨_, _, _, _, _, read⟩ := discovered
  rw [Store.answer_empty]
  constructor
  · intro fresh
    cases near : findNearestConfig files (files.normal query.document) query.roots with
    | none =>
      rw [near] at fresh
      exact nomatch Except.ok.inj fresh
    | some path =>
      rw [near] at fresh
      dsimp only at fresh
      refine ⟨path, rfl, ?_⟩
      cases again : readConfig files (files.normal path) with
      | error problem =>
        rw [again] at fresh
        contradiction
      | ok found =>
        rw [again] at fresh
        have same : found = entry.2 := Option.some.inj (Except.ok.inj fresh)
        have origin := (readConfig_built again).source
        rw [same, (readConfig_built read).source] at origin
        exact (Option.some.inj origin).symm
  · rintro ⟨path, near, same⟩
    rw [near]
    dsimp only
    rw [same, read]
    rfl

theorem Store.Covers.steps_eq {store : Store} {document directory above : FilePath}
    {entry other : FilePath × Config} (covers : store.Covers document entry directory)
    (covered : store.Covers document other above)
    (level : above.steps.length = directory.steps.length) : directory.steps = above.steps := by
  have front := List.isPrefixOf_iff_prefix.1 covers.below
  have start := List.isPrefixOf_iff_prefix.1 covered.below
  exact List.IsPrefix.eq_of_length (List.prefix_of_prefix_length_le front start level.ge) level.symm

/-- Of two entries in equally deep directories that a document lies in, only one can be the
configuration of its directory. -/
theorem covers_unique {store : Store} (distinct : store.Distinct)
    {document directory above : FilePath} {entry other : FilePath × Config}
    (covers : store.Covers document entry directory) (covered : store.Covers document other above)
    (own : files.OwnConfig directory entry.1) (also : files.OwnConfig above other.1)
    (level : above.steps.length = directory.steps.length) : other = entry := by
  have steps := covers.steps_eq covered level
  have keys : entry.1 = other.1 := own.unique (also.congr (FileSystem.placeOf_congr steps.symm))
  have named : other.1.same entry.1 = true := by
    rw [keys]
    exact Store.same_self _
  exact distinct.eq covered.member covers.member named (Store.same_self _)

/-- How a store answers after look-ups of documents. -/
inductive DocumentAnswer (files : FileSystem) (queries : List DocumentQuery)
    (query : DocumentQuery) : Prop where
  | fresh
    (uncovered : ∀ entry directory,
      ¬ (stockedStore files queries).Covers (files.normal query.document) entry directory)
    (same : (stockedStore files queries).answer files query = Store.empty.answer files query)
  /-- The answer is an entry of the deepest directory with one. A fresh store gave it to one of the
  earlier documents, and gives it to this one if the search finds the same file. The other clauses
  say when it does; they also tell that there is no other entry to choose from where none is linked
  from elsewhere. -/
  | cached {entry : FilePath × Config} {directory : FilePath}
    (deepest : (stockedStore files queries).Deepest (files.normal query.document) entry directory)
    (answered : (stockedStore files queries).answer files query = .ok (some entry.2))
    (earlier : ∃ former ∈ queries, Store.empty.answer files former = .ok (some entry.2))
    (again : Store.empty.answer files query = .ok (some entry.2) ↔
      ∃ path, findNearestConfig files (files.normal query.document) query.roots = some path ∧
        files.normal path = entry.1)
    (clear : files.OwnConfig directory entry.1 →
      ¬ Obstructed files (files.normal query.document) query.roots directory →
        Store.empty.answer files query = .ok (some entry.2))
    (alone : files.OwnConfig directory entry.1 → ∀ other above,
      (stockedStore files queries).Covers (files.normal query.document) other above →
        files.OwnConfig above other.1 →
          other = entry ∨ above.steps.length < directory.steps.length)
    (unlinked : files.Linkless → ∀ other above,
      (stockedStore files queries).Covers (files.normal query.document) other above →
        files.OwnConfig above other.1)
    (obstructed : files.Linkless → .up ∉ (files.normal query.document).steps →
      Obstructed files (files.normal query.document) query.roots directory →
        Store.empty.answer files query ≠ .ok (some entry.2))

/-- A store answers as a fresh one does, unless an entry covers the document and the search for the
document finds another file than that of the entry. -/
theorem document_answer (files : FileSystem) (queries : List DocumentQuery)
    (query : DocumentQuery) : DocumentAnswer files queries query := by
  have discovered : ∀ entry ∈ (stockedStore files queries).entries,
      Discovered files queries entry := stockedStore_discovered
  cases found :
      (stockedStore files queries).findCovering query.order (files.normal query.document) with
  | none =>
    exact .fresh (Store.findCovering_eq_none.1 found) (answer_of_uncovered discovered found)
  | some config =>
    obtain ⟨key, directory, deepest⟩ := Store.deepest_of_findCovering found
    have covers := deepest.toCovers
    have entry := discovered _ covers.member
    have again := answer_empty_iff entry query
    refine .cached deepest ?answered entry.answered again ?clear ?alone ?unlinked ?obstructed
    case answered =>
      rw [Store.answer, Store.forDocument, found]
      rfl
    case clear => exact fun own clear => again.2 (findNearestConfig_of_open entry covers own clear)
    case alone =>
      intro own other above covered also
      rcases (deepest.deepest other above covered).lt_or_eq with less | level
      · exact Or.inr less
      · exact Or.inl (covers_unique stockedStore_distinct covers covered own also level)
    case unlinked =>
      exact fun linkless other above covered =>
        ownConfig_of_linkless (discovered other covered.member) covered linkless
    case obstructed =>
      intro linkless down stops fresh
      obtain ⟨path, near, same⟩ := again.1 fresh
      have absolute := (covers_steps entry covers).2.1
      exact open_of_findNearestConfig covers linkless absolute down near same stops

def nestedFiles : FileSystem :=
  ((FileSystem.vacant []).write ⟨"/snow.config.json"⟩
    "\x7b\"tokens\":\x7b\"a\":\"1px\"\x7d\x7d".toUTF8).write ⟨"/pkg/snow.config.json"⟩
      "\x7b\"tokens\":\x7b\"a\":\"2px\"\x7d\x7d".toUTF8

def sourceOf? (answer : Except LoadError (Option Config)) : Option FilePath :=
  answer.toOption.bind fun config => config.bind Config.source

/-- A document at the root was looked up, now one next to it. -/
theorem neighbour_answer :
    DocumentAnswer nestedFiles [⟨⟨"/x.css"⟩, [], .loaded⟩] ⟨⟨"/y.css"⟩, [], .loaded⟩ ∧
      sourceOf? ((stockedStore nestedFiles [⟨⟨"/x.css"⟩, [], .loaded⟩]).answer nestedFiles
        ⟨⟨"/y.css"⟩, [], .loaded⟩) = some ⟨"/snow.config.json"⟩ :=
  ⟨document_answer nestedFiles _ _, by decide +kernel⟩

/-- A document at the root was looked up; a document below gets the same configuration, although it
has a nearer one. -/
theorem nearer_config_shadowed :
    (stockedStore nestedFiles [⟨⟨"/x.css"⟩, [], .loaded⟩]).answer nestedFiles
        ⟨⟨"/pkg/y.css"⟩, [], .loaded⟩ ≠
      Store.empty.answer nestedFiles ⟨⟨"/pkg/y.css"⟩, [], .loaded⟩ := by
  have cached : sourceOf? ((stockedStore nestedFiles [⟨⟨"/x.css"⟩, [], .loaded⟩]).answer nestedFiles
      ⟨⟨"/pkg/y.css"⟩, [], .loaded⟩) = some ⟨"/snow.config.json"⟩ := by decide +kernel
  have fresh : sourceOf? (Store.empty.answer nestedFiles ⟨⟨"/pkg/y.css"⟩, [], .loaded⟩) =
      some ⟨"/pkg/snow.config.json"⟩ := by decide +kernel
  intro same
  rw [same, fresh] at cached
  exact absurd cached (by decide)

/-- A directory whose configuration is a link to a file of another directory. -/
def linkedFiles : FileSystem :=
  ((FileSystem.vacant []).write ⟨"/shared/base.json"⟩ "\x7b\"tokens\":\x7b\x7d\x7d".toUTF8).makeLink
    ⟨"/app/snow.config.json"⟩ ⟨"../shared/base.json"⟩

/-- The linked file is kept in its own directory, where a search does not find it. -/
example :
    sourceOf? ((stockedStore linkedFiles [⟨⟨"/app/x.css"⟩, [], .loaded⟩]).answer linkedFiles
        ⟨⟨"/shared/y.css"⟩, [], .loaded⟩) = some ⟨"/shared/base.json"⟩ ∧
      sourceOf? (Store.empty.answer linkedFiles ⟨⟨"/shared/y.css"⟩, [], .loaded⟩) = none := by
  decide +kernel

end DesignTokens
