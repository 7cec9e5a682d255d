import DesignTokens.Proofs.TableNodes
import DesignTokens.Proofs.TokenIndex

/-!
What the index of a configuration holds. A walk through the table that keeps one stack of keys
leaves the stack as it found it and fills the index with the leaves in the order in which they
are listed. So every dot path of a leaf is there once, at the place of the first leaf that has
it, with the token of the last one.
-/

namespace DesignTokens

def TokenTable.subtables (table : TokenTable) : List (String × TokenTable) :=
  table.toList.filterMap fun (key, node) =>
    match node with
    | .table inner => some (key, inner)
    | _ => none

def TokenTable.leavesUnder (above : List String) (table : TokenTable) : List TokenLeaf :=
  table.directLeaves above ++ table.nestedLeaves above

theorem TokenTable.mem_subtables {table inner : TokenTable} {key : String} :
    (key, inner) ∈ table.subtables ↔ (key, .table inner) ∈ table.toList := by
  rw [subtables, List.mem_filterMap]
  constructor
  · rintro ⟨⟨other, node⟩, member, same⟩
    cases node with
    | table entries =>
      obtain ⟨rfl, rfl⟩ := Prod.mk.inj (Option.some.inj same)
      exact member
    | _ => contradiction
  · exact fun member => ⟨(key, .table inner), member, rfl⟩

theorem TokenTable.nestedLeaves_eq (above : List String) (table : TokenTable) :
    table.nestedLeaves above =
      table.subtables.flatMap fun entry => entry.2.leavesUnder (above ++ [entry.1]) := by
  cases table with
  | empty => rfl
  | entry key node rest =>
    rw [nestedLeaves, nestedLeaves_eq above rest]
    cases node with
    | table inner => rfl
    | _ => rfl

/-- The leaves of a table itself come first, in the order of declaration, and then those of each
table in it. -/
theorem TokenTable.leavesUnder_eq (above : List String) (table : TokenTable) :
    table.leavesUnder above = table.directLeaves above ++
      table.subtables.flatMap fun entry => entry.2.leavesUnder (above ++ [entry.1]) := by
  rw [leavesUnder, nestedLeaves_eq]

theorem TokenTable.mem_directLeaves {above : List String} {table : TokenTable} {leaf : TokenLeaf} :
    leaf ∈ table.directLeaves above ↔ ∃ key node, (key, node) ∈ table.toList ∧
      node.leafText = some leaf.text ∧ leaf.keys = above ++ [key] := by
  rw [directLeaves, List.mem_filterMap]
  constructor
  · rintro ⟨⟨key, node⟩, member, read⟩
    obtain ⟨text, found, rfl⟩ := Option.map_eq_some_iff.1 read
    exact ⟨key, node, member, found, rfl⟩
  · rintro ⟨key, node, member, found, place⟩
    obtain ⟨keys, text⟩ := leaf
    subst place
    exact ⟨(key, node), member, Option.map_eq_some_iff.2 ⟨text, found, rfl⟩⟩

theorem TokenTable.sizeOf_subtable {table inner : TokenTable} {key : String}
    (member : (key, inner) ∈ table.subtables) : sizeOf inner < sizeOf table := by
  rw [mem_subtables] at member
  match table with
  | .empty => contradiction
  | .entry other node rest =>
    rw [entry.sizeOf_spec]
    rcases List.mem_cons.1 member with same | later
    · obtain ⟨rfl, rfl⟩ := Prod.mk.inj same
      rw [TokenNode.table.sizeOf_spec]
      omega
    · have smaller := sizeOf_subtable (mem_subtables.2 later)
      omega

/-- The leaves of a table are the leaves that it holds at any depth. -/
theorem TokenTable.mem_leavesUnder {above : List String} {table : TokenTable} {leaf : TokenLeaf} :
    leaf ∈ table.leavesUnder above ↔ ∃ keys node, table.Holds keys node ∧
      node.leafText = some leaf.text ∧ leaf.keys = above ++ keys := by
  rw [leavesUnder_eq, List.mem_append, mem_directLeaves, List.mem_flatMap]
  constructor
  · rintro (⟨key, node, entry, found, place⟩ | ⟨⟨key, inner⟩, member, deeper⟩)
    · exact ⟨[key], node, .here entry, found, place⟩
    · have smaller := sizeOf_subtable member
      obtain ⟨keys, node, holds, found, place⟩ := mem_leavesUnder.1 deeper
      refine ⟨key :: keys, node, .inside (mem_subtables.1 member) holds, found, ?_⟩
      rw [place, List.append_assoc, List.singleton_append]
  · rintro ⟨keys, node, holds, found, place⟩
    cases holds with
    | here entry => exact Or.inl ⟨_, node, entry, found, place⟩
    | @inside _ inner key keys _ entry deeper =>
      have member := mem_subtables.2 entry
      have smaller := sizeOf_subtable member
      refine Or.inr ⟨(key, inner), member, mem_leavesUnder.2 ⟨keys, node, deeper, found, ?_⟩⟩
      rw [place, List.append_assoc, List.singleton_append]
termination_by sizeOf table

theorem TokenTable.mem_leaves {table : TokenTable} {leaf : TokenLeaf} :
    leaf ∈ table.leaves ↔ ∃ node, table.Holds leaf.keys node ∧ node.leafText = some leaf.text := by
  change leaf ∈ table.leavesUnder [] ↔ _
  rw [mem_leavesUnder]
  constructor
  · rintro ⟨keys, node, holds, found, rfl⟩
    exact ⟨node, holds, found⟩
  · rintro ⟨node, holds, found⟩
    exact ⟨leaf.keys, node, holds, found, rfl⟩

/-! The walk through a table. -/

/-- The keys above the place where a walk stands, and the index filled so far. -/
structure Walk where
  stack : List String
  index : Register Token

namespace Walk

def push (walk : Walk) (key : String) : Walk :=
  { walk with stack := walk.stack ++ [key] }

def pop (walk : Walk) : Walk :=
  { walk with stack := walk.stack.dropLast }

def store (namePrefix : Option String) (text : String) (walk : Walk) : Walk :=
  let path : TokenPath := ⟨walk.stack⟩
  let token : Token := ⟨namePrefix.elim path path.underPrefix, text⟩
  { walk with index := walk.index.put path.dotPath token }

def leaf (namePrefix : Option String) (walk : Walk) (entry : String × TokenNode) : Walk :=
  match entry.2.leafText with
  | some text => ((walk.push entry.1).store namePrefix text).pop
  | none => walk

end Walk

mutual

def TokenNode.walk (namePrefix : Option String) (walk : Walk) (key : String) : TokenNode → Walk
  | .table inner =>
    (TokenTable.walkNested namePrefix
      (inner.toList.foldl (Walk.leaf namePrefix) (walk.push key)) inner).pop
  | _ => walk

def TokenTable.walkNested (namePrefix : Option String) (walk : Walk) : TokenTable → Walk
  | .empty => walk
  | .entry key node rest => TokenTable.walkNested namePrefix (node.walk namePrefix walk key) rest

end

/-- Indexes the leaves of a table itself, and after them goes through the tables in it. -/
def TokenTable.walk (namePrefix : Option String) (walk : Walk) (table : TokenTable) : Walk :=
  table.walkNested namePrefix (table.toList.foldl (Walk.leaf namePrefix) walk)

def leafUnder (above : List String) (entry : String × TokenNode) : Option TokenLeaf :=
  entry.2.leafText.map fun text => ⟨above ++ [entry.1], text⟩

def Walk.after (namePrefix : Option String) (walk : Walk) (leaves : List TokenLeaf) : Walk :=
  { walk with
    index := walk.index.putAll TokenLeaf.dotPath (TokenLeaf.token namePrefix) leaves }

namespace Walk

variable (namePrefix : Option String) (walk : Walk)

theorem after_append (first second : List TokenLeaf) :
    walk.after namePrefix (first ++ second) =
      (walk.after namePrefix first).after namePrefix second := by
  rw [after, Register.putAll_append]
  rfl

theorem pop_after_push (key : String) (leaves : List TokenLeaf) :
    ((walk.push key).after namePrefix leaves).pop = walk.after namePrefix leaves := by
  simp [pop, push, after]

theorem leaf_eq (entry : String × TokenNode) : walk.leaf namePrefix entry =
    walk.after namePrefix (leafUnder walk.stack entry).toList := by
  unfold leaf leafUnder
  cases entry.2.leafText with
  | none => rfl
  | some text =>
    have path : (namePrefix.elim ⟨walk.stack ++ [entry.1]⟩
        (TokenPath.underPrefix ⟨walk.stack ++ [entry.1]⟩) : TokenPath) =
          ⟨namePrefix.toList ++ (walk.stack ++ [entry.1])⟩ := by
      cases namePrefix <;> rfl
    simp only [pop, store, push, path, List.dropLast_concat]
    rfl

theorem entries_eq (entries : List (String × TokenNode)) : entries.foldl (leaf namePrefix) walk =
    walk.after namePrefix (entries.filterMap (leafUnder walk.stack)) := by
  induction entries generalizing walk with
  | nil => rfl
  | cons entry rest ih =>
    rw [List.foldl_cons, leaf_eq, ih, ← after_append, List.filterMap_cons]
    cases found : leafUnder walk.stack entry <;> rfl

theorem directLeaves_eq (table : TokenTable) : table.toList.foldl (leaf namePrefix) walk =
    walk.after namePrefix (table.directLeaves walk.stack) :=
  entries_eq namePrefix walk table.toList

end Walk

mutual

theorem TokenNode.walk_eq (namePrefix : Option String) (walk : Walk) (key : String)
    (node : TokenNode) : node.walk namePrefix walk key =
      walk.after namePrefix (node.nestedLeaves (walk.stack ++ [key])) := by
  match node with
  | .text _ => rfl
  | .number _ => rfl
  | .table inner =>
    rw [TokenNode.walk, Walk.directLeaves_eq, TokenTable.walkNested_eq _ _ inner,
      TokenNode.nestedLeaves]
    -- Below the key the stack has the key on it, whatever was put into the index there.
    change (((walk.push key).after namePrefix _).after namePrefix
      (inner.nestedLeaves (walk.stack ++ [key]))).pop = _
    rw [← Walk.after_append, Walk.pop_after_push]
    rfl

theorem TokenTable.walkNested_eq (namePrefix : Option String) (walk : Walk) (table : TokenTable) :
    table.walkNested namePrefix walk =
      walk.after namePrefix (table.nestedLeaves walk.stack) := by
  match table with
  | .empty => rfl
  | .entry key node rest =>
    rw [TokenTable.walkNested, TokenNode.walk_eq _ _ _ node, TokenTable.walkNested_eq _ _ rest,
      TokenTable.nestedLeaves, Walk.after_append]
    rfl

end

/-- A walk through a table comes across its leaves in their order and leaves the stack as it was. -/
theorem TokenTable.walk_eq (namePrefix : Option String) (walk : Walk) (table : TokenTable) :
    table.walk namePrefix walk = walk.after namePrefix (table.leavesUnder walk.stack) := by
  rw [TokenTable.walk, Walk.directLeaves_eq, walkNested_eq, leavesUnder, Walk.after_append]
  rfl

/-- What the index of accepted settings holds. -/
structure LeavesIndexed (settings : Settings) (config : Config) : Prop where
  walked : settings.tokens.walk (Config.trimmedPrefix settings) ⟨[], .empty⟩ = ⟨[], config.index⟩
  listed : ∀ leaf, leaf ∈ settings.tokens.leaves ↔
    ∃ node, settings.tokens.Holds leaf.keys node ∧ node.leafText = some leaf.text
  names : config.index.names = (settings.tokens.leaves.map TokenLeaf.dotPath).eraseDups
  held : ∀ name token, config.index.get? name = some token ↔
    ∃ before leaf after, settings.tokens.leaves = before ++ leaf :: after ∧ (leaf.dotPath = name ∧
      token = ⟨⟨(Config.trimmedPrefix settings).toList ++ leaf.keys⟩, leaf.text⟩) ∧
      ∀ later ∈ after, later.dotPath ≠ name
  kept : ∀ before leaf after, settings.tokens.leaves = before ++ leaf :: after →
    config.index.get? leaf.dotPath = some (leaf.token (Config.trimmedPrefix settings)) ∨
      ∃ later ∈ after, later.dotPath = leaf.dotPath
  size : config.index.size = (settings.tokens.leaves.map TokenLeaf.dotPath).toFinset.card

/-- A nested table and a key with a dot that have a dot path in common, under a prefix with
spaces. -/
def overlapping : Settings :=
  { Settings.ofTokens (.entry "a" (.table (.entry "b" (.text "1px") .empty))
      (.entry "a.b" (.text "2px") (.entry "c" (.text "3px") .empty))) with
    namePrefix := some " app " }

theorem ofSettings_overlapping : Config.ofSettings overlapping =
    .ok ⟨overlapping, some "app", none, indexLeaves (some "app") overlapping.tokens.leaves⟩ := by
  have short : Config.trimmedPrefix overlapping = some "app" := by decide +kernel
  rw [← short]
  exact Config.ofSettings_checked (by decide +kernel) (by decide +kernel)

example : (indexLeaves (some "app") overlapping.tokens.leaves).entries =
    [("a.b", ⟨⟨["app", "a", "b"]⟩, "1px"⟩), ("c", ⟨⟨["app", "c"]⟩, "3px"⟩)] := by
  decide +kernel

end DesignTokens
