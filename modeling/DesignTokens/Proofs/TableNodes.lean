import DesignTokens.TokenTable

/-!
The nodes of a token table, each under the keys that lead to it. A table in which no key stands
twice is known by what it gives for each key, and inserting and merging keep its keys apart.
-/

namespace DesignTokens

/-- A node that a table holds under a path of keys, which is never empty. -/
inductive TokenTable.Holds : TokenTable → List String → TokenNode → Prop where
  | here {table : TokenTable} {key : String} {node : TokenNode}
      (entry : (key, node) ∈ table.toList) : table.Holds [key] node
  | inside {table inner : TokenTable} {key : String} {keys : List String} {node : TokenNode}
      (entry : (key, .table inner) ∈ table.toList) (deeper : inner.Holds keys node) :
      table.Holds (key :: keys) node

mutual

/-- No key stands twice in a table, nor in a table inside it, as in every table that is filled by
inserting. -/
def TokenNode.Distinct : TokenNode → Prop
  | .text _ => True
  | .number _ => True
  | .table entries => entries.Distinct

def TokenTable.Distinct : TokenTable → Prop
  | .empty => True
  | .entry key node rest => rest.get? key = none ∧ node.Distinct ∧ rest.Distinct

end

namespace TokenTable

theorem distinct_empty : empty.Distinct :=
  trivial

theorem mem_of_get? {table : TokenTable} {key : String} {node : TokenNode}
    (found : table.get? key = some node) : (key, node) ∈ table.toList := by
  match table with
  | .empty => contradiction
  | .entry other old rest =>
    rw [get?] at found
    rw [toList]
    split at found
    · rename_i same
      rw [same, Option.some.inj found]
      exact List.mem_cons_self
    · exact List.mem_cons_of_mem _ (mem_of_get? found)

theorem get?_of_mem {table : TokenTable} (distinct : table.Distinct) {key : String}
    {node : TokenNode} (entry : (key, node) ∈ table.toList) : table.get? key = some node := by
  match table with
  | .empty => contradiction
  | .entry other old rest =>
    obtain ⟨alone, _, others⟩ := distinct
    rw [toList] at entry
    rw [get?]
    rcases List.mem_cons.1 entry with same | later
    · obtain ⟨rfl, rfl⟩ := Prod.mk.inj same
      rw [if_pos rfl]
    · have found := get?_of_mem others later
      have different : other ≠ key := by
        rintro rfl
        rw [alone] at found
        contradiction
      rw [if_neg different, found]

theorem mem_toList {table : TokenTable} (distinct : table.Distinct) {key : String}
    {node : TokenNode} : (key, node) ∈ table.toList ↔ table.get? key = some node :=
  ⟨get?_of_mem distinct, mem_of_get?⟩

theorem Distinct.node {table : TokenTable} (distinct : table.Distinct) {key : String}
    {node : TokenNode} (found : table.get? key = some node) : node.Distinct := by
  match table with
  | .empty => contradiction
  | .entry other old rest =>
    obtain ⟨_, first, others⟩ := distinct
    rw [get?] at found
    split at found
    · exact Option.some.inj found ▸ first
    · exact Distinct.node others found

theorem holds_singleton {table : TokenTable} (distinct : table.Distinct) {key : String}
    {node : TokenNode} : table.Holds [key] node ↔ table.get? key = some node := by
  rw [← mem_toList distinct]
  refine ⟨fun holds => ?_, .here⟩
  cases holds with
  | here entry => exact entry
  | inside entry deeper => nomatch deeper

theorem holds_cons {table : TokenTable} (distinct : table.Distinct) {key next : String}
    {keys : List String} {node : TokenNode} : table.Holds (key :: next :: keys) node ↔
      ∃ inner, table.get? key = some (.table inner) ∧ inner.Holds (next :: keys) node := by
  constructor
  · intro holds
    cases holds with
    | inside entry deeper => exact ⟨_, get?_of_mem distinct entry, deeper⟩
  · rintro ⟨inner, found, deeper⟩
    exact .inside (mem_of_get? found) deeper

theorem distinct_insert {table : TokenTable} (distinct : table.Distinct) (key : String)
    {node : TokenNode} (inside : node.Distinct) : (table.insert key node).Distinct := by
  match table with
  | .empty => exact ⟨rfl, inside, distinct_empty⟩
  | .entry other old rest =>
    obtain ⟨alone, first, others⟩ := distinct
    rw [insert]
    split
    · rename_i same
      exact ⟨same ▸ alone, inside, others⟩
    · rename_i different
      refine ⟨?_, first, distinct_insert others key inside⟩
      rw [get?_insert_of_ne rest node (Ne.symm different), alone]

end TokenTable

def TokenNode.mergedOver (base : Option TokenNode) : TokenNode → TokenNode
  | .table incoming =>
    match base with
    | some (.table existing) => .table (existing.merge incoming)
    | _ => .table incoming
  | leaf => leaf

theorem TokenNode.mergeInto_eq (base : TokenTable) (key : String) (node : TokenNode) :
    node.mergeInto base key = base.insert key (node.mergedOver (base.get? key)) := by
  cases node with
  | table incoming =>
    rw [mergeInto]
    unfold mergedOver
    cases base.get? key with
    | none => rfl
    | some old => cases old <;> rfl
  | _ => rfl

theorem TokenNode.mergedOver_table (base : Option TokenNode) (incoming : TokenTable) :
    ∃ inner, (TokenNode.table incoming).mergedOver base = .table inner := by
  cases base with
  | none => exact ⟨incoming, rfl⟩
  | some old => cases old <;> exact ⟨_, rfl⟩

theorem TokenNode.mergedOver_eq_leaf (base : Option TokenNode) (node : TokenNode) {leaf : TokenNode}
    (isLeaf : leaf.isTable = false) : node.mergedOver base = leaf ↔ node = leaf := by
  cases node with
  | table incoming =>
    obtain ⟨inner, merged⟩ := mergedOver_table base incoming
    have different (table : TokenTable) : TokenNode.table table ≠ leaf := by
      rintro rfl
      contradiction
    rw [merged]
    exact iff_of_false (different inner) (different incoming)
  | _ => rfl

namespace TokenTable

theorem get?_mergeInto_self (base : TokenTable) (key : String) (node : TokenNode) :
    (node.mergeInto base key).get? key = some (node.mergedOver (base.get? key)) := by
  rw [TokenNode.mergeInto_eq, get?_insert_self]

theorem get?_mergeInto_of_ne (base : TokenTable) {key sought : String} (node : TokenNode)
    (different : key ≠ sought) : (node.mergeInto base key).get? sought = base.get? sought := by
  rw [TokenNode.mergeInto_eq, get?_insert_of_ne base _ different]

/-- Under each key the merged table holds what the second table makes of the first one's node. -/
theorem get?_merge (base : TokenTable) {table : TokenTable} (distinct : table.Distinct)
    (sought : String) : (base.merge table).get? sought =
      match table.get? sought with
      | some node => some (node.mergedOver (base.get? sought))
      | none => base.get? sought := by
  match table with
  | .empty => rw [merge, get?]
  | .entry key node rest =>
    obtain ⟨alone, _, others⟩ := distinct
    rw [merge, get?_merge (node.mergeInto base key) others, get?]
    by_cases same : key = sought
    · subst same
      rw [alone, if_pos rfl]
      exact get?_mergeInto_self base key node
    · rw [if_neg same, get?_mergeInto_of_ne base node same]

end TokenTable

mutual

theorem TokenNode.distinct_mergeInto {base : TokenTable} (distinct : base.Distinct) (key : String)
    (node : TokenNode) (inside : node.Distinct) : (node.mergeInto base key).Distinct := by
  match node with
  | .text _ => exact TokenTable.distinct_insert distinct key inside
  | .number _ => exact TokenTable.distinct_insert distinct key inside
  | .table incoming =>
    rw [TokenNode.mergeInto]
    split
    · rename_i existing found
      have merged : (existing.merge incoming).Distinct :=
        TokenTable.distinct_merge (distinct.node found) incoming inside
      exact TokenTable.distinct_insert distinct key merged
    · exact TokenTable.distinct_insert distinct key inside

theorem TokenTable.distinct_merge {base : TokenTable} (distinct : base.Distinct)
    (table : TokenTable) (inside : table.Distinct) : (base.merge table).Distinct := by
  match table with
  | .empty => exact distinct
  | .entry key node rest =>
    obtain ⟨_, first, others⟩ := inside
    have merged := TokenNode.distinct_mergeInto distinct key node first
    exact TokenTable.distinct_merge merged rest others

end

end DesignTokens
