import DesignTokens.Proofs.Registers
import DesignTokens.Proofs.TableNodes

/-!
What merged tables hold. A leaf of a table survives all tables after it that are silent on its keys:
they have no leaf on the way to it, nor anything in its place. So the last table that speaks about
the keys wins, at every depth.
-/

namespace DesignTokens.TokenTable

/-- A table that has no leaf at the keys or on the way there, and no table at the keys. -/
def SilentOn (table : TokenTable) (keys : List String) : Prop :=
  (∀ front, front <+: keys → ∀ node, table.Holds front node → node.isTable = true) ∧
    ∀ inner, ¬ table.Holds keys (.table inner)

theorem silentOn_of_unknown {table : TokenTable} {key : String} (unknown : table.get? key = none)
    (keys : List String) (distinct : table.Distinct) : table.SilentOn (key :: keys) := by
  have nothing {front : List String} (near : front <+: key :: keys) (node : TokenNode) :
      ¬ table.Holds front node := by
    intro holds
    cases holds with
    | here entry =>
      obtain ⟨rfl, -⟩ := List.cons_prefix_cons.1 near
      rw [mem_toList distinct, unknown] at entry
      contradiction
    | inside entry deeper =>
      obtain ⟨rfl, -⟩ := List.cons_prefix_cons.1 near
      rw [mem_toList distinct, unknown] at entry
      contradiction
  exact ⟨fun front near node holds => absurd holds (nothing near node),
    fun inner => nothing (List.prefix_refl _) _⟩

theorem silentOn_singleton {table : TokenTable} (distinct : table.Distinct) {key : String} :
    table.SilentOn [key] ↔ table.get? key = none := by
  refine ⟨fun silent => ?_, fun unknown => silentOn_of_unknown unknown [] distinct⟩
  cases found : table.get? key with
  | none => rfl
  | some node =>
    have holds := (holds_singleton distinct).2 found
    have isTable := silent.1 [key] (List.prefix_refl _) node holds
    cases node with
    | table inner => exact absurd holds (silent.2 inner)
    | _ => contradiction

/-- Below a nested table only that table has a say. -/
theorem silentOn_table {table inner : TokenTable} (distinct : table.Distinct) {key next : String}
    {keys : List String} (found : table.get? key = some (.table inner)) :
    table.SilentOn (key :: next :: keys) ↔ inner.SilentOn (next :: keys) := by
  have deeper {path : List String} (filled : path ≠ []) (node : TokenNode) :
      table.Holds (key :: path) node ↔ inner.Holds path node := by
    obtain ⟨first, rest, rfl⟩ := List.exists_cons_of_ne_nil filled
    rw [holds_cons distinct, found]
    refine ⟨fun ⟨_, same, holds⟩ => ?_, fun holds => ⟨inner, rfl, holds⟩⟩
    cases same
    exact holds
  constructor
  · rintro ⟨leafless, tableless⟩
    refine ⟨fun front near node holds => ?_, fun deep holds => ?_⟩
    · have filled : front ≠ [] := by
        rintro rfl
        nomatch holds
      exact leafless (key :: front) (List.cons_prefix_cons.2 ⟨rfl, near⟩) node
        ((deeper filled node).2 holds)
    · exact tableless deep ((deeper (List.cons_ne_nil _ _) _).2 holds)
  · rintro ⟨leafless, tableless⟩
    refine ⟨fun front near node holds => ?_, fun deep holds => ?_⟩
    · cases front with
      | nil => nomatch holds
      | cons head rest =>
        obtain ⟨rfl, further⟩ := List.cons_prefix_cons.1 near
        cases rest with
        | nil =>
          rw [holds_singleton distinct, found] at holds
          exact Option.some.inj holds ▸ rfl
        | cons second others =>
          exact leafless _ further node ((deeper (List.cons_ne_nil _ _) node).1 holds)
    · exact tableless deep ((deeper (List.cons_ne_nil _ _) _).1 holds)

theorem not_silentOn_of_leaf {table : TokenTable} {key : String} {leaf : TokenNode}
    (distinct : table.Distinct) (found : table.get? key = some leaf) (isLeaf : leaf.isTable = false)
    (keys : List String) : ¬ table.SilentOn (key :: keys) := by
  intro silent
  have near : [key] <+: key :: keys := List.cons_prefix_cons.2 ⟨rfl, List.nil_prefix⟩
  have isTable := silent.1 [key] near leaf ((holds_singleton distinct).2 found)
  rw [isLeaf] at isTable
  contradiction

/-- A merged table has the leaves of the second table, and those of the first one on which the
second is silent. -/
theorem holds_merge {base table : TokenTable} (first : base.Distinct) (second : table.Distinct)
    {keys : List String} {leaf : TokenNode} (isLeaf : leaf.isTable = false) :
    (base.merge table).Holds keys leaf ↔
      table.Holds keys leaf ∨ (base.Holds keys leaf ∧ table.SilentOn keys) := by
  induction keys generalizing base table with
  | nil => exact ⟨nofun, fun either => either.elim nofun fun held => nomatch held.1⟩
  | cons key rest ih =>
    have both := distinct_merge first table second
    have merged := get?_merge base second key
    cases rest with
    | nil =>
      rw [holds_singleton both, holds_singleton first, holds_singleton second,
        silentOn_singleton second, merged]
      cases table.get? key with
      | none => simp
      | some node =>
        have same := node.mergedOver_eq_leaf (base.get? key) isLeaf
        simp [same]
    | cons next others =>
      rw [holds_cons both, holds_cons first, holds_cons second, merged]
      cases found : table.get? key with
      | none => simp [silentOn_of_unknown found (next :: others) second]
      | some node =>
        cases node with
        | table incoming =>
          rw [silentOn_table second found]
          cases old : base.get? key with
          | none => simp [TokenNode.mergedOver]
          | some earlier =>
            cases earlier with
            | table existing =>
              have deeper := ih (first.node old) (second.node found)
              simp [TokenNode.mergedOver, deeper]
            | _ => simp [TokenNode.mergedOver]
        | _ => simp [TokenNode.mergedOver, not_silentOn_of_leaf second found rfl]

theorem mergeAll_concat (tables : List TokenTable) (table : TokenTable) :
    mergeAll (tables ++ [table]) = (mergeAll tables).merge table := by
  rw [mergeAll, List.foldl_append]
  rfl

theorem distinct_mergeAll {tables : List TokenTable}
    (distinct : ∀ table ∈ tables, table.Distinct) : (mergeAll tables).Distinct := by
  induction tables using List.reverseRecOn with
  | nil => exact distinct_empty
  | append_singleton tables table ih =>
    obtain ⟨earlier, last⟩ := List.forall_mem_append.1 distinct
    rw [mergeAll_concat]
    exact distinct_merge (ih earlier) table (last table List.mem_cons_self)

/-- After all tables are merged a leaf is held exactly if it is in one of them and all later ones
are silent on its keys. -/
theorem mergeAll_holds_leaf {tables : List TokenTable}
    (distinct : ∀ table ∈ tables, table.Distinct) {keys : List String} {leaf : TokenNode}
    (isLeaf : leaf.isTable = false) : (mergeAll tables).Holds keys leaf ↔
      ∃ before table after, tables = before ++ table :: after ∧ table.Holds keys leaf ∧
        ∀ later ∈ after, later.SilentOn keys := by
  induction tables using List.reverseRecOn with
  | nil =>
    refine ⟨fun holds => ?_, fun ⟨before, table, after, split, _⟩ => by simp at split⟩
    cases holds with
    | here entry => contradiction
    | inside entry deeper => contradiction
  | append_singleton tables last ih =>
    obtain ⟨earlier, single⟩ := List.forall_mem_append.1 distinct
    have own := single last List.mem_cons_self
    rw [mergeAll_concat, holds_merge (distinct_mergeAll earlier) own isLeaf, ih earlier,
      exists_split_concat]

/-- A nested table, a leaf in its place, the table again with one of its leaves, and a table
inside it in place of another one. -/
def layers : List TokenTable :=
  [.entry "a" (.table (.entry "b" (.text "1px") (.entry "c" (.text "2px") .empty))) .empty,
    .entry "a" (.text "3px") .empty,
    .entry "a" (.table (.entry "c" (.text "2px") .empty)) .empty,
    .entry "e" (.text "4px") (.entry "a"
      (.table (.entry "b" (.table (.entry "d" (.text "5px") .empty)) .empty)) .empty)]

theorem distinct_layers : ∀ table ∈ layers, table.Distinct := by
  simp [layers, Distinct, TokenNode.Distinct, get?]

theorem revived_leaf_held :
    ((∀ table ∈ layers, table.Distinct) ∧ (TokenNode.text "2px").isTable = false) ∧
      (mergeAll layers).Holds ["a", "c"] (.text "2px") := by
  refine ⟨⟨distinct_layers, rfl⟩, (mergeAll_holds_leaf distinct_layers rfl).2
    ⟨layers.take 2, _, layers.drop 3, rfl, .inside List.mem_cons_self (.here List.mem_cons_self),
      fun later member => ?_⟩⟩
  have distinct := distinct_layers later (List.mem_of_mem_drop member)
  rw [List.mem_singleton.1 member] at distinct ⊢
  rw [silentOn_table distinct rfl]
  exact silentOn_of_unknown rfl [] distinct.2.2.2.1

end DesignTokens.TokenTable
