import DesignTokens.Register
import Mathlib.Data.Finset.Card
import Mathlib.Data.List.Induction
import Mathlib.Data.List.Nodup

/-!
Registers that are filled one value after the other. The names stand in the order in which they
first came, none stands twice, and nothing is in a register that was not put there.
-/

namespace DesignTokens

theorem exists_split_concat {α : Type} {list : List α} {last : α} {p q : α → Prop} :
    (∃ before item after, list ++ [last] = before ++ item :: after ∧ p item ∧
        ∀ later ∈ after, q later) ↔
      p last ∨ (∃ before item after, list = before ++ item :: after ∧ p item ∧
        ∀ later ∈ after, q later) ∧ q last := by
  constructor
  · rintro ⟨before, item, after, split, found, others⟩
    rcases List.eq_nil_or_concat after with rfl | ⟨front, final, rfl⟩
    · obtain ⟨-, ends⟩ := List.append_inj' split rfl
      exact Or.inl (List.singleton_inj.1 ends ▸ found)
    · have parts : list ++ [last] = (before ++ item :: front) ++ [final] := by simpa using split
      obtain ⟨rfl, ends⟩ := List.append_inj' parts rfl
      rw [List.concat_eq_append, List.forall_mem_append, List.forall_mem_singleton] at others
      refine Or.inr ⟨⟨before, item, front, rfl, found, others.1⟩, ?_⟩
      exact List.singleton_inj.1 ends ▸ others.2
  · rintro (found | ⟨⟨before, item, after, rfl, found, others⟩, ends⟩)
    · exact ⟨list, last, [], rfl, found, by simp⟩
    · refine ⟨before, item, after ++ [last], by simp, found, ?_⟩
      exact List.forall_mem_append.2 ⟨others, List.forall_mem_singleton.2 ends⟩

namespace Register

variable {α β : Type}

theorem mem_of_get? {register : Register α} {name : String} {value : α}
    (found : register.get? name = some value) : (name, value) ∈ register.entries := by
  obtain ⟨entries⟩ := register
  induction entries with
  | nil => contradiction
  | cons entry rest ih =>
    obtain ⟨other, old⟩ := entry
    simp only [get?, findEntry] at found ih
    split at found
    · rename_i same
      rw [same, Option.some.inj found]
      exact List.mem_cons_self
    · exact List.mem_cons_of_mem _ (ih found)

theorem get?_of_mem {register : Register α} (distinct : register.names.Nodup) {name : String}
    {value : α} (member : (name, value) ∈ register.entries) :
    register.get? name = some value := by
  obtain ⟨entries⟩ := register
  induction entries with
  | nil => contradiction
  | cons entry rest ih =>
    obtain ⟨other, old⟩ := entry
    obtain ⟨alone, others⟩ := List.nodup_cons.1 distinct
    simp only [get?, findEntry] at ih ⊢
    rcases List.mem_cons.1 member with same | later
    · obtain ⟨rfl, rfl⟩ := Prod.mk.inj same
      rw [if_pos rfl]
    · have different : other ≠ name := by
        rintro rfl
        exact alone (List.mem_map.2 ⟨_, later, rfl⟩)
      rw [if_neg different, ih others later]

theorem mem_put {register : Register α} {name : String} {value : α} {entry : String × α}
    (member : entry ∈ (register.put name value).entries) :
    entry = (name, value) ∨ entry ∈ register.entries := by
  obtain ⟨entries⟩ := register
  induction entries with
  | nil => exact Or.inl (List.mem_singleton.1 member)
  | cons first rest ih =>
    obtain ⟨other, old⟩ := first
    simp only [put, putEntry] at member ih
    split at member
    · exact (List.mem_cons.1 member).imp_right (List.mem_cons_of_mem _)
    · rcases List.mem_cons.1 member with rfl | found
      · exact Or.inr List.mem_cons_self
      · exact (ih found).imp_right (List.mem_cons_of_mem _)

section Distinct

variable [DecidableEq α]

theorem eraseDups_concat (names : List α) (name : α) :
    (names ++ [name]).eraseDups =
      if name ∈ names then names.eraseDups else names.eraseDups ++ [name] := by
  rw [List.eraseDups_append]
  split
  · rename_i member
    simp [List.removeAll, member]
  · rename_i absent
    simp [List.removeAll, absent, List.eraseDups_cons]

theorem nodup_eraseDups (names : List α) : names.eraseDups.Nodup := by
  induction names using List.reverseRecOn with
  | nil => exact List.nodup_nil
  | append_singleton names name ih =>
    rw [eraseDups_concat]
    split
    · exact ih
    · rename_i absent
      refine List.nodup_append'.2 ⟨ih, List.nodup_singleton name, ?_⟩
      rw [List.disjoint_singleton, List.mem_eraseDups]
      exact absent

theorem length_eraseDups (names : List α) : names.eraseDups.length = names.toFinset.card := by
  rw [← List.toFinset_card_of_nodup (nodup_eraseDups names)]
  congr 1
  ext name
  simp only [List.mem_toFinset, List.mem_eraseDups]

theorem eraseDups_map [DecidableEq β] {f : α → β} {list : List α}
    (apart : ∀ left ∈ list, ∀ right ∈ list, f left = f right → left = right) :
    (list.map f).eraseDups = list.eraseDups.map f := by
  induction list using List.reverseRecOn with
  | nil => rfl
  | append_singleton list item ih =>
    have before := ih fun left first right second =>
      apart left (List.mem_append_left _ first) right (List.mem_append_left _ second)
    have known : f item ∈ list.map f ↔ item ∈ list := by
      rw [List.mem_map]
      refine ⟨fun ⟨other, member, same⟩ => ?_, fun member => ⟨item, member, rfl⟩⟩
      rw [← apart other (List.mem_append_left _ member) item (by simp) same]
      exact member
    rw [List.map_append, List.map_singleton, eraseDups_concat, eraseDups_concat, before]
    simp only [known]
    split
    · rfl
    · rw [List.map_append, List.map_singleton]

end Distinct

section Run

variable (key : β → String) (value : β → α)

def putAll (register : Register α) (items : List β) : Register α :=
  items.foldl (fun register item => register.put (key item) (value item)) register

theorem putAll_concat (register : Register α) (items : List β) (item : β) :
    register.putAll key value (items ++ [item]) =
      (register.putAll key value items).put (key item) (value item) := by
  rw [putAll, List.foldl_concat, putAll]

theorem putAll_append (register : Register α) (first second : List β) :
    register.putAll key value (first ++ second) =
      (register.putAll key value first).putAll key value second :=
  List.foldl_append

theorem names_putAll (items : List β) :
    (empty.putAll key value items).names = (items.map key).eraseDups := by
  -- From the end: what is put last comes after the names of all items before it.
  induction items using List.reverseRecOn with
  | nil => rfl
  | append_singleton items item ih =>
    rw [putAll_concat, names_put, ih, List.map_append, List.map_singleton, eraseDups_concat]
    simp only [List.mem_eraseDups]

theorem mem_putAll {items : List β} {entry : String × α}
    (member : entry ∈ (empty.putAll key value items).entries) :
    ∃ item ∈ items, entry = (key item, value item) := by
  induction items using List.reverseRecOn with
  | nil => contradiction
  | append_singleton items item ih =>
    rw [putAll_concat] at member
    rcases mem_put member with rfl | earlier
    · exact ⟨item, by simp, rfl⟩
    · obtain ⟨other, found, same⟩ := ih earlier
      exact ⟨other, List.mem_append_left _ found, same⟩

/-- Under a name stands the value of the last item with that name. -/
theorem get?_putAll {items : List β} {name : String} {held : α} :
    (empty.putAll key value items).get? name = some held ↔
      ∃ before item after, items = before ++ item :: after ∧
        (key item = name ∧ held = value item) ∧ ∀ later ∈ after, key later ≠ name := by
  induction items using List.reverseRecOn with
  | nil => simp [putAll, empty, get?, findEntry]
  | append_singleton items last ih =>
    rw [putAll_concat, get?_put, exists_split_concat, ← ih]
    split
    · rename_i same
      simp [same, eq_comm]
    · rename_i different
      simp [different]

end Run

theorem length_names (register : Register α) : register.names.length = register.size :=
  List.length_map Prod.fst

theorem entry_of_name {register : Register α} (distinct : register.names.Nodup)
    {first second : String × α} (left : first ∈ register.entries)
    (right : second ∈ register.entries) (same : first.1 = second.1) : first = second :=
  List.inj_on_of_nodup_map distinct left right same

end Register

end DesignTokens
