/-!
Values under names, in the order in which the names first came. Putting a value under an old name
replaces the value and keeps the place.
-/

namespace DesignTokens

structure Register (α : Type) where
  entries : List (String × α)

namespace Register

variable {α : Type}

def empty : Register α := ⟨[]⟩

def names (register : Register α) : List String :=
  register.entries.map Prod.fst

def values (register : Register α) : List α :=
  register.entries.map Prod.snd

def size (register : Register α) : Nat :=
  register.entries.length

def isEmpty (register : Register α) : Bool :=
  register.entries.isEmpty

def findEntry (name : String) : List (String × α) → Option α
  | [] => none
  | (other, value) :: rest => if other = name then some value else findEntry name rest

def get? (register : Register α) (name : String) : Option α :=
  findEntry name register.entries

def putEntry (name : String) (value : α) : List (String × α) → List (String × α)
  | [] => [(name, value)]
  | (other, old) :: rest =>
    if other = name then (name, value) :: rest else (other, old) :: putEntry name value rest

def put (register : Register α) (name : String) (value : α) : Register α :=
  ⟨putEntry name value register.entries⟩

theorem names_putEntry (name : String) (value : α) (entries : List (String × α)) :
    (putEntry name value entries).map Prod.fst =
      if name ∈ entries.map Prod.fst then entries.map Prod.fst
      else entries.map Prod.fst ++ [name] := by
  induction entries with
  | nil => simp [putEntry]
  | cons entry rest ih =>
    obtain ⟨other, old⟩ := entry
    simp only [putEntry]
    split
    · rename_i same
      simp [same]
    · rename_i different
      have away : ¬ name = other := fun same => different same.symm
      simp only [List.map_cons, ih, List.mem_cons, away, false_or]
      split <;> simp

/-- A new name comes last; an old one keeps its place. -/
theorem names_put (register : Register α) (name : String) (value : α) :
    (register.put name value).names =
      if name ∈ register.names then register.names else register.names ++ [name] :=
  names_putEntry name value register.entries

theorem findEntry_putEntry (name sought : String) (value : α) (entries : List (String × α)) :
    findEntry sought (putEntry name value entries) =
      if name = sought then some value else findEntry sought entries := by
  induction entries with
  | nil => simp [putEntry, findEntry]
  | cons entry rest ih =>
    obtain ⟨other, old⟩ := entry
    simp only [putEntry]
    split
    · rename_i same
      subst same
      simp only [findEntry]
      split <;> rfl
    · rename_i different
      simp only [findEntry, ih]
      split
      · rename_i found
        subst found
        simp [Ne.symm different]
      · rfl

theorem get?_put (register : Register α) (name sought : String) (value : α) :
    (register.put name value).get? sought =
      if name = sought then some value else register.get? sought :=
  findEntry_putEntry name sought value register.entries

end Register

end DesignTokens
