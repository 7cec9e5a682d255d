import DesignTokens.Files.ConfigFile

/-!
A cache of loaded configurations under the normal paths of their files. An entry is never changed:
it stays until it is dropped, and the next look-up reads the file again.
-/

namespace DesignTokens

/-- An order in which the entries of a cache are gone through. The cache has none of its own. -/
structure EntryOrder where
  arrange : List (FilePath × Config) → List (FilePath × Config)
  perm : ∀ entries, (arrange entries).Perm entries

namespace EntryOrder

def loaded : EntryOrder := ⟨id, fun _ => .refl _⟩

def reversed : EntryOrder := ⟨List.reverse, List.reverse_perm⟩

end EntryOrder

structure Store where
  entries : List (FilePath × Config)

namespace Store

def empty : Store := ⟨[]⟩

def size (store : Store) : Nat :=
  store.entries.length

def isEmpty (store : Store) : Bool :=
  store.entries.isEmpty

def paths (store : Store) : List FilePath :=
  store.entries.map Prod.fst

def find? (store : Store) (key : FilePath) : Option Config :=
  (store.entries.find? fun entry => entry.1.same key).map Prod.snd

def get? (store : Store) (files : FileSystem) (path : FilePath) : Option Config :=
  store.find? (files.normal path)

/-- Keeps a configuration, unless there is one under the path already; that one is the answer. -/
def keep (store : Store) (key : FilePath) (config : Config) : Config × Store :=
  match store.find? key with
  | some old => (old, store)
  | none => (config, ⟨store.entries ++ [(key, config)]⟩)

def insert (store : Store) (files : FileSystem) (path : FilePath) (config : Config) :
    Config × Store :=
  store.keep (files.normal path) config

def getOrLoad (store : Store) (files : FileSystem) (path : FilePath) :
    Except LoadError (Config × Store) :=
  let key := files.normal path
  match store.find? key with
  | some config => .ok (config, store)
  | none => (loadConfig files (.forFile key)).map (store.insert files key)

def covering (entries : List (FilePath × Config)) (document : FilePath) :
    List (FilePath × Config) :=
  entries.filterMap fun (path, config) =>
    match path.parent? with
    | some directory => if document.startsWith directory then some (directory, config) else none
    | none => none

/-- The later one of two entries counts if it lies as deep or deeper. -/
def deeper (best : Option (FilePath × Config)) (entry : FilePath × Config) :
    Option (FilePath × Config) :=
  match best with
  | none => some entry
  | some other =>
    if other.1.steps.length ≤ entry.1.steps.length then some entry else some other

/-- The entry in the deepest directory that a document lies in. Of several ones in that directory
the order of the entries decides. -/
def findCovering (store : Store) (order : EntryOrder) (document : FilePath) : Option Config :=
  ((covering (order.arrange store.entries) document).foldl deeper none).map Prod.snd

/-- The configuration for a document: a cached one that covers it, or else the nearest file. -/
def forDocument (store : Store) (files : FileSystem) (order : EntryOrder) (document : FilePath)
    (roots : List FilePath) : Except LoadError (Option Config × Store) :=
  let document := files.normal document
  match store.findCovering order document with
  | some config => .ok (some config, store)
  | none =>
    match findNearestConfig files document roots with
    | none => .ok (none, store)
    | some path =>
      (store.getOrLoad files path).map fun (config, store) => (some config, store)

def invalidate (store : Store) (files : FileSystem) (path : FilePath) : Bool × Store :=
  let key := files.normal path
  ((store.find? key).isSome, ⟨store.entries.filter fun entry => !entry.1.same key⟩)

def invalidateAll (store : Store) : Nat × Store :=
  (store.size, empty)

end Store

end DesignTokens
