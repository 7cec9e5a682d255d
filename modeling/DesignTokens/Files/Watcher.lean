import DesignTokens.Files.Store

/-!
Which configuration files are watched, and what changes to them mean for the cache.
-/

namespace DesignTokens

inductive ChangeKind where
  | modified
  | removed
  deriving DecidableEq, Repr

structure Change where
  path : FilePath
  kind : ChangeKind
  deriving DecidableEq, Repr

inductive NoticeKind where
  | settled
  | ongoing
  deriving DecidableEq, Repr

structure Notice where
  path : FilePath
  kind : NoticeKind
  deriving DecidableEq, Repr

/-- What the system hands over at once: notices, or that it failed to watch. -/
inductive Delivery where
  | notices (list : List Notice)
  | failed
  deriving DecidableEq, Repr

def Delivery.toList : Delivery → List Notice
  | .notices list => list
  | .failed => []

/-- The canonical paths of the watched files, and what was handed over but not asked for yet. -/
structure Watcher where
  watched : List FilePath
  received : List Delivery

namespace PathStep

def rank : PathStep → Nat
  | .root => 0
  | .here => 1
  | .up => 2
  | .down _ => 3

def name : PathStep → List Char
  | .down name => name
  | _ => []

def before (left right : PathStep) : Bool :=
  left.rank < right.rank || left.rank = right.rank && left.name < right.name

end PathStep

def FilePath.notAfter (left right : FilePath) : Bool :=
  !right.steps.lex left.steps PathStep.before

namespace Watcher

def idle : Watcher := ⟨[], []⟩

def watches (watcher : Watcher) (path : FilePath) : Bool :=
  watcher.watched.any path.same

def watch (watcher : Watcher) (files : FileSystem) (path : FilePath) :
    Except LoadError Watcher :=
  match files.canonical path with
  | .error cause => .error (.unreadable path cause)
  | .ok found =>
    if watcher.watches found then .ok watcher
    else .ok { watcher with watched := watcher.watched ++ [found] }

/-- A path that leads nowhere is not watched, so nothing happens. -/
def unwatch (watcher : Watcher) (files : FileSystem) (path : FilePath) : Watcher :=
  match files.canonical path with
  | .error _ => watcher
  | .ok found => { watcher with watched := watcher.watched.filter fun other => !other.same found }

def change? (watcher : Watcher) (files : FileSystem) (notice : Notice) : Option Change :=
  if notice.kind = .settled && watcher.watches notice.path then
    some ⟨notice.path, if files.holds notice.path then .modified else .removed⟩
  else
    none

def dropRepeated (last : FilePath) : List Change → List Change
  | [] => []
  | change :: rest =>
    if change.path.same last then dropRepeated last rest
    else change :: dropRepeated change.path rest

def firstOfEach : List Change → List Change
  | [] => []
  | change :: rest => change :: dropRepeated change.path rest

/-- The changes to watched files since the last time, one for each file. -/
def poll (watcher : Watcher) (files : FileSystem) : List Change × Watcher :=
  let changes := (watcher.received.flatMap Delivery.toList).filterMap (watcher.change? files)
  (firstOfEach (changes.mergeSort fun left right => left.path.notAfter right.path),
    { watcher with received := [] })

def applyChanges (files : FileSystem) (store : Store) (changes : List Change) : Nat × Store :=
  changes.foldl (fun (count, store) change =>
    let (dropped, store) := store.invalidate files change.path
    (if dropped then count + 1 else count, store)) (0, store)

end Watcher

end DesignTokens
