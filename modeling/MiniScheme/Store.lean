import MiniScheme.Host
import MiniScheme.Journal
import MiniScheme.Value.Printer

/-!
# The store

Everything that native procedures work on: the heap, the application's objects, and the journal.
An action on the store can fail; it then answers with the store as it was left.
-/

namespace MiniScheme

/-- The heap, the host objects and the journal. -/
structure Store where
  heap : Heap := {}
  hosts : Array HostObject := #[]
  journal : Journal := {}
  deriving Inhabited

/-- Actions on the store. -/
abbrev StoreM := EStateM Fault Store

namespace Store

@[inline] def onHeap {α : Type} (work : Heap → α × Heap) (store : Store) : α × Store :=
  match store with
  | { heap, hosts, journal } =>
    let (result, heap) := work heap
    (result, { heap, hosts, journal })

@[inline] def mapHeap (change : Heap → Heap) (store : Store) : Store :=
  match store with
  | { heap, hosts, journal } => { heap := change heap, hosts, journal }

@[inline] def note (detail : Detail) (message : Unit → String) (store : Store) : Store :=
  match store with
  | { heap, hosts, journal } => { heap, hosts, journal := journal.note detail message }

def print (text : String) (store : Store) : Store :=
  match store with
  | { heap, hosts, journal } => { heap, hosts, journal := journal.print text }

/-- Shows a new object to scripts, below its parent if it has one. -/
def addHost (object : HostObject) (store : Store) : HostRef × Store :=
  let reference := { id := store.hosts.size, className := object.className }
  let hosts := match object.parent with
    | some parent => store.hosts.modify parent.id fun holder =>
      { holder with children := holder.children ++ [reference] }
    | none => store.hosts
  (reference, { store with hosts := hosts.push object })

end Store

/-- Builds a value in the heap. -/
@[inline] def StoreM.build {α : Type} (work : Heap → α × Heap) : StoreM α := fun store =>
  let (result, store) := store.onHeap work
  .ok result store

end MiniScheme
