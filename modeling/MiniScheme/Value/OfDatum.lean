import MiniScheme.Heap

/-!
# Quoted data as values

A datum becomes a value by building its compound parts in the heap, parts before wholes.
-/

namespace MiniScheme.Heap

def ofAtom (heap : Heap) : Atom → Value × Heap
  | .boolean value => (.boolean value, heap)
  | .integer value => (.integer value, heap)
  | .float value => (.float value, heap)
  | .character value => (.character value, heap)
  | .string value => heap.string value
  | .symbol name => (.symbol name, heap)
  | .bytes value => heap.bytes value

mutual

def ofDatum (heap : Heap) : Datum → Value × Heap
  | .atom value _ => heap.ofAtom value
  | .list items _ =>
    let (values, heap) := heap.ofData items
    heap.list values
  | .dotted items tail _ =>
    let (values, heap) := heap.ofData items
    let (last, heap) := heap.ofDatum tail
    heap.listWithTail values last
  | .vector items _ =>
    let (values, heap) := heap.ofData items
    heap.vector values.toArray

def ofData (heap : Heap) : List Datum → List Value × Heap
  | [] => ([], heap)
  | item :: items =>
    let (value, heap) := heap.ofDatum item
    let (values, heap) := heap.ofData items
    (value :: values, heap)

end

end MiniScheme.Heap
