import MiniScheme.Stdlib.Effects

/-!
# Procedures on host objects

Arguments that an object is given are converted before the object itself is looked at. Objects
fail in their own words.
-/

namespace MiniScheme.Stdlib

def isHost : Value → Bool
  | .host _ => true
  | _ => false

/-- The name of a property or method. -/
def name : Value → Except Fault String
  | .string _ content => .ok content
  | .symbol content => .ok content
  | _ => .error .invalidArgument

def hostObject (store : Store) : Value → Except Fault (HostRef × HostObject)
  | .host reference => match store.hosts[reference.id]? with
    | some object => .ok (reference, object)
    | none => .error .invalidArgument
  | _ => .error .invalidArgument

/-- The parent of an object; false if it has none. -/
def hostParent (store : Store) : List Value → Except Fault Effect :=
  unary fun argument => do
    match (← hostObject store argument).2.parent with
    | some parent => return .answer (.host parent)
    | none => return .answer (.boolean false)

/-- The list of an object's children. -/
def hostChildren (store : Store) : List Value → Except Fault Effect :=
  unary fun argument => do
    return .list ((← hostObject store argument).2.children.map .host) .emptyList

def hostProperty (store : Store) : List Value → Except Fault Effect :=
  binary fun argument property => do
    let property ← name property
    match (← hostObject store argument).2.property? property with
    | some variant => return .variant variant
    | none => throw (.unknownProperty property)

def hostSetProperty (store : Store) : List Value → Except Fault Effect :=
  ternary fun argument property value => do
    let variant ← Variant.ofValue store.heap value
    let (reference, object) ← hostObject store argument
    let property ← name property
    let changed ← (object.setProperty property variant).mapError .host
    return .setHost reference.id changed

def hostInvoke (store : Store) : List Value → Except Fault Effect
  | argument :: method :: values => do
    let variants ← values.mapM (Variant.ofValue store.heap)
    let (reference, object) ← hostObject store argument
    let method ← name method
    let result ← (object.invoke reference method variants).mapError .host
    return .variant result
  | _ => .error (.wrongArity { required := 2, variadic := true })

end MiniScheme.Stdlib
