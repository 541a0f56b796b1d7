import MiniScheme.Host

/-!
# Ready-made host objects

Two kinds of objects for applications that need no more. A `plain` object has neither properties
nor methods. A `node` keeps whatever properties it is given, except that those whose names begin
with `ro` can only be read, and has a few methods for looking at arguments.
-/

namespace MiniScheme

namespace Variant

mutual

/-- The kind of a variant; that of a list with the kinds of its items. -/
def kind : Variant → String
  | .null => "null"
  | .bool _ => "bool"
  | .int _ => "int"
  | .float _ => "float"
  | .string _ => "string"
  | .list items => "list[" ++ kinds items ++ "]"
  | .bytes _ => "bytes"
  | .object _ => "object"

def kinds : List Variant → String
  | [] => ""
  | [item] => item.kind
  | item :: items => item.kind ++ " " ++ kinds items

end

/-- The sum of the integers among variants, wrapping around. -/
def sum (items : List Variant) : Int64 :=
  items.foldl (fun total item => match item with
    | .int value => total + value
    | _ => total) 0

end Variant

namespace HostObject

def plain : HostObject :=
  { className := "Plain", refuses := fun name => some ("Cannot set " ++ name ++ ".") }

def nodeMethod (self : HostRef) (method : String) (arguments : List Variant) :
    Except String Variant :=
  match method with
  | "sum" => .ok (.int (Variant.sum arguments))
  | "echo" => .ok (.list arguments)
  | "first" => .ok (arguments.head?.getD .null)
  | "kinds" => .ok (.string (Variant.kinds arguments))
  | "same" => match arguments with
    | [left, right] => .ok (.bool (left.same right))
    | _ => .ok (.bool false)
  | "self" => .ok (.object self)
  | "fail" => .error "Host failure."
  | _ => .error ("No method " ++ method ++ ".")

/-- A node of a class, below a parent if it has one. -/
def node (className : String) (parent : Option HostRef) (properties : List (String × Variant)) :
    HostObject :=
  { className, parent, properties
    refuses := fun name =>
      if "ro".toList.isPrefixOf name.toList then some ("Read-only property " ++ name ++ ".")
      else none
    invoke := nodeMethod }

end HostObject

end MiniScheme
