import MiniScheme.Rule.Template

/-!
# Transformers

A transformer replaces the uses of a name by other forms before they are compiled. One kind tries
rules in turn; the other kind stands for an expression, and optionally for what assigning to the
name means. Names that a template introduces keep the meaning that they have where the expansion
lands.
-/

namespace MiniScheme

/-- What a rule is matched against. -/
inductive RulePattern where
  /-- The whole form. -/
  | form (pattern : Pattern)
  /-- The form without its first item. -/
  | arguments (shape : Shape)

/-- A pattern and the template that replaces a form it matches. -/
structure Rule where
  pattern : RulePattern
  template : Template

/-- The two kinds of transformers. -/
inductive TransformerKind where
  /-- The first rule that matches applies. -/
  | rules (rules : List Rule)
  /-- A template for references, and a rule for assignments if there are any. -/
  | identifier (reference : Template) (assignment : Option Rule)

/-- A transformer, told from others by its number. -/
structure Transformer where
  id : Nat
  kind : TransformerKind

namespace Rule

/-- What the variables of the rule are bound to by a form, if the form matches. -/
def bindings? (meaning? : String → Option Identity) (rule : Rule) (form : Datum) :
    Option (List Match) :=
  match rule.pattern with
  | .form pattern => pattern.bindings? meaning? form
  | .arguments shape => match form.elements? with
    | some (_ :: items, tail) => Pattern.shapeBindings? meaning? shape items tail form.position
    | _ => none

/-- The form that replaces a form that matches. -/
def expand? (meaning? : String → Option Identity) (rule : Rule) (form : Datum) :
    Option (Except CompileError Datum) :=
  (rule.bindings? meaning? form).map fun bindings =>
    rule.template.instantiate form.position (bindings.map some)

/-- Reads `(pattern template)`. -/
def ofDatum (literals : Literals) (rule : Datum) : Except CompileError Rule :=
  match rule.list? with
  | some [left, right] => do
    let (pattern, vars) ← match left.elements? with
      | some (_ :: items, rest) => do
        let ((front, repeated, back), vars) ←
          (Pattern.ofItems literals left.position items).run []
        match rest with
        | some rest =>
          let (rest, vars) ← (Pattern.ofDatum literals rest).run vars
          pure (RulePattern.arguments (.mk front repeated back (some rest)), vars)
        | none => pure (.arguments (.mk front repeated back none), vars)
      | _ =>
        let (pattern, vars) ← (Pattern.ofDatum literals left).run []
        pure (.form pattern, vars)
    return { pattern, template := ← Template.ofDatum vars 0 false right }
  | _ => .error { fault := .invalidRule, position := rule.position }

end Rule

namespace TransformerKind

/-- The pattern of a name declared as a literal: the meaning it has where the transformer is
defined, or the bare name. -/
def literal (meaning? : String → Option Identity) (name : String) : Pattern :=
  match meaning? name with
  | some identity => .bound identity
  | none => .free name

/-- Reads `(syntax-rules (literal ...) rule ...)`. -/
def readRules (meaning? : String → Option Identity) (spec names : Datum) (rules : List Datum) :
    Except CompileError TransformerKind := do
  let some declared := names.list? | throw { fault := .invalidRules, position := spec.position }
  let literals ← declared.mapM fun datum =>
    match datum.symbol? with
    | some name => .ok (name, literal meaning? name)
    | none => .error { fault := .invalidLiterals, position := names.position }
  return .rules (← rules.mapM (Rule.ofDatum literals))

/-- Reads `(name template)`. -/
def readReference (datum : Datum) : Except CompileError Template :=
  match datum.list? with
  | some [.atom (.symbol _) _, template] => Template.ofDatum [] 0 false template
  | _ => .error { fault := .invalidTransformer, position := datum.position }

/-- Reads `((set! name pattern) template)`. -/
def readAssignment (datum : Datum) : Except CompileError Rule :=
  match datum.list? with
  | some [left, right] => match left.list? with
    | some [mark, .atom (.symbol _) _, value] =>
      if mark.isSymbol "set!" then do
        let (pattern, vars) ← (Pattern.ofDatum [] value).run []
        return { pattern := .arguments (.mk [.anything, pattern] none [] none)
                 template := ← Template.ofDatum vars 0 false right }
      else .error { fault := .invalidTransformer, position := left.position }
    | _ => .error { fault := .invalidTransformer, position := left.position }
  | _ => .error { fault := .invalidTransformer, position := datum.position }

/-- Reads a list that describes a transformer. -/
def ofDatum (meaning? : String → Option Identity) (spec : Datum) :
    Except CompileError TransformerKind :=
  let invalid := .error { fault := .invalidTransformer, position := spec.position }
  match spec.list? with
  | none => .error { fault := .notATransformer, position := spec.position }
  | some (keyword :: first :: others) =>
    match keyword.symbol?, others with
    | some "syntax-rules", _ => readRules meaning? spec first others
    | some "identifier-syntax", [] => do
      return .identifier (← Template.ofDatum [] 0 false first) none
    | some "identifier-syntax", [assignment] => do
      let reference ← readReference first
      return .identifier reference (some (← readAssignment assignment))
    | _, _ => invalid
  | some _ => invalid

/-- Expands a use of the transformer's name, in front of a list or on its own. -/
def expand (meaning? : String → Option Identity) (kind : TransformerKind) (form : Datum) :
    Except CompileError Datum :=
  match kind with
  | .rules candidates => match candidates.findSome? fun rule => rule.expand? meaning? form with
    | some expansion => expansion
    | none => .error { fault := .noMatchingRule, position := form.position }
  | .identifier reference _ => do
    let expansion ← reference.instantiate form.position []
    match form.elements? with
    | some (_ :: items, some tail) => return .withTail (expansion :: items) tail form.position
    | some (_ :: items, none) => return .list (expansion :: items) form.position
    | _ => return expansion

/-- Expands an assignment to the transformer's name. -/
def expandAssignment (meaning? : String → Option Identity) (kind : TransformerKind)
    (form : Datum) : Except CompileError Datum :=
  match kind with
  | .identifier _ (some rule) => match rule.expand? meaning? form with
    | some expansion => expansion
    | none => .error { fault := .noMatchingRule, position := form.position }
  | _ => .error { fault := .notAVariable, position := form.position }

end TransformerKind

end MiniScheme
