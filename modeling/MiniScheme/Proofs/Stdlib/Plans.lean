import MiniScheme.Proofs.Stdlib.Answers

/-!
# What standard procedures plan

A standard procedure decides what to do before it does anything. What it decides passes on good
values only, and changes no object but the first argument of the four procedures that are there for
that.
-/

namespace MiniScheme.Stdlib

variable {α : Type} {store : Store} {arity : Arity}

def Change.value : Change → Value
  | .car value => value
  | .cdr value => value
  | .item _ value => value
  | .fill value => value

/-- The object has the place that is changed. -/
def Change.Applies : Change → Object → Prop
  | .car _, .pair _ _ => True
  | .cdr _, .pair _ _ => True
  | .item offset _, .vector items => offset < items.size
  | .fill _, .vector _ => True
  | _, _ => False

/-- What is done in the end passes on good values only. Of the objects in the heap it changes at most
a target, in a place that there is. -/
inductive Effect.Fits (store : Store) (good : Value → Prop) (target : Handle → Prop) :
    Effect → Prop where
  | answer {value : Value} : good value → Fits store good target (.answer value)
  | list {values : List Value} {tail : Value} : (∀ value ∈ values, good value) → good tail →
      Fits store good target (.list values tail)
  | vector {items : Array Value} : (∀ value ∈ items, good value) →
      Fits store good target (.vector items)
  | string (text : String) : Fits store good target (.string text)
  | bytes (content : List UInt8) : Fits store good target (.bytes content)
  | variant (given : Variant) : Fits store good target (.variant given)
  | change {handle : Handle} {object : Object} {update : Change} : target handle →
      store.heap.get? handle = some object → update.Applies object → good update.value →
      Fits store good target (.change handle update)
  | print (text : String) : Fits store good target (.print text)
  | note (text : String) : Fits store good target (.note text)
  | setHost {id : Nat} {object changed : HostObject} {name : String} {given : Variant} :
      object ∈ store.hosts → object.setProperty name given = .ok changed →
      Fits store good target (.setHost id changed)

/-- The procedures that change objects in place. -/
def mutators : List String :=
  ["set-car!", "set-cdr!", "vector-set!", "vector-fill!"]

/-- The procedure changes the object, which is its first argument. -/
def Targets (name : String) (arguments : List Value) (handle : Handle) : Prop :=
  name ∈ mutators ∧ arguments.head?.bind Value.handle? = some handle

/-- The plan fits whatever good arguments it is made for, and does not depend on what is in closures
and continuations. -/
structure Plans (name : String) (arity : Arity)
    (plan : Store → List Value → Except Fault Effect) : Prop where
  decides {store : Store} {good : Value → Prop} {arguments : List Value} :
    store.heap.Closed good → (∀ value ∈ arguments, good value) →
      Decides store arity arguments.length (Effect.Fits store good (Targets name arguments))
        (plan store arguments)
  blind {store store' : Store} : store.heap.Resembles store'.heap → store'.hosts = store.hosts →
    plan store' = plan store

def Planned (native : Native) : Prop :=
  ∃ plan, Plans native.name native.arity plan ∧ ∀ arguments store, native.run arguments store =
    match plan store arguments with
    | .ok effect => .ok (some (effect.apply store).1) (effect.apply store).2
    | .error fault => .error fault store

section

variable {name : String} {required : Nat} {variadic : Bool}

theorem Plans.planned {plan : Store → List Value → Except Fault Effect}
    (plans : Plans name { required, variadic } plan) :
    Planned (.prompt name required variadic (perform plan)) := by
  refine ⟨plan, plans, fun args store => ?_⟩
  change EStateM.map some (perform plan args) store = _
  unfold EStateM.map perform
  cases plan store args <;> rfl

theorem Finds.plans {fine : (Value → Prop) → α → Prop} {work : Heap → List Value → Except Fault α}
    (finds : Finds arity fine work) {make : α → Effect}
    (fits : ∀ {store : Store} {good target res}, store.heap.Closed good → fine good res →
      (make res).Fits store good target) :
    Plans name arity fun store args => make <$> work store.heap args where
  decides closed goods := (finds.decides closed goods).map fun _ found => fits closed found
  blind resembles _ := by simp only [finds.blind resembles]

theorem planned_inspect {work : Heap → List Value → Except Fault Value}
    (finds : Finds { required, variadic } (fun good => good) work) :
    Planned (.prompt name required variadic (inspect work)) :=
  (finds.plans fun _ => .answer).planned

theorem planned_compute {work : List Value → Except Fault Value}
    (reckons : Reckons { required, variadic } work) :
    Planned (.prompt name required variadic (compute work)) :=
  planned_inspect reckons.finds

theorem planned_predicate (test : Value → Bool) : Planned (.prompt name 1 false (predicate test)) :=
  planned_compute fun _ _ => decides_unary fun _ _ => ⟨rfl, rfl⟩

theorem planned_chain {extract : Value → Except Fault α}
    (yields : ∀ v, Yields Any (extract v)) (related : α → α → Bool) :
    Planned (.prompt name required variadic (chain extract related)) :=
  planned_compute fun _ _ => Yields.decides
    ((Yields.mapM fun argument _ => yields argument).bind fun _ _ => ⟨rfl, rfl⟩)

theorem planned_spell {work : Heap → List Value → Except Fault String}
    (finds : Finds { required, variadic } (fun _ => Any) work) :
    Planned (.prompt name required variadic (spell work)) :=
  (finds.plans fun _ _ => .string _).planned

theorem planned_enlist {work : Heap → List Value → Except Fault (List Value)}
    (finds : Finds { required, variadic } All work) :
    Planned (.prompt name required variadic (enlist work)) :=
  (finds.plans fun closed goods => .list goods (closed.atom ⟨rfl, rfl⟩)).planned

theorem planned_envector {work : Heap → List Value → Except Fault (Array Value)}
    (finds : Finds { required, variadic } AllItems work) :
    Planned (.prompt name required variadic (envector work)) :=
  (finds.plans fun _ => .vector).planned

end

theorem plans_cons : Plans "cons" { required := 2 } cons where
  decides closed goods := decides_binary fun car cdr shape =>
    .list (by simpa using goods car (by simp [shape])) (goods cdr (by simp [shape]))
  blind _ _ := rfl

theorem plans_append {name : String} : Plans name arity append where
  decides closed goods := Yields.decides ((yields_appended closed goods).bind fun _ joined =>
    .list joined.1 joined.2)
  blind resembles _ := by
    funext args
    simp only [append, appended_blind resembles]

theorem plans_setPair {change : Value → Change} {name : String} (mutates : name ∈ mutators)
    (applies : ∀ v car cdr, (change v).Applies (.pair car cdr)) (puts : ∀ v, (change v).value = v) :
    Plans name { required := 2 } (setPair change) where
  decides closed goods := decides_binary fun first v shape => by
    cases first
    case pair h =>
      refine (yields_pairAt _ h).bind fun _ ⟨car, cdr, held⟩ => ?_
      refine .change ⟨mutates, by rw [shape]; rfl⟩ held (applies v car cdr) ?_
      exact (puts v).symm ▸ goods v (by simp [shape])
    all_goals trivial
  blind resembles _ := by simp only [setPair, pair_blind resembles]

theorem plans_vectorSet : Plans "vector-set!" { required := 3 } vectorSet where
  decides closed goods := decides_ternary fun first place v shape => by
    cases first
    case vector h =>
      refine Yields.decides ((yields_itemsAt _ h).bind fun content held => ?_)
      refine (yields_index content.size place).bind fun offset _ => ?_
      refine .change ⟨by decide, by rw [shape]; rfl⟩ held offset.isLt ?_
      exact goods v (by simp [shape])
    all_goals exact .refusal trivial
  blind resembles _ := by simp only [vectorSet, items_blind resembles]

theorem plans_vectorFill : Plans "vector-fill!" { required := 2 } vectorFill where
  decides closed goods := decides_binary fun first v shape => by
    cases first
    case vector h =>
      refine (yields_itemsAt _ h).bind fun content held => ?_
      refine .change ⟨by decide, by rw [shape]; rfl⟩ held trivial ?_
      exact goods v (by simp [shape])
    all_goals trivial
  blind resembles _ := by simp only [vectorFill, items_blind resembles]

theorem plans_bytevector {name : String} : Plans name arity bytevector where
  decides _ _ := Decides.map (Yields.decides (Yields.mapM fun argument _ => yields_octet argument))
    fun _ _ => .bytes _
  blind _ _ := rfl

theorem plans_display : Plans "display" { required := 1 } display where
  decides _ _ := decides_unary fun _ _ => .print _
  blind resembles _ := by simp only [display, resembles.displayText]

theorem plans_debug {name : String} : Plans name arity debug where
  decides _ _ := .note _
  blind resembles _ := by
    funext args
    simp only [debug, resembles.writeText]

/-! ### Objects of the application -/

theorem hostObject_blind {store' : Store} (hosts : store'.hosts = store.hosts) :
    hostObject store' = hostObject store := by
  funext v
  cases v <;> simp [hostObject, hosts]

theorem plans_hostParent {name : String} : Plans name { required := 1 } hostParent where
  decides closed _ := decides_unary fun argument _ =>
    (yields_hostObject _ argument).bind fun found _ => by
      split <;> exact .answer (closed.atom ⟨rfl, rfl⟩)
  blind _ hosts := by simp only [hostParent, hostObject_blind hosts]

theorem plans_hostChildren {name : String} : Plans name { required := 1 } hostChildren where
  decides closed _ := decides_unary fun argument _ =>
    (yields_hostObject _ argument).bind fun found _ =>
      .list (List.forall_mem_map.mpr fun _ _ => closed.atom ⟨rfl, rfl⟩) (closed.atom ⟨rfl, rfl⟩)
  blind _ hosts := by simp only [hostChildren, hostObject_blind hosts]

theorem plans_hostProperty {name : String} : Plans name { required := 2 } hostProperty where
  decides closed _ := decides_binary fun argument property _ => by
    refine (yields_name property).bind fun property _ => ?_
    refine (yields_hostObject _ argument).bind fun found _ => ?_
    split
    · exact .variant _
    · trivial
  blind _ hosts := by simp only [hostProperty, hostObject_blind hosts]

theorem plans_hostSetProperty {name : String} :
    Plans name { required := 3 } hostSetProperty where
  decides closed _ := decides_ternary fun argument property v _ => by
    refine (yields_ofValueWithin _ _ v).decides.bind fun variant _ => ?_
    refine (yields_hostObject _ argument).decides.bind fun ⟨ref, obj⟩ mem => ?_
    refine (yields_name property).decides.bind fun property _ => ?_
    cases set : obj.setProperty property variant with
    | ok changed => exact .setHost mem set
    | error message =>
      unfold HostObject.setProperty at set
      split at set
      · rename_i refused
        cases set
        exact .property mem refused
      · cases set
  blind resembles hosts := by
    simp only [hostSetProperty, resembles.ofValue, hostObject_blind hosts]

theorem plans_hostInvoke {name : String} :
    Plans name { required := 2, variadic := true } hostInvoke where
  decides {store good args} closed _ := by
    match args with
    | argument :: method :: vals =>
      refine (Yields.mapM fun v _ => yields_ofValueWithin _ _ v).decides.bind fun variants _ => ?_
      refine (yields_hostObject _ argument).decides.bind fun ⟨ref, obj⟩ mem => ?_
      refine (yields_name method).decides.bind fun method _ => ?_
      cases invoked : obj.invoke ref method variants with
      | ok res => exact .variant _
      | error message => exact .method mem invoked
    | [] | [_] => exact .arity rfl
  blind resembles hosts := by
    funext args
    unfold hostInvoke
    simp only [resembles.ofValue, hostObject_blind hosts]

/-! ### The table -/

theorem planned_procedures : ∀ native ∈ procedures, Planned native := by
  have eq {heap heap' : Heap} (resembles : heap.Resembles heap') := resembles.equal
  have identical {heap heap' : Heap} (_ : heap.Resembles heap') : identical heap' = identical heap :=
    rfl
  simp only [procedures, List.forall_mem_cons]
  and_intros
  all_goals with_reducible first
    | exact List.forall_mem_nil _
    | exact planned_predicate _
    | exact planned_chain yields_number _
    | exact planned_chain yields_character _
    | exact planned_chain yields_text _
    | exact planned_inspect (finds_comparison identical)
    | exact planned_inspect (finds_comparison eq)
    | exact planned_inspect (finds_member identical)
    | exact planned_inspect (finds_member eq)
    | exact planned_inspect (finds_association identical)
    | exact planned_inspect (finds_association eq)
    | skip
  · exact planned_compute (Number.reckons_fold (Number.computes_combine _ _) _)
  · exact planned_compute (Number.reckons_foldFirst (Number.computes_combine _ _) _)
  · exact planned_compute (Number.reckons_fold (Number.computes_combine _ _) _)
  · exact planned_compute (Number.reckons_foldFirst Number.computes_div _)
  · exact planned_compute (reckons_unary yields_number fun _ => ⟨rfl, rfl⟩)
  · exact planned_chain yields_boolean _
  · exact planned_compute (reckons_unary yields_character fun _ => ⟨rfl, rfl⟩)
  · exact planned_compute reckons_integerToChar
  · exact planned_spell finds_makeString
  · exact planned_spell (finds_text fun _ args => (yields_stringOf args).decides)
  · exact planned_compute (reckons_unary yields_text fun _ => ⟨rfl, rfl⟩)
  · exact planned_compute reckons_stringRef
  · exact planned_spell (finds_stringPart rfl)
  · exact planned_spell (finds_text fun _ _ => Yields.decides
      ((Yields.mapM fun argument _ => yields_text argument).bind fun _ _ => trivial))
  · exact planned_enlist finds_stringToList
  · exact planned_spell finds_listToString
  · exact planned_spell (finds_stringPart rfl)
  · exact planned_spell finds_numberToString
  · exact planned_compute reckons_stringToNumber
  · exact planned_spell (finds_text fun _ _ => decides_unary fun argument _ =>
      yields_symbol argument)
  · exact planned_compute (reckons_unary yields_text fun _ => ⟨rfl, rfl⟩)
  · exact planned_chain yields_symbol _
  · exact plans_cons.planned
  · exact planned_inspect (finds_unary yields_pair pair_blind fun _ _ halves => halves.1)
  · exact planned_inspect (finds_unary yields_pair pair_blind fun _ _ halves => halves.2)
  · exact Plans.planned (plans_setPair (by decide) (fun _ _ _ => trivial) fun _ => rfl)
  · exact Plans.planned (plans_setPair (by decide) (fun _ _ _ => trivial) fun _ => rfl)
  · exact planned_enlist ⟨fun _ goods => goods, fun _ => rfl⟩
  · exact plans_append.planned
  · exact planned_inspect (finds_unary yields_elements elements_blind fun closed _ _ =>
      closed.atom ⟨rfl, rfl⟩)
  · exact planned_enlist (finds_unary yields_elements elements_blind fun _ _ goods v mem =>
      goods v (List.mem_reverse.mp mem))
  · exact planned_inspect finds_listTail
  · exact planned_inspect finds_listRef
  · exact planned_envector finds_makeVector
  · exact planned_envector ⟨fun _ goods v mem => goods v (by simpa using mem), fun _ => rfl⟩
  · exact planned_inspect (finds_unary yields_items items_blind fun closed _ _ =>
      closed.atom ⟨rfl, rfl⟩)
  · exact planned_inspect finds_vectorRef
  · exact plans_vectorSet.planned
  · exact planned_enlist (finds_unary yields_items items_blind fun _ _ goods v mem =>
      goods v (Array.mem_toList_iff.mp mem))
  · exact planned_envector (finds_unary yields_elements elements_blind
      fun _ _ goods v mem => goods v (List.mem_toArray.mp mem))
  · exact plans_vectorFill.planned
  · exact planned_envector finds_vectorAppend
  · exact plans_bytevector.planned
  · exact planned_compute (reckons_unary yields_octets fun _ => ⟨rfl, rfl⟩)
  · exact planned_compute reckons_bytevectorRef
  · exact planned_inspect finds_isList
  · exact plans_display.planned
  · exact Plans.planned ⟨fun _ _ => .print _, fun _ _ => rfl⟩
  · exact plans_debug.planned
  · exact plans_hostParent.planned
  · exact plans_hostChildren.planned
  · exact plans_hostProperty.planned
  · exact plans_hostSetProperty.planned
  · exact plans_hostInvoke.planned

end MiniScheme.Stdlib
