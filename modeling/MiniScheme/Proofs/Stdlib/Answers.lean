import MiniScheme.Proofs.Heap.Likeness
import MiniScheme.Stdlib

/-!
# What standard procedures find

The part of a standard procedure that only looks at its arguments and the heap refuses, or finds data
of its own making, its arguments, and what is in them. It does not look into closures and
continuations. Where it fails otherwise, it has not been given as many arguments as it takes.
-/

namespace MiniScheme

/-- Failures that are neither defects of the code nor in the words of the application. -/
def Fault.IsOrdinary : Fault → Prop
  | .defect _ => False
  | .host _ => False
  | _ => True

/-- Ordinary failures other than a wrong number of arguments. -/
def Fault.IsRefusal : Fault → Prop
  | .wrongArity _ => False
  | fault => fault.IsOrdinary

structure Value.IsAtom (value : Value) : Prop where
  unbound : value.reference? = none
  data : value.isProcedure = false

structure Heap.Closed (heap : Heap) (good : Value → Prop) : Prop where
  atom {value : Value} : value.IsAtom → good value
  pair {handle : Handle} {car cdr : Value} : good (.pair handle) →
    heap.pair? handle = some (car, cdr) → good car ∧ good cdr
  vector {handle : Handle} {items : Array Value} : good (.vector handle) →
    heap.vector? handle = some items → ∀ value ∈ items, good value

namespace Stdlib

inductive Excused (store : Store) (arity : Arity) (count : Nat) : Fault → Prop where
  | refusal {fault : Fault} : fault.IsRefusal → Excused store arity count fault
  | arity {other : Arity} : arity.accepts count = false →
      Excused store arity count (.wrongArity other)
  | property {object : HostObject} {name message : String} : object ∈ store.hosts →
      object.refuses name = some message → Excused store arity count (.host message)
  | method {object : HostObject} {self : HostRef} {name message : String} {given : List Variant} :
      object ∈ store.hosts → object.invoke self name given = .error message →
      Excused store arity count (.host message)

/-- `Decides store arity count good answer`: the answer is good, or a failure that is excused. -/
def Decides {α : Type} (store : Store) (arity : Arity) (count : Nat) (good : α → Prop) :
    Except Fault α → Prop
  | .ok result => good result
  | .error fault => Excused store arity count fault

/-- `Yields good answer`: the answer is good, or a refusal. -/
def Yields {α : Type} (good : α → Prop) : Except Fault α → Prop
  | .ok result => good result
  | .error fault => fault.IsRefusal

variable {α β : Type} {good : α → Prop} {fine : β → Prop} {res : α} {fault : Fault}
  {answer : Except Fault α}

@[simp] theorem yields_pure : Yields good (pure res) ↔ good res := Iff.rfl

theorem Yields.bind {next : α → Except Fault β} (first : Yields good answer)
    (rest : ∀ res, good res → Yields fine (next res)) : Yields fine (answer >>= next) := by
  cases answer with
  | ok res => exact rest res first
  | error fault => exact first

theorem Yields.mapM {extract : β → Except Fault α} {items : List β}
    (each : ∀ item ∈ items, Yields good (extract item)) :
    Yields (fun results => ∀ res ∈ results, good res) (items.mapM extract) := by
  induction items with
  | nil => simp
  | cons item items ih =>
    rw [List.mapM_cons]
    refine (each item (by simp)).bind fun res result_good => ?_
    refine (ih fun other member => each other (by simp [member])).bind fun results results_good => ?_
    simpa using ⟨result_good, results_good⟩

theorem Yields.foldlM {step : α → β → Except Fault α} {items : List β} {start : α}
    (start_good : good start) (each : ∀ st, good st → ∀ item ∈ items, Yields good (step st item)) :
    Yields good (items.foldlM step start) := by
  induction items generalizing start with
  | nil => simpa using start_good
  | cons item items ih =>
    rw [List.foldlM_cons]
    refine (each start start_good item (by simp)).bind fun next next_good => ?_
    exact ih next_good fun st state_good other member =>
      each st state_good other (by simp [member])

variable {store : Store} {arity : Arity} {supplied : Nat} {args : List Value}

theorem Yields.decides (yields : Yields good answer) : Decides store arity supplied good answer := by
  cases answer with
  | ok res => exact yields
  | error fault => exact .refusal yields

theorem Decides.bind {next : α → Except Fault β} (first : Decides store arity supplied good answer)
    (rest : ∀ res, good res → Decides store arity supplied fine (next res)) :
    Decides store arity supplied fine (answer >>= next) := by
  cases answer with
  | ok res => exact rest res first
  | error fault => exact first

theorem Decides.map {make : α → β} (decides : Decides store arity supplied good answer)
    (made : ∀ res, good res → fine (make res)) :
    Decides store arity supplied fine (make <$> answer) := by
  cases answer with
  | ok res => exact made res decides
  | error fault => exact decides

theorem Decides.mono {weaker : α → Prop} (decides : Decides store arity supplied good answer)
    (implies : ∀ res, good res → weaker res) : Decides store arity supplied weaker answer := by
  cases answer with
  | ok res => exact implies res decides
  | error fault => exact decides

theorem decides_unary {work : Value → Except Fault α}
    (each : ∀ argument ∈ args, Yields good (work argument)) :
    Decides store { required := 1 } args.length good (unary work args) := by
  match args with
  | [argument] => exact (each argument (by simp)).decides
  | [] | _ :: _ :: _ => exact .arity (by simp [Arity.accepts])

theorem decides_binary {work : Value → Value → Except Fault α}
    (each : ∀ first second, args = [first, second] → Yields good (work first second)) :
    Decides store { required := 2 } args.length good (binary work args) := by
  match args with
  | [first, second] => exact (each first second rfl).decides
  | [] | [_] | _ :: _ :: _ :: _ => exact .arity (by simp [Arity.accepts])

theorem decides_ternary {work : Value → Value → Value → Except Fault α}
    (each : ∀ first second third, args = [first, second, third] →
      Decides store { required := 3 } args.length good (work first second third)) :
    Decides store { required := 3 } args.length good (ternary work args) := by
  match args with
  | [first, second, third] => exact each first second third rfl
  | [] | [_] | [_, _] | _ :: _ :: _ :: _ :: _ => exact .arity (by simp [Arity.accepts])

theorem decides_leading {work : Value → List Value → Except Fault α}
    (some : arity.accepts 0 = false)
    (each : ∀ first rest, args = first :: rest → Yields good (work first rest)) :
    Decides store arity args.length good (leading work args) := by
  match args with
  | [] => exact .arity some
  | first :: rest => exact (each first rest rfl).decides

/-! ### Arguments -/

abbrev Any {α : Type} : α → Prop := fun _ => True

section

variable (value : Value)

theorem yields_integer : Yields Any (integer value) := by
  cases value <;> trivial

theorem yields_character : Yields Any (character value) := by
  cases value <;> trivial

theorem yields_text : Yields Any (text value) := by
  cases value <;> trivial

theorem yields_symbol : Yields Any (symbol value) := by
  cases value <;> trivial

theorem yields_boolean : Yields Any (boolean value) := by
  cases value <;> trivial

theorem yields_octets : Yields Any (octets value) := by
  cases value <;> trivial

theorem yields_name : Yields Any (name value) := by
  cases value <;> trivial

theorem yields_number : Yields Any (Number.ofValue value) := by
  cases value <;> trivial

end

theorem yields_index (size : Nat) (value : Value) : Yields Any (index size value) := by
  refine (yields_integer value).bind fun number _ => ?_
  dsimp only
  split
  · trivial
  · change Yields Any (if _ : _ then _ else _)
    split <;> trivial

theorem yields_count (value : Value) : Yields Any (count value) := by
  refine (yields_integer value).bind fun number _ => ?_
  dsimp only
  split <;> trivial

theorem yields_octet (value : Value) : Yields Any (octet value) := by
  refine (yields_integer value).bind fun number _ => ?_
  dsimp only
  split <;> trivial

theorem yields_ofValueWithin (heap : Heap) (levels : Nat) (value : Value) :
    Yields Any (Variant.ofValueWithin heap levels value) := by
  induction levels generalizing value with
  | zero =>
    cases value
    case pair h =>
      rw [Variant.ofValueWithin]
      cases heap.elements? (.pair h) <;> trivial
    case vector h =>
      rw [Variant.ofValueWithin]
      cases heap.vector? h <;> trivial
    all_goals trivial
  | succ levels ih =>
    cases value
    case pair h =>
      rw [Variant.ofValueWithin]
      cases heap.elements? (.pair h) with
      | none => trivial
      | some vals => exact (Yields.mapM fun value _ => ih value).bind fun _ _ => trivial
    case vector h =>
      rw [Variant.ofValueWithin]
      cases heap.vector? h with
      | none => trivial
      | some items => exact (Yields.mapM fun value _ => ih value).bind fun _ _ => trivial
    all_goals trivial

theorem yields_hostObject (store : Store) (value : Value) :
    Yields (fun found : HostRef × HostObject => found.2 ∈ store.hosts)
      (hostObject store value) := by
  cases value
  case host ref =>
    rw [hostObject]
    cases found : store.hosts[ref.id]? with
    | none => trivial
    | some obj => exact Array.mem_of_getElem? found
  all_goals trivial

/-! ### Numbers, characters, strings and symbols -/

theorem Number.isAtom_toValue (number : Number) : number.toValue.IsAtom := by
  cases number <;> exact ⟨rfl, rfl⟩

theorem Number.yields_checked (value : Int) : Yields Any (Number.checked value) := by
  unfold Number.checked
  split <;> trivial

def Number.Computes (operation : Number → Number → Except Fault Number) : Prop :=
  ∀ left right, Yields Any (operation left right)

theorem Number.computes_combine (exact : Int → Int → Int) (inexact : Float → Float → Float) :
    Number.Computes (Number.combine exact inexact) := by
  intro left right
  cases left <;> cases right
  case integer.integer => exact Number.yields_checked _
  all_goals trivial

theorem Number.computes_div : Number.Computes Number.div := by
  intro left right
  unfold Number.div
  split
  · trivial
  · split
    · split
      · exact Number.yields_checked _
      · trivial
    · trivial

def Reckons (arity : Arity) (work : List Value → Except Fault Value) : Prop :=
  ∀ store arguments, Decides store arity arguments.length Value.IsAtom (work arguments)

variable {operation : Number → Number → Except Fault Number}

theorem Number.yields_fold (computes : Number.Computes operation) (start : Number)
    (args : List Value) : Yields Value.IsAtom (Number.fold operation start args) := by
  have total : Yields Any (args.foldlM
      (fun total argument => do operation total (← Number.ofValue argument)) start) := by
    refine Yields.foldlM trivial fun total _ argument _ => ?_
    exact (yields_number argument).bind fun number _ => computes total number
  exact total.bind fun total _ => total.isAtom_toValue

theorem Number.reckons_fold (computes : Number.Computes operation) (start : Number) :
    Reckons arity (Number.fold operation start) :=
  fun _ args => (Number.yields_fold computes start args).decides

theorem Number.reckons_foldFirst (computes : Number.Computes operation) (neutral : Number) :
    Reckons { required := 1, variadic := true } (Number.foldFirst operation neutral) := by
  intro store args
  match args with
  | [] => exact .arity rfl
  | [only] =>
    refine Yields.decides ((yields_number only).bind fun number _ => ?_)
    exact (computes neutral number).bind fun res _ => res.isAtom_toValue
  | first :: second :: rest =>
    exact Yields.decides ((yields_number first).bind fun number _ =>
      Number.yields_fold computes number (second :: rest))

theorem reckons_unary {extract : Value → Except Fault α}
    (yields : ∀ value, Yields Any (extract value)) {make : α → Value}
    (atoms : ∀ res, (make res).IsAtom) :
    Reckons { required := 1 } (unary fun argument => do return make (← extract argument)) :=
  fun _ _ => decides_unary fun argument _ => (yields argument).bind fun res _ => atoms res

theorem reckons_stringToNumber : Reckons { required := 1 } stringToNumber := by
  intro store args
  refine decides_unary fun argument _ => (yields_text argument).bind fun content _ => ?_
  split <;> exact ⟨rfl, rfl⟩

theorem reckons_integerToChar : Reckons { required := 1 } integerToChar := by
  intro store args
  refine decides_unary fun argument _ => (yields_integer argument).bind fun number _ => ?_
  dsimp only
  split
  · exact ⟨rfl, rfl⟩
  · trivial

theorem reckons_stringRef : Reckons { required := 2 } stringRef :=
  fun _ _ => decides_binary fun string place _ => (yields_text string).bind fun _ _ =>
    (yields_index _ place).bind fun _ _ => ⟨rfl, rfl⟩

theorem reckons_bytevectorRef : Reckons { required := 2 } bytevectorRef :=
  fun _ _ => decides_binary fun argument place _ => (yields_octets argument).bind fun _ _ =>
    (yields_index _ place).bind fun _ _ => ⟨rfl, rfl⟩

/-! ### What is found in good values -/

/-- `Finds arity fine work`: what the work makes of the heap and of good arguments is fine, and does
not depend on what is in closures and continuations. -/
structure Finds (arity : Arity) (fine : (Value → Prop) → α → Prop)
    (work : Heap → List Value → Except Fault α) : Prop where
  decides {store : Store} {heap : Heap} {good : Value → Prop} {arguments : List Value} :
    heap.Closed good → (∀ value ∈ arguments, good value) →
      Decides store arity arguments.length (fine good) (work heap arguments)
  blind {heap heap' : Heap} : heap.Resembles heap' → work heap' = work heap

section

variable {heap heap' : Heap} (resembles : heap.Resembles heap')

include resembles

theorem pair_blind : pair heap' = pair heap := by
  funext value
  cases value <;> simp [pair, resembles.pair]

theorem elements_blind : elements heap' = elements heap := by
  funext value
  simp [elements, resembles.elements?]

theorem items_blind : items heap' = items heap := by
  funext value
  cases value <;> simp [items, resembles.vector]

theorem appended_blind : appended heap' = appended heap := by
  funext args
  induction args with
  | nil => rfl
  | cons list lists ih =>
    cases lists with
    | nil => rfl
    | cons next lists => simp only [appended, elements_blind resembles, ih]

theorem dropPairs_blind : dropPairs heap' = dropPairs heap := by
  funext steps current
  induction steps generalizing current with
  | zero => rfl
  | succ steps ih =>
    cases current
    case pair h => simp only [dropPairs, pair_blind resembles, ih]
    all_goals rfl

theorem tailMatching_blind : tailMatching heap' = tailMatching heap := by
  funext test elements current
  induction elements generalizing current with
  | nil => rfl
  | cons element rest ih => simp only [tailMatching, pair_blind resembles, ih]

theorem entryMatching_blind : entryMatching heap' = entryMatching heap := by
  funext test entries
  induction entries with
  | nil => rfl
  | cons e rest ih => simp only [entryMatching, pair_blind resembles, ih]

end

section

variable {heap : Heap} {good : Value → Prop} {vals : List Value} {current : Value}
  (closed : heap.Closed good)

include closed

theorem yields_pair {value : Value} (value_good : good value) :
    Yields (fun halves : Value × Value => good halves.1 ∧ good halves.2) (pair heap value) := by
  cases value
  case pair h =>
    rw [pair]
    cases found : heap.pair? h with
    | none => trivial
    | some halves => exact closed.pair value_good found
  all_goals trivial

omit closed in
theorem yields_pairAt (heap : Heap) (h : Handle) :
    Yields (fun _ => ∃ car cdr, heap.get? h = some (.pair car cdr)) (pair heap (.pair h)) := by
  rw [pair]
  cases found : heap.pair? h with
  | none => trivial
  | some halves => exact ⟨_, _, Heap.pair?_eq_some_iff.mp found⟩

omit closed in
theorem yields_itemsAt (heap : Heap) (h : Handle) :
    Yields (fun content => heap.get? h = some (.vector content)) (items heap (.vector h)) := by
  rw [items]
  cases found : heap.vector? h with
  | none => trivial
  | some content => exact Heap.vector?_eq_some_iff.mp found

theorem yields_items {value : Value} (value_good : good value) :
    Yields (fun content => ∀ item ∈ content, good item) (items heap value) := by
  cases value
  case vector h =>
    rw [items]
    cases found : heap.vector? h with
    | none => trivial
    | some content => exact closed.vector value_good found
  all_goals trivial

theorem walk_good {steps : Nat} {gathered : List Value} (gathered_good : ∀ v ∈ gathered, good v)
    (current_good : good current) (walked : heap.walk gathered steps current = some vals) :
    ∀ value ∈ vals, good value := by
  fun_induction heap.walk gathered steps current with
  | case1 => cases walked
  | case2 gathered steps =>
    cases walked
    simpa using gathered_good
  | case3 gathered steps h car cdr found ih =>
    have halves := closed.pair current_good found
    exact ih (List.forall_mem_cons.mpr ⟨halves.1, gathered_good⟩) halves.2 walked
  | case4 => cases walked
  | case5 => cases walked

theorem yields_elements {value : Value} (value_good : good value) :
    Yields (fun vals => ∀ element ∈ vals, good element) (elements heap value) := by
  rw [elements]
  cases found : heap.elements? value with
  | none => trivial
  | some vals => exact walk_good closed (by simp) value_good found

theorem yields_dropPairs (steps : Nat) (current_good : good current) :
    Yields good (dropPairs heap steps current) := by
  induction steps generalizing current with
  | zero => exact current_good
  | succ steps ih =>
    cases current
    case pair h => exact (yields_pair closed current_good).bind fun _ halves => ih halves.2
    all_goals trivial

theorem yields_tailMatching (test : Value → Bool) (vals : List Value)
    (current_good : good current) : Yields good (tailMatching heap test vals current) := by
  induction vals generalizing current with
  | nil => exact closed.atom ⟨rfl, rfl⟩
  | cons element rest ih =>
    rw [tailMatching]
    split
    · exact current_good
    · exact (yields_pair closed current_good).bind fun _ halves => ih halves.2

theorem yields_entryMatching (test : Value → Bool) {entries : List Value}
    (entries_good : ∀ e ∈ entries, good e) : Yields good (entryMatching heap test entries) := by
  induction entries with
  | nil => exact closed.atom ⟨rfl, rfl⟩
  | cons e rest ih =>
    obtain ⟨entry_good, rest_good⟩ := List.forall_mem_cons.mp entries_good
    refine (yields_pair closed entry_good).bind fun halves _ => ?_
    dsimp only
    split
    · exact entry_good
    · exact ih rest_good

theorem yields_appended {args : List Value} (arguments_good : ∀ v ∈ args, good v) :
    Yields (fun joined : List Value × Value => (∀ v ∈ joined.1, good v) ∧ good joined.2)
      (appended heap args) := by
  fun_induction appended heap args with
  | case1 => exact ⟨by simp, closed.atom ⟨rfl, rfl⟩⟩
  | case2 last => exact ⟨by simp, arguments_good last (by simp)⟩
  | case3 list lists nonempty ih =>
    obtain ⟨list_good, lists_good⟩ := List.forall_mem_cons.mp arguments_good
    refine (yields_elements closed list_good).bind fun front front_good => ?_
    refine (ih lists_good).bind fun joined joined_good => ?_
    exact ⟨List.forall_mem_append.mpr ⟨front_good, joined_good.1⟩, joined_good.2⟩

end

theorem Reckons.finds {work : List Value → Except Fault Value} (reckons : Reckons arity work) :
    Finds arity (fun good => good) fun _ => work where
  decides closed _ := (reckons _ _).mono fun _ atom => closed.atom atom
  blind _ := rfl

/-- Looking at one argument and making something of what was found. -/
theorem finds_unary {look : Heap → Value → Except Fault β} {seen : (Value → Prop) → β → Prop}
    (yields : ∀ {heap : Heap} {good}, heap.Closed good → ∀ {value}, good value →
      Yields (seen good) (look heap value))
    (blind : ∀ {heap heap' : Heap}, heap.Resembles heap' → look heap' = look heap) {make : β → α}
    {fine : (Value → Prop) → α → Prop}
    (made : ∀ {heap : Heap} {good}, heap.Closed good → ∀ res, seen good res →
      fine good (make res)) :
    Finds { required := 1 } fine
      fun heap => unary fun argument => do return make (← look heap argument) where
  decides closed goods := decides_unary fun argument member =>
    (yields closed (goods argument member)).bind fun res found => made closed res found
  blind resembles := by simp only [blind resembles]

theorem finds_isList : Finds { required := 1 } (fun good => good) isList where
  decides closed _ := decides_unary fun _ _ => closed.atom ⟨rfl, rfl⟩
  blind resembles := by simp only [isList, resembles.elements?]

theorem finds_listTail : Finds { required := 2 } (fun good => good) listTail where
  decides closed goods := decides_binary fun list place shape => by
    refine (yields_integer place).bind fun number _ => ?_
    dsimp only
    split
    · trivial
    · exact yields_dropPairs closed _ (goods list (by simp [shape]))
  blind resembles := by simp only [listTail, dropPairs_blind resembles]

theorem finds_listRef : Finds { required := 2 } (fun good => good) listRef where
  decides closed goods := by
    refine (finds_listTail.decides closed goods).bind fun tail tail_good => ?_
    cases tail
    case pair h =>
      exact Yields.decides ((yields_pair closed tail_good).bind fun _ halves => halves.1)
    all_goals exact .refusal trivial
  blind resembles := by
    funext args
    simp only [listRef, finds_listTail.blind resembles, pair_blind resembles]

section

variable {same : Heap → Value → Value → Bool}
  (blind : ∀ {heap heap' : Heap}, heap.Resembles heap' → same heap' = same heap)

include blind

theorem finds_comparison :
    Finds { required := 2 } (fun good => good) (comparison same) where
  decides closed _ := decides_binary fun _ _ _ => closed.atom ⟨rfl, rfl⟩
  blind resembles := by simp only [comparison, blind resembles]

theorem finds_member : Finds { required := 2 } (fun good => good) (member same) where
  decides closed goods := decides_binary fun wanted list shape =>
    (yields_elements closed (goods list (by simp [shape]))).bind fun vals _ =>
      yields_tailMatching closed _ vals (goods list (by simp [shape]))
  blind resembles := by
    simp only [member, blind resembles, elements_blind resembles, tailMatching_blind resembles]

theorem finds_association : Finds { required := 2 } (fun good => good) (association same) where
  decides closed goods := decides_binary fun wanted list shape =>
    (yields_elements closed (goods list (by simp [shape]))).bind fun _ values_good =>
      yields_entryMatching closed _ values_good
  blind resembles := by
    simp only [association, blind resembles, elements_blind resembles,
      entryMatching_blind resembles]

end

theorem finds_vectorRef : Finds { required := 2 } (fun good => good) vectorRef where
  decides closed goods := decides_binary fun vector place shape =>
    (yields_items closed (goods vector (by simp [shape]))).bind fun content content_good =>
      (yields_index _ place).bind fun offset _ => content_good _ (Array.getElem_mem _)
  blind resembles := by simp only [vectorRef, items_blind resembles]

/-! ### Texts, lists and vectors that are made -/

abbrev All (good : Value → Prop) (values : List Value) : Prop := ∀ value ∈ values, good value

/-- A procedure that makes a text of its arguments alone. -/
theorem finds_text {work : List Value → Except Fault String}
    (decides : ∀ store args, Decides store arity args.length Any (work args)) :
    Finds arity (fun _ => Any) fun _ => work :=
  ⟨fun _ _ => decides _ _, fun _ => rfl⟩

theorem finds_makeString :
    Finds { required := 1, variadic := true } (fun _ => Any) fun _ => makeString := by
  refine finds_text fun _ args => decides_leading rfl fun size fill _ => ?_
  refine (yields_count size).bind fun _ _ => ?_
  match fill with
  | [] => trivial
  | [fill] => exact (yields_character fill).bind fun _ _ => trivial
  | _ :: _ :: _ => trivial

theorem yields_stringOf (args : List Value) : Yields Any (stringOf args) :=
  (Yields.mapM fun argument _ => yields_character argument).bind fun _ _ => trivial

theorem yields_slice (content : List Char) (start stop : Option Value) :
    Yields Any (slice content start stop) := by
  have yields_place (value : Option Value) (absent : Fin (content.length + 1)) :
      Yields Any (value.elim (.ok absent) (index (content.length + 1))) := by
    cases value with
    | none => trivial
    | some value => exact yields_index _ value
  refine (yields_place start 0).bind fun first _ => ?_
  refine (yields_place stop (Fin.last _)).bind fun last _ => ?_
  split <;> trivial

theorem finds_stringPart (some : arity.accepts 0 = false) :
    Finds arity (fun _ => Any) fun _ => stringPart := by
  refine finds_text fun _ args => decides_leading some fun string places _ => ?_
  refine (yields_text string).bind fun _ _ => ?_
  match places with
  | [] | [_] | [_, _] => exact yields_slice _ _ _
  | _ :: _ :: _ :: _ => trivial

theorem finds_listToString : Finds { required := 1 } (fun _ => Any) listToString where
  decides closed goods := decides_unary fun argument member =>
    (yields_elements closed (goods argument member)).bind fun vals _ => yields_stringOf vals
  blind resembles := by simp only [listToString, elements_blind resembles]

theorem finds_numberToString : Finds { required := 1 } (fun _ => Any) numberToString where
  decides _ _ := decides_unary fun argument _ => (yields_number argument).bind fun _ _ => trivial
  blind resembles := by simp only [numberToString, resembles.writeText]

theorem finds_stringToList : Finds { required := 1 } All fun _ => stringToList where
  decides closed _ := decides_unary fun argument _ => (yields_text argument).bind fun content _ => by
    simp only [yields_pure, List.forall_mem_map]
    exact fun _ _ => closed.atom ⟨rfl, rfl⟩
  blind _ := rfl

abbrev AllItems (good : Value → Prop) (items : Array Value) : Prop := ∀ value ∈ items, good value

theorem finds_makeVector :
    Finds { required := 1, variadic := true } AllItems fun _ => makeVector where
  decides closed goods := decides_leading rfl fun size fill shape => by
    refine (yields_count size).bind fun number _ => ?_
    match fill with
    | [] =>
      intro value member
      exact (Array.mem_replicate.mp member).2 ▸ closed.atom ⟨rfl, rfl⟩
    | [fill] =>
      intro value member
      exact (Array.mem_replicate.mp member).2 ▸ goods fill (by simp [shape])
    | _ :: _ :: _ => trivial
  blind _ := rfl

theorem finds_vectorAppend : Finds arity AllItems vectorAppend where
  decides closed goods := by
    refine Yields.decides (Yields.foldlM ?_ fun joined joined_good argument member => ?_)
    · exact fun _ member => (Array.not_mem_empty _ member).elim
    · refine (yields_items closed (goods argument member)).bind fun content content_good => ?_
      intro value member
      rcases Array.mem_append.mp member with before | added
      · exact joined_good value before
      · exact content_good value added
  blind resembles := by
    funext args
    simp only [vectorAppend, items_blind resembles]

end Stdlib

end MiniScheme
