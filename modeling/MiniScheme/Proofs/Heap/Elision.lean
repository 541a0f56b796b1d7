import MiniScheme.Proofs.Heap.Limits
import MiniScheme.Proofs.Heap.Printing
import Mathlib.Data.Finset.SDiff

/-!
# What printing elides

Printing can be told as a process with one state: it counts the levels it is nested in, collects the
objects it is inside of, and takes note of those that it elides. Nothing bounds the process. Still it
comes to an end on every heap, since levels are counted and a list can only be followed through pairs
that are not among the objects collected. In the end the state is as before but for the text, so
objects are elided for two reasons alone: they contain themselves, or too many levels are around them.
-/

namespace MiniScheme

/-- The value is the pair or vector behind the handle. -/
def Value.IsAt (value : Value) (handle : Handle) : Prop :=
  value = .pair handle ∨ value = .vector handle

/-- The levels that what stands behind a pair is below its list. -/
def Value.behind : Value → Nat
  | .pair _ => 0
  | _ => 1

/-- The state of printing: the levels it is nested in, the objects it is inside of, the text so far
and the objects that were elided. -/
structure Printer where
  depth : Nat := 0
  path : Finset Handle := ∅
  out : String := ""
  elided : List Handle := []

namespace Printer

def write (printer : Printer) (text : String) : Printer :=
  { printer with out := printer.out ++ text }

/-- Writes an ellipsis in place of an object. -/
def elide (printer : Printer) (ellipsis : String) (handle : Handle) : Printer :=
  { printer.write ellipsis with elided := handle :: printer.elided }

def enter (printer : Printer) (handle : Handle) : Printer :=
  { printer with path := insert handle printer.path }

def begin (printer : Printer) (opening : String) : Printer :=
  { printer.write opening with depth := printer.depth + 1 }

/-- Ends a list or vector, and leaves the objects that were entered for it. -/
def finish (printer : Printer) (entered : Finset Handle) : Printer :=
  { printer.write ")" with depth := printer.depth - 1, path := printer.path \ entered }

end Printer

/-- What is printed: a value, the items of a vector, or the rest of a list from a value on, with the
pairs that were entered for it. -/
inductive Task where
  | value (value : Value)
  | items (items : List Value)
  | rest (entered : Finset Handle) (first : Bool) (current : Value)

namespace Heap

/-- Printing takes the printer from one state to another. -/
inductive Shows (heap : Heap) (style : Style) : Printer → Task → Printer → Prop where
  | atom {printer : Printer} {value : Value} (flat : ∀ handle, ¬value.IsAt handle) :
      Shows heap style printer (.value value) (printer.write (value.atomText style))
  | deep {printer : Printer} {value : Value} {handle : Handle} (refers : value.IsAt handle)
      (full : maxPrintDepth ≤ printer.depth) :
      Shows heap style printer (.value value) (printer.elide "..." handle)
  | vectorAgain {printer : Printer} {handle : Handle} (room : printer.depth < maxPrintDepth)
      (inside : handle ∈ printer.path) :
      Shows heap style printer (.value (.vector handle)) (printer.elide "..." handle)
  | vector {printer after : Printer} {handle : Handle} (room : printer.depth < maxPrintDepth)
      (outside : handle ∉ printer.path)
      (items : Shows heap style ((printer.begin "#(").enter handle)
        (.items ((heap.vector? handle).getD #[]).toList) after) :
      Shows heap style printer (.value (.vector handle)) (after.finish {handle})
  | list {printer after : Printer} {handle : Handle} (room : printer.depth < maxPrintDepth)
      (spine : Shows heap style (printer.begin "(") (.rest ∅ true (.pair handle)) after) :
      Shows heap style printer (.value (.pair handle)) after
  | noItem {printer : Printer} : Shows heap style printer (.items []) printer
  | lastItem {printer after : Printer} {item : Value}
      (last : Shows heap style printer (.value item) after) :
      Shows heap style printer (.items [item]) after
  | item {printer middle after : Printer} {item next : Value} {items : List Value}
      (first : Shows heap style printer (.value item) middle)
      (others : Shows heap style (middle.write " ") (.items (next :: items)) after) :
      Shows heap style printer (.items (item :: next :: items)) after
  | nil {printer : Printer} {entered : Finset Handle} {first : Bool} :
      Shows heap style printer (.rest entered first .emptyList) (printer.finish entered)
  | pairAgain {printer : Printer} {entered : Finset Handle} {first : Bool} {handle : Handle}
      (inside : handle ∈ printer.path) :
      Shows heap style printer (.rest entered first (.pair handle))
        ((printer.elide (if first then "..." else " ...") handle).finish entered)
  | dangling {printer : Printer} {entered : Finset Handle} {first : Bool} {handle : Handle}
      (outside : handle ∉ printer.path) (gone : heap.pair? handle = none) :
      Shows heap style printer (.rest entered first (.pair handle))
        ((printer.enter handle).finish (insert handle entered))
  | pair {printer middle after : Printer} {entered : Finset Handle} {first : Bool}
      {handle : Handle} {car cdr : Value} (outside : handle ∉ printer.path)
      (held : heap.pair? handle = some (car, cdr))
      (element : Shows heap style ((printer.enter handle).write (if first then "" else " "))
        (.value car) middle)
      (others : Shows heap style middle (.rest (insert handle entered) false cdr) after) :
      Shows heap style printer (.rest entered first (.pair handle)) after
  | tail {printer after : Printer} {entered : Finset Handle} {first : Bool} {tail : Value}
      (ends : ∀ handle, tail ≠ .pair handle) (more : tail ≠ .emptyList)
      (last : Shows heap style (printer.write " . ") (.value tail) after) :
      Shows heap style printer (.rest entered first tail) (after.finish entered)

variable {heap : Heap} {style : Style} {printer after : Printer} {v : Value}
  {vals : List Value} {handle h outer : Handle} {path : Finset Handle} {depth inner : Nat}

/-! ### What a print comes to -/

/-- A pair or vector has a value as a part, with so many levels in between. A list goes on through
its pairs, so a part is one level below it unless it is the rest of the list. -/
inductive Part (heap : Heap) : Value → Value → Nat → Prop where
  | car {handle : Handle} {car cdr : Value} (held : heap.pair? handle = some (car, cdr)) :
      Part heap (.pair handle) car 1
  | cdr {handle : Handle} {car cdr : Value} (held : heap.pair? handle = some (car, cdr)) :
      Part heap (.pair handle) cdr cdr.behind
  | item {handle : Handle} {items : Array Value} {item : Value}
      (held : heap.vector? handle = some items) (member : item ∈ items) :
      Part heap (.vector handle) item 1

/-- A value is inside of another with so many lists and vectors around it. -/
inductive Inside (heap : Heap) (inner : Value) : Value → Nat → Prop where
  | self : Inside heap inner inner 0
  | part {outer part : Value} {between levels : Nat} (has : heap.Part outer part between)
      (inside : Inside heap inner part levels) : Inside heap inner outer (levels + between)

/-- The object contains itself: it is inside of one of its parts. -/
def ContainsItself (heap : Heap) (handle : Handle) : Prop :=
  ∃ outer part inner between levels, outer.IsAt handle ∧ inner.IsAt handle ∧
    heap.Part outer part between ∧ heap.Inside inner part levels

/-- Why an object may be elided when these values are printed: it contains itself, or it is inside
of one of them, and printing is inside of it already or it is nested too deep. -/
def Elidable (heap : Heap) (depth : Nat) (path : Finset Handle) (values : List Value)
    (handle : Handle) : Prop :=
  heap.ContainsItself handle ∨ ∃ value ∈ values, ∃ inner levels, inner.IsAt handle ∧
    heap.Inside inner value levels ∧ (handle ∈ path ∨ maxPrintDepth ≤ depth + levels)

/-- An object that is elided among the parts of another one contains that one, or has the same reason
to be elided from outside. -/
theorem Elidable.enter (elidable : heap.Elidable inner (insert outer path) vals h)
    (refers : v.IsAt outer)
    (each : ∀ part ∈ vals, ∃ between, heap.Part v part between ∧ inner ≤ depth + between) :
    heap.Elidable depth path [v] h := by
  rcases elidable with cyclic | ⟨part, mem, found, levels, at_handle, inside, why⟩
  · exact .inl cyclic
  · obtain ⟨between, has, fewer⟩ := each part mem
    have nested := Inside.part has inside
    rcases why with mem | deep
    · rcases Finset.mem_insert.mp mem with rfl | before
      · exact .inl ⟨v, part, found, between, levels, refers, at_handle, has, inside⟩
      · exact .inr ⟨v, List.mem_singleton_self v, found, _, at_handle, nested, .inl before⟩
    · exact .inr ⟨v, List.mem_singleton_self v, found, _, at_handle, nested, .inr (by omega)⟩

theorem Elidable.mono {more : List Value} (elidable : heap.Elidable inner path vals h)
    (fewer : inner ≤ depth) (among : vals ⊆ more) : heap.Elidable depth path more h := by
  refine elidable.imp_right fun ⟨value, mem, found, levels, at_handle, inside, why⟩ =>
    ⟨value, among mem, found, levels, at_handle, inside, why.imp_right fun deep => ?_⟩
  omega

theorem elidable_self (refers : v.IsAt h) (why : h ∈ path ∨ maxPrintDepth ≤ depth)
    (elided : List Handle) (other : Handle) (mem : other ∈ h :: elided) :
    other ∈ elided ∨ heap.Elidable depth path [v] other := by
  rcases List.mem_cons.mp mem with rfl | before
  · exact .inr (.inr ⟨v, List.mem_singleton_self v, v, 0, refers, .self, why⟩)
  · exact .inl before

/-- What printing these values leaves behind: the levels it is nested in and the objects it is inside
of, the text, and objects that were elided with reason. -/
structure Outcome (heap : Heap) (printer : Printer) (levels : Nat) (around : Finset Handle)
    (text : Path → String) (below : Nat) (values : List Value) (after : Printer) : Prop where
  depth : after.depth = levels
  path : after.path = around
  out (path : Path) : (∀ handle, path.contains handle = true ↔ handle ∈ printer.path) →
    after.out = text path
  elided (handle : Handle) : handle ∈ after.elided →
    handle ∈ printer.elided ∨ heap.Elidable (levels + below) printer.path values handle

/-- The outcome of printing. Along a list as many steps are needed as there are slots, less those
with objects that printing is inside of. -/
def Meets (heap : Heap) (style : Style) (printer after : Printer) : Task → Prop
  | .value value => heap.Outcome printer printer.depth printer.path
      (fun path => heap.print style (maxPrintDepth - printer.depth) path printer.out value)
      0 [value] after
  | .items values => heap.Outcome printer printer.depth printer.path
      (fun path => printItems (heap.print style (maxPrintDepth - printer.depth) path)
        printer.out values)
      0 values after
  | .rest entered first current => ∀ steps,
      heap.slots.size < steps + (printer.path.filter (heap.isLive ·)).card →
      heap.Outcome printer (printer.depth - 1) (printer.path \ entered)
        (fun path => heap.printSpine (heap.print style (maxPrintDepth - printer.depth)) steps path
          first printer.out current ++ ")")
        current.behind [current] after

/-- The objects that printing is inside of are the same after one more is entered. -/
theorem contains_insert_iff {path : Path} {entered : Finset Handle}
    (same : ∀ h, path.contains h = true ↔ h ∈ entered) (other : Handle) :
    (path.insert h).contains other = true ↔ other ∈ insert h entered := by
  rw [Std.TreeSet.contains_insert, Bool.or_eq_true, same, beq_iff_eq, Handle.compare_eq_iff,
    Finset.mem_insert, eq_comm]

/-- No more live objects can be entered than there are slots. -/
theorem card_live_le (heap : Heap) (path : Finset Handle) :
    (path.filter (heap.isLive ·)).card ≤ heap.slots.size := by
  rw [← Finset.card_range heap.slots.size]
  refine Finset.card_le_card_of_injOn Handle.index ?_ ?_
  · intro h mem
    obtain ⟨obj, held⟩ := isLive_iff.mp (Finset.mem_filter.mp mem).2
    obtain ⟨slot, found, -⟩ := get?_eq_some_iff.mp held
    exact Finset.mem_coe.mpr (Finset.mem_range.mpr (lt_size found))
  · intro h mem other mem' same
    obtain ⟨obj, held⟩ := isLive_iff.mp (Finset.mem_filter.mp mem).2
    obtain ⟨obj', held'⟩ := isLive_iff.mp (Finset.mem_filter.mp mem').2
    exact eq_of_index_eq held held' same

theorem card_live_insert {car cdr : Value} (outside : h ∉ path)
    (held : heap.pair? h = some (car, cdr)) :
    ((insert h path).filter (heap.isLive ·)).card = (path.filter (heap.isLive ·)).card + 1 := by
  have live := isLive_iff.mpr ⟨_, pair?_eq_some_iff.mp held⟩
  rw [Finset.filter_insert, if_pos live, Finset.card_insert_of_notMem]
  exact fun mem => outside (Finset.mem_filter.mp mem).1

theorem exists_step {steps : Nat}
    (enough : heap.slots.size < steps + (path.filter (heap.isLive ·)).card) :
    ∃ fewer, steps = fewer + 1 := by
  have few := heap.card_live_le path
  exact Nat.exists_eq_add_one.mpr (by omega)

theorem insert_sdiff_insert {entered : Finset Handle} (outside : h ∉ path) :
    insert h path \ insert h entered = path \ entered := by
  grind

theorem sub_depth (room : printer.depth < maxPrintDepth) :
    maxPrintDepth - printer.depth = maxPrintDepth - (printer.depth + 1) + 1 := by
  omega

theorem part_of_mem_vector {item : Value}
    (mem : item ∈ ((heap.vector? h).getD #[]).toList) : heap.Part (.vector h) item 1 := by
  cases held : heap.vector? h with
  | none => simp [held] at mem
  | some xs => exact .item held (by simpa [held] using mem)

theorem Shows.meets {task : Task} (shows : heap.Shows style printer task after) :
    heap.Meets style printer after task := by
  induction shows with
  | @atom printer v flat =>
    refine ⟨rfl, rfl, fun path _ => ?_, fun _ => .inl⟩
    cases v with
    | pair h => exact absurd (.inl rfl) (flat h)
    | vector h => exact absurd (.inr rfl) (flat h)
    | _ => simp only [print]; rfl
  | @deep printer v _ refers full =>
    refine ⟨rfl, rfl, fun path _ => ?_, elidable_self refers (.inr full) _⟩
    rw [Nat.sub_eq_zero_of_le full]
    rcases refers with rfl | rfl <;> rfl
  | @vectorAgain _ h room inside =>
    refine ⟨rfl, rfl, fun path same => ?_, elidable_self (.inr rfl) (.inl inside) _⟩
    rw [sub_depth room, print, if_pos ((same _).mpr inside)]
    rfl
  | @vector printer after h room outside _ out =>
    refine ⟨Nat.sub_eq_of_eq_add out.depth, ?_, fun path same => ?_, fun other mem => ?_⟩
    · have path : after.path = insert h printer.path := out.path
      rw [Printer.finish, path, Finset.sdiff_singleton_eq_erase, Finset.erase_insert outside]
    · have text := out.out _ (contains_insert_iff same)
      rw [sub_depth room, print, if_neg (mt (same _).mp outside)]
      exact congrArg (· ++ ")") text
    · exact (out.elided other mem).imp_right fun elidable => elidable.enter (.inr rfl)
        fun part mem => ⟨1, part_of_mem_vector mem, le_rfl⟩
  | list room _ ih =>
    have out := ih (heap.slots.size + 2) (by omega)
    refine ⟨out.depth, out.path.trans Finset.sdiff_empty, fun path same => ?_, out.elided⟩
    rw [sub_depth room, print]
    exact out.out path same
  | noItem => exact ⟨rfl, rfl, fun _ _ => rfl, fun _ => .inl⟩
  | lastItem _ out => exact ⟨out.depth, out.path, out.out, out.elided⟩
  | @item printer mid _ item _ _ _ _ head rest =>
    have depth : (mid.write " ").depth = printer.depth := head.depth
    have path : (mid.write " ").path = printer.path := head.path
    refine ⟨rest.depth.trans depth, rest.path.trans path, fun tree same => ?_, fun other mem => ?_⟩
    · rw [rest.out tree (path ▸ same), depth, Printer.write, head.out tree same]
      rfl
    · rcases rest.elided other mem with before | elidable
      · exact (head.elided other before).imp_right fun elidable =>
          elidable.mono le_rfl (List.cons_subset_cons item (List.nil_subset _))
      · rw [path, depth] at elidable
        exact .inr (elidable.mono le_rfl (List.subset_cons_self ..))
  | nil =>
    intro steps enough
    obtain ⟨steps, rfl⟩ := exists_step enough
    exact ⟨rfl, rfl, fun _ _ => rfl, fun _ => .inl⟩
  | pairAgain inside =>
    intro steps enough
    obtain ⟨steps, rfl⟩ := exists_step enough
    refine ⟨rfl, rfl, fun path same => ?_, elidable_self (.inl rfl) (.inl inside) _⟩
    rw [printSpine, if_pos ((same _).mpr inside)]
    rfl
  | dangling outside gone =>
    intro steps enough
    obtain ⟨steps, rfl⟩ := exists_step enough
    refine ⟨rfl, insert_sdiff_insert outside, fun path same => ?_, fun _ => .inl⟩
    rw [printSpine, if_neg (mt (same _).mp outside), gone]
    rfl
  | @pair printer mid _ _ first h _ cdr outside held _ _ head ih =>
    intro steps enough
    obtain ⟨steps, rfl⟩ := exists_step enough
    have path : mid.path = insert h printer.path := head.path
    have depth : mid.depth = printer.depth := head.depth
    have live := card_live_insert outside held
    have rest := ih steps (by rw [path, live]; omega)
    refine ⟨depth ▸ rest.depth, rest.path.trans (path ▸ insert_sdiff_insert outside),
      fun tree same => ?_, fun other mem => ?_⟩
    · have text := head.out _ (contains_insert_iff same)
      rw [rest.out _ (path ▸ contains_insert_iff same), text, depth, printSpine,
        if_neg (mt (same _).mp outside), held]
      cases first with
      | true => rw [Printer.write, if_pos rfl, String.append_empty]; rfl
      | false => rfl
    · rcases rest.elided other mem with before | elidable
      · refine (head.elided other before).imp_right fun elidable =>
          elidable.enter (.inl rfl) (List.forall_mem_singleton.mpr ⟨1, .car held, ?_⟩)
        exact Nat.le_add_of_sub_le le_rfl
      · rw [path, depth] at elidable
        exact .inr (elidable.enter (.inl rfl)
          (List.forall_mem_singleton.mpr ⟨cdr.behind, .cdr held, le_rfl⟩))
  | @tail _ _ _ _ tail ends more _ out =>
    intro steps enough
    obtain ⟨steps, rfl⟩ := exists_step enough
    refine ⟨congrArg (· - 1) out.depth, congrArg (· \ _) out.path, fun path same => ?_,
      fun other mem => ?_⟩
    · have text := out.out path same
      rw [printSpine]
      · exact congrArg (· ++ ")") text
      · exact more
      · exact ends
    · refine (out.elided other mem).imp_right fun elidable =>
        elidable.mono ?_ (List.Subset.refl _)
      rw [Value.behind.eq_2 tail ends]
      exact Nat.le_add_of_sub_le le_rfl

/-! ### Printing ends -/

section

variable {depth : Nat} (each : ∀ printer : Printer, printer.depth = depth → ∀ v,
  ∃ after, heap.Shows style printer (.value v) after)
include each

theorem exists_shows_items (here : printer.depth = depth) (vals : List Value) :
    ∃ after, heap.Shows style printer (.items vals) after := by
  induction vals generalizing printer with
  | nil => exact ⟨printer, .noItem⟩
  | cons item xs ih =>
    obtain ⟨mid, first⟩ := each printer here item
    cases xs with
    | nil => exact ⟨mid, .lastItem first⟩
    | cons next xs =>
      have depth : mid.depth = printer.depth := first.meets.depth
      obtain ⟨after, others⟩ := @ih (mid.write " ") (depth.trans here)
      exact ⟨after, .item first others⟩

theorem exists_shows_rest {steps : Nat} (here : printer.depth = depth)
    (enough : heap.slots.size < steps + (printer.path.filter (heap.isLive ·)).card)
    (entered : Finset Handle) (first : Bool) (current : Value) :
    ∃ after, heap.Shows style printer (.rest entered first current) after := by
  induction steps generalizing printer entered first current with
  | zero =>
    obtain ⟨_, same⟩ := exists_step enough
    cases same
  | succ steps ih =>
    by_cases paired : ∃ h, current = .pair h
    · obtain ⟨h, rfl⟩ := paired
      by_cases inside : h ∈ printer.path
      · exact ⟨_, .pairAgain inside⟩
      · cases held : heap.pair? h with
        | none => exact ⟨_, .dangling inside held⟩
        | some parts =>
          obtain ⟨mid, element⟩ :=
            each ((printer.enter h).write (if first then "" else " ")) here parts.1
          have depth : mid.depth = printer.depth := element.meets.depth
          have path : mid.path = insert h printer.path := element.meets.path
          have live := card_live_insert inside held
          obtain ⟨after, others⟩ := ih (depth.trans here) (by rw [path, live]; omega)
            (insert h entered) false parts.2
          exact ⟨after, .pair inside held element others⟩
    · by_cases empty : current = .emptyList
      · subst empty
        exact ⟨_, .nil⟩
      · obtain ⟨after, last⟩ := each (printer.write " . ") here current
        exact ⟨_, .tail (fun h same => paired ⟨h, same⟩) empty last⟩

end

/-- Printing ends: there are only so many levels, and on each of them a list is only followed
through objects that were not entered before. -/
theorem exists_shows (heap : Heap) (style : Style) (printer : Printer) (v : Value) :
    ∃ after, heap.Shows style printer (.value v) after := by
  induction room : maxPrintDepth - printer.depth generalizing printer v with
  | zero =>
    by_cases compound : ∃ h, v.IsAt h
    · obtain ⟨h, refers⟩ := compound
      exact ⟨_, .deep refers (Nat.sub_eq_zero_iff_le.mp room)⟩
    · exact ⟨_, .atom (not_exists.mp compound)⟩
  | succ levels ih =>
    have shallow : printer.depth < maxPrintDepth := by omega
    have each (inner : Printer) (here : inner.depth = printer.depth + 1) (v : Value) :
        ∃ after, heap.Shows style inner (.value v) after := ih inner v (by omega)
    by_cases compound : ∃ h, v.IsAt h
    · obtain ⟨h, rfl | rfl⟩ := compound
      · obtain ⟨after, spine⟩ := @exists_shows_rest heap style (printer.begin "(") _ each
          (heap.slots.size + 1) rfl (by omega) ∅ true (.pair h)
        exact ⟨after, .list shallow spine⟩
      · by_cases inside : h ∈ printer.path
        · exact ⟨_, .vectorAgain shallow inside⟩
        · obtain ⟨after, xs⟩ := @exists_shows_items heap style
            ((printer.begin "#(").enter h) _ each rfl ((heap.vector? h).getD #[]).toList
          exact ⟨_, .vector shallow inside xs⟩
    · exact ⟨_, .atom (not_exists.mp compound)⟩

/-- The text of a value in the notation of a style. -/
def text (heap : Heap) : Style → Value → String
  | .write => heap.writeText
  | .display => heap.displayText

/-- Printing ends on every heap, with the levels it is nested in and the objects it is inside of as
they were. Starting inside of nothing it comes to the text of the value, in which the only objects
elided are those that contain themselves and those with too many levels around them. -/
theorem printing_ends (heap : Heap) (style : Style) :
    (∀ printer value, ∃ after, heap.Shows style printer (.value value) after) ∧
    (∀ printer value after, heap.Shows style printer (.value value) after →
      after.depth = printer.depth ∧ after.path = printer.path) ∧
    ∀ value after, heap.Shows style {} (.value value) after →
      after.out = heap.text style value ∧
      ∀ handle ∈ after.elided, heap.ContainsItself handle ∨
        ∃ inner levels, inner.IsAt handle ∧ heap.Inside inner value levels ∧
          maxPrintDepth ≤ levels := by
  refine ⟨heap.exists_shows style, fun printer value after shows => ?_, fun value after shows => ?_⟩
  · exact ⟨shows.meets.depth, shows.meets.path⟩
  · have outcome := shows.meets
    refine ⟨?_, fun handle member => ?_⟩
    · rw [outcome.out {} (by simp)]
      cases style <;> rfl
    · refine ((outcome.elided handle member).resolve_left List.not_mem_nil).imp_right ?_
      rintro ⟨_, inside_value, inner, levels, refers, inside, why⟩
      obtain rfl := List.mem_singleton.mp inside_value
      have deep := why.resolve_left (Finset.notMem_empty handle)
      exact ⟨inner, levels, refers, inside, (Nat.zero_add levels) ▸ deep⟩

end Heap

end MiniScheme
