import MiniScheme.Proofs.Datum.Alike
import MiniScheme.Proofs.Reading.Acceptance
import MiniScheme.Proofs.Reading.Legible

/-!
# Reading what was printed

The text of a datum that was read is read as the same datum. Printing, scanning and reading meet in
the tokens of a datum: `Datum.kinds` lists them, the text of the datum is scanned as these, and a
reader that has room for the datum makes the datum of them again. Floating-point numbers are left
out, as their digits are another matter.
-/

namespace MiniScheme

/-! ### The tokens of a datum -/

/-- The tokens that an atom is written with. -/
def Atom.kinds : Atom → List TokenKind
  | .boolean value => [.boolean value]
  | .integer value => [.integer value]
  | .float value => [.float value]
  | .character value => [.character value]
  | .string value => [.string value]
  | .symbol name => [.identifier name]
  | .bytes value => .openBytes :: value.flatMap (fun byte => [.integer (.ofNat byte.toNat)]) ++ [.close]

namespace Datum

mutual

/-- The tokens that a datum is written with. -/
def kinds : Datum → List TokenKind
  | .atom value _ => value.kinds
  | .list items _ => .openList :: itemsKinds items ++ [.close]
  | .dotted items tail _ => .openList :: itemsKinds items ++ .dot :: tail.kinds ++ [.close]
  | .vector items _ => .openVector :: itemsKinds items ++ [.close]

def itemsKinds : List Datum → List TokenKind
  | [] => []
  | item :: items => item.kinds ++ itemsKinds items

end

mutual

/-- There is no floating-point number in the datum. -/
def floatless : Datum → Bool
  | .atom (.float _) _ => false
  | .atom _ _ => true
  | .list items _ => itemsFloatless items
  | .dotted items tail _ => itemsFloatless items && tail.floatless
  | .vector items _ => itemsFloatless items

/-- There is no floating-point number in the data. -/
def itemsFloatless : List Datum → Bool
  | [] => true
  | item :: items => item.floatless && itemsFloatless items

end

theorem itemsKinds_eq (xs : List Datum) : itemsKinds xs = xs.flatMap kinds := by
  induction xs with
  | nil => rfl
  | cons item xs ih => rw [itemsKinds, ih, List.flatMap_cons]

theorem itemsText_eq (xs : List Datum) : itemsText xs = " ".intercalate (xs.map text) := by
  induction xs with
  | nil => rfl
  | cons item xs ih =>
    cases xs with
    | nil => rw [itemsText, List.map_singleton, String.intercalate_singleton]
    | cons next xs =>
      rw [List.map_cons, List.map_cons, String.intercalate_cons_cons, ← List.map_cons, ← ih]
      rfl

theorem floatless_of_mem {xs : List Datum} (floatless : itemsFloatless xs = true)
    {item : Datum} (mem : item ∈ xs) : item.floatless = true := by
  induction xs with
  | nil => cases mem
  | cons first xs ih =>
    rw [itemsFloatless, Bool.and_eq_true] at floatless
    rcases List.mem_cons.mp mem with rfl | mem
    · exact floatless.1
    · exact ih floatless.2 mem

end Datum

/-! ### Scanning -/

variable {α : Type} {text : α → String} {kinds : α → List TokenKind} {rest : List Char} {room : Nat}

/-- Texts with single blanks between them are scanned one after the other. -/
theorem lexes_separated {xs : List α} (some_item : xs ≠ [])
    (each : ∀ item ∈ xs, ∀ rest, Delimited rest →
      Lexes ((text item).toList ++ rest) (kinds item) rest) (delimited : Delimited rest) :
    Lexes ((" ".intercalate (xs.map text)).toList ++ rest) (xs.flatMap kinds) rest := by
  induction xs with
  | nil => exact absurd rfl some_item
  | cons item xs ih =>
    have here := each item List.mem_cons_self
    cases xs with
    | nil =>
      rw [List.map_singleton, String.intercalate_singleton, List.flatMap_singleton]
      exact here rest delimited
    | cons next xs =>
      have others := ih (List.cons_ne_nil _ _) fun item mem =>
        each item (List.mem_cons_of_mem _ mem)
      rw [List.map_cons, List.map_cons, String.intercalate_cons_cons, ← List.map_cons,
        List.flatMap_cons, String.toList_append, String.toList_append, List.append_assoc,
        List.append_assoc]
      exact (here _ (delimited_cons rfl _)).append others.blank

theorem lexes_close (rest : List Char) : Lexes ([')'] ++ rest) [.close] rest :=
  .one ⟨rfl, by decide, nofun⟩ rfl ⟨nofun, nofun⟩

/-- What stands between an opening token and the closing one. -/
theorem lexes_enclosed {xs : List α} {opening : List Char} {kind : TokenKind}
    (opens : ∀ rest, Lexes (opening ++ rest) [kind] rest)
    (each : ∀ item ∈ xs, ∀ rest, Delimited rest →
      Lexes ((text item).toList ++ rest) (kinds item) rest) :
    Lexes (opening ++ ((" ".intercalate (xs.map text)).toList ++ ')' :: rest))
      (kind :: xs.flatMap kinds ++ [.close]) rest := by
  have first := opens ((" ".intercalate (xs.map text)).toList ++ ')' :: rest)
  cases xs with
  | nil => exact first.append (lexes_close rest)
  | cons item xs =>
    have inner := lexes_separated (List.cons_ne_nil _ _) each (delimited_cons (c := ')') rfl rest)
    exact first.append (inner.append (lexes_close rest))

theorem lexes_openList (rest : List Char) : Lexes (['('] ++ rest) [.openList] rest :=
  .one ⟨rfl, by decide, nofun⟩ rfl ⟨nofun, nofun⟩

theorem lexes_byte (byte : UInt8) (rest : List Char) (delimited : Delimited rest) :
    Lexes ((toString byte.toNat).toList ++ rest) [.integer (.ofNat byte.toNat)] rest := by
  have bound : byte.toNat < 2 ^ 63 := Nat.lt_trans byte.toNat_lt (by decide)
  have v : (Int64.ofNat byte.toNat).toInt = byte.toNat := Int64.toInt_ofNat_of_lt bound
  have least : Int64.ofNat byte.toNat ≠ Int64.minValue := by
    intro least
    rw [least] at v
    have bottom : Int64.minValue.toInt = -(2 ^ 63) := by decide
    omega
  have lexes := lexes_integer least delimited
  rw [v] at lexes
  exact lexes

/-- The text of an atom is scanned as the tokens of the atom. -/
theorem lexes_atom {v : Atom} (legible : v.Legible room) {pos : Position}
    (floatless : (Datum.atom v pos).floatless = true) (delimited : Delimited rest) :
    Lexes (v.text.toList ++ rest) v.kinds rest := by
  cases v with
  | boolean v => exact lexes_boolean v delimited
  | integer v => exact lexes_integer legible delimited
  | float v => cases floatless
  | character v => exact lexes_character v delimited
  | string v => exact lexes_string v rest
  | symbol name => exact lexes_identifier legible delimited
  | bytes v =>
    rw [Atom.text, bytesText, String.toList_append, String.toList_append, List.append_assoc,
      List.append_assoc]
    exact lexes_enclosed (fun _ => .one ⟨rfl, by decide, nofun⟩ rfl ⟨nofun, nofun⟩)
      fun byte _ => lexes_byte byte

/-- The text of a datum is scanned as the tokens of the datum. -/
theorem lexes_text {d : Datum} (legible : d.Legible room)
    (floatless : d.floatless = true) (delimited : Delimited rest) :
    Lexes (d.text.toList ++ rest) d.kinds rest := by
  induction legible generalizing rest with
  | atom legible => exact lexes_atom legible floatless delimited
  | list _ ih | vector _ ih =>
    rw [Datum.floatless] at floatless
    rw [Datum.text, Datum.itemsText_eq, Datum.kinds, Datum.itemsKinds_eq, String.toList_append,
      String.toList_append, List.append_assoc, List.append_assoc]
    exact lexes_enclosed (fun _ => .one ⟨rfl, by decide, nofun⟩ rfl ⟨nofun, nofun⟩)
      fun item mem rest => ih item mem (Datum.floatless_of_mem floatless mem)
  | @dotted _ xs tail _ _ _ some_item _ ih ih' =>
    rw [Datum.floatless, Bool.and_eq_true] at floatless
    have inner := lexes_separated some_item (fun item mem rest =>
      ih item mem (Datum.floatless_of_mem floatless.1 mem))
      (delimited_cons (c := ' ') rfl ('.' :: ' ' :: (tail.text.toList ++ ')' :: rest)))
    have last := ih' floatless.2 (delimited_cons (c := ')') rfl rest)
    have whole := (lexes_openList _).append
      (inner.append ((lexes_dot _).append (last.blank.append (lexes_close rest))))
    rw [← Datum.itemsText_eq, ← Datum.itemsKinds_eq] at whole
    simpa [Datum.text, Datum.kinds] using whole

/-! ### Reading -/

namespace Reader

open Grammar

variable {src : Source} {tokens : List Token} {v : Atom} {pos : Position} {datum d : Datum}
  {xs : List Datum}

/-- `Delivers source room kinds datum`: where `room` levels may be opened, tokens of these kinds are
read as a datum that is the same as the given one. -/
def Delivers (source : Source) (room : Nat) (kinds : List TokenKind) (datum : Datum) : Prop :=
  ∀ tokens : List Token, tokens.map Token.kind = kinds →
    ∃ copy, copy.same datum = true ∧ Leads source room tokens (.datum copy)

theorem delivers_items (each : ∀ item ∈ xs, Delivers src room item.kinds item)
    (same : tokens.map Token.kind = Datum.itemsKinds xs) :
    ∃ copies, Datum.sameItems copies xs = true ∧ Leads src room tokens (.items copies) := by
  induction xs generalizing tokens with
  | nil =>
    rw [Datum.itemsKinds, List.map_eq_nil_iff] at same
    subst same
    exact ⟨[], rfl, leads_none⟩
  | cons item xs ih =>
    rw [Datum.itemsKinds, List.map_eq_append_iff] at same
    obtain ⟨first, second, rfl, same, same'⟩ := same
    obtain ⟨each, others⟩ := List.forall_mem_cons.mp each
    obtain ⟨copy, alike, leads⟩ := each first same
    obtain ⟨copies, alikes, leads'⟩ := ih others same'
    refine ⟨copy :: copies, ?_, leads_append (leads_singleton leads) leads'⟩
    rw [Datum.sameItems, alike, alikes]
    rfl

theorem atom_same {pos' : Position} (floatless : (Datum.atom v pos).floatless = true) :
    (Datum.atom v pos').same (.atom v pos) = true := by
  rw [Datum.same]
  cases v with
  | float => cases floatless
  | _ v => exact beq_self_eq_true v

/-- The tokens between an opening one and the closing one. -/
theorem exists_enclosed {opening : TokenKind} {kinds : List TokenKind}
    (same : tokens.map Token.kind = opening :: kinds ++ [.close]) :
    ∃ first inner last, tokens = first :: (inner ++ [] ++ [last]) ∧ first.kind = opening ∧
      inner.map Token.kind = kinds ∧ last.kind = .close := by
  obtain ⟨first, others, rfl, opens, following⟩ := List.map_eq_cons_iff.mp same
  obtain ⟨inner, ending, rfl, within, closes⟩ := List.map_eq_append_iff.mp following
  obtain ⟨last, rfl, closed⟩ := List.map_eq_singleton_iff.mp closes
  exact ⟨first, inner, last, by rw [List.append_nil], opens, within, closed⟩

theorem leads_ofBytes {v : List UInt8} (same : tokens.map Token.kind =
      v.flatMap fun byte => [.integer (.ofNat byte.toNat)]) :
    ∃ xs, List.Forall₂ Datum.IsByte v xs ∧ Leads src (room + 1) tokens (.items xs) := by
  induction v generalizing tokens with
  | nil =>
    rw [List.flatMap_nil, List.map_eq_nil_iff] at same
    subst same
    exact ⟨[], .nil, leads_none⟩
  | cons byte v ih =>
    rw [List.flatMap_cons, List.singleton_append] at same
    obtain ⟨token, others, rfl, kind, following⟩ := List.map_eq_cons_iff.mp same
    obtain ⟨xs, small, leads⟩ := ih following
    have bound := byte.toNat_lt
    have integer : token.kind.atom? = some (.integer (.ofNat byte.toNat)) := by rw [kind]; rfl
    exact ⟨_ :: xs, .cons ⟨_, _, rfl, Int64.toInt_ofNat_of_lt (by omega)⟩ small,
      leads_append (leads_singleton (leads_atom integer)) leads⟩

theorem delivers_atom (legible : v.Legible room) (floatless : (Datum.atom v pos).floatless = true) :
    Delivers src (room + 1) v.kinds (.atom v pos) := by
  intro tokens same
  cases v with
  | float => cases floatless
  | bytes v =>
    obtain ⟨first, inner, last, rfl, opens, within, closes⟩ := exists_enclosed same
    refine ⟨.atom (.bytes v) (placeOf src first), atom_same floatless, ?_⟩
    cases room with
    | succ room =>
      obtain ⟨xs, small, leads⟩ := leads_ofBytes within
      exact leads_bytes leads leads_nothing opens small closes
    | zero =>
      -- There is no room for bytes, so there are none.
      have empty : v = [] := by
        by_contra some_byte
        exact absurd (legible some_byte) (Nat.lt_irrefl 0)
      rw [empty, List.flatMap_nil, List.map_eq_nil_iff] at within
      subst empty within
      exact leads_bytes leads_none leads_nothing opens .nil closes
  | _ =>
    obtain ⟨token, rfl, kind⟩ := List.map_eq_singleton_iff.mp same
    exact ⟨_, atom_same floatless, leads_atom (by rw [kind]; rfl)⟩

theorem elements?_same {copy : Datum} (alike : copy.same d = true)
    (atomic : d.elements? = none) : copy.elements? = none := by
  match copy, d with
  | .atom _ _, _ => rfl
  | .vector _ _, _ => rfl
  | .list _ _, .list _ _ => cases atomic
  | .dotted _ _ _, .dotted _ _ _ => cases atomic

theorem delivers_dotted {tail : Datum}
    (each : ∀ item ∈ xs, Delivers src room item.kinds item) (some_item : xs ≠ [])
    (last : Delivers src room tail.kinds tail) (atomic : tail.elements? = none) :
    Delivers src (room + 1) (Datum.dotted xs tail pos).kinds (.dotted xs tail pos) := by
  intro tokens same
  rw [Datum.kinds, List.append_assoc, List.cons_append] at same
  obtain ⟨first, others, rfl, opens, following⟩ := List.map_eq_cons_iff.mp same
  obtain ⟨inner, others, rfl, within, following⟩ := List.map_eq_append_iff.mp following
  obtain ⟨dot, others, rfl, dots, following⟩ := List.map_eq_cons_iff.mp following
  obtain ⟨ending, others, rfl, within_tail, close⟩ := List.map_eq_append_iff.mp following
  obtain ⟨closing, rfl, closes⟩ := List.map_eq_singleton_iff.mp close
  obtain ⟨copies, alikes, leads⟩ := delivers_items each within
  obtain ⟨copy, alike, behind⟩ := last ending within_tail
  have some_copy : copies ≠ [] := by
    rintro rfl
    cases xs with
    | nil => exact some_item rfl
    | cons => cases alikes
  have whole := leads_dotted leads leads_nothing opens some_copy dots behind leads_nothing closes
  rw [Datum.withTail_of_elements? some_copy (elements?_same alike atomic)] at whole
  refine ⟨.dotted copies copy (placeOf src first), ?_, by simpa using whole⟩
  rw [Datum.same, alikes, alike]
  rfl

theorem delivers_kinds (legible : d.Legible room) (floatless : d.floatless = true) :
    Delivers src room d.kinds d := by
  induction legible with
  | atom legible => exact delivers_atom legible floatless
  | list _ ih =>
    intro tokens same
    obtain ⟨first, inner, last, rfl, opens, within, closes⟩ := exists_enclosed same
    obtain ⟨copies, alike, leads⟩ := delivers_items (fun item mem =>
      ih item mem (Datum.floatless_of_mem floatless mem)) within
    exact ⟨.list copies _, alike, leads_list leads leads_nothing opens closes⟩
  | vector _ ih =>
    intro tokens same
    obtain ⟨first, inner, last, rfl, opens, within, closes⟩ := exists_enclosed same
    obtain ⟨copies, alike, leads⟩ := delivers_items (fun item mem =>
      ih item mem (Datum.floatless_of_mem floatless mem)) within
    exact ⟨.vector copies _, alike, leads_vector leads leads_nothing opens closes⟩
  | dotted _ _ some_item atomic ih ih' =>
    rw [Datum.floatless, Bool.and_eq_true] at floatless
    exact delivers_dotted
      (fun item mem => ih item mem (Datum.floatless_of_mem floatless.1 mem)) some_item
      (ih' floatless.2) atomic

end Reader

theorem Cursor.items_nil (loc : Location) : (Cursor.mk [] loc).items = [] := by
  rw [Cursor.items]
  rfl

/-- The text of a datum that was read is read as that datum, wherever its parts stand. -/
theorem read_datum_text {source : Source} {data : List Datum} (found : read source = .ok data)
    {datum : Datum} (member : datum ∈ data) (floatless : datum.floatless = true)
    (name : Option String) :
    ∃ copy, read { text := datum.text, name } = .ok [copy] ∧ copy.same datum = true := by
  have legible := legible_read found datum member
  obtain ⟨tokens, location, kinds, scanned⟩ := lexes_text legible floatless delimited_nil 0 {}
  have scanned : tokenize datum.text = tokens.map .ok := by
    rw [tokenize, Cursor.ofString]
    rw [Cursor.items_nil, List.append_nil, List.append_nil] at scanned
    exact scanned
  have delivers : Reader.Delivers { text := datum.text, name } Reader.maxDepth datum.kinds datum :=
    Reader.delivers_kinds legible floatless
  obtain ⟨copy, alike, leads⟩ := delivers tokens kinds
  refine ⟨copy, ?_, alike⟩
  rcases leads {} trivial [] with ran | ⟨deep, -⟩
  · rw [List.append_nil] at ran
    rw [read, readUpToError, scanned, ran]
    rfl
  · exact absurd deep (by simp)

def reprints (text printed : String) : Bool :=
  match read { text, name := none } with
  | .ok [datum] => datum.floatless && datum.text == printed
  | _ => false

/-- `'(a #u8(1 255) #\x0 . "b")`, which is printed without abbreviations. -/
theorem read_datum_text_quoted : ∃ datum copy,
    read { text := "'(a #u8(1 255) #\\x0 . \"b\")", name := none } = .ok [datum] ∧
      datum.text = "(quote (a #u8(1 255) #\\nul . \"b\"))" ∧
      read { text := datum.text, name := none } = .ok [copy] ∧ copy.same datum = true := by
  have answer : reprints "'(a #u8(1 255) #\\x0 . \"b\")"
      "(quote (a #u8(1 255) #\\nul . \"b\"))" = true := by
    decide +kernel
  unfold reprints at answer
  split at answer
  next datum found =>
    rw [Bool.and_eq_true, beq_iff_eq] at answer
    obtain ⟨copy, copied, alike⟩ := read_datum_text found List.mem_cons_self answer.1 none
    exact ⟨datum, copy, found, answer.2, copied, alike⟩
  next => cases answer

end MiniScheme
