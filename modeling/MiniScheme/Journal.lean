/-!
# What a run leaves behind

Scripts print text, and the program notes what it is doing. A `Journal` keeps both, in order, so
that running stays a function. Notes more detailed than the journal asks for are never worded.
-/

namespace MiniScheme

/-- How detailed a note is. -/
inductive Detail where
  | info
  | debug
  | trace
  deriving DecidableEq, Repr, Inhabited

/-- The rank of a level of detail. -/
def Detail.rank : Detail → Nat
  | .info => 0
  | .debug => 1
  | .trace => 2

def Detail.heading : Detail → String
  | .info => "INFO"
  | .debug => "DEBUG"
  | .trace => "TRACE"

/-- A note on what happened. -/
structure Note where
  detail : Detail
  message : String
  deriving DecidableEq, Repr, Inhabited

def Note.text (note : Note) : String :=
  note.detail.heading ++ " " ++ note.message

/-- Printed text and notes. -/
structure Journal where
  /-- The most detailed notes that are kept. -/
  detail : Detail := .info
  printed : String := ""
  notes : Array Note := #[]
  deriving DecidableEq, Repr, Inhabited

namespace Journal

def keeps (journal : Journal) (detail : Detail) : Bool :=
  detail.rank ≤ journal.detail.rank

/-- Adds a note, if notes of its detail are kept. -/
@[inline] def note (journal : Journal) (detail : Detail) (message : Unit → String) : Journal :=
  if journal.keeps detail then
    { journal with notes := journal.notes.push { detail, message := message () } }
  else journal

def print (journal : Journal) (text : String) : Journal :=
  { journal with printed := journal.printed ++ text }

/-- The journal without its contents. -/
def clear (journal : Journal) : Journal :=
  { detail := journal.detail }

end Journal

end MiniScheme
