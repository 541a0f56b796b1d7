import MiniScheme.Datum
import Mathlib.Data.List.Basic

/-!
# The grammar of data

Which tokens are written for which data, apart from how they are read. A datum starts with any number
of datum comments, each of which drops the datum behind it. Such comments are also allowed in front of
a dot, in front of a closing token and at the end of a text.
-/

namespace MiniScheme

/-- The atom that a token of that kind stands for on its own. -/
def TokenKind.atom? : TokenKind → Option Atom
  | .identifier name => some (.symbol name)
  | .boolean value => some (.boolean value)
  | .integer value => some (.integer value)
  | .float value => some (.float value)
  | .character value => some (.character value)
  | .string value => some (.string value)
  | _ => none

/-- The keyword that a token of that kind abbreviates. -/
def TokenKind.keyword? : TokenKind → Option String
  | .quoteMark => some "quote"
  | .backQuote => some "quasiquote"
  | .comma => some "unquote"
  | .commaAt => some "unquote-splicing"
  | _ => none

/-- The datum is an integer with the value of the byte. -/
def Datum.IsByte (byte : UInt8) (datum : Datum) : Prop :=
  ∃ value position, datum = .atom (.integer value) position ∧ value.toInt = byte.toNat

namespace Grammar

/-- What a sequence of tokens can amount to. -/
inductive Phrase where
  | datum (datum : Datum)
  /-- Data one after the other. -/
  | items (items : List Datum)
  /-- Datum comments one after the other. -/
  | comments

def placeOf (source : Source) (token : Token) : Position :=
  { source := some source, location := token.location }

/-- `Derives source phrase tokens`: the tokens are written for the phrase. A datum has the position of
its first token that is not part of a comment. -/
inductive Derives (source : Source) : Phrase → List Token → Prop where
  | atom {token : Token} {value : Atom} (stands : token.kind.atom? = some value) :
      Derives source (.datum (.atom value (placeOf source token))) [token]
  | mark {token : Token} {keyword : String} {datum : Datum} {tokens : List Token}
      (abbreviates : token.kind.keyword? = some keyword)
      (marked : Derives source (.datum datum) tokens) :
      Derives source (.datum (.list [.ofSymbol keyword (placeOf source token), datum]
        (placeOf source token))) (token :: tokens)
  | list {opening closing : Token} {items : List Datum} {tokens comments : List Token}
      (opens : opening.kind = .openList) (inside : Derives source (.items items) tokens)
      (dropped : Derives source .comments comments) (closes : closing.kind = .close) :
      Derives source (.datum (.list items (placeOf source opening)))
        (opening :: (tokens ++ comments ++ [closing]))
  /-- A list or dotted list behind the dot is flattened. -/
  | dotted {opening dot closing : Token} {items : List Datum} {tail : Datum}
      {tokens comments ending comments' : List Token} (opens : opening.kind = .openList)
      (inside : Derives source (.items items) tokens) (some_item : items ≠ [])
      (dropped : Derives source .comments comments) (dots : dot.kind = .dot)
      (behind : Derives source (.datum tail) ending)
      (dropped' : Derives source .comments comments') (closes : closing.kind = .close) :
      Derives source (.datum (.withTail items tail (placeOf source opening)))
        (opening :: (tokens ++ comments ++ dot :: (ending ++ comments' ++ [closing])))
  | vector {opening closing : Token} {items : List Datum} {tokens comments : List Token}
      (opens : opening.kind = .openVector) (inside : Derives source (.items items) tokens)
      (dropped : Derives source .comments comments) (closes : closing.kind = .close) :
      Derives source (.datum (.vector items (placeOf source opening)))
        (opening :: (tokens ++ comments ++ [closing]))
  | bytes {opening closing : Token} {items : List Datum} {bytes : List UInt8}
      {tokens comments : List Token} (opens : opening.kind = .openBytes)
      (inside : Derives source (.items items) tokens)
      (small : List.Forall₂ Datum.IsByte bytes items)
      (dropped : Derives source .comments comments) (closes : closing.kind = .close) :
      Derives source (.datum (.atom (.bytes bytes) (placeOf source opening)))
        (opening :: (tokens ++ comments ++ [closing]))
  /-- A datum behind comments. -/
  | behind {datum : Datum} {comments tokens : List Token}
      (dropped : Derives source .comments comments)
      (written : Derives source (.datum datum) tokens) :
      Derives source (.datum datum) (comments ++ tokens)
  | none : Derives source (.items []) []
  | snoc {items : List Datum} {datum : Datum} {tokens tokens' : List Token}
      (front : Derives source (.items items) tokens)
      (last : Derives source (.datum datum) tokens') :
      Derives source (.items (items ++ [datum])) (tokens ++ tokens')
  | nothing : Derives source .comments []
  | comment {token : Token} {datum : Datum} {comments tokens : List Token}
      (front : Derives source .comments comments) (comments_out : token.kind = .datumComment)
      (dropped : Derives source (.datum datum) tokens) :
      Derives source .comments (comments ++ token :: tokens)

/-- The tokens are written for a text: data, and possibly comments behind them. -/
def DerivesText (source : Source) (data : List Datum) (tokens : List Token) : Prop :=
  ∃ front comments, tokens = front ++ comments ∧ Derives source (.items data) front ∧
    Derives source .comments comments

section

variable {src : Source} {phrase : Phrase} {d : Datum} {comments tokens tokens' : List Token}

theorem Derives.append_comments (front : Derives src .comments comments)
    (back : Derives src .comments tokens) : Derives src .comments (comments ++ tokens) := by
  generalize whole : Phrase.comments = phrase at back
  induction back with
  | nothing => rwa [List.append_nil]
  | comment _ comments_out dropped ih =>
    rw [← List.append_assoc]
    exact .comment (ih rfl) comments_out dropped
  | _ => cases whole

/-- Comments that are followed by a datum may follow data. -/
theorem Derives.snoc_behind {xs : List Datum} (front : Derives src (.items xs.reverse) tokens)
    (dropped : Derives src .comments comments) (last : Derives src (.datum d) tokens') :
    Derives src (.items (d :: xs).reverse) (tokens ++ comments ++ tokens') := by
  rw [List.reverse_cons, List.append_assoc]
  exact .snoc front (.behind dropped last)

end

end Grammar

end MiniScheme
