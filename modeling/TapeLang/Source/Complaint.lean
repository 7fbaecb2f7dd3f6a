import TapeLang.Source.Excerpt
import TapeLang.Text.Quoted

/-! Complaints about a source text.

A complaint says what is wrong, where, and shows the place; for a bracket at fault it adds
advice. -/
namespace TapeLang

structure Complaint where
  message : Text
  place : Position
  excerpt : Text
  deriving DecidableEq

namespace Complaint

def occursIn (part : Text) : Text → Bool
  | [] => part.isEmpty
  | c :: text => part.isPrefixOf (c :: text) || occursIn part text

/-- The advice for a complaint, found by what it says, whatever the case of its letters. Lowering
the ASCII letters is enough: no other character lowers to a letter of the texts looked for. -/
def advice? (complaint : Text) : Option Text :=
  let lowered := complaint.map CodePoint.toLower
  if occursIn "unmatched ']'" lowered then
    some ("Every ']' needs an earlier '[' on the same nesting level. " ++
      "Remove it or add the missing '['.")
  else if occursIn "unclosed '['" lowered then
    some "Add the missing ']' or remove the '['. Brackets inside comments count too."
  else none

/-- How many lines are shown before and after the place. -/
def around : Int := 2

/-- A complaint about an offset of a source text. -/
def make (complaint source : Text) (offset : Int) : Complaint :=
  let place := Position.locate source offset
  let excerpt := Excerpt.make (Lines.split source) place around
  let advice : Text := match advice? complaint with
    | some text => "\nHint: " ++ text
    | none => ""
  { message :=
      "ParseError: " ++ complaint ++ " (line " ++ Numeral.integer place.line ++
        ", column " ++ Numeral.integer place.column ++ ")\n" ++ excerpt ++ advice
    place
    excerpt }

/-- The complaint about an offset, unless the caret under it cannot be shown. -/
def ofOffset (complaint source : Text) (offset : Int) : Except Excerpt.CaretFault Complaint :=
  (Excerpt.ofPlace (Lines.split source) (Position.locate source offset) around).map fun _ =>
    make complaint source offset

def record (c : Complaint) : Text :=
  "ParseError(message=" ++ Quoted.quote c.message ++ ", line=" ++
    Numeral.integer c.place.line ++ ", column=" ++ Numeral.integer c.place.column ++
    ", context=" ++ Quoted.quote c.excerpt ++ ")"

end Complaint

end TapeLang
