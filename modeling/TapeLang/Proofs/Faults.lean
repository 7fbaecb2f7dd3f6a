import TapeLang.Preparation
import TapeLang.Proofs.Brackets
import TapeLang.Proofs.Nesting
import TapeLang.Proofs.Places

/-! Which bracket a complaint is about.

The open loops of a reader stand at the brackets that are open in the text read so far
(`opened_accept`). So the reader stops at the first closing bracket too many, or at the end with the
last opening bracket that has no partner (`fault_of_read`), and the line and the column of the
complaint are those of that bracket and of no other character (`complaint_points_at_bracket`). -/
namespace TapeLang

/-- The bracket that a fault is about. -/
def BracketFault.bracket : BracketFault → CodePoint
  | unmatched _ => ']'
  | unclosed _ => '['

namespace Text

/-- With the character at a place, more brackets have been closed than opened. -/
abbrev OverclosedAt (s : Text) (n : Nat) : Prop := Overclosed (.char '[') (.char ']') s n

/-- At a place there is an opening bracket that no closing one matches. -/
abbrev UnclosedAt (s : Text) (n : Nat) : Prop :=
  s[n]? = some (.char '[') ∧ ∀ j, ¬ Matching (.char '[') (.char ']') s n j

/-- The places where brackets are open at the end of a text, last first. -/
abbrev OpenedAt (s : Text) (places : List Nat) : Prop := Opened (.char '[') (.char ']') places s

end Text

/-- What a fault says about a text: at its offset, for the first time, more has been closed than
opened, or there the last bracket stands that is never closed. -/
def BracketFault.Of (s : Text) : BracketFault → Prop
  | unmatched offset => IsLeast {n | s.OverclosedAt n} offset
  | unclosed offset => (∀ n, ¬ s.OverclosedAt n) ∧ IsGreatest {n | s.UnclosedAt n} offset

/-- What a complaint begins with: what is wrong, and the line and the column. -/
def Complaint.heading (words : Text) (place : Position) : Text :=
  "ParseError: " ++ words ++ " (line " ++ Numeral.integer place.line ++ ", column " ++
    Numeral.integer place.column ++ ")\n"

/-- A complaint begins with the given words, at its line and column. -/
def Complaint.Tells (c : Complaint) (words : Text) : Prop := heading words c.place <+: c.message

namespace Program
variable {r r' : Reader} {front rest s : Text} {c : CodePoint} {f : BracketFault}

/-! ### Open loops -/

theorem other_brackets : CodePoint.char '[' ≠ .char ']' := by decide

/-- The open loops are where brackets are open. -/
theorem opened_accept
    (opened : front.OpenedAt (r.openLoops.map (·.offset)))
    (h : r.accept front.length c = .ok r') :
    Text.OpenedAt (front ++ [c]) (r'.openLoops.map (·.offset)) := by
  obtain ⟨loops, built⟩ := r
  unfold Reader.accept at h
  split at h
  · next comment =>
    cases h
    exact opened.append (nested_other (fun same => nomatch same ▸ comment)
      fun same => nomatch same ▸ comment)
  · next k command =>
    cases h
    exact opened.append (nested_other (fun same => nomatch same ▸ command)
      fun same => nomatch same ▸ command)
  · next token =>
    cases h
    cases Token.symbol_of_ofCodePoint? token
    exact opened.opening
  · next token =>
    cases Token.symbol_of_ofCodePoint? token
    split at h
    · cases h
    · next l loops hl =>
      cases h
      cases hl
      exact opened.closing other_brackets

theorem fault_of_accept {offset : Nat} (h : r.accept offset c = .error f) :
    f = .unmatched offset ∧ c = .char ']' ∧ r.openLoops = [] := by
  unfold Reader.accept at h
  split at h
  · cases h
  · cases h
  · cases h
  · next token =>
    split at h
    · next none_open =>
      cases h
      exact ⟨rfl, Token.symbol_of_ofCodePoint? token, none_open⟩
    · cases h

/-- Where a reader stops in the rest of a text is what is wrong with the whole text. -/
theorem fault_of_acceptAll
    (opened : front.OpenedAt (r.openLoops.map (·.offset)))
    (h : r.acceptAll front.length rest = .error f) :
    f.Of (front ++ rest) ∧ (front ++ rest)[f.offset]? = some f.bracket := by
  induction rest generalizing r front with
  | nil =>
    obtain ⟨_ | ⟨l, loops⟩, built⟩ := r
    · cases h
    · cases h
      rw [List.append_nil]
      have last := opened.isGreatest other_brackets
      exact ⟨⟨opened.not_overclosed other_brackets, last⟩, last.1.1⟩
  | cons c rest ih =>
    simp only [Reader.acceptAll] at h
    split at h
    · next fault stopped =>
      cases h
      obtain ⟨rfl, rfl, none_open⟩ := fault_of_accept stopped
      rw [none_open] at opened
      have least := Nested.isLeast_overclosed opened other_brackets rest
      exact ⟨least, by simp [BracketFault.offset, BracketFault.bracket]⟩
    · next r' accepted =>
      have next := ih (opened_accept opened accepted)
      simp only [List.length_append, List.length_singleton, List.append_assoc,
        List.singleton_append] at next
      exact next h

/-- **A text that cannot be read has the fault that is reported.** -/
theorem fault_of_read (h : read s = .error f) : f.Of s ∧ s[f.offset]? = some f.bracket := by
  have start : Text.OpenedAt [] (Reader.start.openLoops.map (·.offset)) := nested_nil
  exact fault_of_acceptAll start h

end Program

/-! ### Complaints -/

theorem BracketFault.tells_complaint (s : Text) (f : BracketFault) :
    (f.complaint s).Tells f.words :=
  ⟨_, (List.append_assoc _ _ _).symm⟩

/-- A text that cannot be read is complained about. -/
theorem read_of_parse {s : Text} {e : Error} (h : Program.parse s = .error e) :
    ∃ f, Program.read s = .error f ∧ e = .source (f.complaint s) := by
  unfold Program.parse at h
  split at h
  · cases h
  · next f fault =>
    cases h
    exact ⟨f, fault, rfl⟩

/-- The line and the column of a complaint show the bracket at fault, and no others do. -/
theorem shows_bracket_iff {s : Text} {f : BracketFault} (h : Program.read s = .error f)
    (place : Position) : place.Shows s f.offset f.bracket ↔ place = (f.complaint s).place := by
  have visible : f.bracket ≠ .char '\n' := by cases f <;> exact of_decide_eq_true rfl
  rw [Position.shows_iff visible]
  exact and_iff_right (Program.fault_of_read h).2

/-- **A complaint points at the right bracket.** Whatever is wrong with a text that cannot be
parsed, it is complained about: if some beginning of it closes more than it opens, a bracket is said
to be unmatched, and it is the first one with which this happens; otherwise a bracket is said to be
unclosed, and it is the last opening one that has no partner. The line and the column given are the
only ones that show the bracket where it stands. -/
theorem complaint_points_at_bracket {s : Text} {e : Error} (h : Program.parse s = .error e) :
    ∃ c offset, e = .source c ∧
      ((∃ n, s.OverclosedAt n) →
        c.Tells "Unmatched ']'" ∧ IsLeast {n | s.OverclosedAt n} offset ∧
          ∀ place : Position, place.Shows s offset ']' ↔ place = c.place) ∧
      ((∀ n, ¬ s.OverclosedAt n) →
        c.Tells "Unclosed '['" ∧ IsGreatest {n | s.UnclosedAt n} offset ∧
          ∀ place : Position, place.Shows s offset '[' ↔ place = c.place) := by
  obtain ⟨f, fault, rfl⟩ := read_of_parse h
  obtain ⟨holds, -⟩ := Program.fault_of_read fault
  have tells := f.tells_complaint s
  have shows := shows_bracket_iff fault
  refine ⟨_, f.offset, rfl, ?_, ?_⟩
  · intro closed
    obtain ⟨n, more⟩ := closed
    cases f with
    | unmatched offset => exact ⟨tells, holds, shows⟩
    | unclosed offset => exact (holds.1 n more).elim
  · intro none_over
    cases f with
    | unmatched offset => exact (none_over offset holds.1).elim
    | unclosed offset => exact ⟨tells, holds.2, shows⟩

/-- Two brackets are never closed here. The second one is named, which is not the last bracket. -/
theorem complaint_points_at_bracket_secondLine :
    ∃ c offset, Program.parse "[.] a\n[ [+[->] " = .error (.source c) ∧ c.place = ⟨2, 3⟩ ∧
      c.Tells "Unclosed '['" ∧ ∀ place : Position,
        place.Shows "[.] a\n[ [+[->] " offset '[' ↔ place = c.place := by
  obtain ⟨c, offset, same, -, unclosed⟩ := complaint_points_at_bracket
    (s := "[.] a\n[ [+[->] ") (e := .source (BracketFault.complaint _ (.unclosed 8))) rfl
  cases same
  have fault : Program.read "[.] a\n[ [+[->] " = .error (.unclosed 8) := rfl
  obtain ⟨tells, -, shows⟩ := unclosed (Program.fault_of_read fault).1.1
  exact ⟨_, offset, rfl, rfl, tells, shows⟩

end TapeLang
