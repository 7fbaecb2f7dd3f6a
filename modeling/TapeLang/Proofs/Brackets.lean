import TapeLang.Preparation
import TapeLang.Program.Layout

/-! Texts that are programs.

Of a text only the eight characters of commands and brackets matter (`Text.significant`). A reader
in the middle of a text has read those so far: the bodies of the open loops, each behind its bracket
(`Reader.spelled`), and every character that it accepts is one more of them or a comment
(`spelled_accept`). It goes on as long as there is an open loop for every closing bracket, so it
comes to a program exactly if the brackets of the text are balanced (`exists_acceptAll_iff`). A
program is read back from its spelling, and so from every text that spells it between comments
(`read_eq_ok_iff`), of which its layout is one (`significant_layoutOnto`). -/
namespace TapeLang

/-! ### Significant characters -/

/-- The characters of commands and brackets. -/
def Text.symbols : Text := "><+-.,[]"

/-- A text without its comments. -/
def Text.significant (s : Text) : Text := s.filter (· ∈ symbols)

def Token.symbol : Token → CodePoint
  | command c => c.symbol
  | opening => '['
  | closing => ']'

theorem Token.symbol_of_ofCodePoint? {c : CodePoint} {t : Token}
    (h : Token.ofCodePoint? c = some t) : c = t.symbol := by
  unfold ofCodePoint? at h
  split at h <;> cases h <;> rfl

theorem Token.symbol_mem (t : Token) : t.symbol ∈ Text.symbols := by
  cases t with
  | command c => cases c <;> decide
  | opening => decide
  | closing => decide

theorem Token.not_mem_of_ofCodePoint? {c : CodePoint} (h : Token.ofCodePoint? c = none) :
    c ∉ Text.symbols := by
  intro mem
  have known : ∀ c ∈ Text.symbols, (Token.ofCodePoint? c).isSome = true := by decide
  exact absurd (known c mem) (by simp [h])

namespace Text

theorem significant_nil : significant [] = [] := rfl

theorem significant_append (s s' : Text) :
    (s ++ s' : Text).significant = s.significant ++ s'.significant :=
  List.filter_append ..

theorem significant_cons (c : CodePoint) (s : Text) :
    significant (c :: s) = significant [c] ++ s.significant :=
  significant_append [c] s

theorem significant_token (t : Token) : significant [t.symbol] = [t.symbol] := by
  simp [significant, t.symbol_mem]

theorem significant_comment {c : CodePoint} (h : Token.ofCodePoint? c = none) :
    significant [c] = [] := by
  simp [significant, Token.not_mem_of_ofCodePoint? h]

/-! ### Balanced brackets -/

/-- No beginning of the text closes more brackets than it opens, and the whole text closes as many
as it opens. -/
def Balanced (s : Text) : Prop :=
  (∀ front : Text, front <+: s → front.count (.char ']') ≤ front.count (.char '[')) ∧
    s.count (.char '[') = s.count (.char ']')

/-- What balanced brackets are behind a number of open ones. -/
def Closes (s : Text) (depth : Nat) : Prop :=
  (∀ front : Text, front <+: s → front.count (.char ']') ≤ depth + front.count (.char '[')) ∧
    depth + s.count (.char '[') = s.count (.char ']')

theorem closes_zero (s : Text) : s.Closes 0 ↔ s.Balanced := by
  simp only [Closes, Balanced, Nat.zero_add]

theorem closes_nil (depth : Nat) : Closes [] depth ↔ depth = 0 := by
  simp [Closes]

theorem closes_cons (c : CodePoint) (s : Text) (depth : Nat) :
    Closes (c :: s) depth ↔
      (∀ front : Text, front <+: s →
          (c :: front).count (.char ']') ≤ depth + (c :: front).count (.char '[')) ∧
        depth + (c :: s).count (.char '[') = (c :: s).count (.char ']') := by
  refine and_congr_left fun _ => ⟨fun h front sub => ?_, fun h front sub => ?_⟩
  · exact h (c :: front) (List.cons_prefix_cons.2 ⟨rfl, sub⟩)
  · rcases List.prefix_cons_iff.1 sub with rfl | ⟨tail, rfl, rest⟩
    · exact Nat.zero_le _
    · exact h tail rest

theorem closes_other {c : CodePoint} (opens : c ≠ .char '[') (closes : c ≠ .char ']') (s : Text)
    (depth : Nat) : Closes (c :: s) depth ↔ s.Closes depth := by
  rw [closes_cons]
  simp only [List.count_cons_of_ne opens, List.count_cons_of_ne closes, Closes]

theorem closes_opening (s : Text) (depth : Nat) :
    Closes (.char '[' :: s) depth ↔ s.Closes (depth + 1) := by
  have other : CodePoint.char '[' ≠ .char ']' := by decide
  rw [closes_cons]
  simp only [List.count_cons_self, List.count_cons_of_ne other, Closes]
  simp only [Nat.add_assoc, Nat.add_comm 1]

theorem closes_closing (s : Text) (depth : Nat) :
    Closes (.char ']' :: s) depth ↔ 0 < depth ∧ s.Closes (depth - 1) := by
  have other : CodePoint.char ']' ≠ .char '[' := by decide
  rw [closes_cons]
  simp only [List.count_cons_self, List.count_cons_of_ne other, Closes]
  constructor
  · rintro ⟨fronts, total⟩
    have first := fronts [] List.nil_prefix
    simp only [List.count_nil] at first
    refine ⟨by omega, fun front sub => ?_, by omega⟩
    have := fronts front sub
    omega
  · rintro ⟨pos, fronts, total⟩
    refine ⟨fun front sub => ?_, by omega⟩
    have := fronts front sub
    omega

/-- Comments matter neither way. -/
theorem balanced_of_significant {s : Text} (h : s.significant.Balanced) : s.Balanced := by
  have same : ∀ s : Text, s.significant.count (.char ']') = s.count (.char ']') ∧
      s.significant.count (.char '[') = s.count (.char '[') :=
    fun s => ⟨List.count_filter (by decide), List.count_filter (by decide)⟩
  refine ⟨fun front sub => ?_, ?_⟩
  · have le := h.1 (significant front) (sub.filter _)
    rwa [(same front).1, (same front).2] at le
  · have total := h.2
    rwa [(same s).1, (same s).2] at total

end Text

namespace Program

/-! ### What has been read -/

theorem spelling_append (p q : Program) : spelling (p ++ q) = p.spelling ++ q.spelling := by
  induction p with
  | nil => rfl
  | leaf c rest ih => simp [ih]
  | loop body rest _ ih => simp [ih]

/-- The open loops, each as far as it was read, with a text inside the innermost one. -/
def behindLoops : List OpenLoop → Text → Text
  | [], inner => inner
  | l :: loops, inner => behindLoops loops (spelling l.before.reverse ++ .char '[' :: inner)

theorem behindLoops_append (loops : List OpenLoop) (inner more : Text) :
    behindLoops loops (inner ++ more) = behindLoops loops inner ++ more := by
  induction loops generalizing inner with
  | nil => rfl
  | cons l loops ih =>
    simp only [behindLoops, ← ih, List.append_assoc, List.cons_append]

/-- What a reader has read, without the comments. -/
def Reader.spelled (r : Reader) : Text := behindLoops r.openLoops (spelling r.built.reverse)

variable {r r' : Reader} {offset : Nat} {s : Text} {p : Program}

/-- Every character that is accepted is read, unless it is a comment. -/
theorem spelled_accept {c : CodePoint} (h : r.accept offset c = .ok r') :
    r'.spelled = r.spelled ++ Text.significant [c] := by
  obtain ⟨loops, built⟩ := r
  unfold Reader.accept at h
  split at h
  · next comment =>
    cases h
    rw [Text.significant_comment comment, List.append_nil]
  · next k token =>
    cases h
    rw [Token.symbol_of_ofCodePoint? token, Text.significant_token]
    simp only [Reader.spelled, Code.reverse_leaf, spelling_append, behindLoops_append]
    rfl
  · next token =>
    cases h
    rw [Token.symbol_of_ofCodePoint? token, Text.significant_token]
    simp only [Reader.spelled, behindLoops, behindLoops_append, Code.reverse_nil]
    rfl
  · next token =>
    split at h
    · cases h
    · next l loops hl =>
      cases h
      cases hl
      rw [Token.symbol_of_ofCodePoint? token, Text.significant_token]
      simp only [Reader.spelled, behindLoops, Code.reverse_loop, spelling_append, spelling_loop,
        ← behindLoops_append, List.append_assoc, List.cons_append]
      rfl

/-- A program that a text is read as spells what was read before it and the text. -/
theorem spelling_of_acceptAll (h : r.acceptAll offset s = .ok p) :
    p.spelling = r.spelled ++ s.significant := by
  induction s generalizing r offset with
  | nil =>
    simp only [Reader.acceptAll, Reader.finish] at h
    split at h
    · next none_open =>
      cases h
      simp only [Reader.spelled, none_open, behindLoops]
      exact (List.append_nil _).symm
    · cases h
  | cons c s ih =>
    simp only [Reader.acceptAll] at h
    split at h
    · cases h
    · next r' accepted =>
      rw [ih h, spelled_accept accepted, Text.significant_cons c s, List.append_assoc]

/-! ### Which texts are read -/

/-- **A reader comes to a program exactly if what follows closes its open loops.** -/
theorem exists_acceptAll_iff :
    (∃ p, r.acceptAll offset s = .ok p) ↔ s.Closes r.openLoops.length := by
  induction s generalizing r offset with
  | nil =>
    rw [Text.closes_nil, List.length_eq_zero_iff]
    simp only [Reader.acceptAll, Reader.finish]
    cases r.openLoops <;> simp
  | cons c s ih =>
    simp only [Reader.acceptAll, Reader.accept]
    cases token : Token.ofCodePoint? c with
    | none =>
      have comment := Token.not_mem_of_ofCodePoint? token
      have opens : c ≠ .char '[' := fun h => comment (h ▸ by decide)
      have closes : c ≠ .char ']' := fun h => comment (h ▸ by decide)
      rw [Text.closes_other opens closes]
      exact ih
    | some t =>
      rw [Token.symbol_of_ofCodePoint? token]
      cases t with
      | command k =>
        have opens : k.symbol ≠ .char '[' := by cases k <;> decide
        have closes : k.symbol ≠ .char ']' := by cases k <;> decide
        show _ ↔ Text.Closes (k.symbol :: s) _
        rw [Text.closes_other opens closes]
        exact ih
      | opening =>
        show _ ↔ Text.Closes (.char '[' :: s) _
        rw [Text.closes_opening]
        exact ih
      | closing =>
        show _ ↔ Text.Closes (.char ']' :: s) _
        rw [Text.closes_closing]
        cases r.openLoops with
        | nil => simp
        | cons l loops => simpa using ih (r := ⟨loops, .loop r.built.reverse l.before⟩)

/-! ### Programs read back -/

/-- The spelling of a program is read as that program, wherever the reader stands and whatever
follows. -/
theorem acceptAll_spellOnto (p : Program) (r : Reader) (offset : Nat) (s : Text) :
    ∃ offset', r.acceptAll offset (p.spellOnto s) =
      Reader.acceptAll ⟨r.openLoops, p.reverseOnto r.built⟩ offset' s := by
  induction p generalizing r offset s with
  | nil => exact ⟨offset, rfl⟩
  | leaf c rest ih =>
    obtain ⟨offset', read⟩ := ih ⟨r.openLoops, .leaf c r.built⟩ (offset + 1) s
    refine ⟨offset', .trans ?_ read⟩
    simp only [spellOnto, Reader.acceptAll, Reader.accept, Token.ofCodePoint?_symbol]
  | loop body rest ihb ihr =>
    obtain ⟨inside, readBody⟩ := ihb ⟨⟨offset, r.built⟩ :: r.openLoops, .nil⟩ (offset + 1)
      (.char ']' :: spellOnto rest s)
    obtain ⟨offset', readRest⟩ := ihr ⟨r.openLoops, .loop body r.built⟩ (inside + 1) s
    refine ⟨offset', .trans (.trans readBody ?_) readRest⟩
    have back : (body.reverseOnto Code.nil).reverse = body := body.reverse_reverse
    simp only [Reader.acceptAll, Reader.accept, Token.ofCodePoint?, back]

theorem read_spelling (p : Program) : read p.spelling = .ok p := by
  obtain ⟨offset, h⟩ := acceptAll_spellOnto p .start 0 []
  rw [read, spelling, h]
  exact congrArg Except.ok p.reverse_reverse

/-- **A text is read as a program exactly if the program spells it, comments aside.** -/
theorem read_eq_ok_iff : read s = .ok p ↔ p.spelling = s.significant := by
  have spells : ∀ (s : Text) (p : Program), read s = .ok p → p.spelling = s.significant :=
    fun _ _ h => spelling_of_acceptAll h
  have balances : ∀ s, (∃ p, read s = .ok p) ↔ s.Balanced :=
    fun s => exists_acceptAll_iff.trans (Text.closes_zero s)
  refine ⟨spells s p, fun same => ?_⟩
  have balanced : s.significant.Balanced := same ▸ (balances _).1 ⟨p, read_spelling p⟩
  obtain ⟨q, read_q⟩ := (balances s).2 (Text.balanced_of_significant balanced)
  have again := read_spelling q
  rw [spells s q read_q, ← same, read_spelling p] at again
  cases again
  exact read_q

/-! ### Layouts -/

theorem significant_indent (level : Nat) : (indent level).significant = [] := by
  have blank : CodePoint.char ' ' ∉ Text.symbols := by decide
  simp [Text.significant, indent, blank]

/-- A layout spells its program. -/
theorem significant_layoutOnto (level : Nat) (fresh : Bool) (p : Program) (s : Text) :
    (layoutOnto level fresh p s).significant = p.spelling ++ s.significant := by
  induction p generalizing level fresh s with
  | nil => rfl
  | leaf c rest ih =>
    have shown : Text.significant [c.symbol] = [c.symbol] := Text.significant_token (.command c)
    rw [layoutOnto, Text.significant_append, Text.significant_cons, shown, ih]
    cases fresh <;> simp [significant_indent, Text.significant_nil]
  | loop body rest ihb ihr =>
    have opening : Text.significant "[\n" = [.char '['] := by decide
    have closing : Text.significant "]\n" = [.char ']'] := by decide
    have newline : Text.significant "\n" = [] := by decide
    have empty : Text.significant "" = [] := by decide
    cases fresh <;>
      simp [layoutOnto, Text.significant_append, ihb, ihr, significant_indent, opening, closing,
        newline, empty]

end Program

/-! ### Parsing -/

theorem parse_eq_ok_iff {s : Text} {p : Program} :
    Program.parse s = .ok p ↔ Program.read s = .ok p := by
  unfold Program.parse
  cases Program.read s <;> simp

/-- **Parsing accepts exactly the balanced texts and loses nothing.** A text is parsed exactly if
its brackets are balanced; it is parsed as the one program whose spelling is the text without its
comments; and every program is parsed from its layout. -/
theorem parse_is_lossless :
    (∀ s, (∃ p, Program.parse s = .ok p) ↔ s.Balanced) ∧
      (∀ s p, Program.parse s = .ok p ↔ p.spelling = s.significant) ∧
      ∀ p : Program, Program.parse p.layout = .ok p := by
  refine ⟨fun s => ?_, fun s p => ?_, fun p => ?_⟩
  · simp only [parse_eq_ok_iff]
    exact Program.exists_acceptAll_iff.trans (Text.closes_zero s)
  · rw [parse_eq_ok_iff, Program.read_eq_ok_iff]
  · rw [parse_eq_ok_iff, Program.read_eq_ok_iff, Program.layout,
      Program.significant_layoutOnto]
    exact (List.append_nil _).symm

end TapeLang
