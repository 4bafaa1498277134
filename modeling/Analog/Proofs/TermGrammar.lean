import Analog.Term.Reader
import Mathlib.Data.List.TakeWhile

/-!
# The grammar of terms

A text spells terms by five rules: blanks and comments mean nothing, a symbol is a longest run of
characters without a delimiter, and a pair of brackets encloses terms. The rules give every term
the span at which it stands. Reading is followed one token at a time here, and yields what the
grammar says and nothing else.
-/

set_option autoImplicit false

namespace Analog

open Text

def Bracket.opening : Bracket → Char
  | .round => '('
  | .square => '['

def Bracket.closing : Bracket → Char
  | .round => ')'
  | .square => ']'

namespace LocatedTerm

def enclosed (bracket : Bracket) (span : Span) (elements : List LocatedTerm) : LocatedTerm :=
  match bracket with
  | .round => .list span elements
  | .square => .array span elements

end LocatedTerm

structure IsWord (chars : List Char) : Prop where
  notEmpty : chars ≠ []
  free : ∀ char ∈ chars, Term.isDelimiter char = false

def Delimits (rest : List Char) : Prop :=
  ∀ char ∈ rest.head?, Term.isDelimiter char = true

/-- The characters spell the terms, if the first of them stands at the given position. -/
inductive Spelling : Nat → List Char → List LocatedTerm → Prop
  | nothing {start : Nat} : Spelling start [] []
  | blank {start : Nat} {char : Char} {rest : List Char} {terms : List LocatedTerm} :
      isBlank char = true → Spelling (start + 1) rest terms → Spelling start (char :: rest) terms
  | comment {start : Nat} {body rest : List Char} {terms : List LocatedTerm} :
      '\n' ∉ body → Spelling (start + body.length + 2) rest terms →
      Spelling start (';' :: (body ++ '\n' :: rest)) terms
  | symbol {start : Nat} {word rest : List Char} {terms : List LocatedTerm} :
      IsWord word → Delimits rest → Spelling (start + word.length) rest terms →
      Spelling start (word ++ rest)
        (.symbol ⟨start, start + word.length⟩ (String.ofList word) :: terms)
  | enclosed {start : Nat} {inner rest : List Char} {elements terms : List LocatedTerm}
      (bracket : Bracket) : Spelling (start + 1) inner elements →
      Spelling (start + inner.length + 2) rest terms →
      Spelling start (bracket.opening :: (inner ++ bracket.closing :: rest))
        (.enclosed bracket ⟨start, start + inner.length + 2⟩ elements :: terms)

/-- Nothing, or a comment that is ended by the text and not by a line end. -/
def LastComment (chars : List Char) : Prop :=
  chars = [] ∨ ∃ body, chars = ';' :: body ∧ '\n' ∉ body

def Spells (chars : List Char) (terms : List LocatedTerm) : Prop :=
  ∃ body last, chars = body ++ last ∧ Spelling 0 body terms ∧ LastComment last

theorem delimits_nil : Delimits [] := by
  simp [Delimits]

theorem delimits_cons_iff (char : Char) (rest : List Char) :
    Delimits (char :: rest) ↔ Term.isDelimiter char = true := by
  simp [Delimits]

/-- What begins a text that begins with a delimiter begins with one itself. -/
theorem Delimits.of_append {before after : List Char} (delimits : Delimits (before ++ after)) :
    Delimits before := by
  cases before with
  | nil => exact delimits_nil
  | cons char rest => exact (delimits_cons_iff char rest).2 ((delimits_cons_iff char _).1 delimits)

theorem Delimits.append {before after : List Char} (delimits : Delimits before)
    (afterDelimits : Delimits after) : Delimits (before ++ after) := by
  cases before with
  | nil => exact afterDelimits
  | cons char rest => exact (delimits_cons_iff char _).2 ((delimits_cons_iff char rest).1 delimits)

theorem LastComment.delimits {last : List Char} (comment : LastComment last) : Delimits last := by
  rcases comment with rfl | ⟨body, rfl, _⟩
  · exact delimits_nil
  · exact (delimits_cons_iff _ _).2 rfl

theorem Bracket.closing_delimiter (bracket : Bracket) : Term.isDelimiter bracket.closing = true := by
  cases bracket <;> rfl

theorem delimiter_cases {char : Char} (delimiter : Term.isDelimiter char = true) :
    (∃ bracket : Bracket, char = bracket.opening) ∨ (∃ bracket : Bracket, char = bracket.closing) ∨
      char = ';' ∨ isBlank char = true := by
  simp only [Term.isDelimiter, Bool.or_eq_true, beq_iff_eq] at delimiter
  rcases delimiter with ((((round | roundEnd) | square) | squareEnd) | comment) | blank
  · exact .inl ⟨.round, round⟩
  · exact .inr (.inl ⟨.round, roundEnd⟩)
  · exact .inl ⟨.square, square⟩
  · exact .inr (.inl ⟨.square, squareEnd⟩)
  · exact .inr (.inr (.inl comment))
  · exact .inr (.inr (.inr blank))

/-- Every text that does not begin with a delimiter begins with a symbol. -/
theorem word_at_start {char : Char} (free : Term.isDelimiter char = false) (rest : List Char) :
    ∃ word after, char :: rest = word ++ after ∧ IsWord word ∧ Delimits after := by
  refine ⟨(char :: rest).takeWhile (!Term.isDelimiter ·),
    (char :: rest).dropWhile (!Term.isDelimiter ·), List.takeWhile_append_dropWhile.symm, ⟨?_, ?_⟩, ?_⟩
  · simp [free]
  · intro other member
    simpa using List.mem_takeWhile_imp member
  · intro other found
    have ends := List.head?_dropWhile_not (!Term.isDelimiter ·) (char :: rest)
    rw [Option.mem_def.1 found] at ends
    simpa using ends

/-- Every comment runs to a line end or to the end of the text. -/
theorem comment_at_start (rest : List Char) :
    '\n' ∉ rest ∨ ∃ body after, rest = body ++ '\n' :: after ∧ '\n' ∉ body := by
  by_cases ended : '\n' ∈ rest
  · obtain ⟨body, after, split, first⟩ := List.eq_append_cons_of_mem ended
    exact .inr ⟨body, after, split, first⟩
  · exact .inl ended

/-- A text is read in pieces: blanks, comments, brackets and symbols. -/
theorem text_induction {motive : List Char → Prop} (nothing : motive [])
    (blank : ∀ char rest, isBlank char = true → motive rest → motive (char :: rest))
    (comment : ∀ body rest, '\n' ∉ body → motive rest → motive (';' :: (body ++ '\n' :: rest)))
    (last : ∀ body, '\n' ∉ body → motive (';' :: body))
    (opening : ∀ (bracket : Bracket) rest, motive rest → motive (bracket.opening :: rest))
    (closing : ∀ (bracket : Bracket) rest, motive rest → motive (bracket.closing :: rest))
    (symbol : ∀ word rest, IsWord word → Delimits rest → motive rest → motive (word ++ rest))
    (chars : List Char) : motive chars := by
  induction length : chars.length using Nat.strongRecOn generalizing chars with
  | ind total ih =>
      subst length
      cases chars with
      | nil => exact nothing
      | cons char rest =>
          cases delimiter : Term.isDelimiter char with
          | false =>
              obtain ⟨word, after, split, isWord, delimits⟩ := word_at_start delimiter rest
              rw [split]
              have shorter : after.length < (char :: rest).length := by
                have positive := List.length_pos_iff.2 isWord.notEmpty
                rw [split, List.length_append]
                omega
              exact symbol word after isWord delimits (ih _ shorter after rfl)
          | true =>
              have tail : motive rest := ih _ (by simp) rest rfl
              rcases delimiter_cases delimiter with ⟨bracket, rfl⟩ | ⟨bracket, rfl⟩ | rfl | isBlank
              · exact opening bracket rest tail
              · exact closing bracket rest tail
              · rcases comment_at_start rest with unended | ⟨body, after, rfl, unended⟩
                · exact last rest unended
                · refine comment body after unended (ih _ ?_ after rfl)
                  simp only [List.length_cons, List.length_append]
                  omega
              · exact blank char rest isBlank tail

namespace Token

/-! What becomes of the next character in each mode. -/

theorem scan_between (start : Nat) (char : Char) (rest : List Char) :
    scanFrom .blank start (char :: rest) =
      if char = ';' then scanFrom .comment (start + 1) rest
      else if isBlank char then scanFrom .blank (start + 1) rest
      else match bracket? char start with
        | some token => token :: scanFrom .blank (start + 1) rest
        | none => scanFrom (.symbol start [char]) (start + 1) rest := by
  cases found : bracket? char start <;> simp [scanFrom, found, Mode.finish]

theorem scan_within_comment (start : Nat) (char : Char) (rest : List Char) :
    scanFrom .comment start (char :: rest) =
      scanFrom (if char = '\n' then .blank else .comment) (start + 1) rest := rfl

theorem scan_within_symbol (start position : Nat) (reversed : List Char) (char : Char)
    (rest : List Char) :
    scanFrom (.symbol start reversed) position (char :: rest) =
      if char = ';' then
        .symbol ⟨start, position⟩ (String.ofList reversed.reverse) ::
          scanFrom .comment (position + 1) rest
      else if isBlank char then
        .symbol ⟨start, position⟩ (String.ofList reversed.reverse) ::
          scanFrom .blank (position + 1) rest
      else match bracket? char position with
        | some token => .symbol ⟨start, position⟩ (String.ofList reversed.reverse) :: token ::
          scanFrom .blank (position + 1) rest
        | none => scanFrom (.symbol start (char :: reversed)) (position + 1) rest := by
  cases found : bracket? char position <;> simp [scanFrom, found, Mode.finish]

theorem scan_blank {char : Char} (blank : isBlank char = true) (start : Nat) (rest : List Char) :
    scanFrom .blank start (char :: rest) = scanFrom .blank (start + 1) rest := by
  have other : char ≠ ';' := by
    rintro rfl
    cases blank
  rw [scan_between, if_neg other, if_pos blank]

theorem scan_comment_end {body : List Char} (unended : '\n' ∉ body) (start : Nat) (rest : List Char) :
    scanFrom .comment start (body ++ '\n' :: rest) =
      scanFrom .blank (start + body.length + 1) rest := by
  induction body generalizing start with
  | nil => rfl
  | cons char body ih =>
      have other : char ≠ '\n' := fun same => unended (by simp [same])
      have later : '\n' ∉ body := fun member => unended (by simp [member])
      rw [List.cons_append, scan_within_comment, if_neg other, ih later]
      congr 1
      simp only [List.length_cons]
      omega

theorem scan_comment {body : List Char} (unended : '\n' ∉ body) (start : Nat) (rest : List Char) :
    scanFrom .blank start (';' :: (body ++ '\n' :: rest)) =
      scanFrom .blank (start + body.length + 2) rest := by
  have scanned := scan_comment_end unended (start + 1) rest
  rw [show start + 1 + body.length + 1 = start + body.length + 2 by omega] at scanned
  rw [scan_between, if_pos rfl, scanned]

theorem scan_comment_last {body : List Char} (unended : '\n' ∉ body) (start : Nat) :
    scanFrom .comment start body = [] := by
  induction body generalizing start with
  | nil => rfl
  | cons char body ih =>
      have other : char ≠ '\n' := fun same => unended (by simp [same])
      rw [scan_within_comment, if_neg other, ih fun member => unended (by simp [member])]

theorem scan_last {last : List Char} (comment : LastComment last) (start : Nat) :
    scanFrom .blank start last = [] := by
  rcases comment with rfl | ⟨body, rfl, unended⟩
  · rfl
  · rw [scan_between, if_pos rfl, scan_comment_last unended]

theorem scan_opening (bracket : Bracket) (start : Nat) (rest : List Char) :
    scanFrom .blank start (bracket.opening :: rest) =
      .opening bracket start :: scanFrom .blank (start + 1) rest := by
  cases bracket <;> rfl

theorem scan_closing (bracket : Bracket) (start : Nat) (rest : List Char) :
    scanFrom .blank start (bracket.closing :: rest) =
      .closing bracket start :: scanFrom .blank (start + 1) rest := by
  cases bracket <;> rfl

theorem scan_symbol_end {rest : List Char} (delimits : Delimits rest) (start position : Nat)
    (reversed : List Char) :
    scanFrom (.symbol start reversed) position rest =
      .symbol ⟨start, position⟩ (String.ofList reversed.reverse) :: scanFrom .blank position rest := by
  cases rest with
  | nil => rfl
  | cons char rest =>
      rcases delimiter_cases ((delimits_cons_iff char rest).1 delimits) with
        ⟨bracket, rfl⟩ | ⟨bracket, rfl⟩ | rfl | blank
      · cases bracket <;> rfl
      · cases bracket <;> rfl
      · rfl
      · have other : char ≠ ';' := by
          rintro rfl
          cases blank
        rw [scan_within_symbol, if_neg other, if_pos blank, scan_blank blank]

theorem ordinary {char : Char} (free : Term.isDelimiter char = false) :
    char ≠ ';' ∧ isBlank char = false ∧ ∀ position, bracket? char position = none := by
  simp only [Term.isDelimiter, Bool.or_eq_false_iff, beq_eq_false_iff_ne, ne_eq] at free
  simp [bracket?, free]

theorem scan_word_start {char : Char} (free : Term.isDelimiter char = false) (start : Nat)
    (rest : List Char) :
    scanFrom .blank start (char :: rest) = scanFrom (.symbol start [char]) (start + 1) rest := by
  obtain ⟨other, notBlank, noBracket⟩ := ordinary free
  rw [scan_between, if_neg other, if_neg (by simp [notBlank]), noBracket]

theorem scan_word_next {char : Char} (free : Term.isDelimiter char = false) (start position : Nat)
    (reversed rest : List Char) :
    scanFrom (.symbol start reversed) position (char :: rest) =
      scanFrom (.symbol start (char :: reversed)) (position + 1) rest := by
  obtain ⟨other, notBlank, noBracket⟩ := ordinary free
  rw [scan_within_symbol, if_neg other, if_neg (by simp [notBlank]), noBracket]

/-- A symbol under way takes every character up to the next delimiter. -/
theorem scan_word_rest {word : List Char} (free : ∀ char ∈ word, Term.isDelimiter char = false)
    {rest : List Char} (delimits : Delimits rest) (start position : Nat) (reversed : List Char) :
    scanFrom (.symbol start reversed) position (word ++ rest) =
      .symbol ⟨start, position + word.length⟩ (String.ofList (reversed.reverse ++ word)) ::
        scanFrom .blank (position + word.length) rest := by
  induction word generalizing position reversed with
  | nil => simpa using scan_symbol_end delimits start position reversed
  | cons char word ih =>
      have moved : position + 1 + word.length = position + (char :: word).length := by
        simp only [List.length_cons]
        omega
      rw [List.cons_append, scan_word_next (free char (by simp)),
        ih fun next member => free next (by simp [member]), moved, List.reverse_cons, List.append_assoc]
      rfl

theorem scan_symbol {word : List Char} (isWord : IsWord word) {rest : List Char}
    (delimits : Delimits rest) (start : Nat) :
    scanFrom .blank start (word ++ rest) =
      .symbol ⟨start, start + word.length⟩ (String.ofList word) ::
        scanFrom .blank (start + word.length) rest := by
  cases word with
  | nil => exact absurd rfl isWord.notEmpty
  | cons char word =>
      have moved : start + 1 + word.length = start + (char :: word).length := by
        simp only [List.length_cons]
        omega
      rw [List.cons_append, scan_word_start (isWord.free char (by simp)),
        scan_word_rest (fun next member => isWord.free next (by simp [member])) delimits, moved]
      rfl

end Token

namespace LocatedTerm

/-- What has been read of a text: the lists and arrays that are still open, innermost first, and
the terms that stand for themselves, latest first. -/
structure Reading where
  frames : List Frame
  reversed : List LocatedTerm

namespace Reading

/-- Puts terms that follow each other into the innermost open frame. -/
def receive (reading : Reading) (terms : List LocatedTerm) : Reading :=
  match reading.frames with
  | [] => ⟨[], terms.reverse ++ reading.reversed⟩
  | frame :: outer =>
    ⟨{ frame with reversed := terms.reverse ++ frame.reversed } :: outer, reading.reversed⟩

def run (reading : Reading) (textLength : Nat) (tokens : List Token) :
    List LocatedTerm × Option Fault :=
  readRest textLength reading.frames reading.reversed tokens

variable (reading : Reading) (textLength : Nat) (tokens : List Token)

theorem receive_nil : reading.receive [] = reading := by
  obtain ⟨frames, reversed⟩ := reading
  cases frames <;> rfl

theorem receive_append (first second : List LocatedTerm) :
    (reading.receive first).receive second = reading.receive (first ++ second) := by
  obtain ⟨frames, reversed⟩ := reading
  cases frames <;> simp [receive]

theorem run_symbol (span : Span) (name : String) :
    reading.run textLength (.symbol span name :: tokens) =
      (reading.receive [.symbol span name]).run textLength tokens := by
  obtain ⟨frames, reversed⟩ := reading
  cases frames <;> rfl

theorem run_opening (bracket : Bracket) (position : Nat) :
    reading.run textLength (.opening bracket position :: tokens) =
      run ⟨⟨position, bracket, []⟩ :: reading.frames, reading.reversed⟩ textLength tokens := rfl

theorem run_closing (frame : Frame) (outer : List Frame) (reversed : List LocatedTerm)
    (position : Nat) :
    run ⟨frame :: outer, reversed⟩ textLength (.closing frame.bracket position :: tokens) =
      (receive ⟨outer, reversed⟩ [enclosed frame.bracket ⟨frame.start, position + 1⟩
        frame.reversed.reverse]).run textLength tokens := by
  obtain ⟨start, bracket, elements⟩ := frame
  cases outer <;> cases bracket <;> simp [run, readRest, feed, deliver, receive, Frame.close, enclosed]

end Reading

end LocatedTerm

open LocatedTerm Token

/-- Text that is spelled by the grammar is read as the terms that it spells. -/
theorem Spelling.run {start : Nat} {chars : List Char} {terms : List LocatedTerm}
    (spelling : Spelling start chars terms) (textLength : Nat) {more : List Char}
    (delimits : Delimits more) (reading : Reading) :
    reading.run textLength (scanFrom .blank start (chars ++ more)) =
      (reading.receive terms).run textLength (scanFrom .blank (start + chars.length) more) := by
  induction spelling generalizing reading more with
  | nothing => rw [reading.receive_nil]; rfl
  | @blank start char rest terms isBlank _ ih =>
      rw [List.cons_append, scan_blank isBlank, ih delimits, List.length_cons]
      congr 2
      omega
  | @comment start body rest terms unended _ ih =>
      rw [List.cons_append, List.append_assoc, List.cons_append, scan_comment unended, ih delimits]
      simp only [List.length_cons, List.length_append]
      congr 2
      omega
  | @symbol start word rest terms isWord ends _ ih =>
      rw [List.append_assoc, scan_symbol isWord (ends.append delimits), Reading.run_symbol, ih delimits,
        Reading.receive_append, List.length_append, Nat.add_assoc]
      rfl
  | @enclosed start inner rest elements terms bracket _ _ innerIh restIh =>
      have closes : Delimits (bracket.closing :: (rest ++ more)) :=
        (delimits_cons_iff _ _).2 bracket.closing_delimiter
      rw [List.cons_append, List.append_assoc, List.cons_append, scan_opening, Reading.run_opening,
        innerIh closes, scan_closing, Reading.receive, Reading.run_closing,
        show start + 1 + inner.length + 1 = start + inner.length + 2 by omega, restIh delimits,
        Reading.receive_append]
      simp only [List.append_nil, List.reverse_reverse, List.length_cons, List.length_append]
      congr 2
      omega

/-- Reading on from here ends with the given terms: what is left of the text completes the open
frames, from the innermost out, and then spells terms of its own. -/
inductive Completes : Nat → List Char → Reading → List LocatedTerm → Prop
  | ended {start : Nat} {body last : List Char} (reversed : List LocatedTerm)
      {terms : List LocatedTerm} : Spelling start body terms → LastComment last →
      Completes start (body ++ last) ⟨[], reversed⟩ (reversed.reverse ++ terms)
  | closed {start : Nat} {inner rest : List Char} {elements reversed terms : List LocatedTerm}
      (frame : Frame) {outer : List Frame} : Spelling start inner elements →
      Completes (start + inner.length + 1) rest (Reading.receive ⟨outer, reversed⟩
        [LocatedTerm.enclosed frame.bracket ⟨frame.start, start + inner.length + 1⟩
          (frame.reversed.reverse ++ elements)]) terms →
      Completes start (inner ++ frame.bracket.closing :: rest) ⟨frame :: outer, reversed⟩ terms

/-- A piece of text that spells terms before all that may follow it can be read first. -/
theorem Completes.prepend {start : Nat} {rest : List Char} {terms : List LocatedTerm}
    {reading : Reading} (piece : List Char) (found : List LocatedTerm)
    (spelled : ∀ before after terms, rest = before ++ after →
      Spelling (start + piece.length) before terms → Spelling start (piece ++ before) (found ++ terms))
    (completes : Completes (start + piece.length) rest (reading.receive found) terms) :
    Completes start (piece ++ rest) reading terms := by
  obtain ⟨frames, reversed⟩ := reading
  cases frames with
  | nil =>
      cases completes with
      | @ended _ body last _ terms spelling comment =>
          have whole := Completes.ended reversed (spelled body last terms rfl spelling) comment
          simpa using whole
  | cons frame outer =>
      cases completes with
      | @closed _ inner rest elements _ _ _ _ spelling later =>
          have longer := spelled inner _ elements rfl spelling
          have stop : start + piece.length + inner.length = start + (piece ++ inner).length := by
            rw [List.length_append, Nat.add_assoc]
          rw [stop] at later
          have whole := Completes.closed frame longer (by simpa using later)
          simpa using whole

theorem completes_of_run (textLength : Nat) (chars : List Char) (start : Nat) (reading : Reading)
    (terms : List LocatedTerm)
    (done : reading.run textLength (scanFrom .blank start chars) = (terms, none)) :
    Completes start chars reading terms := by
  induction chars using text_induction generalizing start reading with
  | nothing =>
      obtain ⟨frames, reversed⟩ := reading
      cases frames with
      | nil =>
          cases done
          simpa using Completes.ended reversed .nothing (.inl rfl)
      | cons frame outer => simp [Reading.run, readRest, scanFrom, Mode.finish] at done
  | blank char rest isBlank ih =>
      rw [scan_blank isBlank] at done
      refine Completes.prepend [char] []
        (fun before after terms _ spelling => .blank isBlank spelling) ?_
      rw [Reading.receive_nil]
      exact ih _ _ done
  | comment body rest unended ih =>
      rw [scan_comment unended] at done
      have completes := Completes.prepend (';' :: (body ++ ['\n'])) []
        (fun before after terms _ spelling => by
          have whole := Spelling.comment unended (by simpa [Nat.add_assoc] using spelling)
          simpa using whole)
        (by simpa [Reading.receive_nil, Nat.add_assoc] using ih _ _ done)
      simpa using completes
  | last body unended =>
      rw [scan_last (.inr ⟨body, rfl, unended⟩)] at done
      obtain ⟨frames, reversed⟩ := reading
      cases frames with
      | nil =>
          cases done
          simpa using Completes.ended reversed .nothing (.inr ⟨body, rfl, unended⟩)
      | cons frame outer => simp [Reading.run, readRest] at done
  | opening bracket rest ih =>
      rw [scan_opening, Reading.run_opening] at done
      cases ih _ _ done with
      | @closed _ inner rest elements _ _ _ _ spelling later =>
          rw [show start + 1 + inner.length + 1 = start + inner.length + 2 by omega] at later
          have completes := Completes.prepend (bracket.opening :: (inner ++ [bracket.closing]))
            [.enclosed bracket ⟨start, start + inner.length + 2⟩ elements]
            (fun before after terms _ outside => by
              have whole := Spelling.enclosed bracket spelling
                (by simpa [Nat.add_assoc] using outside)
              simpa using whole)
            (by simpa [Nat.add_assoc] using later)
          simpa using completes
  | closing bracket rest ih =>
      rw [scan_closing] at done
      obtain ⟨frames, reversed⟩ := reading
      cases frames with
      | nil => simp [Reading.run, readRest, feed] at done
      | cons frame outer =>
          by_cases same : frame.bracket = bracket
          · subst same
            rw [Reading.run_closing] at done
            have completes := Completes.closed frame .nothing
              (by simpa using ih _ _ done)
            simpa using completes
          · simp [Reading.run, readRest, feed, same] at done
  | symbol word rest isWord delimits ih =>
      rw [scan_symbol isWord delimits, Reading.run_symbol] at done
      refine Completes.prepend word _ (fun before after terms split spelling => ?_) (ih _ _ done)
      subst split
      exact .symbol isWord delimits.of_append spelling

namespace LocatedTerm

/-- A text is read without a fault exactly if it spells the terms that are read. -/
theorem parse_all_iff (source : Source) (terms : List LocatedTerm) :
    parseAll source = (terms, none) ↔ Spells source.text.toList terms := by
  have split : parseAll source = (terms, none) ↔ (Reading.mk [] []).run source.text.length
      (Token.scan source.text) = (terms, none) := by
    rw [parseAll, Prod.mk.injEq, Option.map_eq_none_iff, Reading.run, Prod.ext_iff]
  rw [split, Token.scan]
  constructor
  · intro done
    generalize source.text.toList = chars at done ⊢
    cases completes_of_run _ _ _ _ _ done with
    | @ended _ body last _ terms spelling comment => exact ⟨body, last, rfl, by simpa using spelling, comment⟩
  · rintro ⟨body, last, chars, spelling, comment⟩
    rw [chars, spelling.run _ comment.delimits, Token.scan_last comment]
    simp [Reading.run, Reading.receive, readRest]

/-- Terms that have been read stay in front of all that follow. -/
theorem read_rest_keeps (textLength : Nat) (frames : List Frame) (reversed : List LocatedTerm)
    (tokens : List Token) :
    ∃ later, (readRest textLength frames reversed tokens).1 = reversed.reverse ++ later := by
  induction tokens generalizing frames reversed with
  | nil => exact ⟨[], by simp [readRest]⟩
  | cons token rest ih =>
      rw [readRest]
      split
      · exact ⟨[], by simp⟩
      · rename_i term _
        obtain ⟨later, kept⟩ := ih [] (term :: reversed)
        exact ⟨term :: later, by simp [kept]⟩
      · exact ih _ reversed

theorem read_rest_of_next (textLength : Nat) (frames : List Frame) (reversed : List LocatedTerm)
    (tokens : List Token) :
    readRest textLength frames reversed tokens =
      match readNext textLength frames tokens with
      | .error fault => (reversed.reverse, some fault)
      | .ok none => (reversed.reverse, none)
      | .ok (some (term, rest)) => readRest textLength [] (term :: reversed) rest := by
  induction tokens generalizing frames with
  | nil => cases frames <;> rfl
  | cons token rest ih =>
      rw [readRest, readNext]
      cases feed frames token with
      | error fault => rfl
      | ok progress =>
          cases progress with
          | pending frames => exact ih frames
          | complete term => rfl

theorem pending_not_empty {frames opened : List Frame} {token : Token}
    (fed : feed frames token = .ok (.pending opened)) : opened ≠ [] := by
  rintro rfl
  cases token with
  | opening bracket position => simp [feed] at fed
  | symbol span name => cases frames <;> simp [feed, deliver] at fed
  | closing bracket position =>
      cases frames with
      | nil => simp [feed] at fed
      | cons frame outer =>
          rw [feed] at fed
          split at fed
          · cases outer <;> simp [deliver] at fed
          · simp at fed

/-- There is no term to read only where there is nothing to read at all. -/
theorem read_next_none_iff (textLength : Nat) (frames : List Frame) (tokens : List Token) :
    readNext textLength frames tokens = .ok none ↔ frames = [] ∧ tokens = [] := by
  induction tokens generalizing frames with
  | nil => cases frames <;> simp [readNext]
  | cons token rest ih =>
      rw [readNext]
      cases fed : feed frames token with
      | error fault => simp
      | ok progress =>
          cases progress with
          | complete term => simp
          | pending opened => simp [ih, pending_not_empty fed]

theorem read_rest_nothing {textLength : Nat} {tokens : List Token} {terms : List LocatedTerm}
    (done : readRest textLength [] terms tokens = (terms.reverse, none)) : tokens = [] := by
  have next := read_rest_of_next textLength [] terms tokens
  rw [done] at next
  split at next
  · simp at next
  · rename_i none
    exact ((read_next_none_iff _ _ _).1 none).2
  · rename_i term rest _
    obtain ⟨later, kept⟩ := read_rest_keeps textLength [] (term :: terms) rest
    rw [← next] at kept
    simp at kept

theorem parse_some_iff (source : Source) (term : LocatedTerm) :
    parse source = .ok (some term) ↔ Spells source.text.toList [term] := by
  rw [← parse_all_iff, parse, parseAll, read_rest_of_next]
  split
  · simp_all
  · simp_all
  · rename_i found next
    rw [next]
    simp [readRest]
  · rename_i found token rest next
    rw [next]
    simp only [reduceCtorEq, false_iff, Prod.mk.injEq, Option.map_eq_none_iff]
    rintro ⟨one, noFault⟩
    obtain ⟨later, kept⟩ := read_rest_keeps source.text.length [] [found] (token :: rest)
    obtain ⟨rfl, rfl⟩ : term = found ∧ later = [] := by simpa using one.symm.trans kept
    have done : readRest source.text.length [] [term] (token :: rest) = ([term].reverse, none) :=
      Prod.ext one noFault
    exact List.cons_ne_nil _ _ (read_rest_nothing done)

theorem parse_none_iff (source : Source) :
    parse source = .ok none ↔ Spells source.text.toList [] := by
  rw [← parse_all_iff, parse, parseAll, read_rest_of_next]
  split
  · simp_all
  · simp_all
  · rename_i found next
    simp [next, readRest]
  · rename_i found token rest next
    rw [next]
    simp only [reduceCtorEq, false_iff, Prod.mk.injEq, Option.map_eq_none_iff]
    rintro ⟨nothing, -⟩
    obtain ⟨later, kept⟩ := read_rest_keeps source.text.length [] [found] (token :: rest)
    simp [nothing] at kept

end LocatedTerm

end Analog
