import Analog.Proofs.TermGrammar

/-!
# Spans of terms

Reading accepts exactly the texts of the grammar, and complains about one character of any other.
The span of a term, and of every part of it, covers the text of that term and nothing else: read by
itself this text is the same term again. The elements of a list or array stand one after the other
between its brackets.
-/

set_option autoImplicit false

namespace Analog

open Text

def Text.Source.extract (source : Source) (span : Span) : Source :=
  ⟨source.name, String.ofList ((source.text.toList.drop span.start).take span.length)⟩

namespace LocatedTerm

mutual

def parts : LocatedTerm → List LocatedTerm
  | .symbol span name => [.symbol span name]
  | .list span elements => .list span elements :: partsAll elements
  | .array span elements => .array span elements :: partsAll elements

def partsAll : List LocatedTerm → List LocatedTerm
  | [] => []
  | term :: rest => parts term ++ partsAll rest

end

theorem mem_parts_all (part : LocatedTerm) (terms : List LocatedTerm) :
    part ∈ partsAll terms ↔ ∃ term ∈ terms, part ∈ term.parts := by
  induction terms with
  | nil => simp [partsAll]
  | cons term rest ih => simp [partsAll, ih]

theorem mem_own_parts (term : LocatedTerm) : term ∈ term.parts := by
  cases term <;> simp [parts]

@[simp] theorem symbol_span (span : Span) (name : String) : (symbol span name).span = span := rfl

section Enclosed

variable (bracket : Bracket) (span : Span) (elements : List LocatedTerm)

theorem enclosed_parts :
    (enclosed bracket span elements).parts = enclosed bracket span elements :: partsAll elements := by
  cases bracket <;> rfl

@[simp] theorem enclosed_span : (enclosed bracket span elements).span = span := by
  cases bracket <;> rfl

/-- Without spans, what is enclosed depends on the terms inside. -/
theorem enclosed_term {other : Span} {others : List LocatedTerm} (same : terms elements = terms others) :
    (enclosed bracket span elements).term = (enclosed bracket other others).term := by
  cases bracket <;> simp [enclosed, term, same]

@[simp] theorem enclosed_elements : (enclosed bracket span elements).elements = elements := by
  cases bracket <;> rfl

end Enclosed

/-- What the spans of a part of a source say. -/
structure Placed (source : Source) (part : LocatedTerm) : Prop where
  notEmpty : part.span.start < part.span.stop
  inside : part.span.stop ≤ source.text.length
  /-- The covered text is read as the same term. -/
  readAgain : ∃ again, parse (source.extract part.span) = .ok (some again) ∧ again.term = part.term
  /-- Elements do not overlap, and stand in order. -/
  ordered : part.elements.Pairwise fun first second => first.span.stop ≤ second.span.start
  enclosed : ∀ element ∈ part.elements,
    part.span.start < element.span.start ∧ element.span.stop < part.span.stop

end LocatedTerm

open LocatedTerm

variable {start : Nat} {chars : List Char} {terms : List LocatedTerm}

namespace Spelling

theorem within (spelling : Spelling start chars terms) : ∀ term ∈ terms,
    start ≤ term.span.start ∧ term.span.start < term.span.stop ∧
      term.span.stop ≤ start + chars.length := by
  induction spelling with
  | nothing => simp
  | blank _ _ ih =>
      intro term member
      obtain ⟨above, notEmpty, below⟩ := ih term member
      rw [List.length_cons]
      omega
  | comment _ _ ih =>
      intro term member
      obtain ⟨above, notEmpty, below⟩ := ih term member
      simp only [List.length_cons, List.length_append]
      omega
  | symbol isWord _ _ ih =>
      have positive := List.length_pos_iff.2 isWord.notEmpty
      simp only [List.mem_cons, forall_eq_or_imp, symbol_span, List.length_append]
      refine ⟨by omega, fun term member => ?_⟩
      obtain ⟨above, notEmpty, below⟩ := ih term member
      omega
  | enclosed bracket _ _ _ ih =>
      simp only [List.mem_cons, forall_eq_or_imp, enclosed_span, List.length_append, List.length_cons]
      refine ⟨by omega, fun term member => ?_⟩
      obtain ⟨above, notEmpty, below⟩ := ih term member
      omega

theorem ordered (spelling : Spelling start chars terms) :
    terms.Pairwise fun first second => first.span.stop ≤ second.span.start := by
  induction spelling with
  | nothing => exact .nil
  | blank _ _ ih => exact ih
  | comment _ _ ih => exact ih
  | symbol _ _ rest ih => exact .cons (fun term member => (rest.within term member).1) ih
  | enclosed bracket _ rest _ ih =>
      refine .cons (fun term member => ?_) ih
      simpa using (rest.within term member).1

/-- A text that is moved spells the same terms with other spans. -/
theorem moved (spelling : Spelling start chars terms) (other : Nat) :
    ∃ again, Spelling other chars again ∧ LocatedTerm.terms again = LocatedTerm.terms terms := by
  induction spelling generalizing other with
  | nothing => exact ⟨[], .nothing, rfl⟩
  | blank isBlank _ ih =>
      obtain ⟨again, spelled, same⟩ := ih (other + 1)
      exact ⟨again, .blank isBlank spelled, same⟩
  | comment unended _ ih =>
      obtain ⟨again, spelled, same⟩ := ih _
      exact ⟨again, .comment unended spelled, same⟩
  | symbol isWord delimits _ ih =>
      obtain ⟨again, spelled, same⟩ := ih _
      refine ⟨_, .symbol isWord delimits spelled, ?_⟩
      simp [LocatedTerm.terms, LocatedTerm.term, same]
  | enclosed bracket _ _ innerIh restIh =>
      obtain ⟨elements, innerSpelled, innerSame⟩ := innerIh (other + 1)
      obtain ⟨again, spelled, same⟩ := restIh _
      refine ⟨_, .enclosed bracket innerSpelled spelled, ?_⟩
      rw [LocatedTerm.terms, LocatedTerm.terms, enclosed_term _ _ _ innerSame, same]

end Spelling

structure Stands (start : Nat) (chars : List Char) (part : LocatedTerm) : Prop where
  spelled : ∃ before word after, chars = before ++ (word ++ after) ∧
    part.span = ⟨start + before.length, start + before.length + word.length⟩ ∧
    Spelling (start + before.length) word [part]
  ordered : part.elements.Pairwise fun first second => first.span.stop ≤ second.span.start
  enclosed : ∀ element ∈ part.elements,
    part.span.start < element.span.start ∧ element.span.stop < part.span.stop

theorem Stands.between (start : Nat) {part : LocatedTerm} {middle : List Char}
    (before after : List Char) (stands : Stands (start + before.length) middle part) :
    Stands start (before ++ (middle ++ after)) part := by
  obtain ⟨earlier, word, later, rfl, span, spelling⟩ := stands.spelled
  rw [Nat.add_assoc, ← List.length_append] at span spelling
  exact ⟨⟨before ++ earlier, word, later ++ after, by simp, span, spelling⟩, stands.ordered,
    stands.enclosed⟩

/-- Every part of a term that is spelled by a text stands in it. -/
theorem Spelling.stands (spelling : Spelling start chars terms) :
    ∀ part ∈ partsAll terms, Stands start chars part := by
  induction spelling with
  | nothing => simp [partsAll]
  | @blank _ char rest _ _ _ ih =>
      intro part member
      simpa using Stands.between _ [char] [] (ih part member)
  | @comment _ body rest _ _ _ ih =>
      intro part member
      have stands := Stands.between _ (';' :: (body ++ ['\n'])) []
        (by simpa [Nat.add_assoc] using ih part member)
      simpa using stands
  | @symbol start word rest terms isWord _ _ ih =>
      intro part member
      rw [partsAll, parts, List.singleton_append, List.mem_cons] at member
      rcases member with rfl | later
      · have alone : Spelling start (word ++ []) [.symbol ⟨start, start + word.length⟩
            (String.ofList word)] := .symbol isWord delimits_nil .nothing
        exact ⟨⟨[], word, rest, rfl, rfl, by simpa using alone⟩, .nil, by simp [LocatedTerm.elements]⟩
      · simpa using Stands.between start word [] (ih part later)
  | @enclosed start inner rest elements terms bracket spelling _ innerIh restIh =>
      intro part member
      rw [partsAll, enclosed_parts, List.cons_append, List.mem_cons, List.mem_append] at member
      rcases member with rfl | inside | later
      · have alone := Spelling.enclosed bracket spelling .nothing
        refine ⟨⟨[], bracket.opening :: (inner ++ [bracket.closing]), rest, by simp, ?_, ?_⟩, ?_, ?_⟩
        · simp [Nat.add_assoc]
        · simpa using alone
        · simpa using spelling.ordered
        · simp only [enclosed_elements, enclosed_span]
          intro element found
          obtain ⟨above, _, below⟩ := spelling.within element found
          omega
      · simpa using Stands.between start [bracket.opening] (bracket.closing :: rest) (innerIh part inside)
      · have stands := Stands.between start (bracket.opening :: (inner ++ [bracket.closing])) []
          (by simpa [Nat.add_assoc] using restIh part later)
        simpa using stands

/-- What stands in the text of a source is placed in the source. -/
theorem Stands.placed {source : Source} {part : LocatedTerm}
    (stands : Stands 0 source.text.toList part) : part.Placed source := by
  obtain ⟨before, word, after, split, span, spelling⟩ := stands.spelled
  have total := congrArg List.length split
  have covered : (source.extract part.span).text.toList = word := by
    rw [Text.Source.extract, String.toList_ofList, span, split]
    simp [Span.length]
  obtain ⟨again, spelledAgain, same⟩ := spelling.moved 0
  refine ⟨?_, ?_, ?_, stands.ordered, stands.enclosed⟩
  · have notEmpty := spelling.within part (by simp)
    omega
  · rw [String.length_toList, List.length_append, List.length_append] at total
    rw [span]
    simp only
    omega
  · cases again with
    | nil => simp [LocatedTerm.terms] at same
    | cons found others =>
        cases others with
        | cons other others => simp [LocatedTerm.terms] at same
        | nil =>
            refine ⟨found, (parse_some_iff _ _).2 ?_, by simpa [LocatedTerm.terms] using same⟩
            exact ⟨word, [], by rw [covered, List.append_nil], spelledAgain, .inl rfl⟩

theorem Spells.placed {source : Source} (spells : Spells source.text.toList terms) :
    ∀ part ∈ partsAll terms, part.Placed source := by
  obtain ⟨body, last, split, spelling, _⟩ := spells
  intro part member
  have stands := Stands.between 0 [] last (spelling.stands part member)
  exact Stands.placed (by simpa [split] using stands)

theorem start_of_token (chars : List Char) (start : Nat) :
    ∀ token ∈ Token.scanFrom .blank start chars,
      start ≤ token.start ∧ token.start < start + chars.length := by
  induction chars using text_induction generalizing start with
  | nothing => simp [Token.scanFrom, Token.Mode.finish]
  | blank char rest isBlank ih =>
      intro token member
      rw [Token.scan_blank isBlank] at member
      have bounds := ih _ token member
      rw [List.length_cons]
      omega
  | comment body rest unended ih =>
      intro token member
      rw [Token.scan_comment unended] at member
      have bounds := ih _ token member
      simp only [List.length_cons, List.length_append]
      omega
  | last body unended => simp [Token.scan_last (.inr ⟨body, rfl, unended⟩)]
  | opening bracket rest ih =>
      intro token member
      rw [Token.scan_opening, List.mem_cons] at member
      rw [List.length_cons]
      rcases member with rfl | later
      · simp only [Token.start]
        omega
      · have bounds := ih _ token later
        omega
  | closing bracket rest ih =>
      intro token member
      rw [Token.scan_closing, List.mem_cons] at member
      rw [List.length_cons]
      rcases member with rfl | later
      · simp only [Token.start]
        omega
      · have bounds := ih _ token later
        omega
  | symbol word rest isWord delimits ih =>
      intro token member
      have positive := List.length_pos_iff.2 isWord.notEmpty
      rw [Token.scan_symbol isWord delimits, List.mem_cons] at member
      rw [List.length_append]
      rcases member with rfl | later
      · simp only [Token.start]
        omega
      · have bounds := ih _ token later
        omega

theorem position_of_feed {frames : List Frame} {token : Token} {fault : Fault}
    (failed : feed frames token = .error fault) : fault.position = token.start := by
  cases token with
  | opening bracket position => simp [feed] at failed
  | symbol span name => simp [feed] at failed
  | closing bracket position =>
      cases frames with
      | nil =>
          cases failed
          rfl
      | cons frame outer =>
          rw [feed] at failed
          split at failed
          · cases failed
          · cases failed
            rfl

/-- What is wrong is found at a token, or at the end of a text that has tokens. -/
theorem fault_position (textLength : Nat) (frames : List Frame) (tokens : List Token) (fault : Fault)
    (failed : readNext textLength frames tokens = .error fault) :
    (∃ token ∈ tokens, fault.position = token.start) ∨
      fault = unfinished textLength ∧ (frames ≠ [] ∨ tokens ≠ []) := by
  induction tokens generalizing frames with
  | nil =>
      cases frames with
      | nil => simp [readNext] at failed
      | cons frame outer =>
          cases failed
          exact .inr ⟨rfl, .inl (by simp)⟩
  | cons token rest ih =>
      rw [readNext] at failed
      split at failed
      · rename_i found fed
        cases failed
        exact .inl ⟨token, by simp, position_of_feed fed⟩
      · cases failed
      · rename_i opened fed
        rcases ih _ failed with ⟨other, member, position⟩ | ⟨same, _⟩
        · exact .inl ⟨other, by simp [member], position⟩
        · exact .inr ⟨same, .inr (by simp)⟩

theorem read_next_suffix {textLength : Nat} {frames : List Frame} {tokens rest : List Token}
    {term : LocatedTerm} (found : readNext textLength frames tokens = .ok (some (term, rest))) :
    rest ⊆ tokens := by
  induction tokens generalizing frames with
  | nil => cases frames <;> simp [readNext] at found
  | cons token tokens ih =>
      rw [readNext] at found
      split at found
      · cases found
      · cases found
        exact List.subset_cons_self _ _
      · exact List.Subset.trans (ih found) (List.subset_cons_self _ _)

theorem complaint_inside (source : Source) (error : SyntaxError) (failed : parse source = .error error) :
    error.source = source ∧ error.span.start < error.span.stop ∧
      error.span.stop ≤ source.text.length := by
  have inside (fault : Fault) (below : fault.position < source.text.length) :
      let error := fault.toError source
      error.source = source ∧ error.span.start < error.span.stop ∧
        error.span.stop ≤ source.text.length := by
    simp only [Fault.toError, true_and]
    omega
  have tokens := start_of_token source.text.toList 0
  rw [String.length_toList] at tokens
  rw [parse, Token.scan] at failed
  split at failed
  · rename_i fault found
    cases failed
    refine inside fault ?_
    rcases fault_position _ _ _ _ found with ⟨token, member, position⟩ | ⟨rfl, reason⟩
    · have bounds := tokens token member
      omega
    · obtain ⟨token, member⟩ := List.exists_mem_of_ne_nil _ (reason.resolve_left (by simp))
      have bounds := tokens token member
      simp only [unfinished]
      omega
  · cases failed
  · cases failed
  · rename_i term token rest found
    cases failed
    refine inside ⟨token.start, _⟩ ?_
    have bounds := tokens token (read_next_suffix found (by simp))
    simp only
    omega

/-- Reading accepts exactly the texts of the grammar, complains about one character of any other,
and records exactly where every part of what it accepts stands. -/
theorem parse_exact (source : Source) :
    (∀ term, parse source = .ok (some term) ↔ Spells source.text.toList [term]) ∧
    (parse source = .ok none ↔ Spells source.text.toList []) ∧
    (∀ error, parse source = .error error → error.source = source ∧
      error.span.start < error.span.stop ∧ error.span.stop ≤ source.text.length) ∧
    (∀ terms, parseAll source = (terms, none) ↔ Spells source.text.toList terms) ∧
    (∀ terms, Spells source.text.toList terms →
      ∀ term ∈ terms, ∀ part ∈ term.parts, part.Placed source) := by
  refine ⟨parse_some_iff source, parse_none_iff source, complaint_inside source,
    parse_all_iff source, fun terms spells term member part inside => ?_⟩
  exact spells.placed part ((mem_parts_all part terms).2 ⟨term, member, inside⟩)

end Analog
