import Analog.Proofs.RenderedTerms
import Analog.Term.Layout
import Mathlib.Algebra.GroupWithZero.Nat

/-!
# Terms laid out over several lines

A layout is the text on one line in which some of the single spaces are line ends with the
indentation of the next line. The reader does not see this difference, so a layout is read as the
text on one line is, whatever the width.
-/

set_option autoImplicit false

namespace Analog

open Text

/-- The second text is the first one in which some of the spaces are line ends, each followed by
the spaces of an indentation. -/
inductive Respaced : List Char → List Char → Prop
  | nothing : Respaced [] []
  | keep {before after : List Char} (char : Char) :
      Respaced before after → Respaced (char :: before) (char :: after)
  | broken {before after : List Char} (indent : Nat) : Respaced before after →
      Respaced (' ' :: before) ('\n' :: (List.replicate indent ' ' ++ after))

namespace Respaced

variable {chars more before after : List Char}

theorem refl (chars : List Char) : Respaced chars chars := by
  induction chars with
  | nil => exact .nothing
  | cons char rest ih => exact .keep char ih

theorem append {moreAfter : List Char} (first : Respaced before after)
    (second : Respaced more moreAfter) : Respaced (before ++ more) (after ++ moreAfter) := by
  induction first with
  | nothing => exact second
  | keep char _ ih => exact .keep char ih
  | broken indent _ ih => simpa using ih.broken indent

theorem split (respaced : Respaced (before ++ more) chars) :
    ∃ first second, chars = first ++ second ∧ Respaced before first ∧ Respaced more second := by
  induction before generalizing chars with
  | nil => exact ⟨[], chars, rfl, .nothing, respaced⟩
  | cons char rest ih =>
      cases respaced with
      | keep _ inner =>
          obtain ⟨first, second, same, restFirst, moreSecond⟩ := ih inner
          exact ⟨char :: first, second, by rw [same, List.cons_append], restFirst.keep char, moreSecond⟩
      | broken indent inner =>
          obtain ⟨first, second, same, restFirst, moreSecond⟩ := ih inner
          exact ⟨_, second, by rw [same]; simp, restFirst.broken indent, moreSecond⟩

theorem eq_of_no_space (respaced : Respaced before after) (free : ' ' ∉ before) :
    after = before := by
  induction respaced with
  | nothing => rfl
  | keep char _ ih => rw [ih fun member => free (List.mem_cons_of_mem _ member)]
  | broken _ _ _ => exact absurd List.mem_cons_self free

theorem split_word (respaced : Respaced (before ++ more) chars) (free : ' ' ∉ before) :
    ∃ second, chars = before ++ second ∧ Respaced more second := by
  obtain ⟨first, second, same, unchanged, moreSecond⟩ := respaced.split
  rw [unchanged.eq_of_no_space free] at same
  exact ⟨second, same, moreSecond⟩

theorem delimits (respaced : Respaced before after) (ends : Delimits before) : Delimits after := by
  cases respaced with
  | nothing => exact ends
  | keep char _ => exact (delimits_cons_iff char _).2 ((delimits_cons_iff char _).1 ends)
  | broken _ _ => exact (delimits_cons_iff _ _).2 rfl

end Respaced

theorem Spelling.indented {start indent : Nat} {rest : List Char} {terms : List LocatedTerm}
    (spelling : Spelling (start + indent) rest terms) :
    Spelling start (List.replicate indent ' ' ++ rest) terms := by
  induction indent generalizing start with
  | zero => exact spelling
  | succ indent ih =>
      rw [← Nat.succ_add_eq_add_succ] at spelling
      exact .blank rfl (ih spelling)

/-- A text without comments spells the same terms when it is respaced. They stand elsewhere. -/
theorem Spelling.respaced {start : Nat} {chars : List Char} {terms : List LocatedTerm}
    (spelling : Spelling start chars terms) (plain : ';' ∉ chars) {after : List Char}
    (respaced : Respaced chars after) (position : Nat) :
    ∃ located, LocatedTerm.terms located = LocatedTerm.terms terms ∧
      Spelling position after located := by
  -- Words and brackets hold no space, so respacing leaves them whole and only moves them.
  induction spelling generalizing after position with
  | nothing =>
      cases respaced
      exact ⟨[], rfl, .nothing⟩
  | blank blank _ ih =>
      have restPlain := fun member => plain (List.mem_cons_of_mem _ member)
      cases respaced with
      | keep _ inner =>
          obtain ⟨located, same, spelled⟩ := ih restPlain inner (position + 1)
          exact ⟨located, same, .blank blank spelled⟩
      | broken indent inner =>
          obtain ⟨located, same, spelled⟩ := ih restPlain inner (position + 1 + indent)
          exact ⟨located, same, .blank rfl spelled.indented⟩
  | comment =>
      -- A line end in place of a space would cut the comment short.
      exact absurd List.mem_cons_self plain
  | @symbol _ word rest _ isWord delimits _ ih =>
      have restPlain := fun member => plain (List.mem_append_right word member)
      have free : ' ' ∉ word := fun member => absurd (isWord.free ' ' member) (by decide)
      obtain ⟨second, rfl, restRespaced⟩ := respaced.split_word free
      obtain ⟨located, same, spelled⟩ := ih restPlain restRespaced (position + word.length)
      refine ⟨_ :: located, ?_, .symbol isWord (restRespaced.delimits delimits) spelled⟩
      simp only [LocatedTerm.terms, LocatedTerm.term, same]
  | @enclosed _ inner rest elements _ bracket _ _ innerIh restIh =>
      have innerPlain := fun member =>
        plain (List.mem_cons_of_mem _ (List.mem_append_left (bracket.closing :: rest) member))
      have restPlain := fun member =>
        plain (List.mem_cons_of_mem _ (List.mem_append_right inner (List.mem_cons_of_mem _ member)))
      have opens : ' ' ∉ [bracket.opening] := by cases bracket <;> decide
      have closes : ' ' ∉ [bracket.closing] := by cases bracket <;> decide
      have opened : Respaced ([bracket.opening] ++ (inner ++ bracket.closing :: rest)) after := respaced
      obtain ⟨_, rfl, body⟩ := opened.split_word opens
      obtain ⟨first, _, rfl, innerRespaced, ended⟩ := body.split
      have closed : Respaced ([bracket.closing] ++ rest) _ := ended
      obtain ⟨second, rfl, restRespaced⟩ := closed.split_word closes
      obtain ⟨parts, sameParts, partsSpelled⟩ := innerIh innerPlain innerRespaced (position + 1)
      obtain ⟨located, same, spelled⟩ :=
        restIh restPlain restRespaced (position + first.length + 2)
      refine ⟨_ :: located, ?_, .enclosed bracket partsSpelled spelled⟩
      cases bracket <;> simp only [LocatedTerm.enclosed, LocatedTerm.terms, LocatedTerm.term,
        sameParts, same]

namespace Term

theorem size_render_all (elements : List Term) :
    (renderAll true elements).utf8ByteSize = (elements.length - 1) + (elements.map width).sum := by
  induction elements with
  | nil => rfl
  | cons element rest ih =>
      cases rest with
      | nil => simp [renderAll, width, toText]
      | cons next others =>
          have space : " ".utf8ByteSize = 1 := rfl
          rw [renderAll, String.utf8ByteSize_append, String.utf8ByteSize_append, ih, space]
          · simp only [List.length_cons, List.map_cons, List.sum_cons, width, toText]
            omega
          · exact List.cons_ne_nil next others

/-- The width of a list is found from those of its elements: two brackets, and a space between any
two neighbours. -/
theorem width_list (elements : List Term) :
    (list elements).width = 2 + (elements.length - 1) + (elements.map width).sum := by
  have opening : "(".utf8ByteSize = 1 := rfl
  have closing : ")".utf8ByteSize = 1 := rfl
  rw [width, toText, render, String.utf8ByteSize_append, String.utf8ByteSize_append,
    size_render_all, opening, closing]
  omega

theorem width_array (elements : List Term) :
    (array elements).width = 2 + (elements.length - 1) + (elements.map width).sum := by
  have opening : "[".utf8ByteSize = 1 := rfl
  have closing : "]".utf8ByteSize = 1 := rfl
  rw [width, toText, render, String.utf8ByteSize_append, String.utf8ByteSize_append,
    size_render_all, opening, closing]
  omega

theorem render_all_cons (element next : Term) (rest : List Term) :
    (renderAll true (element :: next :: rest)).toList =
      element.toText.toList ++ ' ' :: (renderAll true (next :: rest)).toList := by
  simp [renderAll, toText, String.toList_append]

/-- Lines are the elements between spaces, and a space before the first, with every space broken. -/
theorem layout_lines_respaced {limit indent : Nat} {elements : List Term} (some : elements ≠ [])
    (each : ∀ element ∈ elements,
      Respaced element.toText.toList (layoutAt limit indent element).toList) :
    Respaced (' ' :: (renderAll true elements).toList) (layoutLines limit indent elements).toList := by
  induction elements with
  | nil => exact absurd rfl some
  | cons element rest ih =>
      have first := each element List.mem_cons_self
      cases rest with
      | nil => simpa [renderAll, toText, layoutLines, String.toList_append] using first.broken indent
      | cons next others =>
          have later := ih (List.cons_ne_nil _ _) fun other member =>
            each other (List.mem_cons_of_mem _ member)
          rw [render_all_cons]
          rw [layoutLines]
          simpa [String.toList_append] using (first.append later).broken indent

theorem layout_at_respaced (limit indent : Nat) (term : Term) :
    Respaced term.toText.toList (term.layoutAt limit indent).toList := by
  induction term using Term.parts_induction generalizing indent with
  | symbol name => exact .refl _
  | array elements _ => exact .refl _
  | list elements ih =>
      match elements with
      | [] => exact .refl _
      | [_] => exact .refl _
      | head :: second :: rest =>
          rw [layoutAt]
          split
          · exact .refl _
          · -- The head stays on the first line, whatever its width.
            have lines := layout_lines_respaced (List.cons_ne_nil second rest) fun element member =>
              ih element (List.mem_cons_of_mem _ member) (indent + indentStep)
            have opened := ((Respaced.refl head.toText.toList).append lines).keep '('
            have closed := opened.append (.refl [')'])
            have text : (list (head :: second :: rest)).toText.toList =
                '(' :: ((renderAll true (head :: second :: rest)).toList ++ [')']) := by
              simp [toText, render, String.toList_append]
            rw [text, render_all_cons]
            simpa [String.toList_append] using closed

theorem mem_render_all {char : Char} {elements : List Term}
    (member : char ∈ (renderAll true elements).toList) :
    char = ' ' ∨ ∃ element ∈ elements, char ∈ element.toText.toList := by
  induction elements with
  | nil => exact absurd member List.not_mem_nil
  | cons element rest ih =>
      cases rest with
      | nil => exact .inr ⟨element, List.mem_cons_self, member⟩
      | cons next others =>
          rw [render_all_cons, List.mem_append, List.mem_cons] at member
          rcases member with here | space | later
          · exact .inr ⟨element, List.mem_cons_self, here⟩
          · exact .inl space
          · exact (ih later).imp_right fun ⟨other, among, inside⟩ =>
              ⟨other, List.mem_cons_of_mem _ among, inside⟩

theorem Legible.no_comment {term : Term} (legible : term.Legible) : ';' ∉ term.toText.toList := by
  have between : ∀ elements : List Term, (∀ element ∈ elements, ';' ∉ element.toText.toList) →
      ';' ∉ (renderAll true elements).toList := fun elements each member =>
    (mem_render_all member).elim (by decide) fun ⟨element, among, inside⟩ =>
      each element among inside
  induction term using Term.parts_induction with
  | symbol name =>
      have isWord := (legible_symbol_iff name).1 legible
      rw [toText, render, symbol_text_of_word isWord]
      exact fun member => absurd (isWord.free ';' member) (by decide)
  | list elements ih =>
      have each := (legible_list_iff elements).1 legible
      simpa [toText, render, String.toList_append] using
        between elements fun element member => ih element member (each element member)
  | array elements ih =>
      have each := (legible_array_iff elements).1 legible
      simpa [toText, render, String.toList_append] using
        between elements fun element member => ih element member (each element member)

theorem Legible.parse_layout {term : Term} (legible : term.Legible) (limit : Nat) (name : String) :
    ∃ located, LocatedTerm.parse ⟨name, term.layout limit⟩ = .ok (some located) ∧
      located.term = term := by
  obtain ⟨read, same, spelled⟩ := legible.spelled 0
  have onOneLine : Spelling 0 term.toText.toList [read] := by
    simpa using spelled [] [] delimits_nil .nothing
  obtain ⟨located, terms, laidOut⟩ :=
    onOneLine.respaced legible.no_comment (layout_at_respaced limit 0 term) 0
  cases located with
  | nil => cases terms
  | cons only others =>
      obtain ⟨sameTerm, noOthers⟩ := List.cons.inj terms
      cases others with
      | nil =>
          refine ⟨only, (LocatedTerm.parse_some_iff _ _).2 ?_, sameTerm.trans same⟩
          exact ⟨_, [], (List.append_nil _).symm, laidOut, .inl rfl⟩
      | cons _ _ => cases noOthers

theorem layout_of_fits {limit : Nat} {term : Term} (fits : term.toText.utf8ByteSize ≤ limit) :
    term.layout limit = term.toText := by
  match term with
  | .symbol _ => rfl
  | .array _ => rfl
  | .list [] => rfl
  | .list [_] => rfl
  | .list (head :: second :: rest) =>
      rw [layout, layoutAt, if_pos]
      simpa [width] using fits

/-- Laying out only changes blanks. The layout of any width is read as the term exactly if no symbol
of the term is empty or holds a delimiter. It differs from the text on one line only in spaces that
are broken, and not at all if this text fits. -/
theorem layout_only_respaces (limit : Nat) (term : Term) (name : String) :
    ((∃ located, LocatedTerm.parse ⟨name, term.layout limit⟩ = .ok (some located) ∧
        located.term = term) ↔
      ∀ symbol ∈ term.symbols, symbol ≠ "" ∧ ∀ char ∈ symbol.toList, isDelimiter char = false) ∧
    Respaced term.toText.toList (term.layout limit).toList ∧
    (term.toText.utf8ByteSize ≤ limit → term.layout limit = term.toText) := by
  refine ⟨?_, layout_at_respaced limit 0 term, layout_of_fits⟩
  simp only [← is_word_iff]
  constructor
  · rintro ⟨located, parsed, rfl⟩
    exact LocatedTerm.parse_legible parsed
  · exact fun legible => Legible.parse_layout legible limit name

/-- A list within a list, of which only the outer one is too wide. -/
def sumOfProduct : Term :=
  tagged "add" [tagged "mul" [.symbol "x", .symbol "y"], .symbol "z"]

theorem layout_only_respaces_sum :
    sumOfProduct.layout 12 = "(add\n  (mul x y)\n  z)" ∧
      (∃ located, LocatedTerm.parse ⟨"given", sumOfProduct.layout 12⟩ = .ok (some located) ∧
        located.term = sumOfProduct) ∧
      sumOfProduct.layout 17 = sumOfProduct.toText := by
  have plain : ∀ symbol ∈ sumOfProduct.symbols, symbol ≠ "" ∧
      ∀ char ∈ symbol.toList, isDelimiter char = false := by
    have names : sumOfProduct.symbols = ["add", "mul", "x", "y", "z"] := rfl
    simp [names, isDelimiter, isBlank]
  constructor
  · decide
  · exact ⟨(layout_only_respaces 12 sumOfProduct "given").1.2 plain,
      (layout_only_respaces 17 sumOfProduct "given").2.2 (by decide)⟩

end Term

end Analog
