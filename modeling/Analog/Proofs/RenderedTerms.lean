import Analog.Proofs.TermGrammar

/-!
# Terms read back from their text

A term is written between brackets and blanks. A symbol that holds a delimiter is put between
quotation marks, but these mean nothing to the reader, which cuts the symbol at the delimiter all
the same. So a term is read back exactly if no symbol in it is empty or holds a delimiter.
-/

set_option autoImplicit false

namespace Analog

open Text

/-- Induction over terms, in which a list or array may assume the statement of every element. -/
@[elab_as_elim]
theorem Term.parts_induction {motive : Term → Prop} (symbol : ∀ name, motive (.symbol name))
    (list : ∀ elements, (∀ element ∈ elements, motive element) → motive (.list elements))
    (array : ∀ elements, (∀ element ∈ elements, motive element) → motive (.array elements))
    (term : Term) : motive term :=
  @Term.rec motive (fun elements => ∀ element ∈ elements, motive element) symbol list array
    (fun _ member => absurd member List.not_mem_nil)
    (fun _ _ first rest element member =>
      (List.mem_cons.1 member).elim (fun same => same ▸ first) (rest element))
    term

namespace Term

mutual

def symbols : Term → List String
  | .symbol name => [name]
  | .list elements => symbolsAll elements
  | .array elements => symbolsAll elements

def symbolsAll : List Term → List String
  | [] => []
  | element :: rest => symbols element ++ symbolsAll rest

end

def Legible (term : Term) : Prop :=
  ∀ name ∈ term.symbols, IsWord name.toList

theorem symbols_all_eq (elements : List Term) : symbolsAll elements = elements.flatMap symbols := by
  induction elements with
  | nil => rfl
  | cons element rest ih => rw [symbolsAll, List.flatMap_cons, ih]

theorem legible_symbol_iff (name : String) : (symbol name).Legible ↔ IsWord name.toList := by
  simp [Legible, symbols]

theorem legible_all_iff (elements : List Term) :
    (∀ name ∈ symbolsAll elements, IsWord name.toList) ↔ ∀ element ∈ elements, element.Legible := by
  simp only [symbols_all_eq, List.mem_flatMap, Legible]
  exact ⟨fun all element member name found => all name ⟨element, member, found⟩,
    fun each name ⟨element, member, found⟩ => each element member name found⟩

theorem legible_list_iff (elements : List Term) :
    (list elements).Legible ↔ ∀ element ∈ elements, element.Legible := by
  rw [← legible_all_iff, Legible, symbols]

theorem legible_array_iff (elements : List Term) :
    (array elements).Legible ↔ ∀ element ∈ elements, element.Legible := by
  rw [← legible_all_iff, Legible, symbols]

theorem symbol_text_of_word {name : String} (isWord : IsWord name.toList) :
    symbolText true name = name := by
  have free : name.toList.any isDelimiter = false := by
    rw [List.any_eq_false]
    intro char member
    rw [isWord.free char member]
    exact Bool.false_ne_true
  simp [symbolText, free]

def Spelled (term : Term) : Prop :=
  ∀ start, ∃ located : LocatedTerm, located.term = term ∧ ∀ rest terms, Delimits rest →
    Spelling (start + term.toText.toList.length) rest terms →
    Spelling start (term.toText.toList ++ rest) (located :: terms)

theorem spelled_all (elements : List Term) (each : ∀ element ∈ elements, element.Spelled)
    (start : Nat) :
    ∃ located, LocatedTerm.terms located = elements ∧
      Spelling start (renderAll true elements).toList located := by
  induction elements generalizing start with
  | nil => exact ⟨[], rfl, .nothing⟩
  | cons element rest ih =>
      obtain ⟨first, firstTerm, firstSpelled⟩ := each element (by simp) start
      cases rest with
      | nil =>
          refine ⟨[first], by simp [LocatedTerm.terms, firstTerm], ?_⟩
          simpa [renderAll, toText] using firstSpelled [] [] delimits_nil .nothing
      | cons next others =>
          obtain ⟨later, laterTerms, laterSpelled⟩ :=
            ih (fun other member => each other (by simp [member])) (start + element.toText.toList.length + 1)
          refine ⟨first :: later, by rw [LocatedTerm.terms, firstTerm, laterTerms], ?_⟩
          have spelled := firstSpelled _ later ((delimits_cons_iff ' ' _).2 rfl)
            (.blank rfl laterSpelled)
          simpa [renderAll, toText, String.toList_append] using spelled

theorem enclosed_spelled (bracket : Bracket) {elements : List Term} {term : Term}
    (each : ∀ element ∈ elements, element.Spelled)
    (text : term.toText.toList =
      bracket.opening :: ((renderAll true elements).toList ++ [bracket.closing]))
    (made : ∀ span located, LocatedTerm.terms located = elements →
      (LocatedTerm.enclosed bracket span located).term = term) : term.Spelled := by
  intro start
  obtain ⟨located, terms, inner⟩ := spelled_all elements each (start + 1)
  refine ⟨_, made ⟨start, start + (renderAll true elements).toList.length + 2⟩ located terms,
    fun rest later _ outside => ?_⟩
  rw [text] at outside ⊢
  have spelled := Spelling.enclosed bracket inner (by simpa [Nat.add_assoc] using outside)
  simpa using spelled

theorem Legible.spelled {term : Term} (legible : term.Legible) : term.Spelled := by
  induction term using Term.parts_induction with
  | symbol name =>
      have isWord := (legible_symbol_iff name).1 legible
      intro start
      refine ⟨.symbol ⟨start, start + name.toList.length⟩ name, rfl, fun rest terms delimits spelling => ?_⟩
      rw [toText, render, symbol_text_of_word isWord] at spelling ⊢
      simpa using Spelling.symbol isWord delimits spelling
  | list elements ih =>
      have each := (legible_list_iff elements).1 legible
      refine enclosed_spelled .round (fun element member => ih element member (each element member))
        ?_ fun span located terms => ?_
      · simp [toText, render, String.toList_append, Bracket.opening, Bracket.closing]
      · rw [LocatedTerm.enclosed, LocatedTerm.term, terms]
  | array elements ih =>
      have each := (legible_array_iff elements).1 legible
      refine enclosed_spelled .square (fun element member => ih element member (each element member))
        ?_ fun span located terms => ?_
      · simp [toText, render, String.toList_append, Bracket.opening, Bracket.closing]
      · rw [LocatedTerm.enclosed, LocatedTerm.term, terms]

theorem Legible.parse_text {term : Term} (legible : term.Legible) (name : String) :
    ∃ located, LocatedTerm.parse ⟨name, term.toText⟩ = .ok (some located) ∧ located.term = term := by
  obtain ⟨located, same, spelled⟩ := legible.spelled 0
  refine ⟨located, (LocatedTerm.parse_some_iff _ _).2 ?_, same⟩
  exact ⟨term.toText.toList, [], by simp, by simpa using spelled [] [] delimits_nil .nothing, .inl rfl⟩

end Term

theorem Spelling.legible {start : Nat} {chars : List Char} {terms : List LocatedTerm}
    (spelling : Spelling start chars terms) :
    ∀ term ∈ LocatedTerm.terms terms, term.Legible := by
  induction spelling with
  | nothing => simp [LocatedTerm.terms]
  | blank _ _ ih => exact ih
  | comment _ _ ih => exact ih
  | symbol isWord _ _ ih =>
      rw [LocatedTerm.terms, List.forall_mem_cons]
      exact ⟨(Term.legible_symbol_iff _).2 (by simpa using isWord), ih⟩
  | enclosed bracket _ _ innerIh restIh =>
      rw [LocatedTerm.terms, List.forall_mem_cons]
      refine ⟨?_, restIh⟩
      cases bracket with
      | round => exact (Term.legible_list_iff _).2 innerIh
      | square => exact (Term.legible_array_iff _).2 innerIh

theorem LocatedTerm.parse_legible {source : Source} {located : LocatedTerm}
    (parsed : parse source = .ok (some located)) : located.term.Legible := by
  obtain ⟨_, _, _, spelling, _⟩ := (parse_some_iff _ _).1 parsed
  exact spelling.legible _ (by simp [LocatedTerm.terms])

theorem is_word_iff (name : String) :
    IsWord name.toList ↔ name ≠ "" ∧ ∀ char ∈ name.toList, Term.isDelimiter char = false := by
  constructor
  · intro isWord
    refine ⟨?_, isWord.free⟩
    rintro rfl
    exact isWord.notEmpty rfl
  · rintro ⟨notEmpty, free⟩
    exact ⟨by simpa using notEmpty, free⟩

/-- A name that can be run through is seen to be a symbol of the grammar. -/
theorem is_word_of_all {name : String}
    (plain : (decide (name ≠ "") && name.toList.all fun char => !Term.isDelimiter char) = true) :
    IsWord name.toList :=
  (is_word_iff name).2 (by simpa using plain)

/-- The quoted text of a term is read as this term exactly if no symbol of it is empty or holds a
delimiter. -/
theorem Term.read_back_iff (term : Term) (name : String) :
    (∃ located, LocatedTerm.parse ⟨name, term.toText⟩ = .ok (some located) ∧ located.term = term) ↔
      ∀ symbol ∈ term.symbols, symbol ≠ "" ∧ ∀ char ∈ symbol.toList, isDelimiter char = false := by
  simp only [← is_word_iff]
  constructor
  · rintro ⟨located, parsed, rfl⟩
    exact LocatedTerm.parse_legible parsed
  · exact fun legible => Legible.parse_text legible name

/-- A symbol with a blank in it is put between quotation marks, and is not read back. -/
theorem Term.spaced_symbol_not_read_back :
    (∀ symbol ∈ (Term.symbol "a b").symbols, symbol ≠ "") ∧
      (Term.symbol "a b").toText = "\"a b\"" ∧
      ¬∃ located, LocatedTerm.parse ⟨"", (Term.symbol "a b").toText⟩ = .ok (some located) ∧
        located.term = .symbol "a b" := by
  refine ⟨by decide, by decide, ?_⟩
  rintro ⟨located, parsed, same⟩
  have legible := LocatedTerm.parse_legible parsed
  rw [same, legible_symbol_iff] at legible
  exact absurd (legible.free ' ' (by decide)) (by decide)

end Analog
