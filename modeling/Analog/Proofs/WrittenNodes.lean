import Analog.Proofs.ComposedAssignments
import Analog.Proofs.DecimalText
import Analog.Proofs.RenderedTerms
import Analog.Proofs.SequenceParts
import Analog.Proofs.TermReadings

/-!
# Nodes that are written and read back

A term denotes a fragment if it is made of symbols of the grammar and stands for this fragment
wherever it is read. Every kind of node has a rule of its own: if its parts are written as terms
that denote them, so is the node. The operands of a minimum must be different for this, the
locations in order and the modulations of a field apart, because reading would change them
otherwise.
-/

set_option autoImplicit false

namespace Analog

namespace Tagged

/-- Wherever this term of symbols of the grammar is read, it stands for the fragment. -/
structure Denotes (term : Term) (fragment : Fragment) : Prop where
  legible : term.Legible
  read : ∀ source located, located.term = term → readTerm source located = .ok fragment

def Written (written : Outcome Term) (fragment : Fragment) : Prop :=
  ∃ term, written = .ok term ∧ Denotes term fragment

theorem Written.bind {outcome : Outcome Term} {next : Term → Outcome Term}
    {inner outer : Fragment} (written : Written outcome inner)
    (around : ∀ term, Denotes term inner → Written (next term) outer) :
    Written (outcome >>= next) outer := by
  obtain ⟨term, rfl, denotes⟩ := written
  exact around term denotes

theorem Written.map {outcome : Outcome Term} {wrap : Term → Term} {inner outer : Fragment}
    (written : Written outcome inner)
    (around : ∀ term, Denotes term inner → Denotes (wrap term) outer) :
    Written (outcome >>= fun term => pure (wrap term)) outer :=
  written.bind fun term denotes => ⟨_, rfl, around term denotes⟩

theorem written_of_terms {outcome : Outcome (List Term)} {terms : List Term}
    {wrap : List Term → Term} {fragment : Fragment} (written : outcome = .ok terms)
    (denotes : Denotes (wrap terms) fragment) :
    Written (outcome >>= fun terms => pure (wrap terms)) fragment := by
  subst written
  exact ⟨_, rfl, denotes⟩

theorem denotes_symbol {name : String} (isWord : IsWord name.toList) :
    Denotes (.symbol name) (.symbol name) := by
  refine ⟨(Term.legible_symbol_iff name).2 isWord, fun source located same => ?_⟩
  cases located with
  | symbol span other =>
      rw [LocatedTerm.term, Term.symbol.injEq] at same
      rw [readTerm, same]
  | list span elements => cases same
  | array span elements => cases same

theorem denotes_number (value : Decimal) : Denotes (numberTerm value) (.symbol value.toText) :=
  denotes_symbol value.to_text_word

section Several

variable {terms : List Term} {fragments : List Fragment}

theorem legible_of_denotes (each : List.Forall₂ Denotes terms fragments) :
    ∀ term ∈ terms, term.Legible := fun _ member =>
  let ⟨_, _, denotes⟩ := Outcome.target_of_mem each member
  denotes.legible

theorem read_of_denotes (each : List.Forall₂ Denotes terms fragments) (source : Text.Source)
    (elements : List LocatedTerm) (same : LocatedTerm.terms elements = terms) :
    ∃ arguments : List Argument, arguments.map (·.term) = elements ∧
      arguments.map (·.value) = fragments ∧ ∀ argument ∈ arguments, argument.Read source := by
  induction each generalizing elements with
  | nil =>
      rw [LocatedTerm.terms_eq_map, List.map_eq_nil_iff] at same
      exact ⟨[], same.symm, rfl, by simp⟩
  | @cons term fragment _ _ denotes _ ih =>
      cases elements with
      | nil => cases same
      | cons element rest =>
          obtain ⟨sameTerm, sameRest⟩ := List.cons.inj same
          obtain ⟨arguments, rfl, rfl, read⟩ := ih rest sameRest
          exact ⟨⟨element, fragment⟩ :: arguments, rfl, rfl,
            List.forall_mem_cons.2 ⟨denotes.read source element sameTerm, read⟩⟩

theorem denotes_array (each : List.Forall₂ Denotes terms fragments) :
    Denotes (.array terms) (.array fragments) := by
  refine ⟨(Term.legible_array_iff terms).2 (legible_of_denotes each), fun source located same => ?_⟩
  cases located with
  | symbol span name => cases same
  | list span elements => cases same
  | array span elements =>
      rw [LocatedTerm.term, Term.array.injEq] at same
      obtain ⟨items, sameTerms, rfl, read⟩ := read_of_denotes each source elements same
      exact (read_array_ok_iff span elements _).2 ⟨items, sameTerms, read, rfl⟩

theorem tag_word {tag : String} {rule : Call → Outcome Fragment} (known : rule? tag = some rule) :
    IsWord tag.toList := by
  have words : (entryTags ++ rules.map Prod.fst).all (fun name =>
      decide (name ≠ "") && name.toList.all fun char => !Term.isDelimiter char) = true := by cbv
  have member : tag ∈ entryTags ++ rules.map Prod.fst := by
    refine List.mem_append.2 ?_
    rcases rule_cases known with ⟨isEntry, _⟩ | isRule
    · exact .inl isEntry
    · exact .inr (List.mem_map_of_mem isRule)
  exact is_word_of_all (List.all_eq_true.1 words tag member)

/-- A list denotes what the rule of its tag makes of what its other elements denote. -/
theorem denotes_tagged {tag : String} {rule : Call → Outcome Fragment} {fragment : Fragment}
    (known : rule? tag = some rule) (each : List.Forall₂ Denotes terms fragments)
    (ruled : ∀ call : Call, call.Read → call.arguments.map (·.term.term) = terms →
      call.arguments.map (·.value) = fragments → rule call = .ok fragment) :
    Denotes (.tagged tag terms) fragment := by
  have all := List.Forall₂.cons (denotes_symbol (tag_word known)) each
  refine ⟨(Term.legible_list_iff _).2 (legible_of_denotes all), fun source located same => ?_⟩
  cases located with
  | symbol span name => cases same
  | array span elements => cases same
  | list span elements =>
      rw [LocatedTerm.term, Term.tagged, Term.list.injEq] at same
      obtain ⟨arguments, rfl, values, read⟩ := read_of_denotes all source elements same
      rw [LocatedTerm.terms_eq_map, List.map_map] at same
      cases arguments with
      | nil => cases values
      | cons head arguments =>
          obtain ⟨isSymbol, sameValues⟩ := List.cons.inj values
          obtain ⟨headRead, argumentsRead⟩ := List.forall_mem_cons.1 read
          refine (read_list_ok_iff span _ _).2 ⟨head, tag, rule, arguments, rfl, headRead, isSymbol,
            known, argumentsRead, ?_⟩
          exact ruled _ argumentsRead (List.cons.inj same).2 sameValues

theorem written_all {α : Type} {write : α → Outcome Term} {make : α → Fragment} {parts : List α}
    (each : ∀ part ∈ parts, Written (write part) (make part)) :
    ∃ terms, parts.mapM write = .ok terms ∧ List.Forall₂ Denotes terms (parts.map make) := by
  obtain ⟨terms, related⟩ := Outcome.related_of_each each
  refine ⟨terms, (Outcome.mapM_ok_iff _ _ _).2 (related.imp fun _ _ written => written.1), ?_⟩
  rw [List.forall₂_map_right_iff]
  exact (related.imp fun _ _ written => written.2).flip

end Several

section Fixed

variable {tag : String} {rule : Call → Outcome Fragment} {fragment : Fragment}
variable {firstTerm secondTerm thirdTerm : Term} {first second third : Fragment}

theorem denotes_one (known : rule? tag = some rule) (firstDenotes : Denotes firstTerm first)
    (ruled : ∀ source list one, rule ⟨source, list, [⟨one, first⟩]⟩ = .ok fragment) :
    Denotes (.tagged tag [firstTerm]) fragment := by
  refine denotes_tagged known (.cons firstDenotes .nil) ?_
  rintro ⟨source, list, arguments⟩ _ _ values
  match arguments, values with
  | [⟨one, _⟩], rfl => exact ruled source list one

theorem denotes_two (known : rule? tag = some rule) (firstDenotes : Denotes firstTerm first)
    (secondDenotes : Denotes secondTerm second)
    (ruled : ∀ source list one two,
      rule ⟨source, list, [⟨one, first⟩, ⟨two, second⟩]⟩ = .ok fragment) :
    Denotes (.tagged tag [firstTerm, secondTerm]) fragment := by
  refine denotes_tagged known (.cons firstDenotes (.cons secondDenotes .nil)) ?_
  rintro ⟨source, list, arguments⟩ _ _ values
  match arguments, values with
  | [⟨one, _⟩, ⟨two, _⟩], rfl => exact ruled source list one two

theorem denotes_three (known : rule? tag = some rule) (firstDenotes : Denotes firstTerm first)
    (secondDenotes : Denotes secondTerm second) (thirdDenotes : Denotes thirdTerm third)
    (ruled : ∀ source list one two three,
      rule ⟨source, list, [⟨one, first⟩, ⟨two, second⟩, ⟨three, third⟩]⟩ = .ok fragment) :
    Denotes (.tagged tag [firstTerm, secondTerm, thirdTerm]) fragment := by
  refine denotes_tagged known (.cons firstDenotes (.cons secondDenotes (.cons thirdDenotes .nil))) ?_
  rintro ⟨source, list, arguments⟩ _ _ values
  match arguments, values with
  | [⟨one, _⟩, ⟨two, _⟩, ⟨three, _⟩], rfl => exact ruled source list one two three

end Fixed

section Arguments

variable {call : Call} {α : Type}

theorem name_of_symbol (term : LocatedTerm) (name : String) :
    call.name ⟨term, .symbol name⟩ = .ok name := rfl

theorem number_of_text {value : Decimal} (short : value.scale ≤ Decimal.scaleLimit)
    (term : LocatedTerm) : call.number ⟨term, .symbol value.toText⟩ = .ok value :=
  (Call.number_ok_iff value).2 ⟨_, rfl, Decimal.of_text_to_text short⟩

theorem needs_of_values {what : String} (sort : Fragment → Option α) (make : α → Fragment)
    (fits : ∀ value, sort (make value) = some value) {arguments : List Argument} {values : List α}
    (same : arguments.map (·.value) = values.map make) :
    arguments.mapM (call.need what sort) = .ok values := by
  rw [Outcome.mapM_ok_iff]
  rw [← List.forall₂_eq_eq_eq, List.forall₂_map_left_iff, List.forall₂_map_right_iff] at same
  exact same.imp fun argument value isValue => (Call.need_ok_iff what sort value).2
    (by rw [isValue, fits])

theorem denotes_numbers (values : List Decimal) :
    Denotes (numbersTerm values) (.array (values.map fun value => .symbol value.toText)) := by
  refine denotes_array ?_
  rw [List.forall₂_map_left_iff, List.forall₂_map_right_iff, List.forall₂_same]
  exact fun value _ => denotes_number value

theorem items_of_term {argument : Argument} (read : argument.Read call.source) {terms : List Term}
    {values : List Fragment} (isArray : argument.term.term = .array terms)
    (sameValues : argument.value = .array values) (what : String) :
    ∃ items, call.items what argument = .ok items ∧ items.map (·.value) = values := by
  obtain ⟨located, fragment⟩ := argument
  cases located with
  | symbol span name => cases isArray
  | list span elements => cases isArray
  | array span elements =>
      obtain ⟨items, rfl, _, rfl⟩ := (read_array_ok_iff span elements fragment).1 read
      exact ⟨items, Call.items_of_array what span items, Fragment.array.inj sameValues⟩

theorem numbers_of_term {argument : Argument} (read : argument.Read call.source)
    {values : List Decimal} (short : ∀ value ∈ values, value.scale ≤ Decimal.scaleLimit)
    (isArray : argument.term.term = numbersTerm values)
    (sameValues : argument.value = .array (values.map fun value => .symbol value.toText)) :
    call.numbers argument = .ok values := by
  obtain ⟨items, taken, itemValues⟩ := items_of_term read isArray sameValues "array"
  refine (Outcome.bind_ok_iff _ _ _).2 ⟨items, taken, (Outcome.mapM_ok_iff _ _ _).2 ?_⟩
  rw [← List.forall₂_eq_eq_eq, List.forall₂_map_left_iff, List.forall₂_map_right_iff] at itemValues
  refine (List.forall₂_iff_zip.2 ⟨itemValues.length_eq, fun member => ?_⟩)
  have isText := (List.forall₂_iff_zip.1 itemValues).2 member
  exact (Call.number_ok_iff _).2
    ⟨_, isText, Decimal.of_text_to_text (short _ (List.of_mem_zip member).2)⟩

end Arguments

end Tagged

open Tagged

namespace Scalar

def Restored (scalar : Scalar) : Prop := Denotes scalar.write (scalarNode scalar)

theorem restored_literal {value : Decimal} (short : value.scale ≤ Decimal.scaleLimit) :
    (literal value).Restored := by
  refine denotes_one rfl (denotes_number value) fun source list one => ?_
  simp [Rule.literal, number_of_text short]

theorem restored_variable {name : String} (isWord : IsWord name.toList) :
    (Scalar.variable name).Restored :=
  denotes_one rfl (denotes_symbol isWord) fun _ _ _ => rfl

theorem restored_assigned {name : String} {value : Decimal} (isWord : IsWord name.toList)
    (short : value.scale ≤ Decimal.scaleLimit) : (assigned name value).Restored := by
  refine denotes_two rfl (denotes_symbol isWord) (denotes_number value) fun source list one two => ?_
  simp [Rule.assigned, name_of_symbol, number_of_text short]

theorem restored_negative {operand : Scalar} (restored : operand.Restored) :
    (negative operand).Restored :=
  denotes_one rfl restored fun _ _ _ => rfl

theorem restored_add {left right : Scalar} (leftRestored : left.Restored)
    (rightRestored : right.Restored) : (add left right).Restored :=
  denotes_two rfl leftRestored rightRestored fun _ _ _ _ => rfl

theorem restored_mul {left right : Scalar} (leftRestored : left.Restored)
    (rightRestored : right.Restored) : (mul left right).Restored :=
  denotes_two rfl leftRestored rightRestored fun _ _ _ _ => rfl

theorem restored_div {left right : Scalar} (leftRestored : left.Restored)
    (rightRestored : right.Restored) : (div left right).Restored :=
  denotes_two rfl leftRestored rightRestored fun _ _ _ _ => rfl

theorem write_all_eq_map (operands : List Scalar) : writeAll operands = operands.map write := by
  induction operands with
  | nil => rfl
  | cons operand rest ih => rw [writeAll, List.map_cons, ih]

theorem denotes_operands {operands : List Scalar} (each : ∀ operand ∈ operands, operand.Restored) :
    List.Forall₂ Denotes (writeAll operands) (operands.map scalarNode) := by
  rw [write_all_eq_map, List.forall₂_map_left_iff, List.forall₂_map_right_iff, List.forall₂_same]
  exact each

/-- Different operands stay the operands of a minimum or maximum. -/
theorem several_read {build : List Scalar → Scalar} {operands : List Scalar}
    (notEmpty : operands ≠ []) {call : Call}
    (values : call.arguments.map (·.value) = operands.map scalarNode) :
    Rule.several build call = .ok (scalarNode (build operands)) := by
  have taken : call.arguments.mapM call.scalar = .ok operands := 
    needs_of_values Fragment.scalar? scalarNode (fun _ => rfl) values
  unfold Rule.several
  split
  · rename_i none
    rw [none] at values
    exact absurd (List.map_eq_nil_iff.1 values.symm) notEmpty
  · simp [taken]

theorem restored_min {operands : List Scalar} (notEmpty : operands ≠ [])
    (each : ∀ operand ∈ operands, operand.Restored) (different : distinct operands = true) :
    (min operands).Restored := by
  refine denotes_tagged rfl (denotes_operands each) fun call _ _ values => ?_
  rw [several_read notEmpty values, minimum, unique_of_distinct operands different]

theorem restored_max {operands : List Scalar} (notEmpty : operands ≠ [])
    (each : ∀ operand ∈ operands, operand.Restored) (different : distinct operands = true) :
    (max operands).Restored := by
  refine denotes_tagged rfl (denotes_operands each) fun call _ _ values => ?_
  rw [several_read notEmpty values, maximum, unique_of_distinct operands different]

def boundFragment : Option Scalar → Fragment
  | none => .symbol absentBound
  | some bound => scalarNode bound

theorem denotes_bound {bound : Option Scalar} (restored : ∀ scalar ∈ bound, scalar.Restored) :
    Denotes (writeBound bound) (boundFragment bound) := by
  cases bound with
  | none => exact denotes_symbol (is_word_of_all (by cbv))
  | some bound => exact restored bound rfl

theorem bound_read (call : Call) (term : LocatedTerm) (bound : Option Scalar) :
    call.bound ⟨term, boundFragment bound⟩ = .ok bound := by
  cases bound <;> rfl

theorem restored_slice {extent : Scalar} {start stop : Option Scalar} (restored : extent.Restored)
    (startRestored : ∀ bound ∈ start, bound.Restored)
    (stopRestored : ∀ bound ∈ stop, bound.Restored) : (slice extent start stop).Restored :=
  denotes_three rfl restored (denotes_bound startRestored) (denotes_bound stopRestored)
    fun _ _ _ _ _ => by cases start <;> cases stop <;> rfl

end Scalar

def Interval.Restored (interval : Interval) : Prop :=
  (∀ bound ∈ interval.start, bound.Restored) ∧ ∀ bound ∈ interval.stop, bound.Restored

theorem Interval.read_back (call : Call) (interval : Interval) (start stop : LocatedTerm) :
    call.interval ⟨start, Scalar.boundFragment interval.start⟩
      ⟨stop, Scalar.boundFragment interval.stop⟩ = .ok interval := by
  simp [Call.interval, Scalar.bound_read]

theorem Side.name_word (side : Side) : IsWord side.name.toList := by
  cases side <;> exact is_word_of_all (by cbv)

theorem Interpolation.name_word (interpolation : Interpolation) :
    IsWord interpolation.name.toList := by
  cases interpolation <;> exact is_word_of_all (by cbv)

theorem Kernel.name_word (kernel : Kernel) : IsWord kernel.name.toList := by
  cases kernel <;> exact is_word_of_all (by cbv)

namespace Waveform

def Restored (waveform : Waveform) : Prop := Written waveform.write (waveformNode waveform)

theorem restored_constant {value duration : Scalar} (valueRestored : value.Restored)
    (durationRestored : duration.Restored) : (constant value duration).Restored :=
  ⟨_, rfl, denotes_two rfl valueRestored durationRestored fun _ _ _ _ => rfl⟩

theorem restored_ramp {start stop duration : Scalar} (startRestored : start.Restored)
    (stopRestored : stop.Restored) (durationRestored : duration.Restored) :
    (ramp start stop duration).Restored :=
  ⟨_, rfl, denotes_three rfl startRestored stopRestored durationRestored fun _ _ _ _ _ => rfl⟩

theorem restored_poly {coefficients : List Scalar} {duration : Scalar}
    (each : ∀ coefficient ∈ coefficients, coefficient.Restored)
    (durationRestored : duration.Restored) : (poly coefficients duration).Restored := by
  refine ⟨_, rfl, denotes_tagged rfl (.cons (denotes_array (Scalar.denotes_operands each))
    (.cons durationRestored .nil)) ?_⟩
  rintro ⟨source, list, arguments⟩ read terms values
  match arguments, values with
  | [⟨one, _⟩, ⟨two, _⟩], rfl =>
      obtain ⟨items, taken, itemValues⟩ := items_of_term (read _ (by simp)) (List.cons.inj terms).1
        rfl "coefficients"
      simp only [Rule.poly, taken, Outcome.ok_bind,
        needs_of_values Fragment.scalar? scalarNode (fun _ => rfl) itemValues]
      rfl

theorem restored_negative {inner : Waveform} (restored : inner.Restored) :
    (negative inner).Restored :=
  restored.map fun _ denotes => denotes_one rfl denotes fun _ _ _ => rfl

theorem restored_add {left right : Waveform} (leftRestored : left.Restored)
    (rightRestored : right.Restored) : (add left right).Restored :=
  leftRestored.bind fun _ leftDenotes => rightRestored.map fun _ rightDenotes =>
    denotes_two rfl leftDenotes rightDenotes fun _ _ _ _ => rfl

theorem restored_scale {factor : Scalar} {inner : Waveform} (factorRestored : factor.Restored)
    (restored : inner.Restored) : (scale factor inner).Restored :=
  restored.map fun _ denotes => denotes_two rfl factorRestored denotes fun _ _ _ _ => rfl

theorem restored_slice {inner : Waveform} {interval : Interval} (restored : inner.Restored)
    (bounds : interval.Restored) : (slice inner interval).Restored := by
  refine restored.map fun _ denotes => denotes_three rfl denotes (Scalar.denotes_bound bounds.1)
    (Scalar.denotes_bound bounds.2) fun source list one two three => ?_
  simp only [Rule.sliceWaveform, Interval.read_back]
  rfl

theorem write_all_eq_mapM (parts : List Waveform) : writeAll parts = parts.mapM write := by
  induction parts with
  | nil => rfl
  | cons part rest ih => rw [writeAll, List.mapM_cons, ih]

theorem restored_append {parts : List Waveform} (notEmpty : parts ≠ [])
    (each : ∀ part ∈ parts, part.Restored) : (append parts).Restored := by
  obtain ⟨terms, written, denotes⟩ := written_all each
  rw [← write_all_eq_mapM] at written
  refine written_of_terms written (denotes_tagged rfl denotes fun call _ _ values => ?_)
  have taken : call.arguments.mapM call.waveform = .ok parts :=
    needs_of_values Fragment.waveform? waveformNode (fun _ => rfl) values
  unfold Rule.appendWaveform
  split
  · rename_i none
    rw [none] at values
    exact absurd (List.map_eq_nil_iff.1 values.symm) notEmpty
  · simp [taken]

theorem restored_record {name : String} {inner : Waveform} (side : Side)
    (isWord : IsWord name.toList) (restored : inner.Restored) :
    (record name inner side).Restored :=
  restored.map fun _ denotes => denotes_three rfl (denotes_symbol isWord) denotes
    (denotes_symbol side.name_word) fun _ _ _ _ _ => by cases side <;> rfl

theorem restored_sample {inner : Waveform} {step : Scalar} (interpolation : Interpolation)
    (restored : inner.Restored) (stepRestored : step.Restored) :
    (sample inner step interpolation).Restored :=
  restored.map fun _ denotes => denotes_three rfl denotes stepRestored
    (denotes_symbol interpolation.name_word) fun _ _ _ _ _ => by cases interpolation <;> rfl

theorem restored_smooth {inner : Waveform} {radius : Scalar} (kernel : Kernel)
    (restored : inner.Restored) (radiusRestored : radius.Restored) :
    (smooth inner radius kernel).Restored :=
  restored.map fun _ denotes => denotes_three rfl denotes radiusRestored
    (denotes_symbol kernel.name_word) fun _ _ _ _ _ => by cases kernel <;> rfl

def fillFragment : FillValue → Fragment
  | .explicit value => scalarNode value
  | .boundary side => .symbol side.name

theorem fill_read (call : Call) (term : LocatedTerm) (fill : FillValue) :
    Rule.fillValue call ⟨term, fillFragment fill⟩ = .ok fill := by
  cases fill with
  | explicit value => rfl
  | boundary side => cases side <;> rfl

theorem restored_aligned {inner : Waveform} (alignment : Side) {fill : FillValue}
    (restored : inner.Restored) (fillRestored : ∀ scalar ∈ fill.scalars, scalar.Restored) :
    (aligned inner alignment fill).Restored := by
  have fillDenotes : Denotes fill.write (fillFragment fill) := by
    cases fill with
    | explicit value => exact fillRestored value (by simp [FillValue.scalars])
    | boundary side => exact denotes_symbol side.name_word
  refine restored.map fun _ denotes => denotes_three rfl denotes
    (denotes_symbol alignment.name_word) fillDenotes fun source list one two three => ?_
  simp only [Rule.alignedWaveform, fill_read]
  cases alignment <;> rfl

end Waveform

theorem site_number_of_text {site : Nat} (small : site ≤ Rule.siteLimit) :
    Rule.siteNumber? (toString site) = some site := by
  have digits : (toString site).toList = Nat.toDigits 10 site := Nat.toList_repr
  rw [Rule.siteNumber?, digits, Decimal.digits_value_eq _ Nat.toDigits_ne_nil fun _ =>
    Nat.isDigit_of_mem_toDigits (by decide) (by decide),
    Nat.ofDigitChars_toDigits (by decide) (by decide)]
  simp [small]

theorem site_text_word (site : Nat) : IsWord (toString site).toList := by
  have digits : (toString site).toList = Nat.toDigits 10 site := Nat.toList_repr
  rw [digits]
  refine ⟨Nat.toDigits_ne_nil, fun char member => ?_⟩
  simpa using Decimal.of_digits (fun char => !Term.isDelimiter char) (by decide)
    (Nat.isDigit_of_mem_toDigits (by decide) (by decide) member)

/-- A location whose site is small enough to be read. -/
structure Location.Restored (location : Location) : Prop where
  site : location.site.toNat ≤ Rule.siteLimit
  weight : location.weight.Restored

theorem Location.Restored.denotes {location : Location} (restored : location.Restored) :
    Denotes (.tagged "location" [.symbol (toString location.site.toNat), location.weight.write])
      (.location location) := by
  refine denotes_two rfl (denotes_symbol (site_text_word location.site.toNat)) restored.weight
    fun source list one two => ?_
  refine (Outcome.bind_ok_iff _ _ _).2 ⟨toString location.site.toNat, rfl, ?_⟩
  simp only [site_number_of_text restored.site, UInt64.ofNat_toNat]
  rfl

theorem Location.near_of_restored {locations : List Location}
    (each : ∀ location ∈ locations, location.Restored) : Modulation.Near locations := by
  refine Modulation.near_of_small fun location member => ?_
  have small := (each location member).site
  unfold Rule.siteLimit at small
  omega

namespace Modulation

/-- What is written for a modulation is read as this modulation. -/
def Restored (modulation : Modulation) : Prop :=
  Denotes modulation.write (.node (.modulation modulation))

theorem restored_uniform : uniform.Restored :=
  denotes_tagged rfl .nil fun ⟨_, _, arguments⟩ _ _ values =>
    match arguments, values with
    | [], _ => rfl

theorem restored_vector {name : String} (isWord : IsWord name.toList) : (vector name).Restored :=
  denotes_one rfl (denotes_symbol isWord) fun _ _ _ => rfl

theorem restored_assigned_vector {name : String} {values : List Decimal}
    (isWord : IsWord name.toList) (short : ∀ value ∈ values, value.scale ≤ Decimal.scaleLimit) :
    (assignedVector name values).Restored := by
  refine denotes_tagged rfl (.cons (denotes_symbol isWord) (.cons (denotes_numbers values) .nil)) ?_
  rintro ⟨source, list, arguments⟩ read terms fragments
  match arguments, fragments with
  | [⟨one, _⟩, ⟨two, _⟩], rfl =>
      have sameTerm := (List.cons.inj (List.cons.inj terms).2).1
      have numbers := numbers_of_term (read ⟨two, _⟩ (by simp)) short sameTerm rfl
      simp only [Rule.assignedVector, numbers]
      rfl

theorem restored_scaled {locations : List Location} (ordered : Ordered locations)
    (each : ∀ location ∈ locations, location.Restored) : (scaled locations).Restored := by
  have denotes : List.Forall₂ Denotes
      (locations.map fun location =>
        .tagged "location" [.symbol (toString location.site.toNat), location.weight.write])
      (locations.map Fragment.location) := by
    rw [List.forall₂_map_left_iff, List.forall₂_map_right_iff, List.forall₂_same]
    exact fun location member => (each location member).denotes
  refine denotes_tagged rfl denotes fun call _ _ values => ?_
  simp only [Rule.scaledLocations,
    needs_of_values Fragment.location? Fragment.location (fun _ => rfl) values, Outcome.ok_bind,
    of_locations_eq, place_all_of_ordered (Location.near_of_restored each) ordered]
  rfl

end Modulation

/-- The target and the waveform are read as they are written. -/
structure Drive.Restored (drive : Drive) : Prop where
  target : drive.target.Restored
  waveform : drive.waveform.Restored

theorem Drive.Restored.written {drive : Drive} (restored : drive.Restored) :
    Written drive.write (.drive drive) :=
  restored.waveform.map fun _ denotes =>
    denotes_two rfl restored.target denotes fun _ _ _ _ => rfl

/-- What is written for a node is read as this node, which equals itself. -/
structure Node.Restored (node : Node) : Prop where
  written : Written node.write (.node node)
  same : node.same node = true

theorem Scalar.Restored.node {scalar : Scalar} (restored : scalar.Restored) :
    (Node.scalar scalar).Restored :=
  ⟨⟨_, rfl, restored⟩, scalar.same_refl⟩

theorem Waveform.Restored.node {waveform : Waveform} (restored : waveform.Restored) :
    (Node.waveform waveform).Restored :=
  ⟨restored, waveform.same_refl⟩

theorem Modulation.Restored.node {modulation : Modulation} (restored : modulation.Restored) :
    (Node.modulation modulation).Restored :=
  ⟨⟨_, rfl, restored⟩, modulation.same_refl⟩

/-- Drives under modulations that are apart are put back one by one. -/
theorem Field.restored {field : Field} (each : ∀ drive ∈ field.drives, drive.Restored)
    (apart : Apart field.drives) : (Node.field field).Restored := by
  obtain ⟨terms, written, denotes⟩ := written_all fun drive member => (each drive member).written
  refine ⟨written_of_terms written (denotes_tagged rfl denotes fun call _ _ values => ?_),
    Field.same_self apart⟩
  have made : Field.ofDrives field.drives = field :=
    congrArg Field.mk (of_drives_of_apart field.drives apart)
  simp only [Rule.field, needs_of_values Fragment.drive? Fragment.drive (fun _ => rfl) values,
    Outcome.ok_bind, made]
  rfl

end Analog
