import Analog.Proofs.AssignedPrograms
import Analog.Proofs.Substitution

/-!
# Substituted scalars

Substitution that gives no variable a second value tells apart what was told apart before.
So it keeps the operands of tidy minima and maxima as they are, and substituting in several
steps comes to the same as substituting at once. The value of a substituted expression is
the value of the expression where the substituted values hide those of the same names.
-/

set_option autoImplicit false

namespace Analog

/-- The second map, with the entries of the first for names that it does not have. -/
def NameMap.override {α : Type} (below above : NameMap α) : NameMap α :=
  above.entries.foldr (fun entry map => map.insert entry.1 entry.2) below

theorem NameMap.find_override {α : Type} (below above : NameMap α) (name : String) :
    (below.override above).find? name = (above.find? name).or (below.find? name) := by
  obtain ⟨entries⟩ := above
  unfold override
  induction entries with
  | nil => rfl
  | cons entry rest ih =>
      rw [List.foldr_cons, find_insert, ih]
      change _ = ((entry :: rest).lookup name).or _
      by_cases same : name = entry.1
      · rw [if_pos same, List.lookup_cons, beq_iff_eq.2 same]
        rfl
      · have different : (name == entry.1) = false := by simpa using same
        rw [if_neg same, List.lookup_cons, different]
        rfl

namespace Scalar

mutual

/-- Substitution that keeps all operands of a minimum or maximum. -/
def replace (bindings : ScalarBindings) : Scalar → Scalar
  | .literal value => .literal value
  | .variable name =>
    match bindings.find? name with
    | some value => .assigned name value
    | none => .variable name
  | .assigned name value => .assigned name value
  | .negative operand => .negative (replace bindings operand)
  | .add left right => .add (replace bindings left) (replace bindings right)
  | .mul left right => .mul (replace bindings left) (replace bindings right)
  | .div left right => .div (replace bindings left) (replace bindings right)
  | .min operands => .min (replaceAll bindings operands)
  | .max operands => .max (replaceAll bindings operands)
  | .slice extent start stop =>
    .slice (replace bindings extent) (replaceBound bindings start) (replaceBound bindings stop)

def replaceAll (bindings : ScalarBindings) : List Scalar → List Scalar
  | [] => []
  | operand :: rest => replace bindings operand :: replaceAll bindings rest

def replaceBound (bindings : ScalarBindings) : Option Scalar → Option Scalar
  | none => none
  | some bound => some (replace bindings bound)

end

theorem replace_all_eq_map (bindings : ScalarBindings) (operands : List Scalar) :
    replaceAll bindings operands = operands.map (replace bindings) := by
  induction operands with
  | nil => rfl
  | cons operand rest ih => rw [replaceAll, List.map_cons, ih]

variable {bindings : Bindings}

theorem spares_pair_iff {whole left right : Scalar}
    (parts : whole.occurrences = left.occurrences ++ right.occurrences) :
    bindings.Spares whole.assignments ↔
      bindings.Spares left.assignments ∧ bindings.Spares right.assignments := by
  rw [assignments_pair parts, Bindings.spares_append_iff]

theorem spares_choice_iff {whole : Scalar} {operands : List Scalar}
    (parts : whole.occurrences = occurrencesAll operands) :
    bindings.Spares whole.assignments ↔
      ∀ operand ∈ operands, bindings.Spares operand.assignments := by
  rw [assignments_choice parts, Bindings.spares_flat_map_iff]

theorem spares_slice_iff (extent : Scalar) (start stop : Option Scalar) :
    bindings.Spares (slice extent start stop).assignments ↔
      bindings.Spares extent.assignments ∧ (∀ bound ∈ start, bindings.Spares bound.assignments) ∧
        ∀ bound ∈ stop, bindings.Spares bound.assignments := by
  simp [assignments_slice]

theorem each_within_replace {operands others : List Scalar}
    (each : ∀ operand ∈ operands, ∀ other ∈ others,
      (operand.replace bindings.scalars).same (other.replace bindings.scalars) =
        operand.same other) :
    eachWithin (operands.map (replace bindings.scalars)) (others.map (replace bindings.scalars)) =
      eachWithin operands others := by
  rw [Bool.eq_iff_iff, each_within_iff, each_within_iff]
  simp only [List.mem_map, forall_exists_index, and_imp, forall_apply_eq_imp_iff₂,
    exists_exists_and_eq_and]
  constructor
  · intro within operand member
    obtain ⟨other, otherMember, equal⟩ := within operand member
    exact ⟨other, otherMember, by rwa [each operand member other otherMember] at equal⟩
  · intro within operand member
    obtain ⟨other, otherMember, equal⟩ := within operand member
    exact ⟨other, otherMember, by rwa [each operand member other otherMember]⟩

theorem same_bound_replace {bound other : Option Scalar}
    (each : ∀ given ∈ bound, ∀ found ∈ other,
      (given.replace bindings.scalars).same (found.replace bindings.scalars) = given.same found) :
    sameBound (replaceBound bindings.scalars bound) (replaceBound bindings.scalars other) =
      sameBound bound other := by
  cases bound with
  | none => cases other <;> rfl
  | some given =>
      cases other with
      | none => rfl
      | some found => exact each given rfl found rfl

theorem replace_variable (scalars : ScalarBindings) (name : String) :
    (Scalar.variable name).replace scalars =
      match scalars.find? name with
      | some value => .assigned name value
      | none => .variable name :=
  rfl

/-- What differs from a variable with and without a value differs from it when it is replaced. -/
theorem same_replace_variable {scalars : ScalarBindings} {scalar : Scalar} {name : String}
    (named : scalar.same (.variable name) = false)
    (assigned : ∀ value, scalar.same (.assigned name value) = false) :
    scalar.same ((Scalar.variable name).replace scalars) = scalar.same (.variable name) := by
  rw [replace_variable, named]
  cases scalars.find? name with
  | none => exact named
  | some value => exact assigned value

theorem replace_variable_same {scalars : ScalarBindings} {scalar : Scalar} {name : String}
    (named : (Scalar.variable name).same scalar = false)
    (assigned : ∀ value, (Scalar.assigned name value).same scalar = false) :
    ((Scalar.variable name).replace scalars).same scalar = (Scalar.variable name).same scalar := by
  rw [replace_variable, named]
  cases scalars.find? name with
  | none => exact named
  | some value => exact assigned value

/-- A name takes the same value everywhere, and no name that has a value already takes one. So
different expressions stay different. -/
theorem same_replace (first second : Scalar) (firstSpared : bindings.Spares first.assignments)
    (secondSpared : bindings.Spares second.assignments) :
    (first.replace bindings.scalars).same (second.replace bindings.scalars) =
      first.same second := by
  induction first using Scalar.parts_induction generalizing second with
  | literal value =>
      cases second with
      | «variable» name => exact same_replace_variable rfl fun _ => rfl
      | _ => rfl
  | named name =>
      cases second with
      | «variable» other =>
          by_cases same : name = other
          · subst same
            rw [same_refl, same_refl]
          · have different : (name == other) = false := by simpa using same
            rw [replace, replace]
            cases bindings.scalars.find? name <;> cases bindings.scalars.find? other <;>
              simp [Scalar.same, different]
      | assigned other value =>
          have unbound := (Bindings.spares_scalar_iff other value).1 secondSpared
          rw [replace, replace]
          cases found : bindings.scalars.find? name with
          | none => rfl
          | some given =>
              have different : (name == other) = false := by
                rw [beq_eq_false_iff_ne]
                rintro rfl
                rw [unbound] at found
                cases found
              simp [Scalar.same, different]
      | _ => exact replace_variable_same rfl fun _ => rfl
  | assigned name value =>
      have unbound := (Bindings.spares_scalar_iff name value).1 firstSpared
      cases second with
      | «variable» other =>
          rw [replace, replace]
          cases found : bindings.scalars.find? other with
          | none => rfl
          | some given =>
              have different : (name == other) = false := by
                rw [beq_eq_false_iff_ne]
                rintro rfl
                rw [unbound] at found
                cases found
              simp [Scalar.same, different]
      | _ => rfl
  | negative operand ih =>
      cases second with
      | «variable» name => exact same_replace_variable rfl fun _ => rfl
      | negative other => exact ih other firstSpared secondSpared
      | _ => rfl
  | add left right leftIh rightIh =>
      cases second with
      | «variable» name => exact same_replace_variable rfl fun _ => rfl
      | add otherLeft otherRight =>
          rw [spares_pair_iff rfl] at firstSpared secondSpared
          rw [replace, replace, Scalar.same, Scalar.same,
            leftIh otherLeft firstSpared.1 secondSpared.1,
            rightIh otherRight firstSpared.2 secondSpared.2]
      | _ => rfl
  | mul left right leftIh rightIh =>
      cases second with
      | «variable» name => exact same_replace_variable rfl fun _ => rfl
      | mul otherLeft otherRight =>
          rw [spares_pair_iff rfl] at firstSpared secondSpared
          rw [replace, replace, Scalar.same, Scalar.same,
            leftIh otherLeft firstSpared.1 secondSpared.1,
            rightIh otherRight firstSpared.2 secondSpared.2]
      | _ => rfl
  | div left right leftIh rightIh =>
      cases second with
      | «variable» name => exact same_replace_variable rfl fun _ => rfl
      | div otherLeft otherRight =>
          rw [spares_pair_iff rfl] at firstSpared secondSpared
          rw [replace, replace, Scalar.same, Scalar.same,
            leftIh otherLeft firstSpared.1 secondSpared.1,
            rightIh otherRight firstSpared.2 secondSpared.2]
      | _ => rfl
  | min operands ih =>
      cases second with
      | «variable» name => exact same_replace_variable rfl fun _ => rfl
      | min others =>
          rw [spares_choice_iff rfl] at firstSpared secondSpared
          rw [replace, replace, Scalar.same, Scalar.same, replace_all_eq_map, replace_all_eq_map,
            List.length_map, List.length_map, each_within_replace fun operand member other found =>
              ih operand member other (firstSpared operand member) (secondSpared other found)]
      | _ => rfl
  | max operands ih =>
      cases second with
      | «variable» name => exact same_replace_variable rfl fun _ => rfl
      | max others =>
          rw [spares_choice_iff rfl] at firstSpared secondSpared
          rw [replace, replace, Scalar.same, Scalar.same, replace_all_eq_map, replace_all_eq_map,
            List.length_map, List.length_map, each_within_replace fun operand member other found =>
              ih operand member other (firstSpared operand member) (secondSpared other found)]
      | _ => rfl
  | slice extent start stop extentIh startIh stopIh =>
      cases second with
      | «variable» name => exact same_replace_variable rfl fun _ => rfl
      | slice otherExtent otherStart otherStop =>
          rw [spares_slice_iff] at firstSpared secondSpared
          obtain ⟨extentSpared, startSpared, stopSpared⟩ := firstSpared
          obtain ⟨otherExtentSpared, otherStartSpared, otherStopSpared⟩ := secondSpared
          rw [replace, replace, Scalar.same, Scalar.same,
            extentIh otherExtent extentSpared otherExtentSpared,
            same_bound_replace fun given member found foundMember =>
              startIh given member found (startSpared given member)
                (otherStartSpared found foundMember),
            same_bound_replace fun given member found foundMember =>
              stopIh given member found (stopSpared given member)
                (otherStopSpared found foundMember)]
      | _ => rfl

/-- A function that tells apart the same expressions commutes with dropping repetitions. -/
theorem unique_map (f : Scalar → Scalar) (operands : List Scalar)
    (agrees : ∀ left ∈ operands, ∀ right ∈ operands, (f left).same (f right) = left.same right) :
    unique (operands.map f) = (unique operands).map f := by
  induction operands using List.reverseRecOn with
  | nil => rfl
  | append_singleton before last ih =>
      have kept := ih fun left leftMember right rightMember =>
        agrees left (by simp [leftMember]) right (by simp [rightMember])
      have found : ((unique before).map f).any (·.same (f last)) =
          (unique before).any (·.same last) := by
        rw [Bool.eq_iff_iff, List.any_map, List.any_eq_true, List.any_eq_true]
        refine exists_congr fun first => and_congr_right fun member => ?_
        rw [Function.comp_apply, agrees first (by simp [mem_of_mem_unique member]) last (by simp)]
      unfold unique at kept found ⊢
      rw [List.map_append, List.foldl_append, List.foldl_append, kept]
      change addUnique _ (f last) = (addUnique _ last).map f
      rw [addUnique, addUnique, found]
      split_ifs
      · rfl
      · simp

theorem substitute_tidy (bindings : ScalarBindings) (scalar : Scalar) :
    (scalar.substitute bindings).tidy = true := by
  induction scalar using Scalar.parts_induction with
  | literal value => rfl
  | named name =>
      rw [substitute]
      cases bindings.find? name <;> rfl
  | assigned name value => rfl
  | negative operand ih => exact ih
  | add left right leftIh rightIh
  | mul left right leftIh rightIh
  | div left right leftIh rightIh => rw [substitute, tidy, leftIh, rightIh, Bool.and_self]
  | min operands ih =>
      rw [substitute, substitute_all_eq_map]
      exact minimum_tidy (List.forall_mem_map.2 ih)
  | max operands ih =>
      rw [substitute, substitute_all_eq_map]
      exact maximum_tidy (List.forall_mem_map.2 ih)
  | slice extent start stop extentIh startIh stopIh =>
      rw [substitute, tidy, extentIh, substitute_bound_eq_map, substitute_bound_eq_map]
      cases start <;> cases stop <;> simp_all [tidyBound]

/-- The operands of a tidy minimum or maximum stay different, so none is dropped. -/
theorem unique_replaced {operands : List Scalar} (different : distinct operands = true)
    (spared : ∀ operand ∈ operands, bindings.Spares operand.assignments)
    (each : ∀ operand ∈ operands,
      operand.substitute bindings.scalars = operand.replace bindings.scalars) :
    unique (substituteAll bindings.scalars operands) = replaceAll bindings.scalars operands := by
  rw [substitute_all_eq_map, replace_all_eq_map, List.map_congr_left each,
    unique_map _ _ fun left leftMember right rightMember =>
      same_replace left right (spared left leftMember) (spared right rightMember),
    unique_of_distinct operands different]

theorem replaced_bound {bound : Option Scalar}
    (each : ∀ given ∈ bound,
      given.substitute bindings.scalars = given.replace bindings.scalars) :
    substituteBound bindings.scalars bound = replaceBound bindings.scalars bound := by
  cases bound with
  | none => rfl
  | some given => rw [substituteBound, replaceBound, each given rfl]

theorem substitute_eq_replace (scalar : Scalar) (tidied : scalar.tidy = true)
    (spared : bindings.Spares scalar.assignments) :
    scalar.substitute bindings.scalars = scalar.replace bindings.scalars := by
  induction scalar using Scalar.parts_induction with
  | literal value => rfl
  | named name => rfl
  | assigned name value => rfl
  | negative operand ih => rw [substitute, replace, ih tidied spared]
  | add left right leftIh rightIh
  | mul left right leftIh rightIh
  | div left right leftIh rightIh =>
      rw [tidy, Bool.and_eq_true] at tidied
      rw [spares_pair_iff rfl] at spared
      rw [substitute, replace, leftIh tidied.1 spared.1, rightIh tidied.2 spared.2]
  | min operands ih =>
      rw [tidy, Bool.and_eq_true, tidy_all_iff] at tidied
      rw [spares_choice_iff rfl] at spared
      rw [substitute, replace, minimum, unique_replaced tidied.1 spared fun operand member =>
        ih operand member (tidied.2 operand member) (spared operand member)]
  | max operands ih =>
      rw [tidy, Bool.and_eq_true, tidy_all_iff] at tidied
      rw [spares_choice_iff rfl] at spared
      rw [substitute, replace, maximum, unique_replaced tidied.1 spared fun operand member =>
        ih operand member (tidied.2 operand member) (spared operand member)]
  | slice extent start stop extentIh startIh stopIh =>
      rw [tidy, Bool.and_eq_true, Bool.and_eq_true, tidy_bound_iff, tidy_bound_iff] at tidied
      rw [spares_slice_iff] at spared
      obtain ⟨⟨extentTidy, startTidy⟩, stopTidy⟩ := tidied
      obtain ⟨extentSpared, startSpared, stopSpared⟩ := spared
      rw [substitute, replace, extentIh extentTidy extentSpared,
        replaced_bound fun given member =>
          startIh given member (startTidy given member) (startSpared given member),
        replaced_bound fun given member =>
          stopIh given member (stopTidy given member) (stopSpared given member)]

theorem same_substitute {first second : Scalar} (firstTidy : first.tidy = true)
    (secondTidy : second.tidy = true) (firstSpared : bindings.Spares first.assignments)
    (secondSpared : bindings.Spares second.assignments) :
    (first.substitute bindings.scalars).same (second.substitute bindings.scalars) =
      first.same second := by
  rw [substitute_eq_replace first firstTidy firstSpared,
    substitute_eq_replace second secondTidy secondSpared,
    same_replace first second firstSpared secondSpared]

theorem to_term_replace (bindings : ScalarBindings) (scalar : Scalar) :
    (scalar.replace bindings).toTerm = scalar.toTerm := by
  have all : ∀ operands : List Scalar,
      (∀ operand ∈ operands, (operand.replace bindings).toTerm = operand.toTerm) →
      toTerms (replaceAll bindings operands) = toTerms operands := by
    intro operands each
    induction operands with
    | nil => rfl
    | cons operand rest ih =>
        rw [replaceAll, toTerms, toTerms, each operand (by simp),
          ih fun other member => each other (by simp [member])]
  have bound : ∀ bound : Option Scalar,
      (∀ given ∈ bound, (given.replace bindings).toTerm = given.toTerm) →
      boundTerm (replaceBound bindings bound) = boundTerm bound := by
    intro bound each
    cases bound with
    | none => rfl
    | some given => exact each given rfl
  induction scalar using Scalar.parts_induction with
  | literal value => rfl
  | named name =>
      rw [replace]
      cases bindings.find? name <;> rfl
  | assigned name value => rfl
  | negative operand ih => rw [replace, toTerm, toTerm, ih]
  | add left right leftIh rightIh
  | mul left right leftIh rightIh
  | div left right leftIh rightIh => rw [replace, toTerm, toTerm, leftIh, rightIh]
  | min operands ih => rw [replace, toTerm, toTerm, all operands ih]
  | max operands ih => rw [replace, toTerm, toTerm, all operands ih]
  | slice extent start stop extentIh startIh stopIh =>
      rw [replace, toTerm, toTerm, extentIh, bound start startIh, bound stop stopIh]

theorem text_replace (bindings : ScalarBindings) (scalar : Scalar) :
    (scalar.replace bindings).text = scalar.text := by
  rw [text, text, to_term_replace]

/-- The value, or the failure, of a replaced expression is that of the expression where the
replaced values are bound. -/
theorem eval_replace (given bindings : ScalarBindings) (scalar : Scalar) :
    (scalar.replace given).eval bindings = scalar.eval (bindings.override given) := by
  have all : ∀ operands : List Scalar,
      (∀ operand ∈ operands,
        (operand.replace given).eval bindings = operand.eval (bindings.override given)) →
      evalAll bindings (replaceAll given operands) =
        evalAll (bindings.override given) operands := by
    intro operands each
    induction operands with
    | nil => rfl
    | cons operand rest ih =>
        rw [replaceAll, evalAll, evalAll, each operand (by simp),
          ih fun other member => each other (by simp [member])]
  have bound : ∀ bound : Option Scalar,
      (∀ found ∈ bound,
        (found.replace given).eval bindings = found.eval (bindings.override given)) →
      evalBound bindings (replaceBound given bound) =
        evalBound (bindings.override given) bound := by
    intro bound each
    cases bound with
    | none => rfl
    | some found => rw [replaceBound, evalBound, evalBound, each found rfl]
  induction scalar using Scalar.parts_induction with
  | literal value => rfl
  | named name =>
      rw [replace, eval, NameMap.find_override]
      cases given.find? name <;> rfl
  | assigned name value => rfl
  | negative operand ih => rw [replace, eval, eval, ih]
  | add left right leftIh rightIh
  | mul left right leftIh rightIh => rw [replace, eval, eval, leftIh, rightIh]
  | div left right leftIh rightIh =>
      have shown := text_replace given (.div left right)
      rw [replace] at shown ⊢
      rw [eval, eval, leftIh, rightIh, shown]
  | min operands ih =>
      have shown := text_replace given (.min operands)
      rw [replace] at shown ⊢
      rw [eval, eval, all operands ih, shown]
  | max operands ih =>
      have shown := text_replace given (.max operands)
      rw [replace] at shown ⊢
      rw [eval, eval, all operands ih, shown]
  | slice extent start stop extentIh startIh stopIh =>
      have shown := text_replace given (.slice extent start stop)
      rw [replace] at shown ⊢
      rw [eval, eval, extentIh, bound start startIh, bound stop stopIh, shown]

end Scalar

end Analog
