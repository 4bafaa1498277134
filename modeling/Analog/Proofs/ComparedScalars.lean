import Analog.Proofs.ChannelEquality
import Analog.Proofs.RelatedScalars
import Analog.Scalar.Comparison

/-!
# Compared scalars

The loop that compares scalars decides their equality if both are tidy. Parts that are shared are
equal since equality is reflexive, and parts with different fingerprints are not since equal
scalars have equal ones. Scalars that are made by constructors are tidy: the constructors of
minima and maxima drop repetitions by the same loop, so both facts are shown together.
-/

set_option autoImplicit false

namespace Analog.Scalar

def Sharing (shared : Scalar → Scalar → Bool) : Prop :=
  ∀ left right, shared left right = true → left = right

theorem tidy_children {scalar child : Scalar} (tidied : scalar.tidy = true)
    (member : child ∈ scalar.children) : child.tidy = true := by
  cases scalar with
  | negative operand => rwa [List.mem_singleton.1 member]
  | add left right | mul left right | div left right =>
      rw [tidy, Bool.and_eq_true] at tidied
      simp only [children, List.mem_cons, List.not_mem_nil, or_false] at member
      rcases member with rfl | rfl
      · exact tidied.1
      · exact tidied.2
  | min operands | max operands =>
      rw [tidy, Bool.and_eq_true, tidy_all_iff] at tidied
      exact tidied.2 child member
  | slice extent start stop =>
      rw [tidy, Bool.and_eq_true, Bool.and_eq_true, tidy_bound_iff, tidy_bound_iff] at tidied
      simp only [children, List.mem_cons, List.mem_append, Option.mem_toList] at member
      rcases member with rfl | given | given
      · exact tidied.1.1
      · exact tidied.1.2 child given
      · exact tidied.2 child given
  | _ => exact absurd member List.not_mem_nil

/-- Expressions other than minima and maxima are equal if they are alike at their heads and their
parts are equal in order. -/
theorem same_iff_parts {left right : Scalar} (notSets : bothSets left right = false) :
    left.same right = true ↔ sameHead left right = true ∧
      ∀ pair ∈ left.children.zip right.children, pair.1.same pair.2 = true := by
  cases left with
  | literal value =>
      rw [literal_same_iff]
      cases right <;> simp [sameHead, children]
  | «variable» name =>
      rw [variable_same_iff]
      cases right <;> simp [sameHead, children]
  | assigned name value =>
      rw [assigned_same_iff]
      cases right <;> simp [sameHead, children]
  | negative operand =>
      rw [negative_same_iff]
      cases right <;> simp [sameHead, children]
  | add first second =>
      rw [add_same_iff]
      cases right <;> simp [sameHead, children]
  | mul first second =>
      rw [mul_same_iff]
      cases right <;> simp [sameHead, children]
  | div first second =>
      rw [div_same_iff]
      cases right <;> simp [sameHead, children]
  | min operands =>
      rw [min_same_iff]
      cases right <;> simp_all [sameHead, bothSets]
  | max operands =>
      rw [max_same_iff]
      cases right <;> simp_all [sameHead, bothSets]
  | slice extent start stop =>
      rw [slice_same_iff]
      cases right with
      | slice other otherStart otherStop =>
          cases start <;> cases stop <;> cases otherStart <;> cases otherStop <;>
            simp [same_bound_iff, sameHead, children, and_comm, and_left_comm]
      | _ => simp [sameHead]

/-- Minima and maxima are equal if they have as many operands and those of the one are among those
of the other. -/
theorem same_iff_within {left right : Scalar} (sets : bothSets left right = true) :
    left.same right = true ↔ left.children.length = right.children.length ∧
      ∀ operand ∈ left.children, ∃ other ∈ right.children, operand.same other = true := by
  cases left with
  | min operands =>
      rw [min_same_iff]
      cases right <;> simp_all [bothSets, children]
  | max operands =>
      rw [max_same_iff]
      cases right <;> simp_all [bothSets, children]
  | _ => simp [bothSets] at sets

def AllSame (worklist : Stack (Scalar × Scalar)) : Prop :=
  ∀ pair ∈ worklist.items, pair.1.same pair.2 = true

def AllTidy (worklist : Stack (Scalar × Scalar)) : Prop :=
  ∀ pair ∈ worklist.items, pair.1.tidy = true ∧ pair.2.tidy = true

section Loop

variable {left right : Scalar} {rest : List (Scalar × Scalar)} {shared : Scalar → Scalar → Bool}

theorem all_same_cons :
    AllSame ⟨(left, right) :: rest⟩ ↔ left.same right = true ∧ AllSame ⟨rest⟩ :=
  List.forall_mem_cons

theorem all_same_pushed (pairs : List (Scalar × Scalar)) :
    AllSame (Stack.pushAll ⟨rest⟩ pairs) ↔
      (∀ pair ∈ pairs, pair.1.same pair.2 = true) ∧ AllSame ⟨rest⟩ := by
  rw [AllSame, Stack.pushAll, List.forall_mem_append]
  simp only [List.mem_reverse, AllSame]

theorem all_tidy_parts (tidied : AllTidy ⟨(left, right) :: rest⟩) :
    AllTidy (Stack.pushAll ⟨rest⟩ (left.children.zip right.children)) := by
  obtain ⟨⟨leftTidy, rightTidy⟩, restTidy⟩ := List.forall_mem_cons.1 tidied
  refine List.forall_mem_append.2 ⟨fun pair member => ?_, restTidy⟩
  obtain ⟨leftMember, rightMember⟩ := List.of_mem_zip (List.mem_reverse.1 member)
  exact ⟨tidy_children leftTidy leftMember, tidy_children rightTidy rightMember⟩

theorem told_apart_of_same (tidied : left.tidy = true) (equal : left.same right = true) :
    left.toldApart right = false := by
  rw [toldApart, fingerprint_of_same left right tidied equal]
  simp

/-- Operands are gone through until one has no equal among the others. They are compared the other
way round, which is the same for tidy ones. -/
theorem operands_compared_iff (leftTidy : left.tidy = true) (rightTidy : right.tidy = true)
    (compared : ∀ operand ∈ left.children, ∀ other ∈ right.children,
      (compare shared ⟨[(other, operand)]⟩ = true ↔ AllSame ⟨[(other, operand)]⟩)) :
    (left.children.attach.all fun operand => right.children.attach.any fun other =>
        compare shared ⟨[(other.1, operand.1)]⟩) = true ↔
      ∀ operand ∈ left.children, ∃ other ∈ right.children, operand.same other = true := by
  simp only [List.all_eq_true, List.any_eq_true, List.mem_attach, true_and, forall_const,
    Subtype.forall, Subtype.exists, exists_prop]
  refine forall₂_congr fun operand member => exists_congr fun other =>
    and_congr_right fun otherMember => ?_
  rw [compared operand member other otherMember, all_same_cons]
  constructor
  · exact fun both => same_symm other operand (tidy_children rightTidy otherMember) both.1
  · exact fun equal => ⟨same_symm operand other (tidy_children leftTidy member) equal,
      fun _ none => absurd none List.not_mem_nil⟩

/-- The loop finds all pairs of tidy scalars equal if they are. -/
theorem compare_iff (sharing : Sharing shared) (worklist : Stack (Scalar × Scalar))
    (tidied : AllTidy worklist) : compare shared worklist = true ↔ AllSame worklist := by
  -- A step leaves smaller pairs on the stack, and compares operands on a stack of their own.
  induction size : pairsSize worklist.items using Nat.strong_induction_on generalizing worklist with
  | _ bound ih =>
    subst size
    obtain ⟨_ | ⟨⟨left, right⟩, rest⟩⟩ := worklist
    · simp [compare, AllSame]
    obtain ⟨⟨leftTidy, rightTidy⟩, restTidy⟩ := List.forall_mem_cons.1 tidied
    have restIff := ih _ (pairs_size_rest_lt left right rest) ⟨rest⟩ restTidy rfl
    have partsIff := ih _ (pairs_size_children_lt left right rest) _ (all_tidy_parts tidied) rfl
    have operandsIff := operands_compared_iff leftTidy rightTidy
      fun operand member other otherMember =>
        ih _ (pairs_size_of_children_lt member otherMember rest) ⟨[(other, operand)]⟩
          (List.forall_mem_singleton.2 ⟨tidy_children rightTidy otherMember,
            tidy_children leftTidy member⟩) rfl
    rw [all_same_cons, compare]
    split_ifs with isShared apart sets
    · rw [restIff, sharing left right isShared, same_refl, eq_self_iff_true, true_and]
    · refine iff_of_false not_false fun both => ?_
      rw [told_apart_of_same leftTidy both.1] at apart
      exact Bool.false_ne_true apart
    · rw [same_iff_within sets, Bool.and_eq_true, Bool.and_eq_true, beq_iff_eq, operandsIff,
        restIff]
    · rw [same_iff_parts (Bool.eq_false_iff.2 sets), Bool.and_eq_true, partsIff, all_same_pushed,
        and_assoc]

end Loop

section Built

variable {shared : Scalar → Scalar → Bool}

theorem equal_eq_same (sharing : Sharing shared) {left right : Scalar} (leftTidy : left.tidy = true)
    (rightTidy : right.tidy = true) : equal shared left right = left.same right := by
  rw [Bool.eq_iff_iff]
  refine (compare_iff sharing _ (List.forall_mem_singleton.2 ⟨leftTidy, rightTidy⟩)).trans ?_
  exact List.forall_mem_singleton

/-- Scalars that constructors make. Whenever repetitions are dropped, other parts may be known to
be shared. -/
inductive Built : Scalar → Prop
  | literal (value : Decimal) : Built (literal value)
  | named (name : String) : Built (.variable name)
  | assigned (name : String) (value : Decimal) : Built (assigned name value)
  | negative {operand : Scalar} : Built operand → Built (negative operand)
  | add {left right : Scalar} : Built left → Built right → Built (add left right)
  | mul {left right : Scalar} : Built left → Built right → Built (mul left right)
  | div {left right : Scalar} : Built left → Built right → Built (div left right)
  | minimum {shared : Scalar → Scalar → Bool} {operands : List Scalar} : Sharing shared →
      (∀ operand ∈ operands, Built operand) → Built (min (dropRepeated shared operands))
  | maximum {shared : Scalar → Scalar → Bool} {operands : List Scalar} : Sharing shared →
      (∀ operand ∈ operands, Built operand) → Built (max (dropRepeated shared operands))
  | slice {extent : Scalar} {start stop : Option Scalar} : Built extent →
      (∀ bound ∈ start, Built bound) → (∀ bound ∈ stop, Built bound) →
      Built (slice extent start stop)

theorem drop_repeated_eq_unique (sharing : Sharing shared) {operands : List Scalar}
    (tidied : ∀ operand ∈ operands, operand.tidy = true) :
    dropRepeated shared operands = unique operands := by
  have steps : ∀ kept : List Scalar, (∀ earlier ∈ kept, earlier.tidy = true) →
      operands.foldl (fun kept operand =>
          if kept.any (equal shared · operand) then kept else kept ++ [operand]) kept =
        operands.foldl addUnique kept := by
    induction operands with
    | nil => exact fun kept _ => rfl
    | cons operand rest ih =>
        intro kept keptTidy
        have operandTidy := tidied operand List.mem_cons_self
        have sameTest : kept.any (equal shared · operand) = kept.any (·.same operand) := by
          rw [Bool.eq_iff_iff, List.any_eq_true, List.any_eq_true]
          exact exists_congr fun earlier => and_congr_right fun member => by
            rw [equal_eq_same sharing (keptTidy earlier member) operandTidy]
        rw [List.foldl_cons, List.foldl_cons, sameTest]
        refine ih (fun later member => tidied later (List.mem_cons_of_mem _ member)) _ ?_
        split
        · exact keptTidy
        · exact List.forall_mem_append.2 ⟨keptTidy, List.forall_mem_singleton.2 operandTidy⟩
  exact steps [] fun earlier none => absurd none List.not_mem_nil

theorem operands_tidy_of_dropped (sharing : Sharing shared) {operands : List Scalar}
    (tidied : ∀ operand ∈ operands, operand.tidy = true) :
    (distinct (dropRepeated shared operands) && tidyAll (dropRepeated shared operands)) = true := by
  rw [drop_repeated_eq_unique sharing tidied, unique_distinct, Bool.true_and, tidy_all_iff]
  exact fun operand member => tidied operand (mem_of_mem_unique member)

theorem Built.tidy {scalar : Scalar} (built : Built scalar) : scalar.tidy = true := by
  induction built with
  | literal | named | assigned => rfl
  | negative _ ih => exact ih
  | add _ _ leftIh rightIh | mul _ _ leftIh rightIh | div _ _ leftIh rightIh =>
      rw [Scalar.tidy, leftIh, rightIh, Bool.and_self]
  | minimum sharing _ ih | maximum sharing _ ih => exact operands_tidy_of_dropped sharing ih
  | slice _ _ _ extentIh startIh stopIh =>
      rw [Scalar.tidy, extentIh, (tidy_bound_iff _).2 startIh, (tidy_bound_iff _).2 stopIh,
        Bool.and_self, Bool.and_self]

theorem built_of_tidy (scalar : Scalar) (tidied : scalar.tidy = true) : Built scalar := by
  have nothingShared : Sharing fun _ _ => false := fun left right impossible => nomatch impossible
  have dropped : ∀ operands : List Scalar, distinct operands = true →
      (∀ operand ∈ operands, operand.tidy = true) →
      dropRepeated (fun _ _ => false) operands = operands := fun operands different allTidy =>
    (drop_repeated_eq_unique nothingShared allTidy).trans (unique_of_distinct operands different)
  induction scalar using Scalar.parts_induction with
  | literal value => exact .literal value
  | named name => exact .named name
  | assigned name value => exact .assigned name value
  | negative operand ih => exact .negative (ih tidied)
  | add left right leftIh rightIh =>
      rw [Scalar.tidy, Bool.and_eq_true] at tidied
      exact .add (leftIh tidied.1) (rightIh tidied.2)
  | mul left right leftIh rightIh =>
      rw [Scalar.tidy, Bool.and_eq_true] at tidied
      exact .mul (leftIh tidied.1) (rightIh tidied.2)
  | div left right leftIh rightIh =>
      rw [Scalar.tidy, Bool.and_eq_true] at tidied
      exact .div (leftIh tidied.1) (rightIh tidied.2)
  | min operands ih =>
      rw [Scalar.tidy, Bool.and_eq_true, tidy_all_iff] at tidied
      rw [← dropped operands tidied.1 tidied.2]
      exact .minimum nothingShared fun operand member => ih operand member (tidied.2 operand member)
  | max operands ih =>
      rw [Scalar.tidy, Bool.and_eq_true, tidy_all_iff] at tidied
      rw [← dropped operands tidied.1 tidied.2]
      exact .maximum nothingShared fun operand member => ih operand member (tidied.2 operand member)
  | slice extent start stop extentIh startIh stopIh =>
      rw [Scalar.tidy, Bool.and_eq_true, Bool.and_eq_true, tidy_bound_iff, tidy_bound_iff] at tidied
      exact .slice (extentIh tidied.1.1)
        (fun bound given => startIh bound given (tidied.1.2 bound given))
        fun bound given => stopIh bound given (tidied.2 bound given)

end Built

/-- Comparison decides whether scalars from constructors are related, whatever is known of shared
parts, and so does structural recursion. It is an equivalence, and scalars that are found equal
have equal fingerprints. -/
theorem comparison_decides_relation (shared : Scalar → Scalar → Bool) (first second third : Scalar)
    (sharing : ∀ left right, shared left right = true → left = right)
    (firstBuilt : Built first) (secondBuilt : Built second) (thirdBuilt : Built third) :
    (equal shared first second = true ↔ first.Related second) ∧
      equal shared first second = first.same second ∧
      equal shared first first = true ∧
      (equal shared first second = true → equal shared second first = true) ∧
      (equal shared first second = true → equal shared second third = true →
        equal shared first third = true) ∧
      (equal shared first second = true → first.fingerprint = second.fingerprint) := by
  have firstTidy := firstBuilt.tidy
  have secondTidy := secondBuilt.tidy
  have thirdTidy := thirdBuilt.tidy
  rw [equal_eq_same sharing firstTidy secondTidy, equal_eq_same sharing firstTidy firstTidy,
    equal_eq_same sharing secondTidy firstTidy, equal_eq_same sharing secondTidy thirdTidy,
    equal_eq_same sharing firstTidy thirdTidy]
  exact ⟨(related_iff_same first second firstTidy secondTidy).symm, rfl, same_refl first,
    same_symm first second firstTidy, same_trans first second third,
    fingerprint_of_same first second firstTidy⟩

def sharedVariables : Scalar → Scalar → Bool
  | .variable name, .variable other => name == other
  | _, _ => false

theorem shared_variables_sharing (left right : Scalar)
    (same : sharedVariables left right = true) : left = right := by
  unfold sharedVariables at same
  split at same
  · rw [beq_iff_eq.1 same]
  · cases same

/-- The order of operands does not matter, and repeated ones are dropped. -/
theorem reordered_minima_compared :
    (∀ left right, sharedVariables left right = true → left = right) ∧
      Built (min [.variable "x", one]) ∧
      Built (min (dropRepeated sharedVariables [one, .variable "x", one])) ∧
      equal sharedVariables (min [.variable "x", one])
        (min (dropRepeated sharedVariables [one, .variable "x", one])) = true ∧
      (min [.variable "x", one]).fingerprint =
        (min (dropRepeated sharedVariables [one, .variable "x", one])).fingerprint := by
  have firstBuilt : Built (min [.variable "x", one]) := built_of_tidy _ rfl
  have operandsTidy : ∀ operand ∈ [one, .variable "x", one], operand.tidy = true := by
    simp [one, tidy]
  have secondBuilt := Built.minimum shared_variables_sharing fun operand member =>
    built_of_tidy operand (operandsTidy operand member)
  have dropped : dropRepeated sharedVariables [one, .variable "x", one] = [one, .variable "x"] :=
    (drop_repeated_eq_unique shared_variables_sharing operandsTidy).trans rfl
  obtain ⟨relatedIff, _, _, _, _, sameFingerprint⟩ := comparison_decides_relation sharedVariables
    _ _ _ shared_variables_sharing firstBuilt secondBuilt firstBuilt
  have compared := relatedIff.2 (by rw [dropped]; simp [Related, one])
  exact ⟨shared_variables_sharing, firstBuilt, secondBuilt, compared, sameFingerprint compared⟩

end Analog.Scalar
