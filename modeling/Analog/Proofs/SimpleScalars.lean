import Analog.Proofs.ScalarRules

/-!
# Simple scalars

A scalar is simple if no rule applies to any of its nodes. What each rule makes of simple
operands is simple, although some rules build new nodes out of pieces of their operands,
and a rule leaves a simple node as it is. So one pass of simplification is enough.
-/

set_option autoImplicit false

namespace Analog

open Canonical

namespace Scalar

def isNegation : Scalar → Bool
  | .negative _ => true
  | _ => false

/-- Several operands that are all different, none of them to be spliced. A number among them
is a literal one and comes last. -/
structure Gathered (splice : Scalar → List Scalar) (operands : List Scalar) : Prop where
  several : 2 ≤ operands.length
  different : distinct operands = true
  flat : ∀ operand ∈ operands, splice operand = [operand]
  numberLast : ∃ (members : List Scalar) (number : Option Decimal),
    operands = members ++ (number.map literal).toList ∧
    ∀ member ∈ members, member.value? = none

def Reduced : Scalar → Prop
  | .literal _ => True
  | .variable _ => True
  | .assigned _ _ => True
  | .negative operand => operand.value? = none ∧ operand.isNegation = false
  | .add left right => NotBothNumbers left right ∧ left.isZero = false ∧ right.isZero = false ∧
    isNegationOf right left = false ∧ isNegationOf left right = false ∧
    (left.isNegation = false ∨ right.isNegation = false)
  | .mul left right => NotBothNumbers left right ∧ left.isZero = false ∧ right.isZero = false ∧
    left.isOne = false ∧ right.isOne = false
  | .div left right => NotBothNumbers left right ∧ left.isZero = false ∧ right.isZero = false ∧
    right.isOne = false
  | .min operands => Gathered spliceMinimum operands
  | .max operands => Gathered spliceMaximum operands
  | .slice extent start stop => Interval.isFull ⟨start, stop⟩ = false ∧
    (extent.value? = none ∨ boundValue? start = none ∨ boundValue? stop = none)

def Simple (scalar : Scalar) : Prop :=
  ∀ node ∈ scalar.nodes, node.Reduced

theorem simple_iff (scalar : Scalar) :
    scalar.Simple ↔ scalar.Reduced ∧ ∀ child ∈ scalar.children, child.Simple :=
  each_node_iff _ _

@[simp] theorem literal_simple (value : Decimal) : (literal value).Simple :=
  (simple_iff _).2 ⟨trivial, by simp [children]⟩

@[simp] theorem variable_simple (name : String) : (Scalar.variable name).Simple :=
  (simple_iff _).2 ⟨trivial, by simp [children]⟩

@[simp] theorem assigned_simple (name : String) (value : Decimal) :
    (assigned name value).Simple :=
  (simple_iff _).2 ⟨trivial, by simp [children]⟩

theorem negative_simple_iff (operand : Scalar) :
    (negative operand).Simple ↔ (negative operand).Reduced ∧ operand.Simple := by
  simp [simple_iff (negative operand), children]

theorem add_simple_iff (left right : Scalar) :
    (add left right).Simple ↔ (add left right).Reduced ∧ left.Simple ∧ right.Simple := by
  simp [simple_iff (add left right), children]

theorem mul_simple_iff (left right : Scalar) :
    (mul left right).Simple ↔ (mul left right).Reduced ∧ left.Simple ∧ right.Simple := by
  simp [simple_iff (mul left right), children]

theorem div_simple_iff (left right : Scalar) :
    (div left right).Simple ↔ (div left right).Reduced ∧ left.Simple ∧ right.Simple := by
  simp [simple_iff (div left right), children]

theorem min_simple_iff (operands : List Scalar) :
    (min operands).Simple ↔
      Gathered spliceMinimum operands ∧ ∀ operand ∈ operands, operand.Simple :=
  simple_iff _

theorem max_simple_iff (operands : List Scalar) :
    (max operands).Simple ↔
      Gathered spliceMaximum operands ∧ ∀ operand ∈ operands, operand.Simple :=
  simple_iff _

theorem slice_simple_iff (extent : Scalar) (start stop : Option Scalar) :
    (slice extent start stop).Simple ↔ (slice extent start stop).Reduced ∧ extent.Simple ∧
      (∀ bound ∈ start, bound.Simple) ∧ ∀ bound ∈ stop, bound.Simple := by
  simp [simple_iff (slice extent start stop), children, or_imp, forall_and]

/-- The operands of a simple minimum or maximum are all different. -/
theorem Simple.tidied {scalar : Scalar} (simple : scalar.Simple) : scalar.tidy = true := by
  induction scalar using Scalar.parts_induction with
  | literal value => rfl
  | named name => rfl
  | assigned name value => rfl
  | negative operand ih => exact ih ((negative_simple_iff _).1 simple).2
  | add left right leftIh rightIh =>
      obtain ⟨_, leftSimple, rightSimple⟩ := (add_simple_iff _ _).1 simple
      rw [tidy, leftIh leftSimple, rightIh rightSimple]
      rfl
  | mul left right leftIh rightIh =>
      obtain ⟨_, leftSimple, rightSimple⟩ := (mul_simple_iff _ _).1 simple
      rw [tidy, leftIh leftSimple, rightIh rightSimple]
      rfl
  | div left right leftIh rightIh =>
      obtain ⟨_, leftSimple, rightSimple⟩ := (div_simple_iff _ _).1 simple
      rw [tidy, leftIh leftSimple, rightIh rightSimple]
      rfl
  | min operands ih =>
      obtain ⟨gathered, each⟩ := (min_simple_iff _).1 simple
      rw [tidy, gathered.different, (tidy_all_iff _).2 fun operand member =>
        ih operand member (each operand member)]
      rfl
  | max operands ih =>
      obtain ⟨gathered, each⟩ := (max_simple_iff _).1 simple
      rw [tidy, gathered.different, (tidy_all_iff _).2 fun operand member =>
        ih operand member (each operand member)]
      rfl
  | slice extent start stop extentIh startIh stopIh =>
      obtain ⟨_, extentSimple, startSimple, stopSimple⟩ := (slice_simple_iff _ _ _).1 simple
      rw [tidy, extentIh extentSimple,
        (tidy_bound_iff _).2 fun bound member => startIh bound member (startSimple bound member),
        (tidy_bound_iff _).2 fun bound member => stopIh bound member (stopSimple bound member)]
      rfl

theorem value_of_same {first second : Scalar} (equal : first.same second = true) :
    first.value? = second.value? := by
  cases first <;> cases second <;> simp_all [same, value?]

/-- A number that comes last is still last when repetitions are dropped. -/
theorem unique_number_last {members : List Scalar} (number : Option Decimal)
    (notNumbers : ∀ member ∈ members, member.value? = none) :
    unique (members ++ (number.map literal).toList) =
      unique members ++ (number.map literal).toList := by
  cases number with
  | none => simp
  | some value =>
      have absent : (unique members).any (·.same (literal value)) = false := by
        rw [List.any_eq_false]
        intro member found equal
        have notNumber := notNumbers member (mem_of_mem_unique found)
        rw [value_of_same equal, value?] at notNumber
        cases notNumber
      rw [Option.map_some, Option.toList_some, unique, List.foldl_append, List.foldl_cons,
        List.foldl_nil, addUnique, if_neg (by rw [← unique, absent]; simp)]
      rfl

end Scalar

namespace Canonical

open Scalar

theorem not_negation {scalar : Scalar} (other : ∀ inner, scalar ≠ .negative inner) :
    scalar.isNegation = false := by
  cases scalar with
  | negative inner => exact absurd rfl (other inner)
  | _ => rfl

theorem negative_simple {operand : Scalar} (simple : operand.Simple) :
    (negative operand).Simple := by
  unfold negative
  split
  case h_1 => exact literal_simple _
  case h_2 notNumber =>
      split
      case h_1 inner => exact ((negative_simple_iff _).1 simple).2
      case h_2 other => exact (negative_simple_iff _).2 ⟨⟨notNumber, not_negation other⟩, simple⟩

theorem add_reduced {left right : Scalar}
    (notBoth : ∀ first second, left.value? = some first → right.value? = some second → False)
    (leftZero : ¬left.isZero = true) (rightZero : ¬right.isZero = true)
    (opposite : ¬(isNegationOf right left || isNegationOf left right) = true)
    (notNegations : ∀ leftInner rightInner, left = .negative leftInner →
      right = .negative rightInner → False) : (Scalar.add left right).Reduced := by
  rw [Bool.not_eq_true, Bool.or_eq_false_iff] at opposite
  refine ⟨not_both_numbers notBoth, Bool.eq_false_iff.2 leftZero, Bool.eq_false_iff.2 rightZero,
    opposite.1, opposite.2, ?_⟩
  cases left with
  | negative leftInner =>
      exact Or.inr (not_negation fun rightInner same => notNegations _ _ rfl same)
  | _ => exact Or.inl rfl

theorem sum_simple {left right : Scalar} (leftSimple : left.Simple) (rightSimple : right.Simple) :
    (sum left right).Simple := by
  fun_induction sum left right with
  | case1 => exact literal_simple _
  | case2 => exact rightSimple
  | case3 => exact leftSimple
  | case4 => exact literal_simple _
  | case5 leftInner rightInner _ _ _ _ ih =>
      exact negative_simple (ih ((negative_simple_iff _).1 leftSimple).2
        ((negative_simple_iff _).1 rightSimple).2)
  | case6 left right leftZero rightZero opposite notBoth notNegations =>
      exact (add_simple_iff _ _).2
        ⟨add_reduced notBoth leftZero rightZero opposite notNegations, leftSimple, rightSimple⟩

theorem product_simple {left right : Scalar} (leftSimple : left.Simple)
    (rightSimple : right.Simple) : (product left right).Simple := by
  unfold product
  split
  case h_1 => exact literal_simple _
  case h_2 notBoth =>
      split_ifs with zero leftOne rightOne
      · exact literal_simple _
      · exact rightSimple
      · exact leftSimple
      · rw [Bool.not_eq_true, Bool.or_eq_false_iff] at zero
        exact (mul_simple_iff _ _).2 ⟨⟨not_both_numbers notBoth, zero.1, zero.2,
          Bool.eq_false_iff.2 leftOne, Bool.eq_false_iff.2 rightOne⟩, leftSimple, rightSimple⟩

theorem quotient_simple {subject : Unit → String} {left right result : Scalar}
    (leftSimple : left.Simple) (rightSimple : right.Simple)
    (made : quotient subject left right = .ok result) : result.Simple := by
  obtain ⟨rightZero, ⟨_, _, number, _, _, _, rfl⟩ |
    ⟨notBoth, ⟨_, rfl⟩ | ⟨_, _, rfl⟩ | ⟨one, leftZero, rfl⟩⟩⟩ := quotient_cases made
  · exact literal_simple _
  · exact leftSimple
  · exact literal_simple _
  · exact (div_simple_iff _ _).2 ⟨⟨notBoth, leftZero, rightZero, one⟩, leftSimple, rightSimple⟩

section Gathered

variable {splice : Scalar → List Scalar} {build : List Scalar → Scalar}
  {combine : Decimal → Decimal → Decimal} {operands : List Scalar}

/-- Operands that are spliced and folded are gathered once repetitions are dropped, unless they
come down to one. -/
theorem fold_gathered (parts : ∀ operand ∈ operands, ∀ part ∈ splice operand, splice part = [part])
    (numbers : ∀ value, splice (literal value) = [literal value])
    (several : 2 ≤ (unique (foldConstants combine (operands.flatMap splice))).length) :
    Gathered splice (unique (foldConstants combine (operands.flatMap splice))) := by
  refine ⟨several, unique_distinct _, ?_, ?_⟩
  · intro member found
    rcases mem_fold_constants (mem_of_mem_unique found) with kept | ⟨number, rfl⟩
    · obtain ⟨operand, operandMember, partMember⟩ := List.mem_flatMap.1 kept
      exact parts operand operandMember member partMember
    · exact numbers number
  · have notNumbers : ∀ member ∈ (operands.flatMap splice).filter fun operand =>
        operand.value?.isNone, member.value? = none :=
      fun member found => Option.isNone_iff_eq_none.1 (List.mem_filter.1 found).2
    rw [fold_constants_eq, unique_number_last _ notNumbers]
    exact ⟨_, _, rfl, fun member found => notNumbers member (mem_of_mem_unique found)⟩

/-- What is made of simple operands that are spliced and folded is simple. -/
theorem spliced_simple
    (built : ∀ members, (build members).Simple ↔
      Gathered splice members ∧ ∀ member ∈ members, member.Simple)
    (numbers : ∀ value, splice (literal value) = [literal value])
    (spliced : ∀ operand, splice operand = [operand] ∨
      ∃ inner, operand = build inner ∧ splice operand = inner)
    {result : Scalar} (each : ∀ operand ∈ operands, operand.Simple)
    (made : ofMembers build (foldConstants combine (operands.flatMap splice)) = .ok result) :
    result.Simple := by
  have parts : ∀ operand ∈ operands, ∀ part ∈ splice operand,
      splice part = [part] ∧ part.Simple := by
    intro operand member part partMember
    rcases spliced operand with alone | ⟨inner, rfl, same⟩
    · rw [alone, List.mem_singleton] at partMember
      rw [partMember]
      exact ⟨alone, each operand member⟩
    · rw [same] at partMember
      obtain ⟨gathered, simple⟩ := (built _).1 (each _ member)
      exact ⟨gathered.flat part partMember, simple part partMember⟩
  have simple : ∀ member ∈ unique (foldConstants combine (operands.flatMap splice)),
      member.Simple := by
    intro member found
    rcases mem_fold_constants (mem_of_mem_unique found) with kept | ⟨number, rfl⟩
    · obtain ⟨operand, operandMember, partMember⟩ := List.mem_flatMap.1 kept
      exact (parts operand operandMember member partMember).2
    · exact literal_simple number
  rcases of_members_cases made with single | ⟨several, rfl⟩
  · exact simple result (by simp [single])
  · refine (built _).2 ⟨fold_gathered (fun operand member part found => ?_) numbers several, simple⟩
    exact (parts operand member part found).1

/-- Gathered operands are as splicing, folding and dropping repetitions leave them. -/
theorem of_members_gathered (gathered : Gathered splice operands) :
    ofMembers build (foldConstants combine (operands.flatMap splice)) = .ok (build operands) := by
  have spliced : operands.flatMap splice = operands := by
    rw [List.flatMap_congr gathered.flat, List.flatMap_singleton']
  have folded : foldConstants combine operands = operands := by
    obtain ⟨members, number, rfl, notNumbers⟩ := gathered.numberLast
    have kept : members.filter (fun operand => operand.value?.isNone) = members :=
      List.filter_eq_self.2 fun member found => by simp [notNumbers member found]
    have none : members.filterMap Scalar.value? = [] :=
      List.filterMap_eq_nil_iff.2 notNumbers
    unfold foldConstants
    have literalValue : ∀ value, (literal value).value? = some value := fun _ => rfl
    cases number <;> simp [kept, none, literalValue]
  have several := gathered.several
  rw [spliced, folded, ofMembers, unique_of_distinct _ gathered.different]
  match operands with
  | _ :: _ :: _ => rfl

end Gathered

theorem minimum_simple {subject : Unit → String} {operands : List Scalar} {result : Scalar}
    (each : ∀ operand ∈ operands, operand.Simple)
    (made : minimum subject operands = .ok result) : result.Simple := by
  unfold minimum at made
  split_ifs at made
  exact spliced_simple min_simple_iff (fun _ => rfl) splice_minimum_cases each made

theorem maximum_simple {subject : Unit → String} {operands : List Scalar} {result : Scalar}
    (each : ∀ operand ∈ operands, operand.Simple)
    (made : maximum subject operands = .ok result) : result.Simple := by
  unfold maximum at made
  split_ifs at made
  exact spliced_simple max_simple_iff (fun _ => rfl) splice_maximum_cases each made

theorem slice_simple {subject : Unit → String} {extent result : Scalar} {interval : Interval}
    (extentSimple : extent.Simple) (startSimple : ∀ bound ∈ interval.start, bound.Simple)
    (stopSimple : ∀ bound ∈ interval.stop, bound.Simple)
    (made : slice subject extent interval = .ok result) : result.Simple := by
  obtain ⟨_, rfl⟩ | ⟨full, ⟨_, _, _, number, _, _, _, _, rfl⟩ | ⟨notNumbers, rfl⟩⟩ := slice_cases made
  · exact extentSimple
  · exact literal_simple _
  · exact (slice_simple_iff _ _ _).2
      ⟨⟨full, notNumbers⟩, extentSimple, startSimple, stopSimple⟩

theorem negative_reduced {operand : Scalar} (reduced : (Scalar.negative operand).Reduced) :
    negative operand = .negative operand := by
  obtain ⟨notNumber, notNegation⟩ := reduced
  unfold negative
  rw [notNumber]
  cases operand <;> simp_all [isNegation]

theorem sum_reduced {left right : Scalar} (reduced : (Scalar.add left right).Reduced) :
    sum left right = .add left right := by
  obtain ⟨notBoth, leftZero, rightZero, rightOpposite, leftOpposite, notNegations⟩ := reduced
  unfold sum
  split
  case h_1 leftFound rightFound => simp_all [NotBothNumbers]
  case h_2 =>
      rw [leftZero, rightZero, rightOpposite, leftOpposite]
      cases left <;> cases right <;> simp_all [isNegation]

theorem product_reduced {left right : Scalar} (reduced : (Scalar.mul left right).Reduced) :
    product left right = .mul left right := by
  obtain ⟨notBoth, leftZero, rightZero, leftOne, rightOne⟩ := reduced
  unfold product
  split
  case h_1 leftFound rightFound => simp_all [NotBothNumbers]
  case h_2 => simp [leftZero, rightZero, leftOne, rightOne]

theorem quotient_reduced {left right : Scalar} (subject : Unit → String)
    (reduced : (Scalar.div left right).Reduced) :
    quotient subject left right = .ok (.div left right) := by
  obtain ⟨notBoth, leftZero, rightZero, rightOne⟩ := reduced
  unfold quotient
  rw [rightZero, if_neg (by simp)]
  split
  case h_1 leftFound rightFound => simp_all [NotBothNumbers]
  case h_2 => simp [leftZero, rightOne]

theorem minimum_reduced {operands : List Scalar} (subject : Unit → String)
    (reduced : (Scalar.min operands).Reduced) :
    minimum subject operands = .ok (.min operands) := by
  have several := Gathered.several reduced
  unfold minimum
  rw [if_neg (by rw [List.isEmpty_iff]; rintro rfl; simp at several), of_members_gathered reduced]

theorem maximum_reduced {operands : List Scalar} (subject : Unit → String)
    (reduced : (Scalar.max operands).Reduced) :
    maximum subject operands = .ok (.max operands) := by
  have several := Gathered.several reduced
  unfold maximum
  rw [if_neg (by rw [List.isEmpty_iff]; rintro rfl; simp at several), of_members_gathered reduced]

theorem slice_reduced {extent : Scalar} {start stop : Option Scalar} (subject : Unit → String)
    (reduced : (Scalar.slice extent start stop).Reduced) :
    slice subject extent ⟨start, stop⟩ = .ok (.slice extent start stop) := by
  obtain ⟨notFull, notNumbers⟩ := reduced
  unfold slice
  rw [notFull, if_neg (by simp)]
  split
  case h_1 extentFound startFound stopFound => simp_all
  case h_2 => rfl

end Canonical

end Analog
