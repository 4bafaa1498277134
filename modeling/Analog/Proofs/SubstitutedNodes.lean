import Analog.Proofs.SubstitutedScalars

/-!
# Substituted nodes

Substituting in two steps comes to the same as substituting at once, in every node, if no
name is bound in both steps and none that has a value already. Nodes are rebuilt at every
step, and equal operands, sites and modulations are merged when they are. Two steps merge no
more than one, since a substitution tells apart the same scalars and modulations, and what
is merged has no values of its own.
-/

set_option autoImplicit false

namespace Analog

namespace Bindings

def Holds (bindings : Bindings) : String × BoundValue → Prop
  | (name, .scalar value) => bindings.scalars.find? name = some value
  | (name, .vector values) => bindings.vectors.find? name = some values

/-- To the values that are given a substitution adds only values that are bound. -/
structure Adds (bindings : Bindings) (given made : List (String × BoundValue)) : Prop where
  keeps : ∀ entry ∈ given, entry ∈ made
  adds : ∀ entry ∈ made, entry ∈ given ∨ bindings.Holds entry

def Apart (first second : Bindings) : Prop :=
  ∀ name, first.has name = true → second.has name = false

/-- The union binds what one of two bindings binds. -/
structure Unites (union first second : Bindings) : Prop where
  scalars : ∀ name,
    union.scalars.find? name = (first.scalars.find? name).or (second.scalars.find? name)
  vectors : ∀ name,
    union.vectors.find? name = (first.vectors.find? name).or (second.vectors.find? name)

variable {bindings first second union : Bindings} {given made : List (String × BoundValue)}

namespace Adds

theorem nothing (given : List (String × BoundValue)) : bindings.Adds given given :=
  ⟨fun _ member => member, fun _ member => Or.inl member⟩

theorem append {given' made' : List (String × BoundValue)} (early : bindings.Adds given made)
    (late : bindings.Adds given' made') : bindings.Adds (given ++ given') (made ++ made') := by
  constructor
  · intro entry member
    rcases List.mem_append.1 member with before | after
    · exact List.mem_append_left _ (early.keeps entry before)
    · exact List.mem_append_right _ (late.keeps entry after)
  · intro entry member
    rcases List.mem_append.1 member with before | after
    · exact (early.adds entry before).imp (List.mem_append_left _) id
    · exact (late.adds entry after).imp (List.mem_append_right _) id

theorem flatMap {α β : Type} {items : List α} {f : α → β}
    {given : α → List (String × BoundValue)} {made : β → List (String × BoundValue)}
    (each : ∀ item ∈ items, bindings.Adds (given item) (made (f item))) :
    bindings.Adds (items.flatMap given) ((items.map f).flatMap made) := by
  induction items with
  | nil => exact nothing []
  | cons item rest ih =>
      rw [List.map_cons, List.flatMap_cons, List.flatMap_cons]
      exact (each item (by simp)).append (ih fun other member => each other (by simp [member]))

theorem of_iff {others : List (String × BoundValue)} (adds : bindings.Adds given made)
    (same : ∀ entry, entry ∈ others ↔ entry ∈ made) : bindings.Adds given others :=
  ⟨fun entry member => (same entry).2 (adds.keeps entry member),
    fun entry member => adds.adds entry ((same entry).1 member)⟩

theorem spares_iff (adds : first.Adds given made) (apart : first.Apart second) :
    second.Spares made ↔ second.Spares given := by
  refine ⟨fun spared entry member => spared entry (adds.keeps entry member), ?_⟩
  intro spared entry member
  rcases adds.adds entry member with old | new
  · exact spared entry old
  · obtain ⟨name, value⟩ := entry
    have other : second.has name = false := by
      apply apart
      cases value <;> simp_all [Holds, has, NameMap.contains]
    rw [has, Bool.or_eq_false_iff] at other
    cases value with
    | scalar number => exact other.1
    | vector numbers => exact other.2

end Adds

theorem Apart.scalars (apart : first.Apart second) {name : String} {value : Decimal}
    (found : first.scalars.find? name = some value) : second.scalars.find? name = none := by
  have other := apart name (by simp [has, NameMap.contains, found])
  simpa [has, NameMap.contains] using (Bool.or_eq_false_iff.1 other).1

theorem Apart.vectors (apart : first.Apart second) {name : String} {values : List Decimal}
    (found : first.vectors.find? name = some values) : second.vectors.find? name = none := by
  have other := apart name (by simp [has, NameMap.contains, found])
  simpa [has, NameMap.contains] using (Bool.or_eq_false_iff.1 other).2

theorem Apart.symm (apart : first.Apart second) : second.Apart first := by
  intro name bound
  rw [← Bool.not_eq_true]
  intro other
  rw [apart name other] at bound
  cases bound

theorem Unites.symm (united : union.Unites first second) (apart : first.Apart second) :
    union.Unites second first := by
  constructor
  · intro name
    rw [united.scalars]
    cases found : first.scalars.find? name with
    | none => simp
    | some value => simp [apart.scalars found]
  · intro name
    rw [united.vectors]
    cases found : first.vectors.find? name with
    | none => simp
    | some values => simp [apart.vectors found]

theorem Unites.spares_iff (united : union.Unites first second) :
    union.Spares given ↔ first.Spares given ∧ second.Spares given := by
  have rebinds : ∀ entry, union.rebinds entry = (first.rebinds entry || second.rebinds entry) := by
    rintro ⟨name, value⟩
    cases value with
    | scalar number =>
        rw [rebinds, rebinds, rebinds, NameMap.contains, united.scalars, Option.isSome_or]
        rfl
    | vector numbers =>
        rw [rebinds, rebinds, rebinds, NameMap.contains, united.vectors, Option.isSome_or]
        rfl
  simp only [Spares, rebinds, Bool.or_eq_false_iff]
  exact forall₂_and

end Bindings

namespace Scalar

variable {bindings first second union : Bindings}

theorem assignments_of_same (scalar other : Scalar) (equal : scalar.same other = true)
    (entry : String × BoundValue) (member : entry ∈ scalar.assignments) :
    entry ∈ other.assignments := by
  induction scalar using Scalar.parts_induction generalizing other with
  | literal value =>
      rw [literal_same_iff] at equal
      rwa [← equal]
  | named name =>
      rw [variable_same_iff] at equal
      rwa [← equal]
  | assigned name value =>
      rw [assigned_same_iff] at equal
      rwa [← equal]
  | negative operand ih =>
      obtain ⟨result, rfl, same⟩ := (negative_same_iff _ _).1 equal
      exact ih result same member
  | add left right leftIh rightIh =>
      obtain ⟨_, _, rfl, leftSame, rightSame⟩ := (add_same_iff _ _ _).1 equal
      rw [assignments_pair rfl, List.mem_append] at member ⊢
      exact member.imp (leftIh _ leftSame) (rightIh _ rightSame)
  | mul left right leftIh rightIh =>
      obtain ⟨_, _, rfl, leftSame, rightSame⟩ := (mul_same_iff _ _ _).1 equal
      rw [assignments_pair rfl, List.mem_append] at member ⊢
      exact member.imp (leftIh _ leftSame) (rightIh _ rightSame)
  | div left right leftIh rightIh =>
      obtain ⟨_, _, rfl, leftSame, rightSame⟩ := (div_same_iff _ _ _).1 equal
      rw [assignments_pair rfl, List.mem_append] at member ⊢
      exact member.imp (leftIh _ leftSame) (rightIh _ rightSame)
  | min operands ih =>
      obtain ⟨others, rfl, _, within⟩ := (min_same_iff _ _).1 equal
      rw [assignments_choice rfl, List.mem_flatMap] at member ⊢
      obtain ⟨operand, operandMember, found⟩ := member
      obtain ⟨matched, matchedMember, same⟩ := within operand operandMember
      exact ⟨matched, matchedMember, ih operand operandMember matched same found⟩
  | max operands ih =>
      obtain ⟨others, rfl, _, within⟩ := (max_same_iff _ _).1 equal
      rw [assignments_choice rfl, List.mem_flatMap] at member ⊢
      obtain ⟨operand, operandMember, found⟩ := member
      obtain ⟨matched, matchedMember, same⟩ := within operand operandMember
      exact ⟨matched, matchedMember, ih operand operandMember matched same found⟩
  | slice extent start stop extentIh startIh stopIh =>
      obtain ⟨_, _, _, rfl, startSame, stopSame, extentSame⟩ := (slice_same_iff _ _ _ _).1 equal
      have bound : ∀ {bound other : Option Scalar}, sameBound bound other = true →
          (∀ given ∈ bound, ∀ result, given.same result = true → entry ∈ given.assignments →
            entry ∈ result.assignments) →
          entry ∈ bound.toList.flatMap assignments → entry ∈ other.toList.flatMap assignments := by
        intro bound other same each found
        rw [same_bound_iff] at same
        cases same with
        | none => exact found
        | some related =>
            simp only [Option.toList_some, List.flatMap_singleton] at found ⊢
            exact each _ rfl _ related found
      rw [assignments_slice, List.mem_append, List.mem_append] at member ⊢
      exact member.imp (extentIh _ extentSame)
        (Or.imp (bound startSame startIh) (bound stopSame stopIh))

theorem mem_assignments_unique {operands : List Scalar}
    (tidied : ∀ operand ∈ operands, operand.tidy = true) (entry : String × BoundValue) :
    entry ∈ (unique operands).flatMap assignments ↔ entry ∈ operands.flatMap assignments := by
  rw [List.mem_flatMap, List.mem_flatMap]
  constructor
  · rintro ⟨operand, member, found⟩
    exact ⟨operand, mem_of_mem_unique member, found⟩
  · rintro ⟨operand, member, found⟩
    obtain ⟨kept, keptMember, equal⟩ := exists_same_of_mem operands member
    have back := same_symm kept operand (tidied kept (mem_of_mem_unique keptMember)) equal
    exact ⟨kept, keptMember, assignments_of_same operand kept back entry found⟩

theorem substitute_pair_adds {whole left right made madeLeft madeRight : Scalar}
    (parts : whole.occurrences = left.occurrences ++ right.occurrences)
    (madeParts : made.occurrences = madeLeft.occurrences ++ madeRight.occurrences)
    (leftAdds : bindings.Adds left.assignments madeLeft.assignments)
    (rightAdds : bindings.Adds right.assignments madeRight.assignments) :
    bindings.Adds whole.assignments made.assignments := by
  rw [assignments_pair parts, assignments_pair madeParts]
  exact leftAdds.append rightAdds

theorem substitute_choice_adds {operands : List Scalar}
    (each : ∀ operand ∈ operands,
      bindings.Adds operand.assignments (operand.substitute bindings.scalars).assignments) :
    bindings.Adds (operands.flatMap assignments)
      ((unique (substituteAll bindings.scalars operands)).flatMap assignments) := by
  rw [substitute_all_eq_map]
  exact (Bindings.Adds.flatMap each).of_iff (mem_assignments_unique
    (List.forall_mem_map.2 fun operand _ => substitute_tidy bindings.scalars operand))

theorem substitute_bound_adds {bound : Option Scalar}
    (each : ∀ given ∈ bound,
      bindings.Adds given.assignments (given.substitute bindings.scalars).assignments) :
    bindings.Adds (bound.toList.flatMap assignments)
      ((substituteBound bindings.scalars bound).toList.flatMap assignments) := by
  cases bound with
  | none => exact .nothing []
  | some given => exact (each given rfl).append (.nothing [])

theorem substitute_adds (bindings : Bindings) (scalar : Scalar) :
    bindings.Adds scalar.assignments (scalar.substitute bindings.scalars).assignments := by
  induction scalar using Scalar.parts_induction with
  | literal value => exact .nothing []
  | named name =>
      refine ⟨fun entry member => absurd member List.not_mem_nil, fun entry member => Or.inr ?_⟩
      rw [substitute] at member
      cases found : bindings.scalars.find? name with
      | none =>
          rw [found] at member
          exact absurd member List.not_mem_nil
      | some value =>
          rw [found] at member
          obtain rfl : entry = (name, .scalar value) := by simpa [assignments, occurrences] using member
          exact found
  | assigned name value => exact .nothing _
  | negative operand ih => exact ih
  | add left right leftIh rightIh
  | mul left right leftIh rightIh
  | div left right leftIh rightIh =>
      exact substitute_pair_adds rfl rfl leftIh rightIh
  | min operands ih =>
      rw [substitute, minimum, assignments_choice rfl, assignments_choice rfl]
      exact substitute_choice_adds ih
  | max operands ih =>
      rw [substitute, maximum, assignments_choice rfl, assignments_choice rfl]
      exact substitute_choice_adds ih
  | slice extent start stop extentIh startIh stopIh =>
      rw [substitute, assignments_slice, assignments_slice]
      exact extentIh.append ((substitute_bound_adds startIh).append (substitute_bound_adds stopIh))

/-- Dropping repeated operands between two substitutions makes no difference. -/
theorem unique_substitute_unique {operands : List Scalar}
    (tidied : ∀ operand ∈ operands, operand.tidy = true)
    (spared : ∀ operand ∈ operands, bindings.Spares operand.assignments) :
    unique ((unique operands).map (substitute bindings.scalars)) =
      unique (operands.map (substitute bindings.scalars)) := by
  have agrees : ∀ left ∈ operands, ∀ right ∈ operands,
      (left.substitute bindings.scalars).same (right.substitute bindings.scalars) =
        left.same right := fun left leftMember right rightMember =>
    same_substitute (tidied left leftMember) (tidied right rightMember) (spared left leftMember)
      (spared right rightMember)
  rw [unique_map _ operands agrees, unique_map _ (unique operands) fun left leftMember right
    rightMember => agrees left (mem_of_mem_unique leftMember) right (mem_of_mem_unique rightMember),
    unique_of_distinct _ (unique_distinct operands)]

theorem compose_choice (apart : first.Apart second) {operands : List Scalar}
    (spared : ∀ operand ∈ operands, second.Spares operand.assignments)
    (each : ∀ operand ∈ operands, (operand.substitute first.scalars).substitute second.scalars =
      operand.substitute union.scalars) :
    unique (substituteAll second.scalars (unique (substituteAll first.scalars operands))) =
      unique (substituteAll union.scalars operands) := by
  rw [substitute_all_eq_map, substitute_all_eq_map, substitute_all_eq_map,
    unique_substitute_unique
      (List.forall_mem_map.2 fun operand _ => substitute_tidy first.scalars operand)
      (List.forall_mem_map.2 fun operand member =>
        ((substitute_adds first operand).spares_iff apart).2 (spared operand member)),
    List.map_map]
  exact congrArg unique (List.map_congr_left each)

theorem compose_bound {bound : Option Scalar}
    (each : ∀ given ∈ bound, (given.substitute first.scalars).substitute second.scalars =
      given.substitute union.scalars) :
    substituteBound second.scalars (substituteBound first.scalars bound) =
      substituteBound union.scalars bound := by
  cases bound with
  | none => rfl
  | some given => exact congrArg some (each given rfl)

section Compose

variable (united : union.Unites first second) (apart : first.Apart second)

include united apart

theorem substitute_substitute (scalar : Scalar) (spared : second.Spares scalar.assignments) :
    (scalar.substitute first.scalars).substitute second.scalars =
      scalar.substitute union.scalars := by
  induction scalar using Scalar.parts_induction with
  | literal value => rfl
  | named name =>
      rw [substitute, substitute, united.scalars]
      cases first.scalars.find? name <;> rfl
  | assigned name value => rfl
  | negative operand ih => rw [substitute, substitute, substitute, ih spared]
  | add left right leftIh rightIh
  | mul left right leftIh rightIh
  | div left right leftIh rightIh =>
      rw [spares_pair_iff rfl] at spared
      rw [substitute, substitute, substitute, leftIh spared.1, rightIh spared.2]
  | min operands ih =>
      rw [spares_choice_iff rfl] at spared
      rw [substitute, minimum, substitute, minimum, substitute, minimum, compose_choice apart
        spared fun operand member => ih operand member (spared operand member)]
  | max operands ih =>
      rw [spares_choice_iff rfl] at spared
      rw [substitute, maximum, substitute, maximum, substitute, maximum, compose_choice apart
        spared fun operand member => ih operand member (spared operand member)]
  | slice extent start stop extentIh startIh stopIh =>
      rw [spares_slice_iff] at spared
      obtain ⟨extentSpared, startSpared, stopSpared⟩ := spared
      rw [substitute, substitute, substitute, extentIh extentSpared,
        compose_bound fun given member => startIh given member (startSpared given member),
        compose_bound fun given member => stopIh given member (stopSpared given member)]

theorem substitute_all_substitute {operands : List Scalar}
    (spared : ∀ operand ∈ operands, second.Spares operand.assignments) :
    substituteAll second.scalars (substituteAll first.scalars operands) =
      substituteAll union.scalars operands := by
  rw [substitute_all_eq_map, substitute_all_eq_map, substitute_all_eq_map, List.map_map]
  exact List.map_congr_left fun operand member =>
    substitute_substitute united apart operand (spared operand member)

end Compose

end Scalar

variable {bindings first second union : Bindings}

theorem Interval.substitute_adds (bindings : Bindings) (interval : Interval) :
    bindings.Adds interval.assignments (interval.substitute bindings.scalars).assignments := by
  rw [assignments, assignments, bounds, bounds, List.flatMap_append, List.flatMap_append]
  exact (Scalar.substitute_bound_adds fun given _ => given.substitute_adds bindings).append
    (Scalar.substitute_bound_adds fun given _ => given.substitute_adds bindings)

theorem Interval.substitute_substitute (united : union.Unites first second)
    (apart : first.Apart second) (interval : Interval)
    (spared : second.Spares interval.assignments) :
    (interval.substitute first.scalars).substitute second.scalars =
      interval.substitute union.scalars := by
  rw [assignments, bounds, List.flatMap_append, Bindings.spares_append_iff] at spared
  simp only [Bindings.spares_flat_map_iff, Option.mem_toList] at spared
  rw [substitute, substitute, substitute,
    Scalar.compose_bound fun given member =>
      given.substitute_substitute united apart (spared.1 given member),
    Scalar.compose_bound fun given member =>
      given.substitute_substitute united apart (spared.2 given member)]

namespace Waveform

theorem assignments_eq (waveform : Waveform) :
    waveform.assignments = waveform.scalars.flatMap Scalar.assignments ++
      waveform.children.flatMap assignments := by
  rw [assignments, nodes_eq, nodes_all_eq, List.flatMap_cons, List.flatMap_assoc]
  rfl

theorem fill_scalars_substitute (bindings : ScalarBindings) (fill : FillValue) :
    (fill.substitute bindings).scalars = fill.scalars.map (Scalar.substitute bindings) := by
  cases fill <;> rfl

theorem bounds_substitute (bindings : ScalarBindings) (interval : Interval) :
    (interval.substitute bindings).bounds = interval.bounds.map (Scalar.substitute bindings) := by
  obtain ⟨start, stop⟩ := interval
  cases start <;> cases stop <;> rfl

/-- A record of a bound variable becomes what is inside. Every other node keeps its place and the
variable that it introduces, and its scalars and parts are substituted. -/
theorem substitute_node (bindings : ScalarBindings) (waveform : Waveform) :
    (∃ name inner side, waveform = .record name inner side ∧ bindings.contains name = true ∧
        waveform.substitute bindings = inner.substitute bindings) ∨
      ((waveform.substitute bindings).introduced = waveform.introduced ∧
          ∀ name ∈ waveform.introduced.recorded, bindings.contains name = false) ∧
        (waveform.substitute bindings).scalars =
          waveform.scalars.map (Scalar.substitute bindings) ∧
        (waveform.substitute bindings).children = waveform.children.map (substitute bindings) := by
  cases waveform with
  | record name inner side =>
      rw [substitute]
      split_ifs with bound
      · exact Or.inl ⟨name, inner, side, rfl, bound, rfl⟩
      · exact Or.inr ⟨⟨rfl, by simpa [introduced] using bound⟩, rfl, rfl⟩
  | slice inner interval =>
      exact Or.inr ⟨⟨rfl, by simp [introduced]⟩, bounds_substitute bindings interval, rfl⟩
  | aligned inner alignment fill =>
      exact Or.inr ⟨⟨rfl, by simp [introduced]⟩, fill_scalars_substitute bindings fill, rfl⟩
  | _ =>
      right
      simp [substitute, scalars, children, introduced, Scalar.substitute_all_eq_map,
        substitute_all_eq_map]

theorem substitute_adds (bindings : Bindings) (waveform : Waveform) :
    bindings.Adds waveform.assignments (waveform.substitute bindings.scalars).assignments := by
  induction waveform using children_induction with
  | step waveform ih =>
      rcases substitute_node bindings.scalars waveform with
        ⟨name, inner, side, rfl, _, dissolved⟩ | ⟨_, scalarsMade, childrenMade⟩
      · rw [dissolved, assignments_eq]
        simpa [scalars, children] using ih inner (by simp [children])
      · rw [assignments_eq waveform, assignments_eq, scalarsMade, childrenMade]
        exact (Bindings.Adds.flatMap fun scalar _ => scalar.substitute_adds bindings).append
          (Bindings.Adds.flatMap ih)

theorem substitute_substitute (united : union.Unites first second) (apart : first.Apart second)
    (waveform : Waveform) (spared : second.Spares waveform.assignments) :
    (waveform.substitute first.scalars).substitute second.scalars =
      waveform.substitute union.scalars := by
  have scalar := fun scalar => Scalar.substitute_substitute united apart scalar
  induction waveform using Waveform.parts_induction with
  | constant value duration =>
      obtain ⟨own, _⟩ := (spares_iff _).1 spared
      rw [substitute, substitute, substitute, scalar value (own value (by simp [scalars])),
        scalar duration (own duration (by simp [scalars]))]
  | ramp start stop duration =>
      obtain ⟨own, _⟩ := (spares_iff _).1 spared
      rw [substitute, substitute, substitute, scalar start (own start (by simp [scalars])),
        scalar stop (own stop (by simp [scalars])),
        scalar duration (own duration (by simp [scalars]))]
  | poly coefficients duration =>
      obtain ⟨own, _⟩ := (spares_iff _).1 spared
      rw [substitute, substitute, substitute, scalar duration (own duration (by simp [scalars])),
        Scalar.substitute_all_substitute united apart fun coefficient member =>
          own coefficient (by simp [scalars, member])]
  | native name function duration parameters =>
      obtain ⟨own, _⟩ := (spares_iff _).1 spared
      rw [substitute, substitute, substitute, scalar duration (own duration (by simp [scalars])),
        Scalar.substitute_all_substitute united apart fun parameter member =>
          own parameter (by simp [scalars, member])]
  | negative inner ih =>
      obtain ⟨_, parts⟩ := (spares_iff _).1 spared
      rw [substitute, substitute, substitute, ih (parts inner (by simp [children]))]
  | add left right leftIh rightIh =>
      obtain ⟨_, parts⟩ := (spares_iff _).1 spared
      rw [substitute, substitute, substitute, leftIh (parts left (by simp [children])),
        rightIh (parts right (by simp [children]))]
  | scale factor inner ih =>
      obtain ⟨own, parts⟩ := (spares_iff _).1 spared
      rw [substitute, substitute, substitute, ih (parts inner (by simp [children])),
        scalar factor (own factor (by simp [scalars]))]
  | slice inner interval ih =>
      obtain ⟨own, parts⟩ := (spares_iff _).1 spared
      rw [substitute, substitute, substitute, ih (parts inner (by simp [children])),
        interval.substitute_substitute united apart ((Bindings.spares_flat_map_iff _ _).2 own)]
  | append pieces ih =>
      obtain ⟨_, parts⟩ := (spares_iff _).1 spared
      rw [substitute, substitute, substitute, substitute_all_eq_map, substitute_all_eq_map,
        substitute_all_eq_map, List.map_map]
      exact congrArg append
        (List.map_congr_left fun piece member => ih piece member (parts piece member))
  | record name inner side ih =>
      obtain ⟨_, parts⟩ := (spares_iff _).1 spared
      have inside := ih (parts inner (by simp [children]))
      have bound : union.scalars.contains name =
          (first.scalars.contains name || second.scalars.contains name) := by
        rw [NameMap.contains, united.scalars, Option.isSome_or]
        rfl
      rw [substitute, substitute, bound]
      cases first.scalars.contains name with
      | true => exact inside
      | false =>
          rw [if_neg (by simp), substitute, inside, Bool.false_or]
  | sample inner step interpolation ih =>
      obtain ⟨own, parts⟩ := (spares_iff _).1 spared
      rw [substitute, substitute, substitute, ih (parts inner (by simp [children])),
        scalar step (own step (by simp [scalars]))]
  | smooth inner radius kernel ih =>
      obtain ⟨own, parts⟩ := (spares_iff _).1 spared
      rw [substitute, substitute, substitute, ih (parts inner (by simp [children])),
        scalar radius (own radius (by simp [scalars]))]
  | aligned inner alignment fill ih =>
      obtain ⟨own, parts⟩ := (spares_iff _).1 spared
      rw [substitute, substitute, substitute, ih (parts inner (by simp [children]))]
      cases fill with
      | boundary side => rfl
      | explicit value =>
          rw [FillValue.substitute, FillValue.substitute, FillValue.substitute,
            scalar value (own value (by simp [scalars, FillValue.scalars]))]

end Waveform

namespace Modulation

theorem gather_location_substitute (bindings : ScalarBindings) (location : Location)
    (gathered : List Location) :
    (gatherLocation location gathered).map (Location.substitute bindings) =
      gatherLocation (location.substitute bindings)
        (gathered.map (Location.substitute bindings)) := by
  induction gathered with
  | nil => rfl
  | cons head rest ih =>
      rw [List.map_cons, gatherLocation, gatherLocation]
      change _ = if location.site = head.site then _ else _
      split_ifs
      · rfl
      · rw [List.map_cons, ih]

theorem place_location_substitute (bindings : ScalarBindings) (location : Location)
    (placed : List Location) :
    (placeLocation location placed).map (Location.substitute bindings) =
      placeLocation (location.substitute bindings) (placed.map (Location.substitute bindings)) := by
  induction placed with
  | nil => rfl
  | cons last earlier ih =>
      rw [List.map_cons, placeLocation, placeLocation]
      change _ = if location.before last then _ else _
      split_ifs
      · rw [List.map_cons, ih]
      · rfl

/-- Substitution keeps sites, so it does not matter whether it comes before or after the locations
are put in order. -/
theorem place_all_substitute (bindings : ScalarBindings) (locations : List Location) :
    (placeAll locations).map (Location.substitute bindings) =
      placeAll (locations.map (Location.substitute bindings)) := by
  have gathered : (gatherAll locations).map (Location.substitute bindings) =
      gatherAll (locations.map (Location.substitute bindings)) := by
    induction locations using List.reverseRecOn with
    | nil => rfl
    | append_singleton before last ih =>
        rw [List.map_append, gather_all_append, List.map_singleton, gather_all_append, ← ih]
        exact gather_location_substitute bindings last _
  unfold placeAll
  rw [← gathered]
  induction gatherAll locations using List.reverseRecOn with
  | nil => rfl
  | append_singleton before last ih =>
      rw [List.map_append, sort_locations_append, List.map_singleton, sort_locations_append, ← ih,
        ← List.map_reverse, ← place_location_substitute, List.map_reverse]

/-- Locations with a second weight are summed, and no weight is lost. -/
theorem mem_assignments_place_all (locations : List Location) (entry : String × BoundValue) :
    entry ∈ (placeAll locations).flatMap (·.weight.assignments) ↔
      entry ∈ locations.flatMap (·.weight.assignments) := by
  have gathered : ∀ (location : Location) (gathered : List Location),
      entry ∈ (gatherLocation location gathered).flatMap (·.weight.assignments) ↔
        entry ∈ location.weight.assignments ∨ entry ∈ gathered.flatMap (·.weight.assignments) := by
    intro location gathered
    induction gathered with
    | nil => simp [gatherLocation]
    | cons head rest ih =>
        unfold gatherLocation
        split_ifs
        · rw [List.flatMap_cons, List.flatMap_cons, List.mem_append, List.mem_append,
            Scalar.assignments_pair rfl, List.mem_append]
          exact or_assoc.trans or_left_comm
        · rw [List.flatMap_cons, List.flatMap_cons, List.mem_append, List.mem_append, ih]
          exact or_left_comm
  rw [((place_all_perm locations).flatMap_right _).mem_iff]
  induction locations using List.reverseRecOn with
  | nil => rfl
  | append_singleton before last ih =>
      rw [gather_all_append, gathered, List.flatMap_append, List.mem_append, or_comm]
      simpa using or_congr_left ih

theorem substitute_adds (bindings : Bindings) (modulation : Modulation) :
    bindings.Adds modulation.assignments (modulation.substitute bindings).assignments := by
  cases modulation with
  | uniform => exact .nothing []
  | vector name =>
      refine ⟨fun entry member => absurd member List.not_mem_nil, fun entry member => Or.inr ?_⟩
      rw [substitute] at member
      cases found : bindings.vectors.find? name with
      | none =>
          rw [found] at member
          exact absurd member List.not_mem_nil
      | some values =>
          rw [found] at member
          obtain rfl : entry = (name, .vector values) := List.mem_singleton.1 member
          exact found
  | assignedVector name values => exact .nothing _
  | scaled locations =>
      have added : bindings.Adds (locations.flatMap (·.weight.assignments))
          ((locations.map (Location.substitute bindings.scalars)).flatMap (·.weight.assignments)) :=
        .flatMap fun location _ => location.weight.substitute_adds bindings
      exact added.of_iff (mem_assignments_place_all _)

/-- No two listed sites are so far apart that their difference wraps. -/
def SitesNear : Modulation → Prop
  | .scaled locations => Near locations
  | _ => True

theorem near_substitute {locations : List Location} (near : Near locations)
    (bindings : ScalarBindings) : Near (locations.map (Location.substitute bindings)) := by
  apply near.of_sites
  exact List.forall_mem_map.2 fun location member => ⟨location, member, rfl⟩

theorem SitesNear.substitute {modulation : Modulation} (near : modulation.SitesNear)
    (bindings : Bindings) : (modulation.substitute bindings).SitesNear := by
  cases modulation with
  | uniform => trivial
  | vector name =>
      rw [Modulation.substitute]
      cases bindings.vectors.find? name <;> trivial
  | assignedVector name values => trivial
  | scaled locations =>
      change Near locations at near
      exact (near_substitute near bindings.scalars).place_all

theorem substitute_substitute (united : union.Unites first second) (apart : first.Apart second)
    (modulation : Modulation) (near : modulation.SitesNear)
    (spared : second.Spares modulation.assignments) :
    (modulation.substitute first).substitute second = modulation.substitute union := by
  cases modulation with
  | uniform => rfl
  | vector name =>
      rw [substitute, substitute, united.vectors]
      cases first.vectors.find? name <;> rfl
  | assignedVector name values => rfl
  | scaled locations =>
      change Near locations at near
      rw [assignments, Bindings.spares_flat_map_iff] at spared
      have middle := near_substitute (near_substitute near first.scalars) second.scalars
      rw [substitute, of_locations_eq, substitute, substitute, of_locations_eq, of_locations_eq,
        place_all_substitute, place_all_of_ordered middle.place_all (place_all_ordered middle),
        List.map_map]
      congr 2
      refine List.map_congr_left fun location member => ?_
      exact congrArg (Location.mk location.site)
        (location.weight.substitute_substitute united apart (spared location member))

/-- Sites are in order, none too far from another, and weights are tidy. -/
def Settled : Modulation → Prop
  | .scaled locations =>
    Near locations ∧ Ordered locations ∧ ∀ location ∈ locations, location.weight.tidy = true
  | _ => True

theorem substitute_tidied (bindings : Bindings) (modulation : Modulation) :
    (modulation.substitute bindings).EachWeight fun weight => weight.tidy = true := by
  cases modulation with
  | uniform => trivial
  | vector name =>
      rw [substitute]
      cases bindings.vectors.find? name <;> trivial
  | assignedVector name values => trivial
  | scaled locations =>
      change ∀ location ∈ placeAll _, _
      rw [← place_all_substitute]
      exact List.forall_mem_map.2 fun location _ => location.weight.substitute_tidy bindings.scalars

theorem substitute_settled (bindings : Bindings) {modulation : Modulation}
    (near : modulation.SitesNear) : (modulation.substitute bindings).Settled := by
  cases modulation with
  | uniform => trivial
  | vector name =>
      rw [substitute]
      cases bindings.vectors.find? name <;> trivial
  | assignedVector name values => trivial
  | scaled locations =>
      change Near locations at near
      have moved := near_substitute near bindings.scalars
      exact ⟨moved.place_all, place_all_ordered moved, (scaled locations).substitute_tidied bindings⟩

theorem same_locations_substitute {lefts rights : List Location}
    (leftTidy : ∀ location ∈ lefts, location.weight.tidy = true)
    (rightTidy : ∀ location ∈ rights, location.weight.tidy = true)
    (leftSpared : ∀ location ∈ lefts, bindings.Spares location.weight.assignments)
    (rightSpared : ∀ location ∈ rights, bindings.Spares location.weight.assignments) :
    sameLocations (lefts.map (Location.substitute bindings.scalars))
        (rights.map (Location.substitute bindings.scalars)) = sameLocations lefts rights := by
  induction lefts generalizing rights with
  | nil => cases rights <;> rfl
  | cons left rest ih =>
      cases rights with
      | nil => rfl
      | cons right others =>
          rw [List.forall_mem_cons] at leftTidy rightTidy leftSpared rightSpared
          rw [List.map_cons, List.map_cons, sameLocations, sameLocations,
            ih leftTidy.2 rightTidy.2 leftSpared.2 rightSpared.2]
          change (_ && (left.weight.substitute _).same (right.weight.substitute _) && _) = _
          rw [Scalar.same_substitute leftTidy.1 rightTidy.1 leftSpared.1 rightSpared.1]
          rfl

theorem same_substitute {left right : Modulation} (leftSettled : left.Settled)
    (rightSettled : right.Settled) (leftSpared : bindings.Spares left.assignments)
    (rightSpared : bindings.Spares right.assignments) :
    (left.substitute bindings).same (right.substitute bindings) = left.same right := by
  have vectors : ∀ name other : String, ((Modulation.vector name).substitute bindings).same
      ((Modulation.vector other).substitute bindings) = (name == other) := by
    intro name other
    rw [substitute, substitute]
    by_cases same : name = other
    · subst same
      cases bindings.vectors.find? name <;> simp [Modulation.same]
    · have different : (name == other) = false := by simpa using same
      cases bindings.vectors.find? name <;> cases bindings.vectors.find? other <;>
        simp [Modulation.same, different]
  have mixed : ∀ (name other : String) (values : List Decimal),
      bindings.vectors.find? other = none →
      ((Modulation.vector name).substitute bindings).same (.assignedVector other values) = false ∧
        Modulation.same (.assignedVector other values)
          ((Modulation.vector name).substitute bindings) = false := by
    intro name other values unbound
    rw [substitute]
    cases found : bindings.vectors.find? name with
    | none => exact ⟨rfl, rfl⟩
    | some given =>
        have different : name ≠ other := by
          rintro rfl
          rw [unbound] at found
          cases found
        simp [Modulation.same, different, different.symm]
  cases left with
  | uniform =>
      cases right with
      | vector name =>
          rw [substitute, substitute]
          cases bindings.vectors.find? name <;> rfl
      | _ => rfl
  | vector name =>
      cases right with
      | vector other => exact vectors name other
      | assignedVector other values =>
          exact (mixed name other values ((Bindings.spares_vector_iff _ _).1 rightSpared)).1
      | _ =>
          simp only [substitute]
          cases bindings.vectors.find? name <;> rfl
  | assignedVector name values =>
      cases right with
      | vector other =>
          exact (mixed other name values ((Bindings.spares_vector_iff _ _).1 leftSpared)).2
      | _ => rfl
  | scaled lefts =>
      cases right with
      | vector name =>
          rw [substitute, substitute]
          cases bindings.vectors.find? name <;> rfl
      | scaled rights =>
          rw [assignments, Bindings.spares_flat_map_iff] at leftSpared rightSpared
          rw [substitute, substitute, of_locations_eq, of_locations_eq, ← place_all_substitute,
            ← place_all_substitute, place_all_of_ordered leftSettled.1 leftSettled.2.1,
            place_all_of_ordered rightSettled.1 rightSettled.2.1]
          exact same_locations_substitute leftSettled.2.2 rightSettled.2.2 leftSpared rightSpared
      | _ => rfl

/-- A modulation that equals one with tidy weights has no other values. -/
theorem assignments_of_same {left right : Modulation}
    (tidied : left.EachWeight fun weight => weight.tidy = true)
    (equal : left.same right = true) (entry : String × BoundValue)
    (member : entry ∈ right.assignments) : entry ∈ left.assignments := by
  cases left with
  | scaled lefts =>
      cases right with
      | scaled rights =>
          change ∀ location ∈ lefts, location.weight.tidy = true at tidied
          rw [Modulation.same] at equal
          rw [assignments] at member ⊢
          induction lefts generalizing rights with
          | nil =>
              cases rights with
              | nil => exact member
              | cons right others => simp [sameLocations] at equal
          | cons left rest ih =>
              cases rights with
              | nil => simp [sameLocations] at equal
              | cons right others =>
                  simp only [sameLocations, Bool.and_eq_true] at equal
                  rw [List.forall_mem_cons] at tidied
                  rw [List.flatMap_cons, List.mem_append] at member ⊢
                  exact member.imp
                    (Scalar.assignments_of_same _ _
                      (Scalar.same_symm _ _ tidied.1 equal.1.2) entry)
                    (ih others · equal.2 tidied.2)
      | _ => simp [Modulation.same] at equal
  | assignedVector name values =>
      cases right with
      | assignedVector other others =>
          simp only [Modulation.same, Bool.and_eq_true, beq_iff_eq] at equal
          rwa [equal.1, equal.2]
      | _ => simp [Modulation.same] at equal
  | _ => cases right <;> simp_all [Modulation.same, assignments]

end Modulation

namespace Field

/-- Drives whose modulations are settled, and that are spared. -/
structure Ready (bindings : Bindings) (drive : Drive) : Prop where
  settled : drive.target.Settled
  spared : bindings.Spares drive.assignments

theorem Ready.sum {left right : Drive} (leftReady : Ready bindings left)
    (rightReady : Ready bindings right) :
    Ready bindings ⟨left.target, .add left.waveform right.waveform⟩ := by
  refine ⟨leftReady.settled, ?_⟩
  obtain ⟨targetSpared, leftSpared⟩ := (Bindings.spares_append_iff _ _).1 leftReady.spared
  obtain ⟨_, rightSpared⟩ := (Bindings.spares_append_iff _ _).1 rightReady.spared
  refine (Bindings.spares_append_iff _ _).2 ⟨targetSpared, (Waveform.spares_iff _).2 ?_⟩
  simp [Waveform.scalars, Waveform.children, leftSpared, rightSpared]

theorem Ready.same_iff {left right : Drive} (leftReady : Ready bindings left)
    (rightReady : Ready bindings right) :
    (left.substitute bindings).target.same (right.substitute bindings).target =
      left.target.same right.target :=
  Modulation.same_substitute leftReady.settled rightReady.settled
    ((Bindings.spares_append_iff _ _).1 leftReady.spared).1
    ((Bindings.spares_append_iff _ _).1 rightReady.spared).1

theorem place_drive_substitute {drive : Drive} {placed : List Drive}
    (driveReady : Ready bindings drive) (placedReady : ∀ other ∈ placed, Ready bindings other) :
    (placeDrive drive placed).map (Drive.substitute bindings) =
      placeDrive (drive.substitute bindings) (placed.map (Drive.substitute bindings)) := by
  induction placed with
  | nil => rfl
  | cons head rest ih =>
      rw [List.forall_mem_cons] at placedReady
      rw [List.map_cons, placeDrive, placeDrive, placedReady.1.same_iff driveReady]
      split_ifs
      · rfl
      · rw [List.map_cons, ih placedReady.2]

/-- Drives of equal modulations are summed whether they are substituted before or after. -/
theorem of_drives_substitute {drives : List Drive}
    (ready : ∀ drive ∈ drives, Ready bindings drive) :
    (ofDrives drives).drives.map (Drive.substitute bindings) =
      (ofDrives (drives.map (Drive.substitute bindings))).drives := by
  induction drives using List.reverseRecOn with
  | nil => rfl
  | append_singleton before last ih =>
      have beforeReady : ∀ drive ∈ before, Ready bindings drive := fun drive member =>
        ready drive (by simp [member])
      have placedReady := of_drives_each (fun _ _ left right _ => left.sum right) beforeReady
      have made := ih beforeReady
      unfold ofDrives at made placedReady ⊢
      dsimp only at made placedReady ⊢
      rw [List.map_append, List.foldl_append, List.foldl_append, ← made]
      exact place_drive_substitute (ready last (by simp)) placedReady

/-- In every target, no two sites are so far apart that their difference wraps. -/
def SitesNear (field : Field) : Prop := ∀ drive ∈ field.drives, drive.target.SitesNear

theorem substitute_substitute (united : union.Unites first second) (apart : first.Apart second)
    (field : Field) (near : field.SitesNear) (spared : second.Spares field.assignments) :
    (field.substitute first).substitute second = field.substitute union := by
  rw [assignments, Bindings.spares_flat_map_iff] at spared
  have ready : ∀ drive ∈ field.drives.map (Drive.substitute first), Ready second drive := by
    refine List.forall_mem_map.2 fun drive member =>
      ⟨Modulation.substitute_settled _ (near drive member), ?_⟩
    obtain ⟨targetSpared, waveformSpared⟩ :=
      (Bindings.spares_append_iff _ _).1 (spared drive member)
    exact (Bindings.spares_append_iff _ _).2
      ⟨((drive.target.substitute_adds first).spares_iff apart).2 targetSpared,
        ((drive.waveform.substitute_adds first).spares_iff apart).2 waveformSpared⟩
  have readyPlaced := of_drives_each (fun _ _ left right _ => left.sum right) ready
  -- The drives in the middle are apart already, so the second step finds nothing to sum.
  have once : (ofDrives ((field.substitute first).drives.map (Drive.substitute second))).drives =
      (ofDrives ((field.drives.map (Drive.substitute first)).map (Drive.substitute second))).drives := by
    rw [substitute, ← of_drives_substitute readyPlaced, of_drives_of_apart _ (of_drives_apart _),
      of_drives_substitute ready]
  refine (congrArg Field.mk once).trans (congrArg ofDrives ?_)
  rw [List.map_map]
  refine List.map_congr_left fun drive member => ?_
  obtain ⟨targetSpared, waveformSpared⟩ := (Bindings.spares_append_iff _ _).1 (spared drive member)
  exact congrArg₂ Drive.mk
    (drive.target.substitute_substitute united apart (near drive member) targetSpared)
    (drive.waveform.substitute_substitute united apart waveformSpared)

theorem mem_assignments_of_drives {drives : List Drive}
    (tidied : ∀ drive ∈ drives,
      drive.target.EachWeight fun weight => weight.tidy = true) (entry : String × BoundValue) :
    entry ∈ (ofDrives drives).assignments ↔ entry ∈ drives.flatMap Drive.assignments := by
  have placed : ∀ (drive : Drive) (placed : List Drive),
      (∀ other ∈ placed, other.target.EachWeight fun weight => weight.tidy = true) →
      (entry ∈ (placeDrive drive placed).flatMap Drive.assignments ↔
        entry ∈ drive.assignments ∨ entry ∈ placed.flatMap Drive.assignments) := by
    intro drive placed placedTidied
    induction placed with
    | nil => simp [placeDrive]
    | cons head rest ih =>
        rw [List.forall_mem_cons] at placedTidied
        unfold placeDrive
        split_ifs with equal
        · have covered := Modulation.assignments_of_same placedTidied.1 equal entry
          have summed : entry ∈ (Waveform.add head.waveform drive.waveform).assignments ↔
              entry ∈ head.waveform.assignments ∨ entry ∈ drive.waveform.assignments := by
            rw [Waveform.assignments_eq]
            simp [Waveform.scalars, Waveform.children]
          simp only [List.flatMap_cons, List.mem_append, Drive.assignments, summed]
          grind
        · rw [List.flatMap_cons, List.flatMap_cons, List.mem_append, List.mem_append,
            ih placedTidied.2]
          exact or_left_comm
  induction drives using List.reverseRecOn with
  | nil => rfl
  | append_singleton before last ih =>
      have beforeTidied : ∀ drive ∈ before,
          drive.target.EachWeight fun weight => weight.tidy = true := fun drive member =>
        tidied drive (by simp [member])
      have placedTidied : ∀ drive ∈ (ofDrives before).drives,
          drive.target.EachWeight fun weight => weight.tidy = true :=
        of_drives_each (fun _ _ left _ _ => left) beforeTidied
      have made := ih beforeTidied
      unfold assignments ofDrives at made placedTidied ⊢
      rw [List.foldl_append, List.flatMap_append, List.mem_append, or_comm]
      simp only [List.foldl_cons, List.foldl_nil, List.flatMap_cons, List.flatMap_nil,
        List.append_nil]
      rw [placed last _ placedTidied]
      exact or_congr_right made

theorem substitute_adds (bindings : Bindings) (field : Field) :
    bindings.Adds field.assignments (field.substitute bindings).assignments := by
  have added : bindings.Adds (field.drives.flatMap Drive.assignments)
      ((field.drives.map (Drive.substitute bindings)).flatMap Drive.assignments) :=
    .flatMap fun drive _ =>
      (drive.target.substitute_adds bindings).append (drive.waveform.substitute_adds bindings)
  exact added.of_iff (mem_assignments_of_drives
    (List.forall_mem_map.2 fun drive _ => drive.target.substitute_tidied bindings))

end Field

theorem PerField.entries_map {α β : Type} (f : α → β) (table : PerField α) :
    (table.map f).entries = table.entries.map fun entry => (entry.1, f entry.2) := by
  obtain ⟨detuning, amplitude, phase⟩ := table
  cases detuning <;> cases amplitude <;> cases phase <;> rfl

theorem PerField.map_congr {α β : Type} {f g : α → β} (table : PerField α)
    (same : ∀ entry ∈ table.entries, f entry.2 = g entry.2) : table.map f = table.map g := by
  have each : ∀ name, (table.get? name).map f = (table.get? name).map g := by
    intro name
    cases found : table.get? name with
    | none => rfl
    | some value => exact congrArg some (same (name, value) ((table.mem_entries_iff _ _).2 found))
  exact PerField.mk.injEq .. ▸ ⟨each .detuning, each .rabiAmplitude, each .rabiPhase⟩

theorem PerCoupling.entries_map {α β : Type} (f : α → β) (table : PerCoupling α) :
    (table.map f).entries = table.entries.map fun entry => (entry.1, f entry.2) := by
  obtain ⟨rydberg, hyperfine⟩ := table
  cases rydberg <;> cases hyperfine <;> rfl

theorem PerCoupling.map_congr {α β : Type} {f g : α → β} (table : PerCoupling α)
    (same : ∀ entry ∈ table.entries, f entry.2 = g entry.2) : table.map f = table.map g := by
  have each : ∀ coupling, (table.get? coupling).map f = (table.get? coupling).map g := by
    intro coupling
    cases found : table.get? coupling with
    | none => rfl
    | some value =>
        exact congrArg some (same (coupling, value) ((table.mem_entries_iff _ _).2 found))
  exact PerCoupling.mk.injEq .. ▸ ⟨each .rydberg, each .hyperfine⟩

namespace Pulse

theorem substitute_adds (bindings : Bindings) (pulse : Pulse) :
    bindings.Adds pulse.assignments (pulse.substitute bindings).assignments := by
  induction pulse using Pulse.parts_induction with
  | plain fields =>
      rw [substitute, assignments, assignments, PerField.entries_map]
      exact .flatMap fun entry _ => entry.2.substitute_adds bindings
  | append parts ih =>
      rw [substitute, assignments, assignments, substitute_all_eq_map, assignments_all_eq,
        assignments_all_eq]
      exact .flatMap ih
  | slice inner interval ih => exact ih.append (interval.substitute_adds bindings)
  | named name inner ih => exact ih

/-- In every target, no two sites are so far apart that their difference wraps. -/
def SitesNear (pulse : Pulse) : Prop :=
  pulse.Each (fun fields => ∀ entry ∈ fields.entries, entry.2.SitesNear) fun _ => True

theorem substitute_substitute (united : union.Unites first second) (apart : first.Apart second)
    (pulse : Pulse) (near : pulse.SitesNear)
    (spared : second.Spares pulse.assignments) :
    (pulse.substitute first).substitute second = pulse.substitute union := by
  induction pulse using Pulse.parts_induction with
  | plain fields =>
      rw [assignments, Bindings.spares_flat_map_iff] at spared
      have each : fields.map (fun field => (field.substitute first).substitute second) =
          fields.map (Field.substitute union) := fields.map_congr fun entry member =>
        entry.2.substitute_substitute united apart (near entry member) (spared entry member)
      rw [substitute, substitute, substitute, ← each]
      obtain ⟨detuning, amplitude, phase⟩ := fields
      simp [PerField.map, Function.comp_def]
  | append parts ih =>
      rw [SitesNear, each_append_iff] at near
      rw [assignments, assignments_all_eq, Bindings.spares_flat_map_iff] at spared
      rw [substitute, substitute, substitute, substitute_all_eq_map, substitute_all_eq_map,
        substitute_all_eq_map, List.map_map]
      exact congrArg append
        (List.map_congr_left fun part member =>
          ih part member (near part member) (spared part member))
  | slice inner interval ih =>
      rw [assignments, Bindings.spares_append_iff] at spared
      rw [substitute, substitute, substitute, ih near.1 spared.1,
        interval.substitute_substitute united apart spared.2]
  | named name inner ih => rw [substitute, substitute, substitute, ih near spared]

end Pulse

namespace Sequence

theorem substitute_adds (bindings : Bindings) (sequence : Sequence) :
    bindings.Adds sequence.assignments (sequence.substitute bindings).assignments := by
  induction sequence using Sequence.parts_induction with
  | plain pulses =>
      rw [substitute, assignments, assignments, PerCoupling.entries_map]
      exact .flatMap fun entry _ => entry.2.substitute_adds bindings
  | append parts ih =>
      rw [substitute, assignments, assignments, substitute_all_eq_map, assignments_all_eq,
        assignments_all_eq]
      exact .flatMap ih
  | slice inner interval ih => exact ih.append (interval.substitute_adds bindings)
  | named name inner ih => exact ih

/-- In every target, no two sites are so far apart that their difference wraps. -/
def SitesNear (sequence : Sequence) : Prop :=
  sequence.Each (fun pulses => ∀ entry ∈ pulses.entries, entry.2.SitesNear) fun _ => True

theorem substitute_substitute (united : union.Unites first second) (apart : first.Apart second)
    (sequence : Sequence) (near : sequence.SitesNear)
    (spared : second.Spares sequence.assignments) :
    (sequence.substitute first).substitute second = sequence.substitute union := by
  induction sequence using Sequence.parts_induction with
  | plain pulses =>
      rw [assignments, Bindings.spares_flat_map_iff] at spared
      have each : pulses.map (fun pulse => (pulse.substitute first).substitute second) =
          pulses.map (Pulse.substitute union) := pulses.map_congr fun entry member =>
        entry.2.substitute_substitute united apart (near entry member) (spared entry member)
      rw [substitute, substitute, substitute, ← each]
      obtain ⟨rydberg, hyperfine⟩ := pulses
      simp [PerCoupling.map, Function.comp_def]
  | append parts ih =>
      rw [SitesNear, each_append_iff] at near
      rw [assignments, assignments_all_eq, Bindings.spares_flat_map_iff] at spared
      rw [substitute, substitute, substitute, substitute_all_eq_map, substitute_all_eq_map,
        substitute_all_eq_map, List.map_map]
      exact congrArg append
        (List.map_congr_left fun part member =>
          ih part member (near part member) (spared part member))
  | slice inner interval ih =>
      rw [assignments, Bindings.spares_append_iff] at spared
      rw [substitute, substitute, substitute, ih near.1 spared.1,
        interval.substitute_substitute united apart spared.2]
  | named name inner ih => rw [substitute, substitute, substitute, ih near spared]

end Sequence

namespace Node

theorem substitute_adds (bindings : Bindings) (node : Node) :
    bindings.Adds node.assignments (node.substitute bindings).assignments := by
  cases node with
  | scalar value => exact value.substitute_adds bindings
  | waveform value => exact value.substitute_adds bindings
  | modulation value => exact value.substitute_adds bindings
  | field value => exact value.substitute_adds bindings
  | pulse value => exact value.substitute_adds bindings
  | sequence value => exact value.substitute_adds bindings
  | circuit value => exact value.sequence.substitute_adds bindings
  | register value => exact .nothing []
  | series value => exact .nothing []

/-- In every target, no two sites are so far apart that their difference wraps. -/
def SitesNear : Node → Prop
  | modulation value => value.SitesNear
  | field value => value.SitesNear
  | pulse value => value.SitesNear
  | sequence value => value.SitesNear
  | circuit value => value.sequence.SitesNear
  | _ => True

theorem substitute_substitute (united : union.Unites first second) (apart : first.Apart second)
    (node : Node) (near : node.SitesNear)
    (spared : second.Spares node.assignments) :
    (node.substitute first).substitute second = node.substitute union := by
  cases node with
  | scalar value => exact congrArg scalar (value.substitute_substitute united apart spared)
  | waveform value => exact congrArg waveform (value.substitute_substitute united apart spared)
  | modulation value => exact congrArg modulation (value.substitute_substitute united apart near spared)
  | field value => exact congrArg field (value.substitute_substitute united apart near spared)
  | pulse value => exact congrArg pulse (value.substitute_substitute united apart near spared)
  | sequence value => exact congrArg sequence (value.substitute_substitute united apart near spared)
  | circuit value =>
      exact congrArg (fun made => circuit { value with sequence := made })
        (value.sequence.substitute_substitute united apart near spared)
  | register value => rfl
  | series value => rfl

theorem assign_assign_guarded (united : union.Unites first second) (apart : first.Apart second)
    (node : Node) :
    Outcome.Guarded (union.Spares node.assignments) (node.assign first >>= Node.assign second)
      ((node.substitute first).substitute second) := by
  have steps := (node.assign_guarded first).bind ((node.substitute first).assign_guarded second)
  rwa [(node.substitute_adds first).spares_iff apart, ← united.spares_iff] at steps

end Node

end Analog
