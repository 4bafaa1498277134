import Analog.Proofs.ScalarRules
import Analog.Proofs.Stretches

/-!
# Waveforms that are pieced together

Constants, lines and polynomials that are scaled, negated and joined have a series exactly
where their stretches can be joined, and one that has a series is valid.
-/

set_option autoImplicit false

namespace Analog

open Stretch

namespace Scalar

/-- A scalar without variables that has the given value. -/
structure Counts (bindings : ScalarBindings) (scalar : Scalar) (value : Decimal) : Prop where
  fixed : scalar.Fixed
  evaluates : scalar.eval bindings = .ok value

variable {bindings : ScalarBindings}

theorem literal_counts (value : Decimal) : Counts bindings (literal value) value :=
  ⟨fixed_literal value, rfl⟩

theorem Counts.known {scalar : Scalar} {value : Decimal} (counts : Counts bindings scalar value) :
    Known bindings scalar value :=
  ⟨counts.fixed.tidied, counts.evaluates⟩

theorem Counts.of_same {scalar other : Scalar} {first second : Decimal}
    (counts : Counts bindings scalar first) (otherCounts : Counts bindings other second)
    (equal : scalar.same other = true) : first = second :=
  counts.known.of_same otherCounts.known equal

theorem evals_of_count {scalars : List Scalar} {values : List Decimal}
    (count : List.Forall₂ (Counts bindings) scalars values) :
    evalAll bindings scalars = .ok values :=
  (eval_all_ok_iff _ _).2 (count.imp fun _ _ counts => counts.evaluates)

end Scalar

namespace Waveform

/-- Constants, lines and polynomials, and what scales, negates and joins them. -/
def isPiece : Waveform → Bool
  | .constant .. | .ramp .. | .poly .. | .negative _ | .scale .. | .record .. => true
  | .append parts => !parts.isEmpty
  | .native .. | .add .. | .slice .. | .sample .. | .smooth .. | .aligned .. => false

def Pieced (waveform : Waveform) : Prop :=
  ∀ node ∈ waveform.nodes, node.isPiece = true

instance (waveform : Waveform) : Decidable waveform.Pieced :=
  inferInstanceAs (Decidable (∀ node ∈ waveform.nodes, node.isPiece = true))

theorem pieced_iff (waveform : Waveform) :
    waveform.Pieced ↔ waveform.isPiece = true ∧ ∀ child ∈ waveform.children, child.Pieced :=
  each_node_iff _ waveform

theorem Pieced.child {waveform child : Waveform} (pieced : waveform.Pieced)
    (member : child ∈ waveform.children) : child.Pieced :=
  ((pieced_iff waveform).1 pieced).2 child member

theorem Pieced.filled {waveform : Waveform} (pieced : waveform.Pieced) :
    ∀ node ∈ waveform.exposed, node ≠ .append [] := by
  rintro node member rfl
  exact absurd (pieced _ (mem_nodes_of_exposed waveform _ member)) (by simp [isPiece])

theorem pieced_append_iff (parts : List Waveform) :
    (append parts).Pieced ↔ parts ≠ [] ∧ ∀ part ∈ parts, part.Pieced := by
  rw [pieced_iff]
  simp [isPiece, children]

section

variable {bindings : ScalarBindings}

/-- A waveform that is pieced together, whose scalars have values, and how long it lasts. -/
inductive Piecewise (bindings : ScalarBindings) : Waveform → Decimal → Prop
  | constant {value duration : Scalar} {number length : Decimal}
      (valueCounts : Scalar.Counts bindings value number)
      (durationCounts : Scalar.Counts bindings duration length) (nonneg : 0 ≤ length) :
      Piecewise bindings (.constant value duration) length
  | ramp {start stop duration : Scalar} {first last length : Decimal}
      (startCounts : Scalar.Counts bindings start first)
      (stopCounts : Scalar.Counts bindings stop last)
      (durationCounts : Scalar.Counts bindings duration length) (nonneg : 0 ≤ length) :
      Piecewise bindings (.ramp start stop duration) length
  | poly {coefficients : List Scalar} {values : List Decimal} {duration : Scalar} {length : Decimal}
      (count : List.Forall₂ (Scalar.Counts bindings) coefficients values)
      (durationCounts : Scalar.Counts bindings duration length) (nonneg : 0 ≤ length) :
      Piecewise bindings (.poly coefficients duration) length
  | negative {inner : Waveform} {length : Decimal} (piecewise : Piecewise bindings inner length) :
      Piecewise bindings (.negative inner) length
  | scale {factor : Scalar} {number : Decimal} {inner : Waveform} {length : Decimal}
      (factorCounts : Scalar.Counts bindings factor number)
      (piecewise : Piecewise bindings inner length) :
      Piecewise bindings (.scale factor inner) length
  | record {name : String} {inner : Waveform} {side : Side} {length : Decimal}
      (piecewise : Piecewise bindings inner length) :
      Piecewise bindings (.record name inner side) length
  | append {parts : List Waveform} {lengths : Waveform → Decimal} (filled : parts ≠ [])
      (each : ∀ part ∈ parts, Piecewise bindings part (lengths part)) :
      Piecewise bindings (.append parts) (parts.map lengths).sum

def Counted (bindings : ScalarBindings) (waveform : Waveform) : Prop :=
  waveform.Each fun scalar => ∃ value, Scalar.Counts bindings scalar value

theorem counted_iff (waveform : Waveform) :
    Counted bindings waveform ↔
      (∀ scalar ∈ waveform.scalars, ∃ value, Scalar.Counts bindings scalar value) ∧
        ∀ child ∈ waveform.children, Counted bindings child :=
  each_node_iff _ waveform

theorem Counted.own {waveform : Waveform} (counted : Counted bindings waveform) (scalar : Scalar)
    (member : scalar ∈ waveform.scalars) : ∃ value, Scalar.Counts bindings scalar value :=
  ((counted_iff _).1 counted).1 scalar member

theorem Counted.child {waveform child : Waveform} (counted : Counted bindings waveform)
    (member : child ∈ waveform.children) : Counted bindings child :=
  ((counted_iff _).1 counted).2 child member

theorem Counted.leaf {waveform : Waveform} (counted : Counted bindings waveform) {duration : Scalar}
    {length : Decimal} (member : duration ∈ waveform.scalars)
    (lasts : leafDuration bindings duration = .ok length) :
    Scalar.Counts bindings duration length ∧ 0 ≤ length := by
  obtain ⟨evaluates, nonneg⟩ := (leaf_duration_ok_iff _ _ _).1 lasts
  obtain ⟨_, counts⟩ := counted.own duration member
  exact ⟨⟨counts.fixed, evaluates⟩, nonneg⟩

def extent (bindings : ScalarBindings) (waveform : Waveform) : Decimal :=
  (waveform.duration bindings).toOption.getD 0

theorem extent_of_lasts {waveform : Waveform} {length : Decimal}
    (lasts : waveform.duration bindings = .ok length) : waveform.extent bindings = length := by
  rw [extent, lasts]
  rfl

theorem piecewise_of_pieced {waveform : Waveform} {length : Decimal} (pieced : waveform.Pieced)
    (counted : Counted bindings waveform) (lasts : waveform.duration bindings = .ok length) :
    Piecewise bindings waveform length := by
  induction waveform using Waveform.parts_induction generalizing length with
  | constant value duration =>
      obtain ⟨_, valueCounts⟩ := counted.own value (by simp [scalars])
      obtain ⟨durationCounts, nonneg⟩ := counted.leaf (by simp [scalars]) lasts
      exact .constant valueCounts durationCounts nonneg
  | ramp start stop duration =>
      obtain ⟨_, startCounts⟩ := counted.own start (by simp [scalars])
      obtain ⟨_, stopCounts⟩ := counted.own stop (by simp [scalars])
      obtain ⟨durationCounts, nonneg⟩ := counted.leaf (by simp [scalars]) lasts
      exact .ramp startCounts stopCounts durationCounts nonneg
  | poly coefficients duration =>
      have each : ∀ coefficient ∈ coefficients, ∃ value, Scalar.Counts bindings coefficient value :=
        fun coefficient member => counted.own coefficient (by simp [scalars, member])
      obtain ⟨_, count⟩ := Outcome.related_of_each each
      obtain ⟨durationCounts, nonneg⟩ := counted.leaf (by simp [scalars]) lasts
      exact .poly count durationCounts nonneg
  | negative inner ih =>
      exact .negative
        (ih (pieced.child (by simp [children])) (counted.child (by simp [children])) lasts)
  | scale factor inner ih =>
      obtain ⟨_, factorCounts⟩ := counted.own factor (by simp [scalars])
      exact .scale factorCounts
        (ih (pieced.child (by simp [children])) (counted.child (by simp [children])) lasts)
  | record name inner side ih =>
      exact .record
        (ih (pieced.child (by simp [children])) (counted.child (by simp [children])) lasts)
  | append parts ih =>
      obtain ⟨filled, each⟩ := (pieced_append_iff parts).1 pieced
      rw [duration, total_duration_ok_iff] at lasts
      obtain ⟨lengths, eachLasts, rfl⟩ := lasts
      have extents : lengths.map id = parts.map (extent bindings) :=
        Outcome.map_eq_of_related eachLasts fun _ _ partLasts => (extent_of_lasts partLasts).symm
      rw [← List.map_id lengths, extents]
      refine .append filled fun part member => ?_
      obtain ⟨length, _, partLasts⟩ := Outcome.target_of_mem eachLasts member
      rw [extent_of_lasts partLasts]
      exact ih part member (each part member) (counted.child member) partLasts
  | _ => exact absurd ((pieced_iff _).1 pieced).1 Bool.false_ne_true

namespace Piecewise

variable {waveform : Waveform} {length : Decimal}

theorem pieced (piecewise : Piecewise bindings waveform length) : waveform.Pieced := by
  induction piecewise with
  | append filled _ ih => exact (pieced_append_iff _).2 ⟨filled, ih⟩
  | negative _ ih | scale _ _ ih | record _ ih =>
      exact (pieced_iff _).2 ⟨rfl, by simpa [children] using ih⟩
  | constant | ramp | poly => exact (pieced_iff _).2 ⟨rfl, by simp [children]⟩

theorem counted (piecewise : Piecewise bindings waveform length) : Counted bindings waveform := by
  induction piecewise with
  | constant valueCounts durationCounts _ =>
      exact (counted_iff _).2 ⟨by simpa [scalars] using ⟨⟨_, valueCounts⟩, _, durationCounts⟩,
        by simp [children]⟩
  | ramp startCounts stopCounts durationCounts _ =>
      exact (counted_iff _).2 ⟨by simpa [scalars] using
        ⟨⟨_, startCounts⟩, ⟨_, stopCounts⟩, _, durationCounts⟩, by simp [children]⟩
  | poly count durationCounts _ =>
      refine (counted_iff _).2 ⟨fun scalar member => ?_, by simp [children]⟩
      rcases List.mem_append.1 member with coefficient | duration
      · obtain ⟨value, _, counts⟩ := Outcome.target_of_mem count coefficient
        exact ⟨value, counts⟩
      · rw [List.mem_singleton.1 duration]
        exact ⟨_, durationCounts⟩
  | negative _ ih | record _ ih =>
      exact (counted_iff _).2 ⟨by simp [scalars], by simpa [children] using ih⟩
  | scale factorCounts _ ih =>
      exact (counted_iff _).2
        ⟨by simpa [scalars] using ⟨_, factorCounts⟩, by simpa [children] using ih⟩
  | append _ _ ih => exact (counted_iff _).2 ⟨by simp [scalars], ih⟩

theorem fixed (piecewise : Piecewise bindings waveform length) : waveform.Fixed := by
  intro node nodeMember scalar member
  obtain ⟨_, counts⟩ := piecewise.counted node nodeMember scalar member
  exact counts.fixed

theorem nonneg (piecewise : Piecewise bindings waveform length) : 0 ≤ length := by
  induction piecewise with
  | constant _ _ nonneg | ramp _ _ _ nonneg | poly _ _ nonneg => exact nonneg
  | negative _ ih | scale _ _ ih | record _ ih => exact ih
  | append _ _ ih => exact List.sum_nonneg (List.forall_mem_map.2 ih)

theorem lasts (piecewise : Piecewise bindings waveform length) :
    waveform.duration bindings = .ok length := by
  induction piecewise with
  | constant _ durationCounts nonneg
  | ramp _ _ durationCounts nonneg
  | poly _ durationCounts nonneg =>
      exact (leaf_duration_ok_iff _ _ _).2 ⟨durationCounts.evaluates, nonneg⟩
  | negative _ ih | scale _ _ ih | record _ ih => exact ih
  | append _ _ ih =>
      refine (total_duration_ok_iff _ _).2 ⟨_, ?_, rfl⟩
      rw [List.forall₂_map_right_iff, List.forall₂_same]
      exact ih

theorem length_counts (piecewise : Piecewise bindings waveform length) :
    Scalar.Counts bindings waveform.symbolicDuration length :=
  ⟨waveform.symbolic_duration_each Scalar.fixed_family piecewise.fixed,
    (symbolic_duration_known waveform length piecewise.fixed.tidied piecewise.lasts).evaluates⟩

theorem extent_eq (piecewise : Piecewise bindings waveform length) :
    waveform.extent bindings = length :=
  extent_of_lasts piecewise.lasts

theorem own (piecewise : Piecewise bindings waveform length) :
    Piecewise bindings waveform (waveform.extent bindings) := by
  rwa [piecewise.extent_eq]

theorem parts {parts : List Waveform} (piecewise : Piecewise bindings (.append parts) length) :
    parts ≠ [] ∧ (∀ part ∈ parts, Piecewise bindings part (part.extent bindings)) ∧
      (parts.map (extent bindings)).sum = length := by
  cases piecewise with
  | append filled each =>
      refine ⟨filled, fun part member => (each part member).own, ?_⟩
      rw [List.map_congr_left fun part member => (each part member).extent_eq]

end Piecewise

end

section

variable [Natives] {bindings : ScalarBindings} {target : Target}

def stretch (bindings : ScalarBindings) (target : Target) (waveform : Waveform) : Stretch :=
  Outcome.stretch (waveform.lower bindings target)

theorem stretch_ne_broken_iff (waveform : Waveform) :
    waveform.stretch bindings target ≠ .broken ↔
      ∃ series, waveform.lower bindings target = .ok series :=
  Outcome.stretch_ne_broken_iff _

theorem lower_series_formed {waveform : Waveform} (pieced : waveform.Pieced) {series : Series}
    (lowers : waveform.lower bindings target = .ok series) : series.Formed target :=
  ⟨target_of_lower lowers, (lower_formed pieced.filled lowers).2⟩

section Leaves

variable {duration : Scalar} {length : Decimal} (durationOk : duration.eval bindings = .ok length)
  (nonneg : 0 ≤ length)
include durationOk nonneg

theorem constant_stretch {value : Scalar} {number : Decimal}
    (valueOk : value.eval bindings = .ok number) :
    (constant value duration).stretch bindings target = crossing target length number number := by
  have lasts := fun subject => (lowering_leaf_ok_iff subject duration length).2 ⟨durationOk, nonneg⟩
  cases target with
  | linear =>
      rw [stretch, lower, lowerLinear, linearSeries?, lasts, Outcome.ok_bind, valueOk]
      exact LinearSeries.line_stretch nonneg number number
  | constant =>
      rw [stretch, lower, lowerConstant, constantSeries?, lasts, Outcome.ok_bind, valueOk,
        crossing_constant]
      exact ConstantSeries.level_stretch length number

theorem zero_stretch : (zero duration).stretch bindings target = rest length := by
  rw [zero, constant_stretch durationOk nonneg rfl, crossing_zero]

theorem ramp_stretch {start stop : Scalar} {first last : Decimal}
    (startOk : start.eval bindings = .ok first) (stopOk : stop.eval bindings = .ok last) :
    (ramp start stop duration).stretch bindings target = crossing target length first last := by
  have lasts := fun subject => (lowering_leaf_ok_iff subject duration length).2 ⟨durationOk, nonneg⟩
  cases target with
  | linear =>
      rw [stretch, lower, lowerLinear, linearSeries?, lasts, Outcome.ok_bind, startOk,
        Outcome.ok_bind, stopOk]
      exact LinearSeries.line_stretch nonneg first last
  | constant =>
      rw [stretch, lower, lowerConstant, constantSeries?, lasts, Outcome.ok_bind, startOk,
        Outcome.ok_bind, stopOk, Outcome.ok_bind]
      generalize (fun _ : Unit => (ramp start stop duration).text) = subject
      have steps := fun series => @ConstantSeries.of_line_ok_iff series subject length first last
      by_cases flat : first = last ∨ length = 0
      · rw [(steps _).2 ⟨flat, rfl⟩]
        refine (ConstantSeries.level_stretch length first).trans ?_
        unfold rest crossing
        split_ifs <;> simp_all
      · cases made : ConstantSeries.ofLine subject length first last with
        | ok series => exact absurd ((steps series).1 made).1 flat
        | error failure =>
            rw [not_or] at flat
            simp only [crossing, flat.2, flat.1, if_false]
            rfl

theorem poly_stretch {coefficients : List Scalar} {values : List Decimal}
    (valuesOk : Scalar.evalAll bindings coefficients = .ok values) :
    (poly coefficients duration).stretch bindings target = bending target length values := by
  have lasts := fun subject => (lowering_leaf_ok_iff subject duration length).2 ⟨durationOk, nonneg⟩
  cases target with
  | linear =>
      rw [stretch, lower, lowerLinear, linearSeries?]
      generalize (fun _ : Unit => (poly coefficients duration).text) = subject
      rw [lasts, Outcome.ok_bind, valuesOk, Outcome.ok_bind]
      have lines := of_polynomial_ok_iff subject length values
      rw [bending_linear]
      split_ifs with low
      · rw [(lines _).2 ⟨low, rfl⟩]
        exact LinearSeries.line_stretch nonneg _ _
      · cases made : LinearSeries.ofPolynomial subject length values with
        | ok series => exact absurd ((lines series).1 made).1 low
        | error failure => rfl
  | constant =>
      rw [stretch, lower, lowerConstant, constantSeries?]
      generalize (fun _ : Unit => (poly coefficients duration).text) = subject
      rw [lasts, Outcome.ok_bind, valuesOk, Outcome.ok_bind]
      have steps := fun series => @ConstantSeries.of_polynomial_ok_iff series subject length values
      rw [bending_constant]
      split_ifs with low
      · rw [(steps _).2 ⟨low, rfl⟩]
        exact ConstantSeries.level_stretch length _
      · cases made : ConstantSeries.ofPolynomial subject length values with
        | ok series => exact absurd ((steps series).1 made).1 low
        | error failure => rfl

end Leaves

theorem negative_lower (inner : Waveform) :
    (negative inner).lower bindings target = Series.map (-·) <$> inner.lower bindings target := by
  cases target with
  | linear =>
      simp only [lower, lowerLinear, linearSeries?]
      cases inner.linearSeries? bindings with
      | error failure => rfl
      | ok found => cases found <;> rfl
  | constant =>
      simp only [lower, lowerConstant, constantSeries?]
      cases inner.constantSeries? bindings with
      | error failure => rfl
      | ok found => cases found <;> rfl

theorem scale_lower {factor : Scalar} {number : Decimal}
    (factorOk : factor.eval bindings = .ok number) (inner : Waveform) :
    (scale factor inner).lower bindings target =
      Series.map (number * ·) <$> inner.lower bindings target := by
  cases target with
  | linear =>
      simp only [lower, lowerLinear, linearSeries?]
      cases inner.linearSeries? bindings with
      | error failure => rfl
      | ok found => cases found <;> simp [factorOk] <;> rfl
  | constant =>
      simp only [lower, lowerConstant, constantSeries?]
      cases inner.constantSeries? bindings with
      | error failure => rfl
      | ok found => cases found <;> simp [factorOk] <;> rfl

theorem negative_stretch {inner : Waveform} (pieced : inner.Pieced) :
    (negative inner).stretch bindings target = (inner.stretch bindings target).map (-·) := by
  unfold stretch
  rw [negative_lower]
  cases lowered : inner.lower bindings target with
  | error failure => rfl
  | ok series => exact Series.map_stretch neg_zero (lower_series_formed pieced lowered)

theorem scale_stretch {factor : Scalar} {number : Decimal}
    (factorOk : factor.eval bindings = .ok number) {inner : Waveform} (pieced : inner.Pieced) :
    (scale factor inner).stretch bindings target =
      (inner.stretch bindings target).map (number * ·) := by
  unfold stretch
  rw [scale_lower factorOk]
  cases lowered : inner.lower bindings target with
  | error failure => rfl
  | ok series => exact Series.map_stretch (mul_zero number) (lower_series_formed pieced lowered)

theorem record_stretch (name : String) (inner : Waveform) (side : Side) :
    (record name inner side).stretch bindings target = inner.stretch bindings target := by
  cases target with
  | linear => rw [stretch, stretch, lower, lower, lowerLinear, lowerLinear, linear_series_record]
  | constant =>
      rw [stretch, stretch, lower, lower, lowerConstant, lowerConstant, constant_series_record]

theorem append_stretch {parts : List Waveform} (pieced : (append parts).Pieced) :
    (append parts).stretch bindings target = (parts.map (stretch bindings target)).prod := by
  obtain ⟨notEmpty, each⟩ := (pieced_append_iff parts).1 pieced
  have lowers_iff := @lower_append_iff _ bindings target parts pieced.filled
  by_cases lowers : ∀ part ∈ parts, ∃ series, part.lower bindings target = .ok series
  · obtain ⟨serieses, eachLowers⟩ := Outcome.related_of_each lowers
    have formed := formed_of_lower (fun part member => (each part member).filled) eachLowers
    have filled : serieses ≠ [] := by
      rintro rfl
      exact notEmpty (List.forall₂_nil_right_iff.1 eachLowers)
    have sameOutcome : (append parts).stretch bindings target =
        Outcome.stretch (Series.joinAll serieses) := by
      refine Outcome.stretch_congr fun whole => ?_
      rw [lowers_iff]
      refine ⟨fun ⟨found, foundEach, joins⟩ => ?_, fun joins => ⟨serieses, eachLowers, joins⟩⟩
      have same : serieses = found := List.forall₂_eq_eq_eq ▸ Outcome.related_of_common eachLowers
        foundEach fun part one other oneLowers otherLowers =>
          Except.ok.inj (oneLowers.symm.trans otherLowers)
      rw [same, joins]
    have sameStretches : serieses.map Series.stretch = parts.map (stretch bindings target) :=
      Outcome.map_eq_of_related eachLowers fun _ _ lowered => by rw [stretch, lowered]; rfl
    rw [sameOutcome, Series.join_all_stretch filled formed, sameStretches]
  · push Not at lowers
    obtain ⟨part, member, fails⟩ := lowers
    have broken : part.stretch bindings target = .broken := by
      by_contra whole
      obtain ⟨series, lowered⟩ := (stretch_ne_broken_iff part).1 whole
      exact fails series lowered
    rw [prod_of_broken (List.mem_map.2 ⟨part, member, broken⟩)]
    by_contra whole
    obtain ⟨series, lowered⟩ := (stretch_ne_broken_iff _).1 whole
    obtain ⟨serieses, eachLowers, _⟩ := (lowers_iff series).1 lowered
    obtain ⟨found, _, foundLowers⟩ := Outcome.target_of_mem eachLowers member
    exact fails found foundLowers

namespace Piecewise

variable {waveform : Waveform} {length : Decimal}

theorem stays_of_empty (piecewise : Piecewise bindings waveform 0) (target : Target) :
    Stays (waveform.stretch bindings target) 1 := by
  intro whole
  obtain ⟨series, lowered⟩ := (stretch_ne_broken_iff waveform).1 whole
  obtain ⟨lastsAsLong, _⟩ := lower_formed piecewise.pieced.filled lowered
  have empty : series.duration = 0 := Except.ok.inj (lastsAsLong.symm.trans piecewise.lasts)
  rw [stretch, lowered]
  exact (Series.stretch_of_empty empty).symm

theorem passes (piecewise : Piecewise bindings waveform length)
    (whole : waveform.stretch bindings target ≠ .broken) : Passes bindings target waveform := by
  obtain ⟨series, lowered⟩ := (stretch_ne_broken_iff waveform).1 whole
  refine ⟨?_, series, lowered⟩
  have filled := piecewise.pieced.filled
  cases target with
  | linear =>
      obtain ⟨line, lowersLine, rfl⟩ := (Outcome.map_ok_iff _ _ _).1 lowered
      rw [lower_linear_ok_iff] at lowersLine
      have settled : ∀ node ∈ waveform.exposed, Settled bindings node := by
        intro node member
        have piece := piecewise.pieced node (mem_nodes_of_exposed waveform node member)
        cases node <;> first | exact trivial | exact absurd piece Bool.false_ne_true
      obtain ⟨_, accepted⟩ :=
        accepted_of_lowers waveform line ⟨filled, piecewise.fixed.tidied, settled⟩ lowersLine
      exact accepted.validates
  | constant =>
      obtain ⟨steps, lowersSteps, rfl⟩ := (Outcome.map_ok_iff _ _ _).1 lowered
      have evaluates : ∀ node ∈ waveform.exposed, ∀ scalar ∈ node.scalars,
          ∃ value, scalar.eval bindings = .ok value := by
        intro node nodeMember scalar member
        obtain ⟨value, counts⟩ :=
          piecewise.counted node (mem_nodes_of_exposed waveform node nodeMember) scalar member
        exact ⟨value, counts.evaluates⟩
      have parallel := validates_in_parallel waveform ⟨filled, evaluates⟩
      obtain ⟨_, valid⟩ := parallel.ok_iff.1 ⟨steps, lowersSteps⟩
      exact valid

end Piecewise

end

end Waveform

end Analog
