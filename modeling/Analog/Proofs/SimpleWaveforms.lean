import Analog.Proofs.FixedForms
import Analog.Proofs.RememberedForms

/-!
# Simple waveforms

A node of a waveform is reduced if the rule for nodes of its kind leaves it as it is. What
the rules decide depends on the scalars of a node, on the kinds of the waveforms inside it,
and on how long these last once their durations are simplified. None of this tells equal
waveforms apart. In a simple waveform all nodes are reduced and all scalars are simple.
-/

set_option autoImplicit false

namespace Analog

open Canonical

/-- A length that another one does not reach, as far as can be told. -/
def Scalar.Outlasts (length other : Scalar) : Prop :=
  length.same other = false ∧ ∀ first second, length.value? = some first →
    other.value? = some second → second < first

theorem Scalar.Outlasts.of_alike {length length' other other' : Scalar}
    (outlasts : length.Outlasts other) (lengths : length.Alike length')
    (others : other.Alike other') : length'.Outlasts other' := by
  refine ⟨?_, fun first second found otherFound => ?_⟩
  · rw [← lengths.same_congr others]
    exact outlasts.1
  · exact outlasts.2 first second (lengths.value.trans found) (others.value.trans otherFound)

theorem Canonical.covers_all_alike {bounds bounds' : Interval} {length length' : Scalar}
    (alike : bounds.Alike bounds') (lengths : length.Alike length') :
    coversAll bounds length = coversAll bounds' length' := by
  obtain ⟨start, stop⟩ := bounds
  obtain ⟨start', stop'⟩ := bounds'
  obtain ⟨starts, stops⟩ := alike
  have startZero : start.all (·.isZero) = start'.all (·.isZero) := by
    cases starts with
    | none => rfl
    | some same => exact same.isZero
  have stopWhole : stop.all (·.same length) = stop'.all (·.same length') := by
    cases stops with
    | none => rfl
    | some same => exact same.same_congr lengths
  rw [coversAll, coversAll, startZero, stopWhole]

namespace Waveform

def isConstant : Waveform → Bool
  | .constant _ _ => true
  | _ => false

def isNegation : Waveform → Bool
  | .negative _ => true
  | _ => false

def isScale : Waveform → Bool
  | .scale _ _ => true
  | _ => false

def isAppend : Waveform → Bool
  | .append _ => true
  | _ => false

theorem kinds_of_shape {first second : Waveform} (shapes : first.shape = second.shape) :
    first.isConstant = second.isConstant ∧ first.isNegation = second.isNegation ∧
      first.isScale = second.isScale ∧ first.isAppend = second.isAppend := by
  cases first <;> cases second <;>
    first
    | exact ⟨rfl, rfl, rfl, rfl⟩
    | exact nomatch shapes

def isEmptyConstant : Waveform → Bool
  | .constant _ length => length.isZero
  | _ => false

theorem not_constant {waveform : Waveform}
    (other : ∀ value length, waveform ≠ .constant value length) : waveform.isConstant = false := by
  cases waveform with
  | constant value length => exact absurd rfl (other value length)
  | _ => rfl

theorem not_negation {waveform : Waveform} (other : ∀ inner, waveform ≠ .negative inner) :
    waveform.isNegation = false := by
  cases waveform with
  | negative inner => exact absurd rfl (other inner)
  | _ => rfl

theorem not_scale {waveform : Waveform} (other : ∀ factor inner, waveform ≠ .scale factor inner) :
    waveform.isScale = false := by
  cases waveform with
  | scale factor inner => exact absurd rfl (other factor inner)
  | _ => rfl

def LastsFor (given : Waveform) (length : Scalar) : Prop :=
  direct given.symbolicDuration = .ok length

theorem LastsFor.of_akin {first second : Waveform} {length : Scalar} (lasts : LastsFor first length)
    (akin : Akin first second) : ∃ length', LastsFor second length' ∧ length.Alike length' := by
  obtain ⟨length', made, lengths⟩ :=
    direct_shared _ _ _ (symbolic_duration_alike akin).symm lasts
  exact ⟨length', made, lengths.symm⟩

theorem LastsFor.unique {given : Waveform} {length other : Scalar} (lasts : LastsFor given length)
    (lastsOther : LastsFor given other) : other = length :=
  Except.ok.inj (lastsOther.symm.trans lasts)

/-- An operand that adds something to the other one: it is not an empty constant, and not a zero
that ends with the other operand or before. -/
def Counts (given other : Waveform) : Prop :=
  ∀ value length, given = .constant value length → length.isZero = false ∧
    (value.isZero = true → ∃ otherLength, LastsFor other otherLength ∧ length.Outlasts otherLength)

/-- Operands of a sum that are not to be drawn together. -/
structure Apart (left right : Waveform) : Prop where
  different : left.same right = false
  lengths : ∀ value length otherValue otherLength, left = .constant value length →
    right = .constant otherValue otherLength → length.same otherLength = false
  scales : ∀ factor inner otherFactor otherInner, left = .scale factor inner →
    right = .scale otherFactor otherInner →
    factor.same otherFactor = false ∧ inner.same otherInner = false
  leftInner : ∀ factor inner, left = .scale factor inner → right.isScale = false →
    inner.same right = false
  rightInner : ∀ factor inner, right = .scale factor inner → inner.same left = false

def joins : Waveform → Waveform → Bool
  | .constant value _, .constant nextValue _ => value.same nextValue
  | _, _ => false

/-- A part that need not be spliced and is not empty, unless it is a constant. -/
def StandsAlone (part : Waveform) : Prop :=
  part.isAppend = false ∧
    ∃ length, LastsFor part length ∧ (length.isZero = true → part.isConstant = true)

/-- Several parts, of which no neighbours are to be joined. -/
structure Joined (parts : List Waveform) : Prop where
  several : 2 ≤ parts.length
  alone : ∀ part ∈ parts, part.StandsAlone
  chain : parts.IsChain fun part next => joins part next = false

/-- Whether the rule for nodes of its kind leaves a node as it is. From an append it may still drop
constants that are empty. -/
def Reduced : Waveform → Prop
  | .constant _ _ => True
  | .ramp start stop _ => start.same stop = false
  | .poly coefficients _ => 2 ≤ coefficients.length
  | .native _ _ _ _ => True
  | .negative inner => inner.isNegation = false ∧ inner.isConstant = false ∧
    ∀ factor scaled value, inner = .scale factor scaled → factor.value? = some value →
      value.isNegative = false
  | .add left right => Apart left right ∧ Counts left right ∧ Counts right left
  | .scale factor inner => factor.isZero = false ∧ factor.isOne = false ∧
    inner.isScale = false ∧ inner.isConstant = false
  | .slice inner bounds => (inner.isScale = false ∧ inner.isNegation = false ∧
    inner.isConstant = false) ∧ ∃ length, LastsFor inner length ∧ coversAll bounds length = false
  | .append parts => Joined parts
  | .record _ _ _ => True
  | .sample _ _ _ => True
  | .smooth _ _ _ => True
  | .aligned _ _ _ => True

/-- A waveform all of whose nodes are reduced and all of whose scalars are simple. -/
def Simple (waveform : Waveform) : Prop :=
  ∀ node ∈ waveform.nodes, node.Reduced ∧ ∀ scalar ∈ node.scalars, scalar.Simple

theorem simple_iff (waveform : Waveform) :
    waveform.Simple ↔ (waveform.Reduced ∧ ∀ scalar ∈ waveform.scalars, scalar.Simple) ∧
      ∀ child ∈ waveform.children, child.Simple :=
  each_node_iff _ _

theorem Simple.tidied {waveform : Waveform} (simple : waveform.Simple) :
    waveform.Each (·.tidy = true) :=
  fun node nodeMember scalar member => ((simple node nodeMember).2 scalar member).tidied

theorem constant_simple_iff (value length : Scalar) :
    (constant value length).Simple ↔ value.Simple ∧ length.Simple := by
  simp [simple_iff (constant value length), scalars, children, Reduced]

theorem LastsFor.of_constant {value own length : Scalar} (simple : (constant value own).Simple)
    (lasts : LastsFor (.constant value own) length) : length = own := by
  have itself : LastsFor (.constant value own) own :=
    direct_of_simple own ((constant_simple_iff _ _).1 simple).2
  exact itself.unique lasts

theorem negative_simple_iff (inner : Waveform) :
    (negative inner).Simple ↔ (negative inner).Reduced ∧ inner.Simple := by
  simp [simple_iff (negative inner), scalars, children]

theorem add_simple_iff (left right : Waveform) :
    (add left right).Simple ↔ (add left right).Reduced ∧ left.Simple ∧ right.Simple := by
  simp [simple_iff (add left right), scalars, children]

theorem scale_simple_iff (factor : Scalar) (inner : Waveform) :
    (scale factor inner).Simple ↔
      (scale factor inner).Reduced ∧ factor.Simple ∧ inner.Simple := by
  simp [simple_iff (scale factor inner), scalars, children, and_assoc]

theorem slice_simple_iff (inner : Waveform) (bounds : Interval) :
    (slice inner bounds).Simple ↔ (slice inner bounds).Reduced ∧
      (∀ bound ∈ bounds.bounds, bound.Simple) ∧ inner.Simple := by
  simp [simple_iff (slice inner bounds), scalars, children, and_assoc]

theorem append_simple_iff (parts : List Waveform) :
    (append parts).Simple ↔ Joined parts ∧ ∀ part ∈ parts, part.Simple := by
  simp [simple_iff (append parts), scalars, children, Reduced]

section Akin

variable {first second left left' right right' : Waveform}

theorem Akin.kinds (akin : Akin first second) :
    first.isConstant = second.isConstant ∧ first.isNegation = second.isNegation ∧
      first.isScale = second.isScale ∧ first.isAppend = second.isAppend :=
  kinds_of_shape ((akin_iff _ _).1 akin).1

theorem Counts.of_akin (counts : Counts left right) (lefts : Akin left left')
    (rights : Akin right right') : Counts left' right' := by
  rintro value' length' rfl
  obtain ⟨value, length, rfl, values, lengths⟩ := lefts.symm.constant
  obtain ⟨notEmpty, notReached⟩ := counts value length rfl
  refine ⟨lengths.isZero.trans notEmpty, fun zero => ?_⟩
  obtain ⟨otherLength, lasts, outlasts⟩ := notReached (values.isZero.symm.trans zero)
  obtain ⟨otherLength', lasts', others⟩ := lasts.of_akin rights
  exact ⟨otherLength', lasts', outlasts.of_alike lengths.symm others⟩

theorem Apart.of_akin (apart : Apart left right) (lefts : Akin left left')
    (rights : Akin right right') : Apart left' right' := by
  refine ⟨?_, ?_, ?_, ?_, ?_⟩
  · rw [← lefts.same_congr rights]
    exact apart.different
  · rintro _ length' _ otherLength' rfl rfl
    obtain ⟨value, length, rfl, _, lengths⟩ := lefts.symm.constant
    obtain ⟨otherValue, otherLength, rfl, _, others⟩ := rights.symm.constant
    rw [lengths.same_congr others]
    exact apart.lengths _ _ _ _ rfl rfl
  · rintro _ _ _ _ rfl rfl
    obtain ⟨factor, inner, rfl, factors, inners⟩ := lefts.symm.scale
    obtain ⟨otherFactor, otherInner, rfl, otherFactors, otherInners⟩ := rights.symm.scale
    rw [factors.same_congr otherFactors, inners.same_congr otherInners]
    exact apart.scales _ _ _ _ rfl rfl
  · rintro _ _ rfl notScale
    obtain ⟨factor, inner, rfl, _, inners⟩ := lefts.symm.scale
    rw [inners.same_congr rights.symm]
    exact apart.leftInner _ _ rfl (rights.kinds.2.2.1.trans notScale)
  · rintro _ _ rfl
    obtain ⟨factor, inner, rfl, _, inners⟩ := rights.symm.scale
    rw [inners.same_congr lefts.symm]
    exact apart.rightInner _ _ rfl

theorem joins_akin (lefts : Akin left left') (rights : Akin right right') :
    joins left right = joins left' right' := by
  have inverted : ∀ {left left' right right' : Waveform}, Akin left left' → Akin right right' →
      joins left right = true → joins left' right' = true := by
    intro left left' right right' lefts rights joined
    unfold joins at joined
    split at joined
    · obtain ⟨_, _, rfl, values, _⟩ := lefts.constant
      obtain ⟨_, _, rfl, nextValues, _⟩ := rights.constant
      rw [joins, ← values.same_congr nextValues]
      exact joined
    · cases joined
  rw [Bool.eq_iff_iff]
  exact ⟨inverted lefts rights, inverted lefts.symm rights.symm⟩

theorem StandsAlone.of_akin (alone : first.StandsAlone) (akin : Akin first second) :
    second.StandsAlone := by
  obtain ⟨notAppend, length, lasts, full⟩ := alone
  obtain ⟨constants, _, _, appends⟩ := akin.kinds
  obtain ⟨length', lasts', lengths⟩ := lasts.of_akin akin
  refine ⟨appends.symm.trans notAppend, length', lasts', fun zero => ?_⟩
  rw [← constants]
  exact full (lengths.isZero.trans zero)

theorem chain_of_akin {parts others : List Waveform} (related : List.Forall₂ Akin parts others)
    (chain : parts.IsChain fun part next => joins part next = false) :
    others.IsChain fun part next => joins part next = false := by
  induction related with
  | nil => exact .nil
  | cons akin rest ih =>
      cases rest with
      | nil => exact .singleton _
      | cons nextAkin _ =>
          obtain ⟨apart, restChain⟩ := List.isChain_cons_cons.1 chain
          rw [joins_akin akin nextAkin] at apart
          exact List.isChain_cons_cons.2 ⟨apart, ih restChain⟩

theorem Joined.of_akin {parts others : List Waveform} (joined : Joined parts)
    (related : List.Forall₂ Akin parts others) : Joined others := by
  refine ⟨?_, fun other member => ?_, chain_of_akin related joined.chain⟩
  · rw [← related.length_eq]
    exact joined.several
  · obtain ⟨part, partMember, akin⟩ := Outcome.source_of_mem related member
    exact (joined.alone part partMember).of_akin akin

theorem Reduced.of_akin (reduced : first.Reduced) (akin : Akin first second) :
    second.Reduced := by
  cases first with
  | constant value length =>
      obtain ⟨_, _, rfl, _, _⟩ := akin.constant
      trivial
  | ramp start stop length =>
      obtain ⟨_, _, _, rfl, starts, stops, _⟩ := akin.ramp
      exact (starts.same_congr stops).symm.trans reduced
  | poly coefficients length =>
      obtain ⟨_, _, rfl, related, _⟩ := akin.poly
      exact reduced.trans related.length_eq.le
  | negative inner =>
      obtain ⟨inner', rfl, inners⟩ := akin.negative
      obtain ⟨constants, negations, _, _⟩ := inners.kinds
      refine ⟨negations.symm.trans reduced.1, constants.symm.trans reduced.2.1, ?_⟩
      rintro factor' scaled' value rfl found
      obtain ⟨factor, scaled, rfl, factors, _⟩ := inners.symm.scale
      exact reduced.2.2 factor scaled value rfl (factors.value.symm.trans found)
  | add left right =>
      obtain ⟨_, _, rfl, lefts, rights⟩ := akin.add
      exact ⟨reduced.1.of_akin lefts rights, reduced.2.1.of_akin lefts rights,
        reduced.2.2.of_akin rights lefts⟩
  | scale factor inner =>
      obtain ⟨_, _, rfl, factors, inners⟩ := akin.scale
      obtain ⟨constants, _, scales, _⟩ := inners.kinds
      exact ⟨factors.isZero.symm.trans reduced.1, factors.isOne.symm.trans reduced.2.1,
        scales.symm.trans reduced.2.2.1, constants.symm.trans reduced.2.2.2⟩
  | slice inner bounds =>
      obtain ⟨_, _, rfl, inners, intervals⟩ := akin.slice
      obtain ⟨constants, negations, scales, _⟩ := inners.kinds
      obtain ⟨⟨notScale, notNegation, notConstant⟩, length, lasts, proper⟩ := reduced
      obtain ⟨length', lasts', lengths⟩ := lasts.of_akin inners
      refine ⟨⟨scales.symm.trans notScale, negations.symm.trans notNegation,
        constants.symm.trans notConstant⟩, length', lasts', ?_⟩
      rw [← covers_all_alike intervals lengths]
      exact proper
  | append parts =>
      obtain ⟨_, rfl, related⟩ := akin.append
      exact Joined.of_akin reduced related
  | _ =>
      obtain ⟨shapes, _, _⟩ := (akin_iff _ _).1 akin
      cases second <;> trivial

end Akin

end Waveform

end Analog
