import Analog.Proofs.SimpleForms

/-!
# Canonical forms of simple waveforms

The rule for a reduced node leaves it as it is, except that parts of an append that last no
time are dropped. Such a part can only be a constant, for constants of one value are joined
after their durations have been looked at, and the durations may cancel. A simple waveform
without one is its own canonical form.
-/

set_option autoImplicit false

namespace Analog

namespace Waveform

open Canonical

/-- Whether an append has no constant among its parts that is empty. -/
def fullParts : Waveform → Bool
  | .append parts => parts.all (!·.isEmptyConstant)
  | _ => true

/-- A waveform in which no append has an empty constant among its parts. -/
def Full (waveform : Waveform) : Prop :=
  ∀ node ∈ waveform.nodes, node.fullParts = true

theorem full_iff (waveform : Waveform) :
    waveform.Full ↔ waveform.fullParts = true ∧ ∀ child ∈ waveform.children, child.Full :=
  each_node_iff _ _

theorem Akin.isEmptyConstant {first second : Waveform} (akin : Akin first second) :
    first.isEmptyConstant = second.isEmptyConstant := by
  cases first with
  | constant value length =>
      obtain ⟨_, _, rfl, _, lengths⟩ := akin.constant
      exact lengths.isZero
  | _ =>
      obtain ⟨shapes, _, _⟩ := (akin_iff _ _).1 akin
      cases second <;> trivial

theorem Full.of_akin {first second : Waveform} (full : first.Full) (akin : Akin first second) :
    second.Full := by
  induction first using Waveform.children_induction generalizing second with
  | step first ih =>
      obtain ⟨fullParts, childrenFull⟩ := (full_iff _).1 full
      obtain ⟨shapes, _, childrenAkin⟩ := (akin_iff _ _).1 akin
      refine (full_iff _).2 ⟨?_, fun child member => ?_⟩
      · cases second with
        | append others =>
            obtain ⟨parts, rfl, related⟩ := akin.symm.append
            refine List.all_eq_true.2 fun other member => ?_
            obtain ⟨part, partMember, parts⟩ := Outcome.target_of_mem related member
            rw [parts.isEmptyConstant]
            exact List.all_eq_true.1 fullParts part partMember
        | _ => rfl
      · obtain ⟨other, otherMember, others⟩ := Outcome.source_of_mem childrenAkin member
        exact ih other otherMember (childrenFull other otherMember) others

def Endures (part : Waveform) : Prop :=
  ∃ length, LastsFor part length ∧ length.isZero = false

theorem Endures.of_akin {first second : Waveform} (endures : first.Endures)
    (akin : Akin first second) : second.Endures := by
  obtain ⟨length, lasts, notZero⟩ := endures
  obtain ⟨length', lasts', lengths⟩ := lasts.of_akin akin
  exact ⟨length', lasts', lengths.isZero.symm.trans notZero⟩

/-- A part that stands alone lasts some time, unless it is an empty constant. -/
theorem StandsAlone.endures {part : Waveform} (alone : part.StandsAlone) (simple : part.Simple)
    (notEmpty : part.isEmptyConstant = false) : part.Endures := by
  obtain ⟨_, length, lasts, emptyOnly⟩ := alone
  refine ⟨length, lasts, ?_⟩
  rw [Bool.eq_false_iff]
  intro zero
  have isConstant := emptyOnly zero
  cases part with
  | constant value own =>
      rw [lasts.of_constant simple] at zero
      exact Bool.false_ne_true (notEmpty.symm.trans zero)
  | _ => cases isConstant

end Waveform

namespace Canonical

open Waveform

variable {waveformRelation : Waveform → Waveform → Prop}

theorem scalar_again {given : Scalar} (simple : given.Simple) :
    Yields (Remembers Trusted waveformRelation) (scalar given) given.Alike := by
  have formed := direct_of_simple given simple
  refine ((scalar_ends given).yields fun failure fails => ?_).mono fun result trusted => ?_
  · have failed := fails simple.tidied
    rw [formed] at failed
    cases failed
  · obtain ⟨form, made, alike⟩ := trusted.form simple.tidied
    rw [formed] at made
    cases made
    exact alike.symm

theorem scalars_again {given : List Scalar} (simple : ∀ scalar ∈ given, scalar.Simple) :
    Yields (Remembers Trusted waveformRelation) (scalars given)
      (List.Forall₂ Scalar.Alike given) := by
  induction given with
  | nil => exact .pure .nil
  | cons first rest ih =>
      obtain ⟨firstSimple, restSimple⟩ := List.forall_mem_cons.1 simple
      refine (scalar_again firstSimple).bind fun first' alike => ?_
      exact (ih restSimple).bind fun rest' related => .pure (.cons alike related)

theorem scalar_bound_again {given : Option Scalar} (simple : ∀ bound ∈ given, bound.Simple) :
    Yields (Remembers Trusted waveformRelation) (scalarBound given)
      (Scalar.BoundAlike given) := by
  cases given with
  | none => exact .pure .none
  | some bound => exact (scalar_again (simple bound rfl)).bind fun bound' alike => .pure (.some alike)

theorem interval_again {given : Interval} (simple : ∀ bound ∈ given.bounds, bound.Simple) :
    Yields (Remembers Trusted waveformRelation) (interval given) given.Alike := by
  obtain ⟨startSimple, stopSimple⟩ := (Interval.each_iff given).1 simple
  refine (scalar_bound_again startSimple).bind fun start' starts => ?_
  exact (scalar_bound_again stopSimple).bind fun stop' stops => .pure ⟨starts, stops⟩

theorem fill_again {given : FillValue} (simple : ∀ scalar ∈ given.scalars, scalar.Simple) :
    Yields (Remembers Trusted waveformRelation) (fill given) fun result =>
      given.boundary? = result.boundary? ∧
        List.Forall₂ Scalar.Alike given.scalars result.scalars := by
  cases given with
  | explicit value =>
      refine (scalar_again (simple value (by simp [FillValue.scalars]))).bind fun value' alike =>
        .pure ⟨rfl, .cons alike .nil⟩
  | boundary side => exact .pure ⟨rfl, .nil⟩

/-- A waveform whose duration has a direct form has an equal of it for a canonical duration. -/
theorem duration_again {given : Waveform} {length : Scalar} (tidied : given.Each (·.tidy = true))
    (lasts : LastsFor given length) :
    Yields (Remembers Trusted waveformRelation) (duration given) length.Alike := by
  have durationTidy := symbolic_duration_each Scalar.tidy_family given tidied
  refine ((scalar_ends _).yields fun failure fails => ?_).mono fun result trusted => ?_
  · have failed := fails durationTidy
    rw [lasts] at failed
    cases failed
  · obtain ⟨form, made, alike⟩ := trusted.form durationTidy
    rw [lasts] at made
    cases made
    exact alike.symm

theorem ramp_again {start stop length : Scalar} (reduced : (Waveform.ramp start stop length).Reduced) :
    ramp start stop length = .ramp start stop length :=
  if_neg (Bool.eq_false_iff.1 reduced)

theorem poly_again {coefficients : List Scalar} {length : Scalar}
    (reduced : (Waveform.poly coefficients length).Reduced) :
    poly coefficients length = .poly coefficients length := by
  match coefficients, reduced with
  | [], few => simp [Reduced] at few
  | [_], few => simp [Reduced] at few
  | _ :: _ :: _, _ => rfl

theorem scale_again {factor : Scalar} {inner : Waveform}
    (reduced : (Waveform.scale factor inner).Reduced) :
    scale factor inner = pure (.scale factor inner) := by
  obtain ⟨notZero, notOne, notScale, notConstant⟩ := reduced
  cases inner with
  | scale _ _ => cases notScale
  | constant _ _ => cases notConstant
  | _ =>
      unfold scale
      rw [notZero, notOne]
      rfl

theorem negate_again {inner : Waveform} (reduced : (Waveform.negative inner).Reduced) :
    negate inner = pure (.negative inner) := by
  obtain ⟨notNegation, notConstant, notNegative⟩ := reduced
  cases inner with
  | negative _ => cases notNegation
  | constant _ _ => cases notConstant
  | scale factor scaled =>
      rw [negate]
      split
      case h_1 value found =>
          rw [notNegative factor scaled value rfl found]
          rfl
      case h_2 => rfl
  | _ => rfl

theorem is_redundant_again {given other : Waveform} (tidied : given.Each (·.tidy = true))
    (otherTidy : other.Each (·.tidy = true)) (counts : Counts given other) :
    Yields (Remembers Trusted waveformRelation) (isRedundant given other) (· = false) := by
  unfold isRedundant
  split
  case h_1 value length =>
      obtain ⟨notEmpty, notReached⟩ := counts value length rfl
      have lengthTidy : length.tidy = true := ((each_iff _).1 tidied).1 length (by simp [Waveform.scalars])
      rw [notEmpty, if_neg Bool.false_ne_true]
      split_ifs with zero
      · obtain ⟨form, lasts, reaches⟩ := notReached zero
        refine (duration_again otherTidy lasts).bind fun otherLength alike => ?_
        obtain ⟨different, longer⟩ := reaches.of_alike (.refl lengthTidy) alike
        rw [different, if_neg Bool.false_ne_true]
        split
        case h_1 first second found otherFound =>
            exact .pure (decide_eq_false (not_le.2 (longer first second found otherFound)))
        case h_2 => exact .pure rfl
      · exact .pure rfl
  case h_2 => exact .pure rfl

theorem add_again {left right : Waveform} (leftTidy : left.Each (·.tidy = true))
    (rightTidy : right.Each (·.tidy = true)) (reduced : (Waveform.add left right).Reduced) :
    Yields (Remembers Trusted waveformRelation) (add left right) (· = .add left right) := by
  obtain ⟨apart, leftCounts, rightCounts⟩ := reduced
  have plain : plainSum left right = pure (.add left right) := by
    unfold plainSum
    split
    · rw [apart.rightInner _ _ rfl]
      rfl
    · rfl
  unfold add
  rw [apart.different, if_neg Bool.false_ne_true]
  refine (is_redundant_again leftTidy rightTidy leftCounts).bind ?_
  rintro _ rfl
  refine (is_redundant_again rightTidy leftTidy rightCounts).bind ?_
  rintro _ rfl
  rw [if_neg Bool.false_ne_true]
  split
  case h_1 =>
      rw [apart.lengths _ _ _ _ rfl rfl, if_neg Bool.false_ne_true, plain]
      exact .pure rfl
  case h_2 =>
      obtain ⟨factors, inners⟩ := apart.scales _ _ _ _ rfl rfl
      rw [factors, inners, if_neg Bool.false_ne_true, if_neg Bool.false_ne_true, plain]
      exact .pure rfl
  case h_3 otherThanScale =>
      rw [apart.leftInner _ _ rfl (not_scale fun factor inner same => otherThanScale factor inner same),
        if_neg Bool.false_ne_true, plain]
      exact .pure rfl
  case h_4 =>
      rw [plain]
      exact .pure rfl

theorem cut_again {bounds : Interval} {inner : Waveform} (tidied : inner.Each (·.tidy = true))
    (boundsTidy : ∀ bound ∈ bounds.bounds, bound.tidy = true)
    (reduced : (Waveform.slice inner bounds).Reduced) :
    Yields (Remembers Trusted waveformRelation) (cut bounds inner) (· = .slice inner bounds) := by
  obtain ⟨⟨notScale, notNegation, notConstant⟩, form, lasts, proper⟩ := reduced
  have boundsAlike : bounds.Alike bounds := (Interval.alike_iff _ _).2
    ⟨⟨rfl, rfl⟩, List.forall₂_same.2 fun bound member => .refl (boundsTidy bound member)⟩
  unfold cut
  refine (duration_again tidied lasts).bind fun length alike => ?_
  rw [← covers_all_alike boundsAlike alike, proper, if_neg Bool.false_ne_true]
  cases inner with
  | scale _ _ => cases notScale
  | negative _ => cases notNegation
  | constant _ _ => cases notConstant
  | _ => exact .pure rfl

/-- Parts that last and are not to be joined are kept one by one. -/
theorem join_parts_again (parts reversed : List Waveform)
    (each : ∀ part ∈ parts, part.Each (·.tidy = true) ∧ part.Endures)
    (chain : (reversed.reverse ++ parts).IsChain fun part next => joins part next = false) :
    Yields (Remembers Trusted waveformRelation) (joinParts reversed parts)
      (· = parts.reverse ++ reversed) := by
  induction parts generalizing reversed with
  | nil => exact .pure rfl
  | cons part rest ih =>
      obtain ⟨⟨tidied, form, lasts, notZero⟩, restEach⟩ := List.forall_mem_cons.1 each
      unfold joinParts
      refine (duration_again tidied lasts).bind fun length alike => ?_
      rw [← alike.isZero, notZero, if_neg Bool.false_ne_true]
      have pushed : joinPart reversed part = part :: reversed := by
        rcases join_part_cases reversed part with ⟨same, _⟩ |
          ⟨value, length, earlier, nextValue, nextLength, rfl, rfl, equal, _⟩
        · exact same
        · have apart := (List.isChain_append.1 chain).2.2 (.constant value length) (by simp)
            (.constant nextValue nextLength) rfl
          exact absurd equal (Bool.eq_false_iff.1 apart)
      rw [pushed, List.reverse_cons, List.append_assoc]
      exact ih (part :: reversed) restEach (by simpa using chain)

theorem concatenate_again {parts : List Waveform} (joined : Joined parts)
    (each : ∀ part ∈ parts, part.Each (·.tidy = true) ∧ part.Endures) :
    Yields (Remembers Trusted waveformRelation) (concatenate parts) (· = .append parts) := by
  have spliced : parts.flatMap spliceParts = parts := by
    have single : ∀ part ∈ parts, spliceParts part = [part] := by
      intro part member
      have notAppend := (joined.alone part member).1
      cases part with
      | append _ => cases notAppend
      | _ => rfl
    rw [List.flatMap_congr single, List.flatMap_singleton']
  unfold concatenate
  rw [spliced]
  refine (join_parts_again parts [] each joined.chain).bind ?_
  rintro _ rfl
  have several := joined.several
  rw [List.append_nil, ← List.length_reverse] at *
  split
  case h_1 none => simp [none] at several
  case h_2 part single => simp [single] at several
  case h_3 =>
      rw [List.reverse_reverse]
      exact .pure rfl

/-- Nodes of one shape are akin if their scalars are alike and the waveforms inside them akin. -/
theorem node_akin {first second : Waveform} (shapes : first.shape = second.shape)
    (scalarsAlike : List.Forall₂ Scalar.Alike first.scalars second.scalars)
    (childrenAkin : List.Forall₂ Akin first.children second.children) : Akin first second :=
  (akin_iff _ _).2 ⟨shapes, scalarsAlike, childrenAkin⟩

theorem single_of_related {inner : Waveform} {parts' : List Waveform}
    (related : List.Forall₂ Akin [inner] parts') :
    ∃ inner', parts' = [inner'] ∧ Akin inner inner' := by
  obtain ⟨inner', rest, alike, none, rfl⟩ := List.forall₂_cons_left_iff.1 related
  obtain rfl := List.forall₂_nil_left_iff.1 none
  exact ⟨inner', rfl, alike⟩

/-- A node of a simple waveform without empty constants comes to an equal of itself if the
waveforms inside it do. -/
theorem combine_again {given : Waveform} (simple : given.Simple) (full : given.fullParts = true)
    {parts' : List Waveform} (related : List.Forall₂ Akin given.children parts') :
    Yields (Remembers Trusted waveformRelation) (combine given parts') (Akin given) := by
  obtain ⟨⟨reduced, own⟩, inside⟩ := (Waveform.simple_iff given).1 simple
  have ownAgain : ∀ part ∈ given.scalars,
      Yields (Remembers Trusted waveformRelation) (scalar part) part.Alike :=
    fun part member => scalar_again (own part member)
  cases given with
  | constant value length =>
      refine (ownAgain value (by simp [Waveform.scalars])).bind fun value' values => ?_
      refine (ownAgain length (by simp [Waveform.scalars])).bind fun length' lengths => ?_
      exact .pure (node_akin rfl (.cons values (.cons lengths .nil)) .nil)
  | ramp start stop length =>
      refine (ownAgain start (by simp [Waveform.scalars])).bind fun start' starts => ?_
      refine (ownAgain stop (by simp [Waveform.scalars])).bind fun stop' stops => ?_
      refine (ownAgain length (by simp [Waveform.scalars])).bind fun length' lengths => ?_
      have akin : Akin (.ramp start stop length) (.ramp start' stop' length') :=
        node_akin rfl (.cons starts (.cons stops (.cons lengths .nil))) .nil
      rw [ramp_again (reduced.of_akin akin)]
      exact .pure akin
  | poly coefficients length =>
      refine (scalars_again fun coefficient member => own coefficient
        (by simp [Waveform.scalars, member])).bind fun coefficients' coefficientsAlike => ?_
      refine (ownAgain length (by simp [Waveform.scalars])).bind fun length' lengths => ?_
      have akin : Akin (.poly coefficients length) (.poly coefficients' length') :=
        node_akin rfl ((related_snoc_iff _ _ _ _).2 ⟨coefficientsAlike, lengths⟩) .nil
      rw [poly_again (reduced.of_akin akin)]
      exact .pure akin
  | native name function length parameters =>
      refine (ownAgain length (by simp [Waveform.scalars])).bind fun length' lengths => ?_
      refine (scalars_again fun parameter member => own parameter
        (by simp [Waveform.scalars, member])).bind fun parameters' parametersAlike => ?_
      exact .pure (node_akin rfl (.cons lengths parametersAlike) .nil)
  | negative inner =>
      obtain ⟨inner', rfl, _⟩ := single_of_related related
      have akin : Akin (.negative inner) (.negative inner') := node_akin rfl .nil related
      rw [combine, negate_again (reduced.of_akin akin)]
      exact .pure akin
  | add left right =>
      obtain ⟨left', rest, lefts, restRelated, rfl⟩ := List.forall₂_cons_left_iff.1 related
      obtain ⟨right', rfl, rights⟩ := single_of_related restRelated
      have akin : Akin (.add left right) (.add left' right') := node_akin rfl .nil related
      exact (add_again lefts.secondTidy rights.secondTidy (reduced.of_akin akin)).mono
        fun result same => same ▸ akin
  | scale factor inner =>
      obtain ⟨inner', rfl, _⟩ := single_of_related related
      refine (ownAgain factor (by simp [Waveform.scalars])).bind fun factor' factors => ?_
      have akin : Akin (.scale factor inner) (.scale factor' inner') :=
        node_akin rfl (.cons factors .nil) related
      rw [scale_again (reduced.of_akin akin)]
      exact .pure akin
  | slice inner bounds =>
      obtain ⟨inner', rfl, inners⟩ := single_of_related related
      refine (interval_again own).bind fun bounds' intervals => ?_
      obtain ⟨given, boundsAlike⟩ := (Interval.alike_iff _ _).1 intervals
      have akin : Akin (.slice inner bounds) (.slice inner' bounds') :=
        node_akin (by simpa [shape] using given) boundsAlike related
      have boundsTidy : ∀ bound ∈ bounds'.bounds, bound.tidy = true := by
        intro bound member
        obtain ⟨_, _, same⟩ := Outcome.source_of_mem boundsAlike member
        exact same.secondTidy
      exact (cut_again inners.secondTidy boundsTidy (reduced.of_akin akin)).mono
        fun result same => same ▸ akin
  | append parts =>
      have akin : Akin (.append parts) (.append parts') := node_akin rfl .nil related
      have each : ∀ part' ∈ parts', part'.Each (·.tidy = true) ∧ part'.Endures := by
        intro part' member
        obtain ⟨part, partMember, partAkin⟩ := Outcome.source_of_mem related member
        have notEmpty := List.all_eq_true.1 full part partMember
        refine ⟨partAkin.secondTidy, Endures.of_akin ?_ partAkin⟩
        exact (Joined.alone reduced part partMember).endures (inside part partMember)
          (Bool.not_eq_true' _ ▸ notEmpty)
      exact (concatenate_again (reduced.of_akin akin) each).mono fun result same => same ▸ akin
  | record name inner side =>
      obtain ⟨inner', rfl, _⟩ := single_of_related related
      exact .pure (node_akin rfl .nil related)
  | sample inner step interpolation =>
      obtain ⟨inner', rfl, _⟩ := single_of_related related
      refine (ownAgain step (by simp [Waveform.scalars])).bind fun step' steps => .pure ?_
      exact node_akin rfl (.cons steps .nil) related
  | smooth inner radius kernel =>
      obtain ⟨inner', rfl, _⟩ := single_of_related related
      refine (ownAgain radius (by simp [Waveform.scalars])).bind fun radius' radii => .pure ?_
      exact node_akin rfl (.cons radii .nil) related
  | aligned inner alignment value =>
      obtain ⟨inner', rfl, _⟩ := single_of_related related
      refine (fill_again own).bind fun value' values => .pure ?_
      exact node_akin (by rw [shape, shape, values.1]) values.2 related

/-- A simple result for a waveform without empty constants in its appends, which is an equal of it. -/
structure Unchanged (given result : Waveform) : Prop where
  full : given.Full
  akin : Akin given result
  simple : result.Simple

/-- The memory of work on simple waveforms that come out as they went in. -/
abbrev Unchanging : Memo → Prop :=
  Remembers Trusted Unchanged

theorem Unchanged.of_akin {given other result : Waveform} (unchanged : Unchanged given result)
    (akin : Akin other given) : Unchanged other result :=
  ⟨unchanged.full.of_akin akin.symm, akin.trans unchanged.akin, unchanged.simple⟩

theorem Unchanged.itself {given result : Waveform} (unchanged : Unchanged given result) :
    Unchanged result result :=
  unchanged.of_akin unchanged.akin.symm

theorem keep_unchanging {given result : Waveform} {memo : Memo} (unchanged : Unchanged given result)
    (unchanging : Unchanging memo) : Unchanging (keepWaveform given result memo) := by
  have resultTidy := unchanged.akin.secondTidy
  refine ⟨unchanging.scalars, ?_⟩
  refine (unchanging.waveforms.insert unchanged ?_).insert unchanged.itself ?_
  · intro other _ known equal
    have others : Akin given other := ⟨unchanged.akin.firstTidy, known.akin.firstTidy, equal⟩
    exact unchanged.of_akin others.symm
  · intro other _ known equal
    have others : Akin result other := ⟨resultTidy, known.akin.firstTidy, equal⟩
    exact unchanged.itself.of_akin others.symm

theorem remember_waveform_again {α : Type} {given : Waveform} {parts : Simplifying α}
    {simplify : α → Simplifying Waveform} {good : α → Prop} (simple : given.Simple)
    (partsYield : Yields Unchanging parts good)
    (simplifyYields : ∀ canonicalParts, good canonicalParts →
      Yields Unchanging (simplify canonicalParts) (Unchanged given)) :
    Yields Unchanging (rememberWaveform given parts simplify) (Unchanged given) := by
  apply Yields.remembering _ _ partsYield simplifyYields
  · intro memo unchanging known found
    obtain ⟨other, equal, unchanged⟩ := unchanging.waveforms.find found
    exact unchanged.of_akin ⟨simple.tidied, unchanged.akin.firstTidy, equal⟩
  · exact fun result unchanged memo unchanging => keep_unchanging unchanged unchanging

/-- A simple waveform without empty constants in its appends comes out as it went in. -/
theorem waveform_again (given : Waveform) (simple : given.Simple) (full : given.Full) :
    Yields Unchanging (waveform given) (Unchanged given) := by
  induction given using Waveform.children_induction with
  | step given ih =>
      obtain ⟨_, inside⟩ := (Waveform.simple_iff given).1 simple
      obtain ⟨fullParts, insideFull⟩ := (full_iff given).1 full
      rw [waveform_eq, waveforms_eq_mapM]
      refine remember_waveform_again simple (Yields.mapM fun child member =>
        ih child member (inside child member) (insideFull child member)) fun parts' unchanged => ?_
      have related : List.Forall₂ Akin given.children parts' :=
        unchanged.imp fun _ _ unchanged => unchanged.akin
      have partsSimple : ∀ part' ∈ parts', part'.Simple := by
        intro part' member
        obtain ⟨_, _, unchanged⟩ := Outcome.source_of_mem unchanged member
        exact unchanged.simple
      exact ((combine_again simple fullParts related).keeping
        (combine_trimmed given related.length_eq.symm partsSimple)).mono
          fun result both => ⟨full, both.1, both.2.simple⟩

end Canonical

end Analog
