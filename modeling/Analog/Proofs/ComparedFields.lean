import Mathlib.Data.List.Find
import Mathlib.Data.List.Forall2
import Mathlib.Data.List.Perm.Basic
import Analog.Proofs.ComparedScalars
import Analog.Proofs.ConsistentEquality
import Analog.Proofs.WaveformEquality
import Analog.Sequence.Comparison

/-!
# Compared waveforms and fields

Where scalars are tidy, the loop over waveforms decides their structural equality, and so does the
comparison of modulations. The drives of a field have different modulations. So if as many drives
are found in another field, the drives of both are matched with each other, and equality of fields
is an equivalence although the search goes in one direction only.
-/

set_option autoImplicit false

namespace Analog

variable (identities : Identities)

theorem Scalar.consistent : Consistent (fun scalar => scalar.tidy = true) same fingerprint where
  refl scalar _ := same_refl scalar
  symm first second firstTidy _ := same_symm first second firstTidy
  trans first second third _ _ _ := same_trans first second third
  fingerprints first second firstTidy _ := fingerprint_of_same first second firstTidy

theorem equal_scalars_eq_same {left right : Scalar} (leftTidy : left.tidy = true)
    (rightTidy : right.tidy = true) : identities.equalScalars left right = left.same right :=
  Scalar.equal_eq_same identities.scalars.eq_of_known leftTidy rightTidy

namespace Interval

theorem same_eq_options (left right : Interval) :
    left.same right = (Pulse.sameOption Scalar.same left.start right.start &&
      Pulse.sameOption Scalar.same left.stop right.stop) := by
  have bounds : ∀ bound other : Option Scalar,
      Scalar.sameBound bound other = Pulse.sameOption Scalar.same bound other := by
    intro bound other
    cases bound <;> cases other <;> simp [Scalar.sameBound, Pulse.sameOption]
  rw [same, bounds, bounds]

/-- The fingerprint comes from which bounds are given, and from theirs. -/
theorem fingerprint_of_bounds {first second : Interval}
    (given : first.start.isSome = second.start.isSome ∧ first.stop.isSome = second.stop.isSome)
    (words : first.bounds.map Scalar.fingerprint = second.bounds.map Scalar.fingerprint) :
    first.fingerprint = second.fingerprint := by
  obtain ⟨start, stop⟩ := first
  obtain ⟨otherStart, otherStop⟩ := second
  cases start <;> cases otherStart <;> cases stop <;> cases otherStop <;>
    simp_all [fingerprint, bounds, Scalar.boundFingerprint]

theorem consistent : Consistent (Each fun scalar => scalar.tidy = true) same fingerprint where
  toEquivalentOn :=
    ((Scalar.consistent.options.comap Interval.start).both
      (Scalar.consistent.options.comap Interval.stop)).mono
      (fun interval => interval.each_iff.1) fun first second _ _ => same_eq_options first second
  fingerprints first second firstTidy _ equal := by
    obtain ⟨startTidy, stopTidy⟩ := (each_iff first).1 firstTidy
    rw [same, Bool.and_eq_true] at equal
    rw [fingerprint, fingerprint,
      Scalar.bound_fingerprint_of_same (fun given member other =>
        Scalar.fingerprint_of_same given other (startTidy given member)) equal.1,
      Scalar.bound_fingerprint_of_same (fun given member other =>
        Scalar.fingerprint_of_same given other (stopTidy given member)) equal.2]

theorem equal_eq_same {left right : Interval} (leftTidy : left.Each (·.tidy = true))
    (rightTidy : right.Each (·.tidy = true)) : left.equal identities right = left.same right := by
  obtain ⟨startTidy, stopTidy⟩ := (each_iff left).1 leftTidy
  obtain ⟨otherStartTidy, otherStopTidy⟩ := (each_iff right).1 rightTidy
  rw [equal, same_eq_options,
    same_option_congr fun first member second other =>
      equal_scalars_eq_same identities (startTidy first member) (otherStartTidy second other),
    same_option_congr fun first member second other =>
      equal_scalars_eq_same identities (stopTidy first member) (otherStopTidy second other)]

end Interval

theorem FillValue.same_kind_iff (first second : FillValue) :
    first.sameKind second = true ↔ first.boundary? = second.boundary? := by
  cases first <;> cases second <;> simp [sameKind, boundary?]

theorem FillValue.fingerprint_of_scalars {first second : FillValue}
    (kinds : first.boundary? = second.boundary?)
    (words : first.scalars.map Scalar.fingerprint = second.scalars.map Scalar.fingerprint) :
    first.fingerprint = second.fingerprint := by
  cases first <;> cases second <;> simp_all [fingerprint, boundary?, scalars]

namespace Waveform

theorem fingerprints_eq_map (parts : List Waveform) :
    fingerprints parts = parts.map fingerprint := by
  induction parts with
  | nil => rfl
  | cons part rest ih => rw [fingerprints, ih, List.map_cons]

/-- The fingerprint comes from the shape of a node, its scalars and its children. -/
theorem fingerprint_of_parts {first second : Waveform} (shapes : first.shape = second.shape)
    (scalarWords : first.scalars.map Scalar.fingerprint = second.scalars.map Scalar.fingerprint)
    (childWords : first.children.map fingerprint = second.children.map fingerprint) :
    first.fingerprint = second.fingerprint := by
  cases first <;> cases second <;> try exact Shape.noConfusion shapes
  case poly.poly coefficients length others otherLength =>
    rw [scalars, scalars, List.map_append, List.map_append] at scalarWords
    obtain ⟨coefficientWords, lengthWord⟩ := List.append_inj' scalarWords rfl
    rw [fingerprint, fingerprint, Scalar.fingerprints_eq_map, Scalar.fingerprints_eq_map,
      coefficientWords, (List.cons.inj lengthWord).1]
  case slice.slice inner interval other otherInterval =>
    rw [shape, shape, Shape.slice.injEq] at shapes
    rw [fingerprint, fingerprint, (List.cons.inj childWords).1,
      Interval.fingerprint_of_bounds shapes scalarWords]
  case aligned.aligned inner alignment fill other otherAlignment otherFill =>
    rw [shape, shape, Shape.aligned.injEq] at shapes
    rw [fingerprint, fingerprint, (List.cons.inj childWords).1, shapes.1,
      FillValue.fingerprint_of_scalars shapes.2 scalarWords]
  all_goals
    simp_all [shape, scalars, children, fingerprint, Scalar.fingerprints_eq_map,
      fingerprints_eq_map]

theorem consistent : Consistent (Each fun scalar => scalar.tidy = true) same fingerprint where
  refl waveform _ := same_refl waveform
  symm first second firstTidy secondTidy equal := (Akin.symm ⟨firstTidy, secondTidy, equal⟩).equal
  trans first second third firstTidy secondTidy thirdTidy equal next :=
    (Akin.trans ⟨firstTidy, secondTidy, equal⟩ ⟨secondTidy, thirdTidy, next⟩).equal
  fingerprints first second firstTidy secondTidy equal := by
    induction first using Waveform.children_induction generalizing second with
    | step first ih =>
        obtain ⟨shapes, scalarsAlike, childrenAkin⟩ := (akin_iff _ _).1
          ⟨firstTidy, secondTidy, equal⟩
        refine fingerprint_of_parts shapes ?_ ?_
        · exact (Outcome.map_eq_of_related scalarsAlike fun scalar other alike =>
            (Scalar.fingerprint_of_same scalar other alike.firstTidy alike.equal).symm).symm
        · have words := Outcome.related_of_mem childrenAkin fun child member other akin =>
            ih child member other akin.firstTidy akin.secondTidy akin.equal
          exact (Outcome.map_eq_of_related words fun _ _ word => word.symm).symm

theorem attributes_iff_shape {first second : Waveform}
    (sizes : first.scalars.length = second.scalars.length) :
    first.sameAttributes second = true ↔ first.shape = second.shape := by
  cases first <;> cases second <;>
    first
    | exact iff_of_false (fun equal => Bool.false_ne_true equal)
        fun shapes => Shape.noConfusion shapes
    | simp_all [sameAttributes, shape, scalars, FillValue.same_kind_iff, ← Option.not_isSome]

theorem by_parts : ByParts (Each fun scalar => scalar.tidy = true)
    (comparison identities).agree same where
  closed waveform tidied := ((each_iff waveform).1 tidied).2
  parts left right leftTidy rightTidy := by
    obtain ⟨leftScalars, _⟩ := (each_iff left).1 leftTidy
    obtain ⟨rightScalars, _⟩ := (each_iff right).1 rightTidy
    have scalarsIff : left.scalars.isEqv right.scalars identities.equalScalars = true ↔
        List.Forall₂ (fun scalar other => scalar.same other = true) left.scalars right.scalars := by
      rw [is_eqv_iff]
      constructor <;> refine fun each => Outcome.related_of_members each
        fun scalar member other otherMember equal => ?_
      · rwa [← equal_scalars_eq_same identities (leftScalars _ member) (rightScalars _ otherMember)]
      · rwa [equal_scalars_eq_same identities (leftScalars _ member) (rightScalars _ otherMember)]
    rw [same_iff, ← and_assoc]
    refine and_congr_left fun _ => ?_
    change _ ↔ (left.sameAttributes right &&
      left.scalars.isEqv right.scalars identities.equalScalars) = true
    rw [Bool.and_eq_true, scalarsIff]
    exact and_congr_left fun each => (attributes_iff_shape each.length_eq).symm

theorem equal_eq_same {left right : Waveform} (leftTidy : left.Each (·.tidy = true))
    (rightTidy : right.Each (·.tidy = true)) : left.equal identities right = left.same right :=
  (by_parts identities).equal_eq_same consistent leftTidy rightTidy

end Waveform

namespace Modulation

theorem consistent : Consistent (EachWeight fun scalar => scalar.tidy = true) same fingerprint where
  refl modulation _ := same_refl modulation
  symm _ _ firstTidy _ := same_symm firstTidy
  trans _ _ _ _ _ _ := same_trans
  fingerprints _ _ firstTidy _ := fingerprint_of_same firstTidy

theorem equal_eq_same {left right : Modulation} (leftTidy : left.EachWeight (·.tidy = true))
    (rightTidy : right.EachWeight (·.tidy = true)) :
    left.equal identities right = left.same right := by
  have listed : ∀ locations others : List Location,
      (scaled locations).EachWeight (·.tidy = true) → (scaled others).EachWeight (·.tidy = true) →
      ((locations.isEqv others fun location other => location.site == other.site &&
          identities.equalScalars location.weight other.weight) = true ↔
        (scaled locations).same (scaled others) = true) := by
    intro locations others tidied otherTidied
    have agrees : ∀ location ∈ locations, ∀ other ∈ others,
        identities.equalScalars location.weight other.weight =
          location.weight.same other.weight := fun location member other otherMember =>
      equal_scalars_eq_same identities (tidied location member) (otherTidied other otherMember)
    have related : (∃ first second, scaled locations = .scaled first ∧
          scaled others = .scaled second ∧
          List.Forall₂ (fun location other => location.site = other.site ∧
            location.weight.same other.weight = true) first second) ↔
        List.Forall₂ (fun location other => location.site = other.site ∧
          location.weight.same other.weight = true) locations others := by
      simp
    rw [is_eqv_iff, same_iff, or_iff_right fun both => both.2 locations rfl, related]
    simp only [Bool.and_eq_true, beq_iff_eq]
    constructor <;> refine fun each => Outcome.related_of_members each
      fun location member other otherMember both => ⟨both.1, ?_⟩
    · rw [← agrees location member other otherMember]
      exact both.2
    · rw [agrees location member other otherMember]
      exact both.2
  unfold equal
  rw [Bool.eq_iff_iff, Bool.and_eq_true, beq_iff_eq]
  refine Iff.trans (and_congr_right fun _ => ?_) (and_iff_right_of_imp
    (consistent.fingerprints left right leftTidy rightTidy))
  cases left <;> cases right <;> first | exact Iff.rfl | exact listed _ _ leftTidy rightTidy

end Modulation

namespace Drive

def same (left right : Drive) : Bool :=
  left.target.same right.target && left.waveform.same right.waveform

theorem equivalent : EquivalentOn (Each fun scalar => scalar.tidy = true) same :=
  ((Modulation.consistent.comap Drive.target).both (Waveform.consistent.comap Drive.waveform)).mono
    (fun _ each => ⟨each.target, each.waveform⟩) fun _ _ _ _ => rfl

end Drive

/-- A field as its constructor makes it: its modulations are apart, and its scalars are tidy. -/
structure Field.Tidy (field : Field) : Prop where
  drives : ∀ drive ∈ field.drives, drive.Each (·.tidy = true)
  apart : Apart field.drives

namespace Field

theorem apart_iff_related {first second : Drive} (secondTidy : second.Each (·.tidy = true))
    (different : first.target.same second.target = false) (other : Drive)
    (related : first.same other = true) : ¬second.same other = true := by
  intro next
  rw [Drive.same, Bool.and_eq_true] at related next
  have back := Modulation.same_symm secondTidy.target next.1
  rw [Modulation.same_trans related.1 back] at different
  cases different

theorem same_iff_matched {left right : Field} (leftTidy : left.Tidy) (rightTidy : right.Tidy) :
    left.same right = true ↔ ∃ matched, matched.Perm right.drives ∧
      List.Forall₂ (fun drive other => drive.same other = true) left.drives matched := by
  rw [same, Bool.and_eq_true, beq_iff_eq, List.all_eq_true]
  constructor
  · rintro ⟨sizes, found⟩
    have within : ∀ drive ∈ left.drives, ∃ other ∈ right.drives, drive.same other = true := by
      intro drive member
      obtain ⟨waveform, looked, equal⟩ := (Option.any_eq_true _ _).1 (found drive member)
      obtain ⟨other, search, rfl⟩ := Option.map_eq_some_iff.1 looked
      have otherMember := List.mem_of_find?_eq_some search
      have sameTarget := List.find?_some search
      refine ⟨other, otherMember, Bool.and_eq_true_iff.2 ⟨?_, equal⟩⟩
      exact Modulation.same_symm (rightTidy.drives other otherMember).target sameTarget
    have apart : left.drives.Pairwise fun first second =>
        ∀ other, first.same other = true → ¬second.same other = true :=
      leftTidy.apart.imp_of_mem fun _ member different =>
        apart_iff_related (leftTidy.drives _ member) different
    obtain ⟨matched, rest, perm, each⟩ := Outcome.exists_matching _ _ apart within
    -- As many drives are matched as there are, so none is left over.
    have all : rest = [] := by
      have lengths := perm.length_eq
      rw [List.length_append, ← each.length_eq, sizes] at lengths
      exact List.length_eq_zero_iff.1 (by omega)
    rw [all, List.append_nil] at perm
    exact ⟨matched, perm, each⟩
  · rintro ⟨matched, perm, each⟩
    refine ⟨each.length_eq.trans perm.length_eq, fun drive member => ?_⟩
    obtain ⟨other, otherMatched, equal⟩ := Outcome.target_of_mem each member
    have otherMember := perm.subset otherMatched
    rw [Drive.same, Bool.and_eq_true] at equal
    have back := Modulation.same_symm (leftTidy.drives drive member).target equal.1
    have search : right.drives.find? (·.target.same drive.target) = some other := by
      rw [← find_of_apart rightTidy.apart otherMember]
      refine List.find?_congr fun candidate _ => Bool.eq_iff_iff.2
        ⟨fun first => Modulation.same_trans first equal.1, fun second =>
          Modulation.same_trans second back⟩
    rw [lookup?, search]
    exact equal.2

theorem consistent : Consistent Tidy same fingerprint where
  refl field tidied := (same_iff_matched tidied tidied).2
    ⟨field.drives, List.Perm.refl _, List.forall₂_same.2 fun drive member =>
      Drive.equivalent.refl drive (tidied.drives drive member)⟩
  symm first second firstTidy secondTidy equal := by
    obtain ⟨matched, perm, each⟩ := (same_iff_matched firstTidy secondTidy).1 equal
    have back := Outcome.related_of_members each fun drive member other otherMember equal =>
      Drive.equivalent.symm drive other (firstTidy.drives drive member)
        (secondTidy.drives other (perm.subset otherMember)) equal
    obtain ⟨others, otherEach, otherPerm⟩ := List.perm_comp_forall₂ perm.symm back.flip
    exact (same_iff_matched secondTidy firstTidy).2 ⟨others, otherPerm, otherEach⟩
  trans first second third firstTidy secondTidy thirdTidy equal next := by
    obtain ⟨matched, perm, each⟩ := (same_iff_matched firstTidy secondTidy).1 equal
    obtain ⟨nextMatched, nextPerm, nextEach⟩ := (same_iff_matched secondTidy thirdTidy).1 next
    obtain ⟨others, otherEach, otherPerm⟩ := List.perm_comp_forall₂ perm nextEach
    refine (same_iff_matched firstTidy thirdTidy).2 ⟨others, otherPerm.trans nextPerm, ?_⟩
    exact Outcome.related_trans each otherEach fun drive member other otherMember last lastMember =>
      Drive.equivalent.trans drive other last (firstTidy.drives drive member)
        (secondTidy.drives other (perm.subset otherMember))
        (thirdTidy.drives last (nextPerm.subset (otherPerm.subset lastMember)))
  fingerprints first second firstTidy secondTidy equal := by
    obtain ⟨matched, perm, each⟩ := (same_iff_matched firstTidy secondTidy).1 equal
    rw [fingerprint, fingerprint]
    have words : matched.map (fun drive =>
          Fingerprint.mix drive.target.fingerprint drive.waveform.fingerprint) =
        first.drives.map fun drive =>
          Fingerprint.mix drive.target.fingerprint drive.waveform.fingerprint := by
      refine Outcome.map_eq_of_related (Outcome.related_of_members each
        fun drive member other otherMember equal => ?_) fun _ _ word => word
      have driveTidy := firstTidy.drives drive member
      have otherTidy := secondTidy.drives other (perm.subset otherMember)
      rw [Drive.same, Bool.and_eq_true] at equal
      rw [Modulation.fingerprint_of_same driveTidy.target equal.1,
        Waveform.consistent.fingerprints _ _ driveTidy.waveform otherTidy.waveform equal.2]
    rw [← words]
    exact Fingerprint.unordered_of_perm _ (perm.map _)

theorem find_eq_lookup {field : Field} (tidied : field.Tidy) {target : Modulation}
    (targetTidy : target.EachWeight (·.tidy = true)) :
    field.find? identities target = field.lookup? target := by
  refine congrArg (Option.map _) (List.find?_congr fun drive member => ?_)
  exact Modulation.equal_eq_same identities (tidied.drives drive member).target targetTidy

theorem equal_eq_same {left right : Field} (leftTidy : left.Tidy) (rightTidy : right.Tidy) :
    left.equal identities right = left.same right := by
  have found : ∀ drive ∈ left.drives,
      (right.find? identities drive.target).any (drive.waveform.equal identities) =
        (right.lookup? drive.target).any drive.waveform.same := by
    intro drive member
    have driveTidy := leftTidy.drives drive member
    rw [find_eq_lookup identities rightTidy driveTidy.target]
    cases looked : right.lookup? drive.target with
    | none => rfl
    | some waveform =>
        obtain ⟨other, search, rfl⟩ := Option.map_eq_some_iff.1 looked
        exact Waveform.equal_eq_same identities driveTidy.waveform
          (rightTidy.drives other (List.mem_of_find?_eq_some search)).waveform
  have compared : left.equal identities right = true ↔
      identities.fields.known left right = true ∨
        left.fingerprint = right.fingerprint ∧ left.same right = true := by
    simp only [equal, same, Bool.or_eq_true, Bool.and_eq_true, beq_iff_eq, List.all_eq_true,
      and_assoc]
    exact or_congr_right (and_congr_right fun _ => and_congr_right fun _ =>
      forall₂_congr fun drive member => by rw [found drive member])
  rw [Bool.eq_iff_iff, compared]
  constructor
  · rintro (known | ⟨_, equal⟩)
    · rw [identities.fields.eq_of_known _ _ known]
      exact consistent.refl right rightTidy
    · exact equal
  · exact fun equal => Or.inr ⟨consistent.fingerprints _ _ leftTidy rightTidy equal, equal⟩

theorem merge_drive_eq_place {drive : Drive} (tidied : drive.Each (·.tidy = true))
    (merged : List Drive) (each : ∀ other ∈ merged, other.Each (·.tidy = true)) :
    mergeDrive identities drive merged = placeDrive drive merged := by
  induction merged with
  | nil => rfl
  | cons head rest ih =>
      obtain ⟨headTidy, restTidy⟩ := List.forall_mem_cons.1 each
      rw [mergeDrive, placeDrive, ih restTidy,
        Modulation.equal_eq_same identities headTidy.target tidied.target]

theorem of_drives_tidy {drives : List Drive} (each : ∀ drive ∈ drives, drive.Each (·.tidy = true)) :
    (ofDrives drives).Tidy := by
  refine ⟨of_drives_each (fun first second firstTidy secondTidy _ => ?_) each,
    of_drives_apart drives⟩
  refine ⟨firstTidy.target, (Waveform.each_iff _).2 ?_⟩
  simpa [Waveform.scalars, Waveform.children] using ⟨firstTidy.waveform, secondTidy.waveform⟩

theorem assemble_eq_of_drives {drives : List Drive}
    (each : ∀ drive ∈ drives, drive.Each (·.tidy = true)) :
    assemble identities drives = ofDrives drives := by
  induction drives using List.reverseRecOn with
  | nil => rfl
  | append_singleton before last ih =>
      obtain ⟨beforeTidy, lastTidy⟩ := List.forall_mem_append.1 each
      have merged := merge_drive_eq_place identities (lastTidy last List.mem_cons_self) _
        (of_drives_tidy beforeTidy).drives
      rw [← ih beforeTidy] at merged
      rw [assemble, ofDrives, List.foldl_append, List.foldl_append]
      exact congrArg Field.mk (merged.trans (by rw [ih beforeTidy]; rfl))

theorem apart_of_perm {drives others : List Drive} (perm : drives.Perm others)
    (each : ∀ drive ∈ drives, drive.Each (·.tidy = true)) (apart : Apart drives) :
    Apart others := by
  -- Only among these drives is being apart symmetric.
  have symmetric : ∀ {first second : Drive},
      (first ∈ drives → second ∈ drives → first.target.same second.target = false) →
        second ∈ drives → first ∈ drives → second.target.same first.target = false := by
    intro first second different secondMember firstMember
    rw [← Bool.not_eq_true]
    intro equal
    have back := Modulation.same_symm (each second secondMember).target equal
    rw [different firstMember secondMember] at back
    cases back
  have moved := (perm.pairwise_iff symmetric).1 (apart.imp fun different _ _ => different)
  exact moved.imp_of_mem fun first second different =>
    different (perm.symm.subset first) (perm.symm.subset second)

/-- The order of drives does not matter, if their modulations are apart. -/
theorem same_of_perm {drives others : List Drive} (perm : drives.Perm others)
    (each : ∀ drive ∈ drives, drive.Each (·.tidy = true)) (apart : Apart drives) :
    (ofDrives drives).same (ofDrives others) = true := by
  have otherEach : ∀ drive ∈ others, drive.Each (·.tidy = true) := fun drive member =>
    each drive (perm.symm.subset member)
  refine (same_iff_matched (of_drives_tidy each) (of_drives_tidy otherEach)).2 ⟨drives, ?_, ?_⟩
  · rwa [of_drives_of_apart others (apart_of_perm perm each apart)]
  · rw [of_drives_of_apart drives apart]
    exact List.forall₂_same.2 fun drive member => Drive.equivalent.refl drive (each drive member)

end Field

end Analog
