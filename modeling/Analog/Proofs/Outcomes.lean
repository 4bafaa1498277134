import Mathlib.Data.List.Chain
import Mathlib.Data.List.Forall2
import Analog.Proofs.DecimalRing
import Analog.Series.Lowering

/-!
# Outcomes taken apart

Work that is put together from steps succeeds exactly when every step does. These rules
take a successful outcome apart, one step at a time.
-/

set_option autoImplicit false

namespace Analog.Outcome

variable {α β : Type}

/-- Whether a computation succeeds can be seen by running it. -/
instance decidableSucceeds (outcome : Outcome α) : Decidable (∃ value, outcome = .ok value) :=
  match outcome with
  | .ok value => isTrue ⟨value, rfl⟩
  | .error _ => isFalse (by simp)

instance decidableGives [DecidableEq α] (outcome : Outcome α) (value : α) :
    Decidable (outcome = .ok value) :=
  match outcome with
  | .ok found => decidable_of_iff (found = value) (by simp)
  | .error _ => isFalse (by simp)

instance decidableSatisfies (outcome : Outcome α) (good : α → Prop) [DecidablePred good] :
    Decidable (∃ value, outcome = .ok value ∧ good value) :=
  match outcome with
  | .ok value => decidable_of_iff (good value) ⟨fun isGood => ⟨value, rfl, isGood⟩,
      fun ⟨_, same, isGood⟩ => Except.ok.inj same ▸ isGood⟩
  | .error _ => isFalse (by simp)

theorem bind_ok_iff (outcome : Outcome α) (next : α → Outcome β) (result : β) :
    (outcome >>= next) = .ok result ↔ ∃ value, outcome = .ok value ∧ next value = .ok result := by
  cases outcome with
  | error failure => simp [bind, Except.bind]
  | ok value => simp [bind, Except.bind]

theorem check_ok_iff (check : Outcome Unit) (next : Unit → Outcome β) (result : β) :
    (check >>= next) = .ok result ↔ check = .ok () ∧ next () = .ok result := by
  rw [bind_ok_iff]
  constructor
  · rintro ⟨_, checked, rest⟩
    exact ⟨checked, rest⟩
  · rintro ⟨checked, rest⟩
    exact ⟨(), checked, rest⟩

@[simp] theorem ok_bind (value : α) (next : α → Outcome β) :
    ((.ok value : Outcome α) >>= next) = next value := rfl

@[simp] theorem pure_ok_iff (value result : α) :
    (pure value : Outcome α) = .ok result ↔ value = result := by
  simp [pure, Except.pure]

theorem return_ok_iff (outcome : Outcome α) (f : α → β) (result : β) :
    (outcome >>= fun value => pure (f value)) = .ok result ↔
      ∃ value, outcome = .ok value ∧ f value = result := by
  simp only [bind_ok_iff, pure_ok_iff]

@[simp] theorem need_ok_iff (given : Option α) (value : α) :
    need given = .ok value ↔ given = some value := by
  cases given <;> simp [need]

@[simp] theorem blame_ok_iff (subject : Unit → String) (result : Except Defect α) (value : α) :
    blame subject result = .ok value ↔ result = .ok value := by
  cases result <;> simp [blame]

theorem map_ok_iff (f : α → β) (outcome : Outcome α) (result : β) :
    f <$> outcome = .ok result ↔ ∃ value, outcome = .ok value ∧ f value = result := by
  cases outcome <;> simp [Functor.map, Except.map]

theorem mapM_ok_iff (work : α → Outcome β) (items : List α) (results : List β) :
    items.mapM work = .ok results ↔
      List.Forall₂ (fun item result => work item = .ok result) items results := by
  induction items generalizing results with
  | nil => rw [List.mapM_nil, pure_ok_iff, List.forall₂_nil_left_iff, eq_comm]
  | cons item rest ih =>
      rw [List.mapM_cons, bind_ok_iff]
      constructor
      · rintro ⟨value, valueOk, remaining⟩
        obtain ⟨values, valuesOk, same⟩ := (bind_ok_iff _ _ _).1 remaining
        rw [pure_ok_iff] at same
        subst same
        exact List.Forall₂.cons valueOk ((ih values).1 valuesOk)
      · intro each
        cases each with
        | cons valueOk others =>
            refine ⟨_, valueOk, ?_⟩
            rw [(ih _).2 others]
            rfl

/-- Every result of a list of steps comes from one of its items. -/
theorem source_of_mem {relation : α → β → Prop} {items : List α} {results : List β}
    (each : List.Forall₂ relation items results) {result : β} (member : result ∈ results) :
    ∃ item ∈ items, relation item result := by
  induction each with
  | nil => exact absurd member List.not_mem_nil
  | cons related others ih =>
      rcases List.mem_cons.1 member with rfl | later
      · exact ⟨_, by simp, related⟩
      · obtain ⟨item, itemMember, itemRelated⟩ := ih later
        exact ⟨item, by simp [itemMember], itemRelated⟩

theorem target_at {relation : α → β → Prop} {items : List α} {results : List β}
    (each : List.Forall₂ relation items results) {item : α} {index : Nat}
    (found : items[index]? = some item) :
    ∃ result, results[index]? = some result ∧ relation item result := by
  induction each generalizing index with
  | nil => exact absurd found (by simp)
  | @cons first result _ _ related _ ih =>
      cases index with
      | zero =>
          rw [List.getElem?_cons_zero, Option.some.injEq] at found
          exact ⟨result, rfl, found ▸ related⟩
      | succ index => exact ih found

theorem target_of_mem {relation : α → β → Prop} {items : List α} {results : List β}
    (each : List.Forall₂ relation items results) {item : α} (member : item ∈ items) :
    ∃ result ∈ results, relation item result := by
  obtain ⟨result, resultMember, related⟩ := source_of_mem each.flip member
  exact ⟨result, resultMember, related⟩

/-- Where related items have a property together, some item has it if some result has it. -/
theorem exists_iff_of_related {relation : α → β → Prop} {items : List α} {results : List β}
    {before : α → Prop} {after : β → Prop} (each : List.Forall₂ relation items results)
    (iff : ∀ item result, relation item result → (after result ↔ before item)) :
    (∃ result ∈ results, after result) ↔ ∃ item ∈ items, before item := by
  induction each with
  | nil => simp
  | cons related _ ih =>
      simp only [List.exists_mem_cons_iff]
      rw [iff _ _ related, ih]

theorem related_of_members {relation other : α → β → Prop} {items : List α} {results : List β}
    (each : List.Forall₂ relation items results)
    (implies : ∀ item ∈ items, ∀ result ∈ results, relation item result → other item result) :
    List.Forall₂ other items results := by
  induction each with
  | nil => exact List.Forall₂.nil
  | cons related _ ih =>
      exact List.Forall₂.cons (implies _ (by simp) _ (by simp) related)
        (ih fun item member result found => implies item (by simp [member]) result (by simp [found]))

theorem related_of_mem {relation other : α → β → Prop} {items : List α} {results : List β}
    (each : List.Forall₂ relation items results)
    (implies : ∀ item ∈ items, ∀ result, relation item result → other item result) :
    List.Forall₂ other items results :=
  related_of_members each fun item member result _ => implies item member result

theorem related_append {relation : α → β → Prop} {before after : List α} {results : List β}
    (each : List.Forall₂ relation (before ++ after) results) :
    ∃ earlier later, results = earlier ++ later ∧ List.Forall₂ relation before earlier ∧
      List.Forall₂ relation after later := by
  induction before generalizing results with
  | nil => exact ⟨[], results, rfl, List.Forall₂.nil, each⟩
  | cons item rest ih =>
      cases each with
      | @cons _ result _ _ related others =>
          obtain ⟨earlier, later, rfl, restRelated, afterRelated⟩ := ih others
          exact ⟨result :: earlier, later, rfl, List.Forall₂.cons related restRelated, afterRelated⟩

/-- Where all results are images, they are the images of related values. -/
theorem related_images {γ : Type} {relation : α → γ → Prop} {image : γ → β} {items : List α}
    {results : List β}
    (each : List.Forall₂ (fun item result => ∃ value, relation item value ∧ image value = result)
      items results) :
    ∃ values, List.Forall₂ relation items values ∧ values.map image = results := by
  induction each with
  | nil => exact ⟨[], List.Forall₂.nil, rfl⟩
  | cons found _ ih =>
      obtain ⟨value, related, rfl⟩ := found
      obtain ⟨values, others, rfl⟩ := ih
      exact ⟨value :: values, List.Forall₂.cons related others, rfl⟩

theorem related_of_common {γ : Type} {relation : α → β → Prop} {other : α → γ → Prop}
    {joined : β → γ → Prop} {items : List α} {results : List β} {values : List γ}
    (each : List.Forall₂ relation items results) (otherEach : List.Forall₂ other items values)
    (implies : ∀ item result value, relation item result → other item value → joined result value) :
    List.Forall₂ joined results values := by
  induction each generalizing values with
  | nil =>
      cases otherEach
      exact List.Forall₂.nil
  | cons related _ ih =>
      cases otherEach with
      | cons otherRelated others =>
          exact List.Forall₂.cons (implies _ _ _ related otherRelated) (ih others)

theorem related_trans {γ : Type} {relation : α → β → Prop} {other : β → γ → Prop}
    {joined : α → γ → Prop} {items : List α} {results : List β} {values : List γ}
    (each : List.Forall₂ relation items results) (otherEach : List.Forall₂ other results values)
    (composes : ∀ item ∈ items, ∀ result ∈ results, ∀ value ∈ values,
      relation item result → other result value → joined item value) :
    List.Forall₂ joined items values := by
  induction each generalizing values with
  | nil =>
      cases otherEach
      exact List.Forall₂.nil
  | @cons item result items results related _ ih =>
      cases otherEach with
      | @cons _ value _ values otherRelated others =>
          refine List.Forall₂.cons (composes item List.mem_cons_self result List.mem_cons_self value
            List.mem_cons_self related otherRelated) (ih others ?_)
          exact fun item itemMember result resultMember value valueMember =>
            composes item (List.mem_cons_of_mem _ itemMember) result
              (List.mem_cons_of_mem _ resultMember) value (List.mem_cons_of_mem _ valueMember)

theorem map_eq_of_related {γ : Type} {relation : α → β → Prop} {items : List α} {results : List β}
    {before : α → γ} {after : β → γ} (each : List.Forall₂ relation items results)
    (agrees : ∀ item result, relation item result → after result = before item) :
    results.map after = items.map before := by
  induction each with
  | nil => rfl
  | cons related _ ih => rw [List.map_cons, List.map_cons, agrees _ _ related, ih]

theorem related_of_each {relation : α → β → Prop} {items : List α}
    (each : ∀ item ∈ items, ∃ result, relation item result) :
    ∃ results, List.Forall₂ relation items results := by
  induction items with
  | nil => exact ⟨[], List.Forall₂.nil⟩
  | cons item rest ih =>
      obtain ⟨first, firstRelated⟩ := each item (by simp)
      obtain ⟨others, related⟩ := ih fun other member => each other (by simp [member])
      exact ⟨first :: others, List.Forall₂.cons firstRelated related⟩

/-- Where no item ends with nothing, the results are all there. -/
theorem related_some {work : α → Outcome (Option β)} {items : List α} {results : List (Option β)}
    (each : ∀ item ∈ items, ∀ found, work item = .ok found → ∃ result, found = some result)
    (related : List.Forall₂ (fun item result => work item = .ok result) items results) :
    ∃ found : List β, results = found.map some ∧
      List.Forall₂ (fun item result => work item = .ok (some result)) items found := by
  induction related with
  | nil => exact ⟨[], rfl, List.Forall₂.nil⟩
  | @cons item result items results itemOk _ ih =>
      obtain ⟨others, rfl, related⟩ := ih fun other member => each other (by simp [member])
      obtain ⟨first, rfl⟩ := each item (by simp) result itemOk
      exact ⟨first :: others, rfl, List.Forall₂.cons itemOk related⟩

/-- Items that have no partner in common are matched one by one. -/
theorem exists_matching {relation : α → β → Prop} (items : List α) (others : List β)
    (apart : items.Pairwise fun first second =>
      ∀ other, relation first other → ¬relation second other)
    (within : ∀ item ∈ items, ∃ other ∈ others, relation item other) :
    ∃ matched rest, (matched ++ rest).Perm others ∧ List.Forall₂ relation items matched := by
  induction items generalizing others with
  | nil => exact ⟨[], others, List.Perm.refl others, List.Forall₂.nil⟩
  | cons first later ih =>
      obtain ⟨firstApart, laterApart⟩ := List.pairwise_cons.1 apart
      obtain ⟨partner, partnerMember, related⟩ := within first (by simp)
      obtain ⟨before, after, rfl⟩ := List.append_of_mem partnerMember
      -- Nothing else has the partner of the first, so the others have theirs elsewhere.
      have elsewhere : ∀ item ∈ later, ∃ other ∈ before ++ after, relation item other := by
        intro item member
        obtain ⟨other, otherMember, otherRelated⟩ := within item (by simp [member])
        have different : other ≠ partner := by
          rintro rfl
          exact firstApart item member other related otherRelated
        refine ⟨other, ?_, otherRelated⟩
        simpa [different] using otherMember
      obtain ⟨matched, rest, perm, each⟩ := ih (before ++ after) laterApart elsewhere
      refine ⟨partner :: matched, rest, ?_, List.Forall₂.cons related each⟩
      exact (perm.cons partner).trans List.perm_middle.symm

/-- If neither side has a partner in common, and everything has one, the sides are matched. -/
theorem exists_perm_matching {relation : α → β → Prop} (items : List α) (others : List β)
    (apart : items.Pairwise fun first second =>
      ∀ other, relation first other → ¬relation second other)
    (othersApart : others.Pairwise fun first second =>
      ∀ item ∈ items, relation item first → ¬relation item second)
    (within : ∀ item ∈ items, ∃ other ∈ others, relation item other)
    (reached : ∀ other ∈ others, ∃ item ∈ items, relation item other) :
    ∃ matched, matched.Perm others ∧ List.Forall₂ relation items matched := by
  obtain ⟨matched, rest, perm, each⟩ := exists_matching items others apart within
  cases rest with
  | nil => exact ⟨matched, by simpa using perm, each⟩
  | cons left _ =>
      -- What is left over would share its partner with what that partner is matched with.
      obtain ⟨item, itemMember, related⟩ := reached left (perm.subset (by simp))
      obtain ⟨partner, partnerMember, partnerRelated⟩ := target_of_mem each itemMember
      have symmetric : ∀ {first second : β},
          (∀ item ∈ items, relation item first → ¬relation item second) →
            ∀ item ∈ items, relation item second → ¬relation item first :=
        fun different item member second first => different item member first second
      have split := List.pairwise_append.1 ((perm.pairwise_iff symmetric).2 othersApart)
      exact absurd related
        (split.2.2 partner partnerMember left (by simp) item itemMember partnerRelated)

/-- A run of steps that succeeds still does if its steps are replaced by steps with the same
results. -/
theorem foldlM_ok_mono (step step' : β → α → Outcome β) (items : List α) (start : β)
    {result : β} (ran : items.foldlM step start = .ok result)
    (mono : ∀ before item after, step before item = .ok after → step' before item = .ok after) :
    items.foldlM step' start = .ok result := by
  induction items generalizing start with
  | nil => exact ran
  | cons item rest ih =>
      rw [List.foldlM_cons, bind_ok_iff] at ran ⊢
      obtain ⟨next, nextOk, remaining⟩ := ran
      exact ⟨next, mono start item next nextOk, ih next remaining⟩

end Analog.Outcome

namespace Analog.Decimal

theorem quotient_ok_iff (left right value : Decimal) :
    left.quotient right = .ok value ↔ left.div? right = some value := by
  unfold quotient
  cases left.div? right <;> simp

end Analog.Decimal
