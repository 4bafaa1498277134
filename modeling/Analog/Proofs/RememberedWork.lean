import Analog.Canonical.Memo
import Analog.Proofs.ScalarEquality

/-!
# Work that remembers

Simplification threads a memory of results through its work. Work yields a good result under
an invariant of the memory if, from every memory with the invariant, it succeeds with a good
result and leaves the invariant in force. Work on a node yields what its simplification
yields, as long as everything remembered is good.
-/

set_option autoImplicit false

namespace Analog.KeyedMap

variable {κ ν : Type}

def Each (relation : κ → ν → Prop) (map : KeyedMap κ ν) : Prop :=
  ∀ word, ∀ entry ∈ map.bucket word, relation entry.1 entry.2

theorem each_empty {relation : κ → ν → Prop} : Each relation (empty : KeyedMap κ ν) := by
  intro word entry member
  simp [bucket, empty] at member

theorem Each.mono {relation weaker : κ → ν → Prop} {map : KeyedMap κ ν} (each : Each relation map)
    (implies : ∀ key value, relation key value → weaker key value) : Each weaker map :=
  fun word entry member => implies _ _ (each word entry member)

variable [Keyed κ] {relation : κ → ν → Prop} {map : KeyedMap κ ν}

theorem find_in_some {key : κ} {entries : List (κ × ν)} {value : ν}
    (found : findIn key entries = some value) :
    ∃ other, (other, value) ∈ entries ∧ Keyed.same key other = true := by
  induction entries with
  | nil => simp [findIn] at found
  | cons entry rest ih =>
      obtain ⟨other, old⟩ := entry
      unfold findIn at found
      split_ifs at found with equal
      · rw [Option.some.injEq] at found
        exact ⟨other, by simp [found], equal⟩
      · obtain ⟨later, member, laterEqual⟩ := ih found
        exact ⟨later, by simp [member], laterEqual⟩

theorem Each.find (each : Each relation map) {key : κ} {value : ν}
    (found : map.find? key = some value) :
    ∃ other, Keyed.same key other = true ∧ relation other value := by
  obtain ⟨other, member, equal⟩ := find_in_some found
  exact ⟨other, equal, each _ _ member⟩

theorem mem_replace_in {key : κ} {value : ν} {entries : List (κ × ν)} {entry : κ × ν}
    (member : entry ∈ replaceIn key value entries) :
    entry ∈ entries ∨
      ∃ other old, (other, old) ∈ entries ∧ Keyed.same key other = true ∧ entry = (other, value) := by
  induction entries with
  | nil => exact absurd member List.not_mem_nil
  | cons head rest ih =>
      obtain ⟨other, old⟩ := head
      unfold replaceIn at member
      split_ifs at member with equal
      · rcases List.mem_cons.1 member with rfl | later
        · exact Or.inr ⟨other, old, by simp, equal, rfl⟩
        · exact Or.inl (by simp [later])
      · rcases List.mem_cons.1 member with rfl | later
        · exact Or.inl (by simp)
        · rcases ih later with kept | ⟨other, old, found, foundEqual, rfl⟩
          · exact Or.inl (by simp [kept])
          · exact Or.inr ⟨other, old, by simp [found], foundEqual, rfl⟩

theorem bucket_insert (map : KeyedMap κ ν) (key : κ) (entries : List (κ × ν)) (keys : Array κ)
    (word : UInt64) :
    bucket ⟨map.buckets.insert (Keyed.fingerprint key) entries, keys⟩ word =
      if Keyed.fingerprint key = word then entries else map.bucket word := by
  unfold bucket
  simp [Std.HashMap.getD_insert]

/-- A value may be inserted for a key if it is right for the key and for all its equals. -/
theorem Each.insert (each : Each relation map) {key : κ} {value : ν} (fresh : relation key value)
    (replaces : ∀ other old, relation other old → Keyed.same key other = true →
      relation other value) : Each relation (map.insert key value) := by
  intro word entry member
  unfold KeyedMap.insert at member
  dsimp only at member
  split at member
  · rw [bucket_insert] at member
    split_ifs at member
    · rcases mem_replace_in member with kept | ⟨other, old, found, equal, rfl⟩
      · exact each _ _ kept
      · exact replaces other old (each _ _ found) equal
    · exact each _ _ member
  · rw [bucket_insert] at member
    split_ifs at member
    · rcases List.mem_append.1 member with kept | new
      · exact each _ _ kept
      · rw [List.mem_singleton.1 new]
        exact fresh
    · exact each _ _ member

theorem Each.insert_new (each : Each relation map) {key : κ} {value : ν}
    (absent : map.find? key = none) (fresh : relation key value) :
    Each relation (map.insert key value) := by
  intro word entry member
  rw [find?] at absent
  rw [KeyedMap.insert, absent] at member
  dsimp only at member
  rw [bucket_insert] at member
  split_ifs at member
  · rcases List.mem_append.1 member with kept | new
    · exact each _ _ kept
    · rw [List.mem_singleton.1 new]
      exact fresh
  · exact each _ _ member

end Analog.KeyedMap

namespace Analog.Canonical

variable {α β : Type}

/-- Work goes on from the memory that earlier work leaves, unless that fails. -/
theorem run_bind (work : Simplifying α) (next : α → Simplifying β) (memo : Memo) :
    (work >>= next).run memo =
      match work.run memo with
      | (.ok result, later) => (next result).run later
      | (.error failure, later) => (.error failure, later) := by
  rw [ExceptT.run_bind]
  change StateT.bind work.run _ memo = _
  unfold StateT.bind
  dsimp only [bind, Id.run]
  cases work.run memo with
  | mk outcome later => cases outcome <;> rfl

/-- Work that succeeds with a good result from every memory with the invariant, and keeps it. -/
def Yields (invariant : Memo → Prop) (work : Simplifying α) (good : α → Prop) : Prop :=
  ∀ memo, invariant memo → ∃ result later,
    work.run memo = (.ok result, later) ∧ invariant later ∧ good result

variable {invariant : Memo → Prop} {work : Simplifying α} {good better : α → Prop}

theorem Yields.pure {result : α} (isGood : good result) :
    Yields invariant (Pure.pure result) good :=
  fun memo holds => ⟨result, memo, rfl, holds, isGood⟩

theorem Yields.bind {next : α → Simplifying β} {goodNext : β → Prop}
    (yields : Yields invariant work good)
    (nextYields : ∀ result, good result → Yields invariant (next result) goodNext) :
    Yields invariant (work >>= next) goodNext := by
  intro memo holds
  obtain ⟨result, later, ran, laterHolds, isGood⟩ := yields memo holds
  obtain ⟨last, final, finished, finalHolds, lastGood⟩ := nextYields result isGood later laterHolds
  refine ⟨last, final, ?_, finalHolds, lastGood⟩
  rw [run_bind, ran]
  exact finished

theorem Yields.pair {other : Simplifying β} {goodOther : β → Prop}
    (yields : Yields invariant work good) (otherYields : Yields invariant other goodOther) :
    Yields invariant
      (do
        let first ← work
        let second ← other
        return (first, second))
      fun pair => good pair.1 ∧ goodOther pair.2 := by
  refine yields.bind fun first firstGood => ?_
  exact otherYields.bind fun second secondGood => .pure ⟨firstGood, secondGood⟩

theorem Yields.mono (yields : Yields invariant work good)
    (weaker : ∀ result, good result → better result) : Yields invariant work better := by
  intro memo holds
  obtain ⟨result, later, ran, laterHolds, isGood⟩ := yields memo holds
  exact ⟨result, later, ran, laterHolds, weaker result isGood⟩

/-- Work is done once, so that what is known of its result may be put together. -/
theorem Yields.both (yields : Yields invariant work good) (others : Yields invariant work better) :
    Yields invariant work fun result => good result ∧ better result := by
  intro memo holds
  obtain ⟨result, later, ran, laterHolds, isGood⟩ := yields memo holds
  obtain ⟨found, _, sameRun, _, isBetter⟩ := others memo holds
  rw [ran, Prod.mk.injEq, Except.ok.injEq] at sameRun
  exact ⟨result, later, ran, laterHolds, isGood, sameRun.1 ▸ isBetter⟩

theorem Yields.lift {outcome : Outcome α} {result : α} (succeeds : outcome = .ok result)
    (isGood : good result) : Yields invariant (lift outcome) good := by
  intro memo holds
  refine ⟨result, memo, ?_, holds, isGood⟩
  rw [succeeds]
  rfl

theorem Yields.get : Yields invariant MonadState.get invariant :=
  fun memo holds => ⟨memo, memo, rfl, holds, holds⟩

theorem Yields.change {keep : Memo → Memo}
    (keeps : ∀ memo, invariant memo → invariant (keep memo)) :
    Yields invariant (modify keep) fun _ => True :=
  fun memo holds => ⟨(), keep memo, rfl, keeps memo holds, trivial⟩

/-- Work on a node yields what its simplification does, if what is known of the node is good and
good results may be kept. -/
theorem Yields.remembering {known? : Memo → Option β} {keep : β → Memo → Memo}
    {parts : Simplifying α} {simplify : α → Simplifying β} {goodResult : β → Prop}
    (knownGood : ∀ memo, invariant memo → ∀ known, known? memo = some known → goodResult known)
    (keeps : ∀ result, goodResult result → ∀ memo, invariant memo → invariant (keep result memo))
    (partsYield : Yields invariant parts good)
    (simplifyYields : ∀ canonicalParts, good canonicalParts →
      Yields invariant (simplify canonicalParts) goodResult) :
    Yields invariant (Canonical.remembering known? keep parts simplify) goodResult := by
  unfold Canonical.remembering
  refine Yields.get.bind fun memo holds => ?_
  split
  case h_1 known found => exact .pure (knownGood memo holds known found)
  case h_2 =>
      refine partsYield.bind fun canonicalParts partsGood => ?_
      refine Yields.get.bind fun later laterHolds => ?_
      split
      case h_1 known found => exact .pure (knownGood later laterHolds known found)
      case h_2 =>
          refine (simplifyYields canonicalParts partsGood).bind fun result resultGood => ?_
          refine (Yields.change (keeps result resultGood)).bind fun _ _ => ?_
          exact .pure resultGood

theorem Yields.afresh (yields : Yields invariant work good) (holds : invariant {}) :
    ∃ result, Canonical.afresh work = .ok result ∧ good result := by
  obtain ⟨result, later, ran, _, isGood⟩ := yields {} holds
  refine ⟨result, ?_, isGood⟩
  unfold Canonical.afresh
  rw [ran]

/-- Work that keeps the invariant of its memory, whose result is good if it succeeds, and which
fails for a good reason. -/
def Ends (invariant : Memo → Prop) (work : Simplifying α) (good : α → Prop)
    (fails : Failure → Prop) : Prop :=
  ∀ memo, invariant memo → invariant (work.run memo).2 ∧
    (∀ result, (work.run memo).1 = .ok result → good result) ∧
    ∀ failure, (work.run memo).1 = .error failure → fails failure

variable {fails failsNext : Failure → Prop}

theorem Ends.lift {outcome : Outcome α} (isGood : ∀ result, outcome = .ok result → good result)
    (forReason : ∀ failure, outcome = .error failure → fails failure) :
    Ends invariant (lift outcome) good fails :=
  fun _ holds => ⟨holds, isGood, forReason⟩

theorem Ends.pure {result : α} (isGood : good result) :
    Ends invariant (Pure.pure result) good fails :=
  fun _ holds => ⟨holds, fun _ same => Except.ok.inj same ▸ isGood, fun _ same => by cases same⟩

theorem Ends.bind {next : α → Simplifying β} {goodNext : β → Prop}
    (ends : Ends invariant work good fails) (failed : ∀ failure, fails failure → failsNext failure)
    (nextEnds : ∀ result, good result → Ends invariant (next result) goodNext failsNext) :
    Ends invariant (work >>= next) goodNext failsNext := by
  intro memo holds
  obtain ⟨laterHolds, isGood, forReason⟩ := ends memo holds
  rw [run_bind]
  cases ran : work.run memo with
  | mk outcome later =>
      rw [ran] at laterHolds isGood forReason
      cases outcome with
      | error failure =>
          refine ⟨laterHolds, by simp, fun another same => ?_⟩
          cases same
          exact failed failure (forReason failure rfl)
      | ok result => exact nextEnds result (isGood result rfl) later laterHolds

/-- Work that keeps the invariant of its memory, and whose result is good if it succeeds. -/
def Keeps (invariant : Memo → Prop) (work : Simplifying α) (good : α → Prop) : Prop :=
  ∀ memo, invariant memo → invariant (work.run memo).2 ∧
    ∀ result, (work.run memo).1 = .ok result → good result

theorem keeps_iff_ends : Keeps invariant work good ↔ Ends invariant work good fun _ => True := by
  simp [Keeps, Ends]

theorem Ends.keeps (ends : Ends invariant work good fails) : Keeps invariant work good :=
  fun memo holds => ⟨(ends memo holds).1, (ends memo holds).2.1⟩

theorem Ends.yields (ends : Ends invariant work good fails) (never : ∀ failure, ¬fails failure) :
    Yields invariant work good := by
  intro memo holds
  obtain ⟨laterHolds, isGood, forReason⟩ := ends memo holds
  cases ran : work.run memo with
  | mk outcome later =>
      rw [ran] at laterHolds isGood forReason
      cases outcome with
      | ok result => exact ⟨result, later, rfl, laterHolds, isGood result rfl⟩
      | error failure => exact absurd (forReason failure rfl) (never failure)

theorem Keeps.pure {result : α} (isGood : good result) :
    Keeps invariant (Pure.pure result) good :=
  keeps_iff_ends.2 (.pure isGood)

theorem Keeps.bind {next : α → Simplifying β} {goodNext : β → Prop}
    (keeps : Keeps invariant work good)
    (nextKeeps : ∀ result, good result → Keeps invariant (next result) goodNext) :
    Keeps invariant (work >>= next) goodNext := by
  simp only [keeps_iff_ends] at keeps nextKeeps ⊢
  exact keeps.bind (fun _ reason => reason) nextKeeps

theorem Keeps.pair {other : Simplifying β} {goodOther : β → Prop}
    (keeps : Keeps invariant work good) (otherKeeps : Keeps invariant other goodOther) :
    Keeps invariant
      (do
        let first ← work
        let second ← other
        return (first, second))
      fun pair => good pair.1 ∧ goodOther pair.2 := by
  refine keeps.bind fun first firstGood => ?_
  exact otherKeeps.bind fun second secondGood => .pure ⟨firstGood, secondGood⟩

theorem Keeps.mono (keeps : Keeps invariant work good)
    (weaker : ∀ result, good result → better result) : Keeps invariant work better := by
  intro memo holds
  obtain ⟨laterHolds, isGood⟩ := keeps memo holds
  exact ⟨laterHolds, fun result same => weaker result (isGood result same)⟩

theorem Keeps.lift {outcome : Outcome α} (isGood : ∀ result, outcome = .ok result → good result) :
    Keeps invariant (lift outcome) good :=
  fun _ holds => ⟨holds, isGood⟩

theorem Keeps.get : Keeps invariant MonadState.get invariant := by
  intro memo holds
  refine ⟨holds, fun found same => ?_⟩
  cases same
  exact holds

theorem Keeps.change {keep : Memo → Memo}
    (keeps : ∀ memo, invariant memo → invariant (keep memo)) :
    Keeps invariant (modify keep) fun _ => True :=
  fun memo holds => ⟨keeps memo holds, fun _ _ => trivial⟩

theorem Keeps.remembering {known? : Memo → Option β} {keep : β → Memo → Memo}
    {parts : Simplifying α} {simplify : α → Simplifying β} {goodResult : β → Prop}
    (knownGood : ∀ memo, invariant memo → ∀ known, known? memo = some known → goodResult known)
    (keeps : ∀ result, goodResult result → ∀ memo, invariant memo → invariant (keep result memo))
    (partsKeep : Keeps invariant parts good)
    (simplifyKeeps : ∀ canonicalParts, good canonicalParts →
      Keeps invariant (simplify canonicalParts) goodResult) :
    Keeps invariant (Canonical.remembering known? keep parts simplify) goodResult := by
  unfold Canonical.remembering
  refine Keeps.get.bind fun memo holds => ?_
  split
  case h_1 known found => exact .pure (knownGood memo holds known found)
  case h_2 =>
      refine partsKeep.bind fun canonicalParts partsGood => ?_
      refine Keeps.get.bind fun later laterHolds => ?_
      split
      case h_1 known found => exact .pure (knownGood later laterHolds known found)
      case h_2 =>
          refine (simplifyKeeps canonicalParts partsGood).bind fun result resultGood => ?_
          refine (Keeps.change (keeps result resultGood)).bind fun _ _ => ?_
          exact .pure resultGood

theorem Keeps.afresh (keeps : Keeps invariant work good) (holds : invariant {}) {result : α}
    (succeeds : Canonical.afresh work = .ok result) : good result :=
  (keeps {} holds).2 result succeeds

/-- Work that succeeds has a result that is good in either sense. -/
theorem Yields.keeping (yields : Yields invariant work good) (keeps : Keeps invariant work better) :
    Yields invariant work fun result => good result ∧ better result := by
  intro memo holds
  obtain ⟨result, later, ran, laterHolds, isGood⟩ := yields memo holds
  refine ⟨result, later, ran, laterHolds, isGood, (keeps memo holds).2 result ?_⟩
  rw [ran]

/-- A result that is known is taken, before the parts are worked on or after; else it is made of
what the parts come to, and kept. -/
theorem run_remembering (known? : Memo → Option β) (keep : β → Memo → Memo) (parts : Simplifying α)
    (simplify : α → Simplifying β) (memo : Memo) :
    (Canonical.remembering known? keep parts simplify).run memo =
      match known? memo with
      | some known => (.ok known, memo)
      | none =>
        match parts.run memo with
        | (.error failure, later) => (.error failure, later)
        | (.ok canonicalParts, later) =>
          match known? later with
          | some known => (.ok known, later)
          | none =>
            match (simplify canonicalParts).run later with
            | (.error failure, last) => (.error failure, last)
            | (.ok result, last) => (.ok result, keep result last) := by
  have run_get : ∀ memo, (MonadState.get : Simplifying Memo).run memo = (.ok memo, memo) :=
    fun _ => rfl
  unfold Canonical.remembering
  rw [run_bind, run_get]
  dsimp only
  cases known? memo with
  | some known => rfl
  | none =>
      dsimp only
      rw [run_bind]
      cases parts.run memo with
      | mk outcome later =>
          cases outcome with
          | error failure => rfl
          | ok canonicalParts =>
              dsimp only
              rw [run_bind, run_get]
              dsimp only
              cases known? later with
              | some known => rfl
              | none =>
                  dsimp only
                  rw [run_bind]
                  cases (simplify canonicalParts).run later with
                  | mk outcome last => cases outcome <;> rfl

/-- Work that from one invariant of the memory leads to another one and to a good result, if it
succeeds. -/
def Leads (before after : Memo → Prop) (work : Simplifying α) (good : α → Prop) : Prop :=
  ∀ memo, before memo → ∀ result, (work.run memo).1 = .ok result →
    after (work.run memo).2 ∧ good result

section Leads

variable {before between after : Memo → Prop} {next : α → Simplifying β} {goodNext : β → Prop}

theorem Keeps.leads (keeps : Keeps before work good) : Leads before before work good :=
  fun memo holds result ran => ⟨(keeps memo holds).1, (keeps memo holds).2 result ran⟩

theorem Yields.leads (yields : Yields before work good) : Leads before before work good := by
  intro memo holds result finished
  obtain ⟨found, later, ran, laterHolds, isGood⟩ := yields memo holds
  rw [ran] at finished ⊢
  cases finished
  exact ⟨laterHolds, isGood⟩

theorem Leads.mono (leads : Leads before between work good)
    (memoWeaker : ∀ memo, between memo → after memo)
    (weaker : ∀ result, good result → better result) : Leads before after work better :=
  fun memo holds result ran =>
    (leads memo holds result ran).imp (memoWeaker _) (weaker result)

theorem Leads.bind (leads : Leads before between work good)
    (nextLeads : ∀ result, good result → Leads between after (next result) goodNext) :
    Leads before after (work >>= next) goodNext := by
  intro memo holds last finished
  rw [run_bind] at finished ⊢
  cases ran : work.run memo with
  | mk outcome later =>
      rw [ran] at finished
      cases outcome with
      | error failure => cases finished
      | ok result =>
          have reached := leads memo holds result (by rw [ran])
          rw [ran] at reached
          exact nextLeads result reached.2 later reached.1 last finished

/-- Work on a node whose result is not known before its parts are worked on, nor after. -/
theorem Leads.remembering {known? : Memo → Option β} {keep : β → Memo → Memo}
    {parts : Simplifying α} {simplify : α → Simplifying β} {goodResult : β → Prop}
    (unknown : ∀ memo, before memo → known? memo = none)
    (stillUnknown : ∀ memo, between memo → known? memo = none)
    (partsLead : Leads before between parts good)
    (simplifyKeeps : ∀ canonicalParts, good canonicalParts →
      Keeps between (simplify canonicalParts) goodResult)
    (keeps : ∀ result, goodResult result → ∀ memo, between memo → after (keep result memo)) :
    Leads before after (Canonical.remembering known? keep parts simplify) goodResult := by
  intro memo holds result finished
  rw [run_remembering, unknown memo holds] at finished ⊢
  cases ran : parts.run memo with
  | mk outcome later =>
      cases outcome with
      | error failure =>
          rw [ran] at finished
          cases finished
      | ok canonicalParts =>
          have reached := partsLead memo holds canonicalParts (by rw [ran])
          rw [ran] at reached finished
          obtain ⟨laterHolds, partsGood⟩ := reached
          dsimp only at finished ⊢
          rw [stillUnknown later laterHolds] at finished ⊢
          cases made : (simplify canonicalParts).run later with
          | mk outcome last =>
              obtain ⟨lastHolds, isGood⟩ := simplifyKeeps canonicalParts partsGood later laterHolds
              rw [made] at lastHolds isGood finished
              cases outcome with
              | error failure => cases finished
              | ok found =>
                  cases finished
                  exact ⟨keeps result (isGood result rfl) last lastHolds, isGood result rfl⟩

end Leads

/-- A judgement of work and its results that is made step by step. -/
structure Stepwise (judges : (α : Type) → Simplifying α → (α → Prop) → Prop) : Prop where
  pure : ∀ {α : Type} {result : α} {good : α → Prop}, good result →
    judges α (Pure.pure result) good
  bind : ∀ {α β : Type} {work : Simplifying α} {good : α → Prop} {next : α → Simplifying β}
    {goodNext : β → Prop}, judges α work good →
    (∀ result, good result → judges β (next result) goodNext) → judges β (work >>= next) goodNext

theorem yields_stepwise (invariant : Memo → Prop) :
    Stepwise fun _ work good => Yields invariant work good :=
  ⟨Yields.pure, Yields.bind⟩

theorem keeps_stepwise (invariant : Memo → Prop) :
    Stepwise fun _ work good => Keeps invariant work good :=
  ⟨Keeps.pure, Keeps.bind⟩

section

variable {judges : (α : Type) → Simplifying α → (α → Prop) → Prop} (stepwise : Stepwise judges)
include stepwise

theorem Stepwise.mono (judged : judges α work good) (implies : ∀ result, good result → better result) :
    judges α work better := by
  rw [← bind_pure work]
  exact stepwise.bind judged fun result isGood => stepwise.pure (implies result isGood)

theorem Stepwise.mapM {items : List β} {work : β → Simplifying α} {good : β → α → Prop}
    (each : ∀ item ∈ items, judges α (work item) (good item)) :
    judges (List α) (items.mapM work) (List.Forall₂ good items) := by
  induction items with
  | nil =>
      rw [List.mapM_nil]
      exact stepwise.pure List.Forall₂.nil
  | cons item rest ih =>
      rw [List.mapM_cons]
      obtain ⟨first, others⟩ := List.forall_mem_cons.1 each
      refine stepwise.bind first fun result isGood => ?_
      refine stepwise.bind (ih others) fun results areGood => ?_
      exact stepwise.pure (List.Forall₂.cons isGood areGood)

end

theorem Yields.mapM {items : List β} {work : β → Simplifying α} {good : β → α → Prop}
    (each : ∀ item ∈ items, Yields invariant (work item) (good item)) :
    Yields invariant (items.mapM work) (List.Forall₂ good items) :=
  (yields_stepwise invariant).mapM each

theorem Keeps.mapM {items : List β} {work : β → Simplifying α} {good : β → α → Prop}
    (each : ∀ item ∈ items, Keeps invariant (work item) (good item)) :
    Keeps invariant (items.mapM work) (List.Forall₂ good items) :=
  (keeps_stepwise invariant).mapM each

end Analog.Canonical
