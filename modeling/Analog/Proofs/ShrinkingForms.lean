import Analog.Proofs.RepeatedForms

/-!
# Canonical forms of canonical forms may have fewer nodes

No rule makes a waveform of more nodes than it is given, and an append loses the constants
among its parts that are empty. So working on a simple waveform again leaves it as it is or
takes nodes away from it, and which of the two is the case can be seen from its appends.
What is remembered for smaller waveforms may have lost nodes already, but is never found for
the waveform itself.
-/

set_option autoImplicit false

namespace Analog.Canonical

open Waveform

variable {waveformRelation : Waveform → Waveform → Prop}

/-- What is remembered of a waveform while larger ones are worked on: it is unchanged, or it has
fewer nodes than those and has not gained any. -/
def Tracked (bound : Nat) (given result : Waveform) : Prop :=
  Unchanged given result ∨ (given.size < bound ∧ Trimmed given.size result)

abbrev Tracking (bound : Nat) : Memo → Prop :=
  Remembers Trusted (Tracked bound)

theorem Unchanged.size_eq {given result : Waveform} (unchanged : Unchanged given result) :
    given.size = result.size :=
  size_of_same unchanged.akin.equal

theorem Tracked.trimmed {bound : Nat} {given result : Waveform} (tracked : Tracked bound given result) :
    Trimmed given.size result := by
  rcases tracked with unchanged | ⟨_, trimmed⟩
  · exact ⟨unchanged.simple, unchanged.size_eq.ge⟩
  · exact trimmed

theorem Unchanging.tracking {memo : Memo} (unchanging : Unchanging memo) (bound : Nat) :
    Tracking bound memo :=
  ⟨unchanging.scalars, unchanging.waveforms.mono fun _ _ => Or.inl⟩

theorem Tracking.mono {memo : Memo} {bound larger : Nat} (tracking : Tracking bound memo)
    (ordered : bound ≤ larger) : Tracking larger memo := by
  refine ⟨tracking.scalars, tracking.waveforms.mono fun given result tracked => ?_⟩
  exact tracked.imp_right fun smaller => ⟨smaller.1.trans_le ordered, smaller.2⟩

/-- A result may be kept for a waveform below the bound if it has no more nodes. -/
theorem keep_tracking {given result : Waveform} {memo : Memo} {bound : Nat}
    (below : given.size < bound) (trimmed : Trimmed given.size result)
    (tracking : Tracking bound memo) : Tracking bound (keepWaveform given result memo) := by
  have resultBelow : result.size < bound := trimmed.size.trans_lt below
  have itself : Trimmed result.size result := ⟨trimmed.simple, le_rfl⟩
  refine ⟨tracking.scalars, ?_⟩
  refine (tracking.waveforms.insert (Or.inr ⟨below, trimmed⟩) fun other _ _ equal => ?_).insert
    (Or.inr ⟨resultBelow, itself⟩) fun other _ _ equal => ?_
  · have sizes := size_of_same equal
    exact Or.inr ⟨sizes ▸ below, sizes ▸ trimmed⟩
  · have sizes := size_of_same equal
    exact Or.inr ⟨sizes ▸ resultBelow, itself.mono sizes.le⟩

theorem trimmed_parts {parts parts' : List Waveform}
    (related : List.Forall₂ (fun part part' => Trimmed part.size part') parts parts') :
    parts'.length = parts.length ∧ (∀ part' ∈ parts', part'.Simple) ∧ sizes parts' ≤ sizes parts := by
  refine ⟨related.length_eq.symm, fun part' member => ?_,
    sizes_le_of_related related fun _ _ _ trimmed => trimmed.size⟩
  obtain ⟨_, _, trimmed⟩ := Outcome.source_of_mem related member
  exact trimmed.simple

/-- A waveform below the bound comes to a simple one that has no more nodes. -/
theorem waveform_trimmed (given : Waveform) {bound : Nat} (below : given.size < bound) :
    Keeps (Tracking bound) (waveform given) (Trimmed given.size) := by
  induction given using Waveform.children_induction with
  | step given ih =>
      rw [waveform_eq, waveforms_eq_mapM]
      apply Keeps.remembering _ _ (Keeps.mapM fun child member =>
        ih child member ((size_lt_of_child member).trans below))
      · intro parts' related
        obtain ⟨count, simple, smaller⟩ := trimmed_parts related
        refine (combine_trimmed given count simple).mono fun result trimmed => trimmed.mono ?_
        rw [size_eq given]
        omega
      · intro memo tracking known found
        obtain ⟨other, equal, tracked⟩ := tracking.waveforms.find found
        exact tracked.trimmed.mono (size_of_same equal).ge
      · exact fun result trimmed memo tracking => keep_tracking below trimmed tracking

def Shrunk (given result : Waveform) : Prop :=
  result.Simple ∧ result.size < given.size

/-- If some of several simple waveforms are not full, they all together lose nodes. -/
theorem waveforms_shrink {bound : Nat} {parts : List Waveform}
    (simple : ∀ part ∈ parts, part.Simple) (below : ∀ part ∈ parts, part.size < bound)
    (each : ∀ part ∈ parts, ¬part.Full →
      Leads Unchanging (Tracking (part.size + 1)) (waveform part) (Shrunk part))
    (lost : ∃ part ∈ parts, ¬part.Full) :
    Leads Unchanging (Tracking bound) (parts.mapM waveform) fun parts' =>
      parts'.length = parts.length ∧ (∀ part' ∈ parts', part'.Simple) ∧ sizes parts' < sizes parts := by
  induction parts with
  | nil => exact absurd lost (by simp)
  | cons part rest ih =>
      obtain ⟨partSimple, restSimple⟩ := List.forall_mem_cons.1 simple
      obtain ⟨partBelow, restBelow⟩ := List.forall_mem_cons.1 below
      obtain ⟨partShrinks, restEach⟩ := List.forall_mem_cons.1 each
      rw [List.mapM_cons]
      by_cases full : part.Full
      · have restLost : ∃ other ∈ rest, ¬other.Full := by simpa [full] using lost
        refine (waveform_again part partSimple full).leads.bind fun part' unchanged => ?_
        refine (ih restSimple restBelow restEach restLost).bind fun rest' shrunk => ?_
        obtain ⟨count, restSimple', fewer⟩ := shrunk
        refine (Keeps.pure ⟨by simpa using count,
          List.forall_mem_cons.2 ⟨unchanged.simple, restSimple'⟩, ?_⟩).leads
        rw [sizes_cons, sizes_cons, unchanged.size_eq]
        exact Nat.add_lt_add_left fewer _
      · refine ((partShrinks full).mono (fun memo tracking => tracking.mono partBelow)
          fun _ shrunk => shrunk).bind fun part' shrunk => ?_
        refine (Keeps.mapM fun other member =>
          waveform_trimmed other (restBelow other member)).leads.bind fun rest' related => ?_
        obtain ⟨count, restSimple', fewer⟩ := trimmed_parts related
        refine (Keeps.pure ⟨by simpa using count,
          List.forall_mem_cons.2 ⟨shrunk.1, restSimple'⟩, ?_⟩).leads
        rw [sizes_cons, sizes_cons]
        exact Nat.add_lt_add_of_lt_of_le shrunk.2 fewer

/-- A waveform that is not full is not known while the waveforms inside it are worked on: what is
known is full, or has fewer nodes. -/
theorem unknown_of_lost {given : Waveform} {memo : Memo} (simple : given.Simple)
    (lost : ¬given.Full) (tracking : Tracking given.size memo) :
    memo.waveforms.find? given = none := by
  rw [Option.eq_none_iff_forall_ne_some]
  intro known found
  obtain ⟨other, equal, unchanged | ⟨below, _⟩⟩ := tracking.waveforms.find found
  · have others : Akin given other := ⟨simple.tidied, unchanged.akin.firstTidy, equal⟩
    exact lost (unchanged.of_akin others).full
  · exact below.ne (size_of_same equal).symm

/-- A node whose append has an empty constant comes to fewer nodes than it has. -/
theorem combine_shrinks {given : Waveform} (emptyPart : given.fullParts = false)
    {parts' : List Waveform} (unchanged : List.Forall₂ Unchanged given.children parts') :
    Keeps (Remembers Trusted waveformRelation) (combine given parts') (Shrunk given) := by
  cases given with
  | append parts =>
      obtain ⟨part, member, empty⟩ := List.all_eq_false.1 emptyPart
      obtain ⟨part', member', known⟩ := Outcome.target_of_mem unchanged member
      have isEmpty : part'.isEmptyConstant = true := by
        rw [← known.akin.isEmptyConstant]
        simpa using empty
      have counted : 0 < emptyConstants parts' := List.countP_pos_iff.2 ⟨part', member', isEmpty⟩
      have trimmed : List.Forall₂ (fun part part' => Trimmed part.size part') parts parts' :=
        unchanged.imp fun _ _ known => ⟨known.simple, known.size_eq.ge⟩
      obtain ⟨_, simple, fewer⟩ := trimmed_parts trimmed
      refine (concatenate_trimmed simple).mono fun result kept => ⟨kept.1, ?_⟩
      have size := kept.2
      rw [size_append]
      omega
  | _ => cases emptyPart

theorem waveform_shrinks (given : Waveform) (simple : given.Simple) (lost : ¬given.Full) :
    Leads Unchanging (Tracking (given.size + 1)) (waveform given) (Shrunk given) := by
  induction given using Waveform.children_induction with
  | step given ih =>
      obtain ⟨_, inside⟩ := (Waveform.simple_iff given).1 simple
      -- Nodes are lost inside the waveform, or else by its own append.
      have partsLead : ∃ good : List Waveform → Prop,
          Leads Unchanging (Tracking given.size) (given.children.mapM waveform) good ∧
          ∀ parts', good parts' →
            Keeps (Tracking given.size) (combine given parts') (Shrunk given) := by
        by_cases lostInside : ∃ child ∈ given.children, ¬child.Full
        · refine ⟨_, waveforms_shrink inside (fun child => size_lt_of_child)
            (fun child member => ih child member (inside child member)) lostInside, ?_⟩
          rintro parts' ⟨count, partsSimple, fewer⟩
          refine (combine_trimmed given count partsSimple).mono fun result trimmed =>
            ⟨trimmed.simple, trimmed.size.trans_lt ?_⟩
          rw [size_eq given]
          exact Nat.add_lt_add_left fewer 1
        · simp only [not_exists, not_and, not_not] at lostInside
          have emptyPart : given.fullParts = false := by
            rw [Bool.eq_false_iff]
            exact fun fullParts => lost ((full_iff given).2 ⟨fullParts, lostInside⟩)
          have unchanged : Yields Unchanging (given.children.mapM waveform)
              (List.Forall₂ Unchanged given.children) :=
            Yields.mapM fun child member =>
              waveform_again child (inside child member) (lostInside child member)
          exact ⟨_, unchanged.leads.mono (fun memo unchanging => unchanging.tracking _)
            fun _ related => related, fun parts' related => combine_shrinks emptyPart related⟩
      obtain ⟨good, lead, shrink⟩ := partsLead
      rw [waveform_eq, waveforms_eq_mapM]
      refine Leads.remembering (fun memo unchanging =>
        unknown_of_lost simple lost (unchanging.tracking _)) (fun memo tracking =>
        unknown_of_lost simple lost tracking) lead shrink fun result shrunk memo tracking => ?_
      exact keep_tracking (Nat.lt_succ_self _) ⟨shrunk.1, shrunk.2.le⟩
        (tracking.mono (Nat.le_succ _))

end Analog.Canonical
