import Analog.Proofs.Signals
import Analog.Waveform.Evaluator

/-!
# The evaluator computes the meaning

The evaluator works terms off a list. What is still owed for a list of terms is the sum of
their coefficients times the values of their nodes; every step pays a part of it or writes
it in smaller terms. So the evaluator finds the value of the waveform, and fails as it does.
-/

set_option autoImplicit false

namespace Analog

namespace Signal

/-- A signal that is zero outside its duration is cut off by nothing. -/
theorem within_of_bounded {meaning : Signal} (bounded : Bounded meaning) :
    within meaning.duration meaning.value = meaning := by
  cases meaning with
  | mk duration value =>
      unfold within
      congr 1
      funext time
      split_ifs with beyond
      · exact (bounded.silent time ((outside_iff _ _).1 beyond)).symm
      · rfl

theorem within_within {duration : Decimal} {inside : Decimal → Outcome Decimal} :
    within duration (within duration inside).value = within duration inside := by
  unfold within
  congr 1
  funext time
  dsimp only
  split_ifs with beyond
  · rfl
  · rfl

end Signal

namespace Timed

open Signal

mutual

def signal : Timed → Signal
  | leaf meaning => within meaning.duration meaning.value
  | negative duration inner => within duration fun time => do
    let value ← (signal inner).value time
    return -value
  | add duration left right => within duration fun time => do
    let rightValue ← (signal right).value time
    let leftValue ← (signal left).value time
    return leftValue + rightValue
  | scale duration factor inner => within duration fun time => do
    let factorValue ← factor
    let value ← (signal inner).value time
    return factorValue * value
  | slice duration start inner => within duration fun time => (signal inner).value (time + start)
  | append duration parts => within duration (sequenceValue (signals parts))

def signals : List Timed → List Signal
  | [] => []
  | part :: rest => signal part :: signals rest

end

@[simp] theorem signal_duration (node : Timed) : node.signal.duration = node.duration := by
  cases node <;> rfl

theorem signal_outside (node : Timed) (time : Decimal) (beyond : outside node.duration time = true) :
    node.signal.value time = .ok 0 := by
  rw [outside_iff] at beyond
  cases node <;> exact within_outside beyond

theorem signal_inside (node : Timed) (time : Decimal) (inside : ¬outside node.duration time = true) :
    node.signal.value time = match node with
      | leaf meaning => meaning.value time
      | negative _ inner => do
        let value ← inner.signal.value time
        return -value
      | add _ left right => do
        let rightValue ← right.signal.value time
        let leftValue ← left.signal.value time
        return leftValue + rightValue
      | scale _ factor inner => do
        let factorValue ← factor
        let value ← inner.signal.value time
        return factorValue * value
      | slice _ start inner => inner.signal.value (time + start)
      | append _ parts => sequenceValue (signals parts) time := by
  rw [outside_iff, not_or, not_lt, not_lt] at inside
  cases node <;> exact within_inside inside.1 inside.2

/-- A time is routed to the part that gives signals one after the other their value. -/
theorem sequence_value_route (parts : List Timed) (time : Decimal) :
    sequenceValue (signals parts) time = match route parts time with
      | some (part, partTime) => part.signal.value partTime
      | none => .ok 0 := by
  induction parts generalizing time with
  | nil => rfl
  | cons part rest ih =>
      have sameEmpty : (signals rest).all (·.duration.isZero) = rest.all (·.duration.isZero) := by
        clear ih
        induction rest with
        | nil => rfl
        | cons next others ih => rw [signals, List.all_cons, List.all_cons, ih, signal_duration]
      unfold signals sequenceValue route
      rw [signal_duration, sameEmpty]
      split_ifs
      · exact ih time
      · rfl
      · rfl
      · exact ih (time - part.duration)

theorem size_route_le (parts : List Timed) (time : Decimal) {part : Timed} {partTime : Decimal}
    (routed : route parts time = some (part, partTime)) : part.size ≤ sizes parts := by
  induction parts generalizing time with
  | nil => exact absurd routed (by simp [route])
  | cons first rest ih =>
      unfold route at routed
      unfold sizes
      split_ifs at routed
      · exact (ih time routed).trans (Nat.le_add_left _ _)
      · rw [Option.some.injEq, Prod.mk.injEq] at routed
        rw [routed.1]
        exact Nat.le_add_right _ _
      · rw [Option.some.injEq, Prod.mk.injEq] at routed
        rw [routed.1]
        exact Nat.le_add_right _ _
      · exact (ih _ routed).trans (Nat.le_add_left _ _)

def owed : List Pending → Outcome Decimal
  | [] => .ok 0
  | term :: rest => do
    let value ← term.node.signal.value term.time
    let others ← owed rest
    return term.coefficient * value + others

def pendingSize : List Pending → Nat
  | [] => 0
  | term :: rest => term.node.size + pendingSize rest

/-- Terms inside their nodes owe what the terms they are written in owe, failures included. -/
theorem owed_negative (duration time coefficient : Decimal) (inner : Timed) (rest : List Pending)
    (inside : ¬outside duration time = true) :
    owed (⟨negative duration inner, time, coefficient⟩ :: rest) =
      owed (⟨inner, time, -coefficient⟩ :: rest) := by
  rw [owed, owed, signal_inside (negative duration inner) time inside]
  dsimp only
  cases inner.signal.value time with
  | error failure => rfl
  | ok value =>
      simp only [Outcome.ok_bind, pure_bind]
      rw [mul_neg, neg_mul]

theorem owed_add (duration time coefficient : Decimal) (left right : Timed) (rest : List Pending)
    (inside : ¬outside duration time = true) :
    owed (⟨add duration left right, time, coefficient⟩ :: rest) =
      owed (⟨right, time, coefficient⟩ :: ⟨left, time, coefficient⟩ :: rest) := by
  rw [owed, owed, owed, signal_inside (add duration left right) time inside]
  dsimp only
  cases right.signal.value time with
  | error failure => rfl
  | ok rightValue =>
      cases left.signal.value time with
      | error failure => rfl
      | ok leftValue =>
          simp only [Outcome.ok_bind, pure_bind, bind_assoc]
          congr
          funext others
          congr 1
          ring

theorem owed_scale (duration time coefficient : Decimal) (factor : Outcome Decimal) (inner : Timed)
    (rest : List Pending) (inside : ¬outside duration time = true) :
    owed (⟨scale duration factor inner, time, coefficient⟩ :: rest) =
      factor >>= fun factorValue => owed (⟨inner, time, coefficient * factorValue⟩ :: rest) := by
  rw [owed, signal_inside (scale duration factor inner) time inside]
  dsimp only
  cases factor with
  | error failure => rfl
  | ok factorValue =>
      rw [Outcome.ok_bind, Outcome.ok_bind, owed]
      cases inner.signal.value time with
      | error failure => rfl
      | ok value =>
          simp only [Outcome.ok_bind, pure_bind]
          rw [mul_assoc]

/-- A node that has the value of another owes what the other owes. -/
theorem owed_moved {node other : Timed} {time otherTime : Decimal}
    (moved : node.signal.value time = other.signal.value otherTime) (coefficient : Decimal)
    (rest : List Pending) :
    owed (⟨node, time, coefficient⟩ :: rest) = owed (⟨other, otherTime, coefficient⟩ :: rest) := by
  rw [owed, owed, moved]

theorem owed_nothing {node : Timed} {time : Decimal} (zero : node.signal.value time = .ok 0)
    (coefficient : Decimal) (rest : List Pending) :
    owed (⟨node, time, coefficient⟩ :: rest) = owed rest := by
  rw [owed]
  dsimp only
  rw [zero, Outcome.ok_bind]
  cases owed rest with
  | error failure => rfl
  | ok others =>
      rw [Outcome.ok_bind, mul_zero, zero_add]
      rfl

theorem owed_nil (total : Decimal) : Except.ok total = (total + ·) <$> owed [] := by
  change (Except.ok total : Outcome Decimal) = .ok (total + 0)
  rw [add_zero]

/-- With enough fuel the evaluator pays what is owed, or fails as the first of the pending terms
that fails. The induction is on the fuel; each step takes a node off the list and puts back at
most the nodes inside it. -/
theorem accumulate_eq (fuel : Nat) (pending : List Pending) (total : Decimal)
    (enough : pendingSize pending ≤ fuel) :
    accumulate fuel pending total = (total + ·) <$> owed pending := by
  induction fuel generalizing pending total with
  | zero =>
      cases pending with
      | nil => exact owed_nil total
      | cons term rest =>
          have positive : 0 < term.node.size := by cases term.node <;> simp [size]
          rw [pendingSize] at enough
          omega
  | succ fuel ih =>
      cases pending with
      | nil => exact owed_nil total
      | cons term rest =>
          obtain ⟨node, time, coefficient⟩ := term
          rw [pendingSize] at enough
          dsimp only at enough
          by_cases beyond : outside node.duration time = true
          · have positive : 0 < node.size := by cases node <;> simp [size]
            have skipped : accumulate (fuel + 1) (⟨node, time, coefficient⟩ :: rest) total =
                accumulate fuel rest total := by
              cases node <;> rw [accumulate, if_pos beyond]
            rw [skipped, ih rest total (by omega),
              owed_nothing (signal_outside node time beyond)]
          · cases node with
            | leaf meaning =>
                rw [size] at enough
                rw [accumulate, if_neg beyond, owed, signal_inside (leaf meaning) time beyond]
                dsimp only
                cases meaning.value time with
                | error failure => rfl
                | ok value =>
                    rw [Outcome.ok_bind, Outcome.ok_bind, ih rest _ (by omega)]
                    cases owed rest with
                    | error failure => rfl
                    | ok others =>
                        change Except.ok (total + coefficient * value + others) =
                          Except.ok (total + (coefficient * value + others))
                        rw [add_assoc]
            | negative duration inner =>
                rw [size] at enough
                rw [accumulate, if_neg beyond, ih _ _ (by simp only [pendingSize]; omega),
                  owed_negative duration time coefficient inner rest beyond]
            | add duration left right =>
                rw [size] at enough
                rw [accumulate, if_neg beyond, ih _ _ (by simp only [pendingSize]; omega),
                  owed_add duration time coefficient left right rest beyond]
            | scale duration factor inner =>
                rw [size] at enough
                rw [accumulate, if_neg beyond,
                  owed_scale duration time coefficient factor inner rest beyond]
                cases factor with
                | error failure => rfl
                | ok factorValue =>
                    rw [Outcome.ok_bind, Outcome.ok_bind,
                      ih _ _ (by simp only [pendingSize]; omega)]
            | slice duration start inner =>
                rw [size] at enough
                rw [accumulate, if_neg beyond, ih _ _ (by simp only [pendingSize]; omega),
                  owed_moved (signal_inside (slice duration start inner) time beyond)]
            | append duration parts =>
                rw [size] at enough
                rw [accumulate, if_neg beyond]
                have routed := (signal_inside (append duration parts) time beyond).trans
                  (sequence_value_route parts time)
                cases covered : route parts time with
                | none =>
                    rw [covered] at routed
                    dsimp only at routed ⊢
                    rw [ih rest total (by omega), owed_nothing routed]
                | some target =>
                    obtain ⟨part, partTime⟩ := target
                    rw [covered] at routed
                    dsimp only at routed ⊢
                    have smaller := size_route_le parts time covered
                    rw [ih _ _ (by simp only [pendingSize]; omega), owed_moved routed]

/-- A node has the values of its meaning, and fails where its meaning does. -/
theorem value_at_eq (node : Timed) (time : Decimal) :
    node.valueAt time = node.signal.value time := by
  unfold valueAt
  rw [accumulate_eq _ _ _ (by simp [pendingSize]), owed, owed]
  dsimp only
  cases node.signal.value time with
  | error failure => rfl
  | ok value =>
      change Except.ok (0 + (1 * value + 0)) = Except.ok value
      rw [one_mul, add_zero, zero_add]

theorem evaluated_eq (node : Timed) : node.evaluated = node.signal := by
  unfold evaluated
  rw [← signal_duration]
  congr 1
  funext time
  exact value_at_eq node time

end Timed

namespace Waveform

variable [Natives] {bindings : ScalarBindings}

open Signal

private theorem leaf_eq_map_timed (waveform : Waveform) :
    waveform.signal bindings = Timed.signal <$> (do
      let meaning ← waveform.signal bindings
      return Timed.leaf meaning) := by
  cases means : waveform.signal bindings with
  | error failure => rfl
  | ok meaning =>
      have kept := within_of_bounded (signal_bounded bindings waveform meaning means)
      change (Except.ok meaning : Outcome Signal) = .ok (within meaning.duration meaning.value)
      rw [kept]

/-- The waveform with known durations has the meaning of the waveform. -/
theorem signal_eq_map_timed (waveform : Waveform) :
    waveform.signal bindings = Timed.signal <$> waveform.timed bindings := by
  induction waveform using Waveform.parts_induction with
  | constant value duration => exact leaf_eq_map_timed _
  | ramp start stop duration => exact leaf_eq_map_timed _
  | poly coefficients duration => exact leaf_eq_map_timed _
  | native name function duration parameters => exact leaf_eq_map_timed _
  | negative inner ih =>
      unfold signal timed
      rw [ih]
      cases timed bindings inner with
      | error failure => rfl
      | ok node =>
          change (Except.ok (negate node.signal) : Outcome Signal) = .ok _
          unfold negate
          rw [Timed.signal_duration]
          rfl
  | add left right leftIh rightIh =>
      unfold signal timed
      rw [leftIh, rightIh]
      cases timed bindings left with
      | error failure => rfl
      | ok leftNode =>
          cases timed bindings right with
          | error failure => rfl
          | ok rightNode =>
              change (Except.ok (plus leftNode.signal rightNode.signal) : Outcome Signal) = .ok _
              unfold plus
              rw [Timed.signal_duration, Timed.signal_duration]
              rfl
  | scale factor inner ih =>
      unfold signal timed
      rw [ih]
      cases timed bindings inner with
      | error failure => rfl
      | ok node =>
          change (Except.ok (scaled (factor.eval bindings) node.signal) : Outcome Signal) = .ok _
          unfold scaled
          rw [Timed.signal_duration]
          rfl
  | slice inner interval ih =>
      unfold signal timed
      rw [ih]
      cases timed bindings inner with
      | error failure => rfl
      | ok node =>
          change (sliceBounds bindings _ interval node.signal.duration >>= _) =
            Timed.signal <$> (sliceBounds bindings _ interval node.duration >>= _)
          rw [Timed.signal_duration]
          cases sliceBounds bindings (fun _ => (Waveform.slice inner interval).text) interval
            node.duration <;> rfl
  | append parts ih =>
      have each : signals bindings parts = Timed.signals <$> timedAll bindings parts := by
        induction parts with
        | nil => rfl
        | cons part rest restIh =>
            unfold signals timedAll
            rw [ih part (by simp), restIh fun other member => ih other (by simp [member])]
            cases timed bindings part with
            | error failure => rfl
            | ok node => cases timedAll bindings rest <;> rfl
      unfold signal timed
      rw [each]
      cases timedAll bindings parts with
      | error failure => rfl
      | ok nodes =>
          have total : Signal.totalDuration (Timed.signals nodes) =
              nodes.foldr (fun node total => node.duration + total) 0 := by
            induction nodes with
            | nil => rfl
            | cons node rest restIh =>
                rw [Timed.signals, total_duration_cons, List.foldr_cons, restIh,
                  Timed.signal_duration]
          change (Except.ok (concatenate (Timed.signals nodes)) : Outcome Signal) = .ok _
          unfold concatenate
          rw [total]
          rfl
  | record name inner side ih => exact ih
  | sample inner step interpolation ih =>
      unfold signal timed
      rw [ih]
      cases timed bindings inner with
      | error failure => rfl
      | ok node =>
          change (Except.ok (sampled interpolation (samplePoints _ node.signal _ _)
            node.signal.duration) : Outcome Signal) = .ok (within node.duration
              (sampled interpolation (samplePoints _ node.evaluated _ _) node.duration).value)
          rw [Timed.evaluated_eq, Timed.signal_duration]
          exact congrArg Except.ok within_within.symm
  | smooth inner radius kernel ih =>
      unfold signal timed
      rw [ih]
      cases timed bindings inner with
      | error failure => rfl
      | ok node =>
          change (Except.ok (smoothed kernel _ node.signal) : Outcome Signal) =
            .ok (within node.duration (smoothed kernel _ node.evaluated).value)
          rw [Timed.evaluated_eq, ← Timed.signal_duration]
          exact congrArg Except.ok within_within.symm
  | aligned inner alignment fill ih => exact ih

end Waveform

namespace Evaluator

variable [Natives] {bindings : ScalarBindings} {waveform : Waveform}

/-- Every waveform that has a meaning has an evaluator, and it finds exactly the values of the
meaning. -/
theorem of_signal {meaning : Signal} (means : waveform.signal bindings = .ok meaning) :
    ∃ evaluator, of bindings waveform = .ok evaluator ∧ evaluator.duration = meaning.duration ∧
      ∀ time value, evaluator.valueAt time = .ok value ↔ meaning.value time = .ok value := by
  rw [Waveform.signal_eq_map_timed, Outcome.map_ok_iff] at means
  obtain ⟨root, timed, rfl⟩ := means
  refine ⟨⟨root⟩, ?_, (Timed.signal_duration root).symm, ?_⟩
  · unfold of
    rw [timed]
    rfl
  · intro time value
    unfold valueAt
    rw [Timed.value_at_eq]

theorem of_ok_iff :
    (∃ evaluator, of bindings waveform = .ok evaluator) ↔
      ∃ length, waveform.duration bindings = .ok length := by
  constructor
  · rintro ⟨evaluator, found⟩
    unfold of at found
    obtain ⟨root, timed, _⟩ := (Outcome.bind_ok_iff _ _ _).1 found
    have means : waveform.signal bindings = .ok root.signal := by
      rw [Waveform.signal_eq_map_timed, timed]
      rfl
    exact ⟨_, Waveform.duration_of_signal means⟩
  · rintro ⟨length, lasts⟩
    obtain ⟨meaning, means, _⟩ := Waveform.signal_of_duration lasts
    obtain ⟨evaluator, found, _⟩ := of_signal means
    exact ⟨evaluator, found⟩

/-- An evaluator answers as its waveform is evaluated by itself, with the same failures. -/
theorem value_at_eq {evaluator : Evaluator} (made : of bindings waveform = .ok evaluator)
    (time : Decimal) : evaluator.valueAt time = waveform.valueAt bindings time := by
  unfold of at made
  obtain ⟨root, timed, same⟩ := (Outcome.bind_ok_iff _ _ _).1 made
  rw [Outcome.pure_ok_iff] at same
  subst same
  unfold valueAt Waveform.valueAt
  rw [Timed.value_at_eq, Waveform.signal_eq_map_timed, timed]
  rfl

end Evaluator

end Analog
