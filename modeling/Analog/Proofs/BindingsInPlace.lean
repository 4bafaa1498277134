import Analog.Proofs.Outcomes
import Analog.Routine.InPlace

/-!
# Bindings in memory

Work that changes bindings in place comes to the same as functions from bindings to bindings, as
long as it works at a place that is new. Then nothing that stood in memory before is touched, and
this is so whether the work succeeds or fails.
-/

set_option autoImplicit false

namespace Analog

namespace Memory

variable {memory : Memory} {place : Place} {given made bindings : Bindings}

def Keeps (before after : Memory) : Prop :=
  ∀ place bindings, before.read? place = some bindings → after.read? place = some bindings

theorem read_eq_some_iff : memory.read? place = some bindings ↔
    memory.scalars[place.scalars]? = some bindings.scalars ∧
      memory.vectors[place.vectors]? = some bindings.vectors := by
  obtain ⟨scalars, vectors⟩ := bindings
  unfold read?
  cases memory.scalars[place.scalars]? <;> cases memory.vectors[place.vectors]? <;> simp

theorem read_next (memory : Memory) (given : Bindings) :
    (memory.push given).read? memory.next = some given :=
  read_eq_some_iff.2 ⟨List.getElem?_concat_length, List.getElem?_concat_length⟩

theorem write_next (memory : Memory) (given made : Bindings) :
    (memory.push given).write memory.next made = memory.push made := by
  simp [write, push, next]

theorem keeps_push (memory : Memory) (given : Bindings) : memory.Keeps (memory.push given) := by
  intro place bindings found
  obtain ⟨scalars, vectors⟩ := read_eq_some_iff.1 found
  refine read_eq_some_iff.2 ⟨?_, ?_⟩
  · exact (List.getElem?_append_left (List.getElem?_eq_some_iff.1 scalars).1).trans scalars
  · exact (List.getElem?_append_left (List.getElem?_eq_some_iff.1 vectors).1).trans vectors

end Memory

namespace InPlace

variable {α β : Type} {memory base : Memory}

theorem on_pure (value : α) (memory : Memory) :
    (pure value : InPlace α).on memory = (.ok value, memory) :=
  rfl

theorem on_bind_ok {work : InPlace α} {value : α} {after : Memory}
    (workOn : work.on memory = (.ok value, after)) (next : α → InPlace β) :
    (work >>= next).on memory = (next value).on after := by
  change (ExceptT.bindCont next (work.on memory).1) (work.on memory).2 = _
  rw [workOn]
  rfl

theorem on_bind_error {work : InPlace α} {failure : Failure} {after : Memory}
    (workOn : work.on memory = (.error failure, after)) (next : α → InPlace β) :
    (work >>= next).on memory = (.error failure, after) := by
  change (ExceptT.bindCont next (work.on memory).1) (work.on memory).2 = _
  rw [workOn]
  rfl

theorem on_content {place : Place} {bindings : Bindings}
    (found : memory.read? place = some bindings) :
    place.content.on memory = (.ok bindings, memory) := by
  have got : (get : InPlace Memory).on memory = (.ok memory, memory) := rfl
  rw [Place.content, on_bind_ok got, found]
  rfl

/-- Work changes the last bindings of a memory as a function does, and nothing else. -/
structure Performs (base : Memory) (work : InPlace Unit) (change : Bindings → Outcome Bindings) :
    Prop where
  works : ∀ given made, change given = .ok made →
    work.on (base.push given) = (.ok (), base.push made)
  fails : ∀ given failure, change given = .error failure →
    ∃ last, work.on (base.push given) = (.error failure, base.push last)

variable {first second : InPlace Unit} {change more : Bindings → Outcome Bindings}

theorem performs_nothing (base : Memory) : Performs base (pure ()) pure where
  works given made unchanged := by
    rw [(Outcome.pure_ok_iff _ _).1 unchanged, on_pure]
  fails given failure impossible := nomatch impossible

theorem performs_update (base : Memory) (change : Bindings → Outcome Bindings) :
    Performs base (base.next.update change) change where
  works given made changed := by
    refine (on_bind_ok (on_content (base.read_next given)) _).trans ?_
    rw [changed]
    change (Except.ok (), (base.push given).write base.next made) = _
    rw [base.write_next]
  fails given failure changed := by
    refine ⟨given, (on_bind_ok (on_content (base.read_next given)) _).trans ?_⟩
    rw [changed]
    rfl

theorem Performs.bind (performsFirst : Performs base first change)
    (performsSecond : Performs base second more) :
    Performs base (first >>= fun _ => second) fun given => change given >>= more where
  works given made changed := by
    obtain ⟨middle, firstChanged, secondChanged⟩ := (Outcome.bind_ok_iff _ _ _).1 changed
    rw [on_bind_ok (performsFirst.works given middle firstChanged)]
    exact performsSecond.works middle made secondChanged
  fails given failure changed := by
    cases firstChanged : change given with
    | error reason =>
        obtain ⟨last, firstOn⟩ := performsFirst.fails given reason firstChanged
        rw [firstChanged] at changed
        cases changed
        exact ⟨last, on_bind_error firstOn _⟩
    | ok middle =>
        rw [firstChanged] at changed
        rw [on_bind_ok (performsFirst.works given middle firstChanged)]
        exact performsSecond.fails middle failure changed

theorem performs_each {work : α → InPlace Unit} {step : Bindings → α → Outcome Bindings}
    (entries : List α) (performs : ∀ entry, Performs base (work entry) (step · entry)) :
    Performs base (entries.forM work) fun given => entries.foldlM step given := by
  induction entries with
  | nil => exact performs_nothing base
  | cons entry rest ih => exact (performs entry).bind ih

/-- What is read at an old place is the same whatever has become of the last bindings. -/
theorem performs_content {place : Place} {bindings : Bindings} {work : Bindings → InPlace Unit}
    (found : base.read? place = some bindings) (performs : Performs base (work bindings) change) :
    Performs base (place.content >>= work) change where
  works given made changed := by
    rw [on_bind_ok (on_content (base.keeps_push given place bindings found))]
    exact performs.works given made changed
  fails given failure changed := by
    rw [on_bind_ok (on_content (base.keeps_push given place bindings found))]
    exact performs.fails given failure changed

theorem performs_add {other : Place} {bindings : Bindings}
    (found : base.read? other = some bindings) :
    Performs base (base.next.add other) fun given => given.merge bindings :=
  have scalars := performs_each bindings.scalars.entries fun entry =>
    performs_update base (·.bind entry.1 entry.2)
  have vectors := performs_each bindings.vectors.entries fun entry =>
    performs_update base (·.bindVector entry.1 entry.2)
  performs_content found (scalars.bind vectors)

/-- Work makes bindings at the next place of a memory, or fails, as an outcome says. All that
stood in the memory stays as it is. -/
structure Makes (memory : Memory) (work : InPlace Place) (outcome : Outcome Bindings) : Prop where
  works : ∀ made, outcome = .ok made → work.on memory = (.ok memory.next, memory.push made)
  fails : ∀ failure, outcome = .error failure →
    ∃ after, work.on memory = (.error failure, after) ∧ memory.Keeps after

variable {work : InPlace Place} {outcome : Outcome Bindings} {place : Place} {bindings : Bindings}

theorem makes_clone (found : memory.read? place = some bindings) :
    Makes memory place.clone (.ok bindings) where
  works made same := by
    rw [← Except.ok.inj same]
    exact on_bind_ok (on_content found) _
  fails failure impossible := nomatch impossible

theorem Makes.perform (makes : Makes memory work outcome) (next : Place → InPlace Unit)
    (performs : Performs memory (next memory.next) change) :
    Makes memory (work >>= fun made => next made >>= fun _ => pure made) (outcome >>= change) where
  works last changed := by
    obtain ⟨made, outcomeOk, changeOk⟩ := (Outcome.bind_ok_iff _ _ _).1 changed
    rw [on_bind_ok (makes.works made outcomeOk), on_bind_ok (performs.works made last changeOk),
      on_pure]
  fails failure changed := by
    cases outcome with
    | error reason =>
        obtain ⟨after, workOn, keeps⟩ := makes.fails reason rfl
        cases changed
        exact ⟨after, on_bind_error workOn _, keeps⟩
    | ok made =>
        obtain ⟨last, nextOn⟩ := performs.fails made failure changed
        refine ⟨memory.push last, ?_, memory.keeps_push last⟩
        rw [on_bind_ok (makes.works made rfl), on_bind_error nextOn]

theorem makes_merge {first second : Place} {ours others : Bindings}
    (firstFound : memory.read? first = some ours)
    (secondFound : memory.read? second = some others) :
    Makes memory (first.merge second) (ours.merge others) :=
  (makes_clone firstFound).perform (·.add second) (performs_add secondFound)

end InPlace

end Analog
