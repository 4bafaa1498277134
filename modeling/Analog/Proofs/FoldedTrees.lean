import Mathlib.Data.List.Basic
import Mathlib.Data.Part
import Analog.Stack.Fold

/-!
# The fold with stacks is the recursive fold

A tree is folded by recursion: the children of a node from left to right, and then the node with
their results. The loop over two stacks comes to the same. A node on top of the pending work ends,
some rounds later, as its result on top of the others, or ends the loop with a failure; nothing
below it on either stack is touched. So the loop ends if the tree is finite. Whatever the nodes
are, the results never run out.
-/

set_option autoImplicit false

namespace Analog

def Outcome.failure? {α : Type} : Outcome α → Option Failure
  | .ok _ => none
  | .error failure => some failure

theorem Outcome.failure_eq_some_iff {α : Type} (outcome : Outcome α) (failure : Failure) :
    outcome.failure? = some failure ↔ outcome = .error failure := by
  cases outcome <;> simp [failure?]

namespace Tree

variable {ν β : Type}

/-- Every node of a tree has the children that a function gives. -/
inductive Follows (children : ν → List ν) : Tree ν → Prop
  | node {label : ν} {trees : List (Tree ν)} : trees.map root = children label →
      (∀ tree ∈ trees, Follows children tree) → Follows children (.node label trees)

/-- A node has a finite tree if no path from child to child goes on forever. -/
theorem exists_follows_iff (children : ν → List ν) (node : ν) :
    (∃ tree, Follows children tree ∧ tree.root = node) ↔
      Acc (fun child parent => child ∈ children parent) node := by
  constructor
  · rintro ⟨tree, follows, rfl⟩
    induction follows with
    | @node label trees rooted _ ih =>
        refine ⟨_, fun child member => ?_⟩
        have member : child ∈ trees.map root := rooted ▸ member
        obtain ⟨tree, treeMember, rfl⟩ := List.mem_map.1 member
        exact ih tree treeMember
  · intro finite
    induction finite with
    | intro node _ ih =>
        have each : ∀ nodes : List ν, (∀ child ∈ nodes, child ∈ children node) →
            ∃ trees : List (Tree ν), trees.map root = nodes ∧
              ∀ tree ∈ trees, Follows children tree := by
          intro nodes
          induction nodes with
          | nil => exact fun _ => ⟨[], rfl, fun _ none => absurd none List.not_mem_nil⟩
          | cons child rest restIh =>
              intro members
              obtain ⟨tree, follows, rfl⟩ := ih child (members child List.mem_cons_self)
              obtain ⟨trees, rfl, others⟩ :=
                restIh fun other member => members other (List.mem_cons_of_mem _ member)
              exact ⟨tree :: trees, rfl, List.forall_mem_cons.2 ⟨follows, others⟩⟩
        obtain ⟨trees, rooted, follows⟩ := each (children node) fun _ member => member
        exact ⟨.node node trees, .node rooted follows, rfl⟩

mutual

/-- All nodes, each with the tree under it, in the order in which they are combined. -/
def postorder : Tree ν → List (Tree ν)
  | .node label trees => postorderAll trees ++ [.node label trees]

def postorderAll : List (Tree ν) → List (Tree ν)
  | [] => []
  | tree :: rest => postorder tree ++ postorderAll rest

end

variable (combine : ν → List β → Outcome β)

def ownFailure : Tree ν → Option Failure
  | .node label trees =>
    match foldAll combine trees with
    | .ok results => (combine label results).failure?
    | .error _ => none

mutual

theorem failure_of_fold (tree : Tree ν) :
    (fold combine tree).failure? = tree.postorder.findSome? (ownFailure combine) := by
  obtain ⟨label, trees⟩ := tree
  rw [postorder, List.findSome?_append, ← failure_of_fold_all trees, fold]
  cases folded : foldAll combine trees with
  | error failure => rfl
  | ok results =>
      rw [List.findSome?_singleton, ownFailure, folded]
      rfl

theorem failure_of_fold_all (trees : List (Tree ν)) :
    (foldAll combine trees).failure? = (postorderAll trees).findSome? (ownFailure combine) := by
  cases trees with
  | nil => rfl
  | cons tree rest =>
      rw [postorderAll, List.findSome?_append, ← failure_of_fold tree, ← failure_of_fold_all rest,
        foldAll]
      cases fold combine tree with
      | error failure => rfl
      | ok result => cases foldAll combine rest <;> rfl

end

theorem fold_error_iff (tree : Tree ν) (failure : Failure) :
    fold combine tree = .error failure ↔
      ∃ before node after, tree.postorder = before ++ node :: after ∧
        node.ownFailure combine = some failure ∧
        ∀ earlier ∈ before, earlier.ownFailure combine = none := by
  rw [← Outcome.failure_eq_some_iff, failure_of_fold, List.findSome?_eq_some_iff]

theorem length_fold_all {trees : List (Tree ν)} {results : List β}
    (folded : foldAll combine trees = .ok results) : results.length = trees.length := by
  induction trees generalizing results with
  | nil => cases folded; rfl
  | cons tree rest ih =>
      rw [foldAll] at folded
      cases first : fold combine tree with
      | error failure => rw [first] at folded; cases folded
      | ok result =>
          cases others : foldAll combine rest with
          | error failure => rw [first, others] at folded; cases folded
          | ok found =>
              rw [first, others] at folded
              cases folded
              rw [List.length_cons, ih others, List.length_cons]

end Tree

namespace Traversal

variable {ν β : Type} (children : ν → List ν) (combine : ν → List β → Outcome β)

def enter (node : ν) : Frame ν := { node }

def outcome? (state : Traversal ν β) : Part (Outcome β) :=
  ⟨Ends children combine state, run children combine state⟩

/-- What the loop comes to once a part of its work has an outcome. -/
def proceed {α : Type} (outcome : Outcome α) (next : α → Part (Outcome β)) : Part (Outcome β) :=
  match outcome with
  | .ok value => next value
  | .error failure => .some (.error failure)

theorem proceed_bind {α γ : Type} (outcome : Outcome α) (work : α → Outcome γ)
    (next : γ → Part (Outcome β)) :
    proceed (outcome >>= work) next = proceed outcome fun value => proceed (work value) next := by
  cases outcome <;> rfl

section Rounds

variable {frame : Frame ν} (rest : List (Frame ν)) {results : Stack β}

theorem round_enter (fresh : frame.expanded = false) :
    round children combine ⟨⟨frame :: rest⟩, results⟩ =
      .ok ⟨⟨(children frame.node).map enter ++
        ⟨frame.node, (children frame.node).length, true⟩ :: rest⟩, results⟩ := by
  obtain ⟨node, arity, expanded⟩ := frame
  cases fresh
  rfl

theorem round_leave (expanded : frame.expanded = true) (enough : frame.arity ≤ results.size) :
    round children combine ⟨⟨frame :: rest⟩, results⟩ =
      combine frame.node (results.items.take frame.arity).reverse >>= fun result =>
        .ok ⟨⟨rest⟩, ⟨result :: results.items.drop frame.arity⟩⟩ := by
  have taken : results.popMany frame.arity =
      .ok ((results.items.take frame.arity).reverse, ⟨results.items.drop frame.arity⟩) :=
    if_pos enough
  obtain ⟨node, arity, _⟩ := frame
  cases expanded
  change (results.popMany arity >>= _) = _
  rw [taken]
  rfl

end Rounds

section Steps

variable {children combine} {state next : Traversal ν β}

theorem run_of_ok (working : state.work.isEmpty = false)
    (made : state.round children combine = .ok next) (ends : Ends children combine state)
    (nextEnds : Ends children combine next) :
    run children combine state ends = run children combine next nextEnds := by
  rw [run, dif_neg (Bool.eq_false_iff.1 working)]
  split
  · cases made.symm.trans ‹_›
    rfl
  · cases made.symm.trans ‹_›

theorem run_of_error {failure : Failure} (working : state.work.isEmpty = false)
    (failed : state.round children combine = .error failure)
    (ends : Ends children combine state) :
    run children combine state ends = .error failure := by
  rw [run, dif_neg (Bool.eq_false_iff.1 working)]
  split
  · cases failed.symm.trans ‹_›
  · cases failed.symm.trans ‹_›
    rfl

theorem ends_iff_of_ok (working : state.work.isEmpty = false)
    (made : state.round children combine = .ok next) :
    Ends children combine state ↔ Ends children combine next := by
  refine ⟨fun ends => ends.inv ⟨working, made⟩, fun ends => ⟨_, fun other leads => ?_⟩⟩
  cases made.symm.trans leads.2
  exact ends

end Steps

theorem outcome_done (results : Stack β) :
    outcome? children combine ⟨⟨[]⟩, results⟩ = .some (Prod.fst <$> results.pop) := by
  have ends : Ends children combine ⟨⟨[]⟩, results⟩ := ⟨_, fun _ leads => nomatch leads.1⟩
  have ran : run children combine ⟨⟨[]⟩, results⟩ ends = Prod.fst <$> results.pop := by
    rw [run]
    rfl
  exact Part.eq_some_iff.2 ⟨ends, ran⟩

theorem outcome_round (frame : Frame ν) (rest : List (Frame ν)) (results : Stack β) :
    outcome? children combine ⟨⟨frame :: rest⟩, results⟩ =
      proceed (round children combine ⟨⟨frame :: rest⟩, results⟩) (outcome? children combine) := by
  cases made : round children combine ⟨⟨frame :: rest⟩, results⟩ with
  | ok next => exact Part.ext' (ends_iff_of_ok rfl made) (run_of_ok rfl made)
  | error failure =>
      have ends : Ends children combine ⟨⟨frame :: rest⟩, results⟩ :=
        ⟨_, fun _ leads => nomatch made.symm.trans leads.2⟩
      exact Part.eq_some_iff.2 ⟨ends, run_of_error rfl made ends⟩

variable {children}

/-- Trees on top of the pending work leave their results, the last one on top. -/
theorem outcome_trees {trees : List (Tree ν)}
    (each : ∀ tree ∈ trees, ∀ rest below,
      outcome? children combine ⟨⟨enter tree.root :: rest⟩, ⟨below⟩⟩ =
        proceed (tree.fold combine) fun result =>
          outcome? children combine ⟨⟨rest⟩, ⟨result :: below⟩⟩)
    (rest : List (Frame ν)) (below : List β) :
    outcome? children combine ⟨⟨(trees.map Tree.root).map enter ++ rest⟩, ⟨below⟩⟩ =
      proceed (Tree.foldAll combine trees) fun results =>
        outcome? children combine ⟨⟨rest⟩, ⟨results.reverse ++ below⟩⟩ := by
  induction trees generalizing below with
  | nil => rfl
  | cons tree others ih =>
      have first := each tree List.mem_cons_self
        ((others.map Tree.root).map enter ++ rest) below
      have later := fun result =>
        ih (fun other member => each other (List.mem_cons_of_mem _ member)) (result :: below)
      rw [List.map_cons, List.map_cons, List.cons_append, first, Tree.foldAll, proceed_bind]
      congr 1
      funext result
      rw [later, proceed_bind]
      congr 1
      funext results
      simp [proceed, pure, Except.pure]

theorem outcome_tree {tree : Tree ν} (follows : tree.Follows children) (rest : List (Frame ν))
    (below : List β) :
    outcome? children combine ⟨⟨enter tree.root :: rest⟩, ⟨below⟩⟩ =
      proceed (tree.fold combine) fun result =>
        outcome? children combine ⟨⟨rest⟩, ⟨result :: below⟩⟩ := by
  induction follows generalizing rest below with
  | @node label trees rooted _ ih =>
      -- The node is put back under its children, and comes up again with their results on top.
      have left : ∀ results, results.length = trees.length →
          outcome? children combine
              ⟨⟨⟨label, trees.length, true⟩ :: rest⟩, ⟨results.reverse ++ below⟩⟩ =
            proceed (combine label results) fun result =>
              outcome? children combine ⟨⟨rest⟩, ⟨result :: below⟩⟩ := by
        intro results sameLength
        rw [outcome_round, ← sameLength, round_leave children combine rest rfl
          (by simp [Stack.size]), proceed_bind]
        simp [proceed]
      have entered : outcome? children combine ⟨⟨enter label :: rest⟩, ⟨below⟩⟩ =
          outcome? children combine ⟨⟨(trees.map Tree.root).map enter ++
            ⟨label, trees.length, true⟩ :: rest⟩, ⟨below⟩⟩ := by
        rw [outcome_round, round_enter children combine rest rfl, enter, ← rooted, List.length_map]
        rfl
      rw [Tree.root, entered, outcome_trees combine ih, Tree.fold, proceed_bind]
      cases folded : Tree.foldAll combine trees with
      | error failure => rfl
      | ok results => exact left results (Tree.length_fold_all combine folded)

theorem fold_eq_fold_tree {tree : Tree ν} (follows : tree.Follows children) :
    ∃ ends, fold children combine tree.root ends = tree.fold combine := by
  have ran : outcome? children combine (start tree.root) = .some (tree.fold combine) := by
    refine (outcome_tree combine follows [] []).trans ?_
    cases tree.fold combine with
    | error failure => rfl
    | ok result => exact outcome_done children combine ⟨[result]⟩
  exact Part.eq_some_iff.1 ran

/-- Frames, from the top down, find the results that they take off, and one is left in the end. -/
def Balanced : List (Frame ν) → (count : Nat) → Prop
  | [], count => count = 1
  | frame :: rest, count =>
    if frame.expanded then frame.arity ≤ count ∧ Balanced rest (count - frame.arity + 1)
    else Balanced rest (count + 1)

theorem balanced_entered_iff (nodes : List ν) (rest : List (Frame ν)) (count : Nat) :
    Balanced (nodes.map enter ++ rest) count ↔ Balanced rest (count + nodes.length) := by
  induction nodes generalizing count with
  | nil => rfl
  | cons node others ih =>
      have entered : Balanced ((node :: others).map enter ++ rest) count ↔
          Balanced (others.map enter ++ rest) (count + 1) := Iff.rfl
      rw [entered, ih, List.length_cons, Nat.add_right_comm, Nat.add_assoc]

/-- The states that a loop passes through. -/
inductive Reached (children : ν → List ν) (combine : ν → List β → Outcome β) (root : ν) :
    Traversal ν β → Prop
  | start : Reached children combine root (start root)
  | round {state next : Traversal ν β} : Reached children combine root state →
      state.round children combine = .ok next → Reached children combine root next

/-- What is taken off next is there: the one result in the end, or those of all children. -/
def Supplied (state : Traversal ν β) : Prop :=
  match state.work.items with
  | [] => state.results.size = 1
  | frame :: _ => frame.expanded = true → frame.arity ≤ state.results.size

theorem supplied_of_balanced {state : Traversal ν β}
    (balanced : Balanced state.work.items state.results.size) : state.Supplied := by
  obtain ⟨⟨_ | ⟨frame, rest⟩⟩, results⟩ := state
  · exact balanced
  · intro expanded
    rw [Balanced, if_pos expanded] at balanced
    exact balanced.1

theorem round_balanced {state next : Traversal ν β}
    (balanced : Balanced state.work.items state.results.size)
    (made : state.round children combine = .ok next) :
    Balanced next.work.items next.results.size := by
  obtain ⟨⟨_ | ⟨frame, rest⟩⟩, results⟩ := state
  · cases made
  rw [Balanced] at balanced
  cases expanded : frame.expanded with
  | false =>
      rw [if_neg (by simp [expanded])] at balanced
      rw [round_enter children combine rest expanded, Except.ok.injEq] at made
      subst made
      refine (balanced_entered_iff _ _ _).2 ?_
      rw [Balanced, if_pos rfl, Nat.add_sub_cancel]
      exact ⟨Nat.le_add_left _ _, balanced⟩
  | true =>
      obtain ⟨enough, after⟩ := (if_pos expanded).mp balanced
      rw [round_leave children combine rest expanded enough] at made
      cases combined : combine frame.node (results.items.take frame.arity).reverse with
      | error failure => rw [combined] at made; cases made
      | ok result =>
          rw [combined] at made
          cases made
          simpa [Stack.size] using after

theorem reached_balanced {root : ν} {state : Traversal ν β}
    (reached : Reached children combine root state) :
    Balanced state.work.items state.results.size := by
  induction reached with
  | start => rfl
  | round _ made ih => exact round_balanced combine ih made

theorem round_failure {state : Traversal ν β} {failure : Failure}
    (working : state.work.isEmpty = false) (supplied : state.Supplied)
    (failed : state.round children combine = .error failure) :
    ∃ node arguments, combine node arguments = .error failure := by
  obtain ⟨⟨_ | ⟨frame, rest⟩⟩, results⟩ := state
  · cases working
  cases expanded : frame.expanded with
  | false =>
      rw [round_enter children combine rest expanded] at failed
      cases failed
  | true =>
      rw [round_leave children combine rest expanded (supplied expanded)] at failed
      cases combined : combine frame.node (results.items.take frame.arity).reverse with
      | error reason =>
          rw [combined] at failed
          cases failed
          exact ⟨_, _, combined⟩
      | ok result => rw [combined] at failed; cases failed

/-- Of the finite tree under a node, the fold with stacks ends with what recursion gives, which is a
failure if some node fails on the results of its children, and then that of the first one. In no
state on the way does the loop take off what is not there: it fails only where a node does. -/
theorem fold_with_stacks_is_recursive (children : ν → List ν)
    (combine : ν → List β → Outcome β) (tree : Tree ν) (follows : tree.Follows children) :
    (∃ ends, fold children combine tree.root ends = tree.fold combine) ∧
      (∀ failure, tree.fold combine = .error failure ↔
        ∃ before node after, tree.postorder = before ++ node :: after ∧
          node.ownFailure combine = some failure ∧
          ∀ earlier ∈ before, earlier.ownFailure combine = none) ∧
      ∀ state, Reached children combine tree.root state → state.Supplied ∧
        ∀ failure, state.work.isEmpty = false →
          state.round children combine = .error failure →
            ∃ node arguments, combine node arguments = .error failure := by
  refine ⟨fold_eq_fold_tree combine follows, tree.fold_error_iff combine, ?_⟩
  intro state reached
  have supplied := supplied_of_balanced (reached_balanced combine reached)
  exact ⟨supplied, fun failure working => round_failure combine working supplied⟩

def halves (number : Nat) : List Nat :=
  if number < 2 then [] else [number / 2, number - number / 2]

def addUnderOdd (number : Nat) (results : List Nat) : Outcome Nat :=
  if number % 2 = 0 then .error (.argumentCount number results.length)
  else .ok (results.foldl (· + ·) number)

/-- The children of an even number are combined before it fails. -/
theorem halves_of_three_fail :
    (Tree.node 3 [.node 1 [], .node 2 [.node 1 [], .node 1 []]]).Follows halves ∧
      ∃ ends, fold halves addUnderOdd 3 ends = .error (.argumentCount 2 2) := by
  have one : (Tree.node 1 []).Follows halves := .node rfl (by simp)
  have two : (Tree.node 2 [.node 1 [], .node 1 []]).Follows halves := .node rfl (by simp [one])
  have three : (Tree.node 3 [.node 1 [], .node 2 [.node 1 [], .node 1 []]]).Follows halves :=
    .node rfl (by simp [one, two])
  exact ⟨three, (fold_with_stacks_is_recursive halves addUnderOdd _ three).1⟩

end Traversal

end Analog
