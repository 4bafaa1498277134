import Analog.Proofs.Outcomes
import Analog.Waveform.Signal
import Mathlib.Algebra.Order.BigOperators.Group.List

/-!
# Nodes of scalars and waveforms

Induction over scalars and waveforms, in which an expression with a list of parts may assume
the statement of every part. Statements about all nodes of a waveform follow those of its
parts.
-/

set_option autoImplicit false

namespace Analog

/-- Induction over scalars. The bounds of a slice count as parts when they are given. -/
@[elab_as_elim]
theorem Scalar.parts_induction {motive : Scalar → Prop}
    (literal : ∀ value, motive (.literal value))
    (named : ∀ name, motive (.variable name))
    (assigned : ∀ name value, motive (.assigned name value))
    (negative : ∀ operand, motive operand → motive (.negative operand))
    (add : ∀ left right, motive left → motive right → motive (.add left right))
    (mul : ∀ left right, motive left → motive right → motive (.mul left right))
    (div : ∀ left right, motive left → motive right → motive (.div left right))
    (min : ∀ operands, (∀ operand ∈ operands, motive operand) → motive (.min operands))
    (max : ∀ operands, (∀ operand ∈ operands, motive operand) → motive (.max operands))
    (slice : ∀ extent start stop, motive extent → (∀ bound ∈ start, motive bound) →
      (∀ bound ∈ stop, motive bound) → motive (.slice extent start stop))
    (scalar : Scalar) : motive scalar :=
  @Scalar.rec motive (fun operands => ∀ operand ∈ operands, motive operand)
    (fun bound => ∀ given ∈ bound, motive given)
    literal named assigned negative add mul div min max slice
    (fun _ member => absurd member List.not_mem_nil)
    (fun _ _ first rest operand member =>
      (List.mem_cons.1 member).elim (fun same => same ▸ first) (rest operand))
    (fun _ member => absurd member (by simp))
    (fun _ holds given member => by
      rw [Option.mem_def, Option.some.injEq] at member
      exact member ▸ holds)
    scalar

namespace Scalar

mutual

def nodes : Scalar → List Scalar
  | .literal value => [.literal value]
  | .variable name => [.variable name]
  | .assigned name value => [.assigned name value]
  | .negative operand => .negative operand :: nodes operand
  | .add left right => .add left right :: (nodes left ++ nodes right)
  | .mul left right => .mul left right :: (nodes left ++ nodes right)
  | .div left right => .div left right :: (nodes left ++ nodes right)
  | .min operands => .min operands :: nodesAll operands
  | .max operands => .max operands :: nodesAll operands
  | .slice extent start stop =>
    .slice extent start stop :: (nodes extent ++ nodesBound start ++ nodesBound stop)

def nodesAll : List Scalar → List Scalar
  | [] => []
  | operand :: rest => nodes operand ++ nodesAll rest

def nodesBound : Option Scalar → List Scalar
  | none => []
  | some bound => nodes bound

end

theorem nodes_all_eq (operands : List Scalar) : nodesAll operands = operands.flatMap nodes := by
  induction operands with
  | nil => rfl
  | cons operand rest ih => rw [nodesAll, List.flatMap_cons, ih]

theorem nodes_bound_eq (bound : Option Scalar) : nodesBound bound = bound.toList.flatMap nodes := by
  cases bound <;> simp [nodesBound]

theorem nodes_eq (scalar : Scalar) : scalar.nodes = scalar :: scalar.children.flatMap nodes := by
  cases scalar <;> simp [nodes, children, nodes_all_eq, nodes_bound_eq]

/-- What holds of all nodes holds of the scalar itself and of all nodes of its parts. -/
theorem each_node_iff (condition : Scalar → Prop) (scalar : Scalar) :
    (∀ node ∈ scalar.nodes, condition node) ↔
      condition scalar ∧ ∀ child ∈ scalar.children, ∀ node ∈ child.nodes, condition node := by
  rw [nodes_eq]
  simp only [List.mem_cons, forall_eq_or_imp, List.mem_flatMap]
  apply and_congr_right'
  constructor
  · intro each child member node nodeMember
    exact each node ⟨child, member, nodeMember⟩
  · rintro each node ⟨child, member, nodeMember⟩
    exact each child member node nodeMember

end Scalar

@[elab_as_elim]
theorem Waveform.parts_induction {motive : Waveform → Prop}
    (constant : ∀ value duration, motive (.constant value duration))
    (ramp : ∀ start stop duration, motive (.ramp start stop duration))
    (poly : ∀ coefficients duration, motive (.poly coefficients duration))
    (native : ∀ name function duration parameters,
      motive (.native name function duration parameters))
    (negative : ∀ inner, motive inner → motive (.negative inner))
    (add : ∀ left right, motive left → motive right → motive (.add left right))
    (scale : ∀ factor inner, motive inner → motive (.scale factor inner))
    (slice : ∀ inner interval, motive inner → motive (.slice inner interval))
    (append : ∀ parts, (∀ part ∈ parts, motive part) → motive (.append parts))
    (record : ∀ name inner side, motive inner → motive (.record name inner side))
    (sample : ∀ inner step interpolation, motive inner →
      motive (.sample inner step interpolation))
    (smooth : ∀ inner radius kernel, motive inner → motive (.smooth inner radius kernel))
    (aligned : ∀ inner alignment fill, motive inner → motive (.aligned inner alignment fill))
    (waveform : Waveform) : motive waveform :=
  @Waveform.rec motive (fun parts => ∀ part ∈ parts, motive part)
    constant ramp poly native negative add scale slice append record sample smooth aligned
    (fun _ member => absurd member List.not_mem_nil)
    (fun _ _ first rest part member =>
      (List.mem_cons.1 member).elim (fun same => same ▸ first) (rest part))
    waveform

namespace Waveform

mutual

/-- The nodes that stand outside every sample, each before its children. -/
def exposed : Waveform → List Waveform
  | .constant value duration => [.constant value duration]
  | .ramp start stop duration => [.ramp start stop duration]
  | .poly coefficients duration => [.poly coefficients duration]
  | .native name function duration parameters => [.native name function duration parameters]
  | .negative inner => .negative inner :: exposed inner
  | .add left right => .add left right :: (exposed left ++ exposed right)
  | .scale factor inner => .scale factor inner :: exposed inner
  | .slice inner interval => .slice inner interval :: exposed inner
  | .append parts => .append parts :: exposedAll parts
  | .record name inner side => .record name inner side :: exposed inner
  | .sample inner step interpolation => [.sample inner step interpolation]
  | .smooth inner radius kernel => .smooth inner radius kernel :: exposed inner
  | .aligned inner alignment fill => .aligned inner alignment fill :: exposed inner

def exposedAll : List Waveform → List Waveform
  | [] => []
  | part :: rest => exposed part ++ exposedAll rest

end

theorem mem_exposed_all (parts : List Waveform) (node : Waveform) :
    node ∈ exposedAll parts ↔ ∃ part ∈ parts, node ∈ part.exposed := by
  induction parts with
  | nil => simp [exposedAll]
  | cons part rest ih => simp [exposedAll, ih]

theorem exposed_of_part {parts : List Waveform} {condition : Waveform → Prop}
    (each : ∀ node ∈ (Waveform.append parts).exposed, condition node) :
    ∀ part ∈ parts, ∀ node ∈ part.exposed, condition node := by
  intro part member node nodeMember
  apply each
  simp only [exposed, List.mem_cons, mem_exposed_all]
  exact Or.inr ⟨part, member, nodeMember⟩

theorem self_mem_exposed (waveform : Waveform) : waveform ∈ waveform.exposed := by
  cases waveform <;> simp [exposed]

theorem nodes_all_eq (parts : List Waveform) : nodesAll parts = parts.flatMap nodes := by
  induction parts with
  | nil => rfl
  | cons part rest ih => rw [nodesAll, List.flatMap_cons, ih]

theorem mem_nodes_all (parts : List Waveform) (node : Waveform) :
    node ∈ nodesAll parts ↔ ∃ part ∈ parts, node ∈ part.nodes := by
  rw [nodes_all_eq, List.mem_flatMap]

theorem nodes_eq (waveform : Waveform) :
    waveform.nodes = waveform :: nodesAll waveform.children := by
  cases waveform <;> simp [nodes, nodesAll, children]

/-- What holds of all nodes holds of the waveform itself and of all nodes of its children. -/
theorem each_node_iff (condition : Waveform → Prop) (waveform : Waveform) :
    (∀ node ∈ waveform.nodes, condition node) ↔
      condition waveform ∧ ∀ child ∈ waveform.children, ∀ node ∈ child.nodes, condition node := by
  rw [nodes_eq]
  simp only [List.mem_cons, forall_eq_or_imp, mem_nodes_all]
  apply and_congr_right'
  constructor
  · intro each child member node nodeMember
    exact each node ⟨child, member, nodeMember⟩
  · rintro each node ⟨child, member, nodeMember⟩
    exact each child member node nodeMember

def Each (good : Scalar → Prop) (waveform : Waveform) : Prop :=
  ∀ node ∈ waveform.nodes, ∀ scalar ∈ node.scalars, good scalar

instance {good : Scalar → Prop} [DecidablePred good] (waveform : Waveform) :
    Decidable (waveform.Each good) :=
  inferInstanceAs (Decidable (∀ node ∈ waveform.nodes, ∀ scalar ∈ node.scalars, good scalar))

theorem each_iff {good : Scalar → Prop} (waveform : Waveform) :
    waveform.Each good ↔
      (∀ scalar ∈ waveform.scalars, good scalar) ∧ ∀ child ∈ waveform.children, child.Each good :=
  each_node_iff _ waveform

theorem Each.mono {good better : Scalar → Prop} {waveform : Waveform} (each : waveform.Each good)
    (weaker : ∀ scalar, good scalar → better scalar) : waveform.Each better :=
  fun node nodeMember scalar member => weaker scalar (each node nodeMember scalar member)

/-- Induction over waveforms by their children, for statements that no construction changes. -/
theorem children_induction {motive : Waveform → Prop}
    (step : ∀ waveform : Waveform, (∀ child ∈ waveform.children, motive child) → motive waveform)
    (waveform : Waveform) : motive waveform := by
  induction waveform using Waveform.parts_induction with
  | append parts ih => exact step _ ih
  | add left right leftIh rightIh =>
      exact step _ (List.forall_mem_cons.2 ⟨leftIh, List.forall_mem_singleton.2 rightIh⟩)
  | negative inner ih
  | scale _ inner ih
  | slice inner _ ih
  | record _ inner _ ih
  | sample inner _ _ ih
  | smooth inner _ _ ih
  | aligned inner _ _ ih => exact step _ (List.forall_mem_singleton.2 ih)
  | _ => exact step _ (List.forall_mem_nil _)

/-- What holds of all nodes holds of all nodes of each of them. -/
theorem each_inside_node {condition : Waveform → Prop} (waveform : Waveform)
    (each : ∀ node ∈ waveform.nodes, condition node) :
    ∀ node ∈ waveform.nodes, ∀ inside ∈ node.nodes, condition inside := by
  induction waveform using Waveform.children_induction with
  | step waveform ih =>
      rw [each_node_iff (fun node => ∀ inside ∈ node.nodes, condition inside)]
      constructor
      · exact each
      · intro child member
        exact ih child member (((each_node_iff _ _).1 each).2 child member)

def size (waveform : Waveform) : Nat := waveform.nodes.length

def sizes (parts : List Waveform) : Nat := (parts.map size).sum

@[simp] theorem sizes_nil : sizes [] = 0 := rfl

@[simp] theorem sizes_cons (part : Waveform) (rest : List Waveform) :
    sizes (part :: rest) = part.size + sizes rest := by
  rw [sizes, List.map_cons, List.sum_cons, ← sizes]

@[simp] theorem sizes_append (before after : List Waveform) :
    sizes (before ++ after) = sizes before + sizes after := by
  simp [sizes]

theorem sizes_reverse (parts : List Waveform) : sizes parts.reverse = sizes parts := by
  simp [sizes, List.sum_reverse]

theorem size_eq (waveform : Waveform) : waveform.size = 1 + sizes waveform.children := by
  rw [size, nodes_eq, nodes_all_eq, List.length_cons, List.length_flatMap, sizes, add_comm]
  rfl

@[simp] theorem size_constant (value length : Scalar) : (constant value length).size = 1 := rfl

@[simp] theorem size_negative (inner : Waveform) : (negative inner).size = 1 + inner.size := by
  rw [size_eq]
  simp [children]

@[simp] theorem size_add (left right : Waveform) :
    (add left right).size = 1 + (left.size + right.size) := by
  rw [size_eq]
  simp [children]

@[simp] theorem size_scale (factor : Scalar) (inner : Waveform) :
    (scale factor inner).size = 1 + inner.size := by
  rw [size_eq]
  simp [children]

@[simp] theorem size_slice (inner : Waveform) (bounds : Interval) :
    (slice inner bounds).size = 1 + inner.size := by
  rw [size_eq]
  simp [children]

@[simp] theorem size_append (parts : List Waveform) : (append parts).size = 1 + sizes parts :=
  size_eq _

theorem size_pos (waveform : Waveform) : 1 ≤ waveform.size := by
  rw [size_eq]
  exact Nat.le_add_right _ _

theorem sizes_le_of_related {relation : Waveform → Waveform → Prop} {parts others : List Waveform}
    (related : List.Forall₂ relation parts others)
    (smaller : ∀ part ∈ parts, ∀ other, relation part other → other.size ≤ part.size) :
    sizes others ≤ sizes parts := by
  induction related with
  | nil => exact le_rfl
  | cons first _ ih =>
      rw [sizes_cons, sizes_cons]
      exact add_le_add (smaller _ (by simp) _ first) (ih fun part member => smaller part (by simp [member]))

theorem size_lt_of_child {given child : Waveform} (member : child ∈ given.children) :
    child.size < given.size := by
  rw [size_eq given, Nat.lt_one_add_iff]
  exact List.single_le_sum (fun _ _ => Nat.zero_le _) _ (List.mem_map_of_mem member)

end Waveform

end Analog
