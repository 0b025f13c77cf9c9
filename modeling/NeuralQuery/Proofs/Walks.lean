import NeuralQuery.Proofs.Pinning
import NeuralQuery.Proofs.Placement
import NeuralQuery.Proofs.SingleFault

/-!
# NeuralQuery.Proofs.Walks

Walks over the nodes of a typed query, and what the spans of nodes say about them.

* `Node.Orderly`        : the children lie inside the node, and no two of them overlap.
* `Node.InWrittenOrder` : every child stands behind those listed before it.

A walk meets a node first and then, child by child, what is below it (`descendants_eq`), which is
all that paths lead to (`mem_descendants_iff_at?`). Among orderly nodes it meets nothing twice
(`nodup_descendants`), and it goes from the front of the text to its end just if all children are in
written order (`starts_le_iff`).
-/

namespace NeuralQuery
namespace Typed
namespace Node

theorem outline_eq (depth : Nat) (x : Node) :
    x.outline depth = (depth, x) :: x.children.flatMap (outline (depth + 1)) := by
  cases x with
  | query q =>
    simp [outline, Query.outline, children, List.flatMap_map]
  | version v => rfl
  | network n =>
    rw [children, List.flatMap_map]
    exact congrArg ((depth, network n) :: ·) List.map_eq_flatMap
  | definition d => rfl
  | assertion a => simp [outline, Assertion.outline, children]
  | formula f =>
    cases f <;>
      simp [outline, Formula.outline, children, Formula.outlines_eq_flatMap, List.flatMap_map]
  | arith a =>
    rw [children, List.flatMap_map]
    exact a.outline_eq depth

/-- Induction with a hypothesis for every child, whatever the node. -/
theorem childrenInduct {P : Node → Prop} (h : ∀ x, (∀ y ∈ x.children, P y) → P x) (x : Node) :
    P x := by
  have harith (a : Arith) : P (arith a) := by
    induction a using Arith.operandsInduct with
    | h a ih => exact h _ (List.forall_mem_map.mpr ih)
  have hformula (f : Formula) : P (formula f) := by
    induction f using Formula.inductOn with
    | compare op l r s => exact h _ (by simp [children, harith])
    | connective op fs s ih => exact h _ (List.forall_mem_map.mpr ih)
    | invalid source s => exact h _ (by simp [children])
  have hdefinition (d : Definition) : P (definition d) := h _ (by simp [children])
  have hnetwork (n : Network) : P (network n) :=
    h _ (List.forall_mem_map.mpr fun d _ => hdefinition d)
  have hassertion (a : Assertion) : P (assertion a) := h _ (by simp [children, hformula])
  have hversion (v : Version) : P (version v) := h _ (by simp [children])
  cases x with
  | query q =>
    refine h _ (List.forall_mem_cons.mpr ⟨hversion _, List.forall_mem_append.mpr ⟨?_, ?_⟩⟩)
    · exact List.forall_mem_map.mpr fun n _ => hnetwork n
    · exact List.forall_mem_map.mpr fun a _ => hassertion a
  | version v => exact hversion v
  | network n => exact hnetwork n
  | definition d => exact hdefinition d
  | assertion a => exact hassertion a
  | formula f => exact hformula f
  | arith a => exact harith a

/-- Depths do not change what is walked over. -/
theorem nodes_outline (x : Node) : ∀ depth, (x.outline depth).map Prod.snd = x.descendants := by
  induction x using childrenInduct with
  | h x ih =>
    intro depth
    have hbelow (d : Nat) : (x.outline d).map Prod.snd = x :: x.children.flatMap descendants := by
      rw [outline_eq, List.map_cons, List.map_flatMap]
      exact congrArg (x :: ·) (List.flatMap_congr fun y hy => ih y hy (d + 1))
    exact (hbelow depth).trans (hbelow 0).symm

theorem descendants_eq (x : Node) :
    x.descendants = x :: x.children.flatMap descendants := by
  unfold descendants
  rw [outline_eq, List.map_cons, List.map_flatMap]
  exact congrArg (x :: ·) (List.flatMap_congr fun y _ => nodes_outline y 1)

theorem mem_descendants_iff {x y : Node} :
    y ∈ x.descendants ↔ y = x ∨ ∃ z ∈ x.children, y ∈ z.descendants := by
  rw [descendants_eq, List.mem_cons, List.mem_flatMap]

theorem self_mem_descendants (x : Node) : x ∈ x.descendants :=
  mem_descendants_iff.mpr (.inl rfl)

theorem mem_descendants_of_child {x y z : Node} (hz : z ∈ x.children) (hy : y ∈ z.descendants) :
    y ∈ x.descendants :=
  mem_descendants_iff.mpr (.inr ⟨z, hz, hy⟩)

/-- The walk meets the ends of all paths. -/
theorem mem_descendants_iff_at? {x y : Node} :
    y ∈ x.descendants ↔ ∃ path, x.at? path = some y := by
  induction x using childrenInduct with
  | h x ih =>
    rw [mem_descendants_iff]
    constructor
    · rintro (rfl | ⟨z, hz, hy⟩)
      · exact ⟨[], rfl⟩
      · obtain ⟨i, hi⟩ := List.mem_iff_getElem?.mp hz
        obtain ⟨path, hpath⟩ := (ih z hz).mp hy
        exact ⟨i :: path, by rw [at?, hi, Option.bind_some, hpath]⟩
    · rintro ⟨path, hpath⟩
      cases path with
      | nil => exact .inl (Option.some.inj hpath).symm
      | cons i path =>
        obtain ⟨z, hi, hz⟩ := Option.bind_eq_some_iff.mp hpath
        have hmem := List.mem_of_getElem? hi
        exact .inr ⟨z, hmem, (ih z hmem).mpr ⟨path, hz⟩⟩

theorem descendants_sublist_children {x z : Node} (hz : z ∈ x.children) :
    z.descendants.Sublist (x.children.flatMap descendants) :=
  (List.infix_of_mem_flatten (List.mem_map_of_mem hz)).sublist

/-- The walk from a node is a part of every walk that meets the node. -/
theorem descendants_sublist {x y : Node} (h : y ∈ x.descendants) :
    y.descendants.Sublist x.descendants := by
  induction x using childrenInduct with
  | h x ih =>
    rcases mem_descendants_iff.mp h with rfl | ⟨z, hz, hy⟩
    · exact List.Sublist.refl _
    · rw [descendants_eq x]
      exact ((ih z hz hy).trans (descendants_sublist_children hz)).cons x

/-- The children are met in the order in which they are listed. -/
theorem children_sublist (x : Node) : x.children.Sublist x.descendants := by
  rw [descendants_eq]
  refine List.Sublist.cons x ?_
  induction x.children with
  | nil => exact List.Sublist.refl _
  | cons y ys ih =>
    rw [List.flatMap_cons, descendants_eq y]
    exact (ih.trans (List.sublist_append_right _ _)).cons_cons y

/-! ## Orderly nodes -/

/-- The children lie inside the node, and no two of them overlap. -/
structure Orderly (x : Node) : Prop where
  inside : ∀ y ∈ x.children, y.span.Inside x.span
  apart : x.children.Pairwise fun y z => y.span.stop ≤ z.span.start ∨ z.span.stop ≤ y.span.start

/-- Every child stands behind those listed before it. -/
def InWrittenOrder (x : Node) : Prop :=
  x.children.Pairwise fun y z => y.span.stop ≤ z.span.start

/-- Where children do not overlap, their starts tell their order. -/
theorem Orderly.inWrittenOrder_iff {x : Node} (h : x.Orderly) :
    x.InWrittenOrder ↔ x.children.Pairwise fun y z => y.span.start ≤ z.span.start := by
  constructor
  · intro horder
    refine List.Pairwise.imp_of_mem (fun hy _ hle => ?_) horder
    have hfilled := (h.inside _ hy).filled
    omega
  · intro hstarts
    refine (hstarts.and h.apart).imp_of_mem fun _ hz hle => ?_
    have hfilled := (h.inside _ hz).filled
    omega

/-- Nothing below a node lies outside it. -/
theorem inside_of_mem_descendants {x : Node} (hfilled : x.span.start < x.span.stop)
    (h : ∀ y ∈ x.descendants, y.Orderly) : ∀ y ∈ x.descendants, y.span.Inside x.span := by
  induction x using childrenInduct with
  | h x ih =>
    intro y hy
    rcases mem_descendants_iff.mp hy with rfl | ⟨z, hz, hy⟩
    · exact ⟨rfl, hfilled, Nat.le_refl _, Nat.le_refl _⟩
    · have hzx := (h x x.self_mem_descendants).inside z hz
      have hyz := ih z hz hzx.filled (fun w hw => h w (mem_descendants_of_child hz hw)) y hy
      exact ⟨hyz.file.trans hzx.file, hyz.filled, Nat.le_trans hzx.start hyz.start,
        Nat.le_trans hyz.stop hzx.stop⟩

section
variable {x : Node} (h : ∀ y ∈ x.descendants, y.Orderly)
include h

theorem inside_child {y z : Node} (hz : z ∈ x.children) (hy : y ∈ z.descendants) :
    y.span.Inside z.span :=
  inside_of_mem_descendants ((h x x.self_mem_descendants).inside z hz).filled
    (fun w hw => h w (mem_descendants_of_child hz hw)) y hy

theorem nodup_descendants : x.descendants.Nodup := by
  induction x using childrenInduct with
  | h x ih =>
    rw [descendants_eq, List.nodup_cons, List.nodup_flatMap]
    refine ⟨fun hmem => ?_, fun z hz => ?_, ?_⟩
    · -- a walk from below would be longer than itself
      obtain ⟨z, hz, hx⟩ := List.mem_flatMap.mp hmem
      have hup := (descendants_sublist hx).length_le
      have hdown := (descendants_sublist_children hz).length_le
      rw [descendants_eq x, List.length_cons] at hup
      omega
    · exact ih z hz fun w hw => h w (mem_descendants_of_child hz hw)
    · refine (h x x.self_mem_descendants).apart.imp_of_mem fun hy hz hapart w hwy hwz => ?_
      -- what is inside both has no bytes
      obtain ⟨_, hfilled, hstarty, hstopy⟩ := inside_child h hy hwy
      obtain ⟨_, _, hstartz, hstopz⟩ := inside_child h hz hwz
      omega

/-- The walk follows the text just if all children do. -/
theorem starts_le_iff :
    (x.descendants.Pairwise fun y z => y.span.start ≤ z.span.start) ↔
      ∀ y ∈ x.descendants, y.InWrittenOrder := by
  constructor
  · intro hstarts y hy
    rw [(h y hy).inWrittenOrder_iff]
    exact hstarts.sublist (y.children_sublist.trans (descendants_sublist hy))
  · intro horder
    induction x using childrenInduct with
    | h x ih =>
      rw [descendants_eq, List.pairwise_cons, List.pairwise_flatMap]
      refine ⟨fun y hy => ?_, fun z hz => ?_, ?_⟩
      · obtain ⟨z, hz, hy⟩ := List.mem_flatMap.mp hy
        exact Nat.le_trans ((h x x.self_mem_descendants).inside z hz).start
          (inside_child h hz hy).start
      · exact ih z hz (fun w hw => h w (mem_descendants_of_child hz hw)) fun w hw =>
          horder w (mem_descendants_of_child hz hw)
      · refine List.Pairwise.imp_of_mem (fun hy hz hle v hv w hw => ?_)
          (horder x x.self_mem_descendants)
        obtain ⟨_, hfilled, _, hstop⟩ := inside_child h hy hv
        obtain ⟨_, _, hstart, _⟩ := inside_child h hz hw
        omega

end

end Node
end Typed
end NeuralQuery
