import Mathlib.Logic.Relation
import Mathlib.Order.Defs.Unbundled
import Ontology.Proofs.Inferred

/-!
# Hierarchies

The hierarchies of classes and of properties are searched layer by layer.  A search has as many
layers as there are entities, which is enough: every layer but the last one holds a node with
successors that no layer before it held.

## Main results

* `reaches_iff` — **a search finds what can be reached, and nothing else.**
* `World.isSubclassOf_iff`, `World.isSubpropertyOf_iff` — the hierarchies as paths to parents.
* `isPartialOrder_of_descending` — steps that only lead down amount to a partial order.
-/

namespace Ontology

/-! ### The layers of a search -/

section Layers

variable {α : Type} [DecidableEq α] {next : α → List α}

theorem subset_closure {layers : Nat} {seen frontier : List α} :
    seen ⊆ closure next layers seen frontier := by
  induction layers generalizing seen frontier with
  | zero => exact fun _ h => h
  | succ layers ih =>
    rw [closure]
    split
    · exact fun _ h => h
    · exact fun a ha => ih (List.mem_append_left _ ha)

/-- What successors inherit holds of everything that is found. -/
theorem forall_mem_closure {P : α → Prop} (hnext : ∀ a, P a → ∀ b ∈ next a, P b) {layers : Nat}
    {seen frontier : List α} (hseen : ∀ a ∈ seen, P a) (hfrontier : frontier ⊆ seen) :
    ∀ a ∈ closure next layers seen frontier, P a := by
  induction layers generalizing seen frontier with
  | zero => exact hseen
  | succ layers ih =>
    rw [closure]
    split
    · exact hseen
    · refine ih (fun a ha => ?_) fun a ha => List.mem_append_right _ ha
      rcases List.mem_append.mp ha with ha | ha
      · exact hseen a ha
      · obtain ⟨b, hb, hab⟩ := List.mem_flatMap.mp (mem_freshNodes.mp ha).1
        exact hnext b (hseen b (hfrontier hb)) a hab

/-- The nodes whose successors have not been looked at yet. -/
def pending (nodes seen frontier : List α) : List α :=
  nodes.filter fun a => a ∉ seen ∨ a ∈ frontier

/-- A layer whose nodes have successors leaves fewer nodes to be looked at. -/
theorem length_pending_lt {nodes seen frontier fresh : List α} {a : α} (ha : a ∈ frontier)
    (hnode : a ∈ nodes) (hfrontier : frontier ⊆ seen) (hfresh : ∀ b ∈ fresh, b ∉ seen) :
    (pending nodes (seen ++ fresh) fresh).length < (pending nodes seen frontier).length := by
  have hseen : a ∈ seen := hfrontier ha
  have hold : a ∉ fresh := fun h => hfresh a h hseen
  -- what is pending afterwards was pending before, and the node of the layer no longer is
  refine length_filter_lt_of_imp (fun b _ hb => ?_) hnode (by simp [ha]) (by simp [hseen, hold])
  simp only [decide_eq_true_eq, List.mem_append] at hb ⊢
  rcases hb with hout | hnew
  · exact .inl fun hin => hout (.inl hin)
  · exact .inl (hfresh b hnew)

/-- With a layer for each node that is pending, the search ends with all successors of what it has
found. -/
theorem next_subset_closure {nodes : List α} (hnodes : ∀ a, next a ≠ [] → a ∈ nodes) {layers : Nat}
    {seen frontier : List α} (hlayers : (pending nodes seen frontier).length ≤ layers)
    (hfrontier : frontier ⊆ seen) (hdone : ∀ a ∈ seen, a ∉ frontier → next a ⊆ seen) :
    ∀ a ∈ closure next layers seen frontier, next a ⊆ closure next layers seen frontier := by
  induction layers generalizing seen frontier with
  | zero =>
    intro a ha
    by_cases hlast : a ∈ frontier
    · -- nothing is pending, so the node has no successors
      have hnone : next a = [] := by
        by_contra hsome
        have hpending : a ∈ pending nodes seen frontier := by
          rw [pending, List.mem_filter]
          exact ⟨hnodes a hsome, by simp [hlast]⟩
        rw [List.eq_nil_of_length_eq_zero (Nat.le_zero.mp hlayers)] at hpending
        exact absurd hpending List.not_mem_nil
      rw [hnone]
      exact List.nil_subset _
    · exact hdone a ha hlast
  | succ layers ih =>
    rw [closure]
    have hcover : ∀ a ∈ frontier, ∀ b ∈ next a,
        b ∈ seen ∨ b ∈ freshNodes seen (frontier.flatMap next) := by
      intro a ha b hb
      by_cases hseen : b ∈ seen
      · exact .inl hseen
      · exact .inr (mem_freshNodes.mpr ⟨List.mem_flatMap.mpr ⟨a, ha, hb⟩, hseen⟩)
    split
    · next hempty =>
      intro a ha b hb
      by_cases hlast : a ∈ frontier
      · rcases hcover a hlast b hb with hseen | hfresh
        · exact hseen
        · rw [List.isEmpty_iff.mp hempty] at hfresh
          exact absurd hfresh List.not_mem_nil
      · exact hdone a ha hlast hb
    · next hempty =>
      -- some node of the frontier has a new successor
      obtain ⟨b, hb⟩ : ∃ b, b ∈ freshNodes seen (frontier.flatMap next) := by
        rw [List.isEmpty_iff] at hempty
        exact List.exists_mem_of_ne_nil _ hempty
      obtain ⟨a, ha, hab⟩ := List.mem_flatMap.mp (mem_freshNodes.mp hb).1
      have hnew : ∀ c ∈ freshNodes seen (frontier.flatMap next), c ∉ seen :=
        fun c hc => (mem_freshNodes.mp hc).2
      have hlt := length_pending_lt ha (hnodes a (List.ne_nil_of_mem hab)) hfrontier hnew
      refine ih (by omega) (fun c hc => List.mem_append_right _ hc) fun c hc hold => ?_
      have hseen : c ∈ seen := (List.mem_append.mp hc).resolve_right hold
      intro d hd
      by_cases hlast : c ∈ frontier
      · exact List.mem_append.mpr (hcover c hlast d hd)
      · exact List.mem_append_left _ (hdone c hseen hlast hd)

/-- **A search finds what can be reached, and nothing else,** in a graph where at most `size` nodes
have successors. -/
theorem reaches_iff {size : Nat} (nodes : List α) (hnodes : ∀ a, next a ≠ [] → a ∈ nodes)
    (hsize : nodes.length ≤ size) {a b : α} :
    reaches next size a b = true ↔ Relation.ReflTransGen (fun c d => d ∈ next c) a b := by
  rw [reaches, decide_eq_true_iff]
  constructor
  · intro hb
    refine forall_mem_closure (P := fun c => Relation.ReflTransGen (fun c d => d ∈ next c) a c)
      (fun c hc d hd => hc.tail hd) (fun c hc => ?_) (fun c hc => hc) b hb
    rw [List.mem_singleton.mp hc]
  · intro hb
    have hlayers : (pending nodes [a] [a]).length ≤ size + 1 :=
      Nat.le_succ_of_le (Nat.le_trans (List.length_filter_le _ _) hsize)
    induction hb with
    | refl => exact subset_closure (List.mem_singleton_self a)
    | tail _ hd ih =>
      exact next_subset_closure hnodes hlayers (fun c hc => hc) (fun c hc hne => absurd hc hne)
        _ ih hd

end Layers

/-! ### Steps that lead down -/

section Descending

variable {α : Type} {r : α → α → Prop} {f : α → Nat}

/-- A path stays where it is or leads down. -/
theorem eq_or_lt_of_descending (h : ∀ a b, r a b → f b < f a) {a b : α}
    (hab : Relation.ReflTransGen r a b) : a = b ∨ f b < f a := by
  induction hab with
  | refl => exact .inl rfl
  | tail _ hstep ih =>
    refine .inr ?_
    rcases ih with rfl | hlt
    · exact h _ _ hstep
    · exact Nat.lt_trans (h _ _ hstep) hlt

/-- Steps that only lead down amount to a partial order. -/
theorem isPartialOrder_of_descending (h : ∀ a b, r a b → f b < f a) :
    IsPartialOrder α (Relation.ReflTransGen r) where
  refl _ := .refl
  trans _ _ _ hab hbc := hab.trans hbc
  antisymm a b hab hba := by
    rcases eq_or_lt_of_descending h hab with heq | hlt
    · exact heq
    rcases eq_or_lt_of_descending h hba with heq | hlt'
    · exact heq.symm
    · exact absurd hlt' (Nat.lt_asymm hlt)

end Descending

/-! ### Hierarchies of an ontology -/

namespace World

variable {w : World}

theorem mem_classIds_of_parents_ne_nil {c : ClassId} (h : (w.getClass c).parents ≠ []) :
    c ∈ w.classIds := by
  rw [classIds, List.mem_map]
  refine ⟨c.index, List.mem_range.mpr ?_, rfl⟩
  by_contra hlt
  rw [getClass, class?, Array.getElem?_eq_none (Nat.le_of_not_lt hlt)] at h
  exact h rfl

theorem mem_propertyIds_of_parents_ne_nil {p : PropertyId} (h : (w.getProperty p).parents ≠ []) :
    p ∈ w.propertyIds := by
  rw [propertyIds, List.mem_map]
  refine ⟨p.index, List.mem_range.mpr ?_, rfl⟩
  by_contra hlt
  rw [getProperty, property?, Array.getElem?_eq_none (Nat.le_of_not_lt hlt)] at h
  exact h rfl

/-- A class is below another one if a path of named parents leads there. -/
theorem isSubclassOf_iff {c d : ClassId} : w.isSubclassOf c d = true ↔
    Relation.ReflTransGen (fun a b => b ∈ (w.getClass a).parents) c d :=
  reaches_iff w.classIds (fun _ => mem_classIds_of_parents_ne_nil) (by simp [classIds])

/-- A property is below another one if a path of parents leads there. -/
theorem isSubpropertyOf_iff {p q : PropertyId} : w.isSubpropertyOf p q = true ↔
    Relation.ReflTransGen (fun a b => b ∈ (w.getProperty a).parents) p q :=
  reaches_iff w.propertyIds (fun _ => mem_propertyIds_of_parents_ne_nil) (by simp [propertyIds])

end World

end Ontology
