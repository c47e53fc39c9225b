import Mathlib.Algebra.BigOperators.Group.List.Lemmas
import Mathlib.Algebra.Order.BigOperators.Group.List
import Mathlib.Algebra.GroupWithZero.Nat
import Mathlib.Algebra.Order.Group.Nat
import Ontology.Proofs.Hierarchy

/-!
# Searches with a stack

A hierarchy can also be searched with a stack of what is still to be looked at and a set of what has
been looked at.  An entity can lie on the stack several times, and a hierarchy can be cyclic.  The
search ends all the same: a node is looked at once, so what is taken from the stack in the whole
search is bounded by the number of all steps to parents.  Its answer is the one of the search by
layers.

## Main definitions

* `StackSearch` — a search ends with an answer after so many nodes are taken from the stack.
* `outstanding` — the number of steps that have not been taken yet.

## Main results

* `exists_stackSearch` — **every search ends.**
* `StackSearch.answer_iff` — **a search finds its goal exactly if the goal can be reached.**
* `World.hierarchies_reach` — **the hierarchies of every ontology decide what can be reached.**
-/

namespace Ontology

section StackSearch

variable {α : Type} [DecidableEq α] {next : α → List α} {goal : α}

/-- A search for a goal ends with an answer.  The first node of the stack is taken; if it is not the
goal and is new, its successors are put on the stack one by one.  The number counts the nodes that
are taken. -/
inductive StackSearch (next : α → List α) (goal : α) : List α → List α → Nat → Bool → Prop
  | exhausted (visited : List α) : StackSearch next goal [] visited 0 false
  | found (rest visited : List α) : StackSearch next goal (goal :: rest) visited 1 true
  | again {a : α} {rest visited : List α} {taken : Nat} {answer : Bool} (hne : a ≠ goal)
      (hold : a ∈ visited) (hrest : StackSearch next goal rest visited taken answer) :
      StackSearch next goal (a :: rest) visited (taken + 1) answer
  | onward {a : α} {rest visited : List α} {taken : Nat} {answer : Bool} (hne : a ≠ goal)
      (hnew : a ∉ visited)
      (hrest : StackSearch next goal ((next a).reverse ++ rest) (a :: visited) taken answer) :
      StackSearch next goal (a :: rest) visited (taken + 1) answer

/-! ### Searches end -/

/-- The number of the steps from nodes that have not been visited. -/
def outstanding (next : α → List α) (nodes visited : List α) : Nat :=
  ((nodes.filter (· ∉ visited)).map fun a => (next a).length).sum

/-- The steps from a node are taken only once. -/
theorem length_next_add_outstanding_le {nodes visited : List α} {a : α}
    (hnodes : next a ≠ [] → a ∈ nodes) (hnew : a ∉ visited) :
    (next a).length + outstanding next nodes (a :: visited) ≤ outstanding next nodes visited := by
  by_cases ha : a ∈ nodes
  · have hmem : a ∈ nodes.filter (· ∉ visited) := by simp [ha, hnew]
    have hsub : (nodes.filter (· ∉ a :: visited)).Sublist
        ((nodes.filter (· ∉ visited)).erase a) := by
      have hrest : nodes.filter (· ∉ a :: visited) =
          (nodes.filter (· ∉ visited)).filter (· ≠ a) := by
        rw [List.filter_filter]
        exact List.filter_congr fun b _ => by simp
      have hout : a ∉ (nodes.filter (· ∉ visited)).filter (· ≠ a) := by simp
      rw [hrest, ← List.erase_of_not_mem hout]
      exact List.filter_sublist.erase a
    calc (next a).length + outstanding next nodes (a :: visited)
        ≤ (next a).length +
            (((nodes.filter (· ∉ visited)).erase a).map fun b => (next b).length).sum :=
          Nat.add_le_add_left ((hsub.map _).sum_le_sum fun _ _ => Nat.zero_le _) _
      _ = outstanding next nodes visited := List.sum_map_erase (fun b => (next b).length) hmem
  · have hnone : next a = [] := by
      by_contra hsome
      exact ha (hnodes hsome)
    have hsame : nodes.filter (· ∉ a :: visited) = nodes.filter (· ∉ visited) := by
      refine List.filter_congr fun b hb => ?_
      have hba : b ≠ a := fun h => ha (h ▸ hb)
      simp [hba]
    rw [outstanding, hsame, hnone, List.length_nil, Nat.zero_add, outstanding]

/-- **Every search ends,** and takes no more from the stack than there is on it and will be put on
it. -/
theorem exists_stackSearch {nodes : List α} (hnodes : ∀ a, next a ≠ [] → a ∈ nodes) (goal : α)
    (stack visited : List α) : ∃ taken answer, StackSearch next goal stack visited taken answer ∧
      taken ≤ stack.length + outstanding next nodes visited := by
  induction hn : stack.length + outstanding next nodes visited using Nat.strong_induction_on
    generalizing stack visited with
  | _ n ih =>
    subst hn
    cases stack with
    | nil => exact ⟨0, false, .exhausted _, Nat.zero_le _⟩
    | cons a rest =>
      rw [List.length_cons] at ih ⊢
      by_cases hgoal : a = goal
      · exact ⟨1, true, hgoal ▸ .found _ _, by omega⟩
      by_cases hold : a ∈ visited
      · obtain ⟨taken, answer, hrest, hle⟩ := ih _ (by omega) rest visited rfl
        exact ⟨taken + 1, answer, .again hgoal hold hrest, by omega⟩
      · have hstep := length_next_add_outstanding_le (hnodes a) hold
        obtain ⟨taken, answer, hrest, hle⟩ := ih
          (((next a).reverse ++ rest).length + outstanding next nodes (a :: visited))
          (by rw [List.length_append, List.length_reverse]; omega) _ _ rfl
        rw [List.length_append, List.length_reverse] at hle
        exact ⟨taken + 1, answer, .onward hgoal hold hrest, by omega⟩

/-! ### What a search finds -/

omit [DecidableEq α] in
/-- A goal that is found can be reached from the stack. -/
theorem StackSearch.exists_reaching {stack visited : List α} {taken : Nat}
    (h : StackSearch next goal stack visited taken true) :
    ∃ a ∈ stack, Relation.ReflTransGen (fun c d => d ∈ next c) a goal := by
  generalize hfound : true = answer at h
  induction h with
  | exhausted => exact absurd hfound (by simp)
  | found => exact ⟨goal, List.mem_cons_self, .refl⟩
  | again _ _ _ ih =>
    obtain ⟨a, ha, hpath⟩ := ih hfound
    exact ⟨a, List.mem_cons_of_mem _ ha, hpath⟩
  | @onward a rest _ _ _ _ _ _ ih =>
    obtain ⟨b, hb, hpath⟩ := ih hfound
    rcases List.mem_append.mp hb with hnext | hrest
    · exact ⟨a, List.mem_cons_self, .head (List.mem_reverse.mp hnext) hpath⟩
    · exact ⟨b, List.mem_cons_of_mem _ hrest, hpath⟩

/-- A goal that is not found cannot be reached from the stack or from what has been visited.  The
successors of what has been visited have been visited or lie on the stack, all the time. -/
theorem StackSearch.not_reaching {stack visited : List α} {taken : Nat}
    (h : StackSearch next goal stack visited taken false) (hgoal : goal ∉ visited)
    (hvisited : ∀ a ∈ visited, ∀ b ∈ next a, b ∈ visited ∨ b ∈ stack) :
    ∀ a, a ∈ visited ∨ a ∈ stack → ¬Relation.ReflTransGen (fun c d => d ∈ next c) a goal := by
  generalize hanswer : false = answer at h
  induction h with
  | exhausted visited =>
    intro a ha hpath
    have hinside : ∀ b, Relation.ReflTransGen (fun c d => d ∈ next c) a b → b ∈ visited := by
      intro b hb
      induction hb with
      | refl => exact ha.resolve_right List.not_mem_nil
      | tail _ hstep ih => exact (hvisited _ ih _ hstep).resolve_right List.not_mem_nil
    exact hgoal (hinside goal hpath)
  | found => exact absurd hanswer (by simp)
  | @again a rest visited _ _ _ hold _ ih =>
    have hrest : ∀ b, b ∈ visited ∨ b ∈ a :: rest → b ∈ visited ∨ b ∈ rest := by
      intro b hb
      rw [List.mem_cons] at hb
      rcases hb with hb | rfl | hb
      · exact .inl hb
      · exact .inl hold
      · exact .inr hb
    intro b hb
    exact ih hgoal (fun c hc d hd => hrest d (hvisited c hc d hd)) hanswer b (hrest b hb)
  | @onward a rest visited _ _ hne hnew _ ih =>
    have hrest : ∀ b, b ∈ visited ∨ b ∈ a :: rest →
        b ∈ a :: visited ∨ b ∈ (next a).reverse ++ rest := by
      intro b hb
      simp only [List.mem_cons, List.mem_append] at hb ⊢
      tauto
    intro b hb
    refine ih ?_ (fun c hc d hd => ?_) hanswer b (hrest b hb)
    · rw [List.mem_cons, not_or]
      exact ⟨Ne.symm hne, hgoal⟩
    · rcases List.mem_cons.mp hc with rfl | hc
      · exact .inr (List.mem_append_left _ (List.mem_reverse.mpr hd))
      · exact hrest d (hvisited c hc d hd)

/-- **A search finds its goal exactly if the goal can be reached.** -/
theorem StackSearch.answer_iff {start : α} {taken : Nat} {answer : Bool}
    (h : StackSearch next goal [start] [] taken answer) :
    answer = true ↔ Relation.ReflTransGen (fun c d => d ∈ next c) start goal := by
  cases answer with
  | false =>
    have hnone := h.not_reaching List.not_mem_nil (fun a ha => absurd ha List.not_mem_nil) start
      (.inr (List.mem_singleton_self _))
    simp [hnone]
  | true =>
    obtain ⟨a, ha, hpath⟩ := h.exists_reaching
    rw [List.mem_singleton.mp ha] at hpath
    simp [hpath]

/-- **A search with a stack gives the answer of the search by layers,** and takes at most one node
for each step of the graph, and the node where it starts. -/
theorem exists_stackSearch_reaches {nodes : List α} (hnodes : ∀ a, next a ≠ [] → a ∈ nodes)
    {size : Nat} (hsize : nodes.length ≤ size) (start goal : α) :
    ∃ taken ≤ 1 + (nodes.map fun a => (next a).length).sum,
      StackSearch next goal [start] [] taken (reaches next size start goal) := by
  obtain ⟨taken, answer, hsearch, hle⟩ := exists_stackSearch hnodes goal [start] []
  have hanswer : answer = reaches next size start goal :=
    Bool.eq_iff_iff.mpr (hsearch.answer_iff.trans (reaches_iff nodes hnodes hsize).symm)
  have hall : nodes.filter (· ∉ ([] : List α)) = nodes :=
    List.filter_eq_self.mpr fun a _ => by simp
  rw [outstanding, hall] at hle
  exact ⟨taken, hle, hanswer ▸ hsearch⟩

end StackSearch

/-! ### Hierarchies -/

namespace World

variable {w : World}

theorem isPreorder_isSubclassOf (w : World) :
    IsPreorder ClassId fun a b => w.isSubclassOf a b = true where
  refl _ := isSubclassOf_iff.mpr .refl
  trans _ _ _ hab hbc := isSubclassOf_iff.mpr
    ((isSubclassOf_iff.mp hab).trans (isSubclassOf_iff.mp hbc))

theorem isPreorder_isSubpropertyOf (w : World) :
    IsPreorder PropertyId fun p q => w.isSubpropertyOf p q = true where
  refl _ := isSubpropertyOf_iff.mpr .refl
  trans _ _ _ hpq hqr := isSubpropertyOf_iff.mpr
    ((isSubpropertyOf_iff.mp hpq).trans (isSubpropertyOf_iff.mp hqr))

/-- A member of a class is a member of every class above it. -/
theorem isInstanceOf_of_isSubclassOf {i : IndividualId} {a b : ClassId}
    (hi : w.isInstanceOf i a = true) (hab : w.isSubclassOf a b = true) :
    w.isInstanceOf i b = true := by
  rw [isInstanceOf, List.any_eq_true] at hi ⊢
  obtain ⟨c, hc, hca⟩ := hi
  exact ⟨c, hc, (isPreorder_isSubclassOf w).trans c a b hca hab⟩

/-- **The hierarchies of every ontology decide what can be reached,** cyclic ones included.  A class
is below another one exactly if a path of named parents leads there, and a property is below another
one exactly if a path of parents does.  A search with a stack ends with this answer, after it has
taken no more from the stack than there are steps to parents, and the entity where it starts.  So
both relations are preorders, and a member of a class is a member of the classes above it. -/
theorem hierarchies_reach (w : World) :
    (∀ a b, w.isSubclassOf a b = true ↔
      Relation.ReflTransGen (fun c d => .named d ∈ (w.getClass c).isA) a b) ∧
    (∀ p q, w.isSubpropertyOf p q = true ↔
      Relation.ReflTransGen (fun r s => s ∈ (w.getProperty r).parents) p q) ∧
    (∀ a b, ∃ taken ≤ 1 + (w.classIds.map fun c => (w.getClass c).parents.length).sum,
      StackSearch (fun c => (w.getClass c).parents) b [a] [] taken (w.isSubclassOf a b)) ∧
    (∀ p q, ∃ taken ≤ 1 + (w.propertyIds.map fun r => (w.getProperty r).parents.length).sum,
      StackSearch (fun r => (w.getProperty r).parents) q [p] [] taken (w.isSubpropertyOf p q)) ∧
    (IsPreorder ClassId fun a b => w.isSubclassOf a b = true) ∧
    (IsPreorder PropertyId fun p q => w.isSubpropertyOf p q = true) ∧
    ∀ i a b, w.isInstanceOf i a = true → w.isSubclassOf a b = true → w.isInstanceOf i b = true := by
  refine ⟨fun a b => ?_, fun p q => isSubpropertyOf_iff, fun a b => ?_, fun p q => ?_,
    isPreorder_isSubclassOf w, isPreorder_isSubpropertyOf w,
    fun i a b => isInstanceOf_of_isSubclassOf⟩
  · simp only [isSubclassOf_iff, Class.mem_parents]
  · exact exists_stackSearch_reaches (fun _ => mem_classIds_of_parents_ne_nil)
      (by simp [classIds]) a b
  · exact exists_stackSearch_reaches (fun _ => mem_propertyIds_of_parents_ne_nil)
      (by simp [propertyIds]) p q

/-- Two classes that are parents of each other, and a third one above them. -/
def cycle : World where
  iri := "http://example.org/cycle#"
  classes := #[{ name := "Egg", isA := [.named ⟨1⟩] },
    { name := "Hen", isA := [.named ⟨0⟩, .named ⟨2⟩] }, { name := "Bird" }]

example : cycle.isSubclassOf ⟨0⟩ ⟨2⟩ = true ∧ cycle.isSubclassOf ⟨1⟩ ⟨0⟩ = true ∧
    cycle.isSubclassOf ⟨2⟩ ⟨0⟩ = false := by
  decide

end World

end Ontology
