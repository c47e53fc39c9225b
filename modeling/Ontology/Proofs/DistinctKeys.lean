import Ontology.Proofs.Lists
import Ontology.Yaml.Document

/-!
# Keys of mappings

The keys of every mapping in a document differ, at any depth: a text that repeats a key is no
document.

## Main definitions

* `Tree.KeysDiffer` — the keys of each mapping in a tree differ.
* `Yaml.Expanding.Ensures` — what holds of a tree that aliases have been replaced in.

## Main results

* `Yaml.Node.keysDiffer_expand` — what a node stands for has mappings with different keys only.
* `Yaml.keysDiffer_of_document` — **the keys of the mappings in a document differ.**
-/

namespace Ontology

/-- The keys of each mapping in a tree differ, also below keys, items and tags. -/
inductive Tree.KeysDiffer : Tree → Prop where
  | null : KeysDiffer .null
  | bool (b : Bool) : KeysDiffer (.bool b)
  | int (n : Int) : KeysDiffer (.int n)
  | float (x : Binary64) : KeysDiffer (.float x)
  | string (text : String) : KeysDiffer (.string text)
  | sequence {items : List Tree} (h : ∀ t ∈ items, KeysDiffer t) : KeysDiffer (.sequence items)
  | mapping {entries : List (Tree × Tree)}
      (hkeys : entries.Pairwise fun a b => Tree.sameKey a.1 b.1 = false)
      (hbelow : ∀ entry ∈ entries, KeysDiffer entry.1) (h : ∀ entry ∈ entries, KeysDiffer entry.2) :
      KeysDiffer (.mapping entries)
  | tagged (tag : String) {t : Tree} (h : KeysDiffer t) : KeysDiffer (.tagged tag t)

namespace Tree

theorem KeysDiffer.of_mem_mapping {entries : List (Tree × Tree)} {entry : Tree × Tree}
    (h : (Tree.mapping entries).KeysDiffer) (hentry : entry ∈ entries) : entry.2.KeysDiffer := by
  obtain - | - | - | - | - | - | ⟨-, -, hvalues⟩ := h
  exact hvalues entry hentry

/-- A mapping keeps different keys when an entry with another key is put behind the others. -/
theorem pairwise_sameKey_append {entries : List (Tree × Tree)} {key value : Tree}
    (h : entries.Pairwise fun a b => sameKey a.1 b.1 = false) (hkey : hasKey entries key = false) :
    (entries ++ [(key, value)]).Pairwise fun a b => sameKey a.1 b.1 = false := by
  refine List.pairwise_append.mpr ⟨h, List.pairwise_singleton _ _, fun entry hentry b hb => ?_⟩
  rw [List.mem_singleton.mp hb]
  rw [hasKey, List.any_eq_false] at hkey
  simpa using hkey entry hentry

end Tree

namespace Yaml

namespace Expanding

variable {α β : Type} {x : Expanding α} {f : α → Expanding β} {P : α → Prop} {Q : β → Prop}

/-- What is made when aliases are replaced has a property. -/
def Ensures (x : Expanding α) (P : α → Prop) : Prop :=
  ∀ left a left', x.run left = .ok (a, left') → P a

theorem ensures_pure {a : α} (h : P a) : Ensures (pure a : Expanding α) P := by
  intro left b left' hb
  obtain ⟨rfl, -⟩ := Prod.mk.inj (Except.ok.inj hb)
  exact h

theorem ensures_throw {fault : Fault} : Ensures (throw fault : Expanding α) P := by
  intro left a left' h
  cases h

theorem Ensures.bind (hx : x.Ensures P) (hf : ∀ a, P a → (f a).Ensures Q) :
    Ensures (x >>= f) Q := by
  intro left b left' h
  obtain ⟨⟨a, mid⟩, hrun, h⟩ := exists_of_bind_eq_ok h
  exact hf a (hx left a mid hrun) mid b left' h

theorem ensures_true (x : Expanding α) : x.Ensures fun _ => True :=
  fun _ _ _ _ => trivial

theorem ensures_mapM {as : List β} {f : β → Expanding α} (hf : ∀ b, (f b).Ensures P) :
    Ensures (as.mapM f) fun results => ∀ a ∈ results, P a := by
  induction as with
  | nil =>
    rw [List.mapM_nil]
    exact ensures_pure fun _ h => absurd h List.not_mem_nil
  | cons b rest ih =>
    rw [List.mapM_cons]
    refine (hf b).bind fun a ha => ih.bind fun results hresults => ensures_pure ?_
    exact List.forall_mem_cons.mpr ⟨ha, hresults⟩

theorem ensures_foldlM {as : List β} {f : α → β → Expanding α}
    (hf : ∀ a b, P a → (f a b).Ensures P) {a : α} (ha : P a) : Ensures (as.foldlM f a) P := by
  induction as generalizing a with
  | nil => exact ensures_pure ha
  | cons b rest ih =>
    rw [List.foldlM_cons]
    exact (hf a b ha).bind fun _ => ih

end Expanding

open Expanding

/-! ### Scalars -/

theorem keysDiffer_of_integerTree? {text : String} {t : Tree}
    (h : (intOfText? text).bind integerTree? = some (.ok t)) : t.KeysDiffer := by
  obtain ⟨n, -, h⟩ := Option.bind_eq_some_iff.mp h
  rw [integerTree?] at h
  split at h
  · cases h
    exact .int n
  · split at h <;> cases h

theorem keysDiffer_of_plainValue {text : String} {t : Tree} (h : plainValue text = .ok t) :
    t.KeysDiffer := by
  rw [plainValue] at h
  split at h
  · rw [← Except.ok.inj h]
    exact .null
  split at h
  · next b _ =>
    rw [← Except.ok.inj h]
    exact .bool b
  split at h
  · next hint =>
    rw [h] at hint
    exact keysDiffer_of_integerTree? hint
  split at h
  · rw [← Except.ok.inj h]
    exact .string text
  · rw [← Except.ok.inj h]
    cases floatOfText? text with
    | none => exact .string text
    | some x => exact .float x

theorem keysDiffer_of_coreValue {kind text : String} {t : Tree} (h : coreValue kind text = .ok t) :
    t.KeysDiffer := by
  rw [coreValue.eq_def] at h
  extract_lets required at h
  split at h
  · cases hb : boolOfText? text with
    | none =>
      rw [hb] at h
      cases h
    | some b =>
      rw [hb] at h
      rw [← Except.ok.inj h]
      exact .bool b
  · cases hint : (intOfText? text).bind integerTree? with
    | none =>
      rw [hint] at h
      cases h
    | some result =>
      rw [hint, Option.getD_some] at h
      exact keysDiffer_of_integerTree? (h ▸ hint)
  · cases hx : floatOfText? text with
    | none =>
      rw [hx] at h
      cases h
    | some x =>
      rw [hx] at h
      rw [← Except.ok.inj h]
      exact .float x
  · split at h
    · rw [← Except.ok.inj h]
      exact .null
    · cases h
  · rw [← Except.ok.inj h]
    exact .string text

/-- A scalar has no keys. -/
theorem keysDiffer_of_scalarValue {tag : Option Tag} {plain : Bool} {text : String} {t : Tree}
    (h : scalarValue tag plain text = .ok t) : t.KeysDiffer := by
  have huntagged : ∀ t, (if plain then plainValue text else .ok (.string text)) = .ok t →
      t.KeysDiffer := by
    intro t h
    split at h
    · exact keysDiffer_of_plainValue h
    · rw [← Except.ok.inj h]
      exact .string text
  rw [scalarValue.eq_def] at h
  extract_lets untagged at h
  split at h
  · exact huntagged t h
  · next name =>
    obtain ⟨value, hvalue, rfl⟩ := exists_of_map_eq_ok h
    exact .tagged name (huntagged value hvalue)
  · exact keysDiffer_of_coreValue h

/-! ### Nodes -/

theorem keysDiffer_withTag {tag : Option Tag} {t : Tree} (h : t.KeysDiffer) :
    (withTag tag t).KeysDiffer := by
  rw [withTag.eq_def]
  split
  · exact .tagged _ h
  · exact h

namespace Node

theorem ensures_scalarValue (tag : Option Tag) (plain : Bool) (text : String) :
    Ensures (match scalarValue tag plain text with
      | .ok t => pure t
      | .error fault => throw fault) Tree.KeysDiffer := by
  split
  · next t h => exact ensures_pure (keysDiffer_of_scalarValue h)
  · exact ensures_throw

/-- Collections are not expanded where no more of them may be nested. -/
theorem expand_zero (anchors : Anchors) (node : Node) : node.expand anchors 0 = (do
    match ← node.target anchors with
    | .scalar tag plain text =>
      match scalarValue tag plain text with
      | .ok t => return t
      | .error fault => throw fault
    | .alias _ => throw .unknownAlias
    | _ => throw .nestedTooDeep) := by
  delta Node.expand
  refine congrArg (bind (node.target anchors)) (funext fun target => ?_)
  cases target <;> rfl

/-- The parts of a collection are expanded with one level less. -/
theorem expand_succ (anchors : Anchors) (depth : Nat) (node : Node) :
    node.expand anchors (depth + 1) = (do
      match ← node.target anchors with
      | .scalar tag plain text =>
        match scalarValue tag plain text with
        | .ok t => return t
        | .error fault => throw fault
      | .alias _ => throw .unknownAlias
      | .sequence tag items =>
        return withTag tag (.sequence (← items.mapM (Node.expand anchors depth)))
      | .mapping tag entries =>
        let expandEntry (done : List (Tree × Tree)) (entry : Node × Node) := do
          let key ← Node.expand anchors depth entry.1
          if Tree.hasKey done key then throw .duplicateKey
          return done ++ [(key, ← Node.expand anchors depth entry.2)]
        return withTag tag (.mapping (← entries.foldlM expandEntry []))) := by
  delta Node.expand
  refine congrArg (bind (node.target anchors)) (funext fun target => ?_)
  cases target <;> rfl

/-- What a node stands for has mappings with different keys only. -/
theorem keysDiffer_expand (anchors : Anchors) (depth : Nat) (node : Node) :
    (node.expand anchors depth).Ensures Tree.KeysDiffer := by
  induction depth generalizing node with
  | zero =>
    rw [expand_zero]
    refine (ensures_true _).bind fun target _ => ?_
    cases target with
    | scalar tag plain text => exact ensures_scalarValue tag plain text
    | _ => exact ensures_throw
  | succ depth ih =>
    rw [expand_succ]
    refine (ensures_true _).bind fun target _ => ?_
    cases target with
    | scalar tag plain text => exact ensures_scalarValue tag plain text
    | «alias» slot => exact ensures_throw
    | sequence tag items =>
      exact (ensures_mapM ih).bind fun trees h => ensures_pure (keysDiffer_withTag (.sequence h))
    | mapping tag entries =>
      refine Ensures.bind (P := fun entries => Tree.KeysDiffer (.mapping entries)) ?_
        fun entries h => ensures_pure (keysDiffer_withTag h)
      refine ensures_foldlM (fun done entry hdone => ?_) (.mapping .nil (by simp) (by simp))
      -- an entry is put behind those before it unless they have its key
      refine (ih entry.1).bind fun key hkey => ?_
      split
      · exact (ensures_throw (P := fun _ => False)).bind fun _ h => h.elim
      next hfresh =>
      refine (ih entry.2).bind fun value hvalue => ensures_pure ?_
      obtain - | - | - | - | - | - | ⟨hkeys, hbelow, hvalues⟩ := hdone
      exact .mapping (Tree.pairwise_sameKey_append hkeys (by simpa using hfresh))
        (List.forall_mem_append.mpr ⟨hbelow, List.forall_mem_singleton.mpr hkey⟩)
        (List.forall_mem_append.mpr ⟨hvalues, List.forall_mem_singleton.mpr hvalue⟩)

end Node

/-- **The keys of the mappings in a document differ.** -/
theorem keysDiffer_of_document {text : String} {t : Tree} (h : document text = .ok t) :
    t.KeysDiffer := by
  obtain ⟨tokens, -, h⟩ := exists_of_bind_eq_ok h
  obtain ⟨⟨node, last⟩, -, h⟩ := exists_of_bind_eq_ok h
  obtain ⟨⟨tree, left⟩, hrun, h⟩ := exists_of_map_eq_ok h
  rw [← h]
  exact Node.keysDiffer_expand _ _ node _ tree left hrun

end Yaml

end Ontology
