import Mathlib.Data.List.Forall2
import Mathlib.Data.List.Induction
import Mathlib.Data.List.Nodup

/-!
# Lists

What is said here of lists and arrays has to do with ontologies in its uses only.  Two lists are
compared at each of their places, and steps or maps that may fail go along a list.

## Main results

* `forall₂_iff_getElem?`, `forall₂_comp`, `exists_of_forall₂_append` — relations between lists.
* `bind_eq_ok_iff`, `exists_of_foldlM_eq_ok` — steps that may fail, when they do not.
* `invariant_of_foldlM`, `rel_of_foldlM` — what each of these steps preserves, and where they lead.
* `mapM_zipIdx_eq_some`, `mapM_eq_ok`, `exists_of_mapM_eq_error` — maps that may fail.
* `length_filter_lt_of_imp`, `findIdx?_eq_some_of_nodup` — members and elements.
-/

namespace Ontology

/-! ### Relations between lists -/

theorem forall₂_iff_getElem? {α β : Type} {R : α → β → Prop} {as : List α} {bs : List β} :
    List.Forall₂ R as bs ↔ as.length = bs.length ∧
      ∀ (k : Nat) (a : α) (b : β), as[k]? = some a → bs[k]? = some b → R a b := by
  rw [List.forall₂_iff_get]
  constructor
  · rintro ⟨hlen, h⟩
    refine ⟨hlen, fun k a b ha hb => ?_⟩
    obtain ⟨hka, rfl⟩ := List.getElem?_eq_some_iff.mp ha
    obtain ⟨hkb, rfl⟩ := List.getElem?_eq_some_iff.mp hb
    exact h k hka hkb
  · rintro ⟨hlen, h⟩
    exact ⟨hlen, fun k hka hkb =>
      h k _ _ (List.getElem?_eq_getElem hka) (List.getElem?_eq_getElem hkb)⟩

theorem exists_of_forall₂_left {α β : Type} {R : α → β → Prop} {as : List α} {bs : List β}
    (h : List.Forall₂ R as bs) {a : α} (ha : a ∈ as) : ∃ b ∈ bs, R a b := by
  induction h with
  | nil => simp at ha
  | cons hab _ ih =>
    rcases List.mem_cons.mp ha with rfl | ha
    · exact ⟨_, List.mem_cons_self, hab⟩
    · obtain ⟨b, hb, hR⟩ := ih ha
      exact ⟨b, List.mem_cons_of_mem _ hb, hR⟩

theorem exists_of_forall₂_right {α β : Type} {R : α → β → Prop} {as : List α} {bs : List β}
    (h : List.Forall₂ R as bs) {b : β} (hb : b ∈ bs) : ∃ a ∈ as, R a b :=
  exists_of_forall₂_left h.flip hb

theorem forall₂_comp {α β γ : Type} {R : α → β → Prop} {S : β → γ → Prop} {T : α → γ → Prop}
    (hT : ∀ a b c, R a b → S b c → T a c) {as : List α} {bs : List β} {cs : List γ}
    (h : List.Forall₂ R as bs) (h' : List.Forall₂ S bs cs) : List.Forall₂ T as cs := by
  induction h generalizing cs with
  | nil =>
    cases h' with
    | nil => exact .nil
  | cons hR _ ih =>
    cases h' with
    | cons hS h' => exact .cons (hT _ _ _ hR hS) (ih h')

/-- Pairs of a list that is put together are put together in the same way. -/
theorem exists_of_forall₂_append {α β : Type} {R : α → β → Prop} {as as' : List α} {bs : List β}
    (h : List.Forall₂ R (as ++ as') bs) :
    ∃ cs cs', List.Forall₂ R as cs ∧ List.Forall₂ R as' cs' ∧ bs = cs ++ cs' := by
  induction as generalizing bs with
  | nil => exact ⟨[], bs, .nil, h, rfl⟩
  | cons a as ih =>
    cases h with
    | cons hab h =>
      obtain ⟨cs, cs', hcs, hcs', rfl⟩ := ih h
      exact ⟨_ :: cs, cs', .cons hab hcs, hcs', rfl⟩

theorem forall₂_filterMap {α β : Type} (f : α → Option β) (as : List α) :
    List.Forall₂ (fun a b => f a = some b) (as.filter fun a => (f a).isSome) (as.filterMap f) := by
  induction as with
  | nil => exact .nil
  | cons a rest ih =>
    cases h : f a with
    | none => simpa [List.filter_cons, h] using ih
    | some b => simpa [List.filter_cons, h] using ih

/-! ### Steps that may fail -/

theorem exists_of_bind_eq_ok {α β ε : Type} {x : Except ε α} {f : α → Except ε β} {b : β}
    (h : x >>= f = .ok b) : ∃ a, x = .ok a ∧ f a = .ok b := by
  cases x with
  | error e => simp [bind, Except.bind] at h
  | ok a => exact ⟨a, rfl, h⟩

theorem bind_eq_ok_iff {α β ε : Type} {x : Except ε α} {f : α → Except ε β} {b : β} :
    x >>= f = .ok b ↔ ∃ a, x = .ok a ∧ f a = .ok b := by
  refine ⟨exists_of_bind_eq_ok, ?_⟩
  rintro ⟨a, rfl, hf⟩
  exact hf

theorem exists_of_map_eq_ok {α β ε : Type} {x : Except ε α} {f : α → β} {b : β}
    (h : x.map f = .ok b) : ∃ a, x = .ok a ∧ f a = b := by
  cases x with
  | error e => cases h
  | ok a => exact ⟨a, rfl, Except.ok.inj h⟩

/-- A run that has a result is that result. -/
theorem eq_ok_of_isSome {α ε : Type} [Inhabited α] {x : Except ε α}
    (h : x.toOption.isSome = true) : x = .ok (x.toOption.getD default) := by
  cases x with
  | error e => cases h
  | ok a => rfl

/-- A run over two lists has a result if the first one has and the second one has from there. -/
theorem foldlM_append_eq_ok_iff {α σ ε : Type} {f : σ → α → Except ε σ} {as bs : List α}
    {s s' : σ} : (as ++ bs).foldlM f s = .ok s' ↔
      ∃ mid, as.foldlM f s = .ok mid ∧ bs.foldlM f mid = .ok s' := by
  rw [List.foldlM_append]
  exact bind_eq_ok_iff

theorem foldlM_cons_eq_ok_iff {α σ ε : Type} {f : σ → α → Except ε σ} {a : α} {as : List α}
    {s s' : σ} : (a :: as).foldlM f s = .ok s' ↔
      ∃ mid, f s a = .ok mid ∧ as.foldlM f mid = .ok s' := by
  rw [List.foldlM_cons]
  exact bind_eq_ok_iff

/-- Every part of a run that succeeds has succeeded. -/
theorem exists_of_foldlM_eq_ok {α σ ε : Type} {f : σ → α → Except ε σ} {as : List α} {s s' : σ}
    (h : as.foldlM f s = .ok s') {a : α} (ha : a ∈ as) :
    ∃ s₁ s₂, f s₁ a = .ok s₂ := by
  induction as generalizing s with
  | nil => cases ha
  | cons b rest ih =>
    rw [List.foldlM_cons] at h
    obtain ⟨mid, hmid, h⟩ := exists_of_bind_eq_ok h
    rcases List.mem_cons.mp ha with rfl | ha
    · exact ⟨s, mid, hmid⟩
    · exact ih h ha

/-- What each step of a run that succeeds preserves holds at its end. -/
theorem invariant_of_foldlM {α σ ε : Type} {f : σ → α → Except ε σ} {I : σ → Prop} {as : List α}
    {s s' : σ} (hstep : ∀ done a rest s₁ s₂, as = done ++ a :: rest →
      done.foldlM f s = .ok s₁ → I s₁ → f s₁ a = .ok s₂ → I s₂)
    (hs : I s) (h : as.foldlM f s = .ok s') : I s' := by
  induction as using List.reverseRecOn generalizing s' with
  | nil =>
    rw [← Except.ok.inj h]
    exact hs
  | append_singleton done a ih =>
    rw [List.foldlM_append] at h
    obtain ⟨mid, hmid, h⟩ := exists_of_bind_eq_ok h
    rw [List.foldlM_cons] at h
    obtain ⟨last, hlast, h⟩ := exists_of_bind_eq_ok h
    rw [← Except.ok.inj h]
    refine hstep done a [] mid last rfl hmid (ih (fun before b rest s₁ s₂ hdone => ?_) hmid) hlast
    exact hstep before b (rest ++ [a]) s₁ s₂ (by rw [hdone, List.append_assoc, List.cons_append])

/-- A run whose steps each lead on leads from its start to its end. -/
theorem rel_of_foldlM {α σ ε : Type} {R : σ → σ → Prop} (hrefl : ∀ s, R s s)
    (htrans : ∀ s₁ s₂ s₃, R s₁ s₂ → R s₂ s₃ → R s₁ s₃) {f : σ → α → Except ε σ} {as : List α}
    {s s' : σ} (hf : ∀ a ∈ as, ∀ s₁ s₂, R s s₁ → f s₁ a = .ok s₂ → R s₁ s₂)
    (h : as.foldlM f s = .ok s') : R s s' := by
  refine invariant_of_foldlM (I := R s) (fun done a rest s₁ s₂ heq _ hs₁ h => ?_) (hrefl s) h
  have ha : a ∈ as := heq ▸ List.mem_append_right done List.mem_cons_self
  exact htrans s s₁ s₂ hs₁ (hf a ha s₁ s₂ hs₁ h)

/-! ### Maps that may fail -/

theorem mapM_append_eq_ok_iff {α β ε : Type} {f : α → Except ε β} {as bs : List α} {cs : List β} :
    (as ++ bs).mapM f = .ok cs ↔
      ∃ xs ys, as.mapM f = .ok xs ∧ bs.mapM f = .ok ys ∧ xs ++ ys = cs := by
  rw [List.mapM_append]
  constructor
  · intro h
    obtain ⟨xs, hxs, h⟩ := exists_of_bind_eq_ok h
    obtain ⟨ys, hys, h⟩ := exists_of_bind_eq_ok h
    exact ⟨xs, ys, hxs, hys, Except.ok.inj h⟩
  · rintro ⟨xs, ys, hxs, hys, rfl⟩
    rw [hxs, hys]
    rfl

theorem mapM_cons_eq_ok_iff {α β ε : Type} {f : α → Except ε β} {a : α} {as : List α}
    {cs : List β} : (a :: as).mapM f = .ok cs ↔
      ∃ b bs, f a = .ok b ∧ as.mapM f = .ok bs ∧ b :: bs = cs := by
  rw [List.mapM_cons]
  constructor
  · intro h
    obtain ⟨b, hb, h⟩ := exists_of_bind_eq_ok h
    obtain ⟨bs, hbs, h⟩ := exists_of_bind_eq_ok h
    exact ⟨b, bs, hb, hbs, Except.ok.inj h⟩
  · rintro ⟨b, bs, hb, hbs, rfl⟩
    rw [hb, hbs]
    rfl

theorem mapM_zipIdx_eq_some {α β : Type} {f : α × Nat → Option β} :
    ∀ {as : List α} {n : Nat} {bs : List β}, (as.zipIdx n).mapM f = some bs →
      List.Forall₂ (fun a b => ∃ k, f (a, k) = some b) as bs ∧
        ∀ (k : Nat) (a : α), as[k]? = some a → bs[k]? = f (a, n + k) := by
  intro as
  induction as with
  | nil =>
    intro n bs h
    simp only [List.zipIdx_nil, List.mapM_nil, Option.pure_def, Option.some.injEq] at h
    subst h
    exact ⟨.nil, fun k a ha => by simp at ha⟩
  | cons a as ih =>
    intro n bs h
    simp only [List.zipIdx_cons, List.mapM_cons, Option.bind_eq_bind, Option.bind_eq_some_iff,
      Option.pure_def, Option.some.injEq] at h
    obtain ⟨b, hb, bs, hbs, rfl⟩ := h
    obtain ⟨hpoint, hplace⟩ := ih hbs
    refine ⟨.cons ⟨n, hb⟩ hpoint, fun k a' ha' => ?_⟩
    cases k with
    | zero =>
      simp only [List.getElem?_cons_zero, Option.some.injEq] at ha'
      rw [← ha', List.getElem?_cons_zero, Nat.add_zero, hb]
    | succ k =>
      rw [List.getElem?_cons_succ] at ha'
      rw [List.getElem?_cons_succ, hplace k a' ha', show n + 1 + k = n + (k + 1) by omega]

theorem exists_mapM_zipIdx {α β : Type} {f : α × Nat → Option β} :
    ∀ {as : List α} {n : Nat}, (∀ (k : Nat) (a : α), as[k]? = some a → ∃ b, f (a, n + k) = some b) →
      ∃ bs, (as.zipIdx n).mapM f = some bs := by
  intro as
  induction as with
  | nil => intro n _; exact ⟨[], by simp⟩
  | cons a as ih =>
    intro n h
    obtain ⟨b, hb⟩ := h 0 a List.getElem?_cons_zero
    obtain ⟨bs, hbs⟩ := ih (n := n + 1) fun k a' ha' => by
      rw [show n + 1 + k = n + (k + 1) by omega]
      exact h (k + 1) a' (by rw [List.getElem?_cons_succ, ha'])
    rw [Nat.add_zero] at hb
    exact ⟨b :: bs, by simp [List.zipIdx_cons, List.mapM_cons, hb, hbs]⟩

theorem mapM_eq_ok {α β ε : Type} {f : α → Except ε β} :
    ∀ {as : List α} {bs : List β}, as.mapM f = .ok bs →
      List.Forall₂ (fun a b => f a = .ok b) as bs := by
  intro as
  induction as with
  | nil =>
    intro bs h
    rw [List.mapM_nil] at h
    rw [← Except.ok.inj h]
    exact .nil
  | cons a as ih =>
    intro bs h
    rw [List.mapM_cons] at h
    obtain ⟨b, hb, h⟩ := exists_of_bind_eq_ok h
    obtain ⟨rest, hrest, h⟩ := exists_of_bind_eq_ok h
    rw [← Except.ok.inj h]
    exact .cons hb (ih hrest)

theorem exists_mapM_eq_ok {α β ε : Type} {f : α → Except ε β} :
    ∀ {as : List α}, (∀ a ∈ as, ∃ b, f a = .ok b) → ∃ bs, as.mapM f = .ok bs := by
  intro as
  induction as with
  | nil => exact fun _ => ⟨[], rfl⟩
  | cons a as ih =>
    intro h
    obtain ⟨b, hb⟩ := h a List.mem_cons_self
    obtain ⟨bs, hbs⟩ := ih fun a' ha' => h a' (List.mem_cons_of_mem _ ha')
    exact ⟨b :: bs, by simp [List.mapM_cons, hb, hbs]; rfl⟩

theorem mapM_eq_some_of_forall₂ {α β : Type} {f : α → Option β} {as : List α} {bs : List β}
    (h : List.Forall₂ (fun a b => f a = some b) as bs) : as.mapM f = some bs := by
  induction h with
  | nil => rfl
  | cons hab _ ih => simp [List.mapM_cons, hab, ih]

theorem mapM_map_ok {α β γ ε : Type} (f : α → Except ε β) (g : β → γ) (as : List α) :
    as.mapM (fun a => (f a).map g) = (as.mapM f).map (List.map g) := by
  induction as with
  | nil => rfl
  | cons a rest ih =>
    rw [List.mapM_cons, List.mapM_cons, ih]
    cases f a with
    | error e => rfl
    | ok b => cases rest.mapM f <;> rfl

/-- A map that fails has failed for one of the elements. -/
theorem exists_of_mapM_eq_error {α β ε : Type} {f : α → Except ε β} {as : List α} {fault : ε}
    (h : as.mapM f = .error fault) : ∃ a ∈ as, f a = .error fault := by
  induction as with
  | nil => cases h
  | cons a rest ih =>
    rw [List.mapM_cons] at h
    cases ha : f a with
    | error fault' =>
      rw [ha] at h
      cases h
      exact ⟨a, List.mem_cons_self, ha⟩
    | ok b =>
      cases hrest : rest.mapM f with
      | error fault' =>
        rw [ha, hrest] at h
        cases h
        obtain ⟨a', ha', hfault⟩ := ih hrest
        exact ⟨a', List.mem_cons_of_mem a ha', hfault⟩
      | ok bs =>
        rw [ha, hrest] at h
        cases h

/-! ### Members of lists -/

theorem nodup_eraseDups {α : Type} [BEq α] [LawfulBEq α] : ∀ as : List α, as.eraseDups.Nodup
  | [] => List.nodup_nil
  | a :: rest => by
    rw [List.eraseDups_cons, List.nodup_cons]
    refine ⟨?_, nodup_eraseDups _⟩
    simp
termination_by as => as.length
decreasing_by exact Nat.lt_succ_of_le (List.length_filter_le _ _)

theorem eq_of_length_le_one {α : Type} {as : List α} (h : as.length ≤ 1) {a b : α} (ha : a ∈ as)
    (hb : b ∈ as) : a = b := by
  match as with
  | [] => simp at ha
  | [c] => rw [List.mem_singleton.mp ha, List.mem_singleton.mp hb]
  | _ :: _ :: _ => simp at h

theorem length_le_one_of_forall_eq {α : Type} {as : List α} (hnodup : as.Nodup)
    (h : ∀ a ∈ as, ∀ b ∈ as, a = b) : as.length ≤ 1 := by
  match as with
  | [] => simp
  | [c] => simp
  | c :: d :: _ =>
    have hne : c ≠ d := by
      rintro rfl
      simp at hnodup
    exact absurd (h c (by simp) d (by simp)) hne

/-- Fewer members of a list are left if they are left on a stronger condition and one is not. -/
theorem length_filter_lt_of_imp {α : Type} {as : List α} {p q : α → Bool}
    (himp : ∀ a ∈ as, q a = true → p a = true) {a : α} (ha : a ∈ as) (hp : p a = true)
    (hq : q a = false) : (as.filter q).length < (as.filter p).length := by
  have hfilter : as.filter q = (as.filter p).filter q := by
    rw [List.filter_filter]
    refine List.filter_congr fun b hb => ?_
    rw [Bool.eq_iff_iff, Bool.and_eq_true]
    exact ⟨fun hqb => ⟨hqb, himp b hb hqb⟩, And.left⟩
  rw [hfilter]
  have hmem : a ∈ as.filter p := List.mem_filter.mpr ⟨ha, hp⟩
  exact List.length_filter_lt_length_iff_exists.mpr ⟨a, hmem, by simp [hq]⟩

/-- A list with a changed element has elements of the list and a changed one. -/
theorem mem_flatMap_modify {α β : Type} {f : α → α} {g : α → List β} {b : β} :
    ∀ {as : List α} {n : Nat}, b ∈ (as.modify n f).flatMap g →
      b ∈ as.flatMap g ∨ ∃ a ∈ as, b ∈ g (f a)
  | [], n, h => by simp at h
  | a :: rest, 0, h => by
    rw [List.modify_zero_cons, List.flatMap_cons, List.mem_append] at h
    rcases h with h | h
    · exact .inr ⟨a, List.mem_cons_self, h⟩
    · exact .inl (List.mem_append_right _ h)
  | a :: rest, n + 1, h => by
    rw [List.modify_succ_cons, List.flatMap_cons, List.mem_append] at h
    rcases h with h | h
    · exact .inl (List.mem_append_left _ h)
    · rcases mem_flatMap_modify h with h | ⟨c, hc, h⟩
      · exact .inl (List.mem_append_right _ h)
      · exact .inr ⟨c, List.mem_cons_of_mem _ hc, h⟩

/-! ### Elements of arrays -/

/-- The elements of an array stay in their places. -/
theorem getElem?_push_of_eq_some {α : Type} {xs : Array α} {n : Nat} {a : α} (h : xs[n]? = some a)
    (b : α) : (xs.push b)[n]? = some a := by
  obtain ⟨hlt, ha⟩ := Array.getElem?_eq_some_iff.mp h
  rw [Array.getElem?_push_lt hlt, ha]

theorem mem_flatMap_push {α β : Type} {as : Array α} {a : α} {g : α → List β} {b : β} :
    b ∈ (as.push a).toList.flatMap g ↔ b ∈ as.toList.flatMap g ∨ b ∈ g a := by
  rw [Array.toList_push, List.flatMap_append, List.flatMap_singleton, List.mem_append]

section Places

variable {α : Type} {as : Array α} {key : α → String}

/-- With different texts throughout, the first element with the text of an element is this one. -/
theorem findIdx?_eq_some_of_nodup (h : (as.toList.map key).Nodup) {n : Nat} {a : α}
    (ha : as[n]? = some a) : as.findIdx? (key · = key a) = some n := by
  obtain ⟨hn, rfl⟩ := Array.getElem?_eq_some_iff.mp ha
  rw [Array.findIdx?_eq_some_iff_getElem]
  refine ⟨hn, decide_eq_true rfl, fun m hm heq => ?_⟩
  have hsame : (⟨m, by simpa using Nat.lt_trans hm hn⟩ : Fin (as.toList.map key).length) =
      ⟨n, by simpa using hn⟩ := h.get_inj_iff.mp (by simpa using heq)
  exact absurd (Fin.mk.inj hsame) (Nat.ne_of_lt hm)

theorem findIdx?_eq_none_of_notMem {text : String} (h : text ∉ as.toList.map key) :
    as.findIdx? (key · = text) = none := by
  rw [Array.findIdx?_eq_none_iff]
  intro a ha
  exact decide_eq_false fun heq => h (List.mem_map.mpr ⟨a, Array.mem_toList_iff.mpr ha, heq⟩)

end Places

end Ontology
