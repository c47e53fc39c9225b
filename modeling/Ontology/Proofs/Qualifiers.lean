import Mathlib.Data.List.Basic
import Ontology.Proofs.Loading

/-!
# Qualified names of imported classes

A class of an imported ontology can be named by the IRI of the import or by its qualifier, with the
local name of the class behind it.  All imports share one table of what such names start with, in
the order of the imports, and the oldest start that fits a name decides which import it belongs to.
An older import takes a name away from a younger one where one of its starts begins the name, and
then it does not know the class.

## Main definitions

* `Import.starts` — what the qualified names of an import start with.
* `World.ImportsMatch` — the table is that of the imports, and each of their classes is declared.

## Main results

* `World.IsLoaded.importsMatch` — **imports and their table belong together in loaded ontologies.**
* `World.class_of_iri_iff` — **a name behind an IRI stands for the imported class if and only if
  nothing that an older import is named by begins it.**
-/

namespace Ontology

open LoadSession (Step LeadsTo)

/-- What the qualified names of an import start with. -/
def Import.starts (i : Import) : List String :=
  i.iri :: i.qualifier.toList

/-! ### Splitting names -/

namespace Namespace

variable {ns : Namespace} {name start rest : String} {place place' : Nat}

/-- The import and the local name of a name that begins with a start. -/
def cut? (name : String) (row : String × Nat) : Option (Nat × String) :=
  if row.1.toList.isPrefixOf name.toList then
    some (row.2, String.ofList (name.toList.drop row.1.toList.length))
  else none

theorem splitQualified?_eq (h : ':' ∈ name.toList) :
    ns.splitQualified? name = ns.qualifiers.findSome? (cut? name) :=
  if_pos (List.contains_iff_mem.mpr h)

theorem cut?_eq_none_iff {row : String × Nat} :
    cut? name row = none ↔ ¬row.1.toList <+: name.toList := by
  rw [cut?, ← List.isPrefixOf_iff_prefix]
  split <;> simp_all

/-- A cut name is put together again from its parts. -/
theorem cut?_eq_some_iff :
    cut? name (start, place) = some (place', rest) ↔ place = place' ∧ start ++ rest = name := by
  rw [cut?]
  constructor
  · intro h
    split at h
    · next hstart =>
      obtain ⟨tail, htail⟩ := List.isPrefixOf_iff_prefix.mp hstart
      cases h
      refine ⟨rfl, String.toList_injective ?_⟩
      rw [String.toList_append, String.toList_ofList, ← htail, List.drop_left]
    · cases h
  · rintro ⟨rfl, rfl⟩
    rw [String.toList_append, List.drop_left, String.ofList_toList, if_pos]
    exact List.isPrefixOf_iff_prefix.mpr (List.prefix_append _ _)

end Namespace

namespace World

variable {w w' : World}

/-! ### The table of imports -/

/-- The starts of the names of imports, with the places of the imports. -/
def startsOf (imports : List Import) : List (String × Nat) :=
  imports.zipIdx.flatMap fun (i, place) => i.starts.map (·, place)

theorem startsOf_append_cons (older newer : List Import) (i : Import) :
    ∃ behind, startsOf (older ++ i :: newer) =
      startsOf older ++ (i.iri, older.length) :: behind := by
  simp [startsOf, List.zipIdx_append, Import.starts]

theorem startsOf_append_singleton (imports : List Import) (i : Import) :
    startsOf (imports ++ [i]) = startsOf imports ++ i.starts.map (·, imports.length) := by
  simp [startsOf, List.zipIdx_append]

theorem mem_startsOf {imports : List Import} {start : String} {place : Nat} :
    (start, place) ∈ startsOf imports ↔ ∃ i, imports[place]? = some i ∧ start ∈ i.starts := by
  simp only [startsOf, List.mem_flatMap, List.mem_map, Prod.exists, List.mem_zipIdx_iff_getElem?]
  constructor
  · rintro ⟨i, _, hi, _, hstart, heq⟩
    cases heq
    exact ⟨i, hi, hstart⟩
  · rintro ⟨i, hi, hstart⟩
    exact ⟨i, place, hi, start, hstart, rfl⟩

/-- The table of starts is that of the imports, and the classes that they list are declared. -/
structure ImportsMatch (w : World) : Prop where
  starts : w.names.qualifiers = startsOf w.imports.toList
  lists : ∀ i ∈ w.imports.toList, ∀ row ∈ i.classes, w.Lists (i.qualifier.getD "") row

theorem importsMatch_new (iri : String) : ImportsMatch { iri } where
  starts := rfl
  lists _ hi := absurd hi List.not_mem_nil

/-- Nothing else than an import changes the table. -/
theorem ImportsMatch.congr (hw : w.ImportsMatch) (h : w.IsExtendedBy w')
    (hstarts : w'.names.qualifiers = w.names.qualifiers) (himports : w'.imports = w.imports) :
    w'.ImportsMatch where
  starts := by rw [hstarts, himports, hw.starts]
  lists i hi row hrow := h.lists (hw.lists i (himports ▸ hi) row hrow)

theorem ImportsMatch.addImport (hw : w.ImportsMatch) {i : Import}
    (hi : ∀ row ∈ i.classes, w.Lists (i.qualifier.getD "") row) : (w.addImport i).ImportsMatch := by
  have himports : (w.addImport i).imports.toList = w.imports.toList ++ [i] := Array.toList_push
  refine ⟨?_, fun j hj row hrow => (isExtendedBy_addImport w i).lists ?_⟩
  · rw [himports, startsOf_append_singleton, ← hw.starts, Array.length_toList]
    cases hqualifier : i.qualifier <;>
      simp [World.addImport, Namespace.registerQualifier, Import.starts, hqualifier]
  · rw [himports] at hj
    rcases List.mem_append.mp hj with hj | hj
    · exact hw.lists j hj row hrow
    · cases List.mem_singleton.mp hj
      exact hi row hrow

end World

namespace LoadSession

variable {names : List (String × String)} {s s' : LoadSession}

/-- A step keeps imports and their table together. -/
theorem Step.importsMatch (h : s.Step names s') (hs : s.world.ImportsMatch) :
    s'.world.ImportsMatch := by
  have hkeep := h.isExtendedBy
  cases h with
  | @add a world o ha h =>
    cases a with
    | ontology i =>
      cases h
      exact hs.addImport (ha.table i rfl)
    | _ =>
      -- a declaration leaves qualifiers as they are
      obtain ⟨hnone, -⟩ | ⟨name, e, table, -, hnames, rfl⟩ := Addition.perform_eq_ok h
      · cases hnone
      · obtain ⟨-, rfl⟩ := Namespace.insert_eq_ok_iff.mp hnames
        exact hs.congr hkeep rfl rfl
  | @write x _ _ _ =>
    rw [World.write_eq] at hkeep ⊢
    exact hs.congr hkeep rfl rfl
  | _ => exact hs.congr hkeep rfl rfl

theorem LeadsTo.importsMatch (h : s.LeadsTo names s') (hs : s.world.ImportsMatch) :
    s'.world.ImportsMatch := by
  induction h with
  | refl => exact hs
  | tail _ hstep ih => exact hstep.importsMatch ih

end LoadSession

namespace World

variable {w : World}

/-- **Imports and their table belong together in a loaded ontology.** -/
theorem IsLoaded.importsMatch (h : w.IsLoaded) : w.ImportsMatch := by
  obtain ⟨settings, folder, base, document, h⟩ := h
  obtain ⟨iri, s, rfl, hs⟩ := leadsTo_of_load h
  exact hs.importsMatch (importsMatch_new iri)

/-! ### Names behind IRIs -/

/-- What a name with a colon stands for if nothing is declared under it. -/
theorem lookup?_eq_of_cut {name rest : String} {place : Nat} {i : Import}
    (hnew : w.names.get? name = none) (hsplit : w.names.splitQualified? name = some (place, rest))
    (hi : w.imports.toList[place]? = some i) :
    w.lookup? name = (i.classes.lookup rest).map .class := by
  rw [Array.getElem?_toList] at hi
  simp [lookup?, hnew, hsplit, hi]

theorem ImportsMatch.lists_of_lookup (hw : w.ImportsMatch) {i : Import}
    (hi : i ∈ w.imports.toList) {name : String} {c : ClassId}
    (h : i.classes.lookup name = some c) : w.Lists (i.qualifier.getD "") (name, c) := by
  obtain ⟨before, behind, heq, -⟩ := List.lookup_eq_some_iff.mp h
  exact hw.lists i hi _ (heq ▸ List.mem_append_right _ List.mem_cons_self)

/-- Another import does not list the class where one of its starts begins the name: the class has
one local name only, so the start would be the IRI itself. -/
theorem ImportsMatch.lookup_ne (hw : w.ImportsMatch) {i j : Import} (hi : i ∈ w.imports.toList)
    (hj : j ∈ w.imports.toList) (hiri : j.iri ≠ i.iri) {name rest start : String} {c : ClassId}
    (hc : i.classes.lookup name = some c) (hnew : w.names.get? (i.iri ++ name) = none)
    (hstart : start ∈ j.starts) (heq : start ++ rest = i.iri ++ name) :
    j.classes.lookup rest ≠ some c := by
  intro hrest
  have hlists := hw.lists_of_lookup hj hrest
  obtain rfl : name = rest := (hw.lists_of_lookup hi hc).name.symm.trans hlists.name
  have hown : start = i.iri := by
    have hlist := congrArg String.toList heq
    rw [String.toList_append, String.toList_append] at hlist
    exact String.toList_injective (List.append_cancel_right hlist)
  rcases List.mem_cons.mp hstart with rfl | hqualifier
  · exact hiri hown
  · -- under the qualifier the class is declared
    rw [Option.mem_toList.mp hqualifier, Option.getD_some, hown] at hlists
    exact Option.some_ne_none _ (hlists.declared.symm.trans hnew)

/-- **In a loaded ontology with imports of different IRIs, the IRI of an import with the local name
of one of its classes, unless this is declared, stands for the class if and only if nothing that an
older import is named by begins it.** -/
theorem class_of_iri_iff (h : w.IsLoaded) (hdistinct : (w.imports.toList.map Import.iri).Nodup)
    {older newer : List Import} {i : Import} (himports : w.imports.toList = older ++ i :: newer)
    (hcolon : ':' ∈ i.iri.toList) {name : String} {c : ClassId}
    (hc : i.classes.lookup name = some c) (hnew : w.names.get? (i.iri ++ name) = none) :
    w.lookup? (i.iri ++ name) = some (.class c) ↔
      ∀ j ∈ older, ∀ start ∈ j.starts, ¬start.toList <+: (i.iri ++ name).toList := by
  have hw := h.importsMatch
  have hi : i ∈ w.imports.toList := himports ▸ List.mem_append_right _ List.mem_cons_self
  have hsplit : w.names.splitQualified? (i.iri ++ name) =
      ((startsOf older).findSome? (Namespace.cut? (i.iri ++ name))).or
        (some (older.length, name)) := by
    obtain ⟨behind, htable⟩ := startsOf_append_cons older newer i
    have hown : Namespace.cut? (i.iri ++ name) (i.iri, older.length) = some (older.length, name) :=
      Namespace.cut?_eq_some_iff.mpr ⟨rfl, rfl⟩
    rw [Namespace.splitQualified?_eq (by simp [hcolon]), hw.starts, himports, htable,
      List.findSome?_append, List.findSome?_cons, hown]
  cases hfound : (startsOf older).findSome? (Namespace.cut? (i.iri ++ name)) with
  | none =>
    -- no older start begins the name, so that the IRI decides
    have hplace : w.imports.toList[older.length]? = some i := by rw [himports]; simp
    rw [hfound, Option.none_or] at hsplit
    rw [lookup?_eq_of_cut hnew hsplit hplace, hc]
    refine iff_of_true rfl fun j hj start hstart => ?_
    obtain ⟨place, hplace⟩ := List.mem_iff_getElem?.mp hj
    exact Namespace.cut?_eq_none_iff.mp
      (List.findSome?_eq_none_iff.mp hfound _ (mem_startsOf.mpr ⟨j, hplace, hstart⟩))
  | some part =>
    -- the oldest start that begins the name leads to another import, which does not list the class
    obtain ⟨place, rest⟩ := part
    obtain ⟨⟨start, place'⟩, hrow, hcut⟩ := List.exists_of_findSome?_eq_some hfound
    obtain ⟨rfl, heq⟩ := Namespace.cut?_eq_some_iff.mp hcut
    obtain ⟨j, hj, hstart⟩ := mem_startsOf.mp hrow
    have hjmem : j ∈ older := List.mem_of_getElem? hj
    have hplace : w.imports.toList[place']? = some j := by
      rw [himports, List.getElem?_append_left (List.getElem?_eq_some_iff.mp hj).1, hj]
    rw [hfound, Option.some_or] at hsplit
    rw [lookup?_eq_of_cut hnew hsplit hplace]
    refine iff_of_false (fun hclass => ?_) fun hno => hno j hjmem start hstart ?_
    · obtain ⟨_, hrest, ⟨⟩⟩ := Option.map_eq_some_iff.mp hclass
      have hiri : j.iri ≠ i.iri := by
        rw [himports, List.map_append, List.nodup_append] at hdistinct
        exact hdistinct.2.2 _ (List.mem_map_of_mem hjmem) _ List.mem_cons_self
      exact hw.lookup_ne hi (List.mem_of_getElem? hplace) hiri hc hnew hstart heq hrest
    · rw [← heq, String.toList_append]
      exact List.prefix_append _ _

/-! ### A garden -/

/-- A graph file with one class. -/
def classFile (iri : String) : String :=
  "<" ++ iri ++ "> a <http://www.w3.org/2002/07/owl#Class> ."

/-- The IRI of the first import begins that of the second one, but not that of the third one. -/
def gardenDocument : Tree :=
  .sequence [
    .object [("import", .object [
      ("iri", .string "urn:zoo/"), ("localpath", .string "zoo.ttl"), ("ns", .string "zoo")])],
    .object [("import", .object [
      ("iri", .string "urn:zoo/cats#"), ("localpath", .string "cats.ttl"), ("ns", .string "cat")])],
    .object [("import", .object [
      ("iri", .string "urn:plants#"), ("localpath", .string "plants.ttl")])]]

/-- The folder with the imported files. -/
def gardenFolder : Folder :=
  .ofList [("zoo.ttl", classFile "urn:zoo/Animal"), ("cats.ttl", classFile "urn:zoo/cats#Lynx"),
    ("plants.ttl", classFile "urn:plants#Rose")]

/-- The ontology of the document. -/
def garden : World :=
  (load {} gardenFolder "" gardenDocument).toOption.getD default

theorem load_gardenDocument : load {} gardenFolder "" gardenDocument = .ok garden :=
  eq_ok_of_isSome (by decide +kernel)

/-- The first import of the document. -/
def zoo : Import where
  iri := "urn:zoo/"
  qualifier := some "zoo:"
  source := "zoo.ttl"
  classes := [("Animal", ⟨0⟩)]

/-- The second import of the document. -/
def cats : Import where
  iri := "urn:zoo/cats#"
  qualifier := some "cat:"
  source := "cats.ttl"
  classes := [("Lynx", ⟨1⟩)]

/-- The third import of the document. -/
def plants : Import where
  iri := "urn:plants#"
  source := "plants.ttl"
  classes := [("Rose", ⟨2⟩)]

/-- The imports of the ontology, and two names that are not declared. -/
theorem imports_garden : garden.imports.toList = [zoo, cats, plants] ∧
    garden.names.get? (plants.iri ++ "Rose") = none ∧
    garden.names.get? (cats.iri ++ "Lynx") = none ∧
    garden.lookup? (cats.iri ++ "Lynx") = none := by
  decide +kernel

theorem nodup_imports_garden : (garden.imports.toList.map Import.iri).Nodup := by
  rw [imports_garden.1]
  decide

/-- The rose is found behind its IRI, as no older import is named by anything that begins it, and
the lynx is not, as the IRI of the zoo begins that of the cats. -/
theorem class_of_iri_iff_garden :
    load {} gardenFolder "" gardenDocument = .ok garden ∧
    (garden.imports.toList.map Import.iri).Nodup ∧
    garden.imports.toList = [zoo, cats, plants] ∧
    garden.names.get? (plants.iri ++ "Rose") = none ∧
    garden.names.get? (cats.iri ++ "Lynx") = none ∧
    garden.lookup? (plants.iri ++ "Rose") = some (.class ⟨2⟩) ∧
    garden.lookup? (cats.iri ++ "Lynx") ≠ some (.class ⟨1⟩) := by
  have hloaded : garden.IsLoaded := ⟨_, _, _, _, load_gardenDocument⟩
  obtain ⟨himports, hrose, hlynx, -⟩ := imports_garden
  have hplants : garden.imports.toList = [zoo, cats] ++ plants :: [] := himports
  have hcats : garden.imports.toList = [zoo] ++ cats :: [plants] := himports
  refine ⟨load_gardenDocument, nodup_imports_garden, himports, hrose, hlynx, ?_, fun hfound => ?_⟩
  · refine (class_of_iri_iff hloaded nodup_imports_garden hplants (by decide) rfl hrose).mpr ?_
    decide
  · refine (class_of_iri_iff hloaded nodup_imports_garden hcats (by decide) rfl hlynx).mp hfound
      zoo List.mem_cons_self "urn:zoo/" List.mem_cons_self ?_
    decide

/-- Nothing at all is found behind the IRI of the cats with the name of the lynx, which is one of
their classes. -/
theorem lookup_lynx_garden :
    load {} gardenFolder "" gardenDocument = .ok garden ∧
    (garden.imports.toList.map Import.iri).Nodup ∧
    (∀ i ∈ garden.imports.toList, ':' ∈ i.iri.toList) ∧
    cats ∈ garden.imports.toList ∧ cats.classes.lookup "Lynx" = some ⟨1⟩ ∧
    garden.names.get? (cats.iri ++ "Lynx") = none ∧
    garden.lookup? (cats.iri ++ "Lynx") = none := by
  obtain ⟨himports, -, hnew, hnone⟩ := imports_garden
  refine ⟨load_gardenDocument, nodup_imports_garden, ?_, ?_, rfl, hnew, hnone⟩
  · rw [himports]
    decide
  · rw [himports]
    decide

end World

end Ontology
