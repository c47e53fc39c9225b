import Ontology.Rdf.Term
import Ontology.World

/-!
# The graph of an ontology

Every entity is written as triples with its IRI as the subject.  Class expressions, lists, rules
and groups of different individuals take blank nodes, each made for the place where it stands, so
that no two of them are the same.

## Main definitions

* `Literal.toRdf` — a literal in a graph.
* `World.expressionNode`, `World.expressionTriples` — the node of a class expression and the
  triples around it.
* `World.toGraph` — the graph of an ontology, with or without what has been inferred.
-/

namespace Ontology

open Rdf (Triple Term Resource)

/-- The IRI of a datatype. -/
def Datatype.iri : Datatype → String
  | .int => Rdf.xsd.integer
  | .float => Rdf.xsd.decimal
  | .text => Rdf.xsd.string
  | .bool => Rdf.xsd.boolean

/-- A literal in a graph. -/
def Literal.toRdf (l : Literal) : Rdf.Literal :=
  .typed l.lexical l.datatype.iri

/-- The class that a property with a characteristic belongs to. -/
def Characteristic.iri : Characteristic → String
  | .functional => Rdf.owl.functionalProperty
  | .inverseFunctional => Rdf.owl.inverseFunctionalProperty
  | .symmetric => Rdf.owl.symmetricProperty
  | .transitive => Rdf.owl.transitiveProperty

namespace World

/-- The IRI of the class at a place. -/
def classIri (w : World) (c : ClassId) : String := (w.getClass c).iri

/-- The IRI of the property at a place. -/
def propertyIri (w : World) (p : PropertyId) : String := (w.getProperty p).iri

/-- The IRI of the individual at a place. -/
def individualIri (w : World) (i : IndividualId) : String := (w.getIndividual i).iri

/-! ### Lists -/

/-- The cells of a list of nodes, for a place; `n` cells come before them. -/
def listTriples (path : List Nat) : Nat → List Term → List Triple
  | _, [] => []
  | n, item :: rest =>
    let cell := Resource.blank (.made (n :: 0 :: path))
    let next := if rest.isEmpty then Term.iri Rdf.rdf.nil else .blank (.made ((n + 1) :: 0 :: path))
    ⟨cell, Rdf.rdf.first, item⟩ :: ⟨cell, Rdf.rdf.rest, next⟩ :: listTriples path (n + 1) rest

/-- The first cell of a list of nodes, for a place. -/
def listNode (path : List Nat) (items : List Term) : Term :=
  if items.isEmpty then .iri Rdf.rdf.nil else .blank (.made (0 :: 0 :: path))

/-! ### Class expressions -/

/-- The node of a property read in one direction, for a place. -/
def directionNode (w : World) (path : List Nat) : PropertyExpression → Term
  | .named p => .iri (w.propertyIri p)
  | .inverse _ => .blank (.made (0 :: 2 :: path))

/-- The triple of a property read backwards, for a place. -/
def directionTriples (w : World) (path : List Nat) : PropertyExpression → List Triple
  | .named _ => []
  | .inverse p =>
    [⟨.blank (.made (0 :: 2 :: path)), Rdf.owl.inverseOf, .iri (w.propertyIri p)⟩]

/-- The node of a class expression, for a place. -/
def expressionNode (w : World) (path : List Nat) : ClassExpression → Term
  | .thing => .iri Rdf.owl.thing
  | .nothing => .iri Rdf.owl.nothing
  | .named c => .iri (w.classIri c)
  | _ => .blank (.made path)

/-- The node of a filler, for a place. -/
def fillerNode (w : World) (path : List Nat) : Filler → Term
  | .expression e => w.expressionNode path e
  | .individual i => .iri (w.individualIri i)
  | .literal l => .literal l.toRdf
  | .datatype d => .iri d.iri

/-- The nodes of the parts of an expression; `n` parts come before them. -/
def partNodes (w : World) (path : List Nat) : Nat → List ClassExpression → List Term
  | _, [] => []
  | n, part :: rest => w.expressionNode (n :: 1 :: path) part :: w.partNodes path (n + 1) rest

/-- The triple of a predicate that relates the blank node of a place to a node. -/
def atPlace (path : List Nat) (predicate : String) (object : Term) : Triple :=
  ⟨.blank (.made path), predicate, object⟩

mutual

/-- The triples around the node of a class expression. -/
def expressionTriples (w : World) (path : List Nat) : ClassExpression → List Triple
  | .thing | .nothing | .named _ => []
  | .and parts =>
    let nodes := w.partNodes path 0 parts
    partTriples w path 0 parts ++ listTriples path 0 nodes
      ++ [atPlace path Rdf.rdf.type (.iri Rdf.owl.owlClass),
        atPlace path Rdf.owl.intersectionOf (listNode path nodes)]
  | .or parts =>
    let nodes := w.partNodes path 0 parts
    partTriples w path 0 parts ++ listTriples path 0 nodes
      ++ [atPlace path Rdf.rdf.type (.iri Rdf.owl.owlClass),
        atPlace path Rdf.owl.unionOf (listNode path nodes)]
  | .not inner =>
    expressionTriples w (0 :: 1 :: path) inner
      ++ [atPlace path Rdf.rdf.type (.iri Rdf.owl.owlClass),
        atPlace path Rdf.owl.complementOf (w.expressionNode (0 :: 1 :: path) inner)]
  | .oneOf members =>
    let nodes := members.map fun i => Term.iri (w.individualIri i)
    listTriples path 0 nodes
      ++ [atPlace path Rdf.rdf.type (.iri Rdf.owl.owlClass),
        atPlace path Rdf.owl.oneOf (listNode path nodes)]
  | .restriction property quantifier filler =>
    w.directionTriples path property ++ fillerTriples w (0 :: 1 :: path) filler
      ++ [atPlace path Rdf.rdf.type (.iri Rdf.owl.restriction),
        atPlace path Rdf.owl.onProperty (w.directionNode path property),
        atPlace path
          (match quantifier with
            | .some => Rdf.owl.someValuesFrom
            | .value => Rdf.owl.hasValue)
          (w.fillerNode (0 :: 1 :: path) filler)]
termination_by structural e => e

/-- The triples around the nodes of the parts of an expression. -/
def partTriples (w : World) (path : List Nat) : Nat → List ClassExpression → List Triple
  | _, [] => []
  | n, part :: rest =>
    expressionTriples w (n :: 1 :: path) part ++ partTriples w path (n + 1) rest
termination_by structural _ parts => parts

/-- The triples around the node of a filler. -/
def fillerTriples (w : World) (path : List Nat) : Filler → List Triple
  | .expression e => expressionTriples w path e
  | .individual _ | .literal _ | .datatype _ => []
termination_by structural e => e

end

/-- The triples of a predicate that relates a subject to the node of an expression. -/
def expressionAxiom (w : World) (path : List Nat) (subject predicate : String)
    (e : ClassExpression) : List Triple :=
  w.expressionTriples path e ++ [⟨.iri subject, predicate, w.expressionNode path e⟩]

/-- The triples of a predicate that relates a subject to the nodes of several expressions. -/
def expressionAxioms (w : World) (path : List Nat) (subject predicate : String)
    (es : List ClassExpression) : List Triple :=
  es.zipIdx.flatMap fun (e, n) => w.expressionAxiom (n :: path) subject predicate e

/-! ### Entities -/

/-- The triples of a predicate that relates a subject to texts. -/
def textTriples (subject predicate : String) (texts : List String) : List Triple :=
  texts.map fun text => ⟨.iri subject, predicate, .literal (.plain text)⟩

/-- The IRI of an ontology without the number signs at its end. -/
def ontologyIri (iri : String) : String :=
  String.ofList (iri.toList.reverse.dropWhile (· = '#')).reverse

/-- The ontology with its comments and imports. -/
def headerTriples (w : World) : List Triple :=
  let subject := ontologyIri w.iri
  ⟨.iri subject, Rdf.rdf.type, .iri Rdf.owl.ontology⟩
    :: textTriples subject Rdf.rdfs.comment w.comments
    ++ w.imports.toList.map fun i =>
      ⟨.iri subject, Rdf.owl.imports, .iri (ontologyIri i.iri)⟩

/-- A class; imported ones are not described again. -/
def classTriples (w : World) (c : ClassId) : List Triple :=
  let d := w.getClass c
  if d.imported then []
  else
    ⟨.iri d.iri, Rdf.rdf.type, .iri Rdf.owl.owlClass⟩
      :: w.expressionAxioms [c.index, 0] d.iri Rdf.rdfs.subClassOf d.isA
      ++ w.expressionAxioms [c.index, 1] d.iri Rdf.owl.equivalentClass d.equivalentTo
      ++ textTriples d.iri Rdf.rdfs.comment d.comments
      ++ textTriples d.iri Rdf.rdfs.label d.labels

/-- The range of a property; several datatypes are joined by a union. -/
def rangeTriples (w : World) (path : List Nat) (subject : String) :
    PropertyRange → List Triple
  | .classes classes => w.expressionAxioms path subject Rdf.rdfs.range classes
  | .datatypes [] => []
  | .datatypes [d] => [⟨.iri subject, Rdf.rdfs.range, .iri d.iri⟩]
  | .datatypes several =>
    let nodes := several.map fun d => Term.iri d.iri
    listTriples (0 :: path) 0 nodes
      ++ [atPlace (0 :: path) Rdf.owl.unionOf (listNode (0 :: path) nodes),
        ⟨.iri subject, Rdf.rdfs.range, .blank (.made (0 :: path))⟩]

/-- A property. -/
def propertyTriples (w : World) (p : PropertyId) : List Triple :=
  let d := w.getProperty p
  let kind := match d.kind with
    | .object => Rdf.owl.objectProperty
    | .data => Rdf.owl.datatypeProperty
  ⟨.iri d.iri, Rdf.rdf.type, .iri kind⟩
    :: (d.characteristics.toList.map fun c => ⟨.iri d.iri, Rdf.rdf.type, .iri c.iri⟩)
    ++ w.expressionAxioms [p.index, 2] d.iri Rdf.rdfs.domain d.domain
    ++ w.rangeTriples [p.index, 3] d.iri d.range
    ++ (d.inverseOf.toList.map fun q =>
      ⟨.iri d.iri, Rdf.owl.inverseOf, .iri (w.propertyIri q)⟩)
    ++ (d.parents.map fun q =>
      ⟨.iri d.iri, Rdf.rdfs.subPropertyOf, .iri (w.propertyIri q)⟩)
    ++ textTriples d.iri Rdf.rdfs.comment d.comments
    ++ textTriples d.iri Rdf.rdfs.label d.labels

/-- The node of a value, for a place. -/
def valueNode (w : World) (path : List Nat) : Value → Term
  | .individual i => .iri (w.individualIri i)
  | .expression e => w.expressionNode path e
  | .literal l => .literal l.toRdf

/-- The triples around the node of a value. -/
def valueTriples (w : World) (path : List Nat) : Value → List Triple
  | .expression e => w.expressionTriples path e
  | .individual _ | .literal _ => []

/-- The values of an individual. -/
def factTriples (w : World) (path : List Nat) (subject : String) (facts : Assertions) :
    List Triple :=
  facts.toList.zipIdx.flatMap fun ((p, v), n) =>
    w.valueTriples (n :: path) v
      ++ [⟨.iri subject, w.propertyIri p, w.valueNode (n :: path) v⟩]

/-- An individual.  That it is a thing is not said again. -/
def individualTriples (w : World) (inferred : Bool) (i : IndividualId) : List Triple :=
  let d := w.getIndividual i
  ⟨.iri d.iri, Rdf.rdf.type, .iri Rdf.owl.namedIndividual⟩
    :: w.expressionAxioms [i.index, 4] d.iri Rdf.rdf.type (d.isA.filter (· ≠ .thing))
    ++ w.factTriples [i.index, 5] d.iri d.facts
    ++ if inferred then
        (d.inferredTypes.map fun c => ⟨.iri d.iri, Rdf.rdf.type, .iri (w.classIri c)⟩)
          ++ w.factTriples [i.index, 6] d.iri d.inferredFacts
      else []

/-- A group of pairwise different individuals. -/
def differentTriples (w : World) (n : Nat) (group : List IndividualId) : List Triple :=
  let path := [0, n, 7]
  let nodes := group.map fun i => Term.iri (w.individualIri i)
  listTriples path 0 nodes
    ++ [atPlace path Rdf.rdf.type (.iri Rdf.owl.allDifferent),
      atPlace path Rdf.owl.distinctMembers (listNode path nodes)]

/-! ### Rules -/

/-- The node of an argument. -/
def argumentNode (w : World) : Argument → Term
  | .variable name => .iri ("urn:swrl:var#" ++ name)
  | .individual i => .iri (w.individualIri i)
  | .literal l => .literal l.toRdf

/-- The argument of an atom, with the type of a variable. -/
def argumentTriples (w : World) (path : List Nat) (predicate : String) (a : Argument) :
    List Triple :=
  atPlace path predicate (w.argumentNode a)
    :: match a with
      | .variable name =>
        [⟨.iri ("urn:swrl:var#" ++ name), Rdf.rdf.type, .iri Rdf.swrl.ruleVariable⟩]
      | .individual _ | .literal _ => []

/-- An atom of a rule, for a place. -/
def atomTriples (w : World) (path : List Nat) : Atom → List Triple
  | .type c a =>
    atPlace path Rdf.rdf.type (.iri Rdf.swrl.classAtom)
      :: atPlace path Rdf.swrl.classPredicate (.iri (w.classIri c))
      :: w.argumentTriples path Rdf.swrl.argument1 a
  | .fact p s o =>
    let kind := match (w.getProperty p).kind with
      | .object => Rdf.swrl.individualPropertyAtom
      | .data => Rdf.swrl.datavaluedPropertyAtom
    atPlace path Rdf.rdf.type (.iri kind)
      :: atPlace path Rdf.swrl.propertyPredicate (.iri (w.propertyIri p))
      :: w.argumentTriples path Rdf.swrl.argument1 s
      ++ w.argumentTriples path Rdf.swrl.argument2 o
  | .same a b =>
    atPlace path Rdf.rdf.type (.iri Rdf.swrl.sameIndividualAtom)
      :: w.argumentTriples path Rdf.swrl.argument1 a
      ++ w.argumentTriples path Rdf.swrl.argument2 b
  | .different a b =>
    atPlace path Rdf.rdf.type (.iri Rdf.swrl.differentIndividualsAtom)
      :: w.argumentTriples path Rdf.swrl.argument1 a
      ++ w.argumentTriples path Rdf.swrl.argument2 b

/-- A list of atoms, for a place. -/
def atomListTriples (w : World) (path : List Nat) (atoms : List Atom) : List Triple :=
  (atoms.zipIdx.flatMap fun (a, n) => w.atomTriples (n :: 1 :: path) a)
    ++ listTriples path 0 (atoms.zipIdx.map fun (_, n) => Term.blank (.made (n :: 1 :: path)))

/-- The first cell of a list of atoms. -/
def atomListNode (path : List Nat) (atoms : List Atom) : Term :=
  if atoms.isEmpty then .iri Rdf.rdf.nil else .blank (.made (0 :: 0 :: path))

/-- A rule. -/
def ruleTriples (w : World) (n : Nat) (r : Rule) : List Triple :=
  let path := [0, n, 8]
  atPlace path Rdf.rdf.type (.iri Rdf.swrl.imp)
    :: atPlace path Rdf.rdfs.label (.literal (.plain r.name))
    :: (r.label.toList.map fun label => atPlace path Rdf.rdfs.comment (.literal (.plain label)))
    ++ w.atomListTriples (0 :: 3 :: path) r.body
    ++ w.atomListTriples (0 :: 4 :: path) r.head
    ++ [atPlace path Rdf.swrl.body (atomListNode (0 :: 3 :: path) r.body),
      atPlace path Rdf.swrl.head (atomListNode (0 :: 4 :: path) r.head)]

/-- The graph of an ontology; with `inferred` it also holds the inferred types and values. -/
def toGraph (w : World) (inferred : Bool) : Rdf.Graph :=
  .ofList <|
    w.headerTriples
      ++ w.classIds.flatMap w.classTriples
      ++ w.propertyIds.flatMap w.propertyTriples
      ++ w.individualIds.flatMap (w.individualTriples inferred)
      ++ (w.differentIndividuals.zipIdx.flatMap fun (group, n) => w.differentTriples n group)
      ++ (w.rules.toList.zipIdx.flatMap fun (r, n) => w.ruleTriples n r)

end World

end Ontology
