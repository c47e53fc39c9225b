/-!
# Vocabulary

The IRIs of the fixed classes, properties and datatypes of graphs.
-/

namespace Ontology.Rdf

/-! ### RDF and RDF Schema -/

namespace rdf

def space : String := "http://www.w3.org/1999/02/22-rdf-syntax-ns#"
def type : String := space ++ "type"
def first : String := space ++ "first"
def rest : String := space ++ "rest"
def nil : String := space ++ "nil"
def xmlLiteral : String := space ++ "XMLLiteral"
def langString : String := space ++ "langString"
def li : String := space ++ "li"
def description : String := space ++ "Description"
def statement : String := space ++ "Statement"
def subject : String := space ++ "subject"
def predicate : String := space ++ "predicate"
def object : String := space ++ "object"

end rdf

namespace rdfs

def space : String := "http://www.w3.org/2000/01/rdf-schema#"
def comment : String := space ++ "comment"
def label : String := space ++ "label"
def subClassOf : String := space ++ "subClassOf"
def subPropertyOf : String := space ++ "subPropertyOf"
def domain : String := space ++ "domain"
def range : String := space ++ "range"

end rdfs

/-! ### Datatypes -/

namespace xsd

def space : String := "http://www.w3.org/2001/XMLSchema#"
def string : String := space ++ "string"
def boolean : String := space ++ "boolean"
def integer : String := space ++ "integer"
def decimal : String := space ++ "decimal"
def double : String := space ++ "double"

/-- The datatypes whose values are compared as numbers. -/
def numeric : List String :=
  ["integer", "int", "long", "short", "decimal", "double", "float", "nonNegativeInteger",
    "positiveInteger"].map (space ++ ·)

end xsd

/-! ### Ontologies -/

namespace owl

def space : String := "http://www.w3.org/2002/07/owl#"
def ontology : String := space ++ "Ontology"
def imports : String := space ++ "imports"
def thing : String := space ++ "Thing"
def nothing : String := space ++ "Nothing"
def owlClass : String := space ++ "Class"
def namedIndividual : String := space ++ "NamedIndividual"
def objectProperty : String := space ++ "ObjectProperty"
def datatypeProperty : String := space ++ "DatatypeProperty"
def functionalProperty : String := space ++ "FunctionalProperty"
def inverseFunctionalProperty : String := space ++ "InverseFunctionalProperty"
def symmetricProperty : String := space ++ "SymmetricProperty"
def transitiveProperty : String := space ++ "TransitiveProperty"
def inverseOf : String := space ++ "inverseOf"
def sameAs : String := space ++ "sameAs"
def equivalentClass : String := space ++ "equivalentClass"
def unionOf : String := space ++ "unionOf"
def intersectionOf : String := space ++ "intersectionOf"
def complementOf : String := space ++ "complementOf"
def oneOf : String := space ++ "oneOf"
def restriction : String := space ++ "Restriction"
def onProperty : String := space ++ "onProperty"
def someValuesFrom : String := space ++ "someValuesFrom"
def hasValue : String := space ++ "hasValue"
def allDifferent : String := space ++ "AllDifferent"
def distinctMembers : String := space ++ "distinctMembers"

end owl

/-! ### Rules -/

namespace swrl

def space : String := "http://www.w3.org/2003/11/swrl#"
def imp : String := space ++ "Imp"
def body : String := space ++ "body"
def head : String := space ++ "head"
def ruleVariable : String := space ++ "Variable"
def classAtom : String := space ++ "ClassAtom"
def individualPropertyAtom : String := space ++ "IndividualPropertyAtom"
def datavaluedPropertyAtom : String := space ++ "DatavaluedPropertyAtom"
def sameIndividualAtom : String := space ++ "SameIndividualAtom"
def differentIndividualsAtom : String := space ++ "DifferentIndividualsAtom"
def classPredicate : String := space ++ "classPredicate"
def propertyPredicate : String := space ++ "propertyPredicate"
def argument1 : String := space ++ "argument1"
def argument2 : String := space ++ "argument2"

end swrl

end Ontology.Rdf
