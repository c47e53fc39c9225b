import Ontology.Rdf.JsonLd
import Ontology.Rdf.N3
import Ontology.Rdf.NTriples
import Ontology.Rdf.RdfXml
import Ontology.Rdf.Turtle

/-!
# Formats of graph files

## Main definitions

* `Format` — the formats that are written, with `Format.write?`, the text of a graph.
* `ImportFormat` — the formats that are read, with `ImportFormat.ofEnding?`, the one of the ending
  of a file name.
-/

namespace Ontology.Rdf

/-- A format of graph files. -/
inductive Format where
  | rdfXml
  | turtle
  | nTriples
  deriving DecidableEq, Repr, Inhabited

namespace Format

/-- The name of a format in commands. -/
def name : Format → String
  | .rdfXml => "rdfxml"
  | .turtle => "turtle"
  | .nTriples => "ntriples"

/-- All formats. -/
def all : List Format := [.rdfXml, .turtle, .nTriples]

/-- The format of a name. -/
def ofName? (name : String) : Option Format :=
  all.find? (·.name = name)

/-- What the names of written files end with. -/
def extension : Format → String
  | .rdfXml => "owl"
  | .turtle => "ttl"
  | .nTriples => "nt"

/-- The triples of a text, in its order. -/
def read? : Format → String → Option (List Triple)
  | .rdfXml => RdfXml.read?
  | .turtle => Turtle.read? false
  | .nTriples => NTriples.read? false

/-- Names for the spaces of ontologies. -/
def spaces : List (String × String) :=
  [("owl", owl.space), ("rdfs", rdfs.space), ("xsd", xsd.space), ("swrl", swrl.space)]

/-- The text of a graph, if the format can hold it. -/
def write? (g : Graph) : Format → Option String
  | .rdfXml => RdfXml.write? g.triples.reverse
  | .turtle => some (Turtle.write spaces g.triples.reverse)
  | .nTriples => some (NTriples.write g.triples.reverse)

end Format

/-- A format of graph files that can be imported. -/
inductive ImportFormat where
  | rdfXml
  | turtle
  | trig
  | n3
  | nTriples
  | nQuads
  | jsonLd
  deriving DecidableEq, Repr, Inhabited

namespace ImportFormat

/-- The endings of file names, in lower case. -/
def endings : List (String × ImportFormat) :=
  [("rdf", .rdfXml), ("xml", .rdfXml), ("ttl", .turtle), ("trig", .trig), ("n3", .n3),
    ("nt", .nTriples), ("txt", .nTriples), ("nq", .nQuads), ("json", .jsonLd), ("jsonld", .jsonLd)]

/-- The format of the end of a file name, which may be in any case unless it is `owl`. -/
def ofEnding? (ending : String) : Option ImportFormat :=
  if ending = "owl" then some .rdfXml else endings.lookup ending.toLower

/-- The usual name of a format. -/
def name : ImportFormat → String
  | .rdfXml => "RDF/XML"
  | .turtle => "Turtle"
  | .trig => "TriG"
  | .n3 => "N3"
  | .nTriples => "N-Triples"
  | .nQuads => "N-Quads"
  | .jsonLd => "JSON-LD"

/-- The triples of a text, those of its graphs among them, in its order. -/
def read? : ImportFormat → String → Option (List Triple)
  | .rdfXml => RdfXml.read?
  | .turtle => Turtle.read? false
  | .trig => Turtle.read? true
  | .n3 => N3.read?
  | .nTriples => NTriples.read? false
  | .nQuads => NTriples.read? true
  | .jsonLd => JsonLd.read?

end ImportFormat

end Ontology.Rdf
