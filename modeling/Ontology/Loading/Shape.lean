import Ontology.Loading.Error
import Ontology.Tree.Json

/-!
# The shape of a document

A document is a list of statements, each a mapping with one entry: its keyword and its body.

## Main definitions

* `Shape.statements` — the statements of a document.
* `Shape.baseIri?` — the IRI that a document gives to its ontology.
* `Shape.asMapping`, `Shape.asString`, `Shape.single`, `Shape.stringEntries`, `Shape.listOf`,
  `Shape.required` — parts of a tree that have to be there.
-/

namespace Ontology.Shape

/-- The entries of a mapping; `context` names the place of the mapping in the message. -/
def asMapping (context : String) : Tree → Loading (List (Tree × Tree))
  | .mapping entries => .ok entries
  | t => (LoadFault.expectedMapping context t.render).raise

/-- The text of a string; `context` names its place in the message. -/
def asString (context : String) (t : Tree) : Loading String :=
  t.text?.elim (LoadFault.expectedString context t.render).raise .ok

/-- The text of a key. -/
def keyText : Tree → Loading String
  | .string key => .ok key
  | key => (LoadFault.keyNotString key.render).raise

/-- Why a tree is no mapping with one entry whose key is a string. -/
def singleFault : Tree → LoadFault
  | .mapping [(key, _)] => .keyNotString key.render
  | .mapping entries => .notSingleKey entries.length (Tree.mapping entries).render
  | t => .expectedMapping "single-key mapping" t.render

/-- The key and the value of a mapping with one entry. -/
def single : Tree → Loading (String × Tree)
  | .mapping [(.string key, value)] => .ok (key, value)
  | t => (singleFault t).raise

/-- The entries of a mapping, whose keys have to be strings. -/
def stringEntries (entries : List (Tree × Tree)) : Loading (List (String × Tree)) :=
  entries.mapM fun (key, value) => do return (← keyText key, value)

/-- The items of a sequence; any other value counts as a single item. -/
def listOf : Tree → List Tree
  | .sequence items => items
  | t => [t]

/-- The value of a key that has to be there. -/
def required (key : String) (entries : List (Tree × Tree)) : Loading Tree :=
  (Tree.lookup? entries key).elim
    (LoadFault.keyNotFound key (Tree.mapping entries).render).raise .ok

/-- The keywords and bodies of the statements of a document; an empty document has none. -/
def statements : Tree → Loading (List (String × Tree))
  | .sequence items => items.mapM single
  | .null => .ok []
  | t => (LoadFault.notStatements t.render).raise

/-- The IRI given by the last `iri` statement, if it is a string. -/
def baseIri? (statements : List (String × Tree)) : Option String :=
  (statements.reverse.lookup "iri").bind Tree.text?

end Ontology.Shape
