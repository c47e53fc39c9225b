import Ontology.Namespace
import Ontology.Yaml.Token

/-!
# Why a document cannot be loaded

## Main definitions

* `LoadFault` — the causes, with the texts that their messages name.
* `LoadFault.kind` — the family of a cause.
* `LoadError` — a cause with the parts of the document around it; `LoadError.message` is its
  full text.
-/

namespace Ontology

/-- Why a document cannot be loaded.  The fields hold names and rendered parts of the document. -/
inductive LoadFault where
  | badName (error : NameError)
  -- shapes
  | expectedMapping (context found : String)
  | expectedString (context found : String)
  | notStatements (found : String)
  | notSingleKey (count : Nat) (found : String)
  | keyNotString (found : String)
  | keyNotFound (key document : String)
  -- names and keywords
  | notResolvable (found : String)
  | badKeywordValue (keyword found : String)
  | badElement (keyword found : String)
  | badPairValue (found entries : String)
  -- class expressions and properties
  | expectedClassExpression (found : String)
  | expectedClass (found : String)
  | nothingAsType
  | expectedClassName (found : String)
  | expectedIndividual (found : String)
  | expectedProperty (found : String)
  | mixedRange (found : String)
  | expectedCharacteristic (found : String)
  | expectedText (found : String)
  -- facts
  | expectedFacts (found : String)
  | listForFunctional (property range found : String)
  | literalForObject (datatype property : String)
  | unresolvedForObject (property found : String)
  | entityForData (property name : String)
  | outOfRange (literal range property : String)
  | badFactSubject (found : String)
  -- declarations
  | literalAsName (name : String)
  | notIndividual (name : String)
  | notProperty (name : String)
  | missingTypes (name : String)
  | noType (name : String)
  | severalTypes (name : String)
  | expectedClassList (found : String)
  | badProxyFlag (found : String)
  | dataRangeOfClasses (name : String)
  | objectRangeOfDatatypes (name : String)
  | missingInverse (found : String)
  | inverseOfData (name : String)
  -- restrictions
  | badRestrictionSubject (name : String)
  | notRole (name : String)
  | notQuantified (role found : String)
  | badQuantifier (role found : String)
  | valueNotScalar (quantifier found : String)
  | badTarget (name : String)
  | roleAfterInverse (name : String)
  -- relation concepts
  | badConceptName
  | missingAssociatedClasses (name : String)
  | associatedRoles (name : String)
  | expectedMainRole (found : String)
  | notRelationConcept (role : String)
  | expectedRolePairs (role found : String)
  | expectedPropertyRole (found : String)
  | listForRole (property : String)
  -- rules
  | strayRuleText (found : String) (offset : Nat) (source : String)
  | badRule (problem : String) (token : Nat) (source : String)
  | predicateNotClass (name : String)
  | predicateNotProperty (name : String)
  | badRuleArgument (name : String)
  -- imports and files
  | importIriNotString (found : String)
  | remoteImport (iri : String)
  | yamlImport (path : String)
  | unknownFormat (path : String)
  | unreadableImport (path problem : String)
  | importMismatch (declared expected : String)
  | unreadableFile (path : String)
  | yaml (fault : Yaml.Fault)
  deriving DecidableEq, Repr

/-- The families of causes. -/
inductive LoadKind where
  | unknownEntity
  | nameCollision
  | typeMismatch
  | notImplemented
  | yaml
  | io
  | keyNotFound
  | missingKeyword
  | malformed
  | importFailed
  deriving DecidableEq, Repr

/-- The name of a family. -/
def LoadKind.name : LoadKind → String
  | .unknownEntity => "UnknownEntity"
  | .nameCollision => "NameCollision"
  | .typeMismatch => "TypeMismatch"
  | .notImplemented => "NotImplemented"
  | .yaml => "Yaml"
  | .io => "Io"
  | .keyNotFound => "KeyNotFound"
  | .missingKeyword => "MissingKeyword"
  | .malformed => "Malformed"
  | .importFailed => "Import"

namespace LoadFault

/-- The family of a cause. -/
def kind : LoadFault → LoadKind
  | .badName (.unknown _) => .unknownEntity
  | .badName (.collision _) => .nameCollision
  | .notStatements _ | .notSingleKey .. | .keyNotString _ | .notRole _ | .notQuantified ..
  | .badQuantifier .. | .valueNotScalar .. | .roleAfterInverse _ | .badConceptName
  | .strayRuleText .. | .badRule .. => .malformed
  | .keyNotFound .. => .keyNotFound
  | .missingTypes _ | .noType _ | .missingInverse _ | .missingAssociatedClasses _ =>
    .missingKeyword
  | .severalTypes _ | .inverseOfData _ | .associatedRoles _ | .yamlImport _ => .notImplemented
  | .remoteImport _ | .unknownFormat _ | .unreadableImport .. | .importMismatch .. =>
    .importFailed
  | .unreadableFile _ => .io
  | .yaml _ => .yaml
  | _ => .typeMismatch

/-- A cause in words. -/
def message : LoadFault → String
  | .badName error => error.message
  | .expectedMapping context found =>
    "Unexpected type in " ++ context ++ ": expected a mapping, got " ++ found
  | .expectedString context found =>
    "Unexpected type in " ++ context ++ ": expected a string, got " ++ found
  | .notStatements found =>
    "Expected a list of single-key mappings at top level, got: " ++ found
  | .notSingleKey count found =>
    "Expected a mapping with exactly one key, got " ++ toString count ++ ": " ++ found
  | .keyNotString found => "Mapping keys must be strings, got: " ++ found
  | .keyNotFound key document =>
    "Key `" ++ key ++ "` not found in current part of in yaml-file: \ncomplete data:\n"
      ++ document
  | .notResolvable found =>
    "unexpected type of object <" ++ found
      ++ "> in name resolution (expected str, int or float)"
  | .badKeywordValue keyword found =>
    "unexpected type of value in TreeParseFunction " ++ keyword ++ ": " ++ found
  | .badElement keyword found =>
    "Unexpected element in " ++ keyword ++ ": expected a mapping, got " ++ found
  | .badPairValue found entries =>
    "Unexpected type: " ++ found ++ " in key-value pair: " ++ entries
  | .expectedClassExpression found => "Expected a class expression, got " ++ found
  | .expectedClass found => "Expected a class, got `" ++ found ++ "`"
  | .nothingAsType => "owl:Nothing cannot be used as a type"
  | .expectedClassName found => "Expected a class name, got " ++ found
  | .expectedIndividual found => "Expected an individual, got " ++ found
  | .expectedProperty found => "Expected a property, got " ++ found
  | .mixedRange found =>
    "The range of a property must consist either of classes or of datatypes, got " ++ found
  | .expectedCharacteristic found =>
    "Expected one of Functional, InverseFunctional, Symmetric, Transitive, got " ++ found
  | .expectedText found => "Expected a string, got " ++ found
  | .expectedFacts found =>
    "Expected `subject: value` entries below `Facts`, got " ++ found
  | .listForFunctional property range found =>
    "While assigning range-value of functional property `" ++ property
      ++ "`: Expected scalar type from " ++ range ++ " but instead got list: [" ++ found ++ "]"
  | .literalForObject datatype property =>
    "Unable to store value of type " ++ datatype ++ " to ObjectProperty " ++ property
      ++ ". Probably this should be a DataProperty instead."
  | .unresolvedForObject property found =>
    "Unexpected type for property " ++ property ++ ": `" ++ found
      ++ "`. Expected an instance of `owl:Thing` or `<owl:Nothing>`. \n"
      ++ "Probable cause: unresolved key `" ++ found ++ "`."
  | .entityForData property name =>
    "Data property " ++ property ++ " expects a literal, got the entity `" ++ name ++ "`"
  | .outOfRange literal range property =>
    "Value " ++ literal ++ " does not match the range " ++ range ++ " of data property "
      ++ property
  | .badFactSubject found => "The subject of a fact must be an individual, got `" ++ found ++ "`"
  | .literalAsName name => "Expected a name, got the literal " ++ name
  | .notIndividual name => "`" ++ name ++ "` is not an individual"
  | .notProperty name => "`" ++ name ++ "` is not a property"
  | .missingTypes name => "keyword `types` is required for individual `" ++ name ++ "`"
  | .noType name => "individual `" ++ name ++ "` needs at least one type"
  | .severalTypes name => "Not implemented: multiple types for individual `" ++ name ++ "`"
  | .expectedClassList found => "multiple_owl_classes expects a list, got " ++ found
  | .badProxyFlag found =>
    "For the flag __create_proxy_individual only the following values are allowed: "
      ++ "[True, recursive]. Got " ++ found
  | .dataRangeOfClasses name =>
    "The range of data property `" ++ name
      ++ "` must consist of datatypes (int, float, str, bool)"
  | .objectRangeOfDatatypes name =>
    "The range of object property `" ++ name
      ++ "` must consist of classes. Probably this should be a DataProperty instead."
  | .missingInverse found =>
    "keyword `Inverse` is required in owl_inverse_property: " ++ found
  | .inverseOfData name => "Not implemented: inverse of data property `" ++ name ++ "`"
  | .badRestrictionSubject name =>
    "The subject of a restriction must be an individual or a class, got `" ++ name ++ "`"
  | .notRole name => "Unknown key: " ++ name ++ ". Expected role name."
  | .notQuantified role found =>
    "Malformed restriction: role name " ++ role
      ++ " must be followed by a mapping like `some: ...`, got " ++ found
  | .badQuantifier role found =>
    "Malformed restriction: role name " ++ role
      ++ " must be followed by restriction type like `some`. Instead got " ++ found
  | .valueNotScalar quantifier found =>
    "`" ++ quantifier ++ "` expects a single name or literal, got " ++ found
  | .badTarget name => "`" ++ name ++ "` cannot be used as the target of a restriction"
  | .roleAfterInverse name =>
    "A role name is expected after `Inverse:`. Instead got " ++ name ++ "."
  | .badConceptName =>
    "Names of subclasses of `X_RelationConcept` are expected to start with `X_`."
  | .missingAssociatedClasses name =>
    "keyword `X_associatedWithClasses` is required for relation concept `" ++ name ++ "`"
  | .associatedRoles name =>
    "Not implemented: `X_associatedRoles` of relation concept `" ++ name ++ "`"
  | .expectedMainRole found =>
    "Expected a relation concept main role but got `" ++ found ++ "`"
  | .notRelationConcept role => "The range of `" ++ role ++ "` is not a relation concept"
  | .expectedRolePairs role found =>
    "Expected `role: value` mappings for `" ++ role ++ "`, got " ++ found
  | .expectedPropertyRole found => "Expected a property but got `" ++ found ++ "`"
  | .listForRole property =>
    "Relation concept entries take a single value per role, got a list for `" ++ property ++ "`"
  | .strayRuleText found offset source =>
    "Invalid character `" ++ found ++ "` at offset " ++ toString offset ++ " in rule: " ++ source
  | .badRule problem token source =>
    "Malformed SWRL rule (" ++ problem ++ ", token " ++ toString token ++ "): " ++ source
  | .predicateNotClass name => "`" ++ name ++ "` used with one argument must be a class"
  | .predicateNotProperty name => "`" ++ name ++ "` used with two arguments must be a property"
  | .badRuleArgument name =>
    "Rule argument `" ++ name ++ "` must be a variable, an individual or a literal"
  | .importIriNotString found => "`iri` of an import must be a string: " ++ found
  | .remoteImport iri =>
    "Import failed: Remote ontologies are not fetched; provide a `localpath` for " ++ iri
  | .yamlImport path =>
    "Not implemented: Importing YAML ontologies is not supported: " ++ path
  | .unknownFormat path => "Import failed: Unknown RDF format of " ++ path
  | .unreadableImport path problem => "Import failed: " ++ path ++ ": " ++ problem
  | .importMismatch declared expected =>
    "Import failed: There is a mismatch between imported and expected iri: " ++ declared
      ++ " != " ++ expected
  | .unreadableFile path => "Could not read " ++ path ++ ": No such file or directory"
  | .yaml fault => "YAML error: " ++ fault.message

end LoadFault

/-- A part of the document around an error, in its rendered form. -/
inductive LoadContext where
  /-- The mapping whose keywords were being read. -/
  | keywords (document : String)
  /-- The body of the statement. -/
  | statement (document : String)
  deriving DecidableEq, Repr

/-- A context in words. -/
def LoadContext.message : LoadContext → String
  | .keywords document => " while processing dict: " ++ document
  | .statement document =>
    "\n\nThis error occurred while parsing the `inner_dict`: " ++ document ++ "."

/-- A cause with the parts of the document around it, from the inside out. -/
structure LoadError where
  fault : LoadFault
  contexts : List LoadContext := []
  deriving DecidableEq, Repr

namespace LoadError

/-- The full text of an error. -/
def message (e : LoadError) : String :=
  e.contexts.foldl (fun text context => text ++ context.message) e.fault.message

/-- The full text of an error and, one after the other, its texts with fewer parts of the document
around it, down to the cause alone. -/
def texts (e : LoadError) : List String :=
  (List.range (e.contexts.length + 1)).reverse.map fun n =>
    { e with contexts := e.contexts.take n }.message

/-- The error seen from a part of the document around it. -/
def within (e : LoadError) (context : LoadContext) : LoadError :=
  { e with contexts := e.contexts ++ [context] }

end LoadError

instance : Coe LoadFault LoadError := ⟨fun fault => { fault }⟩

/-- Loading, which may fail. -/
abbrev Loading (α : Type) := Except LoadError α

/-- Fails with a cause. -/
def LoadFault.raise {α : Type} (fault : LoadFault) : Loading α :=
  .error { fault }

/-- A result that depends on a name. -/
def Loading.ofNames {α : Type} : Except NameError α → Loading α
  | .ok a => .ok a
  | .error e => (LoadFault.badName e).raise

end Ontology
