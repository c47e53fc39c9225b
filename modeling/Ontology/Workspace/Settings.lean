import Ontology.Loading.Session
import Ontology.Tree.JsonRecord
import Ontology.World.Inference

/-!
# Settings

## Main definitions

* `Settings` — what can be set for loading and for inference.
* `Settings.ofText?`, `Settings.toTree` — settings read from a text and given as data.
-/

namespace Ontology

/-- What can be set for loading and for inference. -/
structure Settings where
  loading : LoadSettings := {}
  inference : InferenceOptions := {}
  deriving DecidableEq, Repr, Inhabited

namespace Settings

/-- The settings for loading. -/
def loadingFields : List (Json.Field LoadSettings) := [
  .text "default_iri" fun s iri => { s with defaultIri := iri },
  .bool "strict_import_iri" fun s strict => { s with strictImportIri := strict }]

/-- The settings for inference. -/
def inferenceFields : List (Json.Field InferenceOptions) := [
  .bool "infer_property_values" fun s values => { s with inferPropertyValues := values },
  .bool "infer_data_property_values" fun s values => { s with inferDataPropertyValues := values },
  .count "max_models" fun s models => { s with maxModels := models },
  .count "max_iterations" fun s iterations => { s with maxIterations := iterations },
  .bool "debug" fun s debug => { s with debug := debug }]

/-- All settings. -/
def fields : List (Json.Field Settings) := [
  .record "loader" loadingFields {} fun s loading => { s with loading := loading },
  .record "reasoner" inferenceFields {} fun s inference => { s with inference := inference }]

/-- The settings that a JSON text gives; what is left out keeps its default. -/
def ofText? (text : String) : Option Settings :=
  Json.ofText? fields {} text

/-- All settings with their names, which are in order. -/
def toTree (s : Settings) : Tree :=
  .object [
    ("loader", .object [
      ("default_iri", .string s.loading.defaultIri),
      ("strict_import_iri", .bool s.loading.strictImportIri)]),
    ("reasoner", .object [
      ("debug", .bool s.inference.debug),
      ("infer_data_property_values", .bool s.inference.inferDataPropertyValues),
      ("infer_property_values", .bool s.inference.inferPropertyValues),
      ("max_iterations", .int s.inference.maxIterations),
      ("max_models", .int s.inference.maxModels)])]

end Settings

end Ontology
