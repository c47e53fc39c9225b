/-!
# YAML tokens

The tokens between the characters of a YAML text and its tree, and the faults that keep a text
from having any.

## Main definitions

* `Yaml.Token` — block and flow structure, keys and values, node properties and scalars.
* `Yaml.Fault` — why a text is no YAML document.
-/

namespace Ontology.Yaml

/-- A token of a YAML text. -/
inductive Token where
  /-- A `%YAML` line. -/
  | version (major minor : Nat)
  /-- A `%TAG` line; the expansion is given in bytes. -/
  | tagHandle (handle : String) (expansion : List UInt8)
  | documentStart
  | documentEnd
  | blockSequenceStart
  | blockMappingStart
  /-- The end of a block sequence or mapping. -/
  | blockEnd
  | flowSequenceStart
  | flowSequenceEnd
  | flowMappingStart
  | flowMappingEnd
  /-- The dash before an item of a block sequence. -/
  | blockEntry
  /-- The comma of a flow collection. -/
  | flowEntry
  /-- What follows is a key. -/
  | key
  /-- What follows is the value of a key. -/
  | value
  | alias (name : String)
  | anchor (name : String)
  /-- A tag, whose suffix is given in bytes; the handle is empty for a tag written in full. -/
  | tag (handle : String) (suffix : List UInt8)
  | scalar (plain : Bool) (text : String)
  deriving DecidableEq, Repr, Inhabited

/-- Why a text is no YAML document. -/
inductive Fault where
  | controlCharacter
  | strayCharacter
  | strayTab
  | missingColon
  | misplacedEntry
  | misplacedKey
  | misplacedValue
  | badDirective
  | badAnchor
  | badTag
  | badBlockHeader
  | badEscape
  | ambiguousColon
  | unclosedQuote
  | unknownHandle
  | unknownAlias
  | tooManyAliases
  | unexpectedToken
  | duplicateKey
  | badScalar
  | nestedTooDeep
  | severalDocuments
  deriving DecidableEq, Repr

/-- What is wrong, in words. -/
def Fault.message : Fault → String
  | .controlCharacter => "control characters are not allowed"
  | .strayCharacter => "found character that cannot start any token"
  | .strayTab => "found a tab character that violates indentation"
  | .missingColon => "could not find expected ':'"
  | .misplacedEntry => "block sequence entries are not allowed in this context"
  | .misplacedKey => "mapping keys are not allowed in this context"
  | .misplacedValue => "mapping values are not allowed in this context"
  | .badDirective => "found an invalid directive"
  | .badAnchor => "did not find expected alphabetic or numeric character"
  | .badTag => "did not find expected tag"
  | .badBlockHeader => "did not find expected comment or line break"
  | .badEscape => "found unknown escape character"
  | .ambiguousColon => "found unexpected ':'"
  | .unclosedQuote => "found unexpected end of stream"
  | .unknownHandle => "found undefined tag handle"
  | .unknownAlias => "unknown anchor"
  | .tooManyAliases => "repetition limit exceeded"
  | .unexpectedToken => "did not find expected node content"
  | .duplicateKey => "duplicate entry"
  | .badScalar => "invalid value"
  | .nestedTooDeep => "recursion limit exceeded"
  | .severalDocuments =>
    "deserializing from YAML containing more than one document is not supported"

end Ontology.Yaml
