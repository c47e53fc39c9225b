import Ontology.Rdf.Iri

/-!
# Language tags

A tag is a list of parts between hyphens: a language, then a script, a region, variants,
extensions and private parts, each at most once in this order.

## Main definitions

* `TagStage` — how far a tag has been read.
* `isLanguageTag` — the text is a well-formed language tag.
-/

namespace Ontology.Rdf

/-- Tags that are valid as a whole. -/
def registeredTags : List String :=
  ["art-lojban", "cel-gaulish", "en-gb-oed", "i-ami", "i-bnn", "i-default", "i-enochian", "i-hak",
    "i-klingon", "i-lux", "i-mingo", "i-navajo", "i-pwn", "i-tao", "i-tay", "i-tsu", "no-bok",
    "no-nyn", "sgn-be-fr", "sgn-be-nl", "sgn-ch-de", "zh-guoyu", "zh-hakka", "zh-min",
    "zh-min-nan", "zh-xiang"]

/-- How far a tag has been read. -/
inductive TagStage where
  /-- Behind a short language; so many extensions of it follow. -/
  | language (extensions : Nat)
  | longLanguage
  | script
  /-- Behind a region or a variant. -/
  | region
  /-- Behind a single letter; `needed` holds until a part follows it. -/
  | extension (needed : Bool)
  | privateUse (needed : Bool)

namespace TagStage

/-- The stage behind a further part. -/
def next? (stage : TagStage) (part : List Char) : Option TagStage :=
  let size := part.length
  let letters := part.all Char.isAlpha
  let early := match stage with
    | .language _ | .longLanguage => true
    | _ => false
  let beforeRegion := match stage with
    | .language _ | .longLanguage | .script => true
    | _ => false
  let beforeVariant := match stage with
    | .language _ | .longLanguage | .script | .region => true
    | _ => false
  if part.isEmpty || 8 < size || !part.all Char.isAlphanum then none
  else
    match stage with
    | .privateUse _ => some (.privateUse false)
    | .extension true =>
      if size = 1 then none else some (.extension false)
    | stage =>
      if part = ['x'] || part = ['X'] then some (.privateUse true)
      else if size = 1 then some (.extension true)
      else
        match stage with
        | .extension _ => some (.extension false)
        | stage =>
          match stage, size = 3 && letters with
          | .language n, true => if n < 3 then some (.language (n + 1)) else none
          | _, _ =>
            if early && size = 4 && letters then some .script
            else if beforeRegion && ((size = 2 && letters) || (size = 3 && part.all Char.isDigit))
            then some .region
            else if beforeVariant
              && ((5 ≤ size && part.head?.any Char.isAlpha)
                || (4 ≤ size && part.head?.any Char.isDigit))
            then some .region
            else none

/-- A tag may end here. -/
def isComplete : TagStage → Bool
  | .extension needed | .privateUse needed => !needed
  | _ => true

/-- Reads the parts behind the language. -/
def accepts (stage : TagStage) : List (List Char) → Bool
  | [] => stage.isComplete
  | part :: rest => (stage.next? part).any (·.accepts rest)

end TagStage

/-- The text is a well-formed language tag. -/
def isLanguageTag (text : String) : Bool :=
  let parts := splitAtChar '-' text.toList
  if registeredTags.contains text.toLower then true
  else
    match parts with
    | [] => false
    | first :: rest =>
      if first = ['x'] || first = ['X'] then TagStage.accepts (.privateUse true) rest
      else
        2 ≤ first.length && first.length ≤ 8 && first.all Char.isAlpha
          && TagStage.accepts (if first.length < 4 then .language 0 else .longLanguage) rest

end Ontology.Rdf
