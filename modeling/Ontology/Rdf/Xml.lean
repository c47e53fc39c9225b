import Ontology.Tree.JsonReader

/-!
# XML documents

A document is read as a list of events: tags that open and close elements, texts and document
types.  Names and texts stay as they were written, since their entities depend on the document
type; every opening tag comes with the spaces that its prefixes stand for.

## Main definitions

* `Markup` — a tag or a text, and `takeMarkup?`, the one that a document starts with.
* `Spaces` — the spaces of prefixes, and `elementName?`, `attributeName?`, the names they give.
* `Event`, `events?` — the events of a document.
* `unescape?` — a text with its entities replaced.
-/

namespace Ontology.Xml

/-- A blank or a line end. -/
def isSpace (c : Char) : Bool :=
  c = ' ' || c = '\t' || c = '\n' || c = '\r'

/-! ### Texts -/

/-- The entities that every document knows. -/
def standardEntities : List (String × String) :=
  [("lt", "<"), ("gt", ">"), ("amp", "&"), ("quot", "\""), ("apos", "'")]

/-- The character of a number between an ampersand with a number sign and a semicolon. -/
def numberedChar? (digits : List Char) : Option Char := do
  let n ← match digits with
    | 'x' :: hex => if hex.isEmpty then none else Tree.hexNumber? hex
    | digits => if digits.all Char.isDigit then (String.ofList digits).toNat? else none
  if n ≠ 0 ∧ n.isValidChar then some (Char.ofNat n) else none

/-- A text with its entities replaced.  `name` holds the name of the entity whose end is being
looked for, last character first. -/
def unescapeFrom? (entities : List (String × String)) (name : Option (List Char)) :
    List Char → Option (List Char)
  | [] => if name.isNone then some [] else none
  | c :: rest =>
    match name with
    | none =>
      if c = '&' then unescapeFrom? entities (some []) rest
      else (unescapeFrom? entities none rest).map (c :: ·)
    | some name =>
      if c = '&' then none
      else if c ≠ ';' then unescapeFrom? entities (some (c :: name)) rest
      else do
        let found ← match name.reverse with
          | '#' :: digits => (numberedChar? digits).map fun c => [c]
          | name => (entities.lookup (String.ofList name)).map String.toList
        return found ++ (← unescapeFrom? entities none rest)

/-- A text with its entities replaced. -/
def unescape? (entities : List (String × String)) (text : String) : Option String :=
  (unescapeFrom? entities none text.toList).map String.ofList

/-- How one character of a text is written. -/
def escapeChar : Char → String
  | '<' => "&lt;"
  | '>' => "&gt;"
  | '&' => "&amp;"
  | '"' => "&quot;"
  | c => c.toString

/-- A text without marks. -/
def escape (text : String) : String :=
  String.join (text.toList.map escapeChar)

/-! ### Markup -/

/-- A tag or a text as it was written. -/
inductive Markup where
  | opening (name : String) (attributes : List (String × String)) (isEmpty : Bool)
  | closing (name : String)
  | text (written : String)
  /-- A text whose marks stand for themselves. -/
  | data (text : String)
  | documentType (text : String)
  /-- A comment or an instruction. -/
  | remark
  deriving DecidableEq, Repr

/-- What stands before a text, and what stands behind it. -/
def takeUntil? (stop : List Char) (seen cs : List Char) : Option (List Char × List Char) :=
  if stop.isPrefixOf cs then some (seen.reverse, cs.drop stop.length)
  else
    match cs with
    | [] => none
    | c :: rest => takeUntil? stop (c :: seen) rest

/-- What stands in a tag: all before the first bracket that is not between quotes. -/
def takeTag? (quote : Option Char) (seen : List Char) : List Char → Option (List Char × List Char)
  | [] => none
  | c :: rest =>
    match quote with
    | some q => takeTag? (if c = q then none else some q) (c :: seen) rest
    | none =>
      if c = '>' then some (seen.reverse, rest)
      else takeTag? (if c = '"' || c = '\'' then some c else none) (c :: seen) rest

/-- What stands in a document type: all before the bracket that closes it. -/
def takeBalanced? (depth : Nat) (seen : List Char) : List Char → Option (List Char × List Char)
  | [] => none
  | c :: rest =>
    if c = '<' then takeBalanced? (depth + 1) (c :: seen) rest
    else if c ≠ '>' then takeBalanced? depth (c :: seen) rest
    else
      match depth with
      | 0 => some (seen.reverse, rest)
      | depth + 1 => takeBalanced? depth (c :: seen) rest

/-- The attribute that a text without blanks at its start begins with. -/
def takeAttribute? (cs : List Char) : Option ((String × String) × List Char) :=
  let key := cs.takeWhile fun c => c ≠ '=' && !isSpace c
  match (cs.drop key.length).dropWhile isSpace with
  | '=' :: rest =>
    match rest.dropWhile isSpace with
    | quote :: rest =>
      let value := rest.takeWhile (· ≠ quote)
      match rest.drop value.length with
      | _ :: rest =>
        if key.isEmpty || !(quote = '"' || quote = '\'') then none
        else some ((String.ofList key, String.ofList value), rest)
      | [] => none
    | [] => none
  | _ => none

/-- The attributes of a tag, all with different keys; `fuel` bounds their number. -/
def attributes? (fuel : Nat) (seen : List (String × String)) (cs : List Char) :
    Option (List (String × String)) :=
  match fuel, cs.dropWhile isSpace with
  | _, [] => some seen.reverse
  | 0, _ => none
  | fuel + 1, cs => do
    let ((key, value), rest) ← takeAttribute? cs
    if seen.any (·.1 = key) then none else attributes? fuel ((key, value) :: seen) rest

/-- The encodings that are read. -/
def encodings : List String :=
  ["unicode-1-1-utf-8", "unicode11utf8", "unicode20utf8", "utf-8", "utf8", "x-unicode20utf8"]

/-- The encoding that the attributes of a declaration name first, if any, is one of those that are
read; `fuel` bounds their number. -/
def isReadable (fuel : Nat) (cs : List Char) : Bool :=
  match fuel, cs.dropWhile isSpace with
  | _, [] => true
  | 0, _ => false
  | fuel + 1, cs =>
    match takeAttribute? cs with
    | some ((key, value), rest) =>
      if key = "encoding" then encodings.contains value.toLower else isReadable fuel rest
    | none => false

/-- The tag of an element. -/
def openingTag? (tag : List Char) : Option Markup := do
  let isEmpty := tag.getLast? = some '/'
  let tag := if isEmpty then tag.dropLast else tag
  let name := tag.takeWhile (!isSpace ·)
  let found ← attributes? tag.length [] (tag.drop name.length)
  return .opening (String.ofList name) found isEmpty

/-- An instruction behind its opening mark. -/
def takeInstruction? (cs : List Char) : Option (Markup × List Char) := do
  let (found, rest) ← takeUntil? ['?', '>'] [] cs
  let isDeclaration := ['x', 'm', 'l'].isPrefixOf found && (found.drop 3).head?.all isSpace
  if isDeclaration && !isReadable found.length (found.drop 3) || cs.head? = some '>' then none
  else some (.remark, rest)

/-- The markup that begins with an exclamation mark, behind it. -/
def takeBang? (cs : List Char) : Option (Markup × List Char) := do
  if ['-', '-'].isPrefixOf cs then
    let (_, rest) ← takeUntil? ['-', '-', '>'] [] (cs.drop 2)
    return (.remark, rest)
  else if "[CDATA[".toList.isPrefixOf cs then
    let (text, rest) ← takeUntil? [']', ']', '>'] [] (cs.drop 7)
    return (.data (String.ofList text), rest)
  else if (String.ofList (cs.take 7)).toLower = "doctype" then
    let (found, rest) ← takeBalanced? 0 [] (cs.drop 7)
    if found.all isSpace then none else some (.documentType (String.ofList found), rest)
  else none

/-- The tag or text that a document starts with. -/
def takeMarkup? (cs : List Char) : Option (Markup × List Char) := do
  match cs with
  | '<' :: '?' :: rest => takeInstruction? rest
  | '<' :: '!' :: rest => takeBang? rest
  | '<' :: '/' :: rest =>
    let (tag, rest) ← takeTag? none [] rest
    let name := (tag.reverse.dropWhile isSpace).reverse
    return (.closing (String.ofList name), rest)
  | '<' :: rest =>
    let (tag, rest) ← takeTag? none [] rest
    return (← openingTag? tag, rest)
  | cs =>
    let text := cs.takeWhile (· ≠ '<')
    return (.text (String.ofList text), cs.drop text.length)

/-- The tags and texts of a document; `fuel` bounds their number. -/
def markup? : Nat → List Char → Option (List Markup)
  | _, [] => some []
  | 0, _ => none
  | fuel + 1, cs => do
    let (m, rest) ← takeMarkup? cs
    return m :: (← markup? fuel rest)

/-! ### Spaces -/

/-- The spaces that prefixes stand for, the innermost first; no prefix stands for the space of
elements without one. -/
abbrev Spaces := List (Option String × String)

/-- The space of the attributes `xml:lang` and `xml:base`. -/
def xmlSpace : String := "http://www.w3.org/XML/1998/namespace"

/-- The space of the attributes that declare spaces. -/
def declarationSpace : String := "http://www.w3.org/2000/xmlns/"

/-- The prefix of a written name, and the rest of it. -/
def splitName (name : String) : Option String × String :=
  let start := name.toList.takeWhile (· ≠ ':')
  match name.toList.drop start.length with
  | _ :: rest => (some (String.ofList start), String.ofList rest)
  | [] => (none, name)

/-- The spaces in force inside a tag with further attributes. -/
def declare? (spaces : Spaces) : List (String × String) → Option Spaces
  | [] => some spaces
  | (key, value) :: rest =>
    match splitName key with
    | (none, "xmlns") => declare? ((none, value) :: spaces) rest
    | (some "xmlns", "xml") => if value = xmlSpace then declare? spaces rest else none
    | (some "xmlns", name) =>
      if name = "xmlns" || value = xmlSpace || value = declarationSpace then none
      else declare? ((some name, value) :: spaces) rest
    | _ => declare? spaces rest

/-- The name with the space of its prefix in front. -/
def expand? (spaces : Spaces) (name : Option String × String) : Option String := do
  let space ← spaces.lookup name.1
  if space.isEmpty then none else some (space ++ name.2)

/-- The full name of an element. -/
def elementName? (spaces : Spaces) (name : String) : Option String :=
  expand? spaces (splitName name)

/-- The full name of an attribute, which needs a prefix. -/
def attributeName? (spaces : Spaces) (name : String) : Option String :=
  match splitName name with
  | (none, _) => none
  | name => expand? spaces name

/-! ### Events -/

/-- What a reader of a document comes across. -/
inductive Event where
  /-- An element opens. -/
  | start (name : String) (attributes : List (String × String)) (spaces : Spaces)
  /-- The innermost element closes. -/
  | stop (name : String)
  | text (written : String)
  | data (text : String)
  | documentType (text : String)
  deriving DecidableEq, Repr

/-- The events of a list of tags and texts inside open elements, given by their names and spaces,
innermost first.  Elements may be left open at the end. -/
def nest? (opened : List (String × Spaces)) : List Markup → Option (List Event)
  | [] => some []
  | m :: rest => do
    match m with
    | .opening name attributes isEmpty =>
      let outer := (opened.head?.map Prod.snd).getD
        [(some "xml", xmlSpace), (some "xmlns", declarationSpace)]
      let spaces ← declare? outer attributes
      let start := Event.start name attributes spaces
      if isEmpty then return start :: .stop name :: (← nest? opened rest)
      else return start :: (← nest? ((name, spaces) :: opened) rest)
    | .closing name =>
      match opened with
      | (expected, _) :: opened =>
        if name = expected then return .stop name :: (← nest? opened rest) else none
      | [] => none
    | .text written => return .text written :: (← nest? opened rest)
    | .data text => return .data text :: (← nest? opened rest)
    | .documentType text => return .documentType text :: (← nest? opened rest)
    | .remark => nest? opened rest

/-- The events of a document, which may start with a byte order mark. -/
def events? (text : String) : Option (List Event) := do
  let cs := match text.toList with
    | '\ufeff' :: cs => cs
    | cs => cs
  nest? [] (← markup? cs.length cs)

end Ontology.Xml
