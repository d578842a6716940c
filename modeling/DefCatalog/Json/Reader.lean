import DefCatalog.Json.Token

/-!
# Reading JSON

The tokens of a document are read one after the other. What is open at a point of the document is a
stack, kept as a list of frames, so that values may be nested to any depth.
-/

namespace DefCatalog.Json

/-- An array or an object that is not closed yet, with its finished parts, latest first. -/
inductive Frame where
  | array (latest : List Value)
  /-- An object inside the value of the member `key`. -/
  | object (latest : List (StringBody × Value)) (key : StringBody)

/-- What may come next in a document. -/
inductive Expectation where
  /-- A value. -/
  | value (frames : List Frame)
  /-- The first item of an array, or its end. -/
  | itemOrEnd (frames : List Frame)
  /-- The name of the first member of an object, or its end. -/
  | nameOrEnd (frames : List Frame)
  /-- The name of a further member. -/
  | name (latest : List (StringBody × Value)) (frames : List Frame)
  /-- The colon after the name of a member. -/
  | colon (latest : List (StringBody × Value)) (key : StringBody) (frames : List Frame)
  /-- A comma or the end of an array. -/
  | afterItem (latest : List Value) (frames : List Frame)
  /-- A comma or the end of an object. -/
  | afterMember (latest : List (StringBody × Value)) (frames : List Frame)
  /-- Nothing, since the document is complete. -/
  | nothing (document : Value)

namespace Expectation

/-- What may come after a finished value. -/
def afterValue (value : Value) : List Frame → Expectation
  | [] => nothing value
  | .array latest :: frames => afterItem (value :: latest) frames
  | .object latest key :: frames => afterMember ((key, value) :: latest) frames

/-- Reads the first token of a value. -/
def beginValue (frames : List Frame) : Token → Option Expectation
  | .openBracket => some (itemOrEnd frames)
  | .openBrace => some (nameOrEnd frames)
  | .null => some (afterValue .null frames)
  | .bool b => some (afterValue (.bool b) frames)
  | .number n => some (afterValue (.number n) frames)
  | .string body => some (afterValue (.string body) frames)
  | _ => none

/-- Reads one token. -/
def next : Expectation → Token → Option Expectation
  | value frames, token => beginValue frames token
  | itemOrEnd frames, .closeBracket => some (afterValue (.array []) frames)
  | itemOrEnd frames, token => beginValue (.array [] :: frames) token
  | nameOrEnd frames, .closeBrace => some (afterValue (.object []) frames)
  | nameOrEnd frames, .string key => some (colon [] key frames)
  | name latest frames, .string key => some (colon latest key frames)
  | colon latest key frames, .colon => some (value (.object latest key :: frames))
  | afterItem latest frames, .comma => some (value (.array latest :: frames))
  | afterItem latest frames, .closeBracket =>
    some (afterValue (.array latest.reverse) frames)
  | afterMember latest frames, .comma => some (name latest frames)
  | afterMember latest frames, .closeBrace =>
    some (afterValue (.object latest.reverse) frames)
  | _, _ => none

/-- The document, if it is complete. -/
def document? : Expectation → Option Value
  | nothing document => some document
  | _ => none

end Expectation

/-- The value that some tokens write down. -/
def ofTokens? (tokens : List Token) : Option Value := do
  (← tokens.foldlM Expectation.next (.value [])).document?

def read? (text : Text) : Option Value := do
  ofTokens? (← tokens? text)

end DefCatalog.Json
