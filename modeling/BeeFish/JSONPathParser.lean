/-
# Storing a JSON text

`JSONPathParser` (Database/JSONPathParser.hpp) is called back for the parts of
a JSON text and asks the paths of the database to store them as they come, with
stacks of the paths, indexes, keys and types of what is open. The calls for a
value are its `events`, in the order of json/set.h and json/keyed-set.h: a value
is complete before the set that it is in is told of it.

The path of an object or an array comes from the key stack, where `my` is the
id of the user, when it begins, and the path of a string too. The path of any
other value comes from the text of the key when it has been read. A key comes
in parts like any string, and its value is the part that came last.

What the paths do is not part of it; the parser keeps what they are asked for.

Key definitions: `JSONValue`, `JSONValue.events`, `JSONPathCall`,
`JSONPathParser`, `JSONPathParser.step`.
-/
import BeeFish.JSONKey

namespace BeeFish

/-! ### What the parser is called for -/

/-- A JSON value: the texts of scalars, the parts that a string comes in, and
the members of an object with the parts of their keys. -/
inductive JSONValue where
  | undefined
  | null
  | boolean (value : BString)
  | integer (value : BString)
  | number (value : BString)
  | string (parts : List BString)
  | array (items : List JSONValue)
  | object (members : List (List BString × JSONValue))

/-- The calls of `JSONParser`, with what is asked of their arguments. -/
inductive Event where
  | onbeginobject
  | onobjectkey (key : BString)
  | onobjectvalue (key : BString) (type : JSONType) (value : BString)
  | onendobject
  | onbeginarray
  | onarrayvalue (type : JSONType) (value : BString)
  | onendarray
  | onbeginstring
  | onpartstring (partString : BString)
  | onendstring
  | onvalue (type : JSONType) (value : BString)

namespace JSONValue

/-- `key->value()` of a key that came in parts. -/
def keyValue (key : List BString) : BString := key.getLastD []

/-- `JSON::type` -/
def type : JSONValue → JSONType
  | undefined => .undefined
  | null => .null
  | boolean _ => .boolean
  | integer _ => .integer
  | number _ => .number
  | string _ => .string
  | array _ => .array
  | object _ => .object

/-- `JSON::value` of a scalar; the value of a string is not asked for. -/
def text : JSONValue → BString
  | boolean value => value
  | integer value => value
  | number value => value
  | _ => []

mutual

/-- The calls up to the end of the value. -/
def body : JSONValue → List Event
  | string parts => .onbeginstring :: (parts.map .onpartstring ++ [.onendstring])
  | array items => .onbeginarray :: (itemEvents items ++ [.onendarray])
  | object members => .onbeginobject :: (memberEvents members ++ [.onendobject])
  | _ => []

def itemEvents : List JSONValue → List Event
  | [] => []
  | item :: items =>
    body item ++ .onvalue item.type item.text :: .onarrayvalue item.type item.text ::
      itemEvents items

def memberEvents : List (List BString × JSONValue) → List Event
  | [] => []
  | (key, value) :: members =>
    .onobjectkey (keyValue key) :: (body value ++ .onvalue value.type value.text ::
      .onobjectvalue (keyValue key) value.type value.text :: memberEvents members)

end

def events (value : JSONValue) : List Event := value.body ++ [.onvalue value.type value.text]

end JSONValue

/-! ### The parser -/

/-- The way to a node. -/
abbrev Place := List Component

/-- What a path is asked for: a property or an item of its node, or a change. -/
inductive JSONPathCall where
  | property (path : Place) (property : BString)
  | item (path : Place) (index : ℕ)
  | setUndefined (path : Place)
  | setNull (path : Place)
  | setBoolean (path : Place) (value : BString)
  | setInteger (path : Place) (value : BString)
  | setNumber (path : Place) (value : BString)
  | setArray (path : Place)
  | setObject (path : Place)
  | truncateArray (path : Place) (size : ℕ)
  | setString (path : Place) (value : BString) (pageIndex : ℕ) (indexData : Bool)
  | endString (path : Place) (pageCount : ℕ) (indexData : Bool)
  deriving DecidableEq

/-- The parser, with what the paths have been asked for. The tops of the stacks
come first. -/
structure JSONPathParser where
  start : Place
  pathStack : List Place
  indexStack : List ℕ
  keyStack : List BString
  typeStack : List JSONType
  string : Place
  stringPageIndex : ℕ
  indexString : Bool
  calls : List JSONPathCall

namespace JSONPathParser

/-- `JSONPathParser(auth, path)` -/
def new (start : Place) : JSONPathParser where
  start := start
  pathStack := []
  indexStack := []
  keyStack := []
  typeStack := []
  string := []
  stringPageIndex := 0
  indexString := true
  calls := []

section

variable (parser : JSONPathParser)

def topPath : Option Place := parser.pathStack.head?

def topKey : Option BString := parser.keyStack.head?

def topIndex : Option ℕ := parser.indexStack.head?

def topType : Option JSONType := parser.typeStack.head?

/-- A path is asked. -/
def ask (call : JSONPathCall) : JSONPathParser := { parser with calls := parser.calls ++ [call] }

/-- `path[property]` -/
def property (path : Place) (property : BString) : Place × JSONPathParser :=
  (path ++ [.string property], parser.ask (.property path property))

/-- `path[index]` -/
def item (path : Place) (index : ℕ) : Place × JSONPathParser :=
  (path ++ [.integer index], parser.ask (.item path index))

/-- `JSONPathParser::setVariable` -/
def setVariable (start : Place) (type : JSONType) (value : BString) : Option JSONPathParser :=
  match type with
  | .undefined => some (parser.ask (.setUndefined start))
  | .null => some (parser.ask (.setNull start))
  | .boolean => some (parser.ask (.setBoolean start value))
  | .integer => some (parser.ask (.setInteger start value))
  | .number => some (parser.ask (.setNumber start value))
  | .string => some parser
  | .array => some (parser.ask (.setArray start))
  | .object => some (parser.ask (.setObject start))
  | .user => none

/-- The path of the value that begins. -/
def nextPath : Option (Place × JSONPathParser) :=
  match parser.topPath with
  | none => some (parser.start, parser)
  | some path => do
    if (← parser.topType) = .object then return parser.property path (← parser.topKey)
    else return parser.item path ((← parser.topIndex) + 1)

/-- `JSONPathParser::push_back_path` -/
def push_back_path (type : JSONType) : Option JSONPathParser := do
  let (path, parser) ← parser.nextPath
  let parser :=
    if type = .object then parser.ask (.setObject path)
    else if type = .array then parser.ask (.setArray path)
    else parser
  return { parser with
    pathStack := path :: parser.pathStack
    indexStack := if type = .array then 0 :: parser.indexStack else parser.indexStack
    typeStack := type :: parser.typeStack }

/-- `JSONPathParser::pop_back_path` -/
def pop_back_path : Option JSONPathParser := do
  let type ← parser.topType
  return { parser with
    pathStack := parser.pathStack.tail
    indexStack := if type = .array then parser.indexStack.tail else parser.indexStack
    typeStack := parser.typeStack.tail }

/-- `JSONPathParser::push_back_key` -/
def push_back_key (userId key : BString) : JSONPathParser :=
  { parser with keyStack := (if key = text "my" then userId else key) :: parser.keyStack }

/-- `JSONPathParser::pop_back_key` -/
def pop_back_key : JSONPathParser := { parser with keyStack := parser.keyStack.tail }

def onobjectvalue (key : BString) (type : JSONType) (value : BString) : Option JSONPathParser :=
  if type ≠ .string then do
    let (path, parser) := parser.property (← parser.topPath) key
    let parser ← parser.setVariable path type value
    return parser.pop_back_key
  else some parser

def onarrayvalue (type : JSONType) (value : BString) : Option JSONPathParser :=
  if type ≠ .string then do
    let index ← parser.topIndex
    let (path, parser) := parser.item (← parser.topPath) (index + 1)
    let parser := { parser with indexStack := (index + 1) :: parser.indexStack.tail }
    parser.setVariable path type value
  else some parser

def onendarray : Option JSONPathParser := do
  let parser := parser.ask (.truncateArray (← parser.topPath) (← parser.topIndex))
  parser.pop_back_path

def onbeginstring : Option JSONPathParser :=
  match parser.topPath with
  | none => some { parser with string := parser.start, stringPageIndex := 0 }
  | some path => do
    if (← parser.topType) = .object then
      let (string, parser) := parser.property path (← parser.topKey)
      return { parser.pop_back_key with string := string, stringPageIndex := 0 }
    else
      let index ← parser.topIndex
      let (string, parser) := parser.item path (index + 1)
      return { parser with
        string := string
        indexStack := (index + 1) :: parser.indexStack.tail
        stringPageIndex := 0 }

def onpartstring (partString : BString) : JSONPathParser :=
  let indexString := if parser.stringPageIndex = 0 then !partString.isData else parser.indexString
  let parser := parser.ask (.setString parser.string partString parser.stringPageIndex indexString)
  { parser with indexString := indexString, stringPageIndex := parser.stringPageIndex + 1 }

def onendstring : JSONPathParser :=
  let parser := parser.ask (.endString parser.string parser.stringPageIndex parser.indexString)
  { parser with stringPageIndex := 0 }

def onvalue (type : JSONType) (value : BString) : Option JSONPathParser :=
  if parser.pathStack = [] ∧ type ≠ .string then parser.setVariable parser.start type value
    else some parser

end

/-- One call; `userId` is that of the authentication. -/
def step (userId : BString) (parser : JSONPathParser) : Event → Option JSONPathParser
  | .onbeginobject => parser.push_back_path .object
  | .onobjectkey key => some (parser.push_back_key userId key)
  | .onobjectvalue key type value => parser.onobjectvalue key type value
  | .onendobject => parser.pop_back_path
  | .onbeginarray => parser.push_back_path .array
  | .onarrayvalue type value => parser.onarrayvalue type value
  | .onendarray => parser.onendarray
  | .onbeginstring => parser.onbeginstring
  | .onpartstring partString => some (parser.onpartstring partString)
  | .onendstring => some parser.onendstring
  | .onvalue type value => parser.onvalue type value

/-- The calls for a text, one after another. -/
def run (userId : BString) (parser : JSONPathParser) (events : List Event) :
    Option JSONPathParser :=
  events.foldlM (step userId) parser

end JSONPathParser

end BeeFish
