/-
# The matcher of a JSON text

The classes of json/ and the parser that makes a `Variable` of what they match
(Script/ScriptParser.hpp). The characters of a string go into a buffer of one
page: each time the page is full, and at the closing quote, `_value` is set to
the characters since the last time and the page is given to `onpartstring`.

Arrays and objects call the parser, which is the object around the matcher; its
field is the stack, with the top first.

Key definitions: `StringFields`, `JSONGrammar.string`, `JSONGrammar.json`, `ScriptParser.onvalue`,
`JSONGrammar.program`.
-/
import BeeFish.Comes
import BeeFish.JSONKey
import BeeFish.Percent
import BeeFish.Variable

namespace BeeFish

open BString

/-! ### Hexadecimal -/

namespace BString

/-- `BString::fromHex`. The byte of the last of an odd number of digits is written
behind the result. -/
def fromHex : BString → Except Fault BString
  | [] => .ok []
  | [_] => .error .outside
  | a :: b :: hex => do
    let result ← fromHex hex
    return UInt8.ofNat ((sscanf [a, b]).getD 0) :: result

/-- The loop of `Hex::success`: `stoi` of two digits, or of a last one alone. -/
def hexBytes : BString → BString
  | [] => []
  | [a] => [UInt8.ofNat (hexValue a)]
  | a :: b :: hex => UInt8.ofNat (16 * hexValue a + hexValue b) :: hexBytes hex

/-- How many of the first two digits are zero. -/
def zeros (hex : BString) : ℕ := ((hex.take 2).takeWhile (· = 48)).length

end BString

/-! ### The buffer -/

/-- The fields of a `String` and of its `StringCharacters`, and what
`onpartstring` has been called with. -/
structure StringFields where
  /-- `_value` -/
  value : BString
  /-- `StringCharacters` as a `BString` -/
  characters : BString
  /-- `BStream::_bytes` -/
  bytes : BString
  parts : List BString

namespace StringFields

/-- `BStream::onBuffer` with the `_onbuffer` of a `String`. `clear` is that of
`StringCharacters`. -/
def onBuffer (fields : StringFields) : StringFields where
  value := fields.characters
  characters := []
  bytes := []
  parts := fields.parts ++ [fields.bytes]

variable (pageSize : ℕ+)

/-- `BStream::push_back` -/
def push_back (fields : StringFields) (c : UInt8) : StringFields :=
  let fields := { fields with bytes := fields.bytes ++ [c] }
  if (pageSize : ℕ) ≤ fields.bytes.length then fields.onBuffer else fields

/-- `BStream::write` -/
def write (fields : StringFields) (data : BString) : StringFields :=
  data.foldl (push_back pageSize) fields

/-- `BStream::flush` -/
def flush (fields : StringFields) : StringFields :=
  if 0 < fields.bytes.length then fields.onBuffer else fields

/-- `StringCharacters::matchedItem` -/
def matchedItem (fields : StringFields) (character : BString) : StringFields :=
  write pageSize { fields with characters := fields.characters ++ character } character

end StringFields

/-! ### The matchers -/

/-- What the parts of a text call. -/
inductive JSONCall where
  /-- `CaptureCharacter::success` -/
  | capture (output : BString)
  /-- `Hex::success` -/
  | hexValue
  /-- `EscapedCharacter` when its `Hex` has matched -/
  | hex
  | beginString
  /-- `StringCharacters::matchedItem` -/
  | matchedItem
  | endString
  /-- `JSON::success` -/
  | onvalue
  | onbeginarray
  | onarrayvalue
  | onendarray
  | onbeginobject
  | onobjectkey
  | onsetupkeyvalue
  | onobjectvalue
  /-- `Set::onsetvalue`, which an `Object` does not override -/
  | onsetvalue
  | onendobject

/-- The objects with fields of their own. -/
inductive JSONObject where
  | hex (hexValue : BString)
  | escapedCharacter (character : BString)
  | string (fields : StringFields)
  /-- The parser -/
  | parser (stack : List Variable)

abbrev JSONMatch := Match Unit JSONObject JSONCall

namespace JSONGrammar

def quote : JSONMatch := .character (some [34]) none

/-- What no plain character is. -/
def plainExceptions : List BString := [[92], [34], [13], [10], [8], [12]]

/-- `PlainCharacter` -/
def plainCharacter : JSONMatch :=
  .capture (fun _ => true) []
    (.not (.or (plainExceptions.map fun c => .character (some c) none) none none) none) none

/-- `HexCharacter` -/
def hexCharacter : JSONMatch :=
  .or [.range [48] [57] none, .range [97] [102] none, .range [65] [70] none] none none

/-- `Hex` -/
def hex : JSONMatch :=
  .object (.hex [])
    (.invoke .hexValue (.capture (fun _ => true) [] (.repeated hexCharacter none 2 4 0 none) none)
    none) none

/-- `CaptureCharacter` -/
def captureCharacter (input output : UInt8) : JSONMatch :=
  .invoke (.capture [output]) (.character (some [input]) none) none

/-- The characters after a backslash, with what they stand for. -/
def captures : List (UInt8 × UInt8) :=
  [(48, 0), (34, 34), (92, 92), (98, 8), (102, 12), (114, 13), (110, 10), (116, 9), (118, 11)]

/-- What may follow a backslash. -/
def escapes : JSONMatch :=
  .or ((captures.map fun capture => captureCharacter capture.1 capture.2) ++
    [.and [plainCharacter, .not hex none] 0 none,
      .and [.character (some [117]) none, .invoke .hex hex none] 0 none]) none none

/-- `EscapedCharacter` -/
def escapedCharacter : JSONMatch :=
  .object (.escapedCharacter []) (.and [.character (some [92]) none, escapes] 0 none) none

/-- `StringCharacter` -/
def stringCharacter : JSONMatch := .or [plainCharacter, escapedCharacter] none none

/-- `StringCharacters` -/
def stringCharacters : JSONMatch :=
  .repeated (.invoke .matchedItem stringCharacter none) none 0 0 0 none

/-- `String` -/
def string : JSONMatch :=
  .object (.string ⟨[], [], [], []⟩)
    (.and [.invoke .beginString quote none, stringCharacters, .invoke .endString quote none] 0 none)
    none

/-- `BlankSpaceCharacter` -/
def blanks : List BString := [[32], [10], [13], [9], [13], [10]]

def blankSpaceCharacter : JSONMatch := .or (blanks.map fun c => .character (some c) none) none none

/-- `BlankSpace` -/
def blankSpace (minimum : ℕ) : JSONMatch := .repeated blankSpaceCharacter none minimum 0 0 none

/-- `Undefined` -/
def undefined : JSONMatch := .word id (text "undefined") none

/-- `Null` -/
def null : JSONMatch := .word id (text "null") none

/-- `Boolean` -/
def boolean : JSONMatch :=
  .capture (fun _ => true) [] (.or [.word id (text "true") none, .word id (text "false") none]
    none none) none

/-- `Integer`. Its `eof` comes to what that of the `Capture` comes to. -/
def integer : JSONMatch :=
  .capture (fun _ => true) [] (.repeated (.range [48] [57] none) none 1 0 0 none) none

/-- `Number::Sign` -/
def sign : JSONMatch :=
  .capture (fun _ => true) [] (.or [.character (some [43]) none, .character (some [45]) none]
    none none) none

def fraction : JSONMatch := .and [.character (some [46]) none, integer] 0 none

def exponent : JSONMatch :=
  .and [.or [.character (some [69]) none, .character (some [101]) none] none none,
    .optional sign none, integer] 0 none

/-- `Number`. After its integer all parts are options, so its `eof` comes to
what that of the `Capture` comes to. -/
def number : JSONMatch :=
  .capture (fun _ => true) []
    (.and [.optional (.character (some [45]) none) none, integer, .optional fraction none,
      .optional exponent none] 0 none) none

section

variable (openBrace item seperator closeBrace : JSONMatch)
    (onBeginSet onSetValue onEndSet : JSONCall)

/-- `Set::_Seperator` -/
def setSeperator : JSONMatch :=
  .and [.optional (blankSpace 1) none, seperator, .optional (blankSpace 1) none] 0 none

/-- `Set::SubsequentItem` -/
def subsequentItem : JSONMatch := .and [setSeperator seperator, .invoke onSetValue item none] 0 none

/-- `Set::SubsequentItems` -/
def subsequentItems : JSONMatch :=
  .repeated (subsequentItem item seperator onSetValue) none 0 0 0 none

/-- `Set` -/
def set : JSONMatch :=
  .and [.invoke onBeginSet openBrace none,
    .optional
      (.and [.invoke onSetValue item none, .optional (subsequentItems item seperator onSetValue)
      none] 0 none) none,
    .invoke onEndSet closeBrace none] 0 none

end

/-- `LoadOnDemand<JSON>` -/
def value : JSONMatch := .loadOnDemand () none none

/-- A mark between blank space. -/
def mark (c : UInt8) : JSONMatch :=
  .and [blankSpace 0, .character (some [c]) none, blankSpace 0] 0 none

/-- `Array` -/
def array : JSONMatch :=
  set (.and [.character (some [91]) none, blankSpace 0] 0 none) value (mark 44)
    (.and [blankSpace 0, .character (some [93]) none] 0 none) .onbeginarray .onarrayvalue
      .onendarray

/-- `ObjectKey` -/
def objectKey : JSONMatch := string

/-- `KeyValue`. The call of the value, which is the last part, is made with the
whole pair, since it looks at the key too. -/
def keyValue : JSONMatch :=
  .invoke .onobjectvalue
    (.and [.invoke .onobjectkey objectKey none, .invoke .onsetupkeyvalue (mark 58) none, value]
    0 none) none

/-- `Object` -/
def object : JSONMatch :=
  set (mark 123) keyValue (mark 44) (.and [blankSpace 0, .character (some [125]) none] 0 none)
    .onbeginobject .onsetvalue .onendobject

/-- The items of a `JSON`. Which one has succeeded is its `_type`. -/
def items : List JSONMatch := [undefined, null, boolean, number, string, array, object]

/-- `JSON` -/
def json : JSONMatch := .invoke .onvalue (.and [blankSpace 0, .or items none none] 0 none) none

/-! ### What they have matched -/

mutual

/-- `character()` -/
def character : JSONMatch → BString
  | .capture _ value _ _ => value
  | .object (.hex hexValue) _ _ => hexValue
  | .object (.escapedCharacter character) _ _ => character
  | .or inputs (some i) _ => characterAt inputs i
  | _ => []

def characterAt : List JSONMatch → ℕ → BString
  | [], _ => []
  | m :: _, 0 => character m
  | _ :: ms, i + 1 => characterAt ms i

end

/-- `value()` of an item -/
def itemValue : JSONMatch → BString
  | .object (.string fields) _ _ => fields.value
  | m => m.value

/-- `JSON::type`, with `invokeNumber` for a number. -/
def type (i : ℕ) (value : BString) : JSONType :=
  match i with
  | 1 => .null
  | 2 => .boolean
  | 3 => if value.any (· ∈ text "-+eE.") then .number else .integer
  | 4 => .string
  | 5 => .array
  | 6 => .object
  | _ => .undefined

end JSONGrammar

/-! ### The parser -/

/-- What goes wrong while a text is read. -/
inductive ScriptFault where
  /-- `Stack::pop` or `Stack::top` without a variable -/
  | outside
  /-- Cannot cast variable to type -/
  | cast
  /-- Invalid boolean value -/
  | boolean
  /-- A floating point number, which is left out -/
  | number

namespace ScriptParser

/-- `atol`, which ends at the largest `long`. -/
def atol (str : BString) : UInt64 := UInt64.ofNat (min (BString.atol str) (2 ^ 63 - 1))

/-- `ScriptParser::onvalue` -/
def onvalue (stack : List Variable) (type : JSONType) (value : BString) :
    Except ScriptFault (List Variable) :=
  match type with
  | .object => .ok (if stack = [] then [.object []] else stack)
  | .array => .ok (if stack = [] then [.array []] else stack)
  | .null => .ok (.null :: stack)
  | .boolean =>
    if value = text "true" then .ok (.boolean true :: stack)
    else if value = text "false" then .ok (.boolean false :: stack)
    else .error .boolean
  | .integer => .ok (.integer (atol value) :: stack)
  | .number => .error .number
  | .string => .ok (.string value :: stack)
  | _ => .ok (.undefined :: stack)

/-- `ScriptParser::onobjectvalue` -/
def onobjectvalue (key : BString) : List Variable → Except ScriptFault (List Variable)
  | value :: .object members :: stack => .ok (.object (Members.set key value members) :: stack)
  | _ :: _ :: _ => .error .cast
  | _ => .error .outside

/-- `ScriptParser::onarrayvalue` -/
def onarrayvalue : List Variable → Except ScriptFault (List Variable)
  | value :: .array elements :: stack => .ok (.array (elements ++ [value]) :: stack)
  | _ :: _ :: _ => .error .cast
  | _ => .error .outside

/-- What the parser is called for. -/
def hear (stack : List Variable) : JSONCall → JSONMatch → Except ScriptFault (List Variable)
  | .onvalue, .and [_, .or inputs (some i) _] _ _ =>
    let value := JSONGrammar.itemValue (inputs.getD i (.character none none))
    onvalue stack (JSONGrammar.type i value) value
  | .onbeginarray, _ => .ok (.array [] :: stack)
  | .onarrayvalue, _ => onarrayvalue stack
  | .onbeginobject, _ => .ok (.object [] :: stack)
  | .onobjectvalue, .and (.invoke _ key _ :: _) _ _ =>
    onobjectvalue (JSONGrammar.itemValue key) stack
  | _, _ => .ok stack

end ScriptParser

namespace JSONGrammar

variable (pageSize : ℕ+)

def onsuccess : JSONCall → JSONMatch → JSONObject → Except ScriptFault JSONObject
  | .capture output, _, .escapedCharacter _ => .ok (.escapedCharacter output)
  | .hexValue, m, .hex hexValue => .ok (.hex (hexValue ++ hexBytes (m.value.drop (zeros m.value))))
  | .hex, m, .escapedCharacter _ => .ok (.escapedCharacter (character m))
  | .matchedItem, m, .string fields => .ok (.string (fields.matchedItem pageSize (character m)))
  | .endString, _, .string fields => .ok (.string fields.flush)
  | call, m, .parser stack => do
    let stack ← ScriptParser.hear stack call m
    return .parser stack
  | _, _, object => .ok object

def program : Program Unit JSONObject JSONCall ScriptFault where
  createItem _ := json
  onsuccess := onsuccess pageSize
  success _ := true

/-- A `ScriptParser` of a `JSON`. -/
def scriptParser : JSONMatch := .object (.parser []) json none

end JSONGrammar

end BeeFish
