/-
# The matcher of a URL

The classes of web-request/url.h. A `URL` is an option of an origin, one of a
path and one of a search, so it accepts every text; what no part takes is left.
The parts are objects of the grammar that keep what they have matched, and
`toString` puts it together again. `KeyValues` decodes each pair as it is
matched; where a pair is decoded with a fault, the fault is kept.

Key definitions: `URLGrammar.url`, `URLParts`, `URLParts.parse`.
-/
import BeeFish.Comes
import BeeFish.Percent

namespace BeeFish

/-- What a part of the grammar calls when it succeeds. -/
inductive URLCall where
  /-- The `Capture`s of a pair -/
  | key
  | value
  /-- `KeyValues::matchedItem` -/
  | matchedItem

/-- The objects of the grammar with fields of their own. -/
inductive URLObject where
  | url
  | keyValuePair (key value : BString)
  | keyValues (items : Except BString.Fault (BString → Option BString))

abbrev URLMatch := Match Empty URLObject URLCall

namespace URLGrammar

def noneOf (characters : List BString) : URLMatch :=
  .not (.or (characters.map fun c => .character (some c) none) none none) none

/-- `Repeat` of a class of characters -/
def many (character : URLMatch) : URLMatch := .repeated character none 1 0 0 none

def capture (m : URLMatch) : URLMatch := .capture (fun _ => true) [] m none

/-- `Capture` with the variable that is set -/
def captured (m : URLMatch) (call : URLCall) : URLMatch := capture (.invoke call (capture m) none)

/-- `Protocol` -/
def protocol (lower : BString → BString) : URLMatch :=
  capture (.orderOfPrecedence [0, 1] [.word lower (lower (text "https")) none,
    .word lower (lower (text "http")) none] none none)

def domainCharacters : List BString := [text " ", text "/", text "?", text ":"]

/-- `Domain` -/
def domain : URLMatch := capture (many (noneOf domainCharacters))

/-- `Port` -/
def port : URLMatch := capture (many (.range (text "0") (text "9") none))

/-- `Origin` -/
def origin (lower : BString → BString) : URLMatch :=
  capture (.and [.optional (.and [protocol lower, .word id (text "://") none] 0 none) none, domain,
    .optional (.and [.character (some (text ":")) none, port] 0 none) none] 0 none)

def pathCharacters : List BString := [text " ", text "?"]

/-- `Path` -/
def path : URLMatch := capture (many (noneOf pathCharacters))

def keyCharacters : List BString := [text "=", text "&", text " "]

def valueCharacters : List BString := [text "&", text " "]

/-- `KeyValuePair` -/
def keyValuePair : URLMatch :=
  .object (.keyValuePair [] [])
    (.and [captured (many (noneOf keyCharacters)) .key,
      .optional (.character (some (text "=")) none) none,
      .optional (captured (many (noneOf valueCharacters)) .value) none,
        .optional (.character (some (text "&")) none) none] 0 none)
    none

/-- `KeyValues` -/
def keyValues : URLMatch :=
  .object (.keyValues (.ok fun _ => none)) (many (.invoke .matchedItem keyValuePair none)) none

/-- `Search` -/
def search : URLMatch := capture (.and [.character (some (text "?")) none, keyValues] 0 none)

/-- `URL` -/
def url (lower : BString → BString) : URLMatch :=
  .object .url (.and [.optional (origin lower) none, .optional path none, .optional search none]
    0 none) none

end URLGrammar

/-- `KeyValues::matchedItem` -/
def URLObject.matchedItem (key value : BString)
    (items : Except BString.Fault (BString → Option BString)) :
    Except BString.Fault (BString → Option BString) := do
  let items ← items
  let key ← key.decodeURIChecked
  let value ← value.decodeURIChecked
  return Function.update items key (some value)

/-- `URLException` -/
inductive URLException where
  | notMatched

/-- What the parts of a pair and the pairs call. -/
def URLCall.onsuccess : URLCall → URLMatch → URLObject → URLObject
  | .key, m, .keyValuePair _ v => .keyValuePair m.value v
  | .value, m, .keyValuePair k _ => .keyValuePair k m.value
  | .matchedItem, .object (.keyValuePair k v) _ _, .keyValues items =>
    .keyValues (URLObject.matchedItem k v items)
  | _, _, object => object

def urlProgram : Program Empty URLObject URLCall URLException where
  createItem := nofun
  onsuccess call m object := .ok (call.onsuccess m object)
  success _ := true

/-! ### The parts of a URL -/

/-- The parts, none for one that has not matched. A path and a search have a
value all the same. -/
structure URLParts where
  /-- `_origin->matched()` -/
  origin : Bool
  protocol : Option BString
  domain : Option BString
  port : Option BString
  path : BString
  search : BString
  items : Except BString.Fault (BString → Option BString)

/-- The value of a part that has matched. -/
def Match.matchedValue (m : URLMatch) : Option BString :=
  if m.result = some true then some m.value else none

/-- The parts, where they are in the grammar. -/
def URLMatch.parts : URLMatch → Option URLParts
  | .object _ (.and [.optional origin _, .optional path _, .optional search _] _ _) _ =>
    match origin, search with
    | .capture _ _
        (.and [.optional (.and [protocol, _] _ _) _, domain, .optional (.and [_, port] _ _) _] _ _)
        _,
        .capture _ _ (.and [_, .object (.keyValues items) _ _] _ _) _ =>
      some ⟨origin.result == some true, protocol.matchedValue, domain.matchedValue,
        port.matchedValue,
        path.value, search.value, items⟩
    | _, _ => none
  | _ => none

namespace URLParts

/-- `URL::URL` of a text -/
def parse (lower : BString → BString) (fuel : ℕ) (input : BString) : Run URLException URLParts := do
  let parser ← Parser.read urlProgram fuel ⟨URLGrammar.url lower, none⟩ input
  let parser ← Parser.eof urlProgram fuel parser
  if parser.result = some true then
    match URLMatch.parts parser.match_ with
    | some parts => return parts
    | none => .fail .notMatched
  else .fail .notMatched

variable (url : URLParts)

/-- `URL::protocol` -/
def protocolValue : BString := url.protocol.getD (text "https")

/-- `URL::domain` -/
def domainValue : BString := url.domain.getD []

/-- `URL::port` -/
def portValue : BString :=
  match url.port with
  | some port =>
    if url.protocolValue = text "https" ∧ port ≠ text "443" then port
    else if url.protocolValue = text "http" ∧ port ≠ text "80" then port
    else []
  | none => []

/-- `URL::path` -/
def pathValue : BString := if 1 < url.path.length then url.path else text "/"

/-- `URL::origin` -/
def originValue : BString :=
  if url.origin ∧ url.domain.isSome then
    url.protocolValue ++ text "://" ++ url.domainValue ++
      if 0 < url.portValue.length then text ":" ++ url.portValue else []
  else []

/-- `URL::toString` -/
def toString : BString := url.originValue ++ url.pathValue ++ url.search

end URLParts

end BeeFish
