import BeeFish.Lib.Code
import BeeFish.Lib.Flat
import BeeFish.Lib.Backward
import BeeFish.Lib.BitTree
import BeeFish.Lib.Fuel
import BeeFish.Stack
import BeeFish.Encoding
import BeeFish.Base64
import BeeFish.Double
import BeeFish.Order
import BeeFish.Database
import BeeFish.Footing
import BeeFish.Heap
import BeeFish.Parent
import BeeFish.Path
import BeeFish.Layout
import BeeFish.LockFile
import BeeFish.Trie
import BeeFish.Walk
import BeeFish.Store
import BeeFish.Storing
import BeeFish.PathBase
import BeeFish.Enumerate
import BeeFish.Keys
import BeeFish.QueryPath
import BeeFish.CounterOp
import BeeFish.CursorExpr
import BeeFish.Expression
import BeeFish.Query
import BeeFish.Lib.Mutex
import BeeFish.Lib.Interleave
import BeeFish.Processes
import BeeFish.Insertion
import BeeFish.Mirror
import BeeFish.Overlap
import BeeFish.Lib.Utf8
import BeeFish.Tokenise
import BeeFish.Scan
import BeeFish.Pages
import BeeFish.Percent
import BeeFish.URLGrammar
import BeeFish.URLText
import BeeFish.URLRules
import BeeFish.SearchItems
import BeeFish.DomainName
import BeeFish.URLCopy
import BeeFish.Escape
import BeeFish.Lib.Chunked
import BeeFish.Reads
import BeeFish.Comes
import BeeFish.Response
import BeeFish.Clock
import BeeFish.Lib.Run
import BeeFish.Match
import BeeFish.Delivery
import BeeFish.Lib.Grammar
import BeeFish.Combinators
import BeeFish.QueryMatch
import BeeFish.QueryToken
import BeeFish.QueryReader
import BeeFish.QueryParse
import BeeFish.QueryText
import BeeFish.QueryMeaning
import BeeFish.JSONKey
import BeeFish.Balance
import BeeFish.IdKey
import BeeFish.Lib.Utf8Text
import BeeFish.Boundaries
import BeeFish.Base64Stream
import BeeFish.Btoa
import BeeFish.Clearing
import BeeFish.ClientId
import BeeFish.Previous
import BeeFish.Printed
import BeeFish.Descendants
import BeeFish.Results
import BeeFish.Resume
import BeeFish.Lib.Program
import BeeFish.JSONNode
import BeeFish.Copies
import BeeFish.Count
import BeeFish.Counter
import BeeFish.Paging
import BeeFish.Spot
import BeeFish.File
import BeeFish.Characters
import BeeFish.Children
import BeeFish.Lib.JsonText
import BeeFish.JSONStore
import BeeFish.JSONTree
import BeeFish.JSONIndex
import BeeFish.JSONInsert
import BeeFish.JSONAccess
import BeeFish.JSONRun
import BeeFish.JSONRemove
import BeeFish.JSONDelete
import BeeFish.JSONRequest
import BeeFish.JSONPathParser
import BeeFish.Variable
import BeeFish.JSONGrammar
import BeeFish.JSONString
import BeeFish.JSONMarks
import BeeFish.JSONSet
import BeeFish.JSONLayout
import BeeFish.VariableText
import BeeFish.JSONWrite
import BeeFish.URL
import BeeFish.Undo
