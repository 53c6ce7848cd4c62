import LiteHttp.StringT
import Mathlib.Data.List.DropRight

/-!
# Methods, versions and header values

The tables of http_types.h and http_hdr.def and the parsers of http_types.c.
-/

namespace LiteHttp

set_option autoImplicit false

/-- `http_err_t`: http_success and the codes of http_ec.def. -/
inductive HttpErr where
  | success
  | socket
  | setsocketopt
  | inetPton
  | bind
  | listen
  | accept
  | sigaction
  | path
  | malloc
  | fread
  | read
  | write
  | config
  | fcntlFGetfl
  | fcntlFSetfl
  | epollCreate
  | epollCtlAdd
  | epollCtlDel
  | epollWait
  | unsetFatal
  | unsetUseDefault
  | thdPoolIni
  | thdPoolDestroy
  | thdPoolThdFn
  | thdPoolAddJob
  | parseCannotFindSplit
  | parseCannotFindSpace
  | requestUnkownMethod
  | requestVersionInvalid
  | realloc
  | clientClose
  | pthreadMutexInit
  | pthreadMutexDestroy
  | pthreadMutexLock
  | pthreadMutexUnlock
  | open
  | fstat
  | mmap
  | munmap
  | hashUninitialized
  | getcwd
  | getUnkownStatus
  | getUnkownVersion
  | parseCannotFindClrf
  | requestFatal
  | requestFixedBodyLen
  | requestChunkedBody
  | requestTcpSegmentInBody
  | paramInvalidNullptr
  | parseUnkownTransferEncoding
  | parseInvalidContentLength
  | parseUnkownContentType
  | parseUnkownConnectionType
  | parseValue
  | requestKeepAlive
  | requestWantToClose
  deriving DecidableEq, Repr

inductive HttpMethod where
  | get
  | head
  | post
  | put
  | maxKnown
  | unkown
  deriving DecidableEq, Repr

inductive HttpVersion where
  | ver10
  | ver11
  | ver20
  | ver30
  | unkown
  deriving DecidableEq, Repr

inductive HttpHeaderField where
  | host
  | userAgent
  | accept
  | contentType
  | contentLength
  | connection
  | transferEncoding
  | max
  | unkown
  deriving DecidableEq, Repr

/-- `http_methods_str`, each entry with the enumerator its index stands for. -/
def httpMethodsStr : List (HttpMethod × Bytes) :=
  [(.get, ascii ['G', 'E', 'T']),
   (.head, ascii ['H', 'E', 'A', 'D']),
   (.post, ascii ['P', 'O', 'S', 'T']),
   (.put, ascii ['P', 'U', 'T'])]

/-- http_hdr.def, in its order. -/
def httpHdrDef : List (HttpHeaderField × Bytes) :=
  [(.host, ascii ['H', 'o', 's', 't']),
   (.userAgent, ascii ['U', 's', 'e', 'r', '-', 'A', 'g', 'e', 'n', 't']),
   (.accept, ascii ['A', 'c', 'c', 'e', 'p', 't']),
   (.contentType, ascii ['C', 'o', 'n', 't', 'e', 'n', 't', '-', 'T', 'y', 'p', 'e']),
   (.contentLength,
    ascii ['C', 'o', 'n', 't', 'e', 'n', 't', '-', 'L', 'e', 'n', 'g', 't', 'h']),
   (.connection, ascii ['C', 'o', 'n', 'n', 'e', 'c', 't', 'i', 'o', 'n']),
   (.transferEncoding,
    ascii ['T', 'r', 'a', 'n', 's', 'f', 'e', 'r', '-', 'E', 'n', 'c', 'o', 'd', 'i', 'n', 'g'])]

def httpMatchMethod (sv : Bytes) : HttpMethod :=
  match httpMethodsStr.find? fun e => stringViewCompare sv e.2 = 0 with
  | some e => e.1
  | none => .unkown

def httpMatchVersion (sv : Bytes) : HttpVersion :=
  let pre := ascii ['H', 'T', 'T', 'P', '/']
  if sv.length < 6 ∨ strncmp 5 pre sv ≠ 0 then .unkown
  else if sv.getD 5 0 = 49 then
    if sv.length ≠ 8 ∨ sv.getD 6 0 ≠ 46 ∨ (sv.getD 7 0 ≠ 49 ∧ sv.getD 7 0 ≠ 48) then .unkown
    else if sv.getD 7 0 = 49 then .ver11
    else .ver10
  else if sv.getD 5 0 = 50 then .ver20
  else if sv.getD 5 0 = 51 then .ver30
  else .unkown

def httpMatchHeaderField (sv : Bytes) : HttpHeaderField :=
  match httpHdrDef.find? fun e => stringViewCompare sv e.2 = 0 with
  | some e => e.1
  | none => .unkown

inductive ContentTypeMajor where
  | unkown
  | text
  | application
  | image
  | audio
  | video
  deriving DecidableEq, Repr

inductive ContentTypeSub where
  | unknown
  | plain
  | html
  | json
  | xml
  | xWwwFormUrlencoded
  | formData
  | png
  | jpeg
  | gif
  deriving DecidableEq, Repr

inductive ConnectionType where
  | unkown
  | keepAlive
  | close
  deriving DecidableEq, Repr

inductive TransferEncodingType where
  | unkown
  | chunked
  deriving DecidableEq, Repr

/-- The anonymous union of `http_hdr_value_t`, by the member written last. -/
inductive HdrUnion where
  | content (contentLength : Int)
  | contentType (major : ContentTypeMajor) (sub : ContentTypeSub)
  | connection (type : ConnectionType)
  | transferEncoding (type : TransferEncodingType)
  deriving DecidableEq, Repr

def ContentTypeMajor.toNat : ContentTypeMajor → Nat
  | .unkown => 0
  | .text => 1
  | .application => 2
  | .image => 3
  | .audio => 4
  | .video => 5

def ContentTypeSub.toNat : ContentTypeSub → Nat
  | .unknown => 0
  | .plain => 1
  | .html => 2
  | .json => 3
  | .xml => 4
  | .xWwwFormUrlencoded => 5
  | .formData => 6
  | .png => 7
  | .jpeg => 8
  | .gif => 9

def ConnectionType.toNat : ConnectionType → Nat
  | .unkown => 0
  | .keepAlive => 1
  | .close => 2

def TransferEncodingType.toNat : TransferEncodingType → Nat
  | .unkown => 0
  | .chunked => 1

/-- The first four bytes of the union read as an enumerator, whichever member
wrote them: every enumeration of the union starts at offset 0, and the low half
of a little-endian `int64_t` does too. -/
def HdrUnion.firstWord : HdrUnion → Nat
  | .content n => (n % 2 ^ 32).toNat
  | .contentType major _ => major.toNat
  | .connection type => type.toNat
  | .transferEncoding type => type.toNat

/-- The whole union read as its `content` member. -/
def HdrUnion.contentLength : HdrUnion → Int
  | .content n => n
  | .contentType major sub => major.toNat + 2 ^ 32 * sub.toNat
  | .connection type => type.toNat
  | .transferEncoding type => type.toNat

structure HttpHdrValue where
  valueSv : Bytes
  hasParsedType : Bool
  parsed : HdrUnion
  deriving DecidableEq, Repr

structure HttpHeader where
  field : HttpHeaderField
  value : HttpHdrValue
  name : Bytes
  deriving DecidableEq, Repr

/-- `http_header_t new_header = {0}`; the zero enumerator of a field is `http_hdr_host`. -/
def HttpHeader.zero : HttpHeader := ⟨.host, ⟨[], false, .content 0⟩, []⟩

def isBlank (c : Byte) : Bool := c = 32 || c = 9

def contentTypeMajorOf (s : Bytes) : ContentTypeMajor :=
  if s = ascii ['t', 'e', 'x', 't'] then .text
  else if s = ascii ['a', 'p', 'p', 'l', 'i', 'c', 'a', 't', 'i', 'o', 'n'] then .application
  else if s = ascii ['i', 'm', 'a', 'g', 'e'] then .image
  else if s = ascii ['a', 'u', 'd', 'i', 'o'] then .audio
  else if s = ascii ['v', 'i', 'd', 'e', 'o'] then .video
  else .unkown

def contentTypeSubOf (s : Bytes) : ContentTypeSub :=
  if s = ascii ['p', 'l', 'a', 'i', 'n'] then .plain
  else if s = ascii ['h', 't', 'm', 'l'] then .html
  else if s = ascii ['j', 's', 'o', 'n'] then .json
  else if s = ascii ['x', 'm', 'l'] then .xml
  else if s = ascii ['x', '-', 'w', 'w', 'w', '-', 'f', 'o', 'r', 'm', '-', 'u', 'r', 'l', 'e', 'n',
      'c', 'o', 'd', 'e', 'd'] then .xWwwFormUrlencoded
  else if s = ascii ['f', 'o', 'r', 'm', '-', 'd', 'a', 't', 'a'] then .formData
  else if s = ascii ['p', 'n', 'g'] then .png
  else if s = ascii ['j', 'p', 'e', 'g'] then .jpeg
  else if s = ascii ['g', 'i', 'f'] then .gif
  else .unknown

def httpHdrValueParseContentType (value : HttpHdrValue) : HttpErr × HttpHdrValue :=
  let p := (toCstr value.valueSv).dropWhile isBlank
  match p.idxOf? 47 with
  | none => (.parseUnkownContentType, { value with parsed := .contentType .unkown .unknown })
  | some slash =>
    -- the trimming loop stops at the first character of the major type
    let majorStr := match p.take slash with
      | [] => []
      | c :: cs => c :: cs.rdropWhile isBlank
    let subStr := ((p.drop (slash + 1)).dropWhile isBlank).takeWhile (· ≠ 59)
    let major := contentTypeMajorOf majorStr
    let sub := contentTypeSubOf subStr
    let value := { value with hasParsedType := true, parsed := .contentType major sub }
    if major = .unkown ∧ sub = .unknown then (.parseUnkownContentType, value)
    else (.success, value)

def isDigit (c : Byte) : Bool := 48 ≤ c && c ≤ 57

def isSpace (c : Byte) : Bool := c = 32 || (9 ≤ c && c ≤ 13)

def decimalValue (ds : Bytes) : Nat := ds.foldl (fun n c => 10 * n + (c.toNat - 48)) 0

def int64Max : Int := 2 ^ 63 - 1
def int64Min : Int := -2 ^ 63

/-- `strtoll(p, &endptr, 10)`: the value and the offset of `endptr` from `p`. -/
def strtoll (p : Bytes) : Int × Nat :=
  let s := p.dropWhile isSpace
  let t := if s.head? = some 45 ∨ s.head? = some 43 then s.tail else s
  let ds := t.takeWhile isDigit
  if ds = [] then (0, 0)
  else
    let n : Int := decimalValue ds
    let v := if s.head? = some 45 then -n else n
    (max int64Min (min int64Max v), p.length - t.length + ds.length)

def httpHdrValueParseContentLength (value : HttpHdrValue) : HttpErr × HttpHdrValue :=
  let p := (toCstr value.valueSv).dropWhile isBlank
  let (contentLength, endptr) := strtoll p
  if endptr = 0 then (.parseInvalidContentLength, value)
  else (.success, { value with parsed := .content contentLength })

def httpHdrValueParseConnection (value : HttpHdrValue) : HttpErr × HttpHdrValue :=
  let valueStrs : List (ConnectionType × Bytes) :=
    [(.keepAlive, ascii ['k', 'e', 'e', 'p', '-', 'a', 'l', 'i', 'v', 'e']),
     (.close, ascii ['c', 'l', 'o', 's', 'e'])]
  match valueStrs.find? fun e => stringViewCompare value.valueSv e.2 = 0 with
  | some e => (.success, { value with parsed := .connection e.1 })
  | none => (.parseUnkownConnectionType, { value with parsed := .connection .unkown })

def httpHdrValueParseTransferEncoding (value : HttpHdrValue) : HttpErr × HttpHdrValue :=
  let valueStrs : List (TransferEncodingType × Bytes) :=
    [(.chunked, ascii ['c', 'h', 'u', 'n', 'k', 'e', 'd'])]
  match valueStrs.find? fun e => stringViewCompare value.valueSv e.2 = 0 with
  | some e => (.success, { value with parsed := .transferEncoding e.1 })
  | none => (.parseUnkownTransferEncoding, { value with parsed := .transferEncoding .unkown })

/-- The `switch` of `http_hdr_parse_value`. -/
def parseTypedValue (field : HttpHeaderField) (value : HttpHdrValue) : HttpErr × HttpHdrValue :=
  match field with
  | .contentType => httpHdrValueParseContentType value
  | .contentLength => httpHdrValueParseContentLength value
  | .connection => httpHdrValueParseConnection value
  | .transferEncoding => httpHdrValueParseTransferEncoding value
  | _ => (.success, { value with hasParsedType := false })

def httpHdrParseValue (header : HttpHeader) (valueSv : Bytes) : HttpErr × HttpHeader :=
  let value := { header.value with valueSv := valueSv, hasParsedType := true }
  let (herr, value) := parseTypedValue header.field value
  if herr ≠ .success then
    (.parseValue, { header with value := { value with hasParsedType := false } })
  else (.success, { header with value := value })

end LiteHttp
