/-
# FastGate.ModelTurnHttp.Handler — one model turn over HTTP

`serveHTTP` checks the transport, executes the body and writes one prepared response.  A response is
the list of calls made on the response writer; a handler that panics may have made none.

* Header maps are lists of their entries in the order in which an iteration finds them.  Go iterates over
  maps in any order, and `ModelTurnHttp.Gate` shows that it does not matter.
* The parser of media types belongs to the standard library and is a parameter: a media type and its
  parameters, or none where it reports an error.  `ModelTurnHttp.MediaType` puts the library's own in its
  place.
* The request target is compared in its raw and in its parsed form, so that no spelling of the path
  (escapes, an empty query, an absolute form) passes for it.
* A nil request is refused like a foreign target; only a nil request that was not refused would panic.
-/
import FastGate.ModelTurn.Executor
import FastGate.ModelTurnHttp.Presentation

open FastGate.Utf8 (Bytes)
open FastGate.Go (decodeRune runeError trimSpace)
open FastGate.Provider
open FastGate.ModelTurn (Reader Invoker execute)

namespace FastGate.ModelTurnHttp

/-! ## Requests -/

/-- An `http.Header`. -/
abbrev Header := List (Bytes × List Bytes)

/-- The parts of a `url.URL` that the handler reads. -/
structure Url where
  path : Bytes
  rawPath : Bytes
  rawQuery : Bytes
  forceQuery : Bool
  scheme : Bytes
  host : Bytes
  opaquePart : Bytes
  deriving DecidableEq, Repr

/-- The parts of an `http.Request` that the handler reads. -/
structure HttpRequest (σ : Type) where
  requestURI : Bytes
  url : Option Url
  method : Bytes
  header : Header
  trailer : Header
  context : Context
  body : Option (Reader σ × σ)

/-- The only target that is served. -/
def modelTurnPath : Bytes := goString "/v1/model-turns"

/-- The body under status 404. -/
def notFoundBody : Bytes := goString "not found\n"

/-- The body under status 405. -/
def methodNotAllowedBody : Bytes := goString "method not allowed\n"

/-- The body under status 415. -/
def unsupportedMediaTypeBody : Bytes := goString "unsupported media type\n"

/-- The only method that is served. -/
def methodPost : Bytes := goString "POST"

/-! ## The transport -/

/-- ASCII letters in lower case. -/
def lowerAscii (n : Nat) : Nat := if 0x41 ≤ n ∧ n ≤ 0x5A then n + 0x20 else n

/-- A rune folds to an ASCII character: up to case, and U+017F folds to `s` and U+212A to `k`. -/
def foldsTo (c : Char) (b : UInt8) : Bool :=
  lowerAscii c.toNat == lowerAscii b.toNat ||
    (c.toNat == 0x17F && lowerAscii b.toNat == 0x73) ||
    (c.toNat == 0x212A && lowerAscii b.toNat == 0x6B)

/-- `strings.EqualFold` against an ASCII text. -/
def equalFold (s : Bytes) : Bytes → Bool
  | [] => s.isEmpty
  | b :: t =>
    let (c, size) := decodeRune s
    size ≠ 0 && foldsTo c b && equalFold (s.drop size) t

/-- `hasExactTarget`: the raw target and its parsed form both are the path and nothing more. -/
def hasExactTarget {σ : Type} (request : Option (HttpRequest σ)) : Bool :=
  match request with
  | none => false
  | some request =>
    if request.requestURI ≠ modelTurnPath then false
    else
      match request.url with
      | none => false
      | some url =>
        url.path = modelTurnPath && url.rawPath = [] && url.rawQuery = [] && !url.forceQuery &&
          url.scheme = [] && url.host = [] && url.opaquePart = []

/-- The values of a field under every spelling of its name, and whether there is one. -/
def headerFieldValues (header : Header) (name : Bytes) : List Bytes × Bool :=
  header.foldl
    (fun (values, present) (fieldName, fieldValues) =>
      if equalFold fieldName name then (values ++ fieldValues, true) else (values, present))
    ([], false)

/-- `strings.Cut` at one byte. -/
def cut (s : Bytes) (separator : UInt8) : Bytes × Bytes × Bool :=
  match s.dropWhile (· ≠ separator) with
  | [] => (s, [], false)
  | _ :: after => (s.takeWhile (· ≠ separator), after, true)

/-- `mime.ParseMediaType` -/
abbrev MediaTypeParser := Bytes → Option (Bytes × List (Bytes × Bytes))

section Transport

variable (parseMediaType : MediaTypeParser)

/-- `acceptsJSONMediaType`: JSON with no parameter, or with the UTF-8 charset and nothing more. -/
def acceptsJSONMediaType (value : Bytes) : Bool :=
  let semicolonCount := value.count 0x3B
  if semicolonCount > 1 then false
  else
    let rawParameter := (cut value 0x3B).2.1
    let (rawName, _, hasValue) := cut rawParameter 0x3D
    if semicolonCount = 1 && (!hasValue || !equalFold (trimSpace rawName) (goString "charset")) then false
    else
      match parseMediaType value with
      | none => false
      | some (mediaType, parameters) =>
        if !equalFold mediaType jsonMediaType then false
        else if semicolonCount = 0 then parameters.length = 0
        else
          match parameters with
          | [(name, parameterValue)] =>
            equalFold name (goString "charset") && equalFold parameterValue (goString "utf-8")
          | _ => false

/-- The response to a request the transport refuses. -/
def transportRejection {σ : Type} (request : Option (HttpRequest σ)) : Option PreparedResponse :=
  if !hasExactTarget request then some (prepareTextResponse 404 notFoundBody [])
  else
    match request with
    | none => some (prepareTextResponse 404 notFoundBody [])
    | some request =>
      if request.method ≠ methodPost then
        some (prepareTextResponse 405 methodNotAllowedBody methodPost)
      else if (headerFieldValues request.header (goString "Content-Encoding")).2 ||
          (headerFieldValues request.trailer (goString "Content-Encoding")).2 then
        some (prepareTextResponse 415 unsupportedMediaTypeBody [])
      else
        match (headerFieldValues request.header (goString "Content-Type")).1 with
        | [contentType] =>
          if (headerFieldValues request.trailer (goString "Content-Type")).2 ||
              !acceptsJSONMediaType parseMediaType contentType then
            some (prepareTextResponse 415 unsupportedMediaTypeBody [])
          else none
        | _ => some (prepareTextResponse 415 unsupportedMediaTypeBody [])

/-! ## The response -/

/-- A call on an `http.ResponseWriter`; `header` carries the fields set on the map it returns. -/
inductive WriterCall where
  | header (fields : List (Bytes × Bytes))
  | writeHeader (status : Nat)
  | write (body : Bytes)
  deriving DecidableEq, Repr

/-- The header fields of a response. -/
def responseFields (response : PreparedResponse) : List (Bytes × Bytes) :=
  [(goString "Cache-Control", goString "no-store"), (goString "Content-Type", response.mediaType),
    (goString "X-Content-Type-Options", goString "nosniff")] ++
    if response.allowMethod ≠ [] then [(goString "Allow", response.allowMethod)] else []

/-- `writePreparedResponse`: the header, the status and the body, each in one call. -/
def writePreparedResponse (response : PreparedResponse) : List WriterCall :=
  [.header (responseFields response), .writeHeader response.status, .write response.body]

/-- What serving a request does: the invocations, the calls on the response writer, and how it ends. -/
structure Served where
  invocations : List (Context × Request)
  writes : List WriterCall
  completion : Completion HandlerPanic Unit

/-- A response that was prepared, or the panic in its place. -/
def Served.of (invocations : List (Context × Request)) :
    Completion HandlerPanic PreparedResponse → Served
  | .returned response => ⟨invocations, writePreparedResponse response, .returned ()⟩
  | .panicked v => ⟨invocations, [], .panicked v⟩

/-- `ServeHTTP` -/
def serveHTTP {σ : Type} (invoker : Invoker) (request : Option (HttpRequest σ)) : Served :=
  match transportRejection parseMediaType request, request with
  | some response, _ => .of [] (.returned response)
  | none, none => ⟨[], [], .panicked .nilRequest⟩
  | none, some request =>
    let execution := execute invoker (some request.context) request.body
    match execution.completion with
    | .panicked v => ⟨execution.calls, [], .panicked (.invoker v)⟩
    | .returned outcome => .of execution.calls (prepareOutcome outcome)

end Transport

end FastGate.ModelTurnHttp
