import Muses.Core.OrderedMap
import Muses.Core.Search
import Muses.Core.Text

/-!
# `HttpInfo` and `HttpContext::parse_request`

The request parser of `muses/net_components/http_handler.hpp`, which the proxy uses on requests
and, for lack of another one, on the heads of responses. The parser reads the text through an
`istringstream` and stops where the stream does, so it never fails: a text that is no request
leaves fields empty.
-/

namespace Muses

open Muses.Core Text Search

abbrev HeaderMap := OrderedMap Bytes Bytes

structure HttpInfo where
  method : Bytes := []
  url : Bytes := []
  version : Bytes := []
  headers : HeaderMap := .empty
  body : Bytes := []
  deriving DecidableEq

def HttpInfo.wantsKeepAlive (info : HttpInfo) : Bool :=
  match info.headers.find? (ascii "Connection") with
  | some v => (find (ascii "close") v).isNone
  | none => info.version = ascii "HTTP/1.1"

namespace HttpContext

def crlf : Bytes := [13, 10]

def blankLine : Bytes := [13, 10, 13, 10]

/-! ## `parse_request` -/

def popReturn (line : Bytes) : Bytes :=
  if line.getLast? = some 13 then line.dropLast else line

def splitPos (line : Bytes) : Option Nat :=
  match find [58, 32] line with
  | some pos => some pos
  | none => find [58] line

def splitLine (line : Bytes) : Option (Bytes × Bytes) :=
  (splitPos line).map fun pos =>
    (line.take pos, line.drop (if (line)[pos + 1]? = some 32 then pos + 2 else pos + 1))

instance : Std.Irrefl fun a b : Bytes => a < b := inferInstance

instance : Std.Trichotomous fun a b : Bytes => a < b := inferInstance

instance : Trans (fun a b : Bytes => a < b) (fun a b : Bytes => a < b) (fun a b : Bytes => a < b) :=
  inferInstance

def addLine (headers : HeaderMap) (line : Bytes) : HeaderMap :=
  match splitLine (popReturn line) with
  | some (key, val) => headers.assign key val
  | none => headers

/-- The loop over the header lines. Every round but the last extracts a line, so `fuel` beyond the
size of the text is never used up. -/
def parseHeaders : Nat → InStream → HeaderMap → InStream × HeaderMap
  | 0, stream, headers => (stream, headers)
  | fuel + 1, stream, headers =>
      match stream.getline 10 with
      | (stream, none) => (stream, headers)
      | (stream, some line) =>
          if line = [13] ∨ line = [] then (stream, headers)
          else parseHeaders fuel stream (addLine headers line)

def parseRequest (request : Bytes) : HttpInfo :=
  match InStream.getline ⟨request, false, false⟩ 32 with
  | (_, none) => {}
  | (stream, some method) =>
      match stream.getline 32 with
      | (_, none) => { method := method }
      | (stream, some url) =>
          match stream.getline 13 with
          | (_, none) => { method := method, url := url }
          | (stream, some version) =>
              let (stream, headers) := parseHeaders (request.length + 1) stream.get .empty
              let body :=
                match stream.tellg request.length with
                | some pos => if pos < request.length then request.drop pos else []
                | none => []
              { method := method, url := url, version := version, headers := headers, body := body }

/-! ## `build_response` -/

def buildResponse (status : Nat) (statusText contentType body : Bytes) (keepAlive : Bool) :
    Bytes :=
  ascii "HTTP/1.1 " ++ decimal status ++ ascii " " ++ statusText ++ crlf ++
    ascii "Content-Type: " ++ contentType ++ crlf ++
    ascii "Content-Length: " ++ decimal body.length ++ crlf ++
    ascii "Connection: " ++ (if keepAlive then ascii "keep-alive" else ascii "close") ++ crlf ++
    crlf ++ body

end HttpContext

end Muses
