import Muses.Http.Handler
import Muses.Http.Message

/-!
# The keep-alive decision and the spelling of `Connection`

Names of header fields are the same in upper and lower case. `wants_keep_alive` looks for
`Connection` as it stands, so the last line that is spelled that way decides, and requests that
differ only in the case of their field names are treated alike exactly if these lines ask for the
same.
-/

namespace Muses.HttpContext

open Muses.Core Text Search Http

/-! ## Requests that differ in the case of names -/

def headerLines : Nat → InStream → List Bytes
  | 0, _ => []
  | fuel + 1, stream =>
      match stream.getline 10 with
      | (_, none) => []
      | (stream, some line) =>
          if line = [13] ∨ line = [] then [] else popReturn line :: headerLines fuel stream

def requestLines (request : Bytes) : List Bytes :=
  match InStream.getline ⟨request, false, false⟩ 32 with
  | (_, none) => []
  | (stream, some _) =>
      match stream.getline 32 with
      | (_, none) => []
      | (stream, some _) =>
          match stream.getline 13 with
          | (_, none) => []
          | (stream, some _) => headerLines (request.length + 1) stream.get

def connection : Bytes := ascii "Connection"

/-- The value of a line that has the name in this very spelling and is split right behind it. -/
def connectionField (line : Bytes) : Option Bytes :=
  match cut 58 line with
  | some (name, value) =>
      if name = connection ∧ (value.head? = some 32 ∨ find [58, 32] value = none) then
        some (strip value)
      else none
  | none => none

/-- The values of the fields spelled `Connection`, in the order of their lines. -/
def connections (request : Bytes) : List Bytes := (requestLines request).filterMap connectionField

variable {a b : Bytes}

def closing (host conn : Bytes) : Bytes :=
  ascii "GET" ++ 32 :: (ascii "/a" ++ 32 :: (ascii "HTTP/1.1" ++ 13 :: 10 ::
    ((host ++ 58 :: ascii " x\r") ++ 10 :: ((conn ++ 58 :: ascii " close\r") ++ 10 :: crlf))))

end Muses.HttpContext
