import Kaikai.Text

/-!
HTTP/1.1 messages: the minimal URL parser, the head of a message and the framing of its
body. An error is its text.
-/

namespace Kaikai.Http

open Kaikai.Decimal
open Kaikai.Str
open Kaikai.Text

structure HttpUrl where
  scheme : Str
  host : Str
  port : Int
  path : Str
  deriving DecidableEq

structure HttpHeader where
  name : Str
  value : Str
  deriving DecidableEq

structure Request where
  method : Str
  url : Str
  headers : List HttpHeader
  body : Str
  deriving DecidableEq

structure Response where
  status : Int
  headers : List HttpHeader
  body : Str
  deriving DecidableEq

def httpAfter (s : Str) (at' : Nat) : Str := stringSlice s at' (s.length - at')

def httpMinOffset (a b : Option Nat) : Option Nat :=
  match a, b with
  | none, b => b
  | a, none => a
  | some a, some b => if a < b then some a else some b

/-- Where the authority ends: the first `/`, `?` or `#`. -/
def httpAuthorityEnd (rest : Str) : Option Nat :=
  httpMinOffset (httpMinOffset (stringFind rest (ascii "/")) (stringFind rest (ascii "?")))
    (stringFind rest (ascii "#"))

/-- An empty port selects the default of the scheme. -/
def httpParsePort (text : Str) : Except Str Int :=
  if text.length = 0 then .ok 80
  else
    match stringToInt text with
    | some p =>
        if p ≥ 1 ∧ p ≤ 65535 then .ok p
        else .error (ascii "parse_url: invalid port '" ++ text ++ ascii "'")
    | none => .error (ascii "parse_url: invalid port '" ++ text ++ ascii "'")

def httpBuildUrl (auth tail : Str) : Except Str HttpUrl :=
  let i := stringFind auth (ascii ":")
  let host := match i with
    | none => auth
    | some i => stringSlice auth 0 i
  let path :=
    if tail.length = 0 then ascii "/"
    else if startsWith tail (ascii "/") then tail
    else ascii "/" ++ tail
  let port := match i with
    | none => []
    | some i => httpAfter auth (i + 1)
  match httpParsePort port with
  | .error e => .error e
  | .ok port =>
      if host.length = 0 then .error (ascii "parse_url: empty host")
      else .ok ⟨ascii "http", host, port, path⟩

def httpParseHttpUrl (rest : Str) : Except Str HttpUrl :=
  match httpAuthorityEnd rest with
  | none => httpBuildUrl rest []
  | some i => httpBuildUrl (stringSlice rest 0 i) (httpAfter rest i)

def parseUrl (s : Str) : Except Str HttpUrl :=
  match stringFind s (ascii "://") with
  | none => .error (ascii "parse_url: missing scheme separator '://' in URL")
  | some i =>
      let scheme := stringSlice s 0 i
      if scheme = ascii "http" then httpParseHttpUrl (httpAfter s (i + 3))
      else if scheme = ascii "https" then
        .error (ascii ("parse_url: https:// requires TLS, which is not in net.http v1 " ++
          "(see stdlib/net/http.kai header)"))
      else
        .error (ascii "parse_url: unsupported scheme '" ++ scheme ++
          ascii "' (only http:// is supported in v1)")

/-- The start line, the other lines of the head, and everything after the blank line. -/
structure HttpHead where
  start : Str
  lines : List Str
  body : Str

def crlf : Str := [13, 10]

def blankLine : Str := [13, 10, 13, 10]

def httpSplitHead (raw ctx : Str) : Except Str HttpHead :=
  match stringFind raw blankLine with
  | none => .error (ctx ++ ascii ": missing header/body separator (\\r\\n\\r\\n)")
  | some i =>
      match stringSplit (stringSlice raw 0 i) crlf with
      | [] => .error (ctx ++ ascii ": empty header block")
      | start :: lines => .ok ⟨start, lines, httpAfter raw (i + 4)⟩

def httpParseHeaderLine (line ctx : Str) : Except Str HttpHeader :=
  match stringFind line (ascii ":") with
  | none => .error (ctx ++ ascii ": header missing ':': " ++ line)
  | some i =>
      if i = 0 then .error (ctx ++ ascii ": empty header name: " ++ line)
      else .ok ⟨stringSlice line 0 i, trim (httpAfter line (i + 1))⟩

def httpParseHeaderLinesLoop (lines : List Str) (ctx : Str) (acc : List HttpHeader) :
    Except Str (List HttpHeader) :=
  match lines with
  | [] => .ok acc.reverse
  | l :: rest =>
      match httpParseHeaderLine l ctx with
      | .error e => .error e
      | .ok h => httpParseHeaderLinesLoop rest ctx (h :: acc)

def httpParseHeaderLines (lines : List Str) (ctx : Str) : Except Str (List HttpHeader) :=
  httpParseHeaderLinesLoop lines ctx []

/-- The first header of a name, in the letter case given. -/
def headerLookup (hs : List HttpHeader) (name : Str) : Option Str :=
  match hs with
  | [] => none
  | h :: rest => if h.name = name then some h.value else headerLookup rest name

def httpContentLength (hs : List HttpHeader) : Option Int :=
  match headerLookup hs (ascii "Content-Length") with
  | some v => stringToInt v
  | none => none

/-- The first `n` bytes of the body; all of it when `n` exceeds its length. -/
def httpClampBody (body : Str) (n : Int) : Str := if n ≤ 0 then [] else stringSlice body 0 n

def httpFrameBody (hs : List HttpHeader) (body : Str) : Str :=
  match httpContentLength hs with
  | some n => httpClampBody body n
  | none => body

structure HttpReqLine where
  method : Str
  path : Str

def httpParseRequestLine (line : Str) : Except Str HttpReqLine :=
  match stringSplit line (ascii " ") with
  | [m, p, proto] =>
      if proto = ascii "HTTP/1.1" then .ok ⟨m, p⟩
      else .error (ascii "parse_request: unsupported protocol '" ++ proto ++
        ascii "' (v1 accepts HTTP/1.1 only)")
  | _ => .error (ascii "parse_request: malformed request line: " ++ line)

def httpBuildRequest (head : HttpHead) (rl : HttpReqLine) : Except Str Request :=
  match httpParseHeaderLines head.lines (ascii "parse_request") with
  | .error e => .error e
  | .ok hs => .ok ⟨rl.method, rl.path, hs, head.body⟩

/-- The request with its body still everything after the blank line. -/
def httpParseRequestUnframed (raw : Str) : Except Str Request :=
  match httpSplitHead raw (ascii "parse_request") with
  | .error e => .error e
  | .ok head =>
      match httpParseRequestLine head.start with
      | .error e => .error e
      | .ok rl => httpBuildRequest head rl

def httpWithBody (r : Request) (body : Str) : Request := ⟨r.method, r.url, r.headers, body⟩

def parseRequest (raw : Str) : Except Str Request :=
  match httpParseRequestUnframed raw with
  | .error e => .error e
  | .ok r => .ok (httpWithBody r (httpFrameBody r.headers r.body))

end Kaikai.Http
