import CoeleoOs.Net.Http

/-!
# URLs

`parse_url` and the two kinds of host it knows.
-/

namespace CoeleoOs.Net
open CoeleoOs.Lib.Text

inductive Scheme
  | http | https
  deriving DecidableEq

inductive Host
  | v4 (octets : List ℕ)
  | name (s : List Char)
  deriving DecidableEq

structure Url where
  scheme : Scheme
  host : Host
  port : ℕ
  path : List Char
  deriving DecidableEq

def parseBelow (bound : ℕ) (s : List Char) : Option ℕ := (parseUsize s).filter (· < bound)

def rsplitOnce (c : Char) (s : List Char) : Option (List Char × List Char) :=
  (splitOnce (· = c) s.reverse).map fun r => (r.2.reverse, r.1.reverse)

def parseOctet (part : List Char) : Option ℕ :=
  if part = [] ∨ ¬ part.all (fun c => (digit c).isSome) then none else parseBelow 256 part

def parseIpv4 (s : List Char) : Option (List ℕ) :=
  let parts := s.splitOn '.'
  if parts.length = 4 then parts.mapM parseOctet else none

def isLabelChar (c : Char) : Bool :=
  (digit c).isSome || ('a' ≤ c && c ≤ 'z') || ('A' ≤ c && c ≤ 'Z') || c = '-'

def isHostname (s : List Char) : Bool :=
  let s := if s.getLast? = some '.' then s.dropLast else s
  s ≠ [] && (utf8 s).length ≤ 253 && '.' ∈ s &&
    (s.splitOn '.').all fun lab => lab ≠ [] && (utf8 lab).length ≤ 63 && lab.all isLabelChar

def stripPrefix (p s : List Char) : Option (List Char) :=
  if p <+: s then some (s.drop p.length) else none

def parseHost (host : List Char) : Option Host :=
  match parseIpv4 host with
  | some addr => some (.v4 addr)
  | none => if isHostname host then some (.name host) else none

def parseAuthority (authority : List Char) (defaultPort : ℕ) : Option (List Char × ℕ) :=
  match rsplitOnce ':' authority with
  | some (h, p) =>
    (parseBelow (2 ^ 16) p).bind fun port => if port = 0 then none else some (h, port)
  | none => some (authority, defaultPort)

def parseRest (scheme : Scheme) (defaultPort : ℕ) (rest : List Char) : Option Url := do
  if rest = [] then none
  let authority := rest.takeWhile (· ≠ '/')
  let path := rest.dropWhile (· ≠ '/')
  if authority = [] then none
  let (host, port) ← parseAuthority authority defaultPort
  let host ← parseHost host
  return ⟨scheme, host, port, if path = [] then ['/'] else path⟩

def parseUrl (s : List Char) : Option Url :=
  match stripPrefix "http://".toList s with
  | some r => parseRest .http 80 r
  | none =>
    match stripPrefix "https://".toList s with
    | some r => parseRest .https 443 r
    | none => none

end CoeleoOs.Net
