import FluxCore.Uri.Parts

/-!
# URIs

`parse` takes the fields of `uri_split` apart; `construct` puts a URI together again.
-/

namespace FluxCore.Uri

open Utp (Bytes)
open Torrent (slash percentEncode)
open Util (isDigit isHexDigit hexCharToUInt)

structure UriStruct where
  protocol : Bytes
  host : Bytes
  dir : Bytes
  file : Bytes
  query : Bytes
  username : Bytes
  password : Bytes
  port : Nat
  hasPassword : Bool
  ipv6LiteralAddress : Bool
  deriving DecidableEq, Repr

/-! ## The functions -/

/-- The character `'%'`. -/
abbrev percentSign : UInt8 := 0x25

def percentDecode : Bytes → Bytes
  | [] => []
  | [c] => [c]
  | [c, d] => [c, d]
  | c :: h :: l :: s =>
    if c = percentSign ∧ isHexDigit h ∧ isHexDigit l then
      (hexCharToUInt h * 16 + hexCharToUInt l) :: percentDecode s
    else c :: percentDecode (h :: l :: s)

def getDefaultPort (protocol : Bytes) : Nat :=
  if protocol = "http".toUTF8.toList then 80
  else if protocol = "https".toUTF8.toList then 443
  else if protocol = "ftp".toUTF8.toList then 21
  else if protocol = "sftp".toUTF8.toList then 22
  else if protocol = "ed2k".toUTF8.toList then 4662
  else 0

/-- What a field covers. -/
def slice (p : Bytes) (f : Field) : Bytes := (p.drop f.off).take f.len

inductive Outcome where
  | rejected
  /-- The length of an `assign` is negative, and thus greater than the greatest length. -/
  | lengthError
  | accepted (us : UriStruct)
  deriving DecidableEq, Repr

def structOf (p : Bytes) (res : UriSplitResult) : Outcome :=
  let get (f : Option Field) := slice p (f.getD ⟨0, 0⟩)
  let protocol := get res.scheme
  let port := res.port.getD 0
  let pathLen := (res.path.getD ⟨0, 0⟩).len
  let basenameLen := (res.basename.getD ⟨0, 0⟩).len
  if pathLen < basenameLen then .lengthError
  else .accepted {
    protocol
    host := get res.host
    port := if port = 0 then getDefaultPort protocol else port
    dir :=
      match res.path with
      | some path => slice p ⟨path.off, pathLen - basenameLen⟩
      | none => [slash]
    file := if res.path.isSome ∧ res.basename.isSome then get res.basename else []
    query := if res.query.isSome then question :: get res.query else []
    username := if res.user.isSome then percentDecode (get res.user) else []
    hasPassword := res.passwd.isSome
    password := if res.passwd.isSome then percentDecode (get res.passwd) else []
    ipv6LiteralAddress := res.ipv6addr }

def parse (uri : Bytes) : Outcome :=
  match uriSplit uri with
  | none => .rejected
  | some res => structOf (cstr uri) res

/-- `%u`. -/
def decimalBytes (n : Nat) : Bytes := (Nat.toDigits 10 n).map fun c => UInt8.ofNat c.toNat

def construct (us : UriStruct) : Bytes :=
  us.protocol ++ [colon, slash, slash] ++
  (if us.username ≠ [] then
    percentEncode us.username ++
    (if us.hasPassword then [colon] ++ percentEncode us.password else []) ++ [atmark]
  else []) ++
  (if us.ipv6LiteralAddress then [lbracket] ++ us.host ++ [rbracket] else us.host) ++
  (if us.port ≠ 0 ∧ getDefaultPort us.protocol ≠ us.port then [colon] ++ decimalBytes us.port
  else []) ++
  us.dir ++ (if us.dir = [] ∨ us.dir.getLast? ≠ some slash then [slash] else []) ++ us.file ++
  us.query

end FluxCore.Uri
