import FluxCore.Torrent.Names

/-!
# Splitting URIs

`uri_split` goes over the string once. The pointers that it keeps are positions, and the fields that
it reports have offsets and lengths of 16 bits.
-/

namespace FluxCore.Uri

open Utp (Bytes)
open Torrent (slash)
open Util (isDigit)

/-! ## Characters -/

abbrev atmark : UInt8 := 0x40

abbrev colon : UInt8 := 0x3a

abbrev question : UInt8 := 0x3f

abbrev hash : UInt8 := 0x23

abbrev lbracket : UInt8 := 0x5b

abbrev rbracket : UInt8 := 0x5d

/-- The characters that end an authority. -/
def isEnd (c : UInt8) : Bool := c == slash || c == question || c == hash

/-! ## The scan -/

/-- `uri_split_state`. -/
inductive State where
  | beforeScheme
  | scheme
  | schemeSlash1
  | schemeSlash2
  | beforeMaybeUser
  | maybeUser
  | beforeMaybePasswd
  | maybePasswd
  | beforeHost
  | host
  | beforeIpv6host
  | ipv6host
  | afterIpv6host
  | beforePort
  | port
  | path
  | beforeQuery
  | query
  | beforeFragment
  | fragment
  deriving DecidableEq, Repr

/-- The pointers, and the other variables. -/
structure Marks where
  schemeFirst : Option Nat := none
  schemeLast : Option Nat := none
  hostFirst : Option Nat := none
  hostLast : Option Nat := none
  pathFirst : Option Nat := none
  pathLast : Option Nat := none
  queryFirst : Option Nat := none
  queryLast : Option Nat := none
  fragmentFirst : Option Nat := none
  fragmentLast : Option Nat := none
  userFirst : Option Nat := none
  userLast : Option Nat := none
  passwdFirst : Option Nat := none
  passwdLast : Option Nat := none
  lastAtmark : Option Nat := none
  lastSlash : Option Nat := none
  port : Int := -1
  /-- `USF_IPV6ADDR`. -/
  ipv6addr : Bool := false
  deriving DecidableEq, Repr

/-- The branches for a character that ends the authority. -/
def leave (m : Marks) (p : Nat) (c : UInt8) : State × Marks :=
  if c = slash then (.path, { m with pathFirst := some p, lastSlash := some p })
  else if c = question then (.beforeQuery, m)
  else (.beforeFragment, m)

/-- This is only the host, or the user and the host if there is an at-mark. -/
def settle (m : Marks) (last : Option Nat) : Marks :=
  match m.lastAtmark with
  | some at_ => { m with hostFirst := some (at_ + 1), hostLast := last, userLast := some at_ }
  | none =>
    { m with hostFirst := m.userFirst, hostLast := last, userFirst := none, userLast := none }

/-- The end of the user, the host and the port, which was not a password. -/
def settlePort (m : Marks) : Marks :=
  { settle m (m.passwdFirst.map (· - 1)) with passwdFirst := none, passwdLast := none }

/-- `UINT16_MAX`. -/
def uint16Max : Int := 65535

/-- One digit more. -/
def addDigit (port : Int) (c : UInt8) : Int := port * 10 + (c.toNat - 0x30 : Int)

/-- A turn of the loop. It is `none` where the function returns `-1`. -/
def step (st : State) (m : Marks) (p : Nat) (c : UInt8) : Option (State × Marks) :=
  match st with
  | .beforeScheme => some (.scheme, { m with schemeFirst := some p })
  | .scheme =>
    if c = colon then some (.schemeSlash1, { m with schemeLast := some p }) else some (.scheme, m)
  | .schemeSlash1 => if c = slash then some (.schemeSlash2, m) else none
  | .schemeSlash2 => if c = slash then some (.beforeMaybeUser, m) else none
  | .beforeMaybeUser =>
    if c = atmark ∨ c = colon ∨ c = slash then none
    else if c = lbracket then some (.beforeIpv6host, m)
    else some (.maybeUser, { m with userFirst := some p })
  | .maybeUser =>
    if c = atmark then some (.maybeUser, { m with lastAtmark := some p })
    else if c = colon then some (.beforeMaybePasswd, { m with userLast := some p })
    else if c = lbracket then
      if m.lastAtmark = some (p - 1) then
        some (.beforeIpv6host, { m with userLast := m.lastAtmark })
      else none
    else if isEnd c then some (leave (settle m (some p)) p c)
    else some (.maybeUser, m)
  | .beforeMaybePasswd =>
    let m := { m with passwdFirst := some p }
    if c = atmark then
      some (.beforeHost, { m with passwdLast := some p, lastAtmark := some p })
    else if c = slash then none
    else some (.maybePasswd, if isDigit c then { m with port := c.toNat - 0x30 } else m)
  | .maybePasswd =>
    if c = atmark then
      some (.beforeHost, { m with passwdLast := some p, lastAtmark := some p, port := -1 })
    else if c = lbracket then none
    else if isEnd c then if m.port = -1 then none else some (leave (settlePort m) p c)
    else if m.port ≠ -1 then
      if isDigit c then
        let port := addDigit m.port c
        some (.maybePasswd, { m with port := if port > uint16Max then -1 else port })
      else some (.maybePasswd, { m with port := -1 })
    else some (.maybePasswd, m)
  | .beforeHost =>
    if c = colon ∨ c = slash then none
    else if c = lbracket then some (.beforeIpv6host, m)
    else some (.host, { m with hostFirst := some p })
  | .host =>
    if c = colon then some (.beforePort, { m with hostLast := some p })
    else if isEnd c then some (leave { m with hostLast := some p } p c)
    else some (.host, m)
  | .beforeIpv6host =>
    if c = rbracket then none else some (.ipv6host, { m with hostFirst := some p })
  | .ipv6host =>
    if c = rbracket then some (.afterIpv6host, { m with ipv6addr := true, hostLast := some p })
    else some (.ipv6host, m)
  | .afterIpv6host =>
    if c = colon then some (.beforePort, m)
    else if isEnd c then some (leave m p c)
    else none
  | .beforePort => if isDigit c then some (.port, { m with port := c.toNat - 0x30 }) else none
  | .port =>
    if isEnd c then some (leave m p c)
    else if isDigit c then
      let port := addDigit m.port c
      if port > uint16Max then none else some (.port, { m with port })
    else none
  | .path =>
    if c = slash then some (.path, { m with lastSlash := some p })
    else if c = question then some (.beforeQuery, { m with pathLast := some p })
    else if c = hash then some (.beforeFragment, { m with pathLast := some p })
    else some (.path, m)
  | .beforeQuery =>
    let m := { m with queryFirst := some p }
    if c = hash then some (.beforeFragment, { m with queryLast := some p }) else some (.query, m)
  | .query =>
    if c = hash then some (.beforeFragment, { m with queryLast := some p }) else some (.query, m)
  | .beforeFragment => some (.fragment, { m with fragmentFirst := some p })
  | .fragment => some (.fragment, m)

/-- The premature states. -/
def finish (st : State) (m : Marks) (p : Nat) : Option Marks :=
  match st with
  | .beforeScheme | .scheme | .schemeSlash1 | .schemeSlash2 | .beforeMaybeUser => none
  | .maybeUser =>
    if m.lastAtmark.map (· + 1) = some p then none else some (settle m (some p))
  | .beforeMaybePasswd => none
  | .maybePasswd => if m.port = -1 then none else some (settlePort m)
  | .beforeHost => none
  | .host => some { m with hostLast := some p }
  | .beforeIpv6host | .ipv6host => none
  | .afterIpv6host => some m
  | .beforePort => none
  | .port => if m.port = -1 then none else some m
  | .path => some { m with pathLast := some p }
  | .beforeQuery => some { m with queryFirst := some p, queryLast := some p }
  | .query => some { m with queryLast := some p }
  | .beforeFragment => some { m with fragmentFirst := some p, fragmentLast := some p }
  | .fragment => some { m with fragmentLast := some p }

def scan (st : State) (m : Marks) (p : Nat) : Bytes → Option Marks
  | [] => finish st m p
  | c :: s =>
    match step st m p c with
    | none => none
    | some (st, m) => scan st m (p + 1) s

/-! ## The result -/

/-- An offset and a length. -/
structure Field where
  off : Nat
  len : Nat
  deriving DecidableEq, Repr

/-- `uri_split_result`; a field that is not in `field_set` is `none`. -/
structure UriSplitResult where
  scheme : Option Field
  host : Option Field
  path : Option Field
  query : Option Field
  fragment : Option Field
  user : Option Field
  passwd : Option Field
  userinfo : Option Field
  basename : Option Field
  port : Option Nat
  ipv6addr : Bool
  deriving DecidableEq, Repr

/-- `uri_set_field`, with the conversions to 16 bits. -/
def setField (first last : Option Nat) : Option Field :=
  first.map fun first => ⟨first % 2 ^ 16, (last.getD 0 - first) % 2 ^ 16⟩

def report (m : Marks) : UriSplitResult where
  scheme := setField m.schemeFirst m.schemeLast
  host := setField m.hostFirst m.hostLast
  path := setField m.pathFirst m.pathLast
  query := setField m.queryFirst m.queryLast
  fragment := setField m.fragmentFirst m.fragmentLast
  user := setField m.userFirst m.userLast
  passwd := setField m.passwdFirst m.passwdLast
  userinfo := if m.userFirst.isSome then setField m.userFirst m.lastAtmark else none
  basename :=
    match m.lastSlash with
    | some last =>
      if some (last + 1) ≠ m.pathLast then setField (some (last + 1)) m.pathLast else none
    | none => none
  port := if m.port ≠ -1 then some m.port.toNat else none
  ipv6addr := m.ipv6addr

/-- The characters of a string up to the first NUL. -/
def cstr (uri : Bytes) : Bytes := uri.takeWhile (· ≠ 0)

/-- It is `none` where the function returns `-1`. -/
def uriSplit (uri : Bytes) : Option UriSplitResult :=
  (scan .beforeScheme {} 0 (cstr uri)).map report

end FluxCore.Uri
