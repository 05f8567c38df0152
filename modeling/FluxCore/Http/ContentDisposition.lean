import FluxCore.Uri.Uri
import FluxCore.Util.Utf8

/-!
# The name of a file in a header

`parse_content_disposition` goes over the value of the header once and writes the name of the file into
a buffer. One set of variables serves all parameters.
-/

namespace FluxCore.Http.Disposition

open Utp (Bytes)
open Torrent (isAlpha detectDirTraversal slash)
open Util (isDigit isLws UTF8_ACCEPT UTF8_REJECT utf8dfa)

/-! ## Characters -/

def inRFC2978MIMECharset (c : UInt8) : Bool :=
  isAlpha c || isDigit c || "!#$%&'+-^_`\x7b\x7d~".toUTF8.toList.contains c

def inRFC2616HttpToken (c : UInt8) : Bool :=
  isAlpha c || isDigit c || "!#$%&'*+-.^_`|~".toUTF8.toList.contains c

/-- The character `'*'`. -/
abbrev star : UInt8 := 0x2a

/-- The character `'\''`. -/
abbrev apostrophe : UInt8 := 0x27

/-- The character `'%'`. -/
abbrev percent : UInt8 := 0x25

/-- The character `';'`. -/
abbrev semicolon : UInt8 := 0x3b

/-- The character `'='`. -/
abbrev equals : UInt8 := 0x3d

/-- The character `'"'`. -/
abbrev quote : UInt8 := 0x22

abbrev backslash : UInt8 := 0x5c

def inRFC5987AttrChar (c : UInt8) : Bool :=
  inRFC2616HttpToken c && c != star && c != apostrophe && c != percent

def isIso8859p1 (c : UInt8) : Bool := (0x20 ≤ c && c ≤ 0x7e) || 0xa0 ≤ c

/-- A character of a language. -/
def isLanguage (c : UInt8) : Bool := c == 0x2d || isAlpha c || isDigit c

def lowcase (c : UInt8) : UInt8 := if 0x41 ≤ c ∧ c ≤ 0x5a then c + 0x20 else c

def strieq (a b : Bytes) : Bool := a.map lowcase = b.map lowcase

/-! ## The parser -/

inductive Cd where
  | beforeDispositionType
  | afterDispositionType
  | dispositionType
  | beforeDispositionParmName
  | afterDispositionParmName
  | dispositionParmName
  | beforeValue
  | afterValue
  | quotedString
  | token
  | beforeExtValue
  | charset
  | language
  | valueChars
  | valueCharsPctEncoded1
  | valueCharsPctEncoded2
  deriving DecidableEq, Repr

inductive CdEnc where
  | unknown
  | utf8
  | iso88591
  deriving DecidableEq, Repr

/-- The variables. A pointer is the text that it marks. -/
structure CdVars where
  /-- From `mark_first` to the current character. -/
  marked : Bytes := []
  /-- From `mark_first` to `mark_last`. -/
  name : Bytes := []
  inFileParm : Bool := false
  filenameFound : Bool := false
  extFilenameFound : Bool := false
  quotedSeen : Bool := false
  charset : CdEnc := .unknown
  /-- What stands in front of `dp` in the buffer. -/
  dest : Bytes := []
  dfaState : UInt32 := UTF8_ACCEPT
  dfaCode : UInt32 := 0
  pctval : UInt8 := 0
  charsetp : Option Bytes := none
  deriving DecidableEq, Repr

/-- A character is written, if it is one of the file name. -/
def CdVars.put (v : CdVars) (destlen : Nat) (c : UInt8) : Option CdVars :=
  if v.inFileParm then
    if v.dest.length = destlen then none else some { v with dest := v.dest ++ [c] }
  else some v

/-- The automaton reads a byte. -/
def CdVars.utf8 (v : CdVars) (c : UInt8) : Option CdVars :=
  let r := utf8dfa v.dfaState v.dfaCode c
  if r.1 = UTF8_REJECT then none else some { v with dfaState := r.1, dfaCode := r.2 }

/-- What the name of a parameter decides. -/
def cdParm (v : CdVars) (name : Bytes) : Option (Cd × CdVars) :=
  let v := { v with name }
  if strieq name "filename*".toUTF8.toList then
    if v.extFilenameFound then none
    else some (.beforeExtValue, { v with inFileParm := true, dest := [] })
  else if strieq name "filename".toUTF8.toList then
    if v.filenameFound then none
    else if v.extFilenameFound then some (.beforeValue, { v with inFileParm := false })
    else some (.beforeValue, { v with inFileParm := true, dest := [] })
  else if name.length ≠ 1 ∧ name.getLast? = some star then
    some (.beforeExtValue, { v with inFileParm := false })
  else some (.beforeValue, { v with inFileParm := false })

/-- A turn of the loop. It is `none` where the function returns `-1`. -/
def cdStep (defaultUTF8 : Bool) (destlen : Nat) (st : Cd) (v : CdVars) (c : UInt8) :
    Option (Cd × CdVars) :=
  match st with
  | .beforeDispositionType =>
    if inRFC2616HttpToken c then some (.dispositionType, v)
    else if isLws c then some (.beforeDispositionType, v)
    else none
  | .afterDispositionType | .dispositionType =>
    if c = semicolon then some (.beforeDispositionParmName, v)
    else if isLws c then some (.afterDispositionType, v)
    else if st = .afterDispositionType ∨ inRFC2616HttpToken c = false then none
    else some (st, v)
  | .beforeDispositionParmName =>
    if inRFC2616HttpToken c then some (.dispositionParmName, { v with marked := [c] })
    else if isLws c then some (.beforeDispositionParmName, v)
    else none
  | .afterDispositionParmName | .dispositionParmName =>
    if c = equals then cdParm v (if st = .dispositionParmName then v.marked else v.name)
    else if isLws c then
      some (.afterDispositionParmName, { v with name := v.marked, marked := v.marked ++ [c] })
    else if st = .afterDispositionParmName ∨ inRFC2616HttpToken c = false then none
    else some (st, { v with marked := v.marked ++ [c] })
  | .beforeValue =>
    if c = quote then
      let v := { v with quotedSeen := false }
      some (.quotedString,
        if defaultUTF8 then { v with dfaState := UTF8_ACCEPT, dfaCode := 0 } else v)
    else if inRFC2616HttpToken c then (v.put destlen c).map (.token, ·)
    else if isLws c then some (.beforeValue, v)
    else none
  | .afterValue =>
    if c = semicolon then some (.beforeDispositionParmName, v)
    else if isLws c then some (.afterValue, v)
    else none
  | .quotedString =>
    if c = backslash ∧ v.quotedSeen = false then some (.quotedString, { v with quotedSeen := true })
    else if c = quote ∧ v.quotedSeen = false then
      if defaultUTF8 ∧ v.dfaState ≠ UTF8_ACCEPT then none
      else some (.afterValue, if v.inFileParm then { v with filenameFound := true } else v)
    else
      let v := { v with quotedSeen := false }
      let v? := if defaultUTF8 then v.utf8 c else if isIso8859p1 c then some v else none
      (v?.bind (·.put destlen c)).map (.quotedString, ·)
  | .token =>
    if inRFC2616HttpToken c then (v.put destlen c).map (.token, ·)
    else
      let v := if v.inFileParm then { v with filenameFound := true } else v
      if c = semicolon then some (.beforeDispositionParmName, v)
      else if isLws c then some (.afterValue, v)
      else none
  | .beforeExtValue =>
    if c = apostrophe then none
    else if inRFC2978MIMECharset c then some (.charset, { v with marked := [c] })
    else if isLws c then some (.beforeExtValue, v)
    else none
  | .charset =>
    if c = apostrophe then
      let v := { v with name := v.marked, charsetp := some v.marked }
      some (.language,
        if strieq v.marked "utf-8".toUTF8.toList then
          { v with charset := .utf8, dfaState := UTF8_ACCEPT, dfaCode := 0 }
        else if strieq v.marked "iso-8859-1".toUTF8.toList then { v with charset := .iso88591 }
        else { v with charset := .unknown })
    else if inRFC2978MIMECharset c then some (.charset, { v with marked := v.marked ++ [c] })
    else none
  | .language =>
    if c = apostrophe then some (.valueChars, if v.inFileParm then { v with dest := [] } else v)
    else if isLanguage c then some (.language, v)
    else none
  | .valueChars =>
    if inRFC5987AttrChar c then
      let v? := if v.charset = .utf8 then v.utf8 c else some v
      (v?.bind (·.put destlen c)).map (.valueChars, ·)
    else if c = percent then
      if v.inFileParm ∧ v.dest.length = destlen then none
      else some (.valueCharsPctEncoded1, { v with pctval := 0 })
    else if c = semicolon ∨ isLws c then
      if v.charset = .utf8 ∧ v.dfaState ≠ UTF8_ACCEPT then none
      else
        some (if c = semicolon then .beforeDispositionParmName else .afterValue,
          if v.inFileParm then { v with extFilenameFound := true } else v)
    else none
  | .valueCharsPctEncoded1 =>
    if Util.isHexDigit c then
      some (.valueCharsPctEncoded2, { v with pctval := v.pctval ||| (Util.hexCharToUInt c <<< 4) })
    else none
  | .valueCharsPctEncoded2 =>
    if Util.isHexDigit c then
      let v := { v with pctval := v.pctval ||| Util.hexCharToUInt c }
      let v? :=
        if v.charset = .utf8 then v.utf8 v.pctval
        else if v.charset = .iso88591 then if isIso8859p1 v.pctval then some v else none
        else some v
      v?.map fun v => (.valueChars, if v.inFileParm then { v with dest := v.dest ++ [v.pctval] } else v)
    else none

/-- What is returned at the end: what is in the buffer, and what `charsetp` points to. -/
def cdFinish (st : Cd) (v : CdVars) : Option (Bytes × Option Bytes) :=
  match st with
  | .beforeDispositionType | .afterDispositionType | .dispositionType | .afterValue | .token =>
    some (v.dest, v.charsetp)
  | .valueChars =>
    if v.charset = .utf8 ∧ v.dfaState ≠ UTF8_ACCEPT then none else some (v.dest, v.charsetp)
  | _ => none

def cdScan (defaultUTF8 : Bool) (destlen : Nat) (st : Cd) (v : CdVars) :
    Bytes → Option (Bytes × Option Bytes)
  | [] => cdFinish st v
  | c :: s =>
    match cdStep defaultUTF8 destlen st v c with
    | none => none
    | some (st, v) => cdScan defaultUTF8 destlen st v s

/-- It is `none` where the function returns `-1`. -/
def parseContentDisposition (defaultUTF8 : Bool) (destlen : Nat) (header : Bytes) :
    Option (Bytes × Option Bytes) :=
  cdScan defaultUTF8 destlen .beforeDispositionType {} header

/-! ## The name -/

/-- A character that is not in ISO/IEC 8859-1 makes the result empty. -/
def iso8859p1ToUtf8 (src : Bytes) : Bytes :=
  if src.any fun c => 0x80 ≤ c && c ≤ 0x9f then []
  else src.flatMap fun c =>
    if 0xa0 ≤ c then [if c ≤ 0xbf then 0xc2 else 0xc3, c &&& ~~~0x40] else [c]

/-- `cdval.size()`. -/
def cdvallen : Nat := 1024

def isIso (charset : Option Bytes) (defaultUTF8 : Bool) : Bool :=
  match charset with
  | some charset => strieq charset "iso-8859-1".toUTF8.toList
  | none => !defaultUTF8

def getContentDispositionFilename (header : Bytes) (defaultUTF8 : Bool) : Bytes :=
  match parseContentDisposition defaultUTF8 cdvallen header with
  | none => []
  | some (cdval, charset) =>
    let res := if isIso charset defaultUTF8 then iso8859p1ToUtf8 cdval else cdval
    if detectDirTraversal res = false ∧ slash ∉ res ∧ backslash ∉ res then res else []

end FluxCore.Http.Disposition
