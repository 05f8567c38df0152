import FluxCore.Torrent.Names

/-!
# The files of a torrent

`extractFileEntries` of `bittorrent_helper.cc` reads the files out of an info dictionary. A
torrent of one file is named by `name`; where there are `files`, each has a path below that name.
-/

namespace FluxCore.Torrent

open Utp (Bytes)
open Bencode (ValueBase Dict name)

/-! ## Exceptions -/

inductive ErrorCode where
  | unknownError
  | bittorrentParseError
  deriving DecidableEq

/-- A download fails; `aborts` where a `DlAbortEx` is thrown. -/
structure DownloadError where
  what : Bytes
  errorCode : ErrorCode
  aborts : Bool
  deriving DecidableEq

/-- `fmt`, which has room for 2047 bytes. -/
def fmt (text : Bytes) : Bytes := text.take 2047

/-- A string as `%s` prints it, up to a NUL. -/
def cStr (s : Bytes) : Bytes := s.takeWhile (· ≠ 0)

def DL_ABORT_EX2 (what : Bytes) : DownloadError := ⟨what, .bittorrentParseError, true⟩

def MSG_DIR_TRAVERSAL_DETECTED (path : Bytes) : Bytes :=
  fmt (name "Detected directory traversal directive in " ++ cStr path)

def MSG_MISSING_BT_INFO (key : String) : Bytes :=
  fmt (name s!"Missing {key} in torrent metainfo.")

def MSG_NEGATIVE_LENGTH_BT_INFO (key : String) (length : Int) : Bytes :=
  fmt (name s!"{key} does not allow negative integer {length}")

def EX_TOO_LARGE_FILE (size : Int) : Bytes := fmt (name s!"Too large file size. size={size}")

/-! ## File entries -/

structure FileEntry where
  path : Bytes
  length : Int
  offset : Int
  uris : List Bytes
  originalName : Bytes
  suffixPath : Bytes
  maxConnectionPerServer : Nat
  deriving DecidableEq

/-- The options that are read. -/
structure Settings where
  dir : Bytes
  maxConnectionPerServer : Nat

/-- The file at `suffixPath` below the download directory. -/
def Settings.fileEntry (o : Settings) (utf8Path : Bytes) (length offset : Int)
    (uris : List Bytes) : FileEntry where
  path := applyDir o.dir (escapePath utf8Path)
  length
  offset
  uris
  originalName := utf8Path
  suffixPath := escapePath utf8Path
  maxConnectionPerServer := o.maxConnectionPerServer

/-- `createUri`. -/
def createUri (urlList : List Bytes) (filePath : Bytes) : List Bytes :=
  urlList.map fun uri => if uri.getLast? = some slash then uri ++ filePath
    else uri ++ [slash] ++ filePath

/-- The uris of a single file. -/
def singleUris (urlList : List Bytes) (utf8Name : Bytes) : List Bytes :=
  urlList.map fun uri => if uri.getLast? = some slash then uri ++ percentEncode utf8Name else uri

/-- `downcast<String>` of every element. -/
def pathStrings : List ValueBase → Option (List Bytes)
  | [] => some []
  | .string s :: vs => (pathStrings vs).map (s :: ·)
  | _ :: _ => none

def containsKey (d : Dict) (key : Bytes) : Bool := (Dict.get d key).isSome

/-- The key `key` in UTF-8, if the dictionary has it. -/
def preferUtf8 (d : Dict) (key : String) : Bytes :=
  if containsKey d (name (key ++ ".utf-8")) then name (key ++ ".utf-8") else name key

/-! ## Extraction -/

inductive FileMode where
  | single
  | multi
  deriving DecidableEq

/-- The files read so far. -/
structure Files where
  length : Int := 0
  offset : Int := 0
  fileEntries : List FileEntry := []

def maxInt64 : Int := 2 ^ 63 - 1

/-- A turn of the loop over `files`; what is not a dictionary is skipped. -/
def extractFile (o : Settings) (urlList : List Bytes) (utf8Name : Bytes) (files : Files) :
    ValueBase → Except DownloadError Files
  | .dict fileDict =>
    match Dict.getInteger fileDict (name "length") with
    | none => .error (DL_ABORT_EX2 (MSG_MISSING_BT_INFO "length"))
    | some fileLength =>
      if fileLength < 0 then
        .error (DL_ABORT_EX2 (MSG_NEGATIVE_LENGTH_BT_INFO "length" fileLength))
      else if maxInt64 - fileLength < files.length then
        .error ⟨EX_TOO_LARGE_FILE files.length, .unknownError, false⟩
      else
        let pathList := (Dict.getList fileDict (preferUtf8 fileDict "path")).getD []
        if pathList.isEmpty then .error (DL_ABORT_EX2 (name "Path is empty."))
        else
          match pathStrings pathList with
          | none => .error (DL_ABORT_EX2 (name "Path element is not string."))
          | some path =>
            let utf8Path := strjoin ((utf8Name :: path).map encodeNonUtf8)
            if detectDirTraversal utf8Path then
              .error (DL_ABORT_EX2 (MSG_DIR_TRAVERSAL_DETECTED utf8Path))
            else
              let pePath := strjoin ((utf8Name :: path).map percentEncode)
              .ok {
                length := files.length + fileLength
                offset := files.offset + fileLength
                fileEntries := files.fileEntries ++
                  [o.fileEntry utf8Path fileLength files.offset (createUri urlList pePath)] }
  | _ => .ok files

/-- What a torrent says of its files. -/
structure Extracted where
  name : Bytes
  mode : FileMode
  fileEntries : List FileEntry
  basePath : Option Bytes
  deriving DecidableEq

/-- The name of the torrent. -/
def extractName (infoDict : Dict) (defaultName overrideName : Bytes) :
    Except DownloadError Bytes :=
  if overrideName = [] then
    match Dict.getString infoDict (preferUtf8 infoDict "name") with
    | some nameData =>
      let utf8Name := encodeNonUtf8 nameData
      if detectDirTraversal utf8Name then
        .error (DL_ABORT_EX2 (MSG_DIR_TRAVERSAL_DETECTED nameData))
      else .ok utf8Name
    | none => .ok (getBasename defaultName ++ name ".file")
  else .ok overrideName

/-- The files of a torrent with the name `utf8Name`. -/
def extractFiles (o : Settings) (infoDict : Dict) (utf8Name : Bytes) (urlList : List Bytes) :
    Except DownloadError Extracted :=
  match Dict.getList infoDict (name "files") with
  | some filesList =>
    match filesList.foldlM (extractFile o urlList utf8Name) {} with
    | .error e => .error e
    | .ok files => .ok {
        name := utf8Name
        mode := .multi
        fileEntries := files.fileEntries
        basePath := some (applyDir o.dir (escapePath utf8Name)) }
  | none =>
    match Dict.getInteger infoDict (name "length") with
    | none => .error (DL_ABORT_EX2 (MSG_MISSING_BT_INFO "length"))
    | some totalLength =>
      if totalLength < 0 then
        .error (DL_ABORT_EX2 (MSG_NEGATIVE_LENGTH_BT_INFO "length" totalLength))
      else .ok {
        name := utf8Name
        mode := .single
        fileEntries := [o.fileEntry utf8Name totalLength 0 (singleUris urlList utf8Name)]
        basePath := none }

def extractFileEntries (o : Settings) (infoDict : Dict) (defaultName overrideName : Bytes)
    (urlList : List Bytes) : Except DownloadError Extracted :=
  match extractName infoDict defaultName overrideName with
  | .error e => .error e
  | .ok utf8Name => extractFiles o infoDict utf8Name urlList

end FluxCore.Torrent
