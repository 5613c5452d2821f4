import Funbun.Strings.ParseInt

/-! Patch files, as they are parsed line by line. -/
namespace Funbun.Patch
open Strings (ascii indexOfChar parseDecimal parseUnsignedInt)

abbrev Bytes := List UInt8

inductive PartType where
  | context
  | insertion
  | deletion
  deriving DecidableEq

/-- Lines of a hunk that are kept, inserted or deleted together. -/
structure PatchMutationPart where
  ty : PartType
  lines : List Bytes
  noNewlineAtEndOfFile : Bool
  deriving DecidableEq

/-- `start,len` in the header of a hunk. -/
structure HeaderRange where
  start : Nat
  len : Nat
  deriving DecidableEq

structure Header where
  original : HeaderRange
  patched : HeaderRange
  deriving DecidableEq

structure Hunk where
  header : Header
  parts : List PatchMutationPart
  deriving DecidableEq

/-- The lines that the parts have before the patch -/
def originalLength : List PatchMutationPart → Nat
  | [] => 0
  | part :: parts => (if part.ty = .insertion then 0 else part.lines.length) + originalLength parts

/-- The lines that they have after it -/
def patchedLength : List PatchMutationPart → Nat
  | [] => 0
  | part :: parts => (if part.ty = .deletion then 0 else part.lines.length) + patchedLength parts

/-- The header says how long the parts are. -/
def Hunk.verifyIntegrity (h : Hunk) : Bool :=
  originalLength h.parts = h.header.original.len && patchedLength h.parts = h.header.patched.len

inductive FileMode where
  | nonExecutable
  | executable
  deriving DecidableEq

def FileMode.toBunMode : FileMode → Nat
  | nonExecutable => 0o644
  | executable => 0o755

/-- What a patch does to a file. -/
inductive PatchFilePart where
  | filePatch (path : Bytes) (hunks : List Hunk) (beforeHash afterHash : Option Bytes)
  | fileDeletion (path : Bytes) (mode : FileMode) (hunk : Option Hunk) (hash : Option Bytes)
  | fileCreation (path : Bytes) (mode : FileMode) (hunk : Option Hunk) (hash : Option Bytes)
  | fileRename (fromPath toPath : Bytes)
  | fileModeChange (path : Bytes) (oldMode newMode : FileMode)
  deriving DecidableEq

def PatchFilePart.hunks : PatchFilePart → List Hunk
  | filePatch _ hunks _ _ => hunks
  | fileDeletion _ _ hunk _ | fileCreation _ _ hunk _ => hunk.toList
  | fileRename _ _ | fileModeChange _ _ _ => []

inductive ParseErr where
  | unrecognizedPragma
  | noNewlineAtEofPragmaEncounteredWithoutContext
  | hunkLinesEncounteredBeforeHunkHeader
  | hunkHeaderIntegrityCheckFailed
  | badDiffLine
  | badHeaderLine
  | renameFromAndToNotGive
  | noPathGivenForFileDeletion
  | noPathGivenForFileCreation
  | badFileMode
  deriving DecidableEq

/-- What has been read about a file, as texts. -/
structure FileDeets where
  diffLineFromPath : Option Bytes
  diffLineToPath : Option Bytes
  oldMode : Option Bytes
  newMode : Option Bytes
  deletedFileMode : Option Bytes
  newFileMode : Option Bytes
  renameFrom : Option Bytes
  renameTo : Option Bytes
  beforeHash : Option Bytes
  afterHash : Option Bytes
  fromPath : Option Bytes
  toPath : Option Bytes
  hunks : List Hunk

def FileDeets.default : FileDeets := ⟨none, none, none, none, none, none, none, none, none, none, none, none, []⟩

def nullify (s : Option Bytes) : Option Bytes := s.filter (· ≠ [])

/-- An empty text is none. -/
def FileDeets.nullifyEmptyStrings (f : FileDeets) : FileDeets where
  diffLineFromPath := nullify f.diffLineFromPath
  diffLineToPath := nullify f.diffLineToPath
  oldMode := nullify f.oldMode
  newMode := nullify f.newMode
  deletedFileMode := nullify f.deletedFileMode
  newFileMode := nullify f.newFileMode
  renameFrom := nullify f.renameFrom
  renameTo := nullify f.renameTo
  beforeHash := nullify f.beforeHash
  afterHash := nullify f.afterHash
  fromPath := nullify f.fromPath
  toPath := nullify f.toPath
  hunks := f.hunks

/-! ### Texts of lines -/

def startsWith (start : String) (line : Bytes) : Bool := (ascii start).isPrefixOf line

def whitespace : Bytes := ascii " \t\n\r"

def trimRight (s : Bytes) : Bytes := (s.reverse.dropWhile (· ∈ whitespace)).reverse

def trim (s : Bytes) : Bytes := trimRight (s.dropWhile (· ∈ whitespace))

/-- The rest of a line, behind so many bytes that may be missing -/
def behind (start : String) (line : Bytes) : Option Bytes := some (trim (line.drop start.length))

def isDigit (c : UInt8) : Bool := '0'.toUInt8 ≤ c && c ≤ '9'.toUInt8

def u32Max : Nat := 4294967295

/-- The number of a line and the count of lines, with the text behind them -/
def parseHunkHeaderLineImpl (text : Bytes) : Except ParseErr (HeaderRange × Bytes) :=
  let lineNr := text.takeWhile isDigit
  let counted : Option (Bytes × Bytes) :=
    match text.drop lineNr.length with
    | [] => none
    | c :: rest =>
      if rest = [] then none
      else if c = ','.toUInt8 then
        let lineNrCount := rest.takeWhile isDigit
        if (rest.drop lineNrCount.length).head? = some ' '.toUInt8 then some (lineNrCount, rest.drop lineNrCount.length) else none
      else if c = ' '.toUInt8 then some (ascii "1", c :: rest)
      else none
  match counted with
  | none => .error .badHeaderLine
  | some (lineNrCount, rest) =>
    match parseDecimal u32Max lineNr, parseDecimal u32Max lineNrCount with
    | some lineNr, some lineCount => .ok (⟨max 1 lineNr, lineCount⟩, rest)
    | _, _ => .error .badHeaderLine

/-- `@@ -start,len +start,len @@` -/
def parseHunkHeaderLine (line : Bytes) : Except ParseErr Hunk :=
  let line := trim line
  if !startsWith "@@ -" line || line.length ≤ 4 then .error .badHeaderLine
  else
    parseHunkHeaderLineImpl (line.drop 4) >>= fun first =>
    if first.2[1]? ≠ some '+'.toUInt8 then .error .badHeaderLine
    else
      parseHunkHeaderLineImpl (first.2.drop 2) >>= fun second =>
      if startsWith " @@" second.2 then .ok ⟨⟨first.1, second.1⟩, []⟩ else .error .badHeaderLine

def isHashChar (c : UInt8) : Bool :=
  isDigit c || ('a'.toUInt8 ≤ c && c ≤ 'z'.toUInt8) || ('A'.toUInt8 ≤ c && c ≤ 'Z'.toUInt8) || c == '_'.toUInt8

/-- The hashes around `..` in a line `index a..b`. -/
def parseDiffHashes (line : Bytes) : Option (Bytes × Bytes) := do
  let delimiterStart ← (List.range line.length).find? fun i => startsWith ".." (line.drop i)
  let bPart := (line.drop (delimiterStart + 2)).takeWhile fun c => c ∉ whitespace
  if (line.take delimiterStart).all isHashChar && delimiterStart + 2 < line.length && bPart.all isHashChar then
    some (line.take delimiterStart, bPart)
  else none

/-- The paths of a line `diff --git a/… b/…`. -/
def parseDiffLinePaths (line : Bytes) : Option (Bytes × Bytes) := do
  if !startsWith "diff --git a/" line then none
  else
    let rest := line.drop 13
    let i ← (List.range rest.length).find? fun i => 0 < i && startsWith " b/" (rest.drop (i - 1))
    some (rest.take (i - 1), trimRight (rest.drop (i + 2)))

/-- The rest of `ScalarSplitIter`. A place that does not fit 32 bits is cut off. -/
def scalarSplit (delimiter : UInt8) : Nat → Bytes → List Bytes
  | 0, _ => []
  | limit + 1, buffer =>
    match indexOfChar buffer delimiter with
    | some pos => buffer.take pos :: scalarSplit delimiter limit (buffer.drop (pos + 1))
    | none => [buffer]

/-! ### The parser -/

inductive ParserState where
  | parsingHeader
  | parsingHunks
  deriving DecidableEq

/-- The state between two lines. -/
structure PatchLinesParser where
  result : List FileDeets
  currentFilePatch : FileDeets
  state : ParserState
  currentHunk : Option Hunk
  currentHunkMutationPart : Option PatchMutationPart

namespace PatchLinesParser

def default : PatchLinesParser := ⟨[], .default, .parsingHeader, none, none⟩

variable (p : PatchLinesParser)

/-- The hunk that was read, with its last part, belongs to the file. -/
def commitHunk : PatchLinesParser :=
  match p.currentHunk with
  | none => p
  | some hunk =>
    let hunk := { hunk with parts := hunk.parts ++ p.currentHunkMutationPart.toList }
    { p with
      currentHunk := none
      currentHunkMutationPart := none
      currentFilePatch := { p.currentFilePatch with hunks := p.currentFilePatch.hunks ++ [hunk] } }

/-- The file that was read is done. -/
def commitFilePatch : PatchLinesParser :=
  let p := p.commitHunk
  { p with currentFilePatch := .default, result := p.result ++ [p.currentFilePatch.nullifyEmptyStrings] }

def edit (f : FileDeets → FileDeets) : Except ParseErr PatchLinesParser := .ok { p with currentFilePatch := f p.currentFilePatch }

/-- A line of a header that does not begin hunks -/
def headerLine (line : Bytes) : Except ParseErr PatchLinesParser :=
  if startsWith "diff --git " line then
    let p := if p.currentFilePatch.diffLineFromPath.isSome then p.commitFilePatch else p
    match parseDiffLinePaths line with
    | none => .error .badDiffLine
    | some m => p.edit fun f => { f with diffLineFromPath := some m.1, diffLineToPath := some m.2 }
  else if startsWith "old mode " line then p.edit fun f => { f with oldMode := behind "old mode " line }
  else if startsWith "new mode " line then p.edit fun f => { f with newMode := behind "new mode " line }
  else if startsWith "deleted file mode " line then
    p.edit fun f => { f with deletedFileMode := behind "deleted file mode " line }
  else if startsWith "new file mode " line then p.edit fun f => { f with newFileMode := behind "new file mode " line }
  else if startsWith "rename from " line then p.edit fun f => { f with renameFrom := behind "rename from " line }
  else if startsWith "rename to " line then p.edit fun f => { f with renameTo := behind "rename to " line }
  else if startsWith "index " line then
    match parseDiffHashes (line.drop 6) with
    | none => .ok p
    | some hashes => p.edit fun f => { f with beforeHash := some hashes.1, afterHash := some hashes.2 }
  else if startsWith "--- " line then p.edit fun f => { f with fromPath := behind "--- a/" line }
  else if startsWith "+++ " line then p.edit fun f => { f with toPath := behind "+++ b/" line }
  else .ok p

/-- A line of a part, whose first byte is taken away -/
def partLine (ty : PartType) (line : Bytes) : Except ParseErr PatchLinesParser :=
  match p.currentHunk with
  | none => .error .hunkLinesEncounteredBeforeHunkHeader
  | some hunk =>
    match p.currentHunkMutationPart with
    | none => .ok { p with currentHunkMutationPart := some ⟨ty, [line.drop 1], false⟩ }
    | some part =>
      if part.ty = ty then .ok { p with currentHunkMutationPart := some { part with lines := part.lines ++ [line.drop 1] } }
      else .ok { p with
        currentHunk := some { hunk with parts := hunk.parts ++ [part] }
        currentHunkMutationPart := some ⟨ty, [line.drop 1], false⟩ }

/-- A line that says that the last one has no line break. -/
def pragmaLine (line : Bytes) : Except ParseErr PatchLinesParser :=
  if !startsWith "\\ No newline at end of file" line then .error .unrecognizedPragma
  else
    match p.currentHunkMutationPart with
    | none => .error .noNewlineAtEofPragmaEncounteredWithoutContext
    | some part => .ok { p with currentHunkMutationPart := some { part with noNewlineAtEndOfFile := true } }

def hunkHeaderLine (line : Bytes) : Except ParseErr PatchLinesParser :=
  parseHunkHeaderLine line >>= fun hunk => .ok { p.commitHunk with currentHunk := some hunk }

/-- One turn of the loop, and whether the line is read again -/
def turn (supportLegacyDiffs : Bool) (line : Bytes) : Except ParseErr (PatchLinesParser × Bool) :=
  match p.state with
  | .parsingHeader =>
    if startsWith "@@" line then
      .ok ({ p with state := .parsingHunks, currentFilePatch := { p.currentFilePatch with hunks := [] } }, true)
    else p.headerLine line >>= fun p => .ok (p, false)
  | .parsingHunks =>
    let back := .ok ({ p with state := .parsingHeader }.commitFilePatch, true)
    if supportLegacyDiffs && startsWith "--- a/" line then back
    else
      match line.head? with
      | none => p.partLine .context line >>= fun p => .ok (p, false)
      | some c =>
        if c = '@'.toUInt8 then p.hunkHeaderLine line >>= fun p => .ok (p, false)
        else if c = '-'.toUInt8 then p.partLine .deletion line >>= fun p => .ok (p, false)
        else if c = '+'.toUInt8 then p.partLine .insertion line >>= fun p => .ok (p, false)
        else if c = ' '.toUInt8 ∨ c = '\r'.toUInt8 then p.partLine .context line >>= fun p => .ok (p, false)
        else if c = '\\'.toUInt8 then p.pragmaLine line >>= fun p => .ok (p, false)
        else back

/-- A line that is read again is taken by the state that it led to. -/
def parseLine (supportLegacyDiffs : Bool) (line : Bytes) : Except ParseErr PatchLinesParser :=
  p.turn supportLegacyDiffs line >>= fun first =>
  if first.2 then first.1.turn supportLegacyDiffs line >>= fun second => .ok second.1 else .ok first.1

end PatchLinesParser

/-- `parse`. A line break at the end of the file is no line of its own. -/
def parse (supportLegacyDiffs : Bool) (file : Bytes) : Except ParseErr (List FileDeets) :=
  let file := if file.getLast? = some '\n'.toUInt8 then file.dropLast else file
  if file = [] then .ok []
  else
    (scalarSplit '\n'.toUInt8 (file.length + 1) file).foldlM (fun p line => p.parseLine supportLegacyDiffs line) PatchLinesParser.default >>= fun p =>
    let result := p.commitFilePatch.result
    if result.all fun deets => deets.hunks.all Hunk.verifyIntegrity then .ok result else .error .hunkHeaderIntegrityCheckFailed

/-! ### The second pass -/

/-- Of a mode in octal digits only the permissions count. -/
def parseFileMode (mode : Bytes) : Except ParseErr FileMode :=
  match (parseUnsignedInt u32Max mode 8).toOption with
  | none => .error .badFileMode
  | some n =>
    if n &&& 0o777 = 0o644 then .ok .nonExecutable else if n &&& 0o777 = 0o755 then .ok .executable else .error .badFileMode

/-- A text that is there and not empty. -/
def given (s : Option Bytes) : Bool := s.any (· ≠ [])

/-- What follows for a file that is still there -/
def destinationParts (file : FileDeets) : Option Bytes → Except ParseErr (List PatchFilePart)
  | none => .ok []
  | some path =>
    (match file.oldMode, file.newMode with
      | some oldMode, some newMode =>
        if oldMode = newMode then .ok []
        else
          parseFileMode oldMode >>= fun oldMode =>
          parseFileMode newMode >>= fun newMode => .ok [.fileModeChange path oldMode newMode]
      | _, _ => .ok []) >>= fun modes =>
    .ok (modes ++ if file.hunks = [] then [] else [.filePatch path file.hunks file.beforeHash file.afterHash])

/-- The parts for one file: a rename, a deletion or a new file, or what is left to do. -/
def fileParts (file : FileDeets) : Except ParseErr (List PatchFilePart) :=
  if given file.renameFrom then
    match file.renameFrom, file.renameTo with
    | some fromPath, some toPath =>
      destinationParts file (some toPath) >>= fun parts => .ok (.fileRename fromPath toPath :: parts)
    | _, _ => .error .renameFromAndToNotGive
  else if given file.deletedFileMode then
    match file.diffLineFromPath.or file.fromPath with
    | none => .error .noPathGivenForFileDeletion
    | some path =>
      parseFileMode (file.deletedFileMode.getD []) >>= fun mode => .ok [.fileDeletion path mode file.hunks.head? file.beforeHash]
  else if given file.newFileMode then
    match file.diffLineToPath.or file.toPath with
    | none => .error .noPathGivenForFileCreation
    | some path =>
      parseFileMode (file.newFileMode.getD []) >>= fun mode => .ok [.fileCreation path mode file.hunks.head? file.afterHash]
  else destinationParts file (file.toPath.or file.diffLineToPath)

def patchFileSecondPass (files : List FileDeets) : Except ParseErr (List PatchFilePart) :=
  files.mapM fileParts >>= fun parts => .ok parts.flatten

/-- Once more with legacy diffs, if the headers do not fit the lines. -/
def parsePatchFile (file : Bytes) : Except ParseErr (List PatchFilePart) :=
  (match parse false file with
    | .error .hunkHeaderIntegrityCheckFailed => parse true file
    | parsed => parsed) >>= patchFileSecondPass

end Funbun.Patch
