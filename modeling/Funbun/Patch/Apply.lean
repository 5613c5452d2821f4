import Funbun.Library.CheckedLoop
import Funbun.Patch.PatchFile

/-! Applying a patch file. The lines that a patch takes and gives are counted before their places are looked at. -/
namespace Funbun.Patch
open Library

def lineBreak : UInt8 := '\n'.toUInt8

/-! ### One file -/

/-- The count of lines after a part, which has an end of the file that is marked or not -/
def countPart (count : Nat) (part : PatchMutationPart) : Checked Nat :=
  match part.ty with
  | .deletion => .ok (count + if part.noNewlineAtEndOfFile then 1 else 0)
  | .insertion => subFrom count (if part.noNewlineAtEndOfFile then 1 else 0)
  | .context => .ok count

/-- `usize::try_from(count + patched.len - original.len).unwrap()` -/
def countHunk (count : Nat) (hunk : Hunk) : Checked Nat :=
  if hunk.header.original.len ≤ count + hunk.header.patched.len then
    hunk.parts.foldlM countPart (count + hunk.header.patched.len - hunk.header.original.len)
  else .error .intCast

/-- `lines_count`, the lines for which memory is taken -/
def linesCount (hunks : List Hunk) (fileLineCount : Nat) : Checked Nat := hunks.foldlM countHunk fileLineCount

/-- `lines.splice(from..to, new)` -/
def spliceLines (lines : List Bytes) (start stop : Nat) (new : List Bytes) : Checked (List Bytes) :=
  if start ≤ stop ∧ stop ≤ lines.length then .ok (lines.take start ++ new ++ lines.drop stop) else .error .index

/-- The place in the lines and the lines after a part, or an error of the patch -/
def applyPart (lineCursor : Nat) (lines : List Bytes) (part : PatchMutationPart) : Checked (Option (Nat × List Bytes)) :=
  match part.ty with
  | .context =>
    if lines.length < lineCursor + part.lines.length then .ok none else .ok (some (lineCursor + part.lines.length, lines))
  | .insertion =>
    if lines.length < lineCursor then .ok none
    else
      spliceLines lines lineCursor lineCursor part.lines >>= fun lines =>
      .ok (some (lineCursor + part.lines.length, if part.noNewlineAtEndOfFile then lines.dropLast else lines))
  | .deletion =>
    if lines.length < lineCursor + part.lines.length then .ok none
    else
      spliceLines lines lineCursor (lineCursor + part.lines.length) [] >>= fun lines =>
      .ok (some (lineCursor, if part.noNewlineAtEndOfFile then lines ++ [[]] else lines))

/-- The parts of a hunk one after the other, from a line on. -/
def applyParts (lineCursor : Nat) (lines : List Bytes) : List PatchMutationPart → Checked (Option (List Bytes))
  | [] => .ok (some lines)
  | part :: parts =>
    applyPart lineCursor lines part >>= fun applied =>
    match applied with
    | none => .ok none
    | some (lineCursor, lines) => applyParts lineCursor lines parts

/-- The hunks in order. None where one is out of the file. -/
def applyHunks (lines : List Bytes) : List Hunk → Checked (Option (List Bytes))
  | [] => .ok (some lines)
  | hunk :: hunks =>
    subFrom hunk.header.patched.start 1 >>= fun lineCursor =>
    if lines.length < lineCursor then .ok none
    else
      applyParts lineCursor lines hunk.parts >>= fun applied =>
      match applied with
      | none => .ok none
      | some lines => applyHunks lines hunks

/-- The file that a patch makes of another, or an error of the patch -/
def patchedContents (hunks : List Hunk) (filebuf : Bytes) : Checked (Option Bytes) :=
  linesCount hunks (filebuf.splitOn lineBreak).length >>= fun _ =>
  applyHunks (filebuf.splitOn lineBreak) hunks >>= fun applied => .ok (applied.map (List.intercalate [lineBreak]))

/-! ### A file that is new -/

/-- The lines from the index `idx` on, at the place `i` of the contents -/
def writeLines (noNewline : Bool) (lastLine : Nat) (contents : Bytes) (i idx : Nat) : List Bytes → Checked Bytes
  | [] => .ok contents
  | line :: lines =>
    writeAt contents i line >>= fun contents =>
    if idx < lastLine || !noNewline then
      writeAt contents (i + line.length) [lineBreak] >>= fun contents =>
      writeLines noNewline lastLine contents (i + line.length + 1) (idx + 1) lines
    else writeLines noNewline lastLine contents (i + line.length) (idx + 1) lines

/-- `count`, from the index `idx` on -/
def contentsCount (lastLine idx : Nat) : List Bytes → Nat
  | [] => 0
  | line :: lines => line.length + (if idx < lastLine then 1 else 0) + contentsCount lastLine (idx + 1) lines

/-- The contents are those of the first part. -/
def createdContents (hunk : Hunk) : Checked Bytes :=
  indexAt hunk.parts 0 >>= fun part =>
  let lastLine := part.lines.length - 1
  let count := contentsCount lastLine 0 part.lines + if part.noNewlineAtEndOfFile then 0 else 1
  writeLines part.noNewlineAtEndOfFile lastLine (List.replicate count 0) 0 0 part.lines

/-! ### The system -/

/-- A call, which gives a result or an error in a world, and the world after it -/
abbrev Call (W E : Type) := ExceptT E (StateM W)

/-- The calls that errors name. -/
inductive Tag where
  | unlink
  | rename
  | open
  | read
  | fchmodat
  | fstatat
  deriving DecidableEq

structure Stat where
  stMode : Nat
  stSize : Nat

/-- What the system does on Unix, in the directory of the patch. Files that are opened are created, or cut to no bytes;
of a file that is written at most the bytes are taken that it is given. -/
structure Sys (W E : Type) where
  einval : Tag → E
  unlinkat : Bytes → Call W E Unit
  renameat : Bytes → Bytes → Call W E Unit
  mkdirRecursiveAtMode : Bytes → Nat → Call W E Unit
  openat : Bytes → Nat → Call W E Nat
  write : Nat → Bytes → Call W E Nat
  close : Nat → W → W
  fchmodat : Bytes → Nat → Call W E Unit
  fstatat : Bytes → Call W E Stat
  readFrom : Bytes → Call W E Bytes
  write_le : ∀ {fd bytes w n w'}, write fd bytes w = (.ok n, w') → n ≤ bytes.length

/-- How a step ends: with an error or without, in a world -/
abbrev Outcome (W E : Type) := Option E × W

section
variable {W E α : Type} (sys : Sys W E)

def stop (err : Option E) (w : W) : Checked (Outcome W E) := .ok (err, w)

/-- What comes after a call, unless it has an error -/
def andThen (call : Call W E α) (next : α → W → Checked (Outcome W E)) (w : W) : Checked (Outcome W E) :=
  match call w with
  | (.error err, w) => stop (some err) w
  | (.ok a, w) => next a w

/-- A guard that closes the file at the end -/
def closing (fd : Nat) (outcome : Checked (Outcome W E)) : Checked (Outcome W E) :=
  outcome >>= fun outcome => .ok (outcome.1, sys.close fd outcome.2)

/-- One turn of `while written < contents.len()`, in a state of what is written and the world -/
def writeTurn (fd : Nat) (contents : Bytes) (s : Nat × W) : Checked (Turn (Nat × W) (Outcome W E)) :=
  if s.1 < contents.length then
    sliceFrom contents s.1 >>= fun rest =>
    match sys.write fd rest s.2 with
    | (.error err, w) => .ok (.done (some err, w))
    | (.ok n, w) => .ok (.next (s.1 + n, w))
  else .ok (.done (none, s.2))

/-- The loop that writes, for so many turns at most -/
def writeAll (limit fd : Nat) (contents : Bytes) (w : W) : Checked (Outcome W E) :=
  loop (writeTurn sys fd contents) limit (0, w)

/-! ### All files -/

/-- Neither empty nor absolute, and without `..`. -/
def isSafePatchPath (path : Bytes) : Bool :=
  let isSeparator (c : UInt8) : Bool := c == '/'.toUInt8 || c == '\\'.toUInt8
  let absolute := path.head?.any isSeparator || (path[1]? == some ':'.toUInt8 && (path[2]?).any isSeparator)
  path ≠ [] && !absolute && (path.splitOnP isSeparator).all (· ≠ Strings.ascii "..")

/-- The bytes of `from_vec_with_nul`: a path that ends in a NUL gets no other one behind it. -/
def fromVecWithNul (v : Bytes) : Bytes := if v.getLast? = some 0 then v.dropLast else v

def dirnameSimple (p : Bytes) : Bytes := (p.reverse.dropWhile (· ≠ '/'.toUInt8)).tail.reverse

/-- The directory of a path, where it has one -/
def makeDirname (path : Bytes) (mode : Nat) : Call W E Unit :=
  if dirnameSimple path = [] then pure () else sys.mkdirRecursiveAtMode (dirnameSimple path) mode

def createFile (path : Bytes) (mode : FileMode) : Call W E Nat := do
  makeDirname sys (fromVecWithNul path) mode.toBunMode
  sys.openat (fromVecWithNul path) mode.toBunMode

def readFileAlloc (path : Bytes) (max : Nat) : Call W E Bytes := do
  let stat ← sys.fstatat path
  if max < stat.stSize then throw (sys.einval .read) else sys.readFrom path

/-- The file before the patch, of at most 4 GiB -/
def readOriginal (path : Bytes) : Call W E (Stat × Bytes) := do
  let stat ← sys.fstatat path
  let filebuf ← tryCatch (readFileAlloc sys path 4294967296) fun _ => throw (sys.einval .read)
  return (stat, filebuf)

/-- A file is read, patched and written anew. -/
def applyPatch (limit : Nat) (path : Bytes) (hunks : List Hunk) : W → Checked (Outcome W E) :=
  let filePath := fromVecWithNul path
  andThen (readOriginal sys filePath) fun original w =>
    patchedContents hunks original.2 >>= fun patched =>
    match patched with
    | none => stop (some (sys.einval .fstatat)) w
    | some contents =>
      andThen (sys.openat filePath original.1.stMode) (fun fd w => closing sys fd (writeAll sys limit fd contents w)) w

/-- One part of a patch -/
def applyFile (limit : Nat) (w : W) : PatchFilePart → Checked (Outcome W E)
  | .fileDeletion path _ _ _ =>
    if isSafePatchPath path then andThen (sys.unlinkat (fromVecWithNul path)) (fun _ => stop none) w
    else stop (some (sys.einval .unlink)) w
  | .fileRename fromPath toPath =>
    if isSafePatchPath fromPath && isSafePatchPath toPath then
      andThen (makeDirname sys (fromVecWithNul toPath) 0o755)
        (fun _ => andThen (sys.renameat (fromVecWithNul fromPath) (fromVecWithNul toPath)) fun _ => stop none) w
    else stop (some (sys.einval .rename)) w
  | .fileCreation path mode hunk _ =>
    if isSafePatchPath path then
      andThen (createFile sys path mode) (fun fd w =>
        closing sys fd (match hunk with
          | none => stop none w
          | some hunk => createdContents hunk >>= fun contents => writeAll sys limit fd contents w)) w
    else stop (some (sys.einval .open)) w
  | .filePatch path hunks _ _ =>
    if isSafePatchPath path then applyPatch sys limit path hunks w else stop (some (sys.einval .open)) w
  | .fileModeChange path _ newMode =>
    if isSafePatchPath path then andThen (sys.fchmodat (fromVecWithNul path) newMode.toBunMode) (fun _ => stop none) w
    else stop (some (sys.einval .fchmodat)) w

/-- `PatchFile::apply`, up to the first error -/
def apply (limit : Nat) (w : W) : List PatchFilePart → Checked (Outcome W E)
  | [] => stop none w
  | part :: parts =>
    applyFile sys limit w part >>= fun outcome =>
    match outcome with
    | (some err, w) => stop (some err) w
    | (none, w) => apply limit w parts

end

end Funbun.Patch
