import TransitChanges.SampleCity
import Std.Time.DateTime.Timestamp

/-!
# The program

Runs the small city of `SampleCity` on the cache directory that the environment names, prints its
lines, and ends with a status that tells whether it succeeded.

What the program does is decided by `SampleCity.report`.  Here the directory is read from disk
before, and what has changed in it is written back after.
-/

namespace TransitChanges.Disk

open Cache

/-- The path of an entry in the cache directory.  Without a name the entries are those of the folder
in which the program runs. -/
def pathIn (directory name : String) :=
  System.mkFilePath (if directory = "" then [name] else [directory, name])

/-- The name of the folder with the entries of the cache directory, which is made if there is none.
Without a name there is no directory to make. -/
def folderOf (directory : String) : IO String := do
  if directory = "" then return "."
  else
    IO.FS.createDirAll directory
    return directory

/-- What stands under a name in the directory.  A file that cannot be read counts as one without
text, since nothing can be restored from it either. -/
def readEntry (directory name : String) : IO Entry := do
  let path := pathIn directory name
  if ← path.isDir then return .folder
  else
    try
      let content ← IO.FS.readBinFile path
      return match String.fromUTF8? content with
        | some text => .text text
        | none => .bytes content
    catch _ => return .bytes .empty

/-- The directory under its name, with the entries that it has. -/
def readDirectory (directory : String) : IO Directory := do
  try
    let found ← (System.mkFilePath [← folderOf directory]).readDir
    let entries ← found.toList.mapM fun e => do
      return (e.fileName, ← readEntry directory e.fileName)
    let read := Directory.ofEntries entries
    return if directory = "" then { read with name := "" } else read
  catch _ => return .blocked

/-- Remove the files that are gone, and write those whose text is new. -/
def writeBack (directory : String) (before after : Directory) : IO Unit := do
  for (name, entry) in before.listing do
    if entry.isFile && !after.isFile name then
      IO.FS.removeFile (pathIn directory name)
  for (name, entry) in after.listing do
    match entry with
    | .text content =>
      if before.read? name ≠ some content then
        IO.FS.writeFile (pathIn directory name) content
    | _ => pure ()

/-- The seconds since the beginning of 1970. -/
def now : IO Nat := do
  return (← Std.Time.Timestamp.now).toSecondsSinceUnixEpoch.val.toNat

end TransitChanges.Disk

open TransitChanges in
/-- Run the small city on the directory named by `ROUTE_CACHE_DIR`. -/
def main : IO UInt32 := do
  let directory := (← IO.getEnv "ROUTE_CACHE_DIR").getD "cache"
  let before ← Disk.readDirectory directory
  let (report, after) := (SampleCity.report (← Disk.now)).run before
  Disk.writeBack directory before after
  report.lines.forM fun line => IO.println line
  match report.failure with
  | none => return 0
  | some fault =>
    IO.eprintln ("Error: " ++ fault.message)
    return 1
