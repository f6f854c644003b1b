import SemanticIndex.Index.Resolution
import SemanticIndex.Index.Update
import SemanticIndex.Scan.Discover

/-!
# Scanning a Directory

A scan indexes every file under a directory that has one of the extensions, in the order of their
paths, and then resolves all references. A file that cannot be read or parsed is reported and
changes nothing, and so is an entry that a walk could not read; a pattern that makes no sense, or
parsers that cannot be started, stop the scan before it begins.
-/

namespace SemanticIndex

/-- What can go wrong in a scan. -/
inductive ScanError where
  /-- A file cannot be read as a text. -/
  | unreadable (path : SourcePath) (error : HostError)
  /-- The text of a file is not a document. -/
  | malformed (path : SourcePath) (error : ParseError)
  /-- An extension makes no pattern. -/
  | badPattern (error : HostError)
  /-- A walk could not read an entry. -/
  | unwalkable (error : WalkError)
  /-- No parsers can be started. -/
  | noParsers (error : HostError)

namespace ScanError

/-- The message of the error. -/
def message : ScanError → String
  | unreadable path error => "Failed to read \"" ++ path.text ++ "\": " ++ error.text
  | malformed path error => "Failed to parse \"" ++ path.text ++ "\": " ++ error.text
  | badPattern error => "Invalid scan pattern: " ++ error.text
  | unwalkable error => "Failed to walk directory: " ++ error.text
  | noParsers error => "Failed to start parse pool: " ++ error.text

/-- What the error is about. -/
def path? : ScanError → Option SourcePath
  | unreadable path _ | malformed path _ => some path
  | unwalkable error => some error.path
  | badPattern _ | noParsers _ => none

end ScanError

/-- What a scan has done. -/
structure ScanReport where
  /-- The files that are indexed now. -/
  indexed : List SourcePath
  /-- The files and other entries that are not, and why. -/
  failed : List (SourcePath × ScanError)

namespace ScanReport

/-- Whether nothing has failed. -/
def isSuccess (r : ScanReport) : Bool := r.failed.isEmpty

/-- What is to be reported before any file is read. -/
def ofUnread (unread : List WalkError) : ScanReport :=
  ⟨[], unread.map fun e => (e.path, .unwalkable e)⟩

/-- The report with what has failed in the order of the paths. -/
def sorted (r : ScanReport) : ScanReport :=
  { r with failed := sort (fun a b => a.1.le b.1) r.failed }

end ScanReport

/-- Turns the text of a file into a document. -/
abbrev DocumentParser := SourcePath → String → Except ParseError Document

/-- The document in a file, or why there is none. -/
def readDocument (h : Host) (parse : DocumentParser) (path : SourcePath) :
    Except ScanError Document :=
  match h.readText path with
  | .error e => .error (.unreadable path e)
  | .ok text => (parse path text).mapError (.malformed path)

namespace Index

/-- Indexes one file, or reports why it cannot be. -/
def scanFile (h : Host) (parse : DocumentParser) (state : Index × ScanReport)
    (path : SourcePath) : Index × ScanReport :=
  let (t, report) := state
  match readDocument h parse path with
  | .ok document => (t.add path document, { report with indexed := report.indexed ++ [path] })
  | .error e => (t, { report with failed := report.failed ++ [(path, e)] })

/-- Indexes the files that have been discovered, one after the other. -/
def scanFound (t : Index) (h : Host) (parse : DocumentParser) (found : Discovery) :
    Index × ScanReport :=
  let (t, report) := found.files.foldl (scanFile h parse) (t, .ofUnread found.unread)
  (t.resolve, report.sorted)

/-- Indexes the files under a directory. At least one parser is asked for. -/
def scan (t : Index) (h : Host) (parse : DocumentParser) (root : String) (o : ScanOptions) :
    Except ScanError (Index × ScanReport) := do
  (h.startParsers (max o.concurrency 1)).mapError .noParsers
  let found ← (discover h root o).mapError .badPattern
  return t.scanFound h parse found

end Index

end SemanticIndex
