import SemanticIndex.Scan.Host
import SemanticIndex.Scan.Options
import SemanticIndex.Sorting

/-!
# Discovery

The files that a scan takes up: the regular ones at which its walks arrive, one walk for each
extension, in the order of their paths and each once. The entries that a walk could not read are
kept with them, as often as walks have met them.
-/

namespace SemanticIndex

/-- What walks have come to. -/
structure Discovery where
  /-- The regular files. -/
  files : List SourcePath
  /-- The entries that could not be read. -/
  unread : List WalkError

/-- A list without the items that the item before them equals. -/
def dropRepeated {α : Type} (same : α → α → Bool) : List α → List α
  | [] => []
  | x :: xs =>
    match dropRepeated same xs with
    | [] => [x]
    | y :: ys => if same x y then x :: ys else x :: y :: ys

/-- The files of a listing in the order of their paths, each once. -/
def inPathOrder (paths : List SourcePath) : List SourcePath :=
  dropRepeated SourcePath.same (sort SourcePath.le paths)

namespace Discovery

/-- What one walk has come to. What matches and is no regular file is passed over. -/
def ofEntries (h : Host) (entries : List (Except WalkError SourcePath)) : Discovery where
  files := entries.filterMap fun
    | .ok path => if h.isFile path then some path else none
    | .error _ => none
  unread := entries.filterMap fun
    | .ok _ => none
    | .error e => some e

/-- What several walks have come to, one after the other. -/
def join (walks : List Discovery) : Discovery where
  files := walks.flatMap files
  unread := walks.flatMap unread

/-- The files in the order of their paths, each once. -/
def inOrder (d : Discovery) : Discovery := { d with files := inPathOrder d.files }

end Discovery

/-- What the walk for an extension comes to below a directory, given as a pattern. -/
def discoverExtension (h : Host) (hidden : Bool) (directory extension : String) :
    Except HostError Discovery :=
  (h.walk (directory ++ "/**/*." ++ extension) hidden).map (.ofEntries h)

/-- What all walks of a scan come to. -/
def discoverAll (h : Host) (root : String) (o : ScanOptions) : Except HostError Discovery :=
  (o.extensions.mapM (discoverExtension h o.followHidden (h.quote root))).map .join

/-- The files under a directory that have one of the extensions, in the order of their paths, and
the entries that could not be read. -/
def discover (h : Host) (root : String) (o : ScanOptions) : Except HostError Discovery :=
  (discoverAll h root o).map .inOrder

end SemanticIndex
