import SemanticIndex.Text.Blank
import SemanticIndex.Text.Split

/-!
# Scan Options

How a directory is scanned. Two of the options can be set by texts from the environment: a positive
count of parsers that run at a time, and a list of file extensions with commas between them. A
text that makes no sense leaves the option as it is.
-/

namespace SemanticIndex

/-- How a directory is scanned. -/
structure ScanOptions where
  /-- How many files are parsed at a time. -/
  concurrency : Nat := 8
  /-- The extensions of the files to index, without the dot. -/
  extensions : List String := ["pcl"]
  /-- Whether names that begin with a dot count. -/
  followHidden : Bool := false
  deriving DecidableEq

/-- The number that a text of ASCII digits writes, a plus sign before them allowed; none if there
are no digits or the number needs more than sixty-four bits. -/
def wordOfText? (s : String) : Option Nat :=
  let digits :=
    match s.toList with
    | '+' :: rest => rest
    | cs => cs
  if digits.isEmpty || !digits.all Char.isDigit then
    none
  else
    let n := digits.foldl (fun n c => n * 10 + (c.toNat - '0'.toNat)) 0
    if n < UInt64.size then some n else none

/-- The extensions that a text lists, without blanks around them and dots before them; empty ones
do not count. -/
def extensionsOfText (s : String) : List String :=
  ((Text.split ',' s).map fun e => Text.dropLeading (· == '.') (Text.trim e)).filter (· != "")

namespace ScanOptions

/-- The number of parsers that a text sets, if it is a positive one. -/
def concurrencyOf (o : ScanOptions) (s : String) : Nat :=
  match wordOfText? s with
  | some n => if n = 0 then o.concurrency else n
  | none => o.concurrency

/-- The default options, with the settings that are given. -/
def ofSettings (concurrency extensions : Option String) : ScanOptions :=
  let o : ScanOptions := {}
  { o with
    concurrency := (concurrency.map o.concurrencyOf).getD o.concurrency
    extensions :=
      match extensions.map extensionsOfText with
      | none | some [] => o.extensions
      | some es => es }

end ScanOptions

end SemanticIndex
