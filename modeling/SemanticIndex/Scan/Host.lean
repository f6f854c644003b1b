import SemanticIndex.Source.Path

/-!
# The Host of a Scan

A scan finds files by wildcard patterns, reads them and has them parsed several at a time. It does
none of this by itself: walking directories, reading files and starting parsers are the work of a
host, which may refuse. What the host says of a refusal is passed on word for word.
-/

namespace SemanticIndex

/-- Why a host has refused, in its own words. -/
structure HostError where
  text : String

/-- Why an entry could not be read in a walk, in the words of the host. -/
structure WalkError where
  /-- The entry. -/
  path : SourcePath
  text : String

/-- What a scan asks for. -/
structure Host where
  /-- Gets ready to run a number of parsers at a time. -/
  startParsers : Nat → Except HostError Unit
  /-- The pattern that a text is if no character of it has a special meaning. -/
  quote : String → String
  /-- Walks along a pattern, through names that begin with a dot too if the flag is set. The walk
  comes to the entries that match and to those that it cannot read. -/
  walk : String → Bool → Except HostError (List (Except WalkError SourcePath))
  /-- Whether a path leads to a regular file. -/
  isFile : SourcePath → Bool
  /-- The text of a file. -/
  readText : SourcePath → Except HostError String

end SemanticIndex
