/-!
# Index Options

Which fields the index singles out: those copied into a node's metadata, whose names are matched
without regard to the case of ASCII letters, and those that make a node a link to another one.
-/

namespace SemanticIndex

/-- Which fields the index singles out. -/
structure IndexOptions where
  /-- Fields copied into the metadata, in the spelling that the metadata takes. -/
  metadataFields : List String := ["Class", "Type"]
  /-- Fields that name the node a node is a link to, the most important first. -/
  linkFields : List String := ["Alias"]
  deriving DecidableEq, Inhabited

/-- Whether two texts are equal up to the case of ASCII letters. -/
def equalIgnoringCase (s t : String) : Bool :=
  s.toList.map Char.toLower == t.toList.map Char.toLower

namespace IndexOptions

/-- The metadata key of a field: the first configured name that it equals up to case. -/
def metadataKey? (o : IndexOptions) (field : String) : Option String :=
  o.metadataFields.find? (equalIgnoringCase · field)

/-- Whether a field makes its node a link. -/
def isLinkField (o : IndexOptions) (field : String) : Bool := o.linkFields.contains field

end IndexOptions

end SemanticIndex
