import SemanticIndex.Index.Basic

/-!
# Look-up

Finding a node by a dotted name from an anchor. The first segment may be the name of any child of
the anchor, or of any node below it; from there the other segments lead from child to child. Of
several nodes so found the one nearest to its root is taken, then the one with the first path.
-/

namespace SemanticIndex

/-- Where the first segment of a name may be found. -/
inductive LookupMode where
  /-- Among the children of the anchor. -/
  | child
  /-- Anywhere below the anchor. -/
  | below
  deriving DecidableEq

/-- Which nodes a look-up may answer. -/
abbrev NodeFilter := NodeId → Node → Bool

namespace Index

/-- The nodes called `name`: those that the name table lists or, if it is empty, those that a walk
finds. -/
def candidates (t : Index) (name : String) : List NodeId :=
  if t.names.isEmpty then
    t.walk.filter fun id =>
      match t.node? id with
      | some n => n.name == name || n.realName == name
      | none => false
  else
    t.names.get name

/-- Whether a node stands where the mode wants the first segment of a name. -/
def inReach (t : Index) (anchor : NodeId) (mode : LookupMode) (id : NodeId) : Bool :=
  match mode with
  | .child => t.parent? id == some anchor
  | .below => t.isBelow id anchor

/-- Where a dotted name leads: each node called by its first segment, with the node to which the
other segments lead from there, if they do and it is accepted. In the order of the name table. -/
def landings (t : Index) (name : String) (accept : NodeFilter) : List (NodeId × NodeId) :=
  match nameSegments name with
  | [] => []
  | head :: rest =>
    let first := nodeName head
    if first = "" then
      []
    else
      (t.candidates first).filterMap fun start =>
        ((t.follow? start rest).filter fun id => (t.node? id).any (accept id)).map (start, ·)

/-- Where a name leads, of which the first segment stands where the mode wants it. -/
def landed (t : Index) (anchor : NodeId) (mode : LookupMode) (found : List (NodeId × NodeId)) :
    List NodeId :=
  (found.filter fun l => t.inReach anchor mode l.1).map Prod.snd

/-- Whether `a` is nearer to its root than `b`, or as near and first by path. -/
def ranksBefore (t : Index) (a b : NodeId) : Bool :=
  (compare (t.ancestors a).length (t.ancestors b).length).then (compare (t.path a) (t.path b))
    == .lt

/-- The first of the nodes before which no other ranks. -/
def best? (t : Index) (ids : List NodeId) : Option NodeId :=
  ids.foldl
    (fun best id =>
      match best with
      | none => some id
      | some b => if t.ranksBefore id b then some id else some b)
    none

/-- The node that a dotted name means from an anchor. -/
def lookup? (t : Index) (anchor : NodeId) (name : String) (mode : LookupMode)
    (accept : NodeFilter) : Option NodeId :=
  t.best? (t.landed anchor mode (t.landings name accept))

end Index

end SemanticIndex
