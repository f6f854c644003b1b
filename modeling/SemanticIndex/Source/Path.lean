import SemanticIndex.Text.Split
import Std.Data.ExtTreeMap

/-!
# File Paths

A path is kept as it was spelled and compared by its components, so that `a//b`, `a/./b` and
`a/b/` name one file. A leading `.` is a component of its own; elsewhere it counts for nothing.
Components sort as names, whole component by whole component, so what lies in `dir` comes before
`dir.txt`.
-/

namespace SemanticIndex

/-- A component of a path. -/
inductive PathComponent where
  /-- The root of the file system. -/
  | root
  /-- The directory in which the path starts. -/
  | current
  /-- One directory up. -/
  | parent
  /-- An entry of a directory. -/
  | named (name : String)
  deriving DecidableEq

namespace PathComponent

/-- The place of the component's kind in the order of components, and its name. -/
def key : PathComponent → Nat × String
  | root => (0, "")
  | current => (1, "")
  | parent => (2, "")
  | named name => (3, name)

/-- Components are ordered by their kind, and names among themselves. -/
instance : Ord PathComponent :=
  ⟨compareLex (compareOn fun c => c.key.1) (compareOn fun c => c.key.2)⟩

instance : Std.TransOrd PathComponent :=
  inferInstanceAs <| Std.TransCmp <|
    compareLex (compareOn fun c : PathComponent => c.key.1) (compareOn fun c => c.key.2)

/-- The key determines the component. -/
theorem key_injective {a b : PathComponent} (h : a.key = b.key) : a = b := by
  cases a <;> cases b <;> simp_all [key]

/-- Components ordered alike are the same component. -/
instance : Std.LawfulEqOrd PathComponent where
  eq_of_compare {a b} h := by
    obtain ⟨h1, h2⟩ := Ordering.then_eq_eq.1
      (show (compare a.key.1 b.key.1).then (compare a.key.2 b.key.2) = .eq from h)
    exact key_injective
      (Prod.ext (Std.LawfulEqCmp.eq_of_compare h1) (Std.LawfulEqCmp.eq_of_compare h2))

/-- The component that a piece between two slashes stands for; empty pieces and dots stand for
none. -/
def ofPiece? (piece : String) : Option PathComponent :=
  if piece = "" ∨ piece = "." then none
  else if piece = ".." then some .parent
  else some (.named piece)

/-- The components that the text of a path consists of. -/
def ofText (text : String) : List PathComponent :=
  let pieces := Text.split '/' text
  let start :=
    match pieces with
    | "" :: _ :: _ => [.root]
    | "." :: _ => [.current]
    | _ => []
  start ++ pieces.filterMap ofPiece?

end PathComponent

/-- A file path. -/
structure SourcePath where
  /-- The path as it was spelled. -/
  text : String
  /-- The components that the text consists of. -/
  components : List PathComponent
  components_eq : components = PathComponent.ofText text

namespace SourcePath

/-- The path that a text spells. -/
def ofText (text : String) : SourcePath := ⟨text, PathComponent.ofText text, rfl⟩

instance : Inhabited SourcePath := ⟨ofText ""⟩

/-- Paths of one spelling are equal. -/
@[ext]
theorem ext {p q : SourcePath} (h : p.text = q.text) : p = q := by
  obtain ⟨text, components, hp⟩ := p
  obtain ⟨text', components', hq⟩ := q
  subst h hp hq
  rfl

/-- Whether two paths name one file. -/
def same (p q : SourcePath) : Bool := p.components == q.components

/-- Whether `p` comes before `q` or names the same file. -/
def le (p q : SourcePath) : Bool := (compare p.components q.components).isLE

/-- Paths name one file exactly if they have the same components. -/
@[simp]
theorem same_iff {p q : SourcePath} : p.same q ↔ p.components = q.components := by
  simp [same]

theorem same_refl (p : SourcePath) : p.same p := by simp

end SourcePath

end SemanticIndex
