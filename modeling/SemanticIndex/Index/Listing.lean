import SemanticIndex.Index.Basic
import SemanticIndex.Text.Quoted

/-!
# Listings

A text that shows all of an index but its numbers, bindings and evaluated values: every node with
its summary and its fragments, indented by its depth, then the templates, the pragmas that belong
to no block, and the references. Indexes of the same contents have the same listing.
-/

namespace SemanticIndex

/-- A mark for what is conditional. -/
def conditionalMark (conditional : Bool) : String := if conditional then " conditional" else ""

namespace Fragment

/-- The line of a fragment. -/
def line (f : Fragment) : String :=
  "fragment " ++ f.file.text ++ (if f.isObject then " object" else " file") ++ " defs=" ++
    toString f.definitions.length ++ conditionalMark f.conditional

end Fragment

namespace Summary

/-- The line of a variable, with its default. -/
def variableLine (name : String) (v : VariableEntry) : String :=
  "var " ++ name ++ " = " ++ (v.declaration.default.map Value.display).getD "" ++ " (" ++
    v.file.text ++ ")"

/-- The line of a field, with all contributions to it. -/
def fieldLine (name : String) (entries : List FieldEntry) : String :=
  "field " ++ name ++ " = " ++
    ", ".intercalate (entries.map fun e => e.value.display ++ " (" ++ e.file.text ++ ")")

/-- The lines of a summary. -/
def lines (s : Summary) : List String :=
  (if s.doc = "" then [] else ["doc: " ++ Text.quote s.doc]) ++
    s.metadata.toList.map (fun (key, value) => "meta " ++ key ++ " = " ++ value) ++
    s.pragmas.map ("pragma " ++ ·) ++
    s.vars.toList.map (fun (name, v) => variableLine name v) ++
    s.fields.toList.map (fun (name, entries) => fieldLine name entries)

end Summary

namespace Node

/-- The lines of a node at a depth. -/
def lines (n : Node) (depth : Nat) : List String :=
  let indent := String.ofList (List.replicate (2 * depth) ' ')
  (indent ++ n.realName ++ " (" ++ n.name ++ ")" ++ conditionalMark n.summary.conditional) ::
    (n.summary.lines ++ n.fragments.map Fragment.line).map (indent ++ "  " ++ ·)

end Node

namespace Reference

/-- The name of a reference with the mark of a variable, if it has one. -/
def markedName (r : Reference) : String := (if r.mention.marked then "@" else "") ++ r.mention.name

/-- The line of a reference. -/
def line (r : Reference) : String :=
  "reference " ++ r.file.text ++ " " ++ r.markedName ++ " at " ++ r.mention.position.text

end Reference

namespace Index

/-- The line of a template name, with the files of its registrations. -/
def templateLine (name : String) (registrations : List (SourcePath × Template)) : String :=
  "template " ++ name ++ " (" ++ ", ".intercalate (registrations.map fun r => r.1.text) ++ ")"

/-- The lines of an index. -/
def lines (t : Index) : List String :=
  t.preorder.flatMap (fun (id, depth) => ((t.node? id).map (·.lines depth)).getD []) ++
    t.templatesByName.toList.map (fun (name, registrations) => templateLine name registrations) ++
    t.files.values.flatMap (fun f =>
      f.pragmas.map fun p => "global pragma " ++ f.path.text ++ " " ++ p.text) ++
    t.references.map Reference.line

/-- The text that shows an index: its lines, each ended. -/
def listing (t : Index) : String := String.join (t.lines.map (· ++ "\n"))

end Index

end SemanticIndex
