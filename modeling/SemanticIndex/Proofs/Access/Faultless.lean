import SemanticIndex.Index.Cursor
import SemanticIndex.Proofs.Access.Contributing
import SemanticIndex.Proofs.Evaluator

/-!
# No Faults

After any run of operations, done directly from the first to the last, the index is what the run
gives, and nothing that is asked of it or done to it next goes to a node or to a fragment that is
not there, whatever it is asked with: numbers of nodes that are gone or have never been, files that
are not indexed, names of nothing (`Index.faultless_run`). Evaluation gets no deeper than it is
allowed to, so it counts its depth in 32 bits if the greatest depth fits into them.
-/

namespace SemanticIndex

namespace Direct

def apply (t : Index) : Operation → Direct Index
  | .add path doc => add t path doc
  | .remove path => remove t path
  | .resolve => resolve t
  | .reevaluate options => reevaluate t options
  | .copy => copy t

/-- The index after a run that starts without files. -/
def run (options : IndexOptions) (ops : List Operation) : Direct Index := do
  ops.foldlM apply (← empty options)

/-- Every operation on a built index is done without a fault. -/
theorem apply_eq {t : Index} {L : Ledger} {lay : Layout} (h : t.Built L lay) (op : Operation) :
    apply t op = .ok (t.apply op) :=
  match op with
  | .add path doc => add_eq h path doc
  | .remove path => remove_eq t path
  | .resolve => resolve_eq h
  | .reevaluate options => reevaluate_eq t options
  | .copy => copy_eq h

/-- Every operation of a run finds an index that is built from a ledger. -/
theorem run_eq (options : IndexOptions) (ops : List Operation) :
    run options ops = .ok (Index.run options ops) := by
  rw [run, empty_eq, ok_bind]
  refine foldlM_eq (P := fun t => ∃ (L : Ledger) (lay : Layout), t.Built L lay)
    (fun t ⟨L, lay, h⟩ op _ => ?_) ⟨[], _, Index.built_empty options⟩
  exact ⟨apply_eq h op, L.apply op, h.exists_apply op⟩

end Direct

/-- The node on which something stands; for a mention, the one whose definitions hold it. -/
def Entity.home : Entity → NodeId
  | .node id | .field id _ _ | .var id _ => id
  | .reference r => r.scope

/-- An evaluator evaluates some values, each as if it were written inside a node. -/
def Evaluating.valuesAt (t : Index) (o : EvaluationOptions) (fuel : Nat)
    (asked : List (NodeId × Value)) : Evaluating (List Value) :=
  asked.mapM fun a => value o fuel 0 (.ofIndex t (some a.1)) a.2

namespace Index

/-- Nothing that is done to the index or asked of it goes to a node or a fragment that is not there,
and the nodes that it answers with are there. -/
structure Faultless (t : Index) : Prop where
  apply_eq : ∀ op, Direct.apply t op = .ok (t.apply op)
  lookup?_eq : ∀ anchor name mode accept,
    Direct.lookup? t anchor name mode accept = .ok (t.lookup? anchor name mode accept)
  resolveName?_eq : ∀ scope name accept,
    Direct.resolveName? t scope name accept = .ok (t.resolveName? scope name accept)
  walk_eq : Direct.walk t = .ok (t.walk.filterMap fun id => (t.node? id).map (id, ·))
  listing_eq : Direct.listing t = .ok t.listing
  /-- A node that is gone lies nowhere. -/
  path_eq : ∀ id, t.isLive id = false → t.path id = ""
  resolveVariable?_live : ∀ scope name owner v, t.resolveVariable? scope name = some (owner, v) →
    t.isLive owner = true
  nodeAt?_live : ∀ path p id, t.nodeAt? path p = some id → t.isLive id = true
  entityAt?_live : ∀ path p entity, t.entityAt? path p = some entity →
    t.isLive entity.home = true
  /-- With any greatest depth of 32 bits, whatever is asked for comes to an end, be it one value
  inside a node that may be gone or all field entries, and the depth of each evaluation that this
  takes has 32 bits. -/
  depth_lt : ∀ o : EvaluationOptions, o.maxDepth < UInt32.size → ∀ asked, ∃ enough calls,
    (∀ fuel, enough ≤ fuel → (Evaluating.valuesAt t o fuel asked).run .fresh =
      some (asked.map fun a => t.evaluateAt o a.1 a.2, ⟨[], calls⟩)) ∧
    ∀ call ∈ calls, call.depth < UInt32.size

variable {t : Index} {L : Ledger} {lay : Layout} {id : NodeId}

/-- A node that is gone has no path. -/
theorem path_of_not_live (h : t.isLive id = false) : t.path id = "" := by
  have hnone : t.node? id = none := Option.not_isSome_iff_eq_none.mp (Bool.eq_false_iff.mp h)
  rw [path, pathNames, ancestors, hnone]
  rfl

/-- A variable that a name means is held by a live node. -/
theorem isLive_of_resolveVariable? {scope owner : NodeId} {name : String} {v : VariableEntry}
    (h : t.resolveVariable? scope name = some (owner, v)) : t.isLive owner := by
  obtain ⟨id, -, hid⟩ := List.exists_of_findSome?_eq_some h
  obtain ⟨v, hv, heq⟩ := Option.map_eq_some_iff.mp hid
  obtain ⟨n, hn, -⟩ := Option.bind_eq_some_iff.mp hv
  obtain ⟨rfl, rfl⟩ := Prod.mk.inj heq
  exact isLive_of_node? hn

/-- A block at a position is on a node that its file has come to, as is the file itself. -/
theorem Built.isLive_of_nodeAt? (h : t.Built L lay) {path : SourcePath} {p : Position}
    (hid : t.nodeAt? path p = some id) : t.isLive id := by
  obtain ⟨f, hf, hid⟩ := Option.map_eq_some_iff.mp hid
  split at hid
  · rename_i span found hfound
    subst hid
    obtain ⟨j, -, hspan⟩ := List.mem_filterMap.mp (innermost?_eq_some hfound).1
    obtain ⟨n, hn, hspan⟩ := Option.bind_eq_some_iff.mp hspan
    obtain ⟨x, -, heq⟩ := Option.map_eq_some_iff.mp hspan
    obtain ⟨-, rfl⟩ := Prod.mk.inj heq
    exact isLive_of_node? hn
  · obtain ⟨e, -, -, hisOf⟩ := h.isOf hf
    exact hid ▸ h.laid.isLive_iff.mpr ⟨_, hisOf.top_at⟩

/-- What is found under a cursor belongs to a live node. -/
theorem Built.isLive_of_entityAt? (h : t.Built L lay) {path : SourcePath} {p : Position}
    {entity : Entity} (hentity : t.entityAt? path p = some entity) : t.isLive entity.home := by
  rw [entityAt?] at hentity
  split at hentity
  · -- the scope of a mention is an address that its file came to
    rename_i r hr
    obtain rfl := Option.some.inj hentity
    have hmem := List.mem_of_find?_eq_some hr
    rw [referencesIn] at hmem
    split at hmem
    · rename_i f hf
      obtain ⟨e, -, -, hisOf⟩ := h.isOf hf
      exact h.laid.isLive_iff.mpr (hisOf.exists_scope_at hmem)
    · cases hmem
  · obtain ⟨id, hid, hnode⟩ := Option.bind_eq_some_iff.mp hentity
    obtain ⟨n, hn, rfl⟩ := Option.map_eq_some_iff.mp hnode
    have hlive := h.isLive_of_nodeAt? hid
    cases fieldAt? n path p with
    | some field => exact hlive
    | none => cases variableAt? n path p <;> exact hlive

/-- Evaluations inside nodes end, and none of those that this takes is deeper than allowed. -/
theorem ends_valuesAt (t : Index) (o : EvaluationOptions) (asked : List (NodeId × Value)) :
    Ends o.maxDepth [] (fun fuel => Evaluating.valuesAt t o fuel asked)
      (asked.map fun a => t.evaluateAt o a.1 a.2) :=
  .mapM fun a _ => ends_value (.nil o) (.ofIndex t (some a.1)) a.2

/-- No operation on a built index is at fault. -/
theorem Built.faultless (h : t.Built L lay) : t.Faultless where
  apply_eq := Direct.apply_eq h
  lookup?_eq := Direct.lookup?_eq h
  resolveName?_eq := Direct.resolveName?_eq h
  walk_eq := Direct.walk_eq h
  listing_eq := Direct.listing_eq h
  path_eq _ := path_of_not_live
  resolveVariable?_live _ _ _ _ := isLive_of_resolveVariable?
  nodeAt?_live _ _ _ := h.isLive_of_nodeAt?
  entityAt?_live _ _ _ := h.isLive_of_entityAt?
  depth_lt o ho asked := by
    obtain ⟨calls, hcalls, enough, hrun⟩ := ends_valuesAt t o asked
    refine ⟨enough, calls, fun fuel hfuel => ?_, fun call hcall =>
      Nat.lt_of_le_of_lt (hcalls call hcall).depth_le ho⟩
    have hfresh := hrun fuel hfuel []
    rwa [List.append_nil] at hfresh

/-- Whatever has been done to an index, nothing that is done to it or asked of it goes to a node or
a fragment that is not there: neither any operation of the run nor any that could come next. -/
theorem faultless_run (options : IndexOptions) (ops : List Operation) :
    Direct.run options ops = .ok (run options ops) ∧ (run options ops).Faultless := by
  obtain ⟨lay, h, -⟩ := exists_built_run options ops
  exact ⟨Direct.run_eq options ops, h.faultless⟩

/-- A file of the package `app` with a pragma inside an object. -/
def annotatedDocument : Document where
  package := some ⟨"app", .start⟩
  definitions := [
    .object (.reference "web" ⟨2, 1⟩) [.field ⟨"Level", .int 1 ⟨3, 11⟩, ⟨3, 3⟩⟩]
      ⟨⟨2, 1⟩, ⟨5, 1⟩⟩]
  comments := []
  pragmas := [⟨"inner", ⟨4, 3⟩⟩]

/-- The node of the package is gone with the file, and its number is asked for nevertheless. -/
theorem faultless_run_of_gone :
    let path := SourcePath.ofText "a.pcl"
    let ops : List Operation := [.add path annotatedDocument, .resolve, .remove path]
    let t := run {} ops
    let o : EvaluationOptions := { maxDepth := UInt32.size - 1 }
    let v : Value := .atReference "@port" .start
    Direct.run {} ops = .ok t ∧ t.isLive 1 = false ∧ t.path 1 = "" ∧
      Direct.resolveName? t 1 "app.web" anyNode = .ok (t.resolveName? 1 "app.web" anyNode) ∧
      Direct.apply t (.remove path) = .ok (t.remove path) ∧ o.maxDepth < UInt32.size ∧
      ∃ enough calls, (∀ fuel, enough ≤ fuel → (Evaluating.valuesAt t o fuel [(1, v)]).run .fresh =
          some ([t.evaluateAt o 1 v], ⟨[], calls⟩)) ∧
        ∀ call ∈ calls, call.depth < UInt32.size := by
  intro path ops t o v
  obtain ⟨hrun, hfaultless⟩ := faultless_run {} ops
  have hgone : t.isLive 1 = false := by decide
  have ho : o.maxDepth < UInt32.size := by decide
  exact ⟨hrun, hgone, hfaultless.path_eq 1 hgone, hfaultless.resolveName?_eq 1 _ _,
    hfaultless.apply_eq (.remove path), ho, hfaultless.depth_lt o ho [(1, v)]⟩

end Index

end SemanticIndex
