import SemanticIndex.Index.Copy
import SemanticIndex.Proofs.Ledger

/-!
# Other Numbers

Renaming the nodes of an index. An index may give its nodes other numbers; what it says about its
files is then the same up to these numbers. Two indexes agree up to a renaming (`Index.Alike`) when
they have the same nodes, names, files and templates, but for the numbers of the nodes, the order in
which a name lists its nodes, the values that evaluation has noted, and what references and links
are bound to.
-/

namespace SemanticIndex

/-- The layout with other numbers. -/
def Layout.relabel (ρ : NodeId → NodeId) (lay : Layout) : Layout := fun a => (lay a).map ρ

/-- The node with other numbers, and without a target. -/
def Node.relabel (ρ : NodeId → NodeId) (n : Node) : Node :=
  { n with
    above := n.above.map ρ
    children := n.children.map fun _ child => ρ child
    target := none }

/-- The record with other numbers, nothing bound. -/
def FileRecord.relabel (ρ : NodeId → NodeId) (f : FileRecord) : FileRecord :=
  { f with
    top := ρ f.top
    nodes := f.nodes.map ρ
    references := f.references.map fun r => { r with scope := ρ r.scope, binding := .unbound } }

section

variable {lay : Layout} {ρ : NodeId → NodeId} {a : Address} {id : NodeId}

/-- A node is renamed where it stands. -/
theorem Layout.relabel_eq_some (ha : lay a = some id) : lay.relabel ρ a = some (ρ id) := by
  rw [relabel, ha, Option.map_some]

/-- Every node of a renamed layout is one renamed. -/
theorem Layout.relabel_eq_some_iff :
    lay.relabel ρ a = some id ↔ ∃ i, lay a = some i ∧ ρ i = id :=
  Option.map_eq_some_iff

/-- The nodes above an address are renamed one by one. -/
theorem Layout.above_relabel (lay : Layout) (ρ : NodeId → NodeId) (a : Address) :
    (lay.relabel ρ).above a = (lay.above a).map ρ := by
  induction a with
  | root home => rw [above_of_root rfl, above_of_root rfl, List.map_nil]
  | child a x ih =>
    rw [above_child, above_child, List.map_append, ih, relabel]
    cases lay a <;> rfl

/-- A record is right about the renamed nodes. -/
theorem FileRecord.IsOf.relabel {f : FileRecord} {path : SourcePath} {o : Outline}
    (h : f.IsOf lay path o) (ρ : NodeId → NodeId) : (f.relabel ρ).IsOf (lay.relabel ρ) path o where
  path_eq := h.path_eq
  top_at := Layout.relabel_eq_some h.top_at
  isolated_eq := h.isolated_eq
  nodes_at := List.forall₂_map_right_iff.mpr (h.nodes_at.imp fun _ _ => Layout.relabel_eq_some)
  references_at := List.forall₂_map_right_iff.mpr (h.references_at.imp fun _ _ hr =>
    ⟨hr.1, hr.2.1, Layout.relabel_eq_some hr.2.2⟩)
  pragmas_eq := h.pragmas_eq

/-- Two records of one outline differ in the bindings only. -/
theorem FileRecord.IsOf.rebound_eq {f f' : FileRecord} {path : SourcePath} {o : Outline}
    (h : f.IsOf lay path o) (h' : f'.IsOf lay path o) (bind : Binding) :
    f.rebound (fun _ => bind) = f'.rebound fun _ => bind := by
  have hreferences : ∀ {f : FileRecord}, f.IsOf lay path o →
      List.Forall₂ (fun (m : ScopedMention) r => r.mention = m.2 ∧ r.file = path ∧
        lay ((o.topAddress path).down (m.1.map nodeName)) = some r.scope ∧ r.binding = bind)
        o.mentions (f.rebound fun _ => bind).references := fun hf =>
    List.forall₂_map_right_iff.mpr (hf.references_at.imp fun _ _ hr =>
      ⟨hr.1, hr.2.1, hr.2.2, rfl⟩)
  -- the outline decides all but the binding, and the binding is given
  have hunique : (f.rebound fun _ => bind).references = (f'.rebound fun _ => bind).references := by
    refine List.right_unique_forall₂' ?_ (hreferences h) (hreferences h')
    intro m r r' hr hr'
    obtain ⟨hmention, hfile, hscope, hbinding⟩ := hr
    obtain ⟨hmention', hfile', hscope', hbinding'⟩ := hr'
    cases r
    cases r'
    rw [Reference.mk.injEq]
    exact ⟨hmention.trans hmention'.symm, hfile.trans hfile'.symm,
      Option.some.inj (hscope.symm.trans hscope'), hbinding.trans hbinding'.symm⟩
  rw [FileRecord.rebound, FileRecord.rebound, mk.injEq]
  exact ⟨h.path_eq.trans h'.path_eq.symm, Option.some.inj (h.top_at.symm.trans h'.top_at),
    h.isolated_eq.trans h'.isolated_eq.symm, h.nodes_at.unique h'.nodes_at, hunique,
    h.pragmas_eq.trans h'.pragmas_eq.symm⟩

end

namespace Index

/-- Up to the numbers that `ρ` gives to the nodes of `t`, and but for values, the bindings of
references and links, and the order of the nodes of one name, `t` and `u` are the same. -/
structure Alike (ρ : NodeId → NodeId) (t u : Index) : Prop where
  injective : ∀ i j, t.isLive i → t.isLive j → ρ i = ρ j → i = j
  surjective : ∀ j, u.isLive j → ∃ i, t.isLive i ∧ ρ i = j
  options_eq : u.options = t.options
  node_eq : ∀ i n, t.node? i = some n →
    (u.node? (ρ i)).map (fun m => { m.withoutValues with target := none }) =
      some (n.relabel ρ).withoutValues
  names_perm : ∀ s : String,
    Option.Rel (fun ids ids' => ids'.Perm (ids.map ρ)) t.names.lists[s]? u.names.lists[s]?
  files_eq : ∀ k : List PathComponent,
    (u.files[k]?).map (FileRecord.rebound fun _ => .unbound) =
      (t.files[k]?).map (FileRecord.relabel ρ)
  registrations_eq : u.registrations = t.registrations

end Index

end SemanticIndex
