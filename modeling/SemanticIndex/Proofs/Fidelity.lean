import SemanticIndex.Index.Cursor
import SemanticIndex.Proofs.Resolving

/-!
# Copies Are Faithful

A copy has the nodes of the index under other numbers, with all that they hold but their targets,
and answers every question about positions and values as the index does (`Index.IsCopy`). If the
index has just been resolved, its references and those of the copy are bound to the same places
(`Index.Built.referencesAgree`).
-/

namespace SemanticIndex

/-- The expansion with other numbers. -/
def Expansion.relabel (ρ : NodeId → NodeId) : Expansion → Expansion
  | .var owner name => .var (ρ owner) name
  | .template name => .template name

/-- What is attached to the spans has no part in which of them is the innermost one. -/
theorem innermost?_map {α β : Type} (g : α → β) (p : Position) (spans : List (Span × α)) :
    innermost? p (spans.map (Prod.map id g)) = (innermost? p spans).map (Prod.map id g) := by
  rw [innermost?, innermost?, List.filter_map, List.foldl_map]
  show List.foldl _ (Option.map (Prod.map id g) none) _ = _
  refine List.foldl_hom (Option.map (Prod.map id g)) fun best s => ?_
  cases best with
  | none => rfl
  | some b =>
    simp only [Option.map_some, Prod.map_fst, id]
    split <;> rfl

namespace Index

variable {t u : Index} {L : Ledger} {lay : Layout} {ρ : NodeId → NodeId} {i : NodeId}

/-- `u` is a copy of `t` in which nodes have the numbers that `ρ` gives them: all that `t` holds is
there, the values that evaluation has noted included, but for the targets of links and the bindings
of references, and these lead to nodes of `u`. -/
structure IsCopy (ρ : NodeId → NodeId) (t u : Index) : Prop extends Alike ρ t u where
  root_eq : ρ root = root
  whole_node_eq : ∀ i n, t.node? i = some n →
    ∃ target, u.node? (ρ i) = some { n.relabel ρ with target }
  isolated_eq : u.isolatedFiles.map (fun f => (f.path, f.top)) =
    t.isolatedFiles.map fun f => (f.path, ρ f.top)
  listing_eq : u.listing = t.listing
  size_eq : u.size = t.size
  wellBound : u.WellBound
  nodeAt?_eq : ∀ path p, u.nodeAt? path p = (t.nodeAt? path p).map ρ
  evaluateAt_eq : ∀ o i v, t.isLive i → u.evaluateAt o (ρ i) v = t.evaluateAt o i v

/-- Every file has the same references in `t` and `u`, one after the other, and they are bound to
the same. -/
def ReferencesAgree (ρ : NodeId → NodeId) (t u : Index) : Prop :=
  ∀ path, List.Forall₂
    (fun r r' => r'.mention = r.mention ∧ r'.file = r.file ∧ r'.scope = ρ r.scope ∧
      BindingsAgree ρ t u r.binding r'.binding)
    (t.referencesIn path) (u.referencesIn path)

namespace Built

/-! ### Positions -/

/-- A file has the same record in both, but for bindings and the names of nodes. -/
theorem exists_record_relabel (h : t.Built L lay) (h' : u.Built L (lay.relabel ρ))
    {k : List PathComponent} {f : FileRecord} (hf : t.files[k]? = some f) :
    ∃ g, u.files[k]? = some g ∧ g.rebound (fun _ => .unbound) = f.relabel ρ := by
  have hfiles := h.files_eq h' k
  rwa [hf, Option.map_some, Option.map_eq_some_iff] at hfiles

/-- The same spans are around a position in both. -/
theorem spansAround_relabel (h : t.Built L lay) (h' : u.Built L (lay.relabel ρ))
    (path : SourcePath) (p : Position) {ids : List NodeId} (hlive : ∀ i ∈ ids, t.isLive i) :
    u.spansAround path p (ids.map ρ) = (t.spansAround path p ids).map (Prod.map id ρ) := by
  rw [spansAround, spansAround, List.filterMap_map, List.map_filterMap]
  refine List.filterMap_congr fun i hi => ?_
  obtain ⟨n, hn⟩ := Option.isSome_iff_exists.mp (hlive i hi)
  obtain ⟨m, hm, -, hfragments, -⟩ := h.exists_counterpart h' hn
  simp only [Function.comp_apply, hn, hm, Option.bind_some, hfragments, Option.map_map]
  rfl

/-- What stands at a position is the counterpart of what stands there. -/
theorem nodeAt?_relabel (h : t.Built L lay) (h' : u.Built L (lay.relabel ρ)) (path : SourcePath)
    (p : Position) : u.nodeAt? path p = (t.nodeAt? path p).map ρ := by
  rw [nodeAt?, nodeAt?, file?, file?]
  cases hf : t.files[path.components]? with
  | none =>
    have hfiles := h.files_eq h' path.components
    rw [hf, Option.map_none, Option.map_eq_none_iff] at hfiles
    rw [hfiles]
    rfl
  | some f =>
    obtain ⟨g, hg, heq⟩ := h.exists_record_relabel h' hf
    have hnodes : g.nodes = f.nodes.map ρ := congrArg FileRecord.nodes heq
    have htop : g.top = ρ f.top := congrArg FileRecord.top heq
    rw [hg, Option.map_some, Option.map_some, Option.map_some, hnodes, htop,
      h.spansAround_relabel h' path p fun i hi => h.listed_live hf hi, innermost?_map]
    cases innermost? p (t.spansAround path p f.nodes) <;> rfl

/-! ### Values -/

/-- A variable is found on the counterpart of the node on which it is found. -/
theorem resolveVariable?_relabel (h : t.Built L lay) (h' : u.Built L (lay.relabel ρ))
    (hi : t.isLive i) (name : String) :
    u.resolveVariable? (ρ i) name = (t.resolveVariable? i name).map (Prod.map ρ id) := by
  -- the first hit is the head of all hits, and these can be compared one by one
  rw [resolveVariable?, resolveVariable?, h.chain_relabel h' hi, List.findSome?_map,
    List.map_findSome?, ← List.head?_filterMap, ← List.head?_filterMap]
  refine congrArg List.head? (List.filterMap_congr fun j hj => ?_)
  obtain ⟨n, hn⟩ := Option.isSome_iff_exists.mp (h.isLive_of_mem_chain hj)
  obtain ⟨m, hm, -, -, hvars⟩ := h.exists_counterpart h' hn
  simp only [Function.comp_apply, hn, hm, Option.bind_some, hvars, Option.map_map]
  rfl

/-- An expansion is in progress if that of the counterpart is. -/
theorem mem_map_relabel_iff (h : t.Built L lay) (h' : u.Built L (lay.relabel ρ))
    {active : List Expansion} (hactive : ∀ owner x, .var owner x ∈ active → t.isLive owner)
    (hi : t.isLive i) (name : String) :
    .var (ρ i) name ∈ active.map (Expansion.relabel ρ) ↔ .var i name ∈ active := by
  rw [List.mem_map]
  constructor
  · rintro ⟨e, he, heq⟩
    cases e with
    | template => cases heq
    | var owner x =>
      obtain ⟨howner, rfl⟩ := Expansion.var.inj heq
      rwa [← h.injOn h' owner i (hactive owner x he) hi howner]
  · exact fun hmem => ⟨_, hmem, rfl⟩

/-- A name has the same value at counterparts, however many expansions may nest and whichever are
in progress. -/
theorem nameValue?_relabel (h : t.Built L lay) (h' : u.Built L (lay.relabel ρ))
    (policy : ZeroDivision) (budget : Nat) (active : List Expansion)
    (hactive : ∀ owner x, .var owner x ∈ active → t.isLive owner) (hi : t.isLive i)
    (name : String) :
    nameValue? policy budget (active.map (Expansion.relabel ρ)) (.ofIndex u (some (ρ i))) name =
      nameValue? policy budget active (.ofIndex t (some i)) name := by
  -- by induction on the budget: each default spends one of it and may have any node as its scope
  induction budget generalizing active i name with
  | zero => rfl
  | succ budget ih =>
    -- nothing is bound around a node, so the variable of the name is expanded
    show ((u.resolveVariable? (ρ i) name).bind _) = ((t.resolveVariable? i name).bind _)
    rw [h.resolveVariable?_relabel h' hi]
    cases hv : t.resolveVariable? i name with
    | none => rfl
    | some found =>
      obtain ⟨owner, v⟩ := found
      obtain ⟨-, ⟨n, -, hn, -⟩, -⟩ := h.resolveVariable?_eq_some hv
      have howner : t.isLive owner = true := isLive_of_node? hn
      rw [Option.map_some, Option.bind_some, Option.bind_some]
      refine Option.bind_congr fun default _ => ?_
      have hbegun := h.mem_map_relabel_iff h' hactive howner v.declaration.name
      by_cases hmem : .var owner v.declaration.name ∈ active
      · exact (if_pos (hbegun.mpr hmem)).trans (if_pos hmem).symm
      -- the default is evaluated at counterparts, with one more expansion in progress
      · have hname : nameValue? policy budget
            (.var (ρ owner) v.declaration.name :: active.map (Expansion.relabel ρ))
            (.ofIndex u (some (ρ owner))) =
              nameValue? policy budget (.var owner v.declaration.name :: active)
                (.ofIndex t (some owner)) := by
          refine funext fun x => ih (.var owner v.declaration.name :: active) ?_ howner x
          intro owner' x' hmem
          rcases List.mem_cons.mp hmem with heq | hmem
          · rw [(Expansion.var.inj heq).1]
            exact howner
          · exact hactive owner' x' hmem
        refine (if_neg fun hmem' => hmem (hbegun.mp hmem')).trans ?_
        exact (congrArg (fun name => some (default.reduce policy name)) hname).trans
          (if_neg hmem).symm

/-- An expression has the same value at counterparts. -/
theorem evaluateAt_relabel (h : t.Built L lay) (h' : u.Built L (lay.relabel ρ))
    (o : EvaluationOptions) (hi : t.isLive i) (v : Value) :
    u.evaluateAt o (ρ i) v = t.evaluateAt o i v := by
  have hname : nameValue? o.zeroDivision o.maxDepth [] (.ofIndex u (some (ρ i))) =
      nameValue? o.zeroDivision o.maxDepth [] (.ofIndex t (some i)) :=
    funext fun name => h.nameValue?_relabel h' o.zeroDivision o.maxDepth []
      (fun _ _ hmem => nomatch hmem) hi name
  rw [evaluateAt, evaluateAt, evaluate, evaluate, valueOf, valueOf, hname]

/-! ### Copies -/

/-- Isolated files have the same paths, and their roots are counterparts. -/
theorem isolatedFiles_relabel (h : t.Built L lay) (h' : u.Built L (lay.relabel ρ)) :
    u.isolatedFiles.map (fun f => (f.path, f.top)) =
      t.isolatedFiles.map fun f => (f.path, ρ f.top) := by
  have hlist := congrArg
    (fun fs => (fs.filter FileRecord.isolated).map fun f => (f.path, f.top)) (h.values_files_eq h')
  simp only [List.filter_map, List.map_map] at hlist
  exact hlist

/-- The copy has each node under its new number, with all that it holds but its target. -/
theorem node?_copy (h : t.Built L lay) {n : Node} (hn : t.node? i = some n) :
    ∃ target, t.copy.node? (renumber t.places i) =
      some { n.relabel (renumber t.places) with target } := by
  obtain ⟨a, ha⟩ := h.laid.exists_address hn
  obtain ⟨n', hn', -, hbare⟩ := exists_node?_bareCopy h.laid h.rooted ha
  obtain rfl : n = n' := Option.some.inj (hn.symm.trans hn')
  have hcopy : t.bareCopy.rebuildNames.node? (renumber t.places i) =
      some (n.relabel (renumber t.places)) := hbare
  exact ⟨_, by rw [copy_eq, node?_resolve, hcopy, Option.map_some]⟩

/-- What is copied is a copy. -/
theorem isCopy (h : t.Built L lay) : IsCopy (renumber t.places) t t.copy :=
  { h.alike h.copy rfl with
    root_eq := h.relabel_root h.copy
    whole_node_eq := fun _ _ => h.node?_copy
    isolated_eq := h.isolatedFiles_relabel h.copy
    listing_eq := by rw [listing, listing, h.lines_eq h.copy rfl]
    size_eq := h.size_eq h.copy
    wellBound := h.copy.wellBound h.anchored_copy h.admissible_copy
    nodeAt?_eq := h.nodeAt?_relabel h.copy
    evaluateAt_eq := fun o _ v hi => h.evaluateAt_relabel h.copy o hi v }

/-! ### References -/

/-- Where every reference is bound to what its mention means, what references are bound to depends
on nothing but the ledger. -/
theorem referencesAgree (h : t.Built L lay) (h' : u.Built L (lay.relabel ρ))
    (ht : ∀ r ∈ t.references, t.MentionMeans r.scope r.mention r.binding)
    (hu : ∀ r ∈ u.references, u.MentionMeans r.scope r.mention r.binding) :
    ReferencesAgree ρ t u := by
  intro path
  rw [referencesIn, referencesIn, file?, file?]
  cases hf : t.files[path.components]? with
  | none =>
    have hfiles := h.files_eq h' path.components
    rw [hf, Option.map_none, Option.map_eq_none_iff] at hfiles
    rw [hfiles]
    exact .nil
  | some f =>
    obtain ⟨g, hg, heq⟩ := h.exists_record_relabel h' hf
    rw [hg]
    -- the references differ in their bindings only, and in the numbers of their scopes
    have hsame : List.Forall₂
        (fun r r' => r'.mention = r.mention ∧ r'.file = r.file ∧ r'.scope = ρ r.scope)
        f.references g.references := by
      have hreferences := congrArg FileRecord.references heq
      rw [FileRecord.rebound, FileRecord.relabel, ← List.forall₂_eq_eq_eq,
        List.forall₂_map_left_iff, List.forall₂_map_right_iff] at hreferences
      refine hreferences.flip.imp fun r r' hr => ?_
      obtain ⟨hmention, hfile, hscope, -⟩ := Reference.mk.inj hr
      exact ⟨hmention, hfile, hscope⟩
    refine List.forall₂_iff_zip.mpr ⟨hsame.length_eq, fun {r r'} hmem => ?_⟩
    obtain ⟨hmention, hfile, hscope⟩ := List.forall₂_zip hsame hmem
    obtain ⟨hr, hr'⟩ := List.of_mem_zip hmem
    obtain ⟨e, -, -, hisOf⟩ := h.isOf hf
    refine ⟨hmention, hfile, hscope, h.bindingsAgree h'
      (h.laid.isLive_iff.mpr (hisOf.exists_scope_at hr))
      (ht r (mem_references_iff.mpr ⟨_, f, hf, hr⟩)) ?_⟩
    have hmeans := hu r' (mem_references_iff.mpr ⟨_, g, hg, hr'⟩)
    rwa [hscope, hmention] at hmeans

end Built

/-- After any run a copy is faithful; and right after resolution each file has the same references
in the index and in its copy, bound to the same places. -/
theorem copy_run (options : IndexOptions) (ops : List Operation) :
    (∃ ρ, IsCopy ρ (run options ops) (run options ops).copy) ∧
      ∃ ρ, IsCopy ρ (run options ops).resolve (run options ops).resolve.copy ∧
        ReferencesAgree ρ (run options ops).resolve (run options ops).resolve.copy := by
  obtain ⟨lay, h, -⟩ := exists_built_run options ops
  refine ⟨⟨_, h.isCopy⟩, _, h.resolve.isCopy, h.resolve.referencesAgree h.resolve.copy
    (fun r hr => h.mentionMeans_resolve hr) fun r hr => ?_⟩
  exact h.resolve.bareCopy.mentionMeans_resolve hr

end Index

end SemanticIndex
