import SemanticIndex.Proofs.Bindings
import SemanticIndex.Proofs.Counterparts

/-!
# After Resolution

Right after resolution every reference is bound to what its mention means
(`Index.Built.mentionMeans_resolve`), and the target of a node that has a link name is what this
name means from the scope around the node (`Index.Built.linksSettled_resolve`). A node that has
lost its link name to a later contribution keeps the target that it had, as long as an earlier
contribution makes it a link.
-/

namespace SemanticIndex

theorem Layout.relabel_id (lay : Layout) : lay.relabel id = lay :=
  funext fun a => congrFun Option.map_id (lay a)

theorem Binding.relabel_id (b : Binding) : b.relabel id = b := by
  cases b <;> rfl

namespace Index

/-- The target of a node. -/
def linkTarget? (t : Index) (id : NodeId) : Option NodeId := (t.node? id).bind Node.target

/-- The targets of the links are what their names mean, and what is no link has none. -/
structure LinksSettled (t : Index) : Prop where
  target_ne : ∀ {i : NodeId} {n : Node}, t.node? i = some n → n.target ≠ some i
  means : ∀ {i : NodeId} {n : Node} {name : String}, t.node? i = some n →
    t.linkName? i = some name →
      t.NameMeans (n.parent.getD i) name (fun other _ => other != i) n.target
  of_not_isLink : ∀ {i : NodeId} {n : Node}, t.node? i = some n → n.isLink t.options = false →
    n.target = none

/-- The targets in `t` and `u` have the same places, except perhaps those of nodes that a fragment
makes links but that have no link name. -/
def LinksAgree (ρ : NodeId → NodeId) (t u : Index) : Prop :=
  ∀ i n m, t.node? i = some n → u.node? (ρ i) = some m →
    (t.linkName? i = none → n.isLink t.options = false) →
      m.target.map u.placeOf = n.target.map t.placeOf

variable {t u : Index} {L : Ledger} {lay : Layout} {ρ : NodeId → NodeId} {i : NodeId} {n m : Node}

/-! ### References -/

/-- An index that is resolved is built in the same layout. -/
theorem Built.resolve_relabel (h : t.Built L lay) : t.resolve.Built L (lay.relabel id) :=
  (Layout.relabel_id lay).symm ▸ h.resolve

/-- Resolution binds a reference to what its mention means. -/
theorem Built.mentionMeans_resolve (h : t.Built L lay) {r : Reference}
    (hr : r ∈ t.resolve.references) : t.resolve.MentionMeans r.scope r.mention r.binding := by
  obtain ⟨k, g, hg, hr⟩ := mem_references_iff.mp hr
  have hfiles : t.resolve.files[k]? =
      (t.files[k]?).map (FileRecord.rebound fun r => t.bindingOf r.scope r.mention) :=
    Std.ExtTreeMap.getElem?_map
  rw [hfiles] at hg
  obtain ⟨f, hf, rfl⟩ := Option.map_eq_some_iff.mp hg
  obtain ⟨r, hmem, rfl⟩ := List.mem_map.mp hr
  obtain ⟨e, -, -, hisOf⟩ := h.isOf hf
  have hscope : t.isLive r.scope = true := h.laid.isLive_iff.mpr (hisOf.exists_scope_at hmem)
  -- the targets that resolution notes have no part in what mentions mean
  have hmeans := h.mentionMeans_relabel h.resolve_relabel hscope
    (h.mentionMeans_bindingOf r.scope r.mention)
  rwa [Binding.relabel_id] at hmeans

/-- Resolution binds each reference and leaves them where they are. -/
theorem references_resolve (t : Index) :
    t.resolve.references =
      t.references.map fun r => { r with binding := t.bindingOf r.scope r.mention } := by
  have hvalues : t.resolve.files.values =
      t.files.values.map (FileRecord.rebound fun r => t.bindingOf r.scope r.mention) := by
    rw [resolve, values_eq_map_toList, values_eq_map_toList, Std.ExtTreeMap.toList_map,
      List.map_map, List.map_map]
    rfl
  rw [references, hvalues, references, List.map_flatMap, List.flatMap_map]
  rfl

/-- Some references are bound one by one, and those that nothing is found for are counted. -/
theorem bindAll_eq (t : Index) (count : Nat) (rs : List Reference) :
    t.bindAll count rs =
      (rs.map fun r => { r with binding := t.bindingOf r.scope r.mention },
        count + rs.countP fun r =>
          t.bindingOf r.scope r.mention == .unbound && !r.mention.isLocal) := by
  induction rs generalizing count with
  | nil => rfl
  | cons r rs ih =>
    have hcounted :
        (!({ r with binding := t.bindingOf r.scope r.mention } : Reference).isResolved &&
            !r.mention.isLocal) =
          (t.bindingOf r.scope r.mention == .unbound && !r.mention.isLocal) := by
      rw [Reference.isResolved, bne, Bool.not_not]
    rw [bindAll, ih, List.countP_cons, hcounted]
    refine Prod.ext rfl ?_
    dsimp only
    split <;> omega

/-- Resolution counts the references that it leaves bound to nothing, except the local ones. -/
theorem resolveCounting_eq (t : Index) :
    t.resolveCounting = (t.resolve,
      t.resolve.references.countP fun r => r.binding == .unbound && !r.mention.isLocal) := by
  rw [resolveCounting, bindAll_eq, references_resolve, List.countP_map, Nat.zero_add]
  rfl

/-- After any run, right after resolution, every reference is bound to what its mention means, and
the number that resolution returns is that of the references that are bound to nothing and not
local. -/
theorem mentionMeans_resolve_run (options : IndexOptions) (ops : List Operation) :
    (∀ r ∈ (run options ops).resolve.references,
      (run options ops).resolve.MentionMeans r.scope r.mention r.binding) ∧
    (run options ops).resolveCounting = ((run options ops).resolve,
      (run options ops).resolve.references.countP fun r =>
        r.binding == .unbound && !r.mention.isLocal) := by
  obtain ⟨lay, h, -⟩ := exists_built_run options ops
  exact ⟨fun r hr => h.mentionMeans_resolve hr, resolveCounting_eq _⟩

/-! ### Links -/

/-- Counterparts have the same link name: evaluated values have no part in it. -/
theorem Built.linkName?_relabel (h : t.Built L lay) (h' : u.Built L (lay.relabel ρ))
    (hoptions : u.options = t.options) (hn : t.node? i = some n) :
    u.linkName? (ρ i) = t.linkName? i := by
  obtain ⟨a, ha⟩ := h.laid.exists_address hn
  obtain ⟨m, hm⟩ := h'.laid.exists_node (Layout.relabel_eq_some ha)
  obtain ⟨-, -, -, hsummary⟩ := h.summary_eq h' hoptions ha hn hm
  have hbare : ∀ (k : Node) (field : String),
      ((k.field? field).bind fun entry => bareName? entry.value) =
        (k.summary.withoutValues.field? field).bind fun entry => bareName? entry.value := by
    intro k field
    rw [Summary.field?_withoutValues, Option.bind_map]
    rfl
  simp only [linkName?, hn, hm, Option.bind_some, hoptions, hbare, hsummary]

/-- The scope around a node is there. -/
theorem Built.isLive_parent_getD (h : t.Built L lay) (hn : t.node? i = some n) :
    t.isLive (n.parent.getD i) = true := by
  cases hp : n.parent with
  | none => exact isLive_of_node? hn
  | some p =>
    obtain ⟨m, hm, -⟩ := h.parent_holds hn hp
    exact isLive_of_node? hm

/-- After resolution links are settled, if no node was its own target. -/
theorem Built.linksSettled_resolve (h : t.Built L lay)
    (htarget : ∀ {i n}, t.node? i = some n → n.target ≠ some i) : t.resolve.LinksSettled where
  target_ne := (admissible_resolve htarget).target_ne
  means {i m name} hm hname := by
    rw [node?_resolve] at hm
    obtain ⟨n, hn, rfl⟩ := Option.map_eq_some_iff.mp hm
    have hlink : t.linkName? i = some name :=
      (h.linkName?_relabel h.resolve_relabel rfl hn).symm.trans hname
    have htargetOf : t.targetOf i n =
        t.resolveName? (n.parent.getD i) name fun other _ => other != i := by
      rw [targetOf, hlink]
    have hmeans := h.nameMeans_resolveName? (n.parent.getD i) name fun other _ => other != i
    rw [← htargetOf] at hmeans
    -- the targets that resolution notes have no part in what names mean
    have hresolved : t.resolve.NameMeans (n.parent.getD i) name (fun other _ => other != i)
        ((t.targetOf i n).map id) :=
      h.nameMeans_relabel h.resolve_relabel (fun _ _ => rfl) (h.isLive_parent_getD hn) hmeans
    rwa [Option.map_id] at hresolved
  of_not_isLink hm hlink := by
    -- only a link has a target
    by_contra hsome
    rw [(h.resolve.current hm List.not_mem_nil).isLink_of_target hsome] at hlink
    cases hlink

/-- Where the links are settled, their targets depend on nothing but the ledger. -/
theorem Built.linksAgree (h : t.Built L lay) (h' : u.Built L (lay.relabel ρ))
    (hoptions : u.options = t.options) (ht : t.LinksSettled) (hu : u.LinksSettled) :
    LinksAgree ρ t u := by
  intro i n m hn hm hnamed
  obtain ⟨a, ha⟩ := h.laid.exists_address hn
  obtain ⟨-, hfragments, -, -⟩ := h.summary_eq h' hoptions ha hn hm
  have hlinkName := h.linkName?_relabel h' hoptions hn
  cases hname : t.linkName? i with
  -- no fragment makes the node a link, here or there
  | none =>
    have hlink := hnamed hname
    have hlink' : m.isLink u.options = false := by
      rw [Node.isLink, hfragments, hoptions]
      exact hlink
    rw [ht.of_not_isLink hn hlink, hu.of_not_isLink hm hlink']
    rfl
  | some name =>
    have hparent : m.parent.getD (ρ i) = ρ (n.parent.getD i) := by
      have habove : m.above = n.above.map ρ := by
        rw [h'.laid.above_eq (Layout.relabel_eq_some ha) hm, h.laid.above_eq ha hn,
          Layout.above_relabel]
      rw [Node.parent, Node.parent, habove, List.head?_map, Option.getD_map]
    have hmeans := hu.means hm (hlinkName.trans hname)
    rw [hparent] at hmeans
    -- a counterpart of another node is another node
    refine h.placeOf_eq_of_relabel h' (fun {j k k'} hk _ => ?_) (h.isLive_parent_getD hn)
      (ht.means hn hname) hmeans
    rw [Bool.eq_iff_iff, bne_iff_ne, bne_iff_ne, not_iff_not]
    exact ⟨h.injOn h' j i (isLive_of_node? hk) (isLive_of_node? hn), congrArg ρ⟩

/-- Without a link name a node keeps the target that it has. -/
theorem linkTarget?_resolve_of_linkName?_eq_none (h : t.linkName? i = none) :
    t.resolve.linkTarget? i = t.linkTarget? i := by
  rw [linkTarget?, linkTarget?, node?_resolve]
  cases t.node? i with
  | none => rfl
  | some n =>
    show t.targetOf i n = n.target
    rw [targetOf, h]

/-- After any run, right after resolution, the target of a node with a link name is what this name
means from the scope around the node, other than the node itself; a node that no fragment makes a
link has no target, and any other one without a link name has the target from before. But for
targets of this last kind, a copy has targets of the same places. -/
theorem targets_resolve_run (options : IndexOptions) (ops : List Operation) :
    (run options ops).resolve.LinksSettled ∧
    (∀ i, (run options ops).linkName? i = none →
      (run options ops).resolve.linkTarget? i = (run options ops).linkTarget? i) ∧
    ∃ ρ, Alike ρ (run options ops).resolve (run options ops).resolve.copy ∧
      LinksAgree ρ (run options ops).resolve (run options ops).resolve.copy := by
  obtain ⟨lay, h, -⟩ := exists_built_run options ops
  have hsettled := h.linksSettled_resolve (admissible_run options ops).2.target_ne
  have hcopied := h.resolve.copy
  refine ⟨hsettled, fun i => linkTarget?_resolve_of_linkName?_eq_none, _,
    h.resolve.alike hcopied rfl, h.resolve.linksAgree hcopied rfl hsettled ?_⟩
  -- nodes have no targets before the links of the copy are resolved
  refine h.resolve.bareCopy.linksSettled_resolve fun {i m} hm => ?_
  obtain ⟨id, n, -, -, rfl⟩ := exists_of_node?_bareCopy h.resolve.laid h.resolve.rooted hm
  rintro ⟨⟩

/-- A file of the package `app` that declares the object `web`, with an alias, and the object
`db`. -/
def aliasDocument (value : Value) : Document where
  package := some ⟨"app", .start⟩
  definitions := [.object (.reference "web" .start) [.field ⟨"Alias", value, .start⟩] {},
    .object (.reference "db" .start) [] {}]
  comments := []
  pragmas := []

/-- When a second file makes the alias of `web` a number, `web` has no link name any more, but it
keeps its target even when the links are resolved again. In a copy it has none. -/
theorem exists_stale_target :
    let t := (run {} [.add (.ofText "a.pcl") (aliasDocument (.reference "db" .start)), .resolve,
      .add (.ofText "b.pcl") (aliasDocument (.int 80 .start))]).resolve
    ∃ i j, t.isLive i ∧ t.linkName? i = none ∧ t.linkTarget? i ≠ none ∧
      t.copy.isLive j ∧ t.copy.pathNames j = t.pathNames i ∧ t.copy.linkTarget? j = none := by
  exact ⟨2, 3, by decide, by decide, by decide, by decide, by decide, by decide⟩

end Index

end SemanticIndex
