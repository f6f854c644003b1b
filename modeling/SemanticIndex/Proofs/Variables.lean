import SemanticIndex.Proofs.Bracketing
import SemanticIndex.Proofs.Unfolding

/-!
# Which Variables Nodes Hold

A node holds the variables that are declared in it, by whichever file, with the last declaration of
each name (`Index.Built.exists_variableSite`). Where no two declarations in the indexed files have
one name (`Ledger.UniqueVariables`), every declaration counts: the node in which it stands holds
just this variable under its name (`Index.Built.declaration?_eq`), and no other node holds one
(`Index.Built.eq_of_holdsVariable`). A name that leads to a variable then leads to it from wherever
its node is on the way up (`Index.Built.defaultOf?_eq`).
-/

namespace SemanticIndex

/-- The declaration of a variable with where it stands. -/
structure VariableSite where
  /-- The declared names of the objects around it, the outermost first. -/
  path : List String
  declaration : VariableDeclaration

/-- The variable that is declared here, if one is. -/
def Site.variableSite? (s : Site) : Option VariableSite :=
  match s.definition with
  | .var v => some ⟨s.path, v⟩
  | _ => none

/-- The declarations of variables in the document, in source order. -/
def Document.variableSites (d : Document) : List VariableSite :=
  d.sites.filterMap Site.variableSite?

namespace Ledger

/-- The declarations of variables in all files. -/
def variableSites (L : Ledger) : List ((SourcePath × Document) × VariableSite) :=
  L.flatMap fun e => e.2.variableSites.map (e, ·)

/-- No two variables have one name, and no name begins with the mark of a variable. -/
structure UniqueVariables (L : Ledger) : Prop where
  nodup : (L.variableSites.map fun v => v.2.declaration.name).Nodup
  plain : ∀ v ∈ L.variableSites, variableName v.2.declaration.name = v.2.declaration.name

variable {L : Ledger} {e : SourcePath × Document} {s : Site} {v : VariableDeclaration}

/-- A site that declares a variable is among the variable sites. -/
theorem mem_variableSites (he : e ∈ L) (hs : s ∈ e.2.sites) (hv : s.definition = .var v) :
    (e, ⟨s.path, v⟩) ∈ L.variableSites := by
  refine List.mem_flatMap.mpr ⟨e, he, List.mem_map.mpr ⟨_, ?_, rfl⟩⟩
  exact List.mem_filterMap.mpr ⟨s, hs, by rw [Site.variableSite?, hv]⟩

end Ledger

/-! ### Blocks and what stands in them -/

/-- The site is one of the `members`, which stand right inside the objects `path`, or a member of
one of the blocks. -/
def Site.StandsIn (s : Site) (path : List String) (members : List (Definition × Bool))
    (blocks : List Block) : Prop :=
  (s.path = path ∧ (s.definition, s.enclosed) ∈ members) ∨
    ∃ b ∈ blocks, b.path = s.path ∧ (s.definition, s.enclosed) ∈ b.fragment.members

theorem Site.StandsIn.mono {s : Site} {path : List String}
    {members members' : List (Definition × Bool)} {blocks blocks' : List Block}
    (h : s.StandsIn path members blocks)
    (hmembers : members ⊆ members') (hblocks : blocks ⊆ blocks') :
    s.StandsIn path members' blocks' := by
  rcases h with ⟨hpath, hmem⟩ | ⟨b, hb, hrest⟩
  · exact Or.inl ⟨hpath, hmembers hmem⟩
  · exact Or.inr ⟨b, hblocks hb, hrest⟩

namespace Definition

variable {path : List String} {c : Bool} {d : Definition} {ds : List Definition} {s : Site}

/-- What is so of a definition in a body is so of the body. -/
theorem standsIn_all {file : SourcePath} {comments : List Comment} (hd : d ∈ ds)
    (h : s.StandsIn path (withInner c d) (blocks file comments path c d)) :
    s.StandsIn path (members c ds) (blocksAll file comments path c ds) := by
  rw [members_eq_flatMap, blocksAll_eq_flatMap]
  exact h.mono (fun _ hm => List.mem_flatMap.mpr ⟨d, hd, hm⟩)
    fun _ hb => List.mem_flatMap.mpr ⟨d, hd, hb⟩

/-- What a definition holds stands right in it, or is a member of one of its blocks. -/
theorem standsIn_of_mem_sites (file : SourcePath) (comments : List Comment)
    (hs : s ∈ sites path c d) :
    s.StandsIn path (withInner c d) (blocks file comments path c d) := by
  revert hs
  refine sites_induction
    (P := fun path c d => s.StandsIn path (withInner c d) (blocks file comments path c d))
    (Or.inl ⟨rfl, ?_⟩) (fun path c d b hb d' hd' ih => ?_) path c d
  · cases s.definition <;> simp [withInner]
  have hbody := standsIn_all hd' ih
  cases d with
  | field | var | template | instantiation => cases hb
  | object name body span =>
    obtain rfl := List.mem_singleton.mp hb
    -- the members of the body are those of the block of the object
    right
    rw [blocks]
    rcases hbody with ⟨hpath, hmem⟩ | ⟨b, hb, hrest⟩
    · exact ⟨_, List.mem_append_right _ (List.mem_singleton_self _), hpath.symm, hmem⟩
    · exact ⟨b, List.mem_append_left _ hb, hrest⟩
  | conditional condition thenBody elseBody span =>
    rw [withInner, blocks]
    obtain rfl | rfl := List.mem_pair.mp hb
    · exact hbody.mono (List.subset_cons_of_subset _ (List.subset_append_left _ _))
        (List.subset_append_left _ _)
    · exact hbody.mono (List.subset_cons_of_subset _ (List.subset_append_right _ _))
        (List.subset_append_right _ _)
  | loop key value items body span =>
    rw [withInner, blocks]
    obtain rfl := List.mem_singleton.mp hb
    exact hbody.mono (List.subset_cons_self _ _) (List.Subset.refl _)

end Definition

namespace Document

variable {file : SourcePath} {d : Document} {s : Site} {b : Block}

/-- What stands somewhere in the document is a member of a block that stands there. -/
theorem exists_block_of_mem_sites (file : SourcePath) (hs : s ∈ d.sites) :
    ∃ b ∈ (d.outline file).blocks, b.path = s.path ∧
      (s.definition, s.enclosed) ∈ b.fragment.members := by
  obtain ⟨d', hd', hs⟩ := Definition.mem_sitesAll_iff.mp hs
  obtain ⟨b, hb, hpath, hmem⟩ : ∃ b ∈ Definition.blocksAll file d.comments [] false d.definitions ++
      [⟨[], Fragment.ofDocument file d⟩],
      b.path = s.path ∧ (s.definition, s.enclosed) ∈ b.fragment.members := by
    obtain ⟨hpath, hmem⟩ | ⟨b, hb, hrest⟩ :=
      Definition.standsIn_all hd' (Definition.standsIn_of_mem_sites file d.comments hs)
    -- what stands in no object is a member of the whole file
    · exact ⟨_, List.mem_append_right _ (List.mem_singleton_self _), hpath.symm, hmem⟩
    · exact ⟨b, List.mem_append_left _ hb, hrest⟩
  obtain ⟨pragmas, hb'⟩ := exists_mem_attachPragmas (Outline.homes _ d.pragmas) hb
  exact ⟨_, hb', hpath, hmem⟩

/-- A variable among the members of a block stands in it: the arguments of an instantiation are
fields. -/
theorem mem_sites_of_var {v : VariableDeclaration} {c : Bool} (hb : b ∈ (d.outline file).blocks)
    (hm : (.var v, c) ∈ b.fragment.members) : ⟨b.path, c, .var v⟩ ∈ d.sites := by
  refine mem_sites_of_mem_members hb ?_ hm
  obtain ⟨b', pragmas, rfl, ⟨s, hs, hsb⟩ | rfl⟩ := exists_of_mem_blocks hb
  · unfold Site.block? at hsb
    split at hsb
    · obtain rfl := Option.some.inj hsb
      rfl
    · rename_i i hsite
      obtain rfl := Option.some.inj hsb
      change _ ∈ (Fragment.ofInstantiation file d.comments s.enclosed i).members at hm
      rw [Definition.members_ofInstantiation] at hm
      obtain ⟨a, -, heq⟩ := List.mem_map.mp hm
      cases heq
    · cases hsb
  · rfl

end Document

/-! ### Nodes -/

namespace Index

variable {t : Index} {L : Ledger} {lay : Layout} {path : SourcePath} {doc : Document}
  {r : FileRecord} {i j owner : NodeId} {n : Node} {x name : String} {s : Site}
  {v : VariableDeclaration} {default : Value}

namespace Built

/-- A fragment on a node is that of an entered file. -/
theorem exists_entry_of_fragment (h : t.Built L lay) (hn : t.node? i = some n) {g : Fragment}
    (hg : g ∈ n.fragments) : ∃ e ∈ L, g.file = e.1 ∧ ∃ r, t.file? e.1 = some r := by
  obtain ⟨a, ha⟩ := h.laid.exists_address hn
  rw [h.fragments_eq ha hn, mem_fragmentsAt_iff] at hg
  obtain ⟨e, he, hd⟩ := Ledger.mem_deposits_iff.mp hg
  obtain ⟨r, hr, -⟩ := h.exists_file e he
  exact ⟨e, he, Document.file_eq_of_mem_deposits hd, r, hr⟩

/-- A variable that a node holds is declared in it. -/
theorem exists_variableSite (h : t.Built L lay) (hv : t.declaration? i x = some v) :
    v.name = x ∧ ∃ q ∈ L.variableSites, q.2.declaration = v ∧
      ∃ r, t.file? q.1.1 = some r ∧ t.follow? r.top q.2.path = some i := by
  obtain ⟨w, hw, rfl⟩ := Option.map_eq_some_iff.mp hv
  obtain ⟨n, hn, hw⟩ := Option.bind_eq_some_iff.mp hw
  -- some member of some fragment on the node is the declaration
  obtain ⟨g, hg, -, hname, c, hm⟩ := (h.current hn List.not_mem_nil).exists_fragment_of_vars hw
  obtain ⟨e, he, hfile, r, hr⟩ := h.exists_entry_of_fragment hn hg
  obtain ⟨b, hb, rfl, hi⟩ := h.exists_block he hr hn hg (hfile ▸ SourcePath.same_refl e.1)
  have hsite : ⟨b.path, c, .var w.declaration⟩ ∈ e.2.sites := Document.mem_sites_of_var hb hm
  exact ⟨hname, _, Ledger.mem_variableSites he hsite rfl, rfl, r, hr, hi⟩

/-- A variable that is declared in a node is held by it, if not by this declaration. -/
theorem holdsVariable_of_mem_sites (h : t.Built L lay) (he : (path, doc) ∈ L)
    (hr : t.file? path = some r) (hs : s ∈ doc.sites) (hv : s.definition = .var v)
    (hi : t.follow? r.top s.path = some i) : t.HoldsVariable i v.name := by
  obtain ⟨b, hb, hpath, hmem⟩ := Document.exists_block_of_mem_sites path hs
  obtain ⟨j, n, hj, hn, hfragment⟩ := h.exists_fragment he hr hb
  obtain rfl : j = i := Option.some.inj (hj.symm.trans (hpath ▸ hi))
  have hheld : n.summary.vars.contains v.name = true := by
    rw [(h.current hn List.not_mem_nil).vars_eq, Std.ExtTreeMap.contains_ofList,
      List.contains_iff_mem]
    refine List.mem_map.mpr ⟨(v.name, ⟨b.fragment.file, b.fragment.docs[v.name]?, v⟩), ?_, rfl⟩
    refine List.mem_flatMap.mpr ⟨b.fragment, hfragment, List.mem_filterMap.mpr ⟨_, hmem, ?_⟩⟩
    rw [hv]
  rw [Std.ExtTreeMap.contains_eq_isSome_getElem?, Option.isSome_iff_exists] at hheld
  obtain ⟨w, hw⟩ := hheld
  exact ⟨n, w, hn, hw⟩

/-- A node holds a variable exactly if it has a declaration of it. -/
theorem holdsVariable_iff : t.HoldsVariable i x ↔ ∃ v, t.declaration? i x = some v := by
  simp [HoldsVariable, declaration?, Option.bind_eq_some_iff]

/-- A variable depends on those only that a default names which is declared under its own name. -/
theorem exists_mem_names_of_dependsOn (h : t.Built L lay) {p q : NodeId × String}
    (hpq : t.DependsOn p q) :
    ∃ s ∈ L.variableSites, s.2.declaration.name = p.2 ∧
      ∃ default, s.2.declaration.default = some default ∧
        ∃ y ∈ default.names, variableName y = q.2 := by
  obtain ⟨v, default, y, w, hv, hdefault, hy, hw, hq⟩ := hpq
  obtain ⟨hname, s, hs, rfl, -⟩ := h.exists_variableSite hv
  exact ⟨s, hs, hname, default, hdefault, y, hy, (h.resolveVariable?_eq_some hw).1.symm.trans hq⟩

variable (h : t.Built L lay) (hunique : L.UniqueVariables)
include h hunique

/-- No two nodes hold a variable of one name. -/
theorem eq_of_holdsVariable (hi : t.HoldsVariable i x) (hj : t.HoldsVariable j x) : i = j := by
  obtain ⟨v, hv⟩ := holdsVariable_iff.mp hi
  obtain ⟨w, hw⟩ := holdsVariable_iff.mp hj
  obtain ⟨hname, q, hq, rfl, r, hr, hi⟩ := h.exists_variableSite hv
  obtain ⟨hname', q', hq', rfl, r', hr', hj⟩ := h.exists_variableSite hw
  obtain rfl := List.inj_on_of_nodup_map hunique.nodup hq hq' (hname.trans hname'.symm)
  obtain rfl := Option.some.inj (hr.symm.trans hr')
  exact Option.some.inj (hi.symm.trans hj)

/-- A declaration is what the node in which it stands holds under its name. -/
theorem declaration?_eq (he : (path, doc) ∈ L) (hr : t.file? path = some r) (hs : s ∈ doc.sites)
    (hv : s.definition = .var v) (hi : t.follow? r.top s.path = some i) :
    t.declaration? i v.name = some v := by
  obtain ⟨w, hw⟩ := holdsVariable_iff.mp (h.holdsVariable_of_mem_sites he hr hs hv hi)
  obtain ⟨hname, q, hq, rfl, -⟩ := h.exists_variableSite hw
  have heq := List.inj_on_of_nodup_map hunique.nodup hq (Ledger.mem_variableSites he hs hv) hname
  rw [hw, heq]

/-- A name leads to the default of the variable that a node on the way up holds. -/
theorem defaultOf?_eq (howner : owner ∈ t.ancestors i)
    (hv : t.declaration? owner (variableName name) = some v) (hdefault : v.default = some default) :
    t.defaultOf? i name = some (owner, variableName name, default) := by
  have hholds := holdsVariable_iff.mpr ⟨v, hv⟩
  cases hresolved : t.resolveVariable? i name with
  | none =>
    exact absurd hholds (resolveVariable?_eq_none hresolved owner (List.mem_append_left _ howner))
  | some found =>
    obtain ⟨owner', w⟩ := found
    obtain ⟨hname, hholds', -⟩ := h.resolveVariable?_eq_some hresolved
    obtain rfl := h.eq_of_holdsVariable hunique hholds' hholds
    obtain rfl := Option.some.inj ((declaration?_of_resolveVariable? hresolved).symm.trans hv)
    simp only [defaultOf?, hresolved, Option.bind_some, hdefault, Option.map_some, hname]

end Built

end Index

end SemanticIndex
