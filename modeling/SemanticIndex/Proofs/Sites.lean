import SemanticIndex.Proofs.Outlines

/-!
# What Stands Where in a Document

The definitions of a document outside template bodies, in source order, each with the objects around
it and with whether a conditional or a loop encloses it (`Document.sites`). From these can be read
what paths a document declares (`Document.declaredPaths`), where its fields lie
(`Document.fieldSites`) and which templates it defines (`Document.templates`).

An outline is worked out by other recursions: one for the blocks, one for the members of each block,
one for the templates. They come to the same objects (`Document.exists_mem_blocks`,
`Document.exists_of_mem_blocks`), to members that stand where they should
(`Document.mem_sites_of_mem_members`) and to the same templates (`Document.templates_outline`).
-/

namespace SemanticIndex

/-- A definition outside template bodies, with where it stands. -/
structure Site where
  /-- The declared names of the objects around it, the outermost first. -/
  path : List String
  /-- Whether a conditional or a loop encloses it, at whatever level. -/
  enclosed : Bool
  definition : Definition

/-- A field with where it lies: in a body, or in the arguments of an instantiation. -/
structure FieldSite where
  /-- The declared names of the objects around it, the outermost first. -/
  path : List String
  /-- Whether a conditional or a loop encloses it, at whatever level. -/
  enclosed : Bool
  field : Field

namespace Site

/-- The path of the object that is declared here, if one is. -/
def objectPath? (s : Site) : Option (List String) :=
  match s.definition with
  | .object name _ _ => some (s.path ++ [name.text])
  | .instantiation i => some (s.path ++ [i.name])
  | _ => none

/-- The field that stands here, or the arguments of the instantiation. -/
def fieldSites (s : Site) : List FieldSite :=
  match s.definition with
  | .field f => [⟨s.path, s.enclosed, f⟩]
  | .instantiation i => i.arguments.map fun a => ⟨s.path ++ [i.name], s.enclosed, a⟩
  | _ => []

/-- The template that is defined here, if one is. -/
def template? (s : Site) : Option Template :=
  match s.definition with
  | .template name parameters body span => some ⟨name, parameters, body, span⟩
  | _ => none

end Site

namespace Definition

mutual

/-- A definition that stands inside the objects `path`, and all that it holds, in source order. The
body of a template is not looked at. -/
def sites (path : List String) (enclosed : Bool) : Definition → List Site
  | d@(object name body _) => ⟨path, enclosed, d⟩ :: sitesAll (path ++ [name.text]) enclosed body
  | d@(conditional _ thenBody elseBody _) =>
    ⟨path, enclosed, d⟩ :: (sitesAll path true thenBody ++ sitesAll path true elseBody)
  | d@(loop _ _ _ body _) => ⟨path, enclosed, d⟩ :: sitesAll path true body
  | d => [⟨path, enclosed, d⟩]

/-- The definitions of a body inside the objects `path`, and all that they hold. -/
def sitesAll (path : List String) (enclosed : Bool) : List Definition → List Site
  | [] => []
  | d :: ds => sites path enclosed d ++ sitesAll path enclosed ds

end

end Definition

namespace Document

/-- The definitions of the document outside template bodies, in source order. -/
def sites (d : Document) : List Site := Definition.sitesAll [] false d.definitions

/-- The paths that the document declares: that of its package, and those of its objects. -/
def declaredPaths (d : Document) : List (List String) :=
  d.packagePath :: (d.sites.filterMap Site.objectPath?).map (d.packagePath ++ ·)

/-- The fields of the document, in source order. -/
def fieldSites (d : Document) : List FieldSite := d.sites.flatMap Site.fieldSites

/-- The templates that the document defines, in source order. -/
def templates (d : Document) : List Template := d.sites.filterMap Site.template?

end Document

/-- What a field contributes to the node that it lies in. -/
def FieldSite.entry (file : SourcePath) (s : FieldSite) : FieldEntry :=
  ⟨file, s.field.value, s.field.position, s.enclosed, none⟩

/-! ### Definitions and the bodies in them -/

/-- A body in a definition. -/
structure Body where
  /-- The declared names of the objects around what it holds, the outermost first. -/
  path : List String
  /-- Whether a conditional or a loop encloses what it holds, at whatever level. -/
  enclosed : Bool
  definitions : List Definition

/-- What stands in the body. -/
def Body.sites (b : Body) : List Site := Definition.sitesAll b.path b.enclosed b.definitions

namespace Definition

/-- The bodies right in a definition that stands inside the objects `path`. -/
def bodies (path : List String) (enclosed : Bool) : Definition → List Body
  | object name body _ => [⟨path ++ [name.text], enclosed, body⟩]
  | conditional _ thenBody elseBody _ => [⟨path, true, thenBody⟩, ⟨path, true, elseBody⟩]
  | loop _ _ _ body _ => [⟨path, true, body⟩]
  | field _ | var _ | template .. | instantiation _ => []

/-- What holds of a definition if it holds of all that its bodies hold, holds of all definitions. -/
@[elab_as_elim]
theorem induction {motive : Definition → Prop} (field : ∀ f, motive (.field f))
    (object : ∀ name body span, (∀ d ∈ body, motive d) → motive (.object name body span))
    (var : ∀ v, motive (.var v))
    (conditional : ∀ condition thenBody elseBody span, (∀ d ∈ thenBody, motive d) →
      (∀ d ∈ elseBody, motive d) → motive (.conditional condition thenBody elseBody span))
    (loop : ∀ key value items body span, (∀ d ∈ body, motive d) →
      motive (.loop key value items body span))
    (template : ∀ name parameters body span, motive (.template name parameters body span))
    (instantiation : ∀ i, motive (.instantiation i)) (d : Definition) : motive d :=
  @Definition.rec motive (fun ds => ∀ d ∈ ds, motive d) field object var conditional loop
    (fun name parameters body span _ => template name parameters body span) instantiation
    (fun _ h => nomatch h) (fun _ _ hd hds => List.forall_mem_cons.mpr ⟨hd, hds⟩) d

theorem sitesAll_eq_flatMap (path : List String) (c : Bool) (ds : List Definition) :
    sitesAll path c ds = ds.flatMap (sites path c) := by
  induction ds with
  | nil => rw [sitesAll, List.flatMap_nil]
  | cons d ds ih => rw [sitesAll, List.flatMap_cons, ih]

theorem blocksAll_eq_flatMap (file : SourcePath) (comments : List Comment) (path : List String)
    (c : Bool) (ds : List Definition) :
    blocksAll file comments path c ds = ds.flatMap (blocks file comments path c) := by
  induction ds with
  | nil => rw [blocksAll, List.flatMap_nil]
  | cons d ds ih => rw [blocksAll, List.flatMap_cons, ih]

theorem templatesAll_eq_flatMap (ds : List Definition) :
    templatesAll ds = ds.flatMap templates := by
  induction ds with
  | nil => rw [templatesAll, List.flatMap_nil]
  | cons d ds ih => rw [templatesAll, List.flatMap_cons, ih]

section

variable {path : List String} {c : Bool} {d : Definition} {ds : List Definition} {s : Site}

theorem mem_sitesAll_iff : s ∈ sitesAll path c ds ↔ ∃ d ∈ ds, s ∈ sites path c d := by
  rw [sitesAll_eq_flatMap, List.mem_flatMap]

/-- The definition itself comes first. -/
theorem self_mem_sites (path : List String) (c : Bool) (d : Definition) :
    ⟨path, c, d⟩ ∈ sites path c d := by
  cases d <;> exact List.mem_cons_self

/-- A definition comes before what its bodies hold. -/
theorem sites_eq (path : List String) (c : Bool) (d : Definition) :
    sites path c d = ⟨path, c, d⟩ :: (bodies path c d).flatMap Body.sites := by
  cases d <;> simp [sites, bodies, Body.sites]

/-- The sites of an inner body are sites of the definition. -/
theorem body_subset_sites {b : Body} (hb : b ∈ bodies path c d) : b.sites ⊆ sites path c d := by
  intro s hs
  rw [sites_eq]
  exact List.mem_cons_of_mem _ (List.mem_flatMap.mpr ⟨b, hb, hs⟩)

/-- A body stands no higher than its definition, and is enclosed if the definition is. -/
theorem of_mem_bodies {b : Body} (hb : b ∈ bodies path c d) :
    path <+: b.path ∧ (c = true → b.enclosed = true) := by
  cases d with
  | field | var | template | instantiation => cases hb
  | object =>
    obtain rfl := List.mem_singleton.mp hb
    exact ⟨List.prefix_append _ _, id⟩
  | conditional =>
    obtain rfl | rfl := List.mem_pair.mp hb <;> exact ⟨List.prefix_rfl, fun _ => rfl⟩
  | loop =>
    obtain rfl := List.mem_singleton.mp hb
    exact ⟨List.prefix_rfl, fun _ => rfl⟩

/-- What holds of a definition if it holds of all that its bodies hold, holds of all definitions,
wherever they stand. -/
theorem bodies_induction {P : List String → Bool → Definition → Prop}
    (step : ∀ path c d, (∀ b ∈ bodies path c d, ∀ d' ∈ b.definitions, P b.path b.enclosed d') →
      P path c d) (path : List String) (c : Bool) (d : Definition) : P path c d := by
  induction d using Definition.induction generalizing path c with
  | field | var | template | instantiation => exact step _ _ _ fun _ hb => nomatch hb
  | object name body span ih =>
    refine step _ _ _ fun b hb d' hd' => ?_
    obtain rfl := List.mem_singleton.mp hb
    exact ih d' hd' _ _
  | conditional condition thenBody elseBody span ih ih' =>
    refine step _ _ _ fun b hb d' hd' => ?_
    obtain rfl | rfl := List.mem_pair.mp hb
    · exact ih d' hd' _ _
    · exact ih' d' hd' _ _
  | loop key value items body span ih =>
    refine step _ _ _ fun b hb d' hd' => ?_
    obtain rfl := List.mem_singleton.mp hb
    exact ih d' hd' _ _

/-- What is so where a site stands, and of a definition if of what holds the site in a body of it,
is so of every definition that holds the site. -/
theorem sites_induction {P : List String → Bool → Definition → Prop}
    (self : P s.path s.enclosed s.definition)
    (inside : ∀ path c d, ∀ b ∈ bodies path c d, ∀ d' ∈ b.definitions, P b.path b.enclosed d' →
      P path c d) : ∀ path c d, s ∈ sites path c d → P path c d := by
  refine bodies_induction fun path c d ih hs => ?_
  rw [sites_eq] at hs
  rcases List.mem_cons.mp hs with rfl | hs
  · exact self
  · obtain ⟨b, hb, hs⟩ := List.mem_flatMap.mp hs
    obtain ⟨d', hd', hs⟩ := mem_sitesAll_iff.mp hs
    exact inside path c d b hb d' hd' (ih b hb d' hd' hs)

/-- What a definition holds stands no higher than the definition, and is enclosed if it is. -/
theorem of_mem_sites (hs : s ∈ sites path c d) :
    path <+: s.path ∧ (c = true → s.enclosed = true) := by
  revert hs
  refine sites_induction (P := fun path c _ => path <+: s.path ∧ (c = true → s.enclosed = true))
    ⟨List.prefix_rfl, id⟩ (fun path c d b hb _ _ ⟨hpath, henclosed⟩ => ?_) path c d
  obtain ⟨hbody, henclosed'⟩ := of_mem_bodies hb
  exact ⟨hbody.trans hpath, fun h => henclosed (henclosed' h)⟩

/-- Within a branch or a loop all sites are enclosed. -/
theorem enclosed_of_mem_sitesAll (hs : s ∈ sitesAll path true ds) : s.enclosed = true := by
  obtain ⟨d, -, hs⟩ := mem_sitesAll_iff.mp hs
  exact (of_mem_sites hs).2 rfl

/-- The path of a site goes on from that of the body. -/
theorem isPrefix_of_mem_sitesAll (hs : s ∈ sitesAll path c ds) : path <+: s.path := by
  obtain ⟨d, -, hs⟩ := mem_sitesAll_iff.mp hs
  exact (of_mem_sites hs).1

end

/-! ### Templates -/

/-- The templates that a definition registers are those defined at its sites. -/
theorem templates_eq_filterMap (path : List String) (c : Bool) (d : Definition) :
    templates d = (sites path c d).filterMap Site.template? := by
  -- what is so for each definition of a body is so for the body
  have hbody : ∀ (path : List String) (c : Bool) (ds : List Definition),
      (∀ d ∈ ds, ∀ path c, templates d = (sites path c d).filterMap Site.template?) →
        templatesAll ds = (sitesAll path c ds).filterMap Site.template? := by
    intro path c ds ih
    rw [templatesAll_eq_flatMap, sitesAll_eq_flatMap, List.filterMap_flatMap]
    exact List.flatMap_congr fun d hd => ih d hd path c
  induction d using Definition.induction generalizing path c with
  | field | var | instantiation | template => rw [templates, sites] <;> simp [Site.template?]
  | object name body span ih =>
    rw [templates, sites, List.filterMap_cons_none rfl, hbody _ c body ih]
  | conditional condition thenBody elseBody span ih ih' =>
    rw [templates, sites, List.filterMap_cons_none rfl, List.filterMap_append,
      hbody path true thenBody ih, hbody path true elseBody ih']
  | loop key value items body span ih =>
    rw [templates, sites, List.filterMap_cons_none rfl, hbody path true body ih]

theorem templatesAll_eq_filterMap (path : List String) (c : Bool) (ds : List Definition) :
    templatesAll ds = (sitesAll path c ds).filterMap Site.template? := by
  rw [templatesAll_eq_flatMap, sitesAll_eq_flatMap, List.filterMap_flatMap]
  exact List.flatMap_congr fun d _ => templates_eq_filterMap path c d

end Definition

/-! ### Blocks -/

/-- The block of the object that is declared here, if one is. -/
def Site.block? (file : SourcePath) (comments : List Comment) (s : Site) : Option Block :=
  match s.definition with
  | .object name body span =>
    some ⟨s.path ++ [name.text],
      Fragment.ofObject file comments s.enclosed name.text body span⟩
  | .instantiation i =>
    some ⟨s.path ++ [i.name], Fragment.ofInstantiation file comments s.enclosed i⟩
  | _ => none

/-- The object of a site has the path of the block. -/
theorem Site.objectPath?_eq (file : SourcePath) (comments : List Comment) (s : Site) :
    s.objectPath? = (s.block? file comments).map Block.path := by
  unfold objectPath? block?
  split <;> rfl

namespace Definition

section

variable {file : SourcePath} {comments : List Comment} {path : List String} {c : Bool}
  {d : Definition} {ds : List Definition} {b : Block}

/-- The blocks of a definition are those of its sites. -/
theorem mem_blocks_iff :
    b ∈ blocks file comments path c d ↔ ∃ s ∈ sites path c d, s.block? file comments = some b := by
  -- what is so for each definition of a body is so for the body
  have hbody : ∀ {path c ds}, (∀ d ∈ ds, ∀ {path c}, b ∈ blocks file comments path c d ↔
        ∃ s ∈ sites path c d, s.block? file comments = some b) →
      (b ∈ blocksAll file comments path c ds ↔
        ∃ s ∈ sitesAll path c ds, s.block? file comments = some b) := by
    intro path c ds ih
    rw [blocksAll_eq_flatMap, List.mem_flatMap]
    simp only [mem_sitesAll_iff]
    constructor
    · rintro ⟨d, hd, hb⟩
      obtain ⟨s, hs, hsb⟩ := (ih d hd).mp hb
      exact ⟨s, ⟨d, hd, hs⟩, hsb⟩
    · rintro ⟨s, ⟨d, hd, hs⟩, hsb⟩
      exact ⟨d, hd, (ih d hd).mpr ⟨s, hs, hsb⟩⟩
  induction d using Definition.induction generalizing path c with
  | field | var | template => simp [blocks, sites, Site.block?]
  | instantiation i => simp [blocks, sites, Site.block?, eq_comm]
  | object name body span ih =>
    rw [blocks, sites, List.mem_append, List.mem_singleton, hbody fun d hd => ih d hd]
    simp only [List.mem_cons, exists_eq_or_imp]
    rw [Site.block?, Option.some.injEq, or_comm, eq_comm]
  | conditional condition thenBody elseBody span ih ih' =>
    rw [blocks, sites, List.mem_append, hbody fun d hd => ih d hd, hbody fun d hd => ih' d hd]
    simp [Site.block?, or_and_right, exists_or]
  | loop key value items body span ih =>
    rw [blocks, sites, hbody fun d hd => ih d hd]
    simp [Site.block?]

theorem mem_blocksAll_iff :
    b ∈ blocksAll file comments path c ds ↔
      ∃ s ∈ sitesAll path c ds, s.block? file comments = some b := by
  rw [blocksAll_eq_flatMap, List.mem_flatMap]
  simp only [mem_blocks_iff, mem_sitesAll_iff]
  constructor
  · rintro ⟨d, hd, s, hs, hsb⟩
    exact ⟨s, ⟨d, hd, hs⟩, hsb⟩
  · rintro ⟨s, ⟨d, hd, hs⟩, hsb⟩
    exact ⟨d, hd, s, hs, hsb⟩

end

end Definition

/-! ### Members -/

namespace Definition

section

variable {path : List String} {c c' : Bool} {d d' : Definition} {ds : List Definition} {s : Site}

/-- The members of a body stand right in it. -/
theorem mem_sites_of_mem_withInner (h : (d', c') ∈ withInner c d) :
    ⟨path, c', d'⟩ ∈ sites path c d := by
  -- what is so for each definition of a body is so for the body
  have hbody : ∀ {c ds}, (∀ d ∈ ds, ∀ {c}, (d', c') ∈ withInner c d →
        (⟨path, c', d'⟩ : Site) ∈ sites path c d) →
      (d', c') ∈ members c ds → (⟨path, c', d'⟩ : Site) ∈ sitesAll path c ds := by
    intro c ds ih hmem
    rw [members_eq_flatMap] at hmem
    obtain ⟨d, hd, hmem⟩ := List.mem_flatMap.mp hmem
    exact mem_sitesAll_iff.mpr ⟨d, hd, ih d hd hmem⟩
  have hself : ∀ {c d}, (d', c') = (d, c) → (⟨path, c', d'⟩ : Site) ∈ sites path c d := by
    intro c d heq
    obtain ⟨rfl, rfl⟩ := Prod.mk.inj heq
    exact self_mem_sites path c' d'
  induction d using Definition.induction generalizing c with
  | field | var | template | instantiation | object =>
    exact hself (by simpa [withInner] using h)
  | conditional condition thenBody elseBody span ih ih' =>
    rw [withInner] at h
    rcases List.mem_cons.mp h with h | h
    · exact hself h
    · rw [sites]
      rcases List.mem_append.mp h with h | h
      · exact List.mem_cons_of_mem _ (List.mem_append_left _ (hbody (fun d hd => ih d hd) h))
      · exact List.mem_cons_of_mem _ (List.mem_append_right _ (hbody (fun d hd => ih' d hd) h))
  | loop key value items body span ih =>
    rw [withInner] at h
    rcases List.mem_cons.mp h with h | h
    · exact hself h
    · rw [sites]
      exact List.mem_cons_of_mem _ (hbody (fun d hd => ih d hd) h)

/-- The members of a body stand at sites of it. -/
theorem mem_sitesAll_of_mem_members (h : (d', c') ∈ members c ds) :
    ⟨path, c', d'⟩ ∈ sitesAll path c ds := by
  rw [members_eq_flatMap] at h
  obtain ⟨d, hd, h⟩ := List.mem_flatMap.mp h
  exact mem_sitesAll_iff.mpr ⟨d, hd, mem_sites_of_mem_withInner h⟩

/-- What the body of an object holds is held by what holds the object. -/
theorem sitesAll_body_subset_sites {name : Value} {body : List Definition} {span : Span}
    (hs : s ∈ sites path c d) (hobject : s.definition = .object name body span) :
    sitesAll (s.path ++ [name.text]) s.enclosed body ⊆ sites path c d := by
  revert hs
  refine sites_induction
    (P := fun path c d => sitesAll (s.path ++ [name.text]) s.enclosed body ⊆ sites path c d) ?_
    (fun path c d b hb d' hd' ih s' hs' => ?_) path c d
  · rw [hobject, sites]
    exact List.subset_cons_self _ _
  · exact body_subset_sites hb (mem_sitesAll_iff.mpr ⟨d', hd', ih hs'⟩)

/-- The sites in the body of an object are sites of the body around it. -/
theorem sitesAll_body_subset {name : Value} {body : List Definition} {span : Span}
    (hs : s ∈ sitesAll path c ds) (hobject : s.definition = .object name body span) :
    sitesAll (s.path ++ [name.text]) s.enclosed body ⊆ sitesAll path c ds := by
  obtain ⟨d, hd, hs⟩ := mem_sitesAll_iff.mp hs
  exact fun s' hs' =>
    mem_sitesAll_iff.mpr ⟨d, hd, sitesAll_body_subset_sites hs hobject hs'⟩

end

end Definition

/-! ### Documents -/

namespace Document

section

variable {path : SourcePath} {d : Document} {s : Site} {b : Block}

/-- The object that is declared at a site has a block. -/
theorem exists_mem_blocks (hs : s ∈ d.sites) (hb : s.block? path d.comments = some b) :
    ∃ pragmas, b.withPragmas pragmas ∈ (d.outline path).blocks :=
  exists_mem_attachPragmas (Outline.homes _ d.pragmas)
    (List.mem_append_left _ (Definition.mem_blocksAll_iff.mpr ⟨s, hs, hb⟩))

/-- A block is that of a site, or that of the whole file. -/
theorem exists_of_mem_blocks (hb : b ∈ (d.outline path).blocks) :
    ∃ b' pragmas, b = b'.withPragmas pragmas ∧
      ((∃ s ∈ d.sites, s.block? path d.comments = some b') ∨
        b' = ⟨[], Fragment.ofDocument path d⟩) := by
  obtain ⟨b', hb', pragmas, rfl⟩ := exists_of_mem_attachPragmas hb
  rcases List.mem_append.mp hb' with hb' | hb'
  · exact ⟨b', pragmas, rfl, Or.inl (Definition.mem_blocksAll_iff.mp hb')⟩
  · exact ⟨b', pragmas, rfl, Or.inr (List.mem_singleton.mp hb')⟩

/-- There are blocks where objects are declared, and one for the whole file. -/
theorem exists_block_iff {q : List String} :
    (∃ b ∈ (d.outline path).blocks, b.path = q) ↔
      q = [] ∨ q ∈ d.sites.filterMap Site.objectPath? := by
  simp only [List.mem_filterMap, Site.objectPath?_eq path d.comments, Option.map_eq_some_iff]
  constructor
  · rintro ⟨b, hb, rfl⟩
    obtain ⟨b', pragmas, rfl, ⟨s, hs, hsb⟩ | rfl⟩ := exists_of_mem_blocks hb
    · exact Or.inr ⟨s, hs, b', hsb, rfl⟩
    · exact Or.inl rfl
  · rintro (rfl | ⟨s, hs, b, hsb, rfl⟩)
    · exact exists_block_of_file path d
    · obtain ⟨pragmas, hb⟩ := exists_mem_blocks hs hsb
      exact ⟨_, hb, rfl⟩

/-- What a block holds stands in it, unless it is the arguments of an instantiation. -/
theorem mem_sites_of_mem_members {m : Definition × Bool} (hb : b ∈ (d.outline path).blocks)
    (hbody : b.fragment.template = none) (hm : m ∈ b.fragment.members) :
    ⟨b.path, m.2, m.1⟩ ∈ d.sites := by
  obtain ⟨b', pragmas, rfl, ⟨s, hs, hsb⟩ | rfl⟩ := exists_of_mem_blocks hb
  · unfold Site.block? at hsb
    split at hsb
    · rename_i name body span hobject
      obtain rfl := Option.some.inj hsb
      exact Definition.sitesAll_body_subset hs hobject (Definition.mem_sitesAll_of_mem_members hm)
    · obtain rfl := Option.some.inj hsb
      cases hbody
    · cases hsb
  · exact Definition.mem_sitesAll_of_mem_members hm

end

theorem templates_outline (path : SourcePath) (d : Document) :
    (d.outline path).templates = d.templates :=
  Definition.templatesAll_eq_filterMap [] false d.definitions

end Document

end SemanticIndex
