import SemanticIndex.Proofs.Sites

/-!
# The Fields of a Document

A node lists the fields of its fragments, and a fragment lists those of its members. Going through
the blocks of an outline in this way finds each field of the document once, where it lies, and those
that lie in one place in source order (`Document.entries_outline`).

Places are told by paths. A block comes after the blocks of the objects in it, so the order of the
blocks is not that of the source; but two blocks in one place have paths of the same length, and
neither is inside the other.
-/

namespace SemanticIndex

/-- The entry of a member that is a field, with its name. -/
def FieldEntry.ofMember? (file : SourcePath) (m : Definition × Bool) :
    Option (String × FieldEntry) :=
  match m.1 with
  | .field f => some (f.name, ⟨file, f.value, f.position, m.2, none⟩)
  | _ => none

theorem Summary.fragmentFields_eq (f : Fragment) :
    fragmentFields f = f.members.filterMap (FieldEntry.ofMember? f.file) := rfl

/-- The entries of the fields that lie where `p` says, with their names. -/
def Site.entries (p : List String → Bool) (file : SourcePath) (ss : List Site) :
    List (String × FieldEntry) :=
  ((ss.flatMap fieldSites).filter fun f => p f.path).map fun f => (f.field.name, f.entry file)

/-- The entries of the blocks that stand where `p` says, with their names. -/
def Block.entries (p : List String → Bool) (bs : List Block) : List (String × FieldEntry) :=
  (bs.filter fun b => p b.path).flatMap fun b => Summary.fragmentFields b.fragment

section

variable {p : List String → Bool} {file : SourcePath} {comments : List Comment}
  {path : List String} {c : Bool} {d : Definition} {ds : List Definition} {ss : List Site}
  {bs : List Block}

theorem Site.entries_append (p : List String → Bool) (file : SourcePath) (ss ss' : List Site) :
    entries p file (ss ++ ss') = entries p file ss ++ entries p file ss' := by
  simp only [entries, List.flatMap_append, List.filter_append, List.map_append]

theorem Site.entries_flatMap (p : List String → Bool) (file : SourcePath)
    (g : Definition → List Site) (ds : List Definition) :
    entries p file (ds.flatMap g) = ds.flatMap fun d => entries p file (g d) := by
  simp only [entries, List.flatMap_assoc, List.filter_flatMap, List.map_flatMap]

/-- A site without fields does not matter. -/
theorem Site.entries_cons_of_nil {s : Site} (hs : s.fieldSites = []) :
    entries p file (s :: ss) = entries p file ss := by
  rw [entries, entries, List.flatMap_cons, hs, List.nil_append]

theorem Block.entries_append (p : List String → Bool) (bs bs' : List Block) :
    entries p (bs ++ bs') = entries p bs ++ entries p bs' := by
  simp only [entries, List.filter_append, List.flatMap_append]

theorem Block.entries_flatMap (p : List String → Bool) (g : Definition → List Block)
    (ds : List Definition) :
    entries p (ds.flatMap g) = ds.flatMap fun d => entries p (g d) := by
  simp only [entries, List.filter_flatMap, List.flatMap_assoc]

theorem Block.entries_singleton (p : List String → Bool) (b : Block) :
    entries p [b] = if p b.path then Summary.fragmentFields b.fragment else [] := by
  by_cases hb : p b.path = true <;> simp [entries, hb]

/-- A field lies where its site is, or below. -/
theorem Site.isPrefix_of_mem_fieldSites {s : Site} {f : FieldSite} (hf : f ∈ s.fieldSites) :
    s.path <+: f.path := by
  unfold fieldSites at hf
  split at hf
  · obtain rfl := List.mem_singleton.mp hf
    exact List.prefix_rfl
  · obtain ⟨a, -, rfl⟩ := List.mem_map.mp hf
    exact List.prefix_append _ _
  · cases hf

/-- Where `p` says no more than one length of paths, nothing further down is looked for. -/
theorem Site.entries_eq_nil (hp : ∀ q q', p q = true → p q' = true → q.length = q'.length)
    (hhere : p path = true) (hss : ∀ s ∈ ss, path.length < s.path.length) :
    entries p file ss = [] := by
  rw [entries, List.map_eq_nil_iff, List.filter_eq_nil_iff]
  intro f hf hfp
  obtain ⟨s, hs, hf⟩ := List.mem_flatMap.mp hf
  have hlt := Nat.lt_of_lt_of_le (hss s hs) (isPrefix_of_mem_fieldSites hf).length_le
  exact absurd (hp _ _ hhere hfp) (Nat.ne_of_lt hlt)

/-- Blocks further down have none of the entries of a body. -/
theorem Block.entries_eq_nil (hp : ∀ q q', p q = true → p q' = true → q.length = q'.length)
    (hhere : p path = true) (hbs : ∀ b ∈ bs, path.length < b.path.length) :
    entries p bs = [] := by
  rw [entries, List.filter_eq_nil_iff.mpr, List.flatMap_nil]
  intro b hb hbp
  exact absurd (hp _ _ hhere hbp) (Nat.ne_of_lt (hbs b hb))

namespace Definition

/-- The sites in an object stand further down than the object. -/
theorem length_lt_of_mem_sitesAll {x : String} {s : Site} (hs : s ∈ sitesAll (path ++ [x]) c ds) :
    path.length < s.path.length := by
  have hle := (isPrefix_of_mem_sitesAll hs).length_le
  rw [List.length_append, List.length_singleton] at hle
  omega

/-- A block stands strictly below the objects around it. -/
theorem length_lt_of_mem_blocksAll {b : Block} (hb : b ∈ blocksAll file comments path c ds) :
    path.length < b.path.length := by
  obtain ⟨s, hs, hsb⟩ := mem_blocksAll_iff.mp hb
  have hle := (isPrefix_of_mem_sitesAll hs).length_le
  unfold Site.block? at hsb
  split at hsb
  · rw [← Option.some.inj hsb, List.length_append, List.length_singleton]
    omega
  · rw [← Option.some.inj hsb, List.length_append, List.length_singleton]
    omega
  · cases hsb

/-- The fields that lie right in a body are its members. -/
theorem entries_sites_of_here (hp : ∀ q q', p q = true → p q' = true → q.length = q'.length)
    (hhere : p path = true) :
    Site.entries p file (sites path c d) =
      (withInner c d).filterMap (FieldEntry.ofMember? file) := by
  have hbody : ∀ {c ds}, (∀ d ∈ ds, ∀ {c}, Site.entries p file (sites path c d) =
        (withInner c d).filterMap (FieldEntry.ofMember? file)) →
      Site.entries p file (sitesAll path c ds) =
        (members c ds).filterMap (FieldEntry.ofMember? file) := by
    intro c ds ih
    rw [sitesAll_eq_flatMap, Site.entries_flatMap, members_eq_flatMap, List.filterMap_flatMap]
    exact List.flatMap_congr fun d hd => ih d hd
  -- neither the arguments of an instantiation nor what an object holds lies right here
  have hbelow : ∀ x, p (path ++ [x]) = false := by
    intro x
    rw [Bool.eq_false_iff]
    intro hx
    simpa using hp _ _ hhere hx
  induction d using Definition.induction generalizing c with
  | field f =>
    simp [sites, withInner, Site.entries, Site.fieldSites, FieldEntry.ofMember?, FieldSite.entry,
      hhere]
  | var | template => simp [sites, withInner, Site.entries, Site.fieldSites, FieldEntry.ofMember?]
  | instantiation i =>
    simp [sites, withInner, Site.entries, Site.fieldSites, FieldEntry.ofMember?, List.filter_map,
      Function.comp_def, hbelow]
  | object name body span ih =>
    have hinner : withInner c (object name body span) = [(object name body span, c)] := by
      simp [withInner]
    rw [sites, Site.entries_cons_of_nil rfl,
      Site.entries_eq_nil hp hhere fun s hs => length_lt_of_mem_sitesAll hs, hinner]
    rfl
  | conditional condition thenBody elseBody span ih ih' =>
    rw [sites, withInner, Site.entries_cons_of_nil rfl, Site.entries_append,
      hbody fun d hd => ih d hd, hbody fun d hd => ih' d hd, List.filterMap_cons_none rfl,
      List.filterMap_append]
  | loop key value items body span ih =>
    rw [sites, withInner, Site.entries_cons_of_nil rfl, hbody fun d hd => ih d hd,
      List.filterMap_cons_none rfl]

/-- What is so for each definition of a body is so for the body. -/
theorem entries_sitesAll_congr (hsites : ∀ d ∈ ds, Site.entries p file (sites path c d) =
      Block.entries p (blocks file comments path c d)) :
    Site.entries p file (sitesAll path c ds) =
      Block.entries p (blocksAll file comments path c ds) := by
  rw [sitesAll_eq_flatMap, blocksAll_eq_flatMap, Site.entries_flatMap, Block.entries_flatMap]
  exact List.flatMap_congr hsites

/-- The fields of an object that lie where `p` says are those of its blocks and its own. -/
theorem entries_sitesAll_of_sites (hp : ∀ q q', p q = true → p q' = true → q.length = q'.length)
    {f : Fragment} (hfile : f.file = file) (hds : f.definitions = ds) (hc : f.conditional = c)
    (hsites : p path = false → ∀ d ∈ ds, Site.entries p file (sites path c d) =
      Block.entries p (blocks file comments path c d)) :
    Site.entries p file (sitesAll path c ds) =
      Block.entries p (blocksAll file comments path c ds ++ [⟨path, f⟩]) := by
  rw [Block.entries_append, Block.entries_singleton, Summary.fragmentFields_eq, Fragment.members,
    hfile, hds, hc]
  -- they are all members of the object, or all lie further down
  cases hhere : p path with
  | true =>
    rw [Block.entries_eq_nil hp hhere fun b hb => length_lt_of_mem_blocksAll hb, List.nil_append,
      if_pos rfl, sitesAll_eq_flatMap, Site.entries_flatMap, members_eq_flatMap,
      List.filterMap_flatMap]
    exact List.flatMap_congr fun d _ => entries_sites_of_here hp hhere
  | false =>
    rw [if_neg Bool.false_ne_true, List.append_nil]
    exact entries_sitesAll_congr (hsites hhere)

/-- The members of an instantiation are its arguments. -/
theorem members_ofInstantiation (i : Instantiation) :
    (Fragment.ofInstantiation file comments c i).members =
      i.arguments.map fun a => (.field a, c) := by
  have hfields : ∀ as : List Field,
      members c (as.map Definition.field) = as.map fun a => (.field a, c) := by
    intro as
    induction as with
    | nil => rw [List.map_nil, List.map_nil, members]
    | cons a as ih =>
      rw [List.map_cons, List.map_cons, members, ih]
      simp [withInner]
  exact hfields i.arguments

/-- Below where a definition stands, its fields are those of its blocks. -/
theorem entries_sites (hp : ∀ q q', p q = true → p q' = true → q.length = q'.length)
    (hhere : p path = false) :
    Site.entries p file (sites path c d) = Block.entries p (blocks file comments path c d) := by
  induction d using Definition.induction generalizing path c with
  | field f => simp [sites, blocks, Site.entries, Block.entries, Site.fieldSites, hhere]
  | var | template => simp [sites, blocks, Site.entries, Block.entries, Site.fieldSites]
  | instantiation i =>
    rw [blocks, Block.entries_singleton, Summary.fragmentFields_eq, members_ofInstantiation]
    by_cases hname : p (path ++ [i.name]) = true <;>
      simp [sites, Site.entries, Site.fieldSites, FieldEntry.ofMember?, FieldSite.entry,
        Fragment.ofInstantiation, List.filter_map, Function.comp_def, hname]
  | object name body span ih =>
    rw [sites, blocks, Site.entries_cons_of_nil rfl]
    exact entries_sitesAll_of_sites hp rfl rfl rfl fun hbelow d hd => ih d hd hbelow
  | conditional condition thenBody elseBody span ih ih' =>
    rw [sites, blocks, Site.entries_cons_of_nil rfl, Site.entries_append, Block.entries_append,
      entries_sitesAll_congr fun d hd => ih d hd hhere,
      entries_sitesAll_congr fun d hd => ih' d hd hhere]
  | loop key value items body span ih =>
    rw [sites, blocks, Site.entries_cons_of_nil rfl,
      entries_sitesAll_congr fun d hd => ih d hd hhere]

end Definition

end

/-! ### Documents -/

/-- The pragmas of blocks are no fields. -/
theorem Outline.entries_attachPragmas (p : List String → Bool) (bs : List Block)
    (homes : List (Pragma × Option Nat)) :
    Block.entries p (attachPragmas bs homes) = Block.entries p bs := by
  rw [attachPragmas, Block.entries, List.filter_map, List.flatMap_map]
  conv_rhs => rw [← List.zipIdx_map_fst 0 bs, Block.entries, List.filter_map, List.flatMap_map]
  rfl

namespace Document

/-- The fields of the blocks of an outline are those of the document, in the same order. -/
theorem entries_outline {p : List String → Bool}
    (hp : ∀ q q', p q = true → p q' = true → q.length = q'.length) (path : SourcePath)
    (d : Document) : Block.entries p (d.outline path).blocks = Site.entries p path d.sites := by
  have hfile : Site.entries p path d.sites = Block.entries p
      (Definition.blocksAll path d.comments [] false d.definitions ++
        [⟨[], Fragment.ofDocument path d⟩]) :=
    Definition.entries_sitesAll_of_sites hp rfl rfl rfl fun hbelow _ _ =>
      Definition.entries_sites hp hbelow
  rw [outline, Outline.entries_attachPragmas, hfile]

end Document

end SemanticIndex
