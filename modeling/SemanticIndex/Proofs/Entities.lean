import SemanticIndex.Proofs.Locating
import SemanticIndex.Proofs.Variables

/-!
# Declarations under the Cursor

A cursor query on the name of a field or a variable goes through the node on which the declaration
is recorded. A node keeps all contributions to its fields, but of the declarations of one variable
only the last. So where the blocks of a file are nested as they should be, the name does not run
past the last column that has a number, and nothing else stands at the position, a field is always
answered with, and a variable unless another declaration of its name has taken its place on the
node (`Index.entityAt?_run`), as that in the other branch of a conditional does
(`Index.exists_hidden_declaration`).
-/

namespace SemanticIndex

/-- Whether the definition is a field or a variable. -/
def Definition.isDeclaration : Definition → Bool
  | field _ | var _ => true
  | object .. | conditional .. | loop .. | template .. | instantiation _ => false

/-- What stands right in the object that is declared here. The arguments of an instantiation are
fields. -/
def Site.body (s : Site) : List Definition :=
  match s.definition with
  | .object _ body _ => body
  | .instantiation i => i.arguments.map .field
  | _ => []

/-- A field or a variable of a document, outside template bodies. -/
structure Declaration where
  /-- The object right in which it stands; none at the top of the file. -/
  home : Option Site
  /-- Whether a conditional or a loop encloses it, at whatever level. -/
  conditional : Bool
  definition : Definition

namespace Declaration

/-- The declared names of the objects around it, the outermost first. -/
def path (d : Declaration) : List String := (d.home.bind Site.objectPath?).getD []

/-- Whether the position is on a character of its name, or on the place of an empty name. -/
def covers (d : Declaration) (p : Position) : Bool :=
  d.definition.name?.any fun name =>
    p.line == d.definition.position.line && d.definition.position.column ≤ p.column &&
      p.column ≤ d.definition.position.column + (name.length - 1)

/-- The columns of its name have numbers of 32 bits. -/
def FitsLine (d : Declaration) : Prop :=
  ∀ name ∈ d.definition.name?,
    d.definition.position.column + (name.length - 1) < UInt32.size

/-- The declarations right in a body. -/
def ofBody (home : Option Site) (conditional : Bool) (body : List Definition) :
    List Declaration :=
  ((Definition.members conditional body).filter fun m => m.1.isDeclaration).map fun m =>
    ⟨home, m.2, m.1⟩

/-- The answer is this declaration of the file `path`, on the node `i`. -/
def IsAnswer (d : Declaration) (path : SourcePath) (i : NodeId) : Entity → Prop
  | .field j name e =>
    j = i ∧ e.file = path ∧ d.definition = .field ⟨name, e.value, e.position⟩ ∧
      e.conditional = d.conditional
  | .var j v => j = i ∧ v.file = path ∧ d.definition = .var v.declaration
  | .node _ | .reference _ => False

variable {d : Declaration} {home : Option Site} {c : Bool} {body : List Definition}

/-- What the span of a name holds is on the name. -/
theorem covers_of_contains {name : String} {p : Position} (hname : d.definition.name? = some name)
    (hp : (Span.ofName d.definition.position name).contains p = true) : d.covers p = true := by
  obtain ⟨hline, hfirst, hlast⟩ := Span.contains_ofWidth_iff.mp hp
  have hlast := Nat.le_trans hlast (Nat.mod_le _ _)
  simp [covers, hname, hline, hfirst, hlast]

/-- If the name fits the line, its span holds all of it. -/
theorem contains_of_covers (hfits : d.FitsLine) {name : String} {p : Position}
    (hname : d.definition.name? = some name) (hp : d.covers p = true) :
    (Span.ofName d.definition.position name).contains p = true := by
  simp only [covers, hname, Option.any_some, Bool.and_eq_true, beq_iff_eq, decide_eq_true_eq] at hp
  refine Span.contains_ofWidth_iff.mpr ⟨hp.1.1, hp.1.2, ?_⟩
  rw [Nat.mod_eq_of_lt (hfits name hname)]
  exact hp.2

theorem mem_ofBody_iff :
    d ∈ ofBody home c body ↔ d.home = home ∧ d.definition.isDeclaration = true ∧
      (d.definition, d.conditional) ∈ Definition.members c body := by
  simp only [ofBody, List.mem_map, List.mem_filter]
  constructor
  · rintro ⟨m, ⟨hm, hdeclares⟩, rfl⟩
    exact ⟨rfl, hdeclares, hm⟩
  · rintro ⟨rfl, hdeclares, hm⟩
    exact ⟨_, ⟨hm, hdeclares⟩, rfl⟩

end Declaration

/-- What is no object has no position in common with anything. -/
theorem Site.not_covers_of_span?_eq_none {s : Site} (hs : s.span? = none) (s' : Site)
    (p : Position) : ¬ (s.covers p ∧ s'.covers p) := by
  rintro ⟨hp, -⟩
  obtain ⟨x, hx, -⟩ := covers_iff.mp hp
  rw [hs] at hx
  cases hx

namespace Document

/-- Where no objects are, none are nested. -/
theorem nests_of_span?_eq_none {doc : Document} (h : ∀ s ∈ doc.sites, s.span? = none) :
    doc.Nests where
  starts_later s hs s' _ x hx := by
    rw [h s hs] at hx
    cases hx
  apart := List.pairwise_of_forall_mem_list fun s hs s' _ =>
    Or.inr (Site.not_covers_of_span?_eq_none (h s hs) s')

/-- The fields and the variables of the document outside template bodies. -/
def declarations (doc : Document) : List Declaration :=
  Declaration.ofBody none false doc.definitions ++
    doc.sites.flatMap fun s => Declaration.ofBody (some s) s.enclosed s.body

variable {doc : Document} {d : Declaration} {s : Site} {b : Block} {x : Definition} {c : Bool}

theorem mem_declarations_iff :
    d ∈ doc.declarations ↔ d.definition.isDeclaration = true ∧
      ((d.home = none ∧ (d.definition, d.conditional) ∈ Definition.members false doc.definitions) ∨
        ∃ s ∈ doc.sites, d.home = some s ∧
          (d.definition, d.conditional) ∈ Definition.members s.enclosed s.body) := by
  simp only [declarations, List.mem_append, List.mem_flatMap, Declaration.mem_ofBody_iff]
  constructor
  · rintro (⟨hhome, hdeclares, hm⟩ | ⟨s, hs, hhome, hdeclares, hm⟩)
    · exact ⟨hdeclares, Or.inl ⟨hhome, hm⟩⟩
    · exact ⟨hdeclares, Or.inr ⟨s, hs, hhome, hm⟩⟩
  · rintro ⟨hdeclares, ⟨hhome, hm⟩ | ⟨s, hs, hhome, hm⟩⟩
    · exact Or.inl ⟨hhome, hdeclares, hm⟩
    · exact Or.inr ⟨s, hs, hhome, hdeclares, hm⟩

/-- The members of a block are those of the object that is declared there. -/
theorem members_of_block? {file : SourcePath} {comments : List Comment}
    (hb : s.block? file comments = some b) :
    b.fragment.members = Definition.members s.enclosed s.body := by
  unfold Site.block? at hb
  split at hb
  · rename_i hobject
    rw [← Option.some.inj hb, Site.body, hobject]
    rfl
  · rename_i hinstantiation
    rw [← Option.some.inj hb, Site.body, hinstantiation]
    rfl
  · cases hb

/-- An object with something in it has a block. -/
theorem exists_block?_of_mem_body (file : SourcePath) (comments : List Comment)
    {m : Definition × Bool} (hm : m ∈ Definition.members s.enclosed s.body) :
    ∃ b, s.block? file comments = some b := by
  unfold Site.body at hm
  split at hm
  · rename_i hobject
    rw [Site.block?, hobject]
    exact ⟨_, rfl⟩
  · rename_i hinstantiation
    rw [Site.block?, hinstantiation]
    exact ⟨_, rfl⟩
  · rw [Definition.members] at hm
    cases hm

/-- A declaration is a member of a block that stands where it does. -/
theorem exists_block_of_mem_declarations (path : SourcePath) (hd : d ∈ doc.declarations) :
    ∃ b ∈ (doc.outline path).blocks, b.path = d.path ∧
      (d.definition, d.conditional) ∈ b.fragment.members := by
  obtain ⟨-, ⟨hhome, hm⟩ | ⟨s, hs, hhome, hm⟩⟩ := mem_declarations_iff.mp hd
  · obtain ⟨pragmas, hb⟩ := exists_mem_attachPragmas (Outline.homes _ doc.pragmas)
      (List.mem_append_right (Definition.blocksAll path doc.comments [] false doc.definitions)
        (List.mem_singleton_self ⟨[], Fragment.ofDocument path doc⟩))
    refine ⟨_, hb, ?_, hm⟩
    rw [Declaration.path, hhome]
    rfl
  · obtain ⟨b, hsb⟩ := exists_block?_of_mem_body path doc.comments hm
    obtain ⟨pragmas, hb⟩ := exists_mem_blocks hs hsb
    refine ⟨_, hb, ?_, ?_⟩
    · rw [Declaration.path, hhome, Option.bind_some, Site.objectPath?_eq path doc.comments, hsb]
      rfl
    · show _ ∈ b.fragment.members
      rwa [members_of_block? hsb]

/-- A field or a variable among the members of a block is a declaration that stands where the block
does. -/
theorem exists_declaration_of_mem_members {path : SourcePath}
    (hb : b ∈ (doc.outline path).blocks) (hm : (x, c) ∈ b.fragment.members)
    (hdeclares : x.isDeclaration = true) :
    ∃ d ∈ doc.declarations, d.definition = x ∧ d.conditional = c ∧ d.path = b.path := by
  obtain ⟨b', pragmas, rfl, ⟨s, hs, hsb⟩ | rfl⟩ := exists_of_mem_blocks hb
  · change _ ∈ b'.fragment.members at hm
    rw [members_of_block? hsb] at hm
    refine ⟨⟨some s, c, x⟩, ?_, rfl, rfl, ?_⟩
    · exact mem_declarations_iff.mpr ⟨hdeclares, Or.inr ⟨s, hs, rfl, hm⟩⟩
    · rw [Declaration.path, Option.bind_some, Site.objectPath?_eq path doc.comments, hsb]
      rfl
  · exact ⟨⟨none, c, x⟩, mem_declarations_iff.mpr ⟨hdeclares, Or.inl ⟨rfl, hm⟩⟩, rfl, rfl, rfl⟩

end Document

namespace Index

/-- The declaration of the file `path` is recorded on the node `i`. -/
def LiesOn (t : Index) (path : SourcePath) (d : Declaration) (i : NodeId) : Prop :=
  ∃ r, t.file? path = some r ∧ t.follow? r.top d.path = some i

/-- Of the declarations of a variable that are recorded on the node `i`, the node keeps another one,
from somewhere else in the file `path` or from another file. -/
def HidesOn (t : Index) (L : Ledger) (path : SourcePath) (d : Declaration) (i : NodeId) : Prop :=
  ∃ v w, d.definition = .var v ∧ t.declaration? i v.name = some w ∧ w.name = v.name ∧
    ∃ e ∈ L, ∃ d' ∈ e.2.declarations, d'.definition = .var w ∧ t.LiesOn e.1 d' i ∧
      (e.1 = path → d'.definition ≠ d.definition)

variable {t : Index} {L : Ledger} {lay : Layout} {path : SourcePath} {doc : Document}
  {r : FileRecord} {i : NodeId} {n : Node} {p : Position} {d : Declaration} {g : Fragment}
  {x : Definition} {c : Bool} {name : String}

/-- A variable that the node keeps is under the cursor if its name is. -/
theorem isSome_variableAt? {v : VariableEntry} (hheld : n.summary.vars[name]? = some v)
    (hfile : v.file = path)
    (hp : (Span.ofName v.declaration.position v.declaration.name).contains p = true) :
    (variableAt? n path p).isSome = true := by
  rw [variableAt?, List.find?_isSome]
  exact ⟨v, mem_values_iff.mpr ⟨name, hheld⟩,
    Bool.and_eq_true_iff.mpr ⟨SourcePath.same_iff.mpr (congrArg _ hfile), hp⟩⟩

namespace Built

section

variable (h : t.Built L lay) (he : (path, doc) ∈ L) (hr : t.file? path = some r)

include h he hr

/-- A field or a variable in a fragment of the file is a declaration of the file that is recorded on
the node. -/
theorem exists_declaration_of_fragment (hn : t.node? i = some n) (hg : g ∈ n.fragments)
    (hfile : g.file.same path = true) (hm : (x, c) ∈ g.members)
    (hdeclares : x.isDeclaration = true) :
    g.file = path ∧ ∃ d ∈ doc.declarations, d.definition = x ∧ d.conditional = c ∧
      t.follow? r.top d.path = some i := by
  obtain ⟨b, hb, rfl, hi⟩ := h.exists_block he hr hn hg hfile
  refine ⟨Document.file_eq_of_mem_deposits (List.mem_map.mpr ⟨b, hb, rfl⟩), ?_⟩
  obtain ⟨d, hd, hx, hc, hpath⟩ := Document.exists_declaration_of_mem_members hb hm hdeclares
  exact ⟨d, hd, hx, hc, hpath ▸ hi⟩

/-- A field of a node whose name the cursor is on is a declaration of the file. -/
theorem exists_declaration_of_fieldAt? (hn : t.node? i = some n) {e : FieldEntry}
    (hfield : fieldAt? n path p = some (name, e)) :
    ∃ d ∈ doc.declarations, d.covers p = true ∧ d.IsAnswer path i (.field i name e) := by
  obtain ⟨⟨y, entries⟩, hmem, hfound⟩ := List.exists_of_findSome?_eq_some hfield
  obtain ⟨e', hfind, heq⟩ := Option.map_eq_some_iff.mp hfound
  obtain ⟨rfl, rfl⟩ := Prod.mk.inj heq
  have hentries : n.summary.fields[y]? = some entries :=
    Std.ExtTreeMap.mem_toList_iff_getElem?_eq_some.mp hmem
  have hentry : e' ∈ n.summary.fields[y]?.getD [] := by
    rw [hentries]
    exact List.mem_of_find?_eq_some hfind
  obtain ⟨hsame, hcovers⟩ := Bool.and_eq_true_iff.mp
    (List.find?_some (p := fun e : FieldEntry =>
      e.file.same path && (Span.ofName e.position y).contains p) hfind)
  -- the entry has been made from a member of a fragment
  obtain ⟨g, hg, hmade⟩ :=
    (h.current hn List.not_mem_nil).exists_fragment_of_mem_fields hentry
  obtain ⟨m, hm, hmade⟩ := List.mem_filterMap.mp hmade
  split at hmade
  · rename_i f hf
    obtain ⟨rfl, hwithout⟩ := Prod.mk.inj (Option.some.inj hmade)
    have hfile : g.file = e'.file := congrArg FieldEntry.file hwithout
    obtain ⟨hpath, d, hd, hx, hc, -⟩ := h.exists_declaration_of_fragment he hr hn hg
      (hfile ▸ hsame) hm (by rw [hf]; rfl)
    have hvalue : f.value = e'.value := congrArg FieldEntry.value hwithout
    have hposition : f.position = e'.position := congrArg FieldEntry.position hwithout
    have hconditional : m.2 = e'.conditional := congrArg FieldEntry.conditional hwithout
    refine ⟨d, hd, ?_, rfl, hfile ▸ hpath, ?_, ?_⟩
    · have hname : d.definition.name? = some f.name := by
        rw [hx, hf]
        rfl
      refine Declaration.covers_of_contains hname ?_
      rw [hx, hf]
      show (Span.ofName f.position f.name).contains p = true
      rwa [hposition]
    · rw [hx, hf, ← hvalue, ← hposition]
    · rw [hc, hconditional]
  · cases hmade

/-- A variable of a node whose name the cursor is on is a declaration of the file, which the node
keeps. -/
theorem exists_declaration_of_variableAt? (hn : t.node? i = some n) {v : VariableEntry}
    (hv : variableAt? n path p = some v) :
    n.summary.vars[v.declaration.name]? = some v ∧
      ∃ d ∈ doc.declarations, d.covers p = true ∧ d.IsAnswer path i (.var i v) := by
  obtain ⟨y, hheld⟩ := mem_values_iff.mp (List.mem_of_find?_eq_some hv)
  obtain ⟨hsame, hcovers⟩ := Bool.and_eq_true_iff.mp (List.find?_some
    (p := fun v : VariableEntry => v.file.same path &&
      (Span.ofName v.declaration.position v.declaration.name).contains p) hv)
  obtain ⟨g, hg, hfile, rfl, c, hm⟩ :=
    (h.current hn List.not_mem_nil).exists_fragment_of_vars hheld
  obtain ⟨hpath, d, hd, hx, -, -⟩ :=
    h.exists_declaration_of_fragment he hr hn hg (hfile ▸ hsame) hm rfl
  refine ⟨hheld, d, hd, ?_, rfl, hfile.trans hpath, hx⟩
  have hname : d.definition.name? = some v.declaration.name := by
    rw [hx]
    rfl
  refine Declaration.covers_of_contains hname ?_
  rw [hx]
  exact hcovers

/-- The node of the object around the cursor is the one on which the declarations right in the
object are recorded. -/
theorem nodeAt?_of_home (hnests : doc.Nests)
    (hhome : doc.sites.filter (doc.isInnermost p) = d.home.toList) :
    ∃ i, t.follow? r.top d.path = some i ∧ t.nodeAt? path p = some i := by
  rw [Declaration.path]
  cases hobject : d.home with
  | none =>
    -- an object around the cursor would have an innermost one in it
    rw [hobject, Option.toList_none] at hhome
    refine ⟨r.top, rfl, h.nodeAt?_of_not_covers he hr fun s hs => ?_⟩
    refine Bool.eq_false_iff.mpr fun hp => ?_
    obtain ⟨s', hinnermost⟩ := hnests.exists_filter_isInnermost hs hp
    rw [hhome] at hinnermost
    cases hinnermost
  | some s =>
    rw [hobject, Option.toList_some] at hhome
    obtain ⟨hs, hinnermost⟩ := List.mem_filter.mp (hhome ▸ List.mem_singleton_self s)
    obtain ⟨q, i, hq, hi, hnode⟩ := h.nodeAt?_of_isInnermost he hr hnests hs hinnermost
    refine ⟨i, ?_, hnode⟩
    rwa [Option.bind_some, hq, Option.getD_some]

/-- A field is recorded on the node, under the cursor if its name is. -/
theorem isSome_fieldAt? (hd : d ∈ doc.declarations) {f : Field} (hf : d.definition = .field f)
    (hp : (Span.ofName f.position f.name).contains p = true) (hi : t.follow? r.top d.path = some i)
    (hn : t.node? i = some n) : (fieldAt? n path p).isSome = true := by
  obtain ⟨b, hb, hpath, hm⟩ := Document.exists_block_of_mem_declarations path hd
  obtain ⟨j, m, hj, hm', hfragment⟩ := h.exists_fragment he hr hb
  obtain rfl : j = i := Option.some.inj (hj.symm.trans (hpath ▸ hi))
  obtain rfl := Option.some.inj (hm'.symm.trans hn)
  have hfile : b.fragment.file = path :=
    Document.file_eq_of_mem_deposits (List.mem_map.mpr ⟨b, hb, rfl⟩)
  -- the node has an entry for it, whatever has been evaluated since
  have hmade : (f.name, ⟨path, f.value, f.position, d.conditional, none⟩) ∈
      Summary.fragmentFields b.fragment := by
    refine List.mem_filterMap.mpr ⟨_, hm, ?_⟩
    rw [hf, hfile]
  obtain ⟨e, hentry, hwithout⟩ :=
    (h.current hn List.not_mem_nil).exists_mem_fields hfragment hmade
  obtain ⟨entries, hentries⟩ : ∃ entries, m.summary.fields[f.name]? = some entries := by
    cases hentries : m.summary.fields[f.name]? with
    | none =>
      rw [hentries] at hentry
      cases hentry
    | some entries => exact ⟨entries, rfl⟩
  rw [hentries, Option.getD_some] at hentry
  have hcovers : (Span.ofName e.position f.name).contains p = true := by
    have hposition : e.position = f.position := congrArg FieldEntry.position hwithout
    rwa [hposition]
  have hsame : e.file.same path = true :=
    SourcePath.same_iff.mpr (congrArg (fun e => e.file.components) hwithout)
  rw [fieldAt?, List.findSome?_isSome_iff]
  refine ⟨_, Std.ExtTreeMap.mem_toList_iff_getElem?_eq_some.mpr hentries, ?_⟩
  rw [Option.isSome_map, List.find?_isSome]
  exact ⟨e, hentry, Bool.and_eq_true_iff.mpr ⟨hsame, hcovers⟩⟩

/-- A variable that is not found under the cursor on its name has given way to another declaration
of its name. -/
theorem hidesOn_of_variableAt?_eq_none (hd : d ∈ doc.declarations) {v : VariableDeclaration}
    (hv : d.definition = .var v) (hp : (Span.ofName v.position v.name).contains p = true)
    (hi : t.follow? r.top d.path = some i) (hn : t.node? i = some n)
    (hnone : variableAt? n path p = none) : t.HidesOn L path d i := by
  obtain ⟨b, hb, hpath, hm⟩ := Document.exists_block_of_mem_declarations path hd
  have hsite := Document.mem_sites_of_var hb (hv ▸ hm)
  obtain ⟨m, w, hm', hheld⟩ := h.holdsVariable_of_mem_sites he hr hsite rfl (hpath ▸ hi)
  obtain rfl := Option.some.inj (hm'.symm.trans hn)
  have hdeclaration : t.declaration? i v.name = some w.declaration := by
    rw [declaration?, hn, Option.bind_some, hheld, Option.map_some]
  -- the variable that is kept comes from a declaration as well
  obtain ⟨g, hg, hfile, hname, c, hmember⟩ :=
    (h.current hn List.not_mem_nil).exists_fragment_of_vars hheld
  obtain ⟨e, he', hentry, r', hr'⟩ := h.exists_entry_of_fragment hn hg
  obtain ⟨-, d', hd', hkept, -, hi'⟩ := h.exists_declaration_of_fragment he' hr' hn hg
    (hentry ▸ SourcePath.same_refl e.1) hmember rfl
  refine ⟨v, w.declaration, hv, hdeclaration, hname, e, he', d', hd', hkept, ⟨r', hr', hi'⟩, ?_⟩
  -- were it this declaration, it would have been found
  intro hhere heq
  rw [hkept, hv] at heq
  have hcovers : (Span.ofName w.declaration.position w.declaration.name).contains p = true := by
    rwa [Definition.var.inj heq]
  have hfound := isSome_variableAt? hheld (hfile.trans (hentry.trans hhere)) hcovers
  rw [hnone] at hfound
  cases hfound

/-- A cursor on the name of a declaration is answered with it, unless the node keeps another
declaration of the variable. -/
theorem entityAt?_of_filter_covers (hnests : doc.Nests) (hfits : d.FitsLine)
    (halone : doc.declarations.filter (·.covers p) = [d])
    (hhome : doc.sites.filter (doc.isInnermost p) = d.home.toList)
    (hmentions : ∀ m ∈ t.referencesIn path, m.mention.span.contains p = false) :
    ∃ i, t.LiesOn path d i ∧
      ((∃ entity, t.entityAt? path p = some entity ∧ d.IsAnswer path i entity) ∨
        t.entityAt? path p = some (.node i) ∧ t.HidesOn L path d i) := by
  obtain ⟨i, hi, hnode⟩ := h.nodeAt?_of_home he hr hnests hhome
  obtain ⟨n, hn⟩ := h.laid.exists_node (h.follow?_top he hr _ ▸ hi)
  refine ⟨i, ⟨r, hr, hi⟩, ?_⟩
  obtain ⟨hd, hp⟩ := List.mem_filter.mp (halone ▸ List.mem_singleton_self d)
  have heq : ∀ d' ∈ doc.declarations, d'.covers p = true → d' = d := fun d' hd' hp' =>
    List.mem_singleton.mp (halone ▸ List.mem_filter.mpr ⟨hd', hp'⟩)
  -- mentions come before fields, and fields before variables
  have hnone : (t.referencesIn path).find? (·.mention.span.contains p) = none :=
    List.find?_eq_none.mpr fun m hm => Bool.eq_false_iff.mp (hmentions m hm)
  simp only [entityAt?, hnone, hnode, hn, Option.bind_some, Option.map_some, Option.some.injEq,
    exists_eq_left']
  cases hfield : fieldAt? n path p with
  | some found =>
    obtain ⟨d', hd', hp', hanswer⟩ := h.exists_declaration_of_fieldAt? he hr hn hfield
    exact Or.inl (heq d' hd' hp' ▸ hanswer)
  | none =>
    -- the declaration is a variable, as a field would have been found
    obtain ⟨v, hv⟩ : ∃ v, d.definition = .var v := by
      have hdeclares := (Document.mem_declarations_iff.mp hd).1
      cases hdefinition : d.definition with
      | var v => exact ⟨v, rfl⟩
      | field f =>
        have hname : d.definition.name? = some f.name := by
          rw [hdefinition]
          rfl
        have hcontains := Declaration.contains_of_covers hfits hname hp
        rw [hdefinition] at hcontains
        have hfound := h.isSome_fieldAt? he hr hd hdefinition hcontains hi hn
        rw [hfield] at hfound
        cases hfound
      | object | conditional | loop | template | instantiation =>
        rw [hdefinition] at hdeclares
        cases hdeclares
    cases hvariable : variableAt? n path p with
    | some found =>
      obtain ⟨-, d', hd', hp', hanswer⟩ := h.exists_declaration_of_variableAt? he hr hn hvariable
      exact Or.inl (heq d' hd' hp' ▸ hanswer)
    | none =>
      have hname : d.definition.name? = some v.name := by
        rw [hv]
        rfl
      have hcontains := Declaration.contains_of_covers hfits hname hp
      rw [hv] at hcontains
      exact Or.inr
        ⟨rfl, h.hidesOn_of_variableAt?_eq_none he hr hd hv hcontains hi hn hvariable⟩

end

end Built

/-- After any run, a cursor on the name of a field or a variable of a file is answered with this
declaration, as it is recorded on its node, if the blocks of the file are nested as they should be,
the columns of the name have numbers of 32 bits, the innermost object around the cursor is the one
right in which the declaration stands, and neither a mention nor the name of another declaration is
under the cursor. The one exception is a variable of which its node keeps another declaration: then
the answer is the node. -/
theorem entityAt?_run (options : IndexOptions) (ops : List Operation)
    (hdoc : (path, doc) ∈ Ledger.latest ops) (hnests : doc.Nests) (hfits : d.FitsLine)
    (halone : doc.declarations.filter (·.covers p) = [d])
    (hhome : doc.sites.filter (doc.isInnermost p) = d.home.toList)
    (hmentions : ∀ m ∈ (run options ops).referencesIn path,
      m.mention.span.contains p = false) :
    let t := run options ops
    ∃ i, t.LiesOn path d i ∧
      ((∃ entity, t.entityAt? path p = some entity ∧ d.IsAnswer path i entity) ∨
        t.entityAt? path p = some (.node i) ∧ t.HidesOn (Ledger.latest ops) path d i) := by
  intro t
  obtain ⟨lay, h, -⟩ := exists_built_run options ops
  obtain ⟨r, hr, -⟩ := h.exists_file _ hdoc
  exact h.entityAt?_of_filter_covers hdoc hr hnests hfits halone hhome hmentions

/-- A file of the package `app` in which an object has a conditional field and a variable, which
hides that of the package. -/
def cursorDocument : Document where
  package := some ⟨"app", .start⟩
  definitions := [
    .var ⟨"port", "int", some (.int 80 ⟨2, 12⟩), false, ⟨2, 5⟩⟩,
    .object (.reference "web" ⟨3, 1⟩) [
      .conditional (.reference "debug" ⟨4, 6⟩) [.field ⟨"Level", .int 1 ⟨5, 13⟩, ⟨5, 5⟩⟩] []
        ⟨⟨4, 3⟩, ⟨6, 3⟩⟩,
      .var ⟨"port", "int", some (.reference "base" ⟨7, 14⟩), false, ⟨7, 7⟩⟩]
      ⟨⟨3, 1⟩, ⟨8, 1⟩⟩]
  comments := []
  pragmas := []

theorem nests_cursorDocument : cursorDocument.Nests where
  starts_later := by decide
  apart := by
    -- what is not inside `web` is no object
    refine .cons (fun s _ => Or.inr (Site.not_covers_of_span?_eq_none rfl s)) ?_
    refine .cons (fun s hs => Or.inl hs) ?_
    exact List.pairwise_of_forall_mem_list fun s hs s' _ =>
      Or.inr (Site.not_covers_of_span?_eq_none (by revert s; decide) s')

/-- The cursor is on the inner one of the two variables. -/
theorem entityAt?_run_of_inner :
    let path := SourcePath.ofText "a.pcl"
    let p : Position := ⟨7, 8⟩
    let ops : List Operation := [.add path cursorDocument]
    let t := run {} ops
    ∃ d, (path, cursorDocument) ∈ Ledger.latest ops ∧ cursorDocument.Nests ∧ d.FitsLine ∧
      cursorDocument.declarations.filter (·.covers p) = [d] ∧
      cursorDocument.sites.filter (cursorDocument.isInnermost p) = d.home.toList ∧
      (∀ m ∈ t.referencesIn path, m.mention.span.contains p = false) ∧
      ∃ i, t.LiesOn path d i ∧
        ((∃ entity, t.entityAt? path p = some entity ∧ d.IsAnswer path i entity) ∨
          t.entityAt? path p = some (.node i) ∧ t.HidesOn (Ledger.latest ops) path d i) := by
  intro path p ops t
  obtain ⟨d, halone, hhome, hfits⟩ : ∃ d,
      cursorDocument.declarations.filter (·.covers p) = [d] ∧
        cursorDocument.sites.filter (cursorDocument.isInnermost p) = d.home.toList ∧
        d.FitsLine := by
    refine ⟨_, rfl, rfl, ?_⟩
    rintro name ⟨⟩
    decide
  have hdoc : (path, cursorDocument) ∈ Ledger.latest ops := List.mem_singleton_self _
  have hmentions : ∀ m ∈ t.referencesIn path, m.mention.span.contains p = false := by decide
  exact ⟨d, hdoc, nests_cursorDocument, hfits, halone, hhome, hmentions,
    entityAt?_run {} _ hdoc nests_cursorDocument hfits halone hhome hmentions⟩

/-- A file of the package `app` with a variable whose declaration depends on a condition. -/
def branchedVariableDocument : Document where
  package := some ⟨"app", .start⟩
  definitions := [
    .conditional (.reference "debug" ⟨1, 4⟩)
      [.field ⟨"Level", .int 1 ⟨2, 11⟩, ⟨2, 3⟩⟩,
        .var ⟨"port", "int", some (.int 8080 ⟨3, 14⟩), false, ⟨3, 7⟩⟩]
      [.field ⟨"Level", .int 2 ⟨4, 11⟩, ⟨4, 3⟩⟩,
        .var ⟨"port", "int", some (.int 80 ⟨5, 14⟩), false, ⟨5, 7⟩⟩]
      ⟨⟨1, 1⟩, ⟨5, 1⟩⟩]
  comments := []
  pragmas := []

/-- The declaration of a variable in the first branch is hidden by that in the second one, and a
cursor on its name is answered with the node. -/
theorem exists_hidden_declaration :
    let path := SourcePath.ofText "a.pcl"
    let p : Position := ⟨3, 8⟩
    let doc := branchedVariableDocument
    let t := run {} [.add path doc]
    ∃ d i, doc.Nests ∧ d.FitsLine ∧ doc.declarations.filter (·.covers p) = [d] ∧
      doc.sites.filter (doc.isInnermost p) = d.home.toList ∧
      (∀ m ∈ t.referencesIn path, m.mention.span.contains p = false) ∧
      t.LiesOn path d i ∧ t.entityAt? path p = some (.node i) ∧
      ∀ entity, t.entityAt? path p = some entity → ∀ j, ¬ d.IsAnswer path j entity := by
  intro path p doc t
  have hnests : doc.Nests := Document.nests_of_span?_eq_none (by decide)
  have hanswer : t.entityAt? path p = some (.node 1) := by
    -- entities hold declarations, which are not compared; whether one is a node is decided
    have hnode : (t.entityAt? path p).any (fun | .node i => i == 1 | _ => false) = true := by
      decide
    obtain ⟨entity, hentity, hnode⟩ := (Option.any_eq_true _ _).mp hnode
    split at hnode
    · rw [hentity, eq_of_beq hnode]
    · cases hnode
  obtain ⟨d, halone, hhome, hpath, hfits⟩ : ∃ d, doc.declarations.filter (·.covers p) = [d] ∧
      doc.sites.filter (doc.isInnermost p) = d.home.toList ∧ d.path = [] ∧ d.FitsLine := by
    refine ⟨_, rfl, rfl, rfl, ?_⟩
    rintro name ⟨⟩
    decide
  obtain ⟨r, hr, htop⟩ : ∃ r, t.file? path = some r ∧ r.top = 1 := ⟨_, rfl, rfl⟩
  refine ⟨d, 1, hnests, hfits, halone, hhome, by decide, ⟨r, hr, ?_⟩, hanswer, ?_⟩
  · rw [hpath, htop]
    rfl
  · intro entity hentity j hmatches
    rw [hanswer] at hentity
    rwa [← Option.some.inj hentity] at hmatches

end Index

end SemanticIndex
