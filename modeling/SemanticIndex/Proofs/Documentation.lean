import SemanticIndex.Proofs.Entities

/-!
# Documentation of Variables

The documentation of a variable should be the block of comments right above its declaration. It is
looked up by name, though, among the documented fields and variables right in the same object, and
of those the last one counts. So a variable has its own documentation if nothing else of its name is
documented there (`Index.doc_run`), and else possibly that of another declaration, as when one
branch of a conditional documents a variable and the other one only declares it
(`Index.exists_borrowed_doc`). Other names, objects and files play no part.
-/

namespace SemanticIndex

/-- The documentation block right above a declaration. -/
def Declaration.doc? (comments : List Comment) (d : Declaration) : Option String :=
  docBefore? comments d.definition.position

namespace Document

/-- The fields and the variables right in an object of the document, or right in the document. -/
def declarationsIn (doc : Document) : Option Site → List Declaration
  | none => Declaration.ofBody none false doc.definitions
  | some s => Declaration.ofBody (some s) s.enclosed s.body

/-- The fields and the variables with the name of a declaration that stand right in the same
object, in source order, the declaration itself among them. -/
def namesakes (doc : Document) (d : Declaration) : List Declaration :=
  (doc.declarationsIn d.home).filter fun d' => d'.definition.name? = d.definition.name?

/-- The documentation under which a declaration is looked up: that of the last of its namesakes that
has some. -/
def recordedDoc? (doc : Document) (d : Declaration) : Option String :=
  ((doc.namesakes d).filterMap (Declaration.doc? doc.comments)).getLast?

end Document

namespace Definition

/-- What a body holds does not depend on whether the body is conditional. -/
theorem map_fst_withInner (c c' : Bool) (d : Definition) :
    (withInner c d).map Prod.fst = (withInner c' d).map Prod.fst := by
  cases d <;> simp [withInner]

/-- Being conditional does not change which definitions are members. -/
theorem map_fst_members (c c' : Bool) (ds : List Definition) :
    (members c ds).map Prod.fst = (members c' ds).map Prod.fst := by
  simp only [members_eq_flatMap, List.map_flatMap, map_fst_withInner c c']

end Definition

/-- A field or a variable of the name `x` contributes the block right above it, anything else
nothing. -/
theorem memberDoc?_filter (comments : List Comment) (x : String) (d : Definition) :
    (((memberDoc? comments d).filter fun e => e.1 = x).map Prod.snd) =
      if d.isDeclaration = true ∧ d.name? = some x then docBefore? comments d.position
      else none := by
  cases d with
  | field f =>
    by_cases hx : f.name = x <;>
      cases hdoc : docBefore? comments f.position <;>
      simp [memberDoc?, Definition.isDeclaration, Definition.name?, Definition.position, hx, hdoc]
  | var v =>
    by_cases hx : v.name = x <;>
      cases hdoc : docBefore? comments v.position <;>
      simp [memberDoc?, Definition.isDeclaration, Definition.name?, Definition.position, hx, hdoc]
  | object | conditional | loop | template | instantiation =>
    simp [memberDoc?, Definition.isDeclaration]

/-- A name is looked up among the documented declarations of a body. -/
theorem getElem?_memberDocs (comments : List Comment) (home : Option Site) (c : Bool)
    (body : List Definition) (x : String) :
    (memberDocs comments body)[x]? =
      (((Declaration.ofBody home c body).filter fun d => d.definition.name? = some x).filterMap
        (Declaration.doc? comments)).getLast? := by
  -- both sides go through the members of the body, whether or not they are conditional
  have hmembers := congrArg
    (List.filterMap fun d => ((memberDoc? comments d).filter fun e => e.1 = x).map Prod.snd)
    (Definition.map_fst_members false c body)
  rw [List.filterMap_map, List.filterMap_map] at hmembers
  rw [memberDocs, getElem?_ofList, ← List.getLast?_map, List.filter_filterMap, List.map_filterMap,
    Declaration.ofBody, List.filter_map, List.filter_filter, List.filterMap_map,
    List.filterMap_filter]
  refine congrArg List.getLast? (hmembers.trans (List.filterMap_congr fun m _ => ?_))
  simp only [Function.comp_def, memberDoc?_filter, Bool.and_eq_true, decide_eq_true_eq,
    Declaration.doc?, and_comm]

namespace Document

variable {doc : Document} {path : SourcePath} {d : Declaration} {s : Site} {b : Block}
  {v : VariableDeclaration} {c : Bool}

/-- The declarations of a document are those right in it and those right in its objects. -/
theorem mem_declarations_iff_declarationsIn :
    d ∈ doc.declarations ↔ d ∈ doc.declarationsIn d.home ∧ ∀ s ∈ d.home, s ∈ doc.sites := by
  rw [declarations, List.mem_append, List.mem_flatMap]
  cases hhome : d.home with
  | none =>
    simp [declarationsIn, Declaration.mem_ofBody_iff, hhome]
  | some s =>
    simp [declarationsIn, Declaration.mem_ofBody_iff, hhome, and_comm]

/-- The block of an object that declares a variable documents what stands right in the object. -/
theorem docs_of_block? {comments : List Comment} (hb : s.block? path comments = some b)
    (hm : (.var v, c) ∈ b.fragment.members) : b.fragment.docs = memberDocs comments s.body := by
  unfold Site.block? at hb
  split at hb
  · rename_i hobject
    rw [← Option.some.inj hb, Site.body, hobject]
    rfl
  · -- the arguments of an instantiation are fields
    rw [← Option.some.inj hb, Definition.members_ofInstantiation] at hm
    obtain ⟨a, -, ha⟩ := List.mem_map.mp hm
    cases ha
  · cases hb

/-- A variable among the members of a block is a declaration that stands where the block does, and
is looked up in the block with the documentation of its namesakes. -/
theorem exists_declaration_of_var (hb : b ∈ (doc.outline path).blocks)
    (hm : (.var v, c) ∈ b.fragment.members) :
    ∃ d ∈ doc.declarations, d.definition = .var v ∧ d.path = b.path ∧
      b.fragment.docs[v.name]? = doc.recordedDoc? d := by
  obtain ⟨b', pragmas, rfl, ⟨s, hs, hsb⟩ | rfl⟩ := exists_of_mem_blocks hb
  · change _ ∈ b'.fragment.members at hm
    have hdocs : b'.fragment.docs = memberDocs doc.comments s.body := docs_of_block? hsb hm
    rw [members_of_block? hsb] at hm
    refine ⟨⟨some s, c, .var v⟩, ?_, rfl, ?_, ?_⟩
    · exact mem_declarations_iff.mpr ⟨rfl, Or.inr ⟨s, hs, rfl, hm⟩⟩
    · rw [Declaration.path, Option.bind_some, Site.objectPath?_eq path doc.comments, hsb]
      rfl
    · show b'.fragment.docs[v.name]? = _
      rw [hdocs, getElem?_memberDocs doc.comments (some s) s.enclosed]
      rfl
  · refine ⟨⟨none, c, .var v⟩, ?_, rfl, rfl, ?_⟩
    · exact mem_declarations_iff.mpr ⟨rfl, Or.inl ⟨rfl, hm⟩⟩
    · show (memberDocs doc.comments doc.definitions)[v.name]? = _
      rw [getElem?_memberDocs doc.comments none false]
      rfl

/-- A declaration is one of its namesakes. -/
theorem mem_namesakes_self (hd : d ∈ doc.declarations) : d ∈ doc.namesakes d :=
  List.mem_filter.mpr ⟨(mem_declarations_iff_declarationsIn.mp hd).1, decide_eq_true rfl⟩

/-- A declaration is recorded with its own documentation if all documented namesakes are the same
definition. -/
theorem recordedDoc?_eq (hd : d ∈ doc.declarations)
    (halone : ∀ d' ∈ doc.namesakes d, d'.doc? doc.comments ≠ none →
      d'.definition = d.definition) :
    doc.recordedDoc? d = d.doc? doc.comments := by
  have hself := mem_namesakes_self hd
  rw [recordedDoc?]
  cases hlast : ((doc.namesakes d).filterMap (Declaration.doc? doc.comments)).getLast? with
  | none =>
    -- then no namesake has any, and so neither has the declaration
    rw [List.getLast?_eq_none_iff, List.filterMap_eq_nil_iff] at hlast
    exact (hlast d hself).symm
  | some text =>
    obtain ⟨d', hd', htext⟩ := List.mem_filterMap.mp (List.mem_of_getLast? hlast)
    rw [← htext, Declaration.doc?, Declaration.doc?, halone d' hd' (by rw [htext]; simp)]

end Document

namespace Index

variable {t : Index} {L : Ledger} {lay : Layout} {i : NodeId} {n : Node} {x : String}
  {v : VariableEntry}

/-- A variable that a node holds is a declaration of an indexed file, recorded on the node, and has
the documentation of its namesakes. -/
theorem Built.exists_declaration_of_vars (h : t.Built L lay) (hn : t.node? i = some n)
    (hv : n.summary.vars[x]? = some v) :
    ∃ e ∈ L, ∃ d ∈ e.2.declarations, v.file = e.1 ∧ t.LiesOn e.1 d i ∧
      d.definition = .var v.declaration ∧ v.declaration.name = x ∧
      v.doc = e.2.recordedDoc? d := by
  obtain ⟨g, hg, hmade⟩ := (h.current hn List.not_mem_nil).exists_mem_fragmentVariables hv
  obtain ⟨e, he, hfile, r, hr⟩ := h.exists_entry_of_fragment hn hg
  obtain ⟨m, hm, hmade⟩ := List.mem_filterMap.mp hmade
  split at hmade
  · rename_i declaration hvar
    obtain ⟨rfl, rfl⟩ := Prod.mk.inj (Option.some.inj hmade)
    obtain ⟨b, hb, rfl, hi⟩ := h.exists_block he hr hn hg (hfile ▸ SourcePath.same_refl e.1)
    obtain ⟨d, hd, hx, hpath, hdoc⟩ :=
      Document.exists_declaration_of_var (v := declaration) (c := m.2) hb (hvar ▸ hm)
    exact ⟨e, he, d, hd, hfile, ⟨r, hr, hpath ▸ hi⟩, hx, rfl, hdoc⟩
  · cases hmade

/-- After any run, the documentation of a variable on a node is determined by the document of its
file alone: it is that of the last documented one of the fields and variables of its name that stand
right in the same object. So the variable has its own documentation, or none if there is no block
above it, unless something else of its name is documented there. -/
theorem doc_run (options : IndexOptions) (ops : List Operation)
    (hn : (run options ops).node? i = some n) (hv : n.summary.vars[x]? = some v) :
    ∃ e ∈ Ledger.latest ops, ∃ d ∈ e.2.declarations, v.file = e.1 ∧
      (run options ops).LiesOn e.1 d i ∧ d.definition = .var v.declaration ∧
      v.declaration.name = x ∧ v.doc = e.2.recordedDoc? d ∧
      ((∀ d' ∈ e.2.namesakes d, d'.doc? e.2.comments ≠ none → d'.definition = d.definition) →
        v.doc = docBefore? e.2.comments v.declaration.position) := by
  obtain ⟨lay, h, -⟩ := exists_built_run options ops
  obtain ⟨e, he, d, hd, hfile, hlies, hx, hname, hdoc⟩ := h.exists_declaration_of_vars hn hv
  refine ⟨e, he, d, hd, hfile, hlies, hx, hname, hdoc, fun halone => ?_⟩
  rw [hdoc, Document.recordedDoc?_eq hd halone, Declaration.doc?, hx]
  rfl

/-- A file of the package `app` with a variable that is documented in one branch of a conditional
and declared without documentation in the other one. -/
def halfDocumented : Document where
  package := some ⟨"app", .start⟩
  definitions := [
    .conditional (.reference "debug" ⟨1, 4⟩)
      [.var ⟨"port", "int", some (.int 8080 ⟨3, 14⟩), false, ⟨3, 7⟩⟩]
      [.var ⟨"port", "int", some (.int 80 ⟨5, 14⟩), false, ⟨5, 7⟩⟩]
      ⟨⟨1, 1⟩, ⟨6, 1⟩⟩]
  comments := [⟨"While debugging.", true, ⟨2, 3⟩⟩]
  pragmas := []

/-- The variable on the node is the one without documentation. -/
theorem doc_run_halfDocumented :
    let path := SourcePath.ofText "a.pcl"
    let ops : List Operation := [.add path halfDocumented]
    let t := run {} ops
    ∃ n v, t.node? 1 = some n ∧ n.summary.vars["port"]? = some v ∧
      ∃ e ∈ Ledger.latest ops, ∃ d ∈ e.2.declarations, v.file = e.1 ∧
        t.LiesOn e.1 d 1 ∧ d.definition = .var v.declaration ∧
        v.declaration.name = "port" ∧ v.doc = e.2.recordedDoc? d ∧
        ((∀ d' ∈ e.2.namesakes d, d'.doc? e.2.comments ≠ none → d'.definition = d.definition) →
          v.doc = docBefore? e.2.comments v.declaration.position) := by
  intro path ops t
  obtain ⟨n, v, hn, hv⟩ : ∃ n v, t.node? 1 = some n ∧ n.summary.vars["port"]? = some v :=
    ⟨_, _, rfl, rfl⟩
  exact ⟨n, v, hn, hv, doc_run {} ops hn hv⟩

/-- The variable in the second branch has the documentation of that in the first one, while there is
no block above its declaration. -/
theorem exists_borrowed_doc :
    let path := SourcePath.ofText "a.pcl"
    let doc := halfDocumented
    let t := run {} [.add path doc]
    ∃ i n v, t.node? i = some n ∧ n.summary.vars["port"]? = some v ∧ v.file = path ∧
      docBefore? doc.comments v.declaration.position = none ∧ v.doc = some "While debugging." :=
  ⟨1, _, _, rfl, rfl, rfl, by decide, by decide⟩

end Index

end SemanticIndex
