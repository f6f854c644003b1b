import SemanticIndex.Proofs.Declarations
import SemanticIndex.Proofs.Emission
import SemanticIndex.Proofs.Shape

/-!
# Indexing Brackets Evaluation

An outline enters both branches of a conditional and the body of a loop, and marks what it finds
there; evaluation takes one branch, and goes through the body as often as there are items. So what
a file has left in the index bounds from above what evaluating its definitions emits, and what is
not marked bounds it from below (`Index.Brackets`), whatever the conditions turn out to be and
whatever is bound around the definitions (`Index.brackets_run`).

Both bounds are about what is written where in the document: a block or a field of the index comes
from a site, and so does what evaluation emits.
-/

namespace SemanticIndex

/-! ### Objects and their blocks -/

namespace Site

variable {file : SourcePath} {comments : List Comment} {s out : Site} {b : Block}

theorem objectPath?_eq_map (s : Site) : s.objectPath? = s.object?.map fun x => s.path ++ [x.1] := by
  rw [objectPath?, object?]
  cases s.definition <;> rfl

/-- The block of an object is called as the object, and marked if something encloses it. -/
theorem of_block?_eq (hb : s.block? file comments = some b) :
    b.fragment.isObject = true ∧ b.fragment.file = file ∧ b.fragment.conditional = s.enclosed ∧
      b.path = s.path ++ [b.fragment.declaredName] ∧
      ∃ span, b.fragment.span = some span ∧ s.object? = some (b.fragment.declaredName, span) := by
  unfold block? at hb
  split at hb
  case h_3 => cases hb
  all_goals
    rename_i hobject
    obtain rfl := Option.some.inj hb
    exact ⟨rfl, rfl, rfl, rfl, _, rfl, by rw [object?, hobject]; rfl⟩

/-- An object that is emitted has the path of what declares it. -/
theorem EmitsObject.objectPath?_eq (h : s.EmitsObject out) : out.objectPath? = s.objectPath? := by
  rw [objectPath?_eq_map, objectPath?_eq_map, h.1, h.2.1]

/-- A field is not emitted for an object. -/
theorem EmitsObject.definition_ne_field (h : s.EmitsObject out) (f : Field) :
    out.definition ≠ .field f := by
  intro hf
  obtain ⟨-, hobject, hsome⟩ := h
  rw [← hobject, object?, hf] at hsome
  cases hsome

/-- Nor is an object emitted for a field. -/
theorem EmitsField.objectPath?_eq {o : EvaluationOptions} {t : Index} {top : NodeId}
    (h : s.EmitsField o t top out) : out.objectPath? = none := by
  obtain ⟨f, -, c, -, -, hfield⟩ := h
  rw [objectPath?, hfield]

/-- A field is emitted where it is written. -/
theorem EmitsField.of_field {o : EvaluationOptions} {t : Index} {top : NodeId} {f : Field}
    (h : s.EmitsField o t top out) (hs : s.definition = .field f) :
    ∃ c : Context, c.StandsAt t top s.path ∧ out.path = s.path ∧
      out.definition = .field { f with value := evaluate o c f.value } := by
  obtain ⟨fs, hfs, c, hc, hpath, hfield⟩ := h
  rw [fieldSites, hs] at hfs
  obtain rfl := List.mem_singleton.mp hfs
  exact ⟨c, hc, hpath, hfield⟩

end Site

namespace Index

/-- What is emitted at `outs` lies between what the file `path` has left below its top node and
what of it is not marked conditional. -/
structure Brackets (t : Index) (path : SourcePath) (top : NodeId) (o : EvaluationOptions)
    (outs : List Site) : Prop where
  /-- Every object that is emitted has a node, to which the file contributes as an object. -/
  object_indexed : ∀ out ∈ outs, ∀ p, out.objectPath? = some p →
    ∃ i n g, t.follow? top p = some i ∧ t.node? i = some n ∧ g ∈ n.fragments ∧
      g.file.same path = true ∧ g.isObject = true
  /-- Every field that is emitted is recorded where it is emitted, and evaluated there or, if it is
  an argument of an instantiation, in the node above. -/
  field_recorded : ∀ out ∈ outs, ∀ f, out.definition = .field f →
    ∃ i n e c, t.follow? top out.path = some i ∧ t.node? i = some n ∧
      e ∈ n.summary.fields[f.name]?.getD [] ∧ e.file.same path = true ∧ e.position = f.position ∧
      c.index = some t ∧ (c.scope? = some i ∨ c.scope? = t.parent? i) ∧
      f.value = evaluate o c e.value
  /-- Every object of the file that is not marked is emitted at its node. -/
  object_emitted : ∀ i n g, t.node? i = some n → g ∈ n.fragments → g.file.same path = true →
    g.isObject = true → g.conditional = false →
      ∃ out ∈ outs, ∃ span, g.span = some span ∧ out.object? = some (g.declaredName, span) ∧
        t.follow? top (out.path ++ [g.declaredName]) = some i
  /-- What is recorded on a node is held by its fragments. -/
  field_held : ∀ i n x e, t.node? i = some n → e ∈ n.summary.fields[x]?.getD [] →
    ∃ g ∈ n.fragments, (x, e.withoutValue) ∈ Summary.fragmentFields g
  /-- Every field of the file that is not marked is emitted at its node, unless it is an argument of
  an instantiation. -/
  field_emitted : ∀ i n g x e, t.node? i = some n → g ∈ n.fragments → g.file.same path = true →
    g.template = none → (x, e) ∈ Summary.fragmentFields g → e.conditional = false →
      ∃ out ∈ outs, ∃ c, t.follow? top out.path = some i ∧ c.index = some t ∧ c.scope? = some i ∧
        out.definition = .field ⟨x, evaluate o c e.value, e.position⟩

variable {t : Index} {L : Ledger} {lay : Layout} {path : SourcePath} {doc : Document}
  {r : FileRecord} {top i j : NodeId} {n : Node} {s out : Site} {b : Block} {g : Fragment}
  {o : EvaluationOptions} {c : Context}

namespace Built

/-- The node to which a path leads is right below the one to which the path around it leads. -/
theorem parent?_of_follow? (h : t.Built L lay) {names : List String} {x : String}
    (hj : t.follow? top names = some j) (hi : t.follow? top (names ++ [x]) = some i) :
    t.parent? i = some j := by
  rw [follow?_append, hj, Option.bind_some, follow?] at hi
  obtain ⟨k, hk, hki⟩ := Option.bind_eq_some_iff.mp hi
  obtain rfl := Option.some.inj hki
  obtain ⟨m, hm, hk⟩ := Option.bind_eq_some_iff.mp hk
  obtain ⟨n, hn, hparent, -⟩ := h.child_points hm hk
  rw [parent?, hn, Option.bind_some, hparent]

section

variable (h : t.Built L lay) (he : (path, doc) ∈ L) (hr : t.file? path = some r)

include h he hr

/-! ### Below the top node of a file -/

/-- The definitions of a file stand below its top address. -/
theorem top_at : lay ((doc.outline path).topAddress path) = some r.top := by
  obtain ⟨f, hf, hisOf⟩ := h.exists_file _ he
  rw [file?, hf] at hr
  exact Option.some.inj hr ▸ hisOf.top_at

/-- Names lead from the top of a file to the address that they make up. -/
theorem follow?_top (names : List String) : t.follow? r.top names =
    lay ⟨doc.home path, ((doc.packagePath ++ names).map nodeName).reverse⟩ := by
  rw [h.laid.follow?_eq (h.top_at he hr), Address.down_eq, Outline.topAddress_eq, List.map_append,
    List.reverse_append]
  rfl

/-- The fragment of a block is on the node to which the path of the block leads. -/
theorem exists_fragment (hb : b ∈ (doc.outline path).blocks) :
    ∃ i n, t.follow? r.top b.path = some i ∧ t.node? i = some n ∧ b.fragment ∈ n.fragments := by
  have hd := Ledger.mem_deposits_iff.mpr ⟨_, he, List.mem_map.mpr ⟨b, hb, rfl⟩⟩
  obtain ⟨i, hi⟩ := h.placed _ hd
  obtain ⟨n, hn⟩ := h.laid.exists_node hi
  refine ⟨i, n, ?_, hn, ?_⟩
  · rw [h.laid.follow?_eq (h.top_at he hr)]
    exact hi
  · rw [h.fragments_eq hi hn]
    exact mem_fragmentsAt_iff.mpr hd

/-- A fragment of the file is that of a block, and on the node to which the path of the block
leads. -/
theorem exists_block (hn : t.node? i = some n) (hg : g ∈ n.fragments)
    (hfile : g.file.same path = true) :
    ∃ b ∈ (doc.outline path).blocks, b.fragment = g ∧ t.follow? r.top b.path = some i := by
  obtain ⟨a, ha⟩ := h.laid.exists_address hn
  rw [h.fragments_eq ha hn, mem_fragmentsAt_iff] at hg
  obtain ⟨e, he', hd⟩ := Ledger.mem_deposits_iff.mp hg
  -- the file has one entry, so the fragment is one of its document
  have hpath : e.1.components = path.components := by
    rw [← SourcePath.same_iff, ← Document.file_eq_of_mem_deposits hd]
    exact hfile
  obtain rfl := h.distinct.eq he' he hpath
  obtain ⟨b, hb, hba⟩ := List.mem_map.mp hd
  obtain ⟨rfl, rfl⟩ := Prod.mk.inj hba
  refine ⟨b, hb, rfl, ?_⟩
  rw [h.laid.follow?_eq (h.top_at he hr)]
  exact ha

/-- The object that is declared at a site has a node with its fragment. -/
theorem exists_fragment_of_block? (hs : s ∈ doc.sites) (hb : s.block? path doc.comments = some b) :
    ∃ i n pragmas, t.follow? r.top b.path = some i ∧ t.node? i = some n ∧
      (b.withPragmas pragmas).fragment ∈ n.fragments := by
  obtain ⟨pragmas, hb⟩ := Document.exists_mem_blocks hs hb
  obtain ⟨i, n, hi, hn, hfragment⟩ := h.exists_fragment he hr hb
  exact ⟨i, n, pragmas, hi, hn, hfragment⟩

/-- Where all names are literal, all objects have nodes in every context. -/
theorem settled (hs : s ∈ doc.sites) (hliteral : ∀ name body span,
      s.definition = .object name body span → name.isLiteralName = true) :
    s.Settled t r.top where
  literal := hliteral
  exists_node p hp := by
    rw [Site.objectPath?_eq path doc.comments, Option.map_eq_some_iff] at hp
    obtain ⟨b, hb, rfl⟩ := hp
    obtain ⟨i, n, pragmas, hi, -, -⟩ := h.exists_fragment_of_block? he hr hs hb
    exact ⟨i, hi⟩

/-- A field of the document is recorded on the node in which it lies. -/
theorem exists_recorded {f : FieldSite} (hf : f ∈ doc.fieldSites)
    (hi : t.follow? r.top f.path = some i) (hn : t.node? i = some n) :
    ∃ e ∈ n.summary.fields[f.field.name]?.getD [], e.withoutValue = f.entry path := by
  rw [h.follow?_top he hr] at hi
  have hhistory : f.entry path ∈ doc.history path ((doc.packagePath ++ f.path).map nodeName)
      f.field.name :=
    List.mem_map.mpr ⟨f, List.mem_filter.mpr ⟨hf, decide_eq_true ⟨rfl, rfl⟩⟩, rfl⟩
  have hsharing : (path, doc) ∈ L.sharing (doc.home path) :=
    List.mem_filter.mpr ⟨he, decide_eq_true rfl⟩
  have hmem : f.entry path ∈ (n.summary.fields[f.field.name]?.getD []).map
      FieldEntry.withoutValue := by
    rw [h.history_at hi hn]
    exact List.mem_flatMap.mpr ⟨_, hsharing, hhistory⟩
  exact List.mem_map.mp hmem

/-! ### What is emitted -/

/-- The node of an object that is emitted has a fragment of the file. -/
theorem exists_fragment_of_emitsObject (hs : s ∈ doc.sites) (hemits : s.EmitsObject out)
    {p : List String} (hp : out.objectPath? = some p) :
    ∃ i n g, t.follow? r.top p = some i ∧ t.node? i = some n ∧ g ∈ n.fragments ∧
      g.file.same path = true ∧ g.isObject = true := by
  rw [hemits.objectPath?_eq, Site.objectPath?_eq path doc.comments, Option.map_eq_some_iff] at hp
  obtain ⟨b, hb, rfl⟩ := hp
  obtain ⟨i, n, pragmas, hi, hn, hg⟩ := h.exists_fragment_of_block? he hr hs hb
  obtain ⟨hobject, hfile, -⟩ := Site.of_block?_eq hb
  exact ⟨i, n, _, hi, hn, hg, SourcePath.same_iff.mpr (congrArg _ hfile), hobject⟩

/-- A field is emitted where it is recorded. -/
theorem exists_recorded_of_emitsField (hsettled : s.Settled t r.top) (hs : s ∈ doc.sites)
    (hemits : s.EmitsField o t r.top out) {f : Field} (hout : out.definition = .field f) :
    ∃ i n e c, t.follow? r.top out.path = some i ∧ t.node? i = some n ∧
      e ∈ n.summary.fields[f.name]?.getD [] ∧ e.file.same path = true ∧ e.position = f.position ∧
      c.index = some t ∧ (c.scope? = some i ∨ c.scope? = t.parent? i) ∧
      f.value = evaluate o c e.value := by
  obtain ⟨fs, hfs, c, hc, hpath, hdefinition⟩ := hemits
  obtain ⟨j, hj, hscope⟩ := hc.exists_scope
  obtain rfl := Definition.field.inj (hout.symm.trans hdefinition)
  rw [hpath]
  -- a field lies where its site is, an argument in the object of the instantiation
  obtain ⟨i, hi, hscope⟩ : ∃ i, t.follow? r.top fs.path = some i ∧
      (c.scope? = some i ∨ c.scope? = t.parent? i) := by
    unfold Site.fieldSites at hfs
    split at hfs
    · rw [List.mem_singleton.mp hfs]
      exact ⟨j, hj, Or.inl hscope⟩
    · rename_i instantiation hsite
      obtain ⟨a, -, rfl⟩ := List.mem_map.mp hfs
      have hobject : s.objectPath? = some (s.path ++ [instantiation.name]) := by
        rw [Site.objectPath?, hsite]
      obtain ⟨i, hi⟩ := hsettled.exists_node _ hobject
      exact ⟨i, hi, Or.inr (by rw [hscope, h.parent?_of_follow? hj hi])⟩
    · cases hfs
  obtain ⟨n, hn⟩ := h.laid.exists_node (h.follow?_top he hr _ ▸ hi)
  obtain ⟨e, hmem, heq⟩ := h.exists_recorded he hr (List.mem_flatMap.mpr ⟨s, hs, hfs⟩) hi hn
  refine ⟨i, n, e, c, hi, hn, hmem, ?_, congrArg FieldEntry.position heq, hc.index_eq, hscope, ?_⟩
  · rw [SourcePath.same_iff]
    exact congrArg (fun e => e.file.components) heq
  · exact congrArg (fun e => evaluate o c e.value) heq.symm

/-! ### What is written -/

/-- An object fragment of the file has been declared somewhere in the document. -/
theorem exists_site_of_isObject (hn : t.node? i = some n) (hg : g ∈ n.fragments)
    (hfile : g.file.same path = true) (hobject : g.isObject = true) :
    ∃ s ∈ doc.sites, s.enclosed = g.conditional ∧
      t.follow? r.top (s.path ++ [g.declaredName]) = some i ∧
      ∃ span, g.span = some span ∧ s.object? = some (g.declaredName, span) := by
  obtain ⟨b, hb, rfl, hi⟩ := h.exists_block he hr hn hg hfile
  obtain ⟨b', pragmas, rfl, ⟨s, hs, hsb⟩ | rfl⟩ := Document.exists_of_mem_blocks hb
  · obtain ⟨-, -, henclosed, hpath, hspan⟩ := Site.of_block?_eq hsb
    exact ⟨s, hs, henclosed.symm, hpath ▸ hi, hspan⟩
  -- the whole file is no object
  · cases hobject

/-- A field of the file that is no argument has been written somewhere in the document. -/
theorem exists_site_of_mem_fragmentFields (hn : t.node? i = some n) (hg : g ∈ n.fragments)
    (hfile : g.file.same path = true) (hbody : g.template = none) {x : String} {e : FieldEntry}
    (hmem : (x, e) ∈ Summary.fragmentFields g) :
    ∃ s ∈ doc.sites, s.enclosed = e.conditional ∧ t.follow? r.top s.path = some i ∧
      s.definition = .field ⟨x, e.value, e.position⟩ := by
  obtain ⟨b, hb, rfl, hi⟩ := h.exists_block he hr hn hg hfile
  obtain ⟨m, hm, hentry⟩ := List.mem_filterMap.mp hmem
  refine ⟨_, Document.mem_sites_of_mem_members hb hbody hm, ?_⟩
  split at hentry
  · rename_i f hfield
    obtain ⟨rfl, rfl⟩ := Prod.mk.inj (Option.some.inj hentry)
    exact ⟨rfl, hi, hfield⟩
  · cases hentry

/-! ### Both bounds -/

/-- An index that is built from a ledger brackets the evaluation of each of its documents. -/
theorem brackets (hnames : ∀ s ∈ doc.sites, ∀ name body span,
      s.definition = .object name body span → name.isLiteralName = true)
    (o : EvaluationOptions) (hindex : c.index = some t) (hscope : c.scope? = some r.top) :
    t.Brackets path r.top o
      (Definition.sitesAll [] false (expandOutside o c doc.definitions)) := by
  have hsettled : ∀ s ∈ doc.sites, s.Settled t r.top := fun s hs =>
    h.settled he hr hs (hnames s hs)
  have hstands : c.StandsAt t r.top [] := ⟨hindex, r.top, rfl, hscope⟩
  -- from above: what is emitted is written
  have hwritten : ∀ out ∈ Definition.sitesAll [] false (expandOutside o c doc.definitions),
      ∃ s ∈ doc.sites, s.Emits o t r.top out := fun out hout =>
    Definition.exists_site_of_mem_expandAllWith (fun d _ => Definition.emitsOnlyWritten o t r.top d)
      hsettled hstands hout
  -- from below: what is written outside of branches and loops is emitted
  have hemitted : ∀ s ∈ doc.sites, s.enclosed = false → s.EmittedIn o t r.top
      (Definition.sitesAll [] false (expandOutside o c doc.definitions)) := fun s hs =>
    Definition.emittedIn_expandAllWith (fun d _ => Definition.emitsUnenclosed o t r.top d)
      hsettled hstands hs
  exact {
    object_indexed := fun out hout p hp => by
      obtain ⟨s, hs, hfield | hobject⟩ := hwritten out hout
      · rw [hfield.objectPath?_eq] at hp
        cases hp
      · exact h.exists_fragment_of_emitsObject he hr hs hobject hp
    field_recorded := fun out hout f hf => by
      obtain ⟨s, hs, hfield | hobject⟩ := hwritten out hout
      · exact h.exists_recorded_of_emitsField he hr (hsettled s hs) hs hfield hf
      · exact absurd hf (hobject.definition_ne_field f)
    object_emitted := fun i n g hn hg hfile hobject hconditional => by
      obtain ⟨s, hs, henclosed, hi, span, hspan, hs'⟩ :=
        h.exists_site_of_isObject he hr hn hg hfile hobject
      obtain ⟨out, hout, hpath, hout', -⟩ :=
        (hemitted s hs (henclosed.trans hconditional)).object (by rw [hs']; rfl)
      exact ⟨out, hout, span, hspan, hout'.trans hs', hpath ▸ hi⟩
    field_held := fun i n x e hn hmem =>
      (h.current hn List.not_mem_nil).exists_fragment_of_mem_fields hmem
    field_emitted := fun i n g x e hn hg hfile hbody hmem hconditional => by
      obtain ⟨s, hs, henclosed, hi, hs'⟩ :=
        h.exists_site_of_mem_fragmentFields he hr hn hg hfile hbody hmem
      obtain ⟨out, hout, hemits⟩ := (hemitted s hs (henclosed.trans hconditional)).field _ hs'
      obtain ⟨c, hc, hpath, hfield⟩ := hemits.of_field hs'
      obtain ⟨j, hj, hscope⟩ := hc.exists_scope
      obtain rfl := Option.some.inj (hj.symm.trans hi)
      exact ⟨out, hout, c, hpath ▸ hi, hc.index_eq, hscope, hfield⟩ }

end

end Built

/-- After any run the index brackets the evaluation of each of its files from the top node of the
file, if the names of the objects in the file are literal. This holds of all that is evaluated
outside the bodies of expanded instantiations, and all else that comes out is such bodies. -/
theorem brackets_run (options : IndexOptions) (ops : List Operation)
    (hdoc : (path, doc) ∈ Ledger.latest ops) (hr : (run options ops).file? path = some r)
    (hnames : ∀ s ∈ doc.sites, ∀ name body span, s.definition = .object name body span →
      name.isLiteralName = true)
    (o : EvaluationOptions) (hindex : c.index = some (run options ops))
    (hscope : c.scope? = some r.top) :
    (run options ops).Brackets path r.top o
        (Definition.sitesAll [] false (expandOutside o c doc.definitions)) ∧
      FilledIn (expandOutside o c doc.definitions)
        (evaluateDefinitions o c doc.definitions).1 := by
  obtain ⟨lay, h, -⟩ := exists_built_run options ops
  exact ⟨h.brackets hdoc hr hnames o hindex hscope,
    filledIn_evaluateDefinitions o c doc.definitions⟩

/-- A file of the package `app` with an object in which one of two objects is declared, as a
variable that no one declares decides. -/
def branchDocument : Document where
  package := some ⟨"app", .start⟩
  definitions := [.object (.reference "web" .start) [.field ⟨"port", .int 80 .start, .start⟩,
    .conditional (.reference "debug" .start) [.object (.reference "log" .start) [] {}]
      [.object (.string "cache" true .start) [] {}] {}] {}]
  comments := []
  pragmas := []

/-- The file is bracketed where `debug` is bound. -/
theorem brackets_run_of_branch :
    let path := SourcePath.ofText "a.pcl"
    let t := run {} [.add path branchDocument, .reevaluate {}]
    ∃ r, t.file? path = some r ∧
      let c := (Context.ofIndex t (some r.top)).define "debug" (.bool true .start)
      t.Brackets path r.top {}
          (Definition.sitesAll [] false (expandOutside {} c branchDocument.definitions)) ∧
        FilledIn (expandOutside {} c branchDocument.definitions)
          (evaluateDefinitions {} c branchDocument.definitions).1 := by
  intro path t
  obtain ⟨r, hr⟩ := Option.isSome_iff_exists.mp (show (t.file? path).isSome = true by decide)
  refine ⟨r, hr, brackets_run {} _ (List.mem_singleton_self _) hr ?_ {} rfl rfl⟩
  simp [branchDocument, Document.sites, Definition.sitesAll, Definition.sites,
    Value.isLiteralName]

end Index

end SemanticIndex
