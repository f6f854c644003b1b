import SemanticIndex.Proofs.Variables

/-!
# Two Ways to Evaluate a Field

A field can be evaluated where it is recorded, its variables looked up in the forest and their
defaults expanded on demand. Or all definitions of its file are evaluated in source order, and each
variable is bound to a value as its declaration is passed. Where every variable is declared once and
none depends on itself, the two agree (`Index.expandAt_inPlace_run`).

The invariant is about the context while a file is gone through: what a frame binds to a name is the
value of the default that the name leads to in the node where the context stands
(`Context.AgreesAt`). So values are the same in the context and in the node
(`Context.AgreesAt.evaluate_eq`), and binding another variable or entering another object keeps it
so. A variable that is not bound, for it is declared further down or in a branch that does not
count, is looked up in the forest both ways.
-/

namespace SemanticIndex

/-! ### Fields in their places -/

namespace Index

/-- Among what is recorded on a node there is the field of the file, last evaluated to `w`. -/
def Records (t : Index) (file : SourcePath) (i : NodeId) (f : Field) (w : Value) : Prop :=
  ∃ n, t.node? i = some n ∧ ∃ e ∈ n.summary.fields[f.name]?.getD [],
    e.file = file ∧ e.value = f.value ∧ e.position = f.position ∧ e.evaluated = some w

/-- Definitions that `file` has written in the node `i` come to the second list: the fields of the
branches that count, in their objects, each with the value of its expression in the node on which it
is recorded, which is the value that evaluation notes there. -/
inductive InPlace (t : Index) (o : EvaluationOptions) (file : SourcePath) :
    NodeId → List Definition → List Definition → Prop
  | nil {i : NodeId} : InPlace t o file i [] []
  | field {i : NodeId} {ds es : List Definition} (f : Field)
      (recorded : (t.reevaluate o).Records file i f (t.evaluateAt o i f.value))
      (rest : InPlace t o file i ds es) :
      InPlace t o file i (.field f :: ds)
        (.field { f with value := t.evaluateAt o i f.value } :: es)
  | object {i j : NodeId} {ds es body body' : List Definition} (name : Value) (span : Span)
      (child : t.child? i name.text = some j) (inside : InPlace t o file j body body')
      (rest : InPlace t o file i ds es) :
      InPlace t o file i (.object name body span :: ds) (.object name body' span :: es)
  | var {i : NodeId} {ds es : List Definition} (v : VariableDeclaration)
      (rest : InPlace t o file i ds es) : InPlace t o file i (.var v :: ds) es
  | conditional {i : NodeId} {ds es thenBody elseBody out : List Definition} (condition : Value)
      (span : Span)
      (branch : InPlace t o file i
        (if (t.evaluateAt o i condition).holds then thenBody else elseBody) out)
      (rest : InPlace t o file i ds es) :
      InPlace t o file i (.conditional condition thenBody elseBody span :: ds) (out ++ es)

/-- A field that comes to stand at `out` is written there, among what is `written`, and has the
value of its expression in the node to which the path leads, which is the value that evaluation
notes on this node. -/
def Recorded (t : Index) (o : EvaluationOptions) (file : SourcePath) (top : NodeId)
    (written : List Site) (out : Site) (f : Field) : Prop :=
  ∃ s ∈ written, ∃ g i, s.path = out.path ∧ s.definition = .field g ∧
    t.follow? top out.path = some i ∧ f = { g with value := t.evaluateAt o i g.value } ∧
    (t.reevaluate o).Records file i g f.value

section

variable {t : Index} {o : EvaluationOptions} {file : SourcePath} {top i : NodeId}
  {written written' : List Site} {out : Site} {f : Field}

theorem Recorded.mono (h : t.Recorded o file top written out f) (hsub : written ⊆ written') :
    t.Recorded o file top written' out f := by
  obtain ⟨s, hs, hrest⟩ := h
  exact ⟨s, hsub hs, hrest⟩

/-- Each field that definitions in their places come to is recorded. -/
theorem InPlace.recorded {path : List String} {b b' : Bool} {ds es : List Definition}
    (h : t.InPlace o file i ds es) (hi : t.follow? top path = some i)
    (hout : out ∈ Definition.sitesAll path b es) (hf : out.definition = .field f) :
    t.Recorded o file top (Definition.sitesAll path b' ds) out f := by
  induction h generalizing path b b' with
  | nil => cases hout
  | field g hrecorded _ ih =>
    rcases List.mem_append.mp hout with hout | hout
    · obtain rfl := List.mem_singleton.mp hout
      obtain rfl := Definition.field.inj hf
      refine ⟨⟨path, b', .field g⟩, List.mem_append_left _ ?_, g, _, rfl, rfl, hi, rfl, hrecorded⟩
      exact Definition.self_mem_sites path b' (.field g)
    · exact (ih hi hout).mono (List.subset_append_right _ _)
  | @object i j ds es body body' name span hchild _ _ ih ih' =>
    rcases List.mem_append.mp hout with hout | hout
    · rcases List.mem_cons.mp hout with rfl | hout
      · cases hf
      -- one name further the child is reached, on which the object is in its place
      have hj : t.follow? top (path ++ [name.text]) = some j := by
        rw [follow?_append, hi, Option.bind_some, follow?, hchild]
        rfl
      have hbody : (⟨path ++ [name.text], b', body⟩ : Body) ∈
        Definition.bodies path b' (.object name body span) := List.mem_singleton_self _
      exact (ih hj hout).mono
        (List.subset_append_of_subset_left _ (Definition.body_subset_sites hbody))
    · exact (ih' hi hout).mono (List.subset_append_right _ _)
  | var v _ ih => exact (ih hi hout).mono (List.subset_append_right _ _)
  | @conditional i ds es thenBody elseBody inner condition span _ _ ih ih' =>
    rw [Definition.sitesAll_eq_flatMap, List.flatMap_append, ← Definition.sitesAll_eq_flatMap,
      ← Definition.sitesAll_eq_flatMap] at hout
    rcases List.mem_append.mp hout with hout | hout
    · -- the branch that holds is one of the two bodies
      have hbody : (⟨path, true, if (t.evaluateAt o i condition).holds then thenBody else
          elseBody⟩ : Body) ∈
          Definition.bodies path b' (.conditional condition thenBody elseBody span) := by
        split
        · exact List.mem_cons_self
        · exact List.mem_cons_of_mem _ (List.mem_singleton_self _)
      exact (ih hi hout).mono
        (List.subset_append_of_subset_left _ (Definition.body_subset_sites hbody))
    · exact (ih' hi hout).mono (List.subset_append_right _ _)

end

end Index

/-- Whether a definition is no loop, no template and no instantiation, and its name, if it is an
object, a bare one. -/
def Definition.isPlain : Definition → Bool
  | field _ | var _ | conditional .. => true
  | object name _ _ => name.isReference
  | loop .. | template .. | instantiation _ => false

/-! ### Contexts -/

/-- The context stands at a node, and what it binds to a name is the value of the default that the
name leads to there. -/
structure Context.AgreesAt (c : Context) (t : Index) (o : EvaluationOptions) (i : NodeId) :
    Prop where
  index_eq : c.index = some t
  scope_eq : c.scope? = some i
  bound : ∀ f ∈ c.frames, ∀ (x : String) w, f.bindings[x]? = some w →
    ∃ owner ∈ t.ancestors i, ∃ v default, t.declaration? owner x = some v ∧
      v.default = some default ∧ w = t.evaluateAt o owner default

/-- What the index knows of what is written here. -/
structure Site.Known (t : Index) (o : EvaluationOptions) (file : SourcePath) (top : NodeId)
    (s : Site) : Prop where
  plain : s.definition.isPlain = true
  field : ∀ f i, s.definition = .field f → t.follow? top s.path = some i →
    (t.reevaluate o).Records file i f (t.evaluateAt o i f.value)
  object : ∀ name body span, s.definition = .object name body span →
    ∃ j, t.follow? top (s.path ++ [name.text]) = some j
  var : ∀ v i, s.definition = .var v → t.follow? top s.path = some i →
    variableName v.name = v.name ∧ t.declaration? i v.name = some v

namespace Context.AgreesAt

variable {c : Context} {t : Index} {L : Ledger} {lay : Layout} {o : EvaluationOptions}
  {i j : NodeId} {v : VariableDeclaration} {default : Value} {x : String}

/-- A context over the index agrees with it at the node that is its scope. -/
theorem ofIndex (t : Index) (o : EvaluationOptions) (i : NodeId) :
    (Context.ofIndex t (some i)).AgreesAt t o i where
  index_eq := rfl
  scope_eq := Context.scope?_ofIndex t (some i)
  bound f hf x w hw := by simp [unbound_ofIndex t (some i) f hf] at hw

/-- An expression has the same value in the context and in the node. -/
theorem evaluate_eq (hc : c.AgreesAt t o i) (h : t.Built L lay) (hunique : L.UniqueVariables)
    (hacyclic : t.Acyclic) (hdepth : t.heldVariables.length ≤ o.maxDepth) (v : Value) :
    evaluate o c v = t.evaluateAt o i v := by
  rw [Index.evaluateAt, evaluate, evaluate, valueOf, valueOf]
  refine congrArg (v.reduce o.zeroDivision) (funext fun name => ?_)
  rw [nameValue?_eq_or, hc.index_eq, hc.scope_eq]
  cases hbound : c.lookup? name with
  | none => rfl
  | some w =>
    -- the name leads to the same default in the node, and has its value there
    obtain ⟨f, hf, hw⟩ := List.exists_of_findSome?_eq_some hbound
    obtain ⟨owner, howner, v, default, hv, hdefault, rfl⟩ := hc.bound f hf _ w hw
    rw [h.nameValue?_eq_some_evaluateAt hacyclic hdepth
      (h.defaultOf?_eq hunique howner hv hdefault), Option.some_or]

/-- A variable may be bound where it is declared. -/
theorem define (hc : c.AgreesAt t o i) (hplain : variableName v.name = v.name)
    (hv : t.declaration? i v.name = some v) (hdefault : v.default = some default) :
    (c.define v.name (t.evaluateAt o i default)).AgreesAt t o i where
  index_eq := hc.index_eq
  scope_eq := hc.scope_eq
  bound := by
    obtain ⟨hinner, houter⟩ := List.forall_mem_cons.mp hc.bound
    refine List.forall_mem_cons.mpr ⟨fun x w hw => ?_, houter⟩
    simp only [Context.define, Std.ExtTreeMap.getElem?_insert] at hw
    split at hw
    · rename_i hx
      obtain rfl := Option.some.inj hw
      obtain rfl : v.name = x := hplain.symm.trans (Std.LawfulEqCmp.eq_of_compare hx)
      obtain ⟨n, hn⟩ : ∃ n, t.node? i = some n := by
        obtain ⟨w, hw, -⟩ := Option.map_eq_some_iff.mp hv
        obtain ⟨n, hn, -⟩ := Option.bind_eq_some_iff.mp hw
        exact ⟨n, hn⟩
      refine ⟨i, ?_, v, default, hv, hdefault, rfl⟩
      rw [Index.ancestors, hn]
      exact List.mem_cons_self
    · exact hinner x w hw

/-- What is bound around an object stays so in it. -/
theorem enter (hc : c.AgreesAt t o i) (h : t.Built L lay) (hj : t.child? i x = some j) :
    (c.enter (c.childScope? x)).AgreesAt t o j := by
  have hscope : c.childScope? x = some j := by
    rw [childScope?, hc.index_eq, Option.bind_some, hc.scope_eq, Option.bind_some, hj]
  obtain ⟨n, hn, hchild⟩ := Option.bind_eq_some_iff.mp hj
  obtain ⟨m, hm, hparent, -⟩ := h.child_points hn hchild
  have habove : t.ancestors j = j :: t.ancestors i := by
    rw [Index.ancestors, hm]
    exact congrArg _ (h.above_eq_ancestors hm hparent)
  rw [hscope]
  refine ⟨hc.index_eq, rfl, List.forall_mem_cons.mpr ⟨fun x w hw => ?_, fun f hf x w hw => ?_⟩⟩
  · simp [Context.enter, Frame.empty] at hw
  · obtain ⟨owner, howner, hrest⟩ := hc.bound f hf x w hw
    exact ⟨owner, habove ▸ List.mem_cons_of_mem j howner, hrest⟩

end Context.AgreesAt

/-! ### Definitions -/

section

variable {c : Context} {t : Index} {L : Ledger} {lay : Layout} {o : EvaluationOptions}
  {file : SourcePath} {inst : Context → Instantiation → Definition} {top i : NodeId}
  {path : List String} {b : Bool} {d : Definition} {ds : List Definition}

/-- Where the index knows what is written in the definition, expanding it in a context that agrees
with the node puts what it comes to in place, and the context still agrees. -/
def Definition.StaysInPlace (t : Index) (o : EvaluationOptions) (file : SourcePath) (top : NodeId)
    (inst : Context → Instantiation → Definition) (d : Definition) : Prop :=
  ∀ {path : List String} {b : Bool} {c : Context} {i : NodeId},
    (∀ s ∈ sites path b d, s.Known t o file top) → t.follow? top path = some i →
    c.AgreesAt t o i →
    (∀ {ds es}, t.InPlace o file i ds es →
      t.InPlace o file i (d :: ds) ((expandWith (evaluate o) inst c d).1 ++ es)) ∧
    (expandWith (evaluate o) inst c d).2.AgreesAt t o i

/-- What is so for each definition of a body is so for the body. -/
theorem inPlace_expandAllWith (h : ∀ d ∈ ds, d.StaysInPlace t o file top inst)
    (hds : ∀ s ∈ Definition.sitesAll path b ds, s.Known t o file top)
    (hi : t.follow? top path = some i) (hc : c.AgreesAt t o i) :
    t.InPlace o file i ds (expandAllWith (evaluate o) inst c ds).1 ∧
      (expandAllWith (evaluate o) inst c ds).2.AgreesAt t o i := by
  induction ds generalizing c with
  | nil => exact ⟨.nil, hc⟩
  | cons d ds ih =>
    obtain ⟨hd, hrest⟩ := List.forall_mem_cons.mp h
    obtain ⟨hplace, hcontext⟩ := hd (fun s hs => hds s (List.mem_append_left _ hs)) hi hc
    obtain ⟨hplaces, hcontext'⟩ :=
      ih hrest (fun s hs => hds s (List.mem_append_right _ hs)) hcontext
    rw [expandAllWith_cons]
    exact ⟨hplace hplaces, hcontext'⟩

/-- By induction on the definition: bodies are expanded in the node of their object. -/
theorem Definition.staysInPlace (h : t.Built L lay) (hunique : L.UniqueVariables)
    (hacyclic : t.Acyclic) (hdepth : t.heldVariables.length ≤ o.maxDepth) (file : SourcePath)
    (top : NodeId) (inst : Context → Instantiation → Definition) (d : Definition) :
    d.StaysInPlace t o file top inst := by
  have heval : ∀ {c : Context} {i : NodeId}, c.AgreesAt t o i → ∀ v,
      evaluate o c v = t.evaluateAt o i v :=
    fun hc => hc.evaluate_eq h hunique hacyclic hdepth
  induction d using Definition.induction with
  | field f =>
    intro path b c i hd hi hc
    rw [expandWith, heval hc]
    exact ⟨.field f ((hd _ (self_mem_sites _ _ _)).field f i rfl hi), hc⟩
  | object name body span ih =>
    intro path b c i hd hi hc
    have hself := hd _ (self_mem_sites path b (.object name body span))
    have hname : name.isReference = true := hself.plain
    obtain ⟨j, hj⟩ := hself.object name body span rfl
    have hchild : t.child? i name.text = some j := by
      rw [Index.follow?_append, hi, Option.bind_some, Index.follow?] at hj
      obtain ⟨k, hk, hkj⟩ := Option.bind_eq_some_iff.mp hj
      exact Option.some.inj hkj ▸ hk
    obtain ⟨hinside, -⟩ := inPlace_expandAllWith ih
      (fun s hs => hd s (List.mem_cons_of_mem _ hs)) hj (hc.enter h hchild)
    rw [expandWith, if_pos hname]
    exact ⟨.object name span hchild hinside, hc⟩
  | var v =>
    intro path b c i hd hi hc
    obtain ⟨hplain, hv⟩ := (hd _ (self_mem_sites path b (.var v))).var v i rfl hi
    rw [expandWith]
    split
    · exact ⟨.var v, hc⟩
    · rename_i default hdefault
      rw [heval hc]
      exact ⟨.var v, hc.define hplain hv hdefault⟩
  | conditional condition thenBody elseBody span ih ih' =>
    intro path b c i hd hi hc
    have hthen := inPlace_expandAllWith ih
      (fun s hs => hd s (List.mem_cons_of_mem _ (List.mem_append_left _ hs))) hi hc
    have helse := inPlace_expandAllWith ih'
      (fun s hs => hd s (List.mem_cons_of_mem _ (List.mem_append_right _ hs))) hi hc
    -- the branch that counts is the same in the context and in the node
    have hbranch : t.InPlace o file i
          (if (t.evaluateAt o i condition).holds then thenBody else elseBody)
          (expandWith (evaluate o) inst c (.conditional condition thenBody elseBody span)).1 ∧
        (expandWith (evaluate o) inst c
          (.conditional condition thenBody elseBody span)).2.AgreesAt t o i := by
      rw [expandWith, heval hc]
      split
      · exact hthen
      · exact helse
    exact ⟨.conditional condition span hbranch.1, hbranch.2⟩
  | loop | template | instantiation =>
    intro path b c i hd _ _
    cases (hd _ (self_mem_sites path b _)).plain

end

/-! ### Files -/

namespace Index

variable {t : Index} {L : Ledger} {lay : Layout} {o : EvaluationOptions} {path : SourcePath}
  {doc : Document} {r : FileRecord} {s : Site} {b : Bool}

/-- Evaluation notes a value on every entry. -/
theorem records_reevaluate {i : NodeId} {n : Node} {f : Field} {e : FieldEntry}
    (hn : t.node? i = some n) (he : e ∈ n.summary.fields[f.name]?.getD [])
    (heq : e.withoutValue = ⟨path, f.value, f.position, b, none⟩) :
    (t.reevaluate o).Records path i f (t.evaluateAt o i f.value) := by
  obtain ⟨entries, hentries⟩ : ∃ entries, n.summary.fields[f.name]? = some entries := by
    cases hfields : n.summary.fields[f.name]? with
    | none => simp [hfields] at he
    | some entries => exact ⟨entries, rfl⟩
  rw [hentries, Option.getD_some] at he
  have hvalue : e.value = f.value := congrArg FieldEntry.value heq
  have hnoted : (t.reevaluate o).node? i =
      some { n with summary := noteValues (t.evaluateAt o i) n.summary } := by
    rw [node?_reevaluate, hn, Option.map_some]
  refine ⟨_, hnoted, { e with evaluated := some (t.evaluateAt o i e.value) }, ?_,
    congrArg FieldEntry.file heq, hvalue, congrArg FieldEntry.position heq,
    congrArg (fun v => some (t.evaluateAt o i v)) hvalue⟩
  rw [noteValues, Std.ExtTreeMap.getElem?_map, hentries, Option.map_some, Option.getD_some]
  exact List.mem_map_of_mem he

/-- The index knows what is written in a document that has been entered. -/
theorem Built.known (h : t.Built L lay) (hunique : L.UniqueVariables) (he : (path, doc) ∈ L)
    (hr : t.file? path = some r) (hs : s ∈ doc.sites) (hplain : s.definition.isPlain = true) :
    s.Known t o path r.top where
  plain := hplain
  field f i hf hi := by
    obtain ⟨n, hn⟩ := h.laid.exists_node (h.follow?_top he hr s.path ▸ hi)
    have hfield : ⟨s.path, s.enclosed, f⟩ ∈ doc.fieldSites :=
      List.mem_flatMap.mpr ⟨s, hs, by rw [Site.fieldSites, hf]; exact List.mem_singleton_self _⟩
    obtain ⟨e, hmem, heq⟩ := h.exists_recorded he hr hfield hi hn
    exact records_reevaluate hn hmem heq
  object name body span hobject := by
    obtain ⟨b, hb, hpath⟩ : ∃ b, s.block? path doc.comments = some b ∧
        b.path = s.path ++ [name.text] := by
      rw [← Option.map_eq_some_iff, ← Site.objectPath?_eq, Site.objectPath?, hobject]
    obtain ⟨j, -, -, hj, -⟩ := h.exists_fragment_of_block? he hr hs hb
    exact ⟨j, hpath ▸ hj⟩
  var v i hv hi := by
    have hplain := hunique.plain _ (Ledger.mem_variableSites he hs hv)
    exact ⟨hplain, h.declaration?_eq hunique he hr hs hv hi⟩

/-- In an index that is built from a ledger, evaluation in source order puts the fields of each
document in place. -/
theorem Built.inPlace_expandAt (h : t.Built L lay) (hunique : L.UniqueVariables)
    (hacyclic : t.Acyclic) (hdepth : t.heldVariables.length ≤ o.maxDepth) (he : (path, doc) ∈ L)
    (hr : t.file? path = some r) (hplain : ∀ s ∈ doc.sites, s.definition.isPlain = true) :
    t.InPlace o path r.top doc.definitions (t.expandAt o r.top doc.definitions) :=
  (inPlace_expandAllWith
    (fun d _ => Definition.staysInPlace h hunique hacyclic hdepth path r.top _ d)
    (fun s hs => h.known hunique he hr hs (hplain s hs)) rfl (.ofIndex t o r.top)).1

/-- The two ways to evaluate a field agree. After any run in which each variable is declared once
and none depends on itself, the definitions of a file without loops, templates and instantiations,
whose objects have bare names, come in source order to fields that have, each, the value of its
expression in the node on which the field is recorded, provided that as many expansions may nest as
there are variables. -/
theorem expandAt_inPlace_run (options : IndexOptions) (ops : List Operation)
    (hunique : (Ledger.latest ops).UniqueVariables) (hacyclic : (run options ops).Acyclic)
    (hdoc : (path, doc) ∈ Ledger.latest ops)
    (hplain : ∀ s ∈ doc.sites, s.definition.isPlain = true)
    (hdepth : (run options ops).heldVariables.length ≤ o.maxDepth) :
    ∃ r, (run options ops).file? path = some r ∧
      let es := (run options ops).expandAt o r.top doc.definitions
      (run options ops).InPlace o path r.top doc.definitions es ∧
        ∀ out ∈ Definition.sitesAll [] false es, ∀ f, out.definition = .field f →
          (run options ops).Recorded o path r.top doc.sites out f := by
  obtain ⟨lay, h, -⟩ := exists_built_run options ops
  obtain ⟨r, hr, -⟩ := h.exists_file _ hdoc
  have hplace := h.inPlace_expandAt hunique hacyclic hdepth hdoc hr hplain
  exact ⟨r, hr, hplace, fun out hout f hf => hplace.recorded rfl hout hf⟩

/-- A file of the package `app` with two variables, of which the inner one depends on the outer one,
and with a field in each branch of a conditional. -/
def derivedDocument : Document where
  package := some ⟨"app", .start⟩
  definitions := [
    .object (.reference "web" .start) [
      .field ⟨"port", .binary .add (.reference "derived" .start) (.int 1 .start) .start, .start⟩,
      .var ⟨"derived", "", some (.binary .add (.reference "base" .start) (.int 8000 .start) .start),
        false, .start⟩,
      .conditional (.reference "debug" .start)
        [.field ⟨"level", .int 2 .start, .start⟩]
        [.field ⟨"level", .atReference "base" .start, .start⟩] {}] {},
    .var ⟨"base", "", some (.int 80 .start), false, .start⟩]
  comments := []
  pragmas := []

/-- Two nested expansions are enough for the file: its variables do not depend on themselves. -/
theorem expandAt_inPlace_run_of_derived :
    let path := SourcePath.ofText "a.pcl"
    let ops := [Operation.add path derivedDocument, .resolve]
    let t := run {} ops
    let o : EvaluationOptions := { maxDepth := 2 }
    (Ledger.latest ops).UniqueVariables ∧ t.Acyclic ∧ t.heldVariables.length = 2 ∧
      ∃ r, t.file? path = some r ∧
        let es := t.expandAt o r.top derivedDocument.definitions
        t.InPlace o path r.top derivedDocument.definitions es ∧
          ∀ out ∈ Definition.sitesAll [] false es, ∀ f, out.definition = .field f →
            t.Recorded o path r.top derivedDocument.sites out f := by
  intro path ops t o
  have hnames : ((Ledger.latest ops).variableSites.map fun v => v.2.declaration.name) =
      ["derived", "base"] := rfl
  have hdefaults : ((Ledger.latest ops).variableSites.map fun v =>
      (v.2.declaration.name, v.2.declaration.default.map Value.names)) =
      [("derived", some ["base"]), ("base", some [])] := by decide +kernel
  have hunique : (Ledger.latest ops).UniqueVariables := by
    have hplain : ∀ x ∈ ["derived", "base"], variableName x = x := by decide
    exact ⟨hnames ▸ by decide, fun v hv => hplain _ (hnames ▸ List.mem_map_of_mem hv)⟩
  have hacyclic : t.Acyclic := by
    obtain ⟨lay, h, -⟩ := exists_built_run {} ops
    -- only the inner variable depends on another one
    have hdepends : ∀ p q, t.DependsOn p q → p.2 = "derived" ∧ q.2 = "base" := by
      intro p q hpq
      obtain ⟨s, hs, hp, default, hdefault, y, hy, hq⟩ := h.exists_mem_names_of_dependsOn hpq
      have hmem := hdefaults ▸ List.mem_map_of_mem hs
      rw [hdefault, hp, Option.map_some] at hmem
      rcases List.mem_pair.mp hmem with heq | heq
      · obtain ⟨hname, hnames⟩ := Prod.mk.inj heq
        rw [Option.some.inj hnames] at hy
        rw [← hq, List.mem_singleton.mp hy]
        exact ⟨hname, by decide⟩
      · rw [Option.some.inj (Prod.mk.inj heq).2] at hy
        cases hy
    intro p hp
    obtain ⟨q, hpq, -⟩ := Relation.TransGen.head'_iff.mp hp
    obtain ⟨q', -, hqp⟩ := Relation.TransGen.tail'_iff.mp hp
    exact absurd ((hdepends _ _ hpq).1.symm.trans (hdepends _ _ hqp).2) (by decide)
  have hcount : t.heldVariables.length = 2 := by decide +kernel
  refine ⟨hunique, hacyclic, hcount, ?_⟩
  refine expandAt_inPlace_run {} ops hunique hacyclic (List.mem_singleton_self _) ?_
    (Nat.le_of_eq hcount)
  simp [derivedDocument, Document.sites, Definition.sitesAll, Definition.sites,
    Definition.isPlain, Value.isReference]

end Index

end SemanticIndex
