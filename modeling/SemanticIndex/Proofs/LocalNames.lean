import Mathlib.Data.List.TakeWhile
import SemanticIndex.Proofs.Expanding
import SemanticIndex.Proofs.Occurrences

/-!
# Names of a Template's Own

Whenever a template is expanded, the evaluator binds names: those of the loops in its body, of the
parameters and of the variables, each before it comes to what stands inside or after. The names
that the place of a value lists as `own` and `early` are bound whenever the value is evaluated
(`templateObject_congr`), so that they are not looked for in the index (`nameValue?_of_metBy`).

An outline takes the `own` names for local, so that references to them are never bound to anything
in the index (`Index.own_names_unbound_run`). It does not so with the `early` ones: these are looked
for like names from elsewhere.
-/

namespace SemanticIndex

/-! ### What an expansion has bound -/

namespace Context

variable {c : Context} {xs : List String}

/-- Some names are bound. -/
def Binds (c : Context) (xs : List String) : Prop := ∀ x ∈ xs, (c.lookup? x).isSome

/-- A name is bound once it has been. -/
theorem isSome_lookup?_define_self (c : Context) (x : String) (v : Value) :
    ((c.define x v).lookup? x).isSome := by
  simp [lookup?, frames, define]

namespace Binds

theorem append {ys : List String} (h : c.Binds xs) (h' : c.Binds ys) : c.Binds (xs ++ ys) :=
  fun x hx => (List.mem_append.mp hx).elim (h x) (h' x)

/-- A bound name stays bound when another one is. -/
theorem define (h : c.Binds xs) (y : String) (v : Value) : (c.define y v).Binds xs := by
  intro x hx
  have hbound := h x hx
  simp only [lookup?, frames, Context.define, List.findSome?_cons, Std.ExtTreeMap.getElem?_insert]
    at hbound ⊢
  split
  · rfl
  · rename_i hnone
    split at hnone
    · cases hnone
    · rwa [hnone] at hbound

/-- A name that may be absent is bound in addition if there is one. -/
theorem defineOption (h : c.Binds xs) (y : Option String) (v : Value) :
    (c.defineOption y v).Binds (xs ++ y.toList) := by
  cases y with
  | none => rwa [Option.toList_none, List.append_nil]
  | some y =>
    exact (h.define y v).append
      (List.forall_mem_singleton.mpr (isSome_lookup?_define_self c y v))

/-- What is bound outside is bound inside. -/
theorem enter (h : c.Binds xs) (scope : Option NodeId) : (c.enter scope).Binds xs := by
  intro x hx
  have hbound := h x hx
  simpa [lookup?, frames, Context.enter, Frame.empty] using hbound

/-- In a round of a loop the names of the loop are bound. -/
theorem round (h : c.Binds xs) (key value : Option String) (index item : Value) :
    (((c.enter none).defineOption key index).defineOption value item).Binds
      (xs ++ Definition.loopNames key value) := by
  rw [Definition.loopNames, ← List.append_assoc]
  exact ((h.enter none).defineOption key index).defineOption value item

section

variable {eval : Context → Value → Value} {instantiate : Context → Instantiation → Definition}

/-- Of parameters those are bound that have a default, whatever the arguments are. -/
theorem bindParameters (h : c.Binds xs) (arguments : List Field) (parameters : List Parameter) :
    (parameters.foldl (bindParameter eval arguments) c).Binds
      (xs ++ Standing.defaulted parameters) := by
  induction parameters generalizing c xs with
  | nil => rwa [Standing.defaulted, List.filter_nil, List.map_nil, List.append_nil]
  | cons p ps ih =>
    rw [List.foldl_cons]
    unfold bindParameter
    have hdefine : ∀ v : Value, (c.define p.name v).Binds (xs ++ [p.name]) := fun v =>
      h.defineOption (some p.name) v
    have hcons : Standing.defaulted (p :: ps) =
        (if p.default.isSome then [p.name] else []) ++ Standing.defaulted ps := by
      unfold Standing.defaulted
      rw [List.filter_cons]
      split <;> rfl
    rw [hcons, ← List.append_assoc]
    refine ih ?_
    split
    · split
      · exact hdefine _
      · rw [List.append_nil]
        exact h.define _ _
    · cases hdefault : p.default with
      | none =>
        rw [Option.isSome_none, if_neg Bool.false_ne_true, List.append_nil]
        exact h
      | some default => exact hdefine _

mutual

/-- What is bound before a definition is bound after it. -/
theorem expandWith {c : Context} (h : c.Binds xs) (d : Definition) :
    (expandWith eval instantiate c d).2.Binds xs := by
  cases d with
  | field f => rwa [SemanticIndex.expandWith]
  | object name body span => rwa [SemanticIndex.expandWith]
  | var v =>
    rw [SemanticIndex.expandWith]
    split
    · exact h
    · exact h.define _ _
  | conditional condition thenBody elseBody span =>
    rw [SemanticIndex.expandWith]
    split
    · exact expandAllWith h thenBody
    · exact expandAllWith h elseBody
  | loop key value items body span =>
    rw [SemanticIndex.expandWith]
    split <;> exact h
  | template name parameters body span =>
    rw [SemanticIndex.expandWith]
    exact h
  | instantiation i => rwa [SemanticIndex.expandWith]

/-- What is bound before a body is bound after it. -/
theorem expandAllWith {c : Context} (h : c.Binds xs) (ds : List Definition) :
    (expandAllWith eval instantiate c ds).2.Binds xs := by
  cases ds with
  | nil => rwa [SemanticIndex.expandAllWith]
  | cons d ds =>
    rw [SemanticIndex.expandAllWith]
    exact expandAllWith (expandWith h d) ds

end

end

end Binds

end Context

namespace Standing

variable {s : Standing} {c : Context} {eval : Context → Value → Value}
  {instantiate : Context → Instantiation → Definition}

/-- A context in which the names are bound that are said to be. Any context will do outside of
templates, where nothing is. -/
def MetBy (s : Standing) (c : Context) : Prop := c.Binds (s.own ++ s.early)

/-- Names of another place are bound if they are among those bound so far. -/
theorem metBy_of_names {s' : Standing} {names : List String}
    (h : c.Binds (s.own ++ s.early ++ names))
    (hnames : s'.own ++ s'.early ⊆ s.own ++ s.early ++ names) : s'.MetBy c :=
  fun x hx => h x (hnames hx)

namespace MetBy

/-- Inside of an object the same names are bound. -/
theorem enter (h : s.MetBy c) (scope : Option NodeId) : s.MetBy (c.enter scope) :=
  Context.Binds.enter h scope

/-- In a round of a loop the names of the loop are bound too. -/
theorem round (h : s.MetBy c) (key value : Option String) (index item : Value) :
    (s.inLoop (Definition.loopNames key value)).MetBy
      (((c.enter none).defineOption key index).defineOption value item) := by
  refine metBy_of_names (Context.Binds.round h key value index item) ?_
  unfold inLoop
  split <;> grind

/-- In the default of a parameter, and the parameters before it are bound. -/
theorem parameters (h : s.MetBy c) (arguments : List Field) (others : List Parameter) :
    (s.inDefault others).MetBy (others.foldl (bindParameter eval arguments) c) := by
  refine metBy_of_names (Context.Binds.bindParameters h arguments others) ?_
  rw [inDefault, List.append_assoc]
  exact fun _ => id

/-- In the body of a template that is expanded. -/
theorem inside (h : s.MetBy c) (arguments : List Field) (i : Instantiation) (template : Template) :
    (s.inTemplate template.parameters).MetBy (c.inside eval arguments i template) := by
  refine metBy_of_names
    (Context.Binds.bindParameters (h.enter (c.childScope? i.name)) arguments template.parameters) ?_
  unfold inTemplate
  grind

/-- After a definition of the same body. -/
theorem after (h : s.MetBy c) (d : Definition) :
    (s.after d).MetBy (expandWith eval instantiate c d).2 := by
  have hkeep : (expandWith eval instantiate c d).2.Binds (s.own ++ s.early) :=
    Context.Binds.expandWith h d
  unfold Standing.after
  split
  · rename_i v
    split
    · rename_i hbody
      obtain ⟨default, hdefault⟩ := Option.isSome_iff_exists.mp (Bool.and_eq_true_iff.mp hbody).2
      have hself : ((expandWith eval instantiate c (.var v)).2.lookup? v.name).isSome := by
        rw [expandWith, hdefault]
        exact Context.isSome_lookup?_define_self c v.name _
      refine metBy_of_names (hkeep.append (List.forall_mem_singleton.mpr hself)) ?_
      rw [List.append_assoc]
      exact fun _ => id
    · exact hkeep
  · exact hkeep

end MetBy

end Standing

/-! ### What an expansion asks for -/

/-- Two ways to evaluate agree on these values in every context where the names are bound that are
said to be. -/
def AgreeOn (eval eval' : Context → Value → Value) (vs : List PlacedValue) : Prop :=
  ∀ v ∈ vs, ∀ c : Context, v.1.MetBy c → eval c v.2 = eval' c v.2

section

variable {s : Standing} {c : Context} {eval eval' : Context → Value → Value}
  {inst inst' : Context → Instantiation → Definition} {ds : List Definition}

theorem agreeOn_append {vs ws : List PlacedValue} :
    AgreeOn eval eval' (vs ++ ws) ↔ AgreeOn eval eval' vs ∧ AgreeOn eval eval' ws :=
  List.forall_mem_append

theorem agreeOn_cons {v : PlacedValue} {vs : List PlacedValue} :
    AgreeOn eval eval' (v :: vs) ↔
      (∀ c : Context, v.1.MetBy c → eval c v.2 = eval' c v.2) ∧ AgreeOn eval eval' vs :=
  List.forall_mem_cons

/-- Arguments are evaluated where the instantiation stands. -/
theorem argumentsOf_congr (h : s.MetBy c) (i : Instantiation)
    (hagree : AgreeOn eval eval' (i.arguments.map fun a => (s, a.value))) :
    argumentsOf eval c i = argumentsOf eval' c i := by
  refine List.map_congr_left fun a ha => ?_
  rw [hagree _ (List.mem_map_of_mem ha) c h]

/-- The default of a parameter is evaluated with the parameters before it bound. -/
theorem foldl_bindParameter_congr (h : s.MetBy c) (arguments : List Field)
    (others parameters : List Parameter)
    (hagree : AgreeOn eval eval' (Definition.defaultValues s others parameters)) :
    parameters.foldl (bindParameter eval arguments)
        (others.foldl (bindParameter eval arguments) c) =
      parameters.foldl (bindParameter eval' arguments)
        (others.foldl (bindParameter eval arguments) c) := by
  -- the parameters bound so far are the ones that the place of the next default lists
  induction parameters generalizing others with
  | nil => rfl
  | cons p ps ih =>
    rw [Definition.defaultValues, agreeOn_append] at hagree
    have hbind : bindParameter eval arguments (others.foldl (bindParameter eval arguments) c) p =
        bindParameter eval' arguments (others.foldl (bindParameter eval arguments) c) p := by
      unfold bindParameter
      split
      · rfl
      · split
        · rename_i default hdefault
          have hmem : (s.inDefault others, default) ∈
              p.default.toList.map fun v => (s.inDefault others, v) := by
            rw [hdefault]
            exact List.mem_singleton_self _
          exact congrArg _ (hagree.1 _ hmem _ (Standing.MetBy.parameters h arguments others))
        · rfl
    have hrest := ih (others ++ [p]) hagree.2
    rw [List.foldl_append, List.foldl_cons, List.foldl_nil] at hrest
    rw [List.foldl_cons, List.foldl_cons, ← hbind, hrest]

/-- What is so for each definition of a body is so for the body. -/
theorem expandAllWith_congr_of
    (hds : ∀ d ∈ ds, ∀ {s : Standing} {c : Context}, s.MetBy c →
      AgreeOn eval eval' (d.values s) → expandWith eval inst c d = expandWith eval' inst' c d)
    (h : s.MetBy c) (hagree : AgreeOn eval eval' (Definition.valuesAll s ds)) :
    expandAllWith eval inst c ds = expandAllWith eval' inst' c ds := by
  induction ds generalizing s c with
  | nil => rw [expandAllWith, expandAllWith]
  | cons d ds ih =>
    obtain ⟨hd, hds⟩ := List.forall_mem_cons.mp hds
    rw [Definition.valuesAll, agreeOn_append] at hagree
    have hafter : (s.after d).MetBy (expandWith eval inst c d).2 := h.after d
    have hrest := ih hds hafter hagree.2
    rw [expandAllWith_cons, expandAllWith_cons, ← hd h hagree.1, hrest]

variable (hinst : ∀ c i, argumentsOf eval c i = argumentsOf eval' c i → inst c i = inst' c i)

include hinst

/-- A definition expands to the same with two ways to evaluate that agree on the values written in
it. -/
theorem expandWith_congr_of_metBy (d : Definition) (h : s.MetBy c)
    (hagree : AgreeOn eval eval' (d.values s)) :
    expandWith eval inst c d = expandWith eval' inst' c d := by
  -- by induction on the definition, in whatever context the names of its place are bound
  induction d using Definition.induction generalizing s c with
  | field f =>
    rw [Definition.values, agreeOn_cons] at hagree
    rw [expandWith, expandWith, hagree.1 c h]
  | object name body span ih =>
    rw [Definition.values, agreeOn_append] at hagree
    have hname : (if name.isReference then name else eval c name) =
        if name.isReference then name else eval' c name := by
      split
      · rfl
      · rename_i hnot
        rw [if_neg hnot, agreeOn_cons] at hagree
        exact hagree.1.1 c h
    rw [expandWith, expandWith, hname, expandAllWith_congr_of ih (h.enter _) hagree.2]
  | var v =>
    rw [expandWith, expandWith]
    split
    · rfl
    · rename_i default hdefault
      rw [Definition.values, hdefault, Option.toList_some, List.map_singleton, agreeOn_cons]
        at hagree
      rw [hagree.1 c h]
  | conditional condition thenBody elseBody span ih ih' =>
    rw [Definition.values, agreeOn_cons, agreeOn_append] at hagree
    rw [expandWith, expandWith, hagree.1 c h, expandAllWith_congr_of ih h hagree.2.1,
      expandAllWith_congr_of ih' h hagree.2.2]
  | loop key value items body span ih =>
    rw [Definition.values, agreeOn_cons] at hagree
    rw [expandWith, expandWith, hagree.1 c h]
    cases eval' c items with
    | array items position =>
      refine congrArg (·, c) (List.flatMap_congr fun round _ => ?_)
      exact congrArg Prod.fst
        (expandAllWith_congr_of ih (h.round key value _ round.1) hagree.2)
    | _ => rfl
  | template name parameters body span => rfl
  | instantiation i =>
    rw [Definition.values] at hagree
    rw [expandWith, expandWith, hinst c i (argumentsOf_congr h i hagree)]

/-- A template expands to the same with two ways to evaluate that agree on the values written in
it, wherever the names are bound that their places list: each expansion of the template has bound
these names when it comes to the value. -/
theorem templateObject_congr (h : s.MetBy c) (arguments : List Field) (i : Instantiation)
    (template : Template)
    (hagree : AgreeOn eval eval'
      (Definition.values s
        (.template template.name template.parameters template.body template.span))) :
    templateObject eval inst arguments c i template =
      templateObject eval' inst' arguments c i template := by
  rw [Definition.values, agreeOn_append] at hagree
  have hinside : c.inside eval arguments i template = c.inside eval' arguments i template :=
    foldl_bindParameter_congr (h.enter _) arguments [] template.parameters hagree.1
  rw [templateObject, templateObject, ← hinside,
    expandAllWith_congr_of (fun d _ _ _ => expandWith_congr_of_metBy hinst d)
      (h.inside arguments i template) hagree.2]

end

/-- A name that is said to be bound is not looked for in the index. -/
theorem nameValue?_of_metBy {s : Standing} {c : Context} {name : String} (policy : ZeroDivision)
    (budget : Nat) (active : List Expansion) (h : s.MetBy c) (hname : name ∈ s.own ++ s.early) :
    nameValue? policy budget active c name = c.lookup? name := by
  rw [nameValue?_eq_or, Option.or_of_isSome (h name hname)]

/-! ### What an outline takes for local -/

/-- An undotted name is its own head. -/
theorem nameHead_eq_self {name : String} (h : '.' ∉ name.toList) : nameHead name = name := by
  have hall : name.toList.takeWhile (· != '.') = name.toList :=
    List.takeWhile_eq_self_iff.mpr fun c hc => bne_iff_ne.mpr fun heq => h (heq ▸ hc)
  rw [nameHead, Text.upTo, hall, String.ofList_toList]

namespace Occurrence

/-- The name is undotted, and that of a loop in the template around the occurrence or, in the
template's body, of a parameter with a default. -/
def IsOwn (o : Occurrence) : Prop := '.' ∉ o.name.toList ∧ o.name ∈ o.standing.own

instance (o : Occurrence) : Decidable o.IsOwn := inferInstanceAs (Decidable (_ ∧ _))

/-- The name is undotted, and that of a parameter with a default before the one in whose default
the occurrence stands, or of a variable with a default earlier in the same body. -/
def IsEarly (o : Occurrence) : Prop := '.' ∉ o.name.toList ∧ o.name ∈ o.standing.early

instance (o : Occurrence) : Decidable o.IsEarly := inferInstanceAs (Decidable (_ ∧ _))

end Occurrence

namespace Document

variable {d : Document} {o : Occurrence}

/-- What is inherited is true of where any occurrence stands. -/
theorem standing_of_mem_occurrences {P : Standing → Prop} (hP : Standing.Inherited P) (h : P {})
    (ho : o ∈ d.occurrences) : P o.standing := by
  obtain ⟨v, hv, ho⟩ := List.mem_flatMap.mp ho
  obtain ⟨part, -, hpart⟩ := List.mem_filterMap.mp ho
  rw [Occurrence.standing_of_ofValue? hpart]
  exact Definition.forall_mem_valuesAll hP {} h d.definitions v hv

/-- A name of the template's own is taken for local. -/
theorem isLocal_of_isOwn (ho : o ∈ d.occurrences) (hown : o.IsOwn) : o.mention.isLocal = true := by
  have hsubset : o.standing.own ⊆ o.standing.taken :=
    standing_of_mem_occurrences Standing.inherited_own (fun _ hx => hx) ho
  rw [Occurrence.mention, List.contains_iff_mem, nameHead_eq_self hown.1]
  exact hsubset hown.2

end Document

namespace Index

variable {path : SourcePath} {doc : Document}

/-- A local mention is bound to nothing. -/
theorem MentionMeans.eq_unbound {t : Index} {scope : NodeId} {m : Mention} {b : Binding}
    (h : t.MentionMeans scope m b) (hlocal : m.isLocal = true) : b = .unbound := by
  cases h with
  | ofLocal | marked | nothing => rfl
  | var hnot | node hnot =>
    rw [hlocal] at hnot
    cases hnot

/-- The references of a file are among all references. -/
theorem mem_references_of_mem_referencesIn {t : Index} {r : Reference}
    (hr : r ∈ t.referencesIn path) : r ∈ t.references := by
  unfold referencesIn at hr
  split at hr
  · exact mem_references_iff.mpr ⟨_, _, ‹_›, hr⟩
  · cases hr

/-- Right after resolution the references of a file are its recorded occurrences one by one, each
bound to what its mention means; those of names of a template's own are bound to nothing. -/
theorem Built.own_names_unbound {t : Index} {L : Ledger} {lay : Layout} (h : t.Built L lay)
    (hdoc : (path, doc) ∈ L) :
    List.Forall₂
      (fun o r => r.mention = o.mention ∧ t.resolve.MentionMeans r.scope r.mention r.binding ∧
        (o.IsOwn → r.binding = .unbound))
      doc.recordedOccurrences (t.resolve.referencesIn path) := by
  have hpaired := h.resolve.mentions_referencesIn hdoc
  rw [← List.forall₂_eq_eq_eq, List.forall₂_map_left_iff, List.forall₂_map_right_iff] at hpaired
  have hflipped := hpaired.flip
  refine List.forall₂_iff_zip.mpr ⟨hflipped.length_eq, fun {o r} hmem => ?_⟩
  have hmention : r.mention = o.mention := congrArg Prod.snd (List.forall₂_zip hflipped hmem)
  obtain ⟨ho, hr⟩ := List.of_mem_zip hmem
  have hmeans := h.mentionMeans_resolve (mem_references_of_mem_referencesIn hr)
  refine ⟨hmention, hmeans, fun hown => hmeans.eq_unbound ?_⟩
  rw [hmention]
  exact Document.isLocal_of_isOwn (List.mem_of_mem_filter ho) hown

/-- After any run, right after resolution, the references of a file are its recorded occurrences
one by one, each bound to what its mention means. Inside a template none is bound to a node or a
variable of the index that is the undotted name of a loop of the template around it or, in the
body, of a parameter with a default. -/
theorem own_names_unbound_run (options : IndexOptions) (ops : List Operation)
    (hdoc : (path, doc) ∈ Ledger.latest ops) :
    List.Forall₂
      (fun o r => r.mention = o.mention ∧
        (run options ops).resolve.MentionMeans r.scope r.mention r.binding ∧
        (o.IsOwn → r.binding = .unbound))
      doc.recordedOccurrences ((run options ops).resolve.referencesIn path) := by
  obtain ⟨lay, h, -⟩ := exists_built_run options ops
  exact h.own_names_unbound hdoc

/-- A file of the package `app` with the objects `x` and `p`, and a template that has a parameter
`p` and a variable `x` and names both. -/
def shadowingDocument : Document where
  package := some ⟨"app", .start⟩
  definitions := [.object (.reference "x" .start) [] {}, .object (.reference "p" .start) [] {},
    .template "service"
      [⟨"p", some (.int 1 .start), .start⟩, ⟨"q", some (.reference "p" .start), .start⟩]
      [.var ⟨"x", "", some (.int 2 .start), false, .start⟩,
        .field ⟨"Use", .reference "x" .start, .start⟩,
        .field ⟨"Copy", .reference "q" .start, .start⟩,
        .field ⟨"Own", .reference "p" .start, .start⟩] {},
    .instantiation ⟨"job", "service", [], {}⟩]
  comments := []
  pragmas := []

/-- The file is recorded after a run in which another one came and went. -/
theorem own_names_unbound_run_of_shadowing :
    let path := SourcePath.ofText "a.pcl"
    let ops : List Operation := [.add (.ofText "b.pcl") appDocument, .add path shadowingDocument,
      .remove (.ofText "b.pcl")]
    (path, shadowingDocument) ∈ Ledger.latest ops ∧
      List.Forall₂
        (fun o r => r.mention = o.mention ∧
          (run {} ops).resolve.MentionMeans r.scope r.mention r.binding ∧
          (o.IsOwn → r.binding = .unbound))
        shadowingDocument.recordedOccurrences ((run {} ops).resolve.referencesIn path) := by
  intro path ops
  have hdoc : (path, shadowingDocument) ∈ Ledger.latest ops := List.mem_singleton_self _
  exact ⟨hdoc, own_names_unbound_run {} ops hdoc⟩

/-- In the default of `q`, and after the variable in the body, the names `p` and `x` are bound to
the nodes `app.p` and `app.x`. Expanded, the template takes the values of its own. -/
theorem exists_bound_early_occurrence :
    let path := SourcePath.ofText "a.pcl"
    let t := (run {} [.add path shadowingDocument]).resolve
    ∃ app x p, t.path app = "app" ∧ t.path x = "app.x" ∧ t.path p = "app.p" ∧
      shadowingDocument.recordedOccurrences.map (fun o => (o.name, decide (o.IsEarly))) =
        [("p", true), ("x", true), ("q", false), ("p", false)] ∧
      (t.referencesIn path).map (fun r => (r.mention.name, r.binding)) =
        [("p", .node p), ("x", .node x), ("q", .unbound), ("p", .unbound)] ∧
      Definition.sameAll
        (t.expandAt {} app [.instantiation ⟨"job", "service", [], {}⟩])
        [.object (.reference "job" .start)
          [.field ⟨"Use", .int 2 .start, .start⟩, .field ⟨"Copy", .int 1 .start, .start⟩,
            .field ⟨"Own", .int 1 .start, .start⟩] {}] = true := by
  exact ⟨1, 2, 3, by decide, by decide, by decide, by decide, by decide, by decide⟩

end Index

end SemanticIndex
