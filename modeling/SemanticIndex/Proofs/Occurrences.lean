import SemanticIndex.Proofs.Resolving
import SemanticIndex.Proofs.RoundTrip

/-!
# Where Names Occur

Every value that is written in a document, in source order, with what its place says of the names
in it (`Definition.values`), and the occurrences of names in these values (`Document.occurrences`).
Definitions are gone through in one way wherever they stand, template bodies included.

An outline is less thorough. In a template's body it passes over the names of objects and over
templates, with all that is in them. Everything else it records, once and in order
(`Document.mentions_outline`), and so does the index (`Index.references_run`).
-/

namespace SemanticIndex

/-- What the place of a value says of the names in it. -/
structure Standing where
  /-- The names of the loops around the value and, in a template's body, of its parameters. -/
  taken : List String := []
  /-- Names that every expansion of the template around the value has bound when it comes to the
  value: those of the loops in the template and, in its body, of the parameters with a default. -/
  own : List String := []
  /-- Further names of that kind: the parameters with a default before the one whose default the
  value is, and the variables with a default that come before the value in the body. -/
  early : List String := []
  /-- Whether the value stands in a template's body. -/
  inBody : Bool := false
  /-- Whether the value is part of a template in a template's body, or of the name of an object
  there. -/
  passedOver : Bool := false

namespace Standing

/-- The names of the parameters that have a default. -/
def defaulted (parameters : List Parameter) : List String :=
  (parameters.filter (·.default.isSome)).map Parameter.name

/-- In a loop. -/
def inLoop (s : Standing) (names : List String) : Standing :=
  { s with
    taken := s.taken ++ names
    own := if s.inBody then s.own ++ names else s.own }

/-- In the name of an object. -/
def inName (s : Standing) : Standing := { s with passedOver := s.passedOver || s.inBody }

/-- In the default of a parameter that comes after others. -/
def inDefault (s : Standing) (others : List Parameter) : Standing :=
  { s with
    early := s.early ++ defaulted others
    passedOver := s.passedOver || s.inBody }

/-- In the body of a template. -/
def inTemplate (s : Standing) (parameters : List Parameter) : Standing :=
  { s with
    taken := s.taken ++ parameters.map Parameter.name
    own := s.own ++ defaulted parameters
    inBody := true
    passedOver := s.passedOver || s.inBody }

/-- After a definition of the same body. -/
def after (s : Standing) : Definition → Standing
  | .var v => if s.inBody && v.default.isSome then { s with early := s.early ++ [v.name] } else s
  | _ => s

end Standing

/-- A value and where it stands. -/
abbrev PlacedValue := Standing × Value

namespace Definition

/-- The defaults of parameters that come after others. -/
def defaultValues (s : Standing) (others : List Parameter) : List Parameter → List PlacedValue
  | [] => []
  | p :: ps =>
    (p.default.toList.map fun v => (s.inDefault others, v)) ++ defaultValues s (others ++ [p]) ps

mutual

/-- The values that are written in a definition, in source order, but for bare names of objects. -/
def values (s : Standing) : Definition → List PlacedValue
  | field f => [(s, f.value)]
  | object name body _ =>
    (if name.isReference then [] else [(s.inName, name)]) ++ valuesAll s body
  | var v => v.default.toList.map fun default => (s, default)
  | conditional condition thenBody elseBody _ =>
    (s, condition) :: (valuesAll s thenBody ++ valuesAll s elseBody)
  | loop key value items body _ =>
    (s, items) :: valuesAll (s.inLoop (loopNames key value)) body
  | template _ parameters body _ =>
    defaultValues s [] parameters ++ valuesAll (s.inTemplate parameters) body
  | instantiation i => i.arguments.map fun a => (s, a.value)

/-- The values that are written in the definitions of a body. -/
def valuesAll (s : Standing) : List Definition → List PlacedValue
  | [] => []
  | d :: ds => values s d ++ valuesAll (s.after d) ds

end

end Definition

/-- An occurrence of a name in a document. -/
structure Occurrence where
  standing : Standing
  /-- The name, without the mark of a variable. -/
  name : String
  position : Position
  /-- Whether the name is marked as a variable's. -/
  marked : Bool

namespace Occurrence

/-- The occurrence that a value is, if it is a name. -/
def ofValue? (s : Standing) : Value → Option Occurrence
  | .reference name p => some ⟨s, name, p, false⟩
  | .atReference name p => some ⟨s, variableName name, p, true⟩
  | _ => none

/-- The occurrences of names in values, at whatever depth. -/
def inValues (vs : List PlacedValue) : List Occurrence :=
  vs.flatMap fun v => v.2.parts.filterMap (ofValue? v.1)

/-- What an outline records of the occurrence: it is local if the name, or the head of a dotted
one, is that of a loop around it or of a parameter of the template in whose body it stands. -/
def mention (o : Occurrence) : Mention :=
  ⟨o.name, o.position, o.marked, o.standing.taken.contains (nameHead o.name)⟩

end Occurrence

namespace Document

/-- All occurrences of names in the document, in source order. -/
def occurrences (d : Document) : List Occurrence :=
  Occurrence.inValues (Definition.valuesAll {} d.definitions)

/-- The occurrences that are not passed over. -/
def recordedOccurrences (d : Document) : List Occurrence :=
  d.occurrences.filter fun o => !o.standing.passedOver

end Document

/-! ### What an outline records -/

/-- The mentions of the occurrences in some values, those not counted that are passed over. -/
def mentionsOf (vs : List PlacedValue) : List Mention :=
  ((Occurrence.inValues vs).filter fun o => !o.standing.passedOver).map Occurrence.mention

section

variable {s : Standing} {vs ws : List PlacedValue} {v : Value}

theorem mentionsOf_append (vs ws : List PlacedValue) :
    mentionsOf (vs ++ ws) = mentionsOf vs ++ mentionsOf ws := by
  simp only [mentionsOf, Occurrence.inValues, List.flatMap_append, List.filter_append,
    List.map_append]

theorem mentionsOf_cons (v : PlacedValue) (vs : List PlacedValue) :
    mentionsOf (v :: vs) = mentionsOf [v] ++ mentionsOf vs :=
  mentionsOf_append [v] vs

/-- An occurrence stands where its value stands. -/
theorem Occurrence.standing_of_ofValue? {o : Occurrence} (h : ofValue? s v = some o) :
    o.standing = s := by
  cases v <;> cases h <;> rfl

/-- Nothing is recorded of values that are passed over. -/
theorem mentionsOf_eq_nil (h : ∀ v ∈ vs, v.1.passedOver = true) : mentionsOf vs = [] := by
  rw [mentionsOf, List.map_eq_nil_iff, List.filter_eq_nil_iff]
  intro o ho
  obtain ⟨v, hv, ho⟩ := List.mem_flatMap.mp ho
  obtain ⟨part, -, hpart⟩ := List.mem_filterMap.mp ho
  rw [Occurrence.standing_of_ofValue? hpart, h v hv]
  decide

/-- Of any other value the names in it are recorded. -/
theorem mentionsOf_singleton (h : s.passedOver = false) :
    mentionsOf [(s, v)] = v.mentions s.taken := by
  rw [mentionsOf, Occurrence.inValues, List.flatMap_singleton, List.filter_eq_self.mpr,
    List.map_filterMap, Value.mentions]
  · refine List.filterMap_congr fun part _ => ?_
    cases part <;> rfl
  · intro o ho
    obtain ⟨part, -, hpart⟩ := List.mem_filterMap.mp ho
    rw [Occurrence.standing_of_ofValue? hpart, h]
    rfl

/-- The mentions of a value that may be absent are those of the value. -/
theorem mentionsOf_option (h : s.passedOver = false) (v : Option Value) :
    mentionsOf (v.toList.map fun v => (s, v)) = Value.mentionsOption s.taken v := by
  cases v with
  | none => rfl
  | some v => exact mentionsOf_singleton h

/-- The mentions of fields are those of their values. -/
theorem mentionsOf_fields (h : s.passedOver = false) (fields : List Field) :
    mentionsOf (fields.map fun f => (s, f.value)) = Definition.fieldMentions s.taken fields := by
  induction fields with
  | nil => rfl
  | cons f fields ih =>
    rw [List.map_cons, mentionsOf_cons, mentionsOf_singleton h, ih]
    rfl

end

/-! ### What keeps its standing -/

namespace Standing

variable {s : Standing}

/-- `P` holds of whatever stands inside of what it holds of, or after it. -/
structure Inherited (P : Standing → Prop) : Prop where
  inLoop : ∀ s names, P s → P (s.inLoop names)
  inName : ∀ s, P s → P s.inName
  inDefault : ∀ s others, P s → P (s.inDefault others)
  inTemplate : ∀ s parameters, P s → P (s.inTemplate parameters)
  after : ∀ s d, P s → P (s.after d)

/-- A definition takes no name for what comes after it. -/
@[simp]
theorem taken_after (s : Standing) (d : Definition) : (s.after d).taken = s.taken := by
  unfold after
  split
  · split <;> rfl
  · rfl

@[simp]
theorem own_after (s : Standing) (d : Definition) : (s.after d).own = s.own := by
  unfold after
  split
  · split <;> rfl
  · rfl

@[simp]
theorem inBody_after (s : Standing) (d : Definition) : (s.after d).inBody = s.inBody := by
  unfold after
  split
  · split <;> rfl
  · rfl

@[simp]
theorem passedOver_after (s : Standing) (d : Definition) :
    (s.after d).passedOver = s.passedOver := by
  unfold after
  split
  · split <;> rfl
  · rfl

/-- What is part of something passed over is passed over. -/
theorem inherited_passedOver : Inherited fun s => s.passedOver = true where
  inLoop _ _ h := h
  inName s h := by simp [inName, h]
  inDefault s _ h := by simp [inDefault, h]
  inTemplate s _ h := by simp [inTemplate, h]
  after s d h := by rwa [passedOver_after]

/-- Parameters with a default are among the parameters. -/
theorem mem_of_mem_defaulted {x : String} {parameters : List Parameter}
    (h : x ∈ defaulted parameters) : x ∈ parameters.map Parameter.name :=
  (List.filter_sublist.map _).subset h

/-- The names of the loops in a template and of its parameters are taken. -/
theorem inherited_own : Inherited fun s => s.own ⊆ s.taken where
  inLoop s names h := by
    unfold inLoop
    split
    · exact List.append_subset.mpr
        ⟨List.Subset.trans h (List.subset_append_left _ _), List.subset_append_right _ _⟩
    · exact List.Subset.trans h (List.subset_append_left _ _)
  inName _ h := h
  inDefault _ _ h := h
  inTemplate s parameters h := List.append_subset.mpr
    ⟨List.Subset.trans h (List.subset_append_left _ _), fun _ hx =>
      List.mem_append_right _ (mem_of_mem_defaulted hx)⟩
  after s d h := by rwa [own_after, taken_after]

end Standing

namespace Definition

variable {P : Standing → Prop}

/-- What is inherited is true of where defaults stand. -/
theorem forall_mem_defaultValues (hP : Standing.Inherited P) {s : Standing} (hs : P s)
    (others parameters : List Parameter) : ∀ v ∈ defaultValues s others parameters, P v.1 := by
  induction parameters generalizing others with
  | nil => exact fun v hv => nomatch hv
  | cons p ps ih =>
    rw [defaultValues, List.forall_mem_append]
    refine ⟨fun v hv => ?_, ih _⟩
    obtain ⟨value, -, rfl⟩ := List.mem_map.mp hv
    exact hP.inDefault s others hs

mutual

/-- What a property says that is inherited it says of all values in a definition. -/
theorem forall_mem_values (hP : Standing.Inherited P) (s : Standing) (hs : P s) (d : Definition) :
    ∀ v ∈ values s d, P v.1 := by
  cases d with
  | field f =>
    rw [values, List.forall_mem_singleton]
    exact hs
  | object name body span =>
    rw [values, List.forall_mem_append]
    refine ⟨?_, forall_mem_valuesAll hP s hs body⟩
    split
    · exact fun v hv => nomatch hv
    · rw [List.forall_mem_singleton]
      exact hP.inName s hs
  | var declaration =>
    rw [values, List.forall_mem_map]
    exact fun _ _ => hs
  | conditional condition thenBody elseBody span =>
    rw [values, List.forall_mem_cons, List.forall_mem_append]
    exact ⟨hs, forall_mem_valuesAll hP s hs thenBody, forall_mem_valuesAll hP s hs elseBody⟩
  | loop key value items body span =>
    rw [values, List.forall_mem_cons]
    exact ⟨hs, forall_mem_valuesAll hP _ (hP.inLoop s _ hs) body⟩
  | template name parameters body span =>
    rw [values, List.forall_mem_append]
    exact ⟨forall_mem_defaultValues hP hs [] parameters,
      forall_mem_valuesAll hP _ (hP.inTemplate s parameters hs) body⟩
  | instantiation i =>
    rw [values, List.forall_mem_map]
    exact fun _ _ => hs

/-- What is inherited is true of where the values of a body stand. -/
theorem forall_mem_valuesAll (hP : Standing.Inherited P) (s : Standing) (hs : P s)
    (ds : List Definition) : ∀ v ∈ valuesAll s ds, P v.1 := by
  cases ds with
  | nil => exact fun v hv => by rw [valuesAll] at hv; cases hv
  | cons d ds =>
    rw [valuesAll, List.forall_mem_append]
    exact ⟨forall_mem_values hP s hs d, forall_mem_valuesAll hP _ (hP.after s d hs) ds⟩

end

/-! ### Bodies of templates -/

/-- Nothing is recorded of a template in a template's body. -/
theorem mentionsOf_innerTemplate {s : Standing} (hbody : s.inBody = true)
    (parameters : List Parameter) (body : List Definition) :
    mentionsOf (defaultValues s [] parameters ++ valuesAll (s.inTemplate parameters) body) =
      [] := by
  refine mentionsOf_eq_nil (List.forall_mem_append.mpr ⟨?_, ?_⟩)
  · -- the defaults stand where everything inside is passed over
    have hdefaults : ∀ others ps, ∀ v ∈ defaultValues s others ps, v.1.passedOver = true := by
      intro others ps
      induction ps generalizing others with
      | nil => exact fun v hv => nomatch hv
      | cons p ps ih =>
        rw [defaultValues, List.forall_mem_append, List.forall_mem_map]
        exact ⟨fun _ _ => by simp [Standing.inDefault, hbody], ih _⟩
    exact hdefaults [] parameters
  · exact forall_mem_valuesAll Standing.inherited_passedOver _
      (by simp [Standing.inTemplate, hbody]) body

mutual

/-- In a template's body everything is recorded but names of objects and templates. -/
theorem mentionsOf_values_of_inBody (s : Standing) (hbody : s.inBody = true)
    (hseen : s.passedOver = false) (d : Definition) :
    mentionsOf (values s d) = bodyMentions s.taken d := by
  cases d with
  | field f => rw [values, bodyMentions, mentionsOf_singleton hseen]
  | object name body span =>
    rw [values, bodyMentions, mentionsOf_append, mentionsOf_eq_nil, List.nil_append,
      mentionsOf_valuesAll_of_inBody s hbody hseen body]
    intro v hv
    split at hv
    · cases hv
    · rw [List.mem_singleton.mp hv]
      simp [Standing.inName, hbody]
  | var declaration => rw [values, bodyMentions, mentionsOf_option hseen]
  | conditional condition thenBody elseBody span =>
    rw [values, bodyMentions, mentionsOf_cons, mentionsOf_append, mentionsOf_singleton hseen,
      mentionsOf_valuesAll_of_inBody s hbody hseen thenBody,
      mentionsOf_valuesAll_of_inBody s hbody hseen elseBody, List.append_assoc]
  | loop key value items body span =>
    rw [values, bodyMentions, mentionsOf_cons, mentionsOf_singleton hseen,
      mentionsOf_valuesAll_of_inBody (s.inLoop _) hbody hseen body]
    rfl
  | template name parameters body span =>
    rw [values, bodyMentions, mentionsOf_innerTemplate hbody]
  | instantiation i => rw [values, bodyMentions, mentionsOf_fields hseen]

/-- Of a body in a template's body an outline records what is not passed over. -/
theorem mentionsOf_valuesAll_of_inBody (s : Standing) (hbody : s.inBody = true)
    (hseen : s.passedOver = false) (ds : List Definition) :
    mentionsOf (valuesAll s ds) = bodyMentionsAll s.taken ds := by
  cases ds with
  | nil =>
    rw [valuesAll, bodyMentionsAll]
    rfl
  | cons d ds =>
    rw [valuesAll, bodyMentionsAll, mentionsOf_append, mentionsOf_values_of_inBody s hbody hseen d,
      mentionsOf_valuesAll_of_inBody (s.after d) (by rwa [Standing.inBody_after])
        (by rwa [Standing.passedOver_after]) ds, Standing.taken_after]

end

/-! ### Outside the bodies of templates -/

/-- Of the defaults of parameters an outline records all that is mentioned. -/
theorem mentionsOf_defaultValues {s : Standing} (hbody : s.inBody = false)
    (hseen : s.passedOver = false) (others parameters : List Parameter) :
    mentionsOf (defaultValues s others parameters) = parameterMentions s.taken parameters := by
  induction parameters generalizing others with
  | nil => rfl
  | cons p ps ih =>
    have hdefault : (s.inDefault others).passedOver = false := by
      simp [Standing.inDefault, hbody, hseen]
    rw [defaultValues, mentionsOf_append, mentionsOf_option hdefault, ih]
    rfl

mutual

/-- Outside of template bodies everything is recorded. -/
theorem mentionsOf_values (path : List String) (s : Standing) (hbody : s.inBody = false)
    (hseen : s.passedOver = false) (d : Definition) :
    mentionsOf (values s d) = (mentions path s.taken d).map Prod.snd := by
  cases d with
  | field f =>
    rw [values, mentions, mentionsOf_singleton hseen, List.map_map]
    exact (List.map_id _).symm
  | object name body span =>
    rw [values, mentions, mentionsOf_append, List.map_append,
      mentionsOf_valuesAll (path ++ [name.text]) s hbody hseen body]
    congr 1
    split
    · rfl
    · have hname : s.inName.passedOver = false := by simp [Standing.inName, hbody, hseen]
      rw [mentionsOf_singleton hname, List.map_map]
      exact (List.map_id _).symm
  | var declaration =>
    rw [values, mentions, mentionsOf_option hseen, List.map_map]
    exact (List.map_id _).symm
  | conditional condition thenBody elseBody span =>
    rw [values, mentions, mentionsOf_cons, mentionsOf_append, mentionsOf_singleton hseen,
      mentionsOf_valuesAll path s hbody hseen thenBody,
      mentionsOf_valuesAll path s hbody hseen elseBody, List.map_append, List.map_append,
      List.map_map, List.append_assoc]
    exact congrArg (· ++ _) (List.map_id _).symm
  | loop key value items body span =>
    rw [values, mentions, mentionsOf_cons, mentionsOf_singleton hseen, List.map_append,
      mentionsOf_valuesAll path (s.inLoop _) hbody hseen body, List.map_map]
    exact congrArg (· ++ _) (List.map_id _).symm
  | template name parameters body span =>
    have hinside : (s.inTemplate parameters).passedOver = false := by
      simp [Standing.inTemplate, hbody, hseen]
    rw [values, mentions, mentionsOf_append, mentionsOf_defaultValues hbody hseen,
      mentionsOf_valuesAll_of_inBody (s.inTemplate parameters) rfl hinside body, List.map_append,
      List.map_map, List.map_map]
    exact congrArg₂ (· ++ ·) (List.map_id _).symm (List.map_id _).symm
  | instantiation i =>
    rw [values, mentions, mentionsOf_fields hseen, List.map_map]
    exact (List.map_id _).symm

/-- Of a body outside of templates an outline records what is not passed over. -/
theorem mentionsOf_valuesAll (path : List String) (s : Standing) (hbody : s.inBody = false)
    (hseen : s.passedOver = false) (ds : List Definition) :
    mentionsOf (valuesAll s ds) = (mentionsAll path s.taken ds).map Prod.snd := by
  cases ds with
  | nil =>
    rw [valuesAll, mentionsAll]
    rfl
  | cons d ds =>
    rw [valuesAll, mentionsAll, mentionsOf_append, List.map_append,
      mentionsOf_values path s hbody hseen d,
      mentionsOf_valuesAll path (s.after d) (by rwa [Standing.inBody_after])
        (by rwa [Standing.passedOver_after]) ds, Standing.taken_after]

end

end Definition

/-- An outline records the occurrences that are not passed over, once each and in source order. -/
theorem Document.mentions_outline (path : SourcePath) (d : Document) :
    (d.outline path).mentions.map Prod.snd = d.recordedOccurrences.map Occurrence.mention :=
  (Definition.mentionsOf_valuesAll [] {} rfl rfl d.definitions).symm

namespace Index

variable {path : SourcePath} {doc : Document}

/-- The references of a file are the mentions of its outline, one after the other. -/
theorem Built.mentions_referencesIn {t : Index} {L : Ledger} {lay : Layout} (h : t.Built L lay)
    (hdoc : (path, doc) ∈ L) :
    (t.referencesIn path).map (fun r => (r.file, r.mention)) =
      doc.recordedOccurrences.map fun o => (path, o.mention) := by
  obtain ⟨f, hf, hisOf⟩ := h.exists_file _ hdoc
  have hreferences : t.referencesIn path = f.references := by
    rw [referencesIn, file?, hf]
  have houtline : f.references.map (fun r => (r.file, r.mention)) =
      (doc.outline path).mentions.map fun m => (path, m.2) := by
    rw [← List.forall₂_eq_eq_eq, List.forall₂_map_left_iff, List.forall₂_map_right_iff]
    exact hisOf.references_at.flip.imp fun _ _ hr => Prod.ext hr.2.1 hr.1
  have hmentions := congrArg (List.map fun m => (path, m)) (doc.mentions_outline path)
  rw [List.map_map, List.map_map] at hmentions
  rw [hreferences, houtline]
  exact hmentions

/-- After any run the references of a file are the occurrences of names in its document, in source
order and once each, with their names and positions, except for those in the names of objects in a
template's body and those in a template in a template's body. -/
theorem references_run (options : IndexOptions) (ops : List Operation)
    (hdoc : (path, doc) ∈ Ledger.latest ops) :
    ((run options ops).referencesIn path).map (fun r => (r.file, r.mention)) =
      doc.recordedOccurrences.map fun o => (path, o.mention) := by
  obtain ⟨lay, h, -⟩ := exists_built_run options ops
  exact h.mentions_referencesIn hdoc

/-- A file of the package `app` with a template whose body declares an object of a computed name, a
template and a field. -/
def nestingDocument : Document where
  package := some ⟨"app", .start⟩
  definitions := [.template "outer" [⟨"p", some (.reference "a" .start), .start⟩]
    [.object (.binary .concat (.string "x" true .start) (.reference "b" .start) .start) [] {},
      .template "inner" [⟨"q", some (.reference "c" .start), .start⟩]
        [.field ⟨"f", .reference "d" .start, .start⟩] {},
      .field ⟨"g", .array [.reference "p" .start, .atReference "@e" .start] .start, .start⟩] {}]
  comments := []
  pragmas := []

/-- The file is recorded after a run in which another one came and went. -/
theorem references_run_of_nesting :
    let path := SourcePath.ofText "a.pcl"
    let ops : List Operation := [.add (.ofText "b.pcl") appDocument, .add path nestingDocument,
      .remove (.ofText "b.pcl")]
    (path, nestingDocument) ∈ Ledger.latest ops ∧
      ((run {} ops).referencesIn path).map (fun r => (r.file, r.mention)) =
        nestingDocument.recordedOccurrences.map fun o => (path, o.mention) := by
  intro path ops
  have hdoc : (path, nestingDocument) ∈ Ledger.latest ops := List.mem_singleton_self _
  exact ⟨hdoc, references_run {} ops hdoc⟩

/-- Of the six names that occur in the file three are not recorded: the one in the name of the
object, and both in the inner template. -/
theorem exists_unrecorded_occurrence :
    let path := SourcePath.ofText "a.pcl"
    ((run {} [.add path nestingDocument]).referencesIn path).map (fun r => r.mention.name) =
        ["a", "p", "e"] ∧
      nestingDocument.occurrences.map Occurrence.name = ["a", "b", "c", "d", "p", "e"] := by
  decide

end Index

end SemanticIndex
