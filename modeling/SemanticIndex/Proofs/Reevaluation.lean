import SemanticIndex.Proofs.Bookkeeping
import SemanticIndex.Proofs.Fidelity

/-!
# Evaluating All Fields

All field entries of an index can be evaluated by one evaluator, which goes from entry to entry with
one list of expansions, and noted afterwards, one entry after the other
(`Index.reevaluateInOrder`). Neither what the evaluator has met before an entry nor the order of the
entries matters: each entry gets the value that it has in its node in the index before the first
note. Nothing but these values changes, and evaluating all fields again changes nothing
(`Index.reevaluate_run`).

An index is determined by its field entries and by what it is without values
(`Index.eq_of_entryAt?`).
-/

namespace SemanticIndex

/-- Where a field entry stands. -/
@[ext]
structure EntryPlace where
  node : NodeId
  field : String
  /-- The number of entries of the field before it. -/
  index : Nat
  deriving DecidableEq

/-- The entry with a value noted. -/
def FieldEntry.note (v : Value) (e : FieldEntry) : FieldEntry := { e with evaluated := some v }

/-- Notes a value on one entry of a field, if there is such an entry. -/
def Summary.noteAt (field : String) (index : Nat) (v : Value) (s : Summary) : Summary :=
  { s with fields := s.fields.modify field fun entries => entries.modify index (.note v) }

namespace Index

/-- The index as it was before any evaluation. -/
def withoutValues (t : Index) : Index := { t with nodes := t.nodes.map fun _ n => n.withoutValues }

/-- The field entry at a place. -/
def entryAt? (t : Index) (p : EntryPlace) : Option FieldEntry :=
  (t.node? p.node).bind fun n => n.summary.fields[p.field]?.bind fun entries => entries[p.index]?

/-- All field entries, each with its place. -/
def entries (t : Index) : List (EntryPlace × FieldEntry) :=
  t.nodes.toList.flatMap fun (i, n) => n.summary.fields.toList.flatMap fun (x, entries) =>
    entries.zipIdx.map fun (e, k) => (⟨i, x, k⟩, e)

/-- Notes a value on the entry at a place, if there is one. -/
def noteAt (t : Index) (p : EntryPlace) (v : Value) : Index :=
  t.modifyNode p.node fun n => { n with summary := n.summary.noteAt p.field p.index v }

/-- Evaluates an entry in its node. -/
def evaluateEntry (t : Index) (o : EvaluationOptions) (r : EntryPlace × FieldEntry) :
    Tracked (EntryPlace × Value) := do
  return (r.1, ← evaluateTracked o (.ofIndex t (some r.1.node)) r.2.value)

/-- Evaluates the entries in the given order, with one list of expansions for all of them, and then
notes the results in this order. Gives the index with the notes and the number of results. -/
def reevaluateInOrder (t : Index) (o : EvaluationOptions)
    (visited : List (EntryPlace × FieldEntry)) : Tracked (Index × Nat) := do
  let results ← visited.mapM (t.evaluateEntry o)
  return (results.foldl (fun u r => u.noteAt r.1 r.2) t, results.length)

end Index

/-! ### Entries -/

namespace Summary

variable {s s' : Summary}

/-- Noting a value changes one entry of one field. -/
theorem getElem?_fields_noteAt (field : String) (index : Nat) (v : Value) (s : Summary)
    (x : String) :
    (s.noteAt field index v).fields[x]? = (s.fields[x]?).map fun entries =>
      if x = field then entries.modify index (.note v) else entries := by
  by_cases hx : field = x
  · simp [noteAt, hx]
  · simp [noteAt, Std.ExtTreeMap.getElem?_modify, hx, Ne.symm hx]

/-- Nothing but values is noted. -/
theorem withoutValues_noteAt (field : String) (index : Nat) (v : Value) (s : Summary) :
    (s.noteAt field index v).withoutValues = s.withoutValues := by
  have hlist : ∀ entries : List FieldEntry,
      (entries.modify index (.note v)).map FieldEntry.withoutValue =
        entries.map FieldEntry.withoutValue := by
    intro entries
    refine List.ext_getElem? fun k => ?_
    rw [List.getElem?_map, List.getElem?_map, List.getElem?_modify, Option.map_eq_map,
      Option.map_map]
    refine Option.map_congr fun e _ => ?_
    rw [Function.comp_apply]
    split <;> rfl
  have hfields : ((s.noteAt field index v).fields.map fun _ entries =>
      entries.map FieldEntry.withoutValue) =
        s.fields.map fun _ entries => entries.map FieldEntry.withoutValue := by
    refine Std.ExtTreeMap.ext_getElem? fun x => ?_
    rw [Std.ExtTreeMap.getElem?_map, Std.ExtTreeMap.getElem?_map, getElem?_fields_noteAt,
      Option.map_map]
    refine Option.map_congr fun entries _ => ?_
    rw [Function.comp_apply]
    split
    · exact hlist entries
    · rfl
  unfold withoutValues
  rw [hfields]
  rfl

/-- A summary is determined by its entries and by what it is without values. -/
theorem eq_of_entries (hwithout : s.withoutValues = s'.withoutValues)
    (hentries : ∀ (x : String) (k : Nat),
      (s.fields[x]?.bind fun entries => entries[k]?) =
        s'.fields[x]?.bind fun entries => entries[k]?) : s = s' := by
  have hfields : s.fields = s'.fields := by
    refine Std.ExtTreeMap.ext_getElem? fun x => ?_
    -- a field is held by both or by neither
    have hheld := congrArg (fun s : Summary => s.fields[x]?) hwithout
    simp only [withoutValues, Std.ExtTreeMap.getElem?_map] at hheld
    have hx := hentries x
    cases hs : s.fields[x]? with
    | none =>
      rw [hs, Option.map_none, eq_comm, Option.map_eq_none_iff] at hheld
      exact hheld.symm
    | some entries =>
      rw [hs, Option.map_some, eq_comm, Option.map_eq_some_iff] at hheld
      obtain ⟨entries', hs', -⟩ := hheld
      rw [hs'] at hx ⊢
      rw [hs] at hx
      exact congrArg some (List.ext_getElem? hx)
  obtain ⟨doc, metadata, pragmas, vars, fields, conditional⟩ := s
  obtain ⟨doc', metadata', pragmas', vars', fields', conditional'⟩ := s'
  simp only [withoutValues, Summary.mk.injEq] at hwithout
  obtain ⟨rfl, rfl, rfl, rfl, -, rfl⟩ := hwithout
  exact congrArg (fun fields => Summary.mk _ _ _ _ fields _) hfields

end Summary

namespace Index

variable {t u : Index} {L : Ledger} {lay : Layout} {p q : EntryPlace} {e : FieldEntry}
  {o : EvaluationOptions}

theorem node?_withoutValues (t : Index) (i : NodeId) :
    t.withoutValues.node? i = (t.node? i).map Node.withoutValues :=
  Std.ExtTreeMap.getElem?_map

/-- The entries at a place stand in the summary of its node. -/
theorem entryAt?_of_node? {n : Node} (hn : t.node? p.node = some n) :
    t.entryAt? p = n.summary.fields[p.field]?.bind fun entries => entries[p.index]? := by
  rw [entryAt?, hn, Option.bind_some]

/-- An index is determined by its field entries and by what it is without values. -/
theorem eq_of_entryAt? (hwithout : u.withoutValues = t.withoutValues)
    (hentries : ∀ p, u.entryAt? p = t.entryAt? p) : u = t := by
  have hnodes : u.nodes = t.nodes := by
    refine Std.ExtTreeMap.ext_getElem? fun i => ?_
    show u.node? i = t.node? i
    have hheld := congrArg (fun t : Index => t.node? i) hwithout
    simp only [node?_withoutValues] at hheld
    cases hu : u.node? i with
    | none =>
      rw [hu, Option.map_none, eq_comm, Option.map_eq_none_iff] at hheld
      exact hheld.symm
    | some m =>
      rw [hu, Option.map_some, eq_comm, Option.map_eq_some_iff] at hheld
      obtain ⟨n, hn, hnode⟩ := hheld
      -- a summary is its entries and what it is without their values
      have hsummary : m.summary = n.summary := by
        refine Summary.eq_of_entries (congrArg Node.summary hnode).symm fun x k => ?_
        have hentry := hentries ⟨i, x, k⟩
        rwa [entryAt?_of_node? hu, entryAt?_of_node? hn] at hentry
      rw [hn]
      obtain ⟨name, realName, above, children, fragments, summary, target⟩ := n
      obtain ⟨name', realName', above', children', fragments', summary', target'⟩ := m
      simp only [Node.withoutValues, Node.mk.injEq] at hnode
      obtain ⟨rfl, rfl, rfl, rfl, rfl, -, rfl⟩ := hnode
      exact congrArg (fun summary => some (Node.mk _ _ _ _ _ summary _)) hsummary
  obtain ⟨options, nodes, nextId, names, files, registrations⟩ := t
  obtain ⟨options', nodes', nextId', names', files', registrations'⟩ := u
  simp only [withoutValues, Index.mk.injEq] at hwithout
  obtain ⟨rfl, -, rfl, rfl, rfl, rfl⟩ := hwithout
  exact congrArg (fun nodes => Index.mk _ nodes _ _ _ _) hnodes

theorem mem_entries_iff : (p, e) ∈ t.entries ↔ t.entryAt? p = some e := by
  obtain ⟨i, x, k⟩ := p
  simp only [entries, entryAt?, node?, List.mem_flatMap, List.mem_map, Option.bind_eq_some_iff]
  constructor
  · rintro ⟨⟨i, n⟩, hn, ⟨x, entries⟩, hentries, ⟨e, k⟩, hentry, heq⟩
    obtain ⟨hplace, rfl⟩ := Prod.mk.inj heq
    obtain ⟨rfl, rfl, rfl⟩ := EntryPlace.mk.inj hplace
    exact ⟨n, Std.ExtTreeMap.mem_toList_iff_getElem?_eq_some.mp hn, entries,
      Std.ExtTreeMap.mem_toList_iff_getElem?_eq_some.mp hentries,
      List.mk_mem_zipIdx_iff_getElem?.mp hentry⟩
  · rintro ⟨n, hn, entries, hentries, hentry⟩
    exact ⟨(i, n), Std.ExtTreeMap.mem_toList_iff_getElem?_eq_some.mpr hn, (x, entries),
      Std.ExtTreeMap.mem_toList_iff_getElem?_eq_some.mpr hentries, (e, k),
      List.mk_mem_zipIdx_iff_getElem?.mpr hentry, rfl⟩

/-- The entries of an index are its field entries. -/
theorem map_snd_entries (t : Index) : t.entries.map Prod.snd = t.fieldEntries := by
  have hentries : ∀ (i : NodeId) (x : String) (entries : List FieldEntry),
      (entries.zipIdx.map fun (e, k) => ((⟨i, x, k⟩ : EntryPlace), e)).map Prod.snd = entries := by
    intro i x entries
    rw [List.map_map]
    exact List.zipIdx_map_fst 0 entries
  simp only [entries, fieldEntries, values_eq_map_toList, List.map_flatMap, List.flatMap_map,
    hentries, List.flatten_eq_flatMap]
  rfl

/-! ### Notes -/

/-- Noting a value changes the entry at the place only. -/
theorem entryAt?_noteAt (t : Index) (p q : EntryPlace) (v : Value) :
    (t.noteAt p v).entryAt? q = (t.entryAt? q).map fun e => if q = p then e.note v else e := by
  rw [entryAt?, entryAt?, noteAt, node?_modifyNode]
  by_cases hnode : q.node = p.node
  · rw [if_pos hnode]
    cases t.node? q.node with
    | none => rfl
    | some n =>
      simp only [Option.map_some, Option.bind_some, Summary.getElem?_fields_noteAt]
      cases n.summary.fields[q.field]? with
      | none => rfl
      | some entries =>
        by_cases hfield : q.field = p.field
        · simp [EntryPlace.ext_iff, hnode, hfield, List.getElem?_modify, eq_comm]
        · simp [EntryPlace.ext_iff, hfield]
  · simp [EntryPlace.ext_iff, hnode]

/-- Noting a value changes nothing but the value. -/
theorem withoutValues_noteAt (t : Index) (p : EntryPlace) (v : Value) :
    (t.noteAt p v).withoutValues = t.withoutValues := by
  have hnodes : ((t.noteAt p v).nodes.map fun _ n => n.withoutValues) =
      t.nodes.map fun _ n => n.withoutValues := by
    refine Std.ExtTreeMap.ext_getElem? fun i => ?_
    rw [Std.ExtTreeMap.getElem?_map, Std.ExtTreeMap.getElem?_map]
    show ((t.noteAt p v).node? i).map _ = (t.node? i).map _
    rw [noteAt, node?_modifyNode]
    split
    · rw [Option.map_map]
      refine Option.map_congr fun n _ => ?_
      rw [Function.comp_apply, Node.withoutValues, Node.withoutValues, Summary.withoutValues_noteAt]
    · rfl
  unfold withoutValues
  rw [hnodes]
  rfl

/-- Evaluating fields notes at each place the value of the entry there. -/
theorem entryAt?_reevaluate (t : Index) (o : EvaluationOptions) (p : EntryPlace) :
    (t.reevaluate o).entryAt? p =
      (t.entryAt? p).map fun e => e.note (t.evaluateAt o p.node e.value) := by
  rw [entryAt?, entryAt?, node?_reevaluate]
  cases t.node? p.node with
  | none => rfl
  | some n =>
    simp only [Option.map_some, Option.bind_some, noteValues, Std.ExtTreeMap.getElem?_map]
    cases n.summary.fields[p.field]? with
    | none => rfl
    | some entries => exact List.getElem?_map

/-- Evaluating fields changes nothing but values. -/
theorem withoutValues_reevaluate (t : Index) (o : EvaluationOptions) :
    (t.reevaluate o).withoutValues = t.withoutValues := by
  have hnodes : ((t.reevaluate o).nodes.map fun _ n => n.withoutValues) =
      t.nodes.map fun _ n => n.withoutValues := by
    refine Std.ExtTreeMap.ext_getElem? fun i => ?_
    rw [reevaluate, Std.ExtTreeMap.getElem?_map, Std.ExtTreeMap.getElem?_map,
      Std.ExtTreeMap.getElem?_map, Option.map_map]
    refine Option.map_congr fun n _ => ?_
    rw [Function.comp_apply, Node.withoutValues, Node.withoutValues,
      Summary.withoutValues_noteValues]
  unfold withoutValues
  rw [hnodes]
  rfl

/-- One note after the other, where the value depends on the place alone. -/
theorem entryAt?_foldl_noteAt {g : EntryPlace → Value} (results : List (EntryPlace × Value))
    (hg : ∀ r ∈ results, r.2 = g r.1) (t : Index) (q : EntryPlace) :
    (results.foldl (fun u r => u.noteAt r.1 r.2) t).entryAt? q =
      (t.entryAt? q).map fun e => if q ∈ results.map Prod.fst then e.note (g q) else e := by
  induction results generalizing t with
  | nil => simp
  | cons r results ih =>
    obtain ⟨hr, hresults⟩ := List.forall_mem_cons.mp hg
    rw [List.foldl_cons, ih hresults, entryAt?_noteAt, Option.map_map, hr]
    refine Option.map_congr fun e _ => ?_
    simp only [Function.comp_apply, List.map_cons, List.mem_cons]
    by_cases hq : q = r.1
    · simp only [hq, if_true, true_or]
      split <;> rfl
    · simp only [hq, if_false, false_or]

/-- Noting some values changes nothing but values. -/
theorem withoutValues_foldl_noteAt (results : List (EntryPlace × Value)) (t : Index) :
    (results.foldl (fun u r => u.noteAt r.1 r.2) t).withoutValues = t.withoutValues := by
  induction results generalizing t with
  | nil => rfl
  | cons r results ih => rw [List.foldl_cons, ih, withoutValues_noteAt]

/-! ### One evaluator for all entries -/

/-- The evaluator finds for each entry what the index makes of it, and ends with no expansion in
progress. -/
theorem run_mapM_evaluateEntry (t : Index) (o : EvaluationOptions)
    (visited : List (EntryPlace × FieldEntry)) :
    (visited.mapM (t.evaluateEntry o)).run [] =
      (visited.map fun r => (r.1, t.evaluateAt o r.1.node r.2.value), []) := by
  have hentry : ∀ r : EntryPlace × FieldEntry, Restores (t.evaluateEntry o r) fun active =>
      (r.1, valueOf o.zeroDivision o.maxDepth active (.ofIndex t (some r.1.node)) r.2.value) :=
    fun r => (restores_evaluateTracked o _ r.2.value).bind fun v => .pure (r.1, v)
  exact Restores.mapM (fun r _ => hentry r) []

/-- In whatever order the entries are visited, the result is the same. -/
theorem run_reevaluateInOrder (t : Index) (o : EvaluationOptions)
    {visited : List (EntryPlace × FieldEntry)} (h : visited.Perm t.entries) :
    (t.reevaluateInOrder o visited).run [] = ((t.reevaluate o, t.fieldEntries.length), []) := by
  let results := visited.map fun r => (r.1, t.evaluateAt o r.1.node r.2.value)
  -- the result at a place is the value of the entry there
  let g : EntryPlace → Value := fun p =>
    ((t.entryAt? p).map fun e => t.evaluateAt o p.node e.value).getD default
  have hg : ∀ r ∈ results, r.2 = g r.1 := by
    intro r hr
    obtain ⟨⟨p, e⟩, hp, rfl⟩ := List.mem_map.mp hr
    have hentry : t.entryAt? p = some e := mem_entries_iff.mp (h.mem_iff.mp hp)
    simp only [g, hentry, Option.map_some, Option.getD_some]
  have hindex : results.foldl (fun u r => u.noteAt r.1 r.2) t = t.reevaluate o := by
    refine eq_of_entryAt? ?_ fun p => ?_
    · rw [withoutValues_foldl_noteAt, withoutValues_reevaluate]
    · rw [entryAt?_foldl_noteAt results hg, entryAt?_reevaluate]
      refine Option.map_congr fun e he => ?_
      have hvisited : p ∈ results.map Prod.fst := by
        rw [List.map_map]
        exact List.mem_map.mpr ⟨(p, e), h.mem_iff.mpr (mem_entries_iff.mpr he), rfl⟩
      simp only [if_pos hvisited, g, he, Option.map_some, Option.getD_some]
  have hcount : results.length = t.fieldEntries.length := by
    rw [List.length_map, h.length_eq, ← map_snd_entries, List.length_map]
  rw [reevaluateInOrder, StateT.run_bind, run_mapM_evaluateEntry, ← hindex, ← hcount]
  rfl

/-! ### Evaluating once more -/

/-- Names have the same values in the index with the notes. -/
theorem Built.evaluateAt_reevaluate (h : t.Built L lay) {i : NodeId} (hi : t.isLive i = true)
    (v : Value) : (t.reevaluate o).evaluateAt o i v = t.evaluateAt o i v :=
  h.evaluateAt_relabel (ρ := id) ((Layout.relabel_id lay).symm ▸ h.reevaluate o) o hi v

/-- The notes of a second evaluation are those of the first. -/
theorem Built.reevaluate_reevaluate (h : t.Built L lay) (o : EvaluationOptions) :
    (t.reevaluate o).reevaluate o = t.reevaluate o := by
  refine eq_of_entryAt? (withoutValues_reevaluate _ o) fun p => ?_
  rw [entryAt?_reevaluate, entryAt?_reevaluate, Option.map_map]
  refine Option.map_congr fun e he => ?_
  obtain ⟨n, hn, -⟩ := Option.bind_eq_some_iff.mp he
  rw [Function.comp_apply, h.evaluateAt_reevaluate (isLive_of_node? hn)]
  rfl

/-- After any run, evaluating all fields notes on each entry the value that it has in its node, as
the index is before, and changes nothing else: not what the index is without the values, and not its
listing. One evaluator that visits the entries in any order comes to the same index, counts all
entries and ends with no expansion in progress. Evaluating all fields again changes nothing. -/
theorem reevaluate_run (options : IndexOptions) (ops : List Operation) (o : EvaluationOptions) :
    let t := run options ops
    let u := t.reevaluate o
    (∀ visited : List (EntryPlace × FieldEntry), visited.Perm t.entries →
      (t.reevaluateInOrder o visited).run [] = ((u, t.fieldEntries.length), [])) ∧
    (∀ p, u.entryAt? p =
      (t.entryAt? p).map fun e => e.note (t.evaluateAt o p.node e.value)) ∧
    u.withoutValues = t.withoutValues ∧ u.listing = t.listing ∧ u.reevaluate o = u := by
  intro t u
  obtain ⟨lay, h, -⟩ := exists_built_run options ops
  have hu : u.Built (Ledger.latest ops) (lay.relabel id) :=
    (Layout.relabel_id lay).symm ▸ h.reevaluate o
  refine ⟨fun _ => t.run_reevaluateInOrder o, t.entryAt?_reevaluate o,
    t.withoutValues_reevaluate o, ?_, h.reevaluate_reevaluate o⟩
  rw [listing, listing, h.lines_eq hu rfl]

/-- A file of the package `app` with a field on a cycle of variables and with two entries of a
field, one of which leads to a number over two variables. -/
def entangledDocument : Document where
  package := some ⟨"app", .start⟩
  definitions := [
    .var ⟨"a", "", some (.binary .add (.atReference "b" .start) (.int 1 .start) .start), false,
      .start⟩,
    .var ⟨"b", "", some (.atReference "a" .start), false, .start⟩,
    .var ⟨"far", "", some (.atReference "near" .start), false, .start⟩,
    .var ⟨"near", "", some (.int 7 .start), false, .start⟩,
    .field ⟨"Cycle", .atReference "a" .start, .start⟩,
    .field ⟨"Count", .atReference "far" .start, .start⟩,
    .field ⟨"Count", .atReference "near" .start, .start⟩]
  comments := []
  pragmas := []

/-- The last entry may be visited first, also where the limit cuts a value off. -/
theorem reevaluate_run_reversed :
    let t := run {} [.add (.ofText "a.pcl") entangledDocument]
    let o : EvaluationOptions := { maxDepth := 1 }
    let visited := t.entries.reverse
    visited.Perm t.entries ∧ t.fieldEntries.length = 3 ∧
      (t.reevaluateInOrder o visited).run [] = ((t.reevaluate o, 3), []) := by
  intro t o visited
  have hperm : visited.Perm t.entries := t.entries.reverse_perm
  have hcount : t.fieldEntries.length = 3 := by decide
  refine ⟨hperm, hcount, ?_⟩
  rw [← hcount]
  exact (reevaluate_run {} _ o).1 visited hperm

end Index

end SemanticIndex
