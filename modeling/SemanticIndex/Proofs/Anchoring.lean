import SemanticIndex.Proofs.Lookup
import SemanticIndex.Proofs.Runs

/-!
# Bindings Lead Somewhere

An index is anchored when the target of every link and the binding of every reference lead to
something that is there (`Index.Anchored`). Resolution finds only nodes and variables that are
there, new files take none away, and removing a file clears what dangles; so every run leaves an
anchored index (`Index.anchored_run`).
-/

namespace SemanticIndex

namespace Index

/-- No target and no binding leads to what is gone. -/
structure Anchored (t : Index) : Prop where
  target_live : ∀ {i : NodeId} {n : Node} {j : NodeId}, t.node? i = some n →
    n.target = some j → t.isLive j = true
  keep_binding : ∀ {k : List PathComponent} {f : FileRecord} {r : Reference},
    t.files[k]? = some f → r ∈ f.references → t.keepBinding r.binding = r.binding

variable {t u : Index} {L : Ledger} {lay : Layout}

/-- All nodes of `t` are there in `u`, with all their variables. -/
def Includes (u t : Index) : Prop :=
  ∀ i n, t.node? i = some n → ∃ m, u.node? i = some m ∧
    ∀ x : String, n.summary.vars.contains x = true → m.summary.vars.contains x = true

/-- Nodes that are included stay live. -/
theorem Includes.isLive (h : u.Includes t) {i : NodeId} (hi : t.isLive i = true) :
    u.isLive i = true := by
  obtain ⟨n, hn⟩ := Option.isSome_iff_exists.mp hi
  obtain ⟨m, hm, -⟩ := h i n hn
  exact isLive_of_node? hm

/-- A binding that leads somewhere still does where nothing is lost. -/
theorem Includes.keepBinding (h : u.Includes t) {b : Binding} (hb : t.keepBinding b = b) :
    u.keepBinding b = b := by
  cases b with
  | unbound => rfl
  | node id =>
    -- a binding to a node that is gone would have been cleared
    have hlive : t.isLive id = true := by
      by_contra hdead
      rw [Index.keepBinding, if_neg hdead] at hb
      cases hb
    rw [Index.keepBinding, if_pos (h.isLive hlive)]
  | var owner name =>
    rw [Index.keepBinding] at hb
    split at hb
    · rename_i n hn
      split at hb
      · rename_i hvar
        obtain ⟨m, hm, hvars⟩ := h owner n hn
        rw [Index.keepBinding, hm]
        exact if_pos (hvars name hvar)
      · cases hb
    · cases hb

/-- What is kept is kept again. -/
theorem keepBinding_keepBinding (t : Index) (b : Binding) :
    t.keepBinding (t.keepBinding b) = t.keepBinding b := by
  cases b with
  | unbound => rfl
  | node id => by_cases hid : t.isLive id <;> simp [keepBinding, hid]
  | var owner name =>
    cases hn : t.node? owner with
    | none => simp [keepBinding, hn]
    | some n => by_cases hvar : n.summary.vars.contains name <;> simp [keepBinding, hn, hvar]

/-- An index in which nodes have got other values and targets includes the index. -/
theorem includes_of_map {g : NodeId → Node → Node}
    (hnode : ∀ i, u.node? i = (t.node? i).map (g i))
    (hvars : ∀ i n, (g i n).summary.vars = n.summary.vars) : u.Includes t := by
  intro i n hn
  refine ⟨g i n, by rw [hnode, hn, Option.map_some], fun x hx => ?_⟩
  rwa [hvars]

/-- Nothing points anywhere in the empty index. -/
theorem anchored_empty (options : IndexOptions) : (empty options).Anchored where
  target_live hn htarget := by
    rw [node?_empty] at hn
    split at hn
    · rw [← Option.some.inj hn] at htarget
      cases htarget
    · cases hn
  keep_binding hf := by simp [empty] at hf

/-! ### Clearing and evaluation -/

/-- Whatever the index, nothing dangles after clearing. -/
theorem anchored_clearDangling (t : Index) : t.clearDangling.Anchored := by
  have hincludes : t.clearDangling.Includes t :=
    includes_of_map (g := fun _ n => { n with target := n.target.filter t.isLive })
      (node?_clearDangling t) fun _ _ => rfl
  refine ⟨fun {i m j} hm htarget => ?_, fun {k f r} hf hr => ?_⟩
  · rw [node?_clearDangling] at hm
    obtain ⟨n, -, rfl⟩ := Option.map_eq_some_iff.mp hm
    exact hincludes.isLive (Option.filter_eq_some_iff.mp htarget).2
  · have hfiles : t.clearDangling.files[k]? =
        (t.files[k]?).map (FileRecord.rebound fun r => t.keepBinding r.binding) :=
      Std.ExtTreeMap.getElem?_map
    rw [hfiles] at hf
    obtain ⟨f, -, rfl⟩ := Option.map_eq_some_iff.mp hf
    obtain ⟨r, -, rfl⟩ := List.mem_map.mp hr
    exact hincludes.keepBinding (keepBinding_keepBinding t r.binding)

/-- Removing a file leaves nothing that points at a node that is gone. -/
theorem Anchored.remove (h : t.Anchored) (path : SourcePath) : (t.remove path).Anchored := by
  unfold Index.remove
  split
  · exact anchored_clearDangling _
  · exact h

/-- Evaluating fields changes no target. -/
theorem Anchored.reevaluate (h : t.Anchored) (o : EvaluationOptions) :
    (t.reevaluate o).Anchored := by
  have hincludes : (t.reevaluate o).Includes t :=
    includes_of_map
      (g := fun i n => { n with summary := noteValues (t.evaluateAt o i) n.summary })
      (node?_reevaluate t o) fun _ _ => rfl
  refine ⟨fun {i m j} hm htarget => ?_, fun hf hr => hincludes.keepBinding (h.keep_binding hf hr)⟩
  rw [node?_reevaluate] at hm
  obtain ⟨n, hn, rfl⟩ := Option.map_eq_some_iff.mp hm
  exact hincludes.isLive (h.target_live hn htarget)

/-! ### Resolution -/

/-- A name resolves to a live node. -/
theorem isLive_of_resolveName?_eq {scope id : NodeId} {name : String} {accept : NodeFilter}
    (h : t.resolveName? scope name accept = some id) : t.isLive id = true := by
  obtain ⟨n, hn, -⟩ := accepted_of_resolveName?_eq h
  exact isLive_of_node? hn

/-- A variable is listed under its own name. -/
theorem name_eq_of_vars {options : IndexOptions} {n : Node} (h : n.IsCurrent options) {x : String}
    {v : VariableEntry} (hv : n.summary.vars[x]? = some v) : v.declaration.name = x := by
  obtain ⟨-, -, -, hname, -⟩ := h.exists_fragment_of_vars hv
  exact hname

/-- A mention is bound to something that is there. -/
theorem Built.keepBinding_bindingOf (h : t.Built L lay) (scope : NodeId) (m : Mention) :
    t.keepBinding (t.bindingOf scope m) = t.bindingOf scope m := by
  unfold bindingOf
  split
  · rfl
  · split
    -- a variable was found on some node on the way up, where it is still listed
    · rename_i owner v hv
      rw [resolveVariable?] at hv
      obtain ⟨before, id, after, -, hv, -⟩ := List.findSome?_eq_some_iff.mp hv
      obtain ⟨v', hv', heq⟩ := Option.map_eq_some_iff.mp hv
      obtain ⟨n, hn, hvar⟩ := Option.bind_eq_some_iff.mp hv'
      rw [Prod.mk.injEq] at heq
      obtain ⟨rfl, rfl⟩ := heq
      rw [name_eq_of_vars (h.current hn List.not_mem_nil) hvar, keepBinding, hn]
      refine if_pos ?_
      rw [Std.ExtTreeMap.contains_eq_isSome_getElem?, hvar]
      rfl
    · split
      · rfl
      · split
        · rename_i id hid
          exact if_pos (isLive_of_resolveName?_eq hid)
        · rfl

/-- After resolution nothing points at a node that is gone. -/
theorem Built.anchored_resolve (h : t.Built L lay)
    (htarget : ∀ {i n j}, t.node? i = some n → n.target = some j → t.isLive j = true) :
    t.resolve.Anchored := by
  have hincludes : t.resolve.Includes t :=
    includes_of_map (g := fun i n => { n with target := t.targetOf i n }) (node?_resolve t)
      fun _ _ => rfl
  refine ⟨fun {i m j} hm hj => ?_, fun {k f r} hf hr => ?_⟩
  · rw [node?_resolve] at hm
    obtain ⟨n, hn, rfl⟩ := Option.map_eq_some_iff.mp hm
    apply hincludes.isLive
    change t.targetOf i n = some j at hj
    rw [targetOf] at hj
    split at hj
    · exact htarget hn hj
    · exact isLive_of_resolveName?_eq hj
  · have hfiles : t.resolve.files[k]? =
        (t.files[k]?).map (FileRecord.rebound fun r => t.bindingOf r.scope r.mention) :=
      Std.ExtTreeMap.getElem?_map
    rw [hfiles] at hf
    obtain ⟨f, -, rfl⟩ := Option.map_eq_some_iff.mp hf
    obtain ⟨r, -, rfl⟩ := List.mem_map.mp hr
    exact hincludes.keepBinding (h.keepBinding_bindingOf r.scope r.mention)

/-- A copy has no targets before they are resolved anew. -/
theorem Built.anchored_copy (h : t.Built L lay) : t.copy.Anchored := by
  refine h.bareCopy.anchored_resolve fun {i m j} hm hj => ?_
  obtain ⟨id, n, -, -, rfl⟩ := exists_of_node?_bareCopy h.laid h.rooted hm
  cases hj

/-! ### New files -/

/-- Where fragments are added to a current node, no variables are lost. -/
theorem contains_vars_of_extends {options options' : IndexOptions} {n m : Node}
    (hn : n.IsCurrent options) (hm : m.IsCurrent options')
    (hfragments : n.fragments <+: m.fragments) {x : String}
    (hx : n.summary.vars.contains x = true) : m.summary.vars.contains x = true := by
  obtain ⟨new, hnew⟩ := hfragments
  rw [hn.vars_eq, Std.ExtTreeMap.contains_ofList] at hx
  rw [hm.vars_eq, Std.ExtTreeMap.contains_ofList, ← hnew, List.flatMap_append, List.map_append,
    List.contains_iff_mem, List.mem_append]
  exact Or.inl (List.contains_iff_mem.mp hx)

section

variable {u : Index} {lay' : Layout} {ids : List NodeId} {path : SourcePath} {doc : Document}
  {top : NodeId}

/-- A new file takes nothing away. -/
theorem Laying.includes (h : t.Built L lay) (hnew : t.hasFile path = false)
    (hlaying : t.Laying lay ((doc.outline path).visited path)
      (L.deposits ++ (doc.outline path).deposits path) u lay' ids)
    (htop : lay' ((doc.outline path).topAddress path) = some top) :
    ((ids.foldl Index.refresh u).recorded path (doc.outline path) top ids).Includes t := by
  have hbuilt := hlaying.built h hnew htop
  intro i n hn
  obtain ⟨a, ha⟩ := h.laid.exists_address hn
  obtain ⟨m, hm⟩ := hbuilt.laid.exists_node (hlaying.layout.keep ha)
  have hfragments : n.fragments <+: m.fragments :=
    h.fragments_extend (Ledger.deposits_concat L path doc ▸ hbuilt.toHolds) ha
      (hlaying.layout.keep ha) hn hm
  exact ⟨m, hm, fun x hx => contains_vars_of_extends (h.current hn List.not_mem_nil)
    (hbuilt.current hm List.not_mem_nil) hfragments hx⟩

/-- Nor does it set a target. -/
theorem Laying.exists_target (hlaying : t.Laying lay ((doc.outline path).visited path)
      (L.deposits ++ (doc.outline path).deposits path) u lay' ids) {i : NodeId} {m : Node}
    (hm : (ids.foldl Index.refresh u).node? i = some m) (htarget : m.target ≠ none) :
    ∃ n, t.node? i = some n ∧ n.target = m.target := by
  rw [node?_foldl_refresh] at hm
  split at hm
  -- summing up takes targets away and sets none
  · obtain ⟨k, hk, rfl⟩ := Option.map_eq_some_iff.mp hm
    have hkeep : (k.refreshed u.options).target = k.target := by
      rw [Node.refreshed] at htarget ⊢
      dsimp only at htarget ⊢
      split at htarget
      · rw [if_pos ‹_›]
      · exact absurd rfl htarget
    rw [hkeep] at htarget ⊢
    exact hlaying.extended.target hk htarget
  · exact hlaying.extended.target hm htarget

/-- Contributing a file takes no node away, so that targets stay live. -/
theorem Built.anchored_contribute (h : t.Built L lay) (ht : t.Anchored)
    (hnew : t.hasFile path = false) (doc : Document) :
    (t.contribute path (doc.outline path)).Anchored := by
  obtain ⟨u, lay', ids, top, hlaying, htop, heq⟩ := h.exists_contribute_eq hnew doc
  have hincludes := hlaying.includes h hnew htop
  have hsame := hlaying.extended.toSameFiles.trans (SameFiles.foldl sameFiles_refresh ids u)
  rw [heq]
  refine ⟨fun {i m j} hm hj => ?_, fun {k f r} hf hr => ?_⟩
  · obtain ⟨n, hn, htarget⟩ := hlaying.exists_target hm (by simp [hj])
    exact hincludes.isLive (ht.target_live hn (htarget.trans hj))
  · rw [recorded, Std.ExtTreeMap.getElem?_insert] at hf
    split at hf
    -- the references of the new file are not bound yet
    · rw [← Option.some.inj hf] at hr
      obtain ⟨m, -, rfl⟩ := List.mem_map.mp hr
      rfl
    · rw [hsame.files_eq] at hf
      exact hincludes.keepBinding (ht.keep_binding hf hr)

end

/-! ### Runs -/

/-- An operation on an anchored index leaves an anchored one. -/
theorem Built.anchored_apply (h : t.Built L lay) (ht : t.Anchored) (op : Operation) :
    (t.apply op).Anchored := by
  cases op with
  | add path doc =>
    obtain ⟨lay', hremoved⟩ := h.exists_remove path
    exact hremoved.anchored_contribute (ht.remove path) (h.hasFile_remove path) doc
  | remove path => exact ht.remove path
  | resolve => exact h.anchored_resolve ht.target_live
  | reevaluate options => exact ht.reevaluate options
  | copy => exact h.anchored_copy

/-- After any run every target and every binding leads to something that is there. -/
theorem anchored_run (options : IndexOptions) (ops : List Operation) :
    (run options ops).Anchored :=
  run_induction options (anchored_empty options) (fun _ h ht => h.anchored_apply ht _) ops

end Index

end SemanticIndex
