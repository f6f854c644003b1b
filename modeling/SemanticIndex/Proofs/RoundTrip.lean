import SemanticIndex.Proofs.Anchoring

/-!
# Adding a File and Removing It

A file that is added and removed again leaves no trace: the nodes that it made are pruned, the
others hold what they held, and no list of the name table is in another order
(`Index.Retains`). All that the index forgets are the values that evaluation had noted on the nodes
that the file came to, and the numbers that it has handed out stay used
(`Index.Built.remove_add`).
-/

namespace SemanticIndex

namespace NameTable

variable {names : NameTable} {ids : List NodeId} {s name old new : String} {id : NodeId}

/-- Nodes stay listed in their order when one is added. -/
theorem sublist_get_add (h : ids.Sublist (names.get s)) :
    ids.Sublist ((names.add name id).get s) := by
  rw [get_add]
  split
  · rename_i hs
    rw [hs.1] at h
    exact h.trans (List.sublist_append_left _ _)
  · exact h

/-- A node that is not among `ids` may be taken away. -/
theorem sublist_get_remove (h : ids.Sublist (names.get s)) (hid : s = name → id ∉ ids) :
    ids.Sublist ((names.remove name id).get s) := by
  rw [get_remove]
  split
  · rename_i hs
    have hkeep : ids.filter (· != id) = ids := by
      refine List.filter_eq_self.mpr fun j hj => bne_iff_ne.mpr ?_
      rintro rfl
      exact hid hs hj
    rw [hs] at h
    rw [← hkeep]
    exact h.filter _
  · exact h

/-- Nodes stay listed in their order when another one is renamed. -/
theorem sublist_get_rename (h : ids.Sublist (names.get s))
    (hid : s = old → old ≠ new → old ≠ name → id ∉ ids) :
    ids.Sublist ((names.rename id name old new).get s) := by
  unfold rename
  split
  · exact h
  · rename_i hnew
    apply sublist_get_add
    split
    · exact h
    · rename_i hname
      exact sublist_get_remove h fun hs => hid hs hnew hname

end NameTable

namespace Index

variable {t u : Index} {L : Ledger} {lay : Layout}

/-! ### The order of the names -/

/-- Every list of `t` is left in order in `u`, and summing up a node of `t` in `u` will not take it
from a list of `t`. -/
structure Retains (t u : Index) : Prop where
  names : ∀ s, (t.names.get s).Sublist (u.names.get s)
  stable : ∀ {i : NodeId} {n m : Node}, t.node? i = some n → u.node? i = some m →
    m.name = n.name ∧ (m.declaredRealName = n.realName ∨ n.realName = n.name)

/-- Refreshing a node retains the names. -/
theorem Retains.refresh (ht : t.Named) (h : t.Retains u) (id : NodeId) :
    t.Retains (u.refresh id) := by
  refine ⟨fun s => ?_, fun {i n m} hn hm => ?_⟩
  · unfold Index.refresh
    split
    · exact h.names s
    · rename_i m hm
      refine NameTable.sublist_get_rename (h.names s) fun hs hnew hname hmem => ?_
      obtain ⟨n, hn, hns⟩ := (ht.mem_iff s id).mp hmem
      obtain ⟨hmn, hstable⟩ := h.stable hn hm
      -- a real name other than the plain one stays the real name
      rcases hns with hns | hns
      · exact hname (hs.symm.trans (hns.symm.trans hmn.symm))
      · rcases hstable with hreal | hreal
        · exact hnew (hs.symm.trans (hns.symm.trans hreal.symm))
        · exact hname (hs.symm.trans (hns.symm.trans (hreal.trans hmn.symm)))
  · rw [node?_refresh] at hm
    split at hm
    · obtain ⟨k, hk, rfl⟩ := Option.map_eq_some_iff.mp hm
      have hstable := h.stable hn hk
      exact hstable
    · exact h.stable hn hm

/-- Refreshing some nodes retains the names. -/
theorem Retains.foldl_refresh (ht : t.Named) (h : t.Retains u) (ids : List NodeId) :
    t.Retains (ids.foldl Index.refresh u) := by
  induction ids generalizing u with
  | nil => exact h
  | cons id ids ih => exact ih (h.refresh ht id)

/-- More fragments on a current node do not change a real name that is not the plain name. -/
theorem declaredRealName_of_extends {options : IndexOptions} {n m : Node}
    (hn : n.IsCurrent options) (hname : m.name = n.name) (hbegins : n.fragments <+: m.fragments) :
    m.declaredRealName = n.realName ∨ n.realName = n.name := by
  obtain ⟨new, hnew⟩ := hbegins
  rw [hn.realName_eq, Node.declaredRealName, Node.declaredRealName, ← hnew, hname, List.map_append,
    List.find?_append]
  -- the first declared name other than the plain one decides, and it does not come later
  cases (n.fragments.map Fragment.declaredName).find? fun d => d != "" && d != n.name with
  | none => exact Or.inr rfl
  | some d => exact Or.inl rfl

/-! ### One node, there and back -/

/-- What becomes of a node when fragments are added to it, it is summed up, the fragments are taken
away, and it is summed up again: what it was, without values. -/
theorem refreshed_roundTrip {options : IndexOptions} {n k : Node} {path : SourcePath}
    (hn : n.IsCurrent options) (htarget : k.target = n.target)
    (hbegins : n.fragments <+: k.fragments)
    (hback : k.fragments.filter (fun f => !f.file.same path) = n.fragments) :
    (((k.refreshed options).withoutFile path).refreshed options).summary =
        n.withoutValues.summary ∧
      (((k.refreshed options).withoutFile path).refreshed options).target = n.target := by
  have hsummary : (((k.refreshed options).withoutFile path).refreshed options).summary =
      .ofFragments options (k.fragments.filter fun f => !f.file.same path) := rfl
  have hlink : ((k.refreshed options).withoutFile path).isLink options = n.isLink options := by
    rw [Node.isLink, Node.isLink, ← hback]
    rfl
  -- the summary is made anew from the fragments; the target stays as long as the node is a link
  refine ⟨?_, ?_⟩
  · rw [hsummary, hback, ← hn.summary_eq]
    rfl
  · have hstep : (((k.refreshed options).withoutFile path).refreshed options).target =
        if n.isLink options then (if k.isLink options then n.target else none) else none := by
      rw [← hlink, ← htarget]
      rfl
    rw [hstep]
    cases ht : n.target with
    | none => simp
    | some j =>
      -- what makes the node a link is still among the fragments of `k`
      have hlinked : n.isLink options = true := hn.isLink_of_target (by simp [ht])
      rw [if_pos hlinked, if_pos (Node.isLink_of_isPrefix hlinked hbegins)]

/-! ### A file, there and back -/

/-- The nodes that a file has come to. -/
def nodesOf (t : Index) (path : SourcePath) : List NodeId :=
  match t.file? path with
  | some f => f.nodes
  | none => []

/-- The index without the values that evaluation has noted on some nodes. -/
def forgetValues (t : Index) (ids : List NodeId) : Index :=
  { t with nodes := t.nodes.map fun i n => if i ∈ ids then n.withoutValues else n }

/-- In two indexes that are built from one ledger in one layout the nodes are the same but for
values and targets. -/
theorem Built.node_congr (h : t.Built L lay) (hu : u.Built L lay) {i : NodeId} {n m : Node}
    (hn : t.node? i = some n) (hm : u.node? i = some m) :
    m = { n with summary := m.summary, target := m.target } := by
  obtain ⟨a, ha⟩ := h.laid.exists_address hn
  have hname : m.name = n.name := by rw [hu.laid.name_eq ha hm, h.laid.name_eq ha hn]
  have hfragments : m.fragments = n.fragments := by
    rw [hu.fragments_eq ha hm, h.fragments_eq ha hn]
  have hreal : m.realName = n.realName := by
    rw [(hu.current hm List.not_mem_nil).realName_eq, (h.current hn List.not_mem_nil).realName_eq,
      Node.declaredRealName, Node.declaredRealName, hname, hfragments]
  have habove : m.above = n.above := by rw [hu.laid.above_eq ha hm, h.laid.above_eq ha hn]
  have hchildren : m.children = n.children := by
    refine Std.ExtTreeMap.ext_getElem? fun x => ?_
    rw [hu.laid.child_eq ha hm, h.laid.child_eq ha hn]
  cases m
  rw [Node.mk.injEq]
  exact ⟨hname, hreal, habove, hchildren, hfragments, rfl, rfl⟩

/-- A layout with fewer nodes of the index with the file that is one of the ledger without the file
is the layout from before. -/
theorem Built.layout_eq {v : Index} {lay' lay'' : Layout} (h : t.Built L lay)
    (hkeep : ∀ {a : Address} {id : NodeId}, lay a = some id → lay' a = some id)
    (honly : ∀ {a : Address} {id : NodeId}, lay'' a = some id → lay' a = some id)
    (hv : v.Built L lay'') : lay'' = lay := by
  funext a
  -- both are taken at the addresses that the ledger says, and no number has changed
  cases ha : lay a with
  | some i =>
    obtain ⟨j, hj⟩ := hv.taken_iff.mpr (h.taken_iff.mp ⟨i, ha⟩)
    rw [hj, ← honly hj, hkeep ha]
  | none =>
    rw [Option.eq_none_iff_forall_ne_some]
    intro j hj
    obtain ⟨i, hi⟩ := h.taken_iff.mpr (hv.taken_iff.mp ⟨j, hj⟩)
    rw [ha] at hi
    cases hi

/-- An index in which the same nodes have the same fragments includes the index. -/
theorem Built.includes (h : t.Built L lay) (hu : u.Built L lay) : u.Includes t := by
  intro i n hn
  obtain ⟨a, ha⟩ := h.laid.exists_address hn
  obtain ⟨m, hm⟩ := hu.laid.exists_node ha
  refine ⟨m, hm, fun x hx => ?_⟩
  have hfragments : n.fragments = m.fragments :=
    (h.fragments_eq ha hn).trans (hu.fragments_eq ha hm).symm
  exact contains_vars_of_extends (h.current hn List.not_mem_nil) (hu.current hm List.not_mem_nil)
    (hfragments ▸ List.prefix_rfl) hx

/-- Targets that lead somewhere are not cleared. -/
theorem Anchored.filter_target (ht : t.Anchored) (hincludes : u.Includes t) {i : NodeId} {n : Node}
    (hn : t.node? i = some n) : n.target.filter u.isLive = n.target := by
  cases hj : n.target with
  | none => rfl
  | some j => rw [Option.filter_some, if_pos (hincludes.isLive (ht.target_live hn hj))]

/-- Nor are bindings. -/
theorem Anchored.files_eq (ht : t.Anchored) (hincludes : u.Includes t)
    (hfiles : u.files = t.files) : u.clearDangling.files = t.files := by
  refine Std.ExtTreeMap.ext_getElem? fun k => ?_
  rw [clearDangling, Std.ExtTreeMap.getElem?_map, hfiles]
  cases hf : t.files[k]? with
  | none => rfl
  | some f =>
    exact congrArg some (FileRecord.rebound_eq_self fun r hr =>
      hincludes.keepBinding (ht.keep_binding hf hr))

/-- `u` is `t` with a new file, which has come to the nodes `ids`. -/
structure Added (t : Index) (L : Ledger) (lay : Layout) (path : SourcePath) (doc : Document)
    (u : Index) (lay' : Layout) (ids : List NodeId) : Prop where
  built : t.Built L lay
  new : t.hasFile path = false
  exists_laying : ∃ w top, t.Laying lay ((doc.outline path).visited path)
      (L.deposits ++ (doc.outline path).deposits path) w lay' ids ∧
    lay' ((doc.outline path).topAddress path) = some top ∧
    u = (ids.foldl refresh w).recorded path (doc.outline path) top ids

/-- A file that is not there can be added. -/
theorem Built.exists_added (h : t.Built L lay) {path : SourcePath}
    (hnew : t.hasFile path = false) (doc : Document) :
    ∃ lay' ids, t.Added L lay path doc (t.add path doc) lay' ids := by
  obtain ⟨w, lay', ids, top, hlaying, htop, heq⟩ := h.exists_contribute_eq hnew doc
  refine ⟨lay', ids, h, hnew, w, top, hlaying, htop, ?_⟩
  rw [add, remove_of_not_hasFile hnew, heq]

namespace Added

variable {path : SourcePath} {doc : Document} {lay' : Layout} {ids : List NodeId} {i : NodeId}
  {n : Node}

/-- The index is then built of the file too. -/
theorem built_add (h : t.Added L lay path doc u lay' ids) : u.Built (L ++ [(path, doc)]) lay' := by
  obtain ⟨w, top, hlaying, htop, rfl⟩ := h.exists_laying
  exact hlaying.built h.built h.new htop

/-- There is a record of the file then, and without it the files are those from before. -/
theorem exists_file (h : t.Added L lay path doc u lay' ids) :
    ∃ f, u.file? path = some f ∧ f.path = path ∧ f.nodes = ids ∧
      (u.forgotten f).files = t.files := by
  obtain ⟨w, top, hlaying, htop, rfl⟩ := h.exists_laying
  have hsame := hlaying.extended.toSameFiles.trans (SameFiles.foldl sameFiles_refresh ids w)
  refine ⟨_, Std.ExtTreeMap.getElem?_insert_self, rfl, rfl, ?_⟩
  have hnone : t.files[path.components]? = none := hasFile_eq_false_iff.mp h.new
  refine Std.ExtTreeMap.ext_getElem? fun k => ?_
  rw [forgotten, recorded, hsame.files_eq, Std.ExtTreeMap.getElem?_erase,
    Std.ExtTreeMap.getElem?_insert]
  split
  · rename_i hk
    rw [← Std.LawfulEqCmp.eq_of_compare hk]
    exact hnone.symm
  · rename_i hk
    exact if_neg hk

/-- No node moves. -/
theorem keep (h : t.Added L lay path doc u lay' ids) {a : Address} (ha : lay a = some i) :
    lay' a = some i := by
  obtain ⟨w, top, hlaying, -, -⟩ := h.exists_laying
  exact hlaying.layout.keep ha

/-- The ledger without the new file is the old one. -/
theorem without_eq (h : t.Added L lay path doc u lay' ids) :
    Ledger.without (L ++ [(path, doc)]) path = L := by
  have hold := Ledger.without_eq_self (h.built.components_ne h.new)
  rw [Ledger.without, List.filter_append]
  refine (congrArg (· ++ _) hold).trans ?_
  rw [List.filter_cons_of_neg (by simp [SourcePath.same_refl]), List.filter_nil, List.append_nil]

/-- Adding a file changes no option. -/
theorem options_eq (h : t.Added L lay path doc u lay' ids) : u.options = t.options := by
  obtain ⟨w, top, hlaying, -, rfl⟩ := h.exists_laying
  exact (hlaying.extended.toSameFiles.trans
    (SameFiles.foldl sameFiles_refresh ids w)).options_eq

/-- A node has got more fragments, and is summed up if the file came to it. -/
theorem exists_node (h : t.Added L lay path doc u lay' ids) (hn : t.node? i = some n) :
    ∃ k, k = { n with children := k.children, fragments := k.fragments } ∧
      n.fragments <+: k.fragments ∧
      u.node? i = some (if i ∈ ids then k.refreshed t.options else k) := by
  obtain ⟨w, top, hlaying, -, rfl⟩ := h.exists_laying
  obtain ⟨a, ha⟩ := h.built.laid.exists_address hn
  obtain ⟨k, hk, hkeq⟩ := hlaying.extended.node hn
  refine ⟨k, hkeq,
    h.built.fragments_extend hlaying.holds ha (hlaying.layout.keep ha) hn hk, ?_⟩
  have hnode := node?_foldl_refresh ids w i
  rw [hk, Option.map_some, hlaying.extended.options_eq, ← apply_ite some] at hnode
  exact hnode

/-- Adding the file leaves every list of the name table in order. -/
theorem retains (h : t.Added L lay path doc u lay' ids) : t.Retains u := by
  obtain ⟨w, top, hlaying, -, rfl⟩ := h.exists_laying
  have hlaid : t.Retains w := by
    refine ⟨fun s => (hlaying.extended.names s).sublist, fun {i n k} hn hk => ?_⟩
    obtain ⟨k', hk', hkeq⟩ := hlaying.extended.node hn
    rw [hk, Option.some.injEq] at hk'
    have hname : k.name = n.name := by rw [hk', hkeq]
    obtain ⟨a, ha⟩ := h.built.laid.exists_address hn
    exact ⟨hname, declaredRealName_of_extends (h.built.current hn List.not_mem_nil) hname
      (h.built.fragments_extend hlaying.holds ha (hlaying.layout.keep ha) hn hk)⟩
  have hsummed := hlaid.foldl_refresh h.built.named ids
  exact ⟨hsummed.names, hsummed.stable⟩

/-- So does taking its fragments away. -/
theorem retains_emptied (h : t.Added L lay path doc u lay' ids) {f : FileRecord}
    (hf : u.file? path = some f) (hpath : f.path = path) : t.Retains (u.emptied f) := by
  have hholds := h.built_add.holds_dropFragments hf
  rw [hpath, h.without_eq, ← hpath] at hholds
  obtain ⟨nodes, hnodes⟩ := exists_dropFragments_eq (u.forgotten f) f.path f.nodes
  refine Retains.foldl_refresh h.built.named ⟨fun s => ?_, fun {i n m} hn hm => ?_⟩ f.nodes
  · rw [hnodes]
    exact h.retains.names s
  · obtain ⟨a, ha⟩ := h.built.laid.exists_address hn
    have hname : m.name = n.name := by
      rw [hholds.laid.name_eq (h.keep ha) hm, h.built.laid.name_eq ha hn]
    have hfragments : m.fragments = n.fragments := by
      rw [hholds.fragments_eq (h.keep ha) hm, h.built.fragments_eq ha hn]
    exact ⟨hname, declaredRealName_of_extends (h.built.current hn List.not_mem_nil) hname
      (hfragments ▸ List.prefix_rfl)⟩

/-- A node that the file did not come to is left alone; the others lose their values. -/
theorem node_eq (h : t.Added L lay path doc u lay' ids) {f : FileRecord}
    (hpath : f.path = path) (hids : f.nodes = ids) {v : Index}
    (hpruned : (u.emptied f).Pruned lay' v lay) (hv : v.Built L lay) {m : Node}
    (hn : t.node? i = some n) (hm : v.node? i = some m) :
    m = if i ∈ ids then n.withoutValues else n := by
  obtain ⟨k, hkeq, hbegins, hk⟩ := h.exists_node hn
  obtain ⟨e, he, hmeq⟩ := hpruned.node hm
  have hsame := h.built.node_congr hv hn hm
  rw [node?_emptied, hids, hpath, h.options_eq, hk, Option.map_some] at he
  split
  · rename_i hi
    rw [if_pos hi, if_pos hi, Option.some.injEq] at he
    have htarget : k.target = n.target := by rw [hkeq]
    -- the fragments that are left are those from before
    have hback : k.fragments.filter (fun f => !f.file.same path) = n.fragments := by
      have hfragments : m.fragments = n.fragments := by rw [hsame]
      rw [← hfragments, hmeq, ← he]
      rfl
    obtain ⟨hsummary', htarget'⟩ := refreshed_roundTrip (h.built.current hn List.not_mem_nil)
      htarget hbegins hback
    rw [he] at hsummary' htarget'
    have hsummary : m.summary = n.withoutValues.summary := by rw [hmeq, ← hsummary']
    have htarget : m.target = n.target := by rw [hmeq, ← htarget']
    rw [hsame, hsummary, htarget]
    rfl
  · rename_i hi
    rw [if_neg hi, if_neg hi, Option.some.injEq] at he
    have hsummary : m.summary = n.summary := by rw [hmeq, ← he, hkeq]
    have htarget : m.target = n.target := by rw [hmeq, ← he, hkeq]
    rw [hsame, hsummary, htarget]

/-- The name table is the one from before, list by list. -/
theorem names_eq (h : t.Added L lay path doc u lay' ids) {f : FileRecord}
    (hf : u.file? path = some f) (hpath : f.path = path) {v : Index}
    (hpruned : (u.emptied f).Pruned lay' v lay) (hv : v.Built L lay) : v.names = t.names := by
  refine (h.built.named.toTidy.ext hv.named.toTidy fun s => ?_).symm
  -- no list has lost its order on the way
  have hsub : (t.names.get s).Sublist (v.names.get s) := by
    rw [hpruned.names, ← h.built.named.filter_isLive s,
      List.filter_congr fun i _ => h.built.laid.isLive_congr hv.laid i]
    exact ((h.retains_emptied hf hpath).names s).filter v.isLive
  -- and the lists name the same nodes, so they are as long as before
  refine hsub.eq_of_length (List.Perm.length_eq ?_)
  rw [List.perm_ext_iff_of_nodup (h.built.named.nodup s) (hv.named.nodup s)]
  intro i
  rw [h.built.named.mem_iff, hv.named.mem_iff]
  constructor
  · rintro ⟨n, hn, hs⟩
    obtain ⟨a, ha⟩ := h.built.laid.exists_address hn
    obtain ⟨m, hm⟩ := hv.laid.exists_node ha
    have hsame := h.built.node_congr hv hn hm
    exact ⟨m, hm, by rwa [hsame]⟩
  · rintro ⟨m, hm, hs⟩
    obtain ⟨a, ha⟩ := hv.laid.exists_address hm
    obtain ⟨n, hn⟩ := h.built.laid.exists_node ha
    have hsame := h.built.node_congr hv hn hm
    exact ⟨n, hn, by rwa [hsame] at hs⟩

/-- Once what dangles has been cleared, the nodes are those from before but for the values. -/
theorem nodes_eq (h : t.Added L lay path doc u lay' ids) (ht : t.Anchored) {f : FileRecord}
    (hpath : f.path = path) (hids : f.nodes = ids) {v : Index}
    (hpruned : (u.emptied f).Pruned lay' v lay) (hv : v.Built L lay) :
    v.clearDangling.nodes = (t.forgetValues ids).nodes := by
  refine Std.ExtTreeMap.ext_getElem? fun i => ?_
  have hclear := node?_clearDangling v i
  have hforget : (t.forgetValues ids).nodes[i]? =
      (t.node? i).map fun n => if i ∈ ids then n.withoutValues else n :=
    Std.ExtTreeMap.getElem?_map
  rw [node?] at hclear
  rw [hclear, hforget]
  cases hn : t.node? i with
  | none =>
    have hgone := h.built.laid.isLive_congr hv.laid i
    rw [isLive, isLive, hn, Option.isSome_none, eq_comm, Option.isSome_eq_false_iff,
      Option.isNone_iff_eq_none] at hgone
    rw [hgone]
    rfl
  | some n =>
    obtain ⟨a, ha⟩ := h.built.laid.exists_address hn
    obtain ⟨m, hm⟩ := hv.laid.exists_node ha
    have hnode := h.node_eq hpath hids hpruned hv hn hm
    -- a target that was there before is there again, so it is not cleared
    have htarget : m.target = n.target := by
      rw [hnode]
      split <;> rfl
    have hkept : m.target.filter v.isLive = m.target := by
      rw [htarget, ht.filter_target (h.built.includes hv) hn]
    rw [hm, Option.map_some, Option.map_some, hkept, ← hnode]

end Added

/-- Adding a file that is not indexed and removing it gives the index back. Only the values are
forgotten that evaluation has noted on the nodes that the file came to, and new numbers stay
used. -/
theorem Built.remove_add (h : t.Built L lay) (ht : t.Anchored) {path : SourcePath}
    (hnew : t.hasFile path = false) (doc : Document) :
    (t.add path doc).remove path =
      { t.forgetValues ((t.add path doc).nodesOf path) with
        nextId := (t.add path doc).nextId } := by
  obtain ⟨lay', ids, hadded⟩ := h.exists_added hnew doc
  generalize t.add path doc = u at hadded
  obtain ⟨f, hf, hpath, hids, hfiles⟩ := hadded.exists_file
  obtain ⟨v, lay'', hpruned, hv, heq⟩ := hadded.built_add.exists_withdraw_eq hf
  rw [hpath, hadded.without_eq] at hv
  obtain rfl := h.layout_eq hadded.keep hpruned.only hv
  -- `v` is what is left once the nodes of the file have been pruned
  have hsame := (Built.sameFiles_emptied u f).trans hpruned.toSameFiles
  have hincludes := h.includes hv
  have hremove : u.remove path = v.clearDangling := (remove_of_file? hf).trans heq
  have hnodesOf : u.nodesOf path = ids := by
    rw [nodesOf, hf]
    exact hids
  have hnodes := hadded.nodes_eq ht hpath hids hpruned hv
  have hnext : v.nextId = u.nextId := by rw [hpruned.nextId_eq, nextId_emptied]
  have hregistrations : v.registrations = t.registrations :=
    hv.registrations_eq.trans h.registrations_eq.symm
  have hclearfiles := ht.files_eq hincludes (hsame.files_eq.trans hfiles)
  have hnames := hadded.names_eq hf hpath hpruned hv
  have hoptions : v.options = t.options := hsame.options_eq.trans hadded.options_eq
  rw [hremove, hnodesOf]
  show (⟨v.options, v.clearDangling.nodes, v.nextId, v.names, v.clearDangling.files,
    v.registrations⟩ : Index) =
      ⟨t.options, (t.forgetValues ids).nodes, u.nextId, t.names, t.files, t.registrations⟩
  rw [hoptions, hnodes, hnext, hnames, hclearfiles, hregistrations]

/-- After any run, adding a file that is not indexed and removing it gives the index back: the same
nodes under the same numbers, the same names, files, bindings, targets, templates and pragmas. Only
the values are forgotten that evaluation has noted on the nodes that the file came to. -/
theorem remove_add_run (options : IndexOptions) (ops : List Operation) (path : SourcePath)
    (doc : Document) (hnew : (run options ops).hasFile path = false) :
    ((run options ops).add path doc).remove path =
      { (run options ops).forgetValues (((run options ops).add path doc).nodesOf path) with
        nextId := ((run options ops).add path doc).nextId } := by
  obtain ⟨lay, h, -⟩ := exists_built_run options ops
  exact h.remove_add (anchored_run options ops) hnew doc

/-- A file of the package `app` that declares the object `web` with one field. -/
def appDocument : Document where
  package := some ⟨"app", .start⟩
  definitions := [.object (.reference "web" .start) [.field ⟨"port", .int 80 .start, .start⟩] {}]
  comments := []
  pragmas := []

/-- A second file that shares its package and its object with the first. -/
theorem remove_add_run_of_shared :
    let ops := [.add (.ofText "a.pcl") appDocument, .resolve, .reevaluate {}]
    let second := SourcePath.ofText "b.pcl"
    (run {} ops).hasFile second = false ∧
      ((run {} ops).add second appDocument).remove second =
        { (run {} ops).forgetValues (((run {} ops).add second appDocument).nodesOf second) with
          nextId := ((run {} ops).add second appDocument).nextId } := by
  intro ops second
  have hnew : (run {} ops).hasFile second = false := by decide
  exact ⟨hnew, remove_add_run {} ops second appDocument hnew⟩

end Index

end SemanticIndex
