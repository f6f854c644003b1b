import Mathlib.Tactic.Choose
import SemanticIndex.Index.Listing
import SemanticIndex.Proofs.Runs

/-!
# History Does Not Matter

Two indexes that are built from one ledger are alike (`Index.Built.alike`): a node of the one
goes with the node of the other at the same address. Alike indexes that are walked in the same
order have the same listing and as many nodes (`Index.Built.lines_eq`, `Index.Built.size_eq`). So
after any run the index is what adding the files that are still indexed would have made of it.
-/

namespace SemanticIndex

/-! ### Lines -/

/-- Evaluated values are not listed. -/
theorem Summary.lines_withoutValues (s : Summary) : s.withoutValues.lines = s.lines := by
  have hfields : (s.fields.map fun _ entries => entries.map FieldEntry.withoutValue).toList.map
      (fun e => fieldLine e.1 e.2) = s.fields.toList.map fun e => fieldLine e.1 e.2 := by
    rw [Std.ExtTreeMap.toList_map, List.map_map]
    refine List.map_congr_left fun e _ => ?_
    simp only [Function.comp_apply, fieldLine, List.map_map]
    rfl
  exact congrArg (_ ++ ·) hfields

/-- The lines of a node show no numbers, no target and no values. -/
theorem Node.lines_congr {n m : Node} (hname : m.name = n.name) (hreal : m.realName = n.realName)
    (hfragments : m.fragments = n.fragments)
    (hsummary : m.summary.withoutValues = n.summary.withoutValues) (depth : Nat) :
    m.lines depth = n.lines depth := by
  have hlines : m.summary.lines = n.summary.lines := by
    rw [← Summary.lines_withoutValues, hsummary, Summary.lines_withoutValues]
  have hconditional :
      m.summary.withoutValues.conditional = n.summary.withoutValues.conditional := by
    rw [hsummary]
  change m.summary.conditional = n.summary.conditional at hconditional
  rw [lines, lines, hname, hreal, hfragments, hlines, hconditional]

namespace Index

variable {t u : Index} {L : Ledger} {lay lay' : Layout} {ρ : NodeId → NodeId}

/-! ### Where nodes stand -/

/-- The nodes of two indexes that are built from one ledger stand at the same addresses. -/
theorem Built.exists_relabel (h : t.Built L lay) (h' : u.Built L lay') :
    ∃ ρ, lay' = lay.relabel ρ := by
  have hnumber : ∀ i, ∃ j, ∀ a, lay a = some i → lay' a = some j := by
    intro i
    by_cases hi : ∃ a, lay a = some i
    · obtain ⟨a, ha⟩ := hi
      obtain ⟨j, hj⟩ := h'.taken_iff.mpr (h.taken_iff.mp ⟨i, ha⟩)
      exact ⟨j, fun b hb => h.laid.injective ha hb ▸ hj⟩
    · exact ⟨0, fun a ha => absurd ⟨a, ha⟩ hi⟩
  -- numbers that are not in use may go anywhere
  choose ρ hρ using hnumber
  refine ⟨ρ, funext fun a => ?_⟩
  cases ha : lay a with
  | some i => rw [Layout.relabel_eq_some ha, hρ i a ha]
  | none =>
    rw [Layout.relabel, ha, Option.map_none, Option.eq_none_iff_forall_ne_some]
    intro j hj
    obtain ⟨i, hi⟩ := h.taken_iff.mpr (h'.taken_iff.mp ⟨j, hj⟩)
    rw [ha] at hi
    cases hi

section

variable {a : Address} {i : NodeId} {n m : Node}

/-- Nodes at one address hold the same. -/
theorem Built.summary_eq (h : t.Built L lay) (h' : u.Built L (lay.relabel ρ))
    (hoptions : u.options = t.options) (ha : lay a = some i) (hn : t.node? i = some n)
    (hm : u.node? (ρ i) = some m) :
    m.name = n.name ∧ m.fragments = n.fragments ∧ m.realName = n.realName ∧
      m.summary.withoutValues = n.summary.withoutValues := by
  have ha' := Layout.relabel_eq_some (ρ := ρ) ha
  have hname : m.name = n.name := by rw [h'.laid.name_eq ha' hm, h.laid.name_eq ha hn]
  have hfragments : m.fragments = n.fragments := by
    rw [h'.fragments_eq ha' hm, h.fragments_eq ha hn]
  have hcurrent := h.current hn List.not_mem_nil
  have hcurrent' := h'.current hm List.not_mem_nil
  -- current nodes with the same fragments have the same digest
  refine ⟨hname, hfragments, ?_, ?_⟩
  · rw [hcurrent'.realName_eq, hcurrent.realName_eq, Node.declaredRealName, Node.declaredRealName,
      hname, hfragments]
  · rw [hcurrent'.summary_eq, hcurrent.summary_eq, hoptions, hfragments]

/-- Counterparts are the same but for evaluated values, targets and the names of nodes. -/
theorem Built.node_eq (h : t.Built L lay) (h' : u.Built L (lay.relabel ρ))
    (hoptions : u.options = t.options) (hn : t.node? i = some n) :
    (u.node? (ρ i)).map (fun m => { m.withoutValues with target := none }) =
      some (n.relabel ρ).withoutValues := by
  obtain ⟨a, ha⟩ := h.laid.exists_address hn
  have ha' := Layout.relabel_eq_some (ρ := ρ) ha
  obtain ⟨m, hm⟩ := h'.laid.exists_node ha'
  obtain ⟨hname, hfragments, hreal, hsummary⟩ := h.summary_eq h' hoptions ha hn hm
  have habove : m.above = n.above.map ρ := by
    rw [h'.laid.above_eq ha' hm, h.laid.above_eq ha hn, Layout.above_relabel]
  have hchildren : m.children = n.children.map fun _ child => ρ child := by
    refine Std.ExtTreeMap.ext_getElem? fun x => ?_
    rw [h'.laid.child_eq ha' hm, Std.ExtTreeMap.getElem?_map, h.laid.child_eq ha hn]
    rfl
  rw [hm, Option.map_some, Option.some.injEq, Node.withoutValues, Node.withoutValues, Node.relabel,
    Node.mk.injEq]
  exact ⟨hname, hreal, habove, hchildren, hfragments, hsummary, rfl⟩

end

/-! ### Alike indexes -/

/-- Each node is the counterpart of one only. -/
theorem Built.injOn (h : t.Built L lay) (h' : u.Built L (lay.relabel ρ)) (i j : NodeId)
    (hi : t.isLive i) (hj : t.isLive j) (heq : ρ i = ρ j) : i = j := by
  obtain ⟨a, ha⟩ := h.laid.isLive_iff.mp hi
  obtain ⟨b, hb⟩ := h.laid.isLive_iff.mp hj
  have ha' := Layout.relabel_eq_some (ρ := ρ) ha
  rw [heq] at ha'
  have hab := h'.laid.injective ha' (Layout.relabel_eq_some hb)
  rw [hab, hb, Option.some.injEq] at ha
  exact ha.symm

/-- Each node is a counterpart. -/
theorem Built.surjOn (h : t.Built L lay) (h' : u.Built L (lay.relabel ρ)) (j : NodeId)
    (hj : u.isLive j) : ∃ i, t.isLive i ∧ ρ i = j := by
  obtain ⟨a, ha'⟩ := h'.laid.isLive_iff.mp hj
  obtain ⟨i, ha, rfl⟩ := Layout.relabel_eq_some_iff.mp ha'
  exact ⟨i, h.laid.isLive_iff.mpr ⟨a, ha⟩, rfl⟩

/-- Each name lists the nodes at the same addresses. -/
theorem Built.perm_get (h : t.Built L lay) (h' : u.Built L (lay.relabel ρ))
    (hoptions : u.options = t.options) (s : String) :
    (u.names.get s).Perm ((t.names.get s).map ρ) := by
  rw [List.perm_ext_iff_of_nodup (h'.named.nodup s) ((h.named.nodup s).map_on fun i hi j hj =>
    h.injOn h' i j (h.named.isLive_of_mem hi) (h.named.isLive_of_mem hj))]
  intro j
  rw [h'.named.mem_iff, List.mem_map]
  constructor
  · rintro ⟨m, hm, hs⟩
    obtain ⟨a, ha'⟩ := h'.laid.exists_address hm
    obtain ⟨i, ha, rfl⟩ := Layout.relabel_eq_some_iff.mp ha'
    obtain ⟨n, hn⟩ := h.laid.exists_node ha
    obtain ⟨hname, -, hreal, -⟩ := h.summary_eq h' hoptions ha hn hm
    exact ⟨i, (h.named.mem_iff s i).mpr ⟨n, hn, by rwa [← hname, ← hreal]⟩, rfl⟩
  · rintro ⟨i, hi, rfl⟩
    obtain ⟨n, hn, hs⟩ := (h.named.mem_iff s i).mp hi
    obtain ⟨a, ha⟩ := h.laid.exists_address hn
    obtain ⟨m, hm⟩ := h'.laid.exists_node (Layout.relabel_eq_some ha)
    obtain ⟨hname, -, hreal, -⟩ := h.summary_eq h' hoptions ha hn hm
    exact ⟨m, hm, by rwa [hname, hreal]⟩

/-- The files have the same records but for bindings and the names of nodes. -/
theorem Built.files_eq (h : t.Built L lay) (h' : u.Built L (lay.relabel ρ))
    (k : List PathComponent) :
    (u.files[k]?).map (FileRecord.rebound fun _ => .unbound) =
      (t.files[k]?).map (FileRecord.relabel ρ) := by
  cases hf : t.files[k]? with
  | some f =>
    obtain ⟨e, he, rfl, hisOf⟩ := h.isOf hf
    obtain ⟨f', hf', hisOf'⟩ := h'.exists_file e he
    have hunbound : (f.relabel ρ).rebound (fun _ => .unbound) = f.relabel ρ := by
      rw [FileRecord.rebound, FileRecord.relabel, List.map_map]
      rfl
    rw [hf', Option.map_some, Option.map_some, hisOf'.rebound_eq (hisOf.relabel ρ), hunbound]
  | none =>
    have hnone : u.files[k]? = none := by
      rw [Option.eq_none_iff_forall_ne_some]
      intro f' hf'
      obtain ⟨e, he, rfl⟩ := h'.exists_entry hf'
      obtain ⟨f, hf', -⟩ := h.exists_file e he
      rw [hf] at hf'
      cases hf'
    rw [hnone]
    rfl

/-- Indexes that are built from one ledger are alike. -/
theorem Built.alike (h : t.Built L lay) (h' : u.Built L (lay.relabel ρ))
    (hoptions : u.options = t.options) : Alike ρ t u where
  injective := h.injOn h'
  surjective := h.surjOn h'
  options_eq := hoptions
  node_eq _ _ hn := h.node_eq h' hoptions hn
  names_perm s := by
    have hperm := h.perm_get h' hoptions s
    rw [h.named.lists_eq, h'.named.lists_eq]
    by_cases hnil : t.names.get s = []
    · rw [hnil, List.map_nil, List.perm_nil] at hperm
      rw [if_pos hnil, if_pos hperm]
      exact .none
    · have hnil' : u.names.get s ≠ [] := by
        intro hnil'
        rw [hnil', List.nil_perm, List.map_eq_nil_iff] at hperm
        exact hnil hperm
      rw [if_neg hnil, if_neg hnil']
      exact .some hperm
  files_eq := h.files_eq h'
  registrations_eq := h'.registrations_eq.trans h.registrations_eq.symm

/-! ### Listings -/

/-- A walk through one index passes the same addresses as a walk through the other. -/
theorem Built.exists_walks (h : t.Built L lay) (h' : u.Built L (lay.relabel ρ)) :
    ∃ as, lay.Walks (fun _ => True) as t.preorder ∧
      (lay.relabel ρ).Walks (fun _ => True) as u.preorder := by
  obtain ⟨as, has⟩ := h.laid.exists_walks_preorder h.rooted
  obtain ⟨as', has'⟩ := h'.laid.exists_walks_preorder h'.rooted
  have heq := has.unique has' fun a => by rw [h.taken_iff, h'.taken_iff]
  exact ⟨as, has, heq ▸ has'⟩

/-- A walk passes the nodes that go with each other at the same time. -/
theorem Built.preorder_eq (h : t.Built L lay) (h' : u.Built L (lay.relabel ρ)) :
    u.preorder = t.preorder.map fun p => (ρ p.1, p.2) := by
  obtain ⟨as, has, has'⟩ := h.exists_walks h'
  refine List.right_unique_forall₂' ?_ has'.stands (List.forall₂_map_right_iff.mpr
    (has.stands.imp fun a p ha => ⟨Layout.relabel_eq_some ha.1, ha.2⟩))
  intro a p q hp hq
  exact Prod.ext (Option.some.inj (hp.1.symm.trans hq.1)) (hp.2.trans hq.2.symm)

/-- The records are the same one after the other, but for numbers and bindings. -/
theorem Built.values_files_eq (h : t.Built L lay) (h' : u.Built L (lay.relabel ρ)) :
    u.files.values.map (FileRecord.rebound fun _ => .unbound) =
      t.files.values.map (FileRecord.relabel ρ) := by
  have hfiles : (u.files.map fun _ f => f.rebound fun _ => .unbound) =
      t.files.map fun _ => FileRecord.relabel ρ := by
    refine Std.ExtTreeMap.ext_getElem? fun k => ?_
    rw [Std.ExtTreeMap.getElem?_map, Std.ExtTreeMap.getElem?_map]
    exact h.files_eq h' k
  have hvalues := congrArg (fun files => files.toList.map Prod.snd) hfiles
  simpa only [values_eq_map_toList, Std.ExtTreeMap.toList_map, List.map_map, Function.comp_def]
    using hvalues

/-- What does not show the bindings or the numbers of a record is the same for all files. -/
theorem Built.flatMap_files (h : t.Built L lay) (h' : u.Built L (lay.relabel ρ)) {α : Type}
    {g : FileRecord → List α} (hrebound : ∀ f, g (f.rebound fun _ => .unbound) = g f)
    (hrelabel : ∀ f, g (f.relabel ρ) = g f) :
    u.files.values.flatMap g = t.files.values.flatMap g := by
  -- `g` cannot tell the records apart from what the two lists have in common
  have hlist := congrArg (fun fs => fs.flatMap g) (h.values_files_eq h')
  simpa only [List.flatMap_map, hrebound, hrelabel] using hlist

/-- The lines of an index show what alike indexes have in common. -/
theorem Built.lines_eq (h : t.Built L lay) (h' : u.Built L (lay.relabel ρ))
    (hoptions : u.options = t.options) : u.lines = t.lines := by
  have hnodes : u.preorder.flatMap (fun p => ((u.node? p.1).map (·.lines p.2)).getD []) =
      t.preorder.flatMap fun p => ((t.node? p.1).map (·.lines p.2)).getD [] := by
    rw [h.preorder_eq h', List.flatMap_map]
    -- what the walk passes are nodes, and their counterparts have the same lines
    refine List.flatMap_congr fun p hp => ?_
    have hlive : t.isLive p.1 := (h.laid.mem_walk_iff h.rooted).mp (List.mem_map_of_mem hp)
    obtain ⟨a, ha⟩ := h.laid.isLive_iff.mp hlive
    obtain ⟨n, hn⟩ := h.laid.exists_node ha
    obtain ⟨m, hm⟩ := h'.laid.exists_node (Layout.relabel_eq_some ha)
    obtain ⟨hname, hfragments, hreal, hsummary⟩ := h.summary_eq h' hoptions ha hn hm
    simp only [hn, hm, Option.map_some, Option.getD_some]
    exact Node.lines_congr hname hreal hfragments hsummary p.2
  have htemplates : u.templatesByName = t.templatesByName := by
    rw [templatesByName, templatesByName, h'.registrations_eq, h.registrations_eq]
  have hpragmas := h.flatMap_files h'
    (g := fun f => f.pragmas.map fun p => "global pragma " ++ f.path.text ++ " " ++ p.text)
    (fun _ => rfl) (fun _ => rfl)
  have hreferences : u.references.map Reference.line = t.references.map Reference.line := by
    rw [references, references, List.map_flatMap, List.map_flatMap]
    refine h.flatMap_files h' (fun f => ?_) (fun f => ?_)
    · rw [FileRecord.rebound, List.map_map]
      rfl
    · rw [FileRecord.relabel, List.map_map]
      rfl
  rw [lines, lines, htemplates, hpragmas, hreferences]
  exact congrArg (· ++ _ ++ _ ++ _) hnodes

/-- An index has as many nodes as a walk passes. -/
theorem Laid.length_walk (h : t.Laid lay) (hrooted : t.Rooted lay) : t.walk.length = t.size := by
  have hperm : t.walk.Perm t.nodes.keys := by
    rw [List.perm_ext_iff_of_nodup (h.nodup_walk hrooted) Std.ExtTreeMap.nodup_keys]
    intro id
    rw [h.mem_walk_iff hrooted, Std.ExtTreeMap.mem_keys, Std.ExtTreeMap.mem_iff_isSome_getElem?]
    rfl
  rw [hperm.length_eq, Std.ExtTreeMap.length_keys, size]

/-- There are as many nodes. -/
theorem Built.size_eq (h : t.Built L lay) (h' : u.Built L (lay.relabel ρ)) : u.size = t.size := by
  rw [← h'.laid.length_walk h'.rooted, ← h.laid.length_walk h.rooted, walk, walk,
    h.preorder_eq h', List.length_map, List.length_map, List.length_map]

/-! ### Runs -/

/-- After any run the index is alike the one to which the files that are still indexed are added one
by one, each with its last document, in the order in which they were last added; the two have the
same listing and as many nodes. -/
theorem run_alike_batch (options : IndexOptions) (ops : List Operation) :
    (∃ ρ, Alike ρ (run options ops) (batch options (.latest ops))) ∧
      (run options ops).listing = (batch options (.latest ops)).listing ∧
      (run options ops).size = (batch options (.latest ops)).size := by
  obtain ⟨lay, hrun, hoptions⟩ := exists_built_run options ops
  obtain ⟨lay', hbatch, hoptions'⟩ := exists_built_batch options hrun.distinct
  obtain ⟨ρ, rfl⟩ := hrun.exists_relabel hbatch
  have heq := hoptions'.trans hoptions.symm
  refine ⟨⟨ρ, hrun.alike hbatch heq⟩, ?_, (hrun.size_eq hbatch).symm⟩
  rw [listing, listing, hrun.lines_eq hbatch heq]

end Index

end SemanticIndex
