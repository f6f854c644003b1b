import SemanticIndex.Proofs.History
import SemanticIndex.Proofs.Places

/-!
# Counterparts

Two indexes that are built from one ledger have nodes at the same addresses; the counterpart of a
node is the node at its address. What names and mentions mean in the one index is what they mean in
the other, in terms of counterparts (`Index.Built.nameMeans_relabel`,
`Index.Built.mentionMeans_relabel`), and so their answers are the same up to places
(`Index.Built.placeOf_eq_of_relabel`, `Index.Built.bindingsAgree`).
-/

namespace SemanticIndex

/-- The binding with other numbers. -/
def Binding.relabel (ρ : NodeId → NodeId) : Binding → Binding
  | .unbound => .unbound
  | .node id => .node (ρ id)
  | .var owner name => .var (ρ owner) name

namespace Index

/-- A binding in `t` and one in `u` lead to the same: to nodes of one place, or to a variable of a
node and the one of that name on its counterpart. -/
inductive BindingsAgree (ρ : NodeId → NodeId) (t u : Index) : Binding → Binding → Prop where
  | unbound : BindingsAgree ρ t u .unbound .unbound
  | node {i j : NodeId} (place_eq : u.placeOf j = t.placeOf i) :
    BindingsAgree ρ t u (.node i) (.node j)
  | var {owner : NodeId} {name : String} :
    BindingsAgree ρ t u (.var owner name) (.var (ρ owner) name)

namespace Built

variable {t u : Index} {L : Ledger} {lay : Layout} {ρ : NodeId → NodeId}
  {i j anchor scope top : NodeId} {n : Node} {mode : LookupMode} {name : String}
  {accept accept' : NodeFilter}

/-! ### Counterparts of single nodes -/

/-- The root is its own counterpart. -/
theorem relabel_root (h : t.Built L lay) (h' : u.Built L (lay.relabel ρ)) : ρ root = root := by
  have hroot := Layout.relabel_eq_some (ρ := ρ) h.laid.root_at
  rw [h'.laid.root_at, Option.some.injEq] at hroot
  exact hroot.symm

/-- What stands above a node is live. -/
theorem isLive_of_mem_chain (h : t.Built L lay) (hj : j ∈ t.ancestors i ++ [root]) :
    t.isLive j = true := by
  rcases List.mem_append.mp hj with hj | hj
  · exact h.laid.isLive_of_mem_ancestors hj
  · exact List.mem_singleton.mp hj ▸ h.laid.isLive_iff.mpr ⟨_, h.laid.root_at⟩

/-- A counterpart has the same fragments, so it has the same variables. -/
theorem exists_counterpart (h : t.Built L lay) (h' : u.Built L (lay.relabel ρ))
    (hn : t.node? i = some n) :
    ∃ m, u.node? (ρ i) = some m ∧ m.name = n.name ∧ m.fragments = n.fragments ∧
      m.summary.vars = n.summary.vars := by
  obtain ⟨a, ha⟩ := h.laid.exists_address hn
  have ha' := Layout.relabel_eq_some (ρ := ρ) ha
  obtain ⟨m, hm⟩ := h'.laid.exists_node ha'
  have hfragments : m.fragments = n.fragments := by
    rw [h'.fragments_eq ha' hm, h.fragments_eq ha hn]
  refine ⟨m, hm, ?_, hfragments, ?_⟩
  · rw [h'.laid.name_eq ha' hm, h.laid.name_eq ha hn]
  · rw [(h'.current hm List.not_mem_nil).vars_eq, (h.current hn List.not_mem_nil).vars_eq,
      hfragments]

/-- Counterparts stand below counterparts. -/
theorem ancestors_relabel (h : t.Built L lay) (h' : u.Built L (lay.relabel ρ))
    (hi : t.isLive i) : u.ancestors (ρ i) = (t.ancestors i).map ρ := by
  obtain ⟨a, ha⟩ := h.laid.isLive_iff.mp hi
  rw [h'.laid.ancestors_eq (Layout.relabel_eq_some ha), h.laid.ancestors_eq ha,
    Layout.above_relabel, List.map_cons]

/-- The nodes on which variables are looked for from counterparts are counterparts. -/
theorem chain_relabel (h : t.Built L lay) (h' : u.Built L (lay.relabel ρ)) (hi : t.isLive i) :
    u.ancestors (ρ i) ++ [root] = (t.ancestors i ++ [root]).map ρ := by
  rw [h.ancestors_relabel h' hi, List.map_append, List.map_singleton, h.relabel_root h']

/-- Names lead from counterparts to counterparts. -/
theorem follow?_relabel (h : t.Built L lay) (h' : u.Built L (lay.relabel ρ))
    (hi : t.isLive i) (names : List String) :
    u.follow? (ρ i) names = (t.follow? i names).map ρ := by
  obtain ⟨a, ha⟩ := h.laid.isLive_iff.mp hi
  rw [h'.laid.follow?_eq (Layout.relabel_eq_some ha), h.laid.follow?_eq ha, Layout.relabel]

/-- Counterparts hold the same variables. -/
theorem holdsVariable_relabel (h : t.Built L lay) (h' : u.Built L (lay.relabel ρ))
    (hi : t.isLive i) : u.HoldsVariable (ρ i) name ↔ t.HoldsVariable i name := by
  obtain ⟨n, hn⟩ := Option.isSome_iff_exists.mp hi
  obtain ⟨m, hm, -, -, hvars⟩ := h.exists_counterpart h' hn
  simp only [HoldsVariable, hn, hm, Option.some.injEq, exists_and_left, exists_eq_left', hvars]

/-- Counterparts are ranked alike. -/
theorem noLater_relabel (h : t.Built L lay) (h' : u.Built L (lay.relabel ρ))
    (hi : t.isLive i) (hj : t.isLive j) : u.NoLater (ρ i) (ρ j) ↔ t.NoLater i j := by
  obtain ⟨a, ha⟩ := h.laid.isLive_iff.mp hi
  obtain ⟨b, hb⟩ := h.laid.isLive_iff.mp hj
  have ha' := Layout.relabel_eq_some (ρ := ρ) ha
  have hb' := Layout.relabel_eq_some (ρ := ρ) hb
  rw [NoLater, NoLater, h'.laid.depth_eq ha', h'.laid.depth_eq hb', h'.laid.path_eq ha',
    h'.laid.path_eq hb', h.laid.depth_eq ha, h.laid.depth_eq hb, h.laid.path_eq ha,
    h.laid.path_eq hb]

/-- Counterparts have one place. -/
theorem placeOf_relabel (h : t.Built L lay) (h' : u.Built L (lay.relabel ρ)) (hi : t.isLive i) :
    u.placeOf (ρ i) = t.placeOf i := by
  obtain ⟨a, ha⟩ := h.laid.isLive_iff.mp hi
  have ha' := Layout.relabel_eq_some (ρ := ρ) ha
  have hpath : ∀ k : List PathComponent,
      (u.files[k]?).map FileRecord.path = (t.files[k]?).map FileRecord.path := by
    intro k
    have hfiles := congrArg (Option.map FileRecord.path) (h.files_eq h' k)
    rw [Option.map_map, Option.map_map] at hfiles
    exact hfiles
  -- the home and the path are those of the address that the two share
  rw [placeOf, placeOf, h'.homeFile?_eq ha', h.homeFile?_eq ha, h'.laid.path_eq ha',
    h.laid.path_eq ha]
  cases a.home with
  | none => rfl
  | some k => rw [Option.bind_some, Option.bind_some, hpath]

/-! ### Names -/

/-- A name leads to a node exactly if it does to the counterpart. -/
theorem leads_relabel (h : t.Built L lay) (h' : u.Built L (lay.relabel ρ))
    (hanchor : t.isLive anchor) (hi : t.isLive i) :
    u.Leads (ρ anchor) mode name (ρ i) ↔ t.Leads anchor mode name i := by
  obtain ⟨c, hc⟩ := h.laid.isLive_iff.mp hanchor
  obtain ⟨a, ha⟩ := h.laid.isLive_iff.mp hi
  rw [h'.laid.leads_iff (Layout.relabel_eq_some hc) (Layout.relabel_eq_some ha),
    h.laid.leads_iff hc ha]

/-- What a name leads to from a counterpart are counterparts. -/
theorem leadsFrom_relabel_iff (h : t.Built L lay) (h' : u.Built L (lay.relabel ρ))
    (htop : t.isLive top) :
    u.LeadsFrom (ρ top) name j ↔ ∃ i, t.LeadsFrom top name i ∧ ρ i = j := by
  simp only [LeadsFrom, h.follow?_relabel h' htop, Option.map_eq_some_iff]
  constructor
  · rintro ⟨first, rest, hsegments, hne, i, hfollow, rfl⟩
    exact ⟨i, ⟨first, rest, hsegments, hne, hfollow⟩, rfl⟩
  · rintro ⟨i, ⟨first, rest, hsegments, hne, hfollow⟩, rfl⟩
    exact ⟨first, rest, hsegments, hne, i, hfollow, rfl⟩

/-- What matches are the counterparts of what matches, if counterparts are accepted alike. -/
theorem matches_relabel_iff (h : t.Built L lay) (h' : u.Built L (lay.relabel ρ))
    (haccept : ∀ {i n m}, t.node? i = some n → u.node? (ρ i) = some m →
      accept' (ρ i) m = accept i n) (hanchor : t.isLive anchor) :
    u.Matches (ρ anchor) mode name accept' j ↔
      ∃ i, t.Matches anchor mode name accept i ∧ ρ i = j := by
  constructor
  -- every node of `u` is a counterpart
  · rintro ⟨hleads, m, hm, hm'⟩
    obtain ⟨i, hi, rfl⟩ := h.surjOn h' j (isLive_of_node? hm)
    obtain ⟨n, hn⟩ := Option.isSome_iff_exists.mp hi
    exact ⟨i, ⟨(h.leads_relabel h' hanchor hi).mp hleads, n, hn, (haccept hn hm).symm.trans hm'⟩,
      rfl⟩
  · rintro ⟨i, ⟨hleads, n, hn, hn'⟩, rfl⟩
    obtain ⟨m, hm, -⟩ := h.exists_counterpart h' hn
    exact ⟨(h.leads_relabel h' hanchor (isLive_of_node? hn)).mpr hleads, m, hm,
      (haccept hn hm).trans hn'⟩

/-- The counterpart of the first match is the first match. -/
theorem isFirstMatch_relabel (h : t.Built L lay) (h' : u.Built L (lay.relabel ρ))
    (haccept : ∀ {i n m}, t.node? i = some n → u.node? (ρ i) = some m →
      accept' (ρ i) m = accept i n) (hanchor : t.isLive anchor)
    (hfirst : t.IsFirstMatch anchor mode name accept i) :
    u.IsFirstMatch (ρ anchor) mode name accept' (ρ i) := by
  have hmatches : ∀ j, u.Matches (ρ anchor) mode name accept' j ↔
      ∃ i, t.Matches anchor mode name accept i ∧ ρ i = j :=
    fun j => h.matches_relabel_iff h' haccept hanchor
  refine ⟨(hmatches _).mpr ⟨i, hfirst.isMatch, rfl⟩, fun j hj => ?_⟩
  obtain ⟨k, hk, rfl⟩ := (hmatches j).mp hj
  obtain ⟨-, n, hn, -⟩ := hfirst.isMatch
  have hlater := hfirst.noLater k hk
  obtain ⟨-, m, hm, -⟩ := hk
  exact (h.noLater_relabel h' (isLive_of_node? hn) (isLive_of_node? hm)).mpr hlater

/-- A name means the counterpart of what it means. -/
theorem nameMeans_relabel (h : t.Built L lay) (h' : u.Built L (lay.relabel ρ))
    (haccept : ∀ {i n m}, t.node? i = some n → u.node? (ρ i) = some m →
      accept' (ρ i) m = accept i n) (hscope : t.isLive scope) {r : Option NodeId}
    (hr : t.NameMeans scope name accept r) :
    u.NameMeans (ρ scope) name accept' (r.map ρ) := by
  have hchain := h.ancestors_relabel h' hscope
  have hroot := h.relabel_root h'
  have hlive : t.isLive root := h.laid.isLive_iff.mpr ⟨_, h.laid.root_at⟩
  -- where nothing matches below some nodes, nothing matches below their counterparts
  have hnone : ∀ {is : List NodeId}, (∀ i ∈ is, t.isLive i) →
      (∀ i ∈ is, ∀ j, ¬ t.Matches i .below name accept j) →
        ∀ i ∈ is.map ρ, ∀ j, ¬ u.Matches i .below name accept' j := by
    intro is hlive hnot
    refine List.forall_mem_map.mpr fun i hi j hj => ?_
    obtain ⟨k, hk, -⟩ := (h.matches_relabel_iff h' haccept (hlive i hi)).mp hj
    exact hnot i hi k hk
  have hup : ∀ i ∈ t.ancestors scope, t.isLive i := fun i => h.laid.isLive_of_mem_ancestors
  cases hr with
  | @below before after anchor id heq hnearest hfirst =>
    have heq' : u.ancestors (ρ scope) = before.map ρ ++ ρ anchor :: after.map ρ := by
      rw [hchain, heq, List.map_append, List.map_cons]
    exact .below heq'
      (hnone (fun i hi => hup i (heq ▸ List.mem_append_left _ hi)) hnearest)
      (h.isFirstMatch_relabel h' haccept (hup _ (heq ▸ by simp)) hfirst)
  | common hnot hleads hn hn' =>
    obtain ⟨m, hm, -⟩ := h.exists_counterpart h' hn
    refine .common (hchain ▸ hnone hup hnot) ?_ hm ((haccept hn hm).trans hn')
    exact hroot ▸ (h.leadsFrom_relabel_iff h' hlive).mpr ⟨_, hleads, rfl⟩
  | nothing hnot hnot' =>
    refine .nothing (hchain ▸ hnone hup hnot) fun j m hleads hm => ?_
    rw [← hroot, h.leadsFrom_relabel_iff h' hlive] at hleads
    obtain ⟨i, hleads, rfl⟩ := hleads
    have hi : t.isLive i = true := by
      obtain ⟨first, rest, -, -, hfollow⟩ := hleads
      exact h.laid.isLive_of_follow? hlive hfollow
    obtain ⟨n, hn⟩ := Option.isSome_iff_exists.mp hi
    rw [haccept hn hm, hnot' i n hleads hn]

/-- What a name means in the two indexes has one place. -/
theorem placeOf_eq_of_relabel (h : t.Built L lay) (h' : u.Built L (lay.relabel ρ))
    (haccept : ∀ {i n m}, t.node? i = some n → u.node? (ρ i) = some m →
      accept' (ρ i) m = accept i n) (hscope : t.isLive scope) {r r' : Option NodeId}
    (hr : t.NameMeans scope name accept r) (hr' : u.NameMeans (ρ scope) name accept' r') :
    r'.map u.placeOf = r.map t.placeOf := by
  rw [h'.placeOf_eq_of_nameMeans hr' (h.nameMeans_relabel h' haccept hscope hr), Option.map_map]
  refine Option.map_congr fun i hi => h.placeOf_relabel h' ?_
  subst hi
  exact hr.isLive

/-! ### Mentions -/

/-- A mention is bound to the counterpart of what it is bound to. -/
theorem mentionMeans_relabel (h : t.Built L lay) (h' : u.Built L (lay.relabel ρ))
    (hscope : t.isLive scope) {m : Mention} {b : Binding} (hb : t.MentionMeans scope m b) :
    u.MentionMeans (ρ scope) m (b.relabel ρ) := by
  have hchain := h.chain_relabel h' hscope
  have hlive : ∀ i ∈ t.ancestors scope ++ [root], t.isLive i = true :=
    fun i => h.isLive_of_mem_chain
  have hnone : ∀ {is : List NodeId}, (∀ i ∈ is, t.isLive i) →
      (∀ i ∈ is, ¬ t.HoldsVariable i (variableName m.name)) →
        ∀ i ∈ is.map ρ, ¬ u.HoldsVariable i (variableName m.name) :=
    fun hlive hnot => List.forall_mem_map.mpr fun i hi hholds =>
      hnot i hi ((h.holdsVariable_relabel h' (hlive i hi)).mp hholds)
  have hmeans : ∀ {r}, t.NameMeans scope m.name anyNode r →
      u.NameMeans (ρ scope) m.name anyNode (r.map ρ) :=
    fun hr => h.nameMeans_relabel h' (fun _ _ => rfl) hscope hr
  cases hb with
  | ofLocal hlocal => exact .ofLocal hlocal
  | @var before after owner hlocal heq hnearest hholds =>
    have heq' : u.ancestors (ρ scope) ++ [root] = before.map ρ ++ ρ owner :: after.map ρ := by
      rw [hchain, heq, List.map_append, List.map_cons]
    refine .var hlocal heq'
      (hnone (fun i hi => hlive i (heq ▸ List.mem_append_left _ hi)) hnearest) ?_
    exact (h.holdsVariable_relabel h' (hlive _ (heq ▸ by simp))).mpr hholds
  | marked hlocal hnot hmarked => exact .marked hlocal (hchain ▸ hnone hlive hnot) hmarked
  | node hlocal hnot hunmarked hname =>
    exact .node hlocal (hchain ▸ hnone hlive hnot) hunmarked (hmeans hname)
  | nothing hlocal hnot hunmarked hname =>
    exact .nothing hlocal (hchain ▸ hnone hlive hnot) hunmarked (hmeans hname)

/-- What a mention may be bound to is decided up to places. -/
theorem bindingsAgree_self (h : t.Built L lay) {m : Mention} {b b' : Binding}
    (hb : t.MentionMeans scope m b) (hb' : t.MentionMeans scope m b') :
    BindingsAgree id t t b b' := by
  -- two different rules exclude each other: by a local or marked mention, by a variable around the
  -- scope, or by a name that means something
  cases hb with
  | ofLocal hlocal =>
    cases hb' with
    | ofLocal => exact .unbound
    | _ => simp_all
  | @var before after owner hlocal heq hnearest hholds =>
    have howner : owner ∈ t.ancestors scope ++ [root] := heq ▸ by simp
    cases hb' with
    | var _ heq' hnearest' hholds' =>
      obtain rfl := eq_of_nearest (heq.symm.trans heq') hholds hholds' hnearest hnearest'
      exact .var
    | ofLocal => simp_all
    | marked _ hnot | node _ hnot | nothing _ hnot => exact absurd hholds (hnot _ howner)
  | marked hlocal hnot hmarked =>
    cases hb' with
    | var _ heq' _ hholds' => exact absurd hholds' (hnot _ (heq' ▸ by simp))
    | ofLocal | marked => exact .unbound
    | _ => simp_all
  | node hlocal hnot hunmarked hname =>
    cases hb' with
    | var _ heq' _ hholds' => exact absurd hholds' (hnot _ (heq' ▸ by simp))
    | node _ _ _ hname' =>
      exact .node (Option.some.inj (h.placeOf_eq_of_nameMeans hname' hname))
    | nothing _ _ _ hname' => cases h.placeOf_eq_of_nameMeans hname' hname
    | _ => simp_all
  | nothing hlocal hnot hunmarked hname =>
    cases hb' with
    | var _ heq' _ hholds' => exact absurd hholds' (hnot _ (heq' ▸ by simp))
    | node _ _ _ hname' => cases h.placeOf_eq_of_nameMeans hname' hname
    | nothing | ofLocal => exact .unbound
    | _ => simp_all

/-- What a mention is bound to in the two indexes is the same up to places. -/
theorem bindingsAgree (h : t.Built L lay) (h' : u.Built L (lay.relabel ρ))
    (hscope : t.isLive scope) {m : Mention} {b b' : Binding} (hb : t.MentionMeans scope m b)
    (hb' : u.MentionMeans (ρ scope) m b') : BindingsAgree ρ t u b b' := by
  -- in `u` both `b'` and the counterpart of `b` are meant
  have hagree := h'.bindingsAgree_self (h.mentionMeans_relabel h' hscope hb) hb'
  cases b with
  | unbound =>
    cases hagree
    exact .unbound
  | node i =>
    cases hagree with
    | node hplace =>
      refine .node (hplace.trans (h.placeOf_relabel h' ?_))
      cases hb with
      | node _ _ _ hname => exact hname.isLive
  | var owner name =>
    cases hagree
    exact .var

end Built

end Index

end SemanticIndex
