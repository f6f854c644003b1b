import SemanticIndex.Proofs.Places

/-!
# Paths Lead Back

The path of a node is made of the names on the way down to it, and a look-up cuts it into names
again. If none of these names holds a dot they are the same names
(`Index.Laid.nameSegments_path`), and child by child they lead from the root to the node. Below any
node, what a name leads to child by child comes first among all that it leads to
(`Index.Built.lookup?_of_leadsFrom`), however many nodes carry its first segment. So the path finds
the node, wherever the look-up may begin to follow it.
-/

namespace SemanticIndex

namespace Address

/-- The names of an address are those of the addresses on the way down to it. -/
theorem mem_trail_iff {a : Address} {x : String} : x ∈ a.trail ↔ ∃ b : Address, b.child x ≤ a := by
  constructor
  · intro hx
    induction a with
    | root home => cases hx
    | child a y ih =>
      rcases List.mem_cons.mp hx with rfl | hx
      · exact ⟨a, le_rfl⟩
      · obtain ⟨b, hle⟩ := ih hx
        exact ⟨b, hle.trans (le_child a y)⟩
  · rintro ⟨b, -, hsuffix⟩
    exact hsuffix.subset List.mem_cons_self

/-- What a name leads to from a child it leads to from further down as well. -/
theorem Leads.below {b c : Address} {mode : LookupMode} {name : String}
    (h : c.Leads mode name b) : c.Leads .below name b := by
  cases mode with
  | below => exact h
  | child =>
    obtain ⟨hsegments, hne, hlabel, x, rfl⟩ := h
    exact .intro hsegments hne hlabel (lt_child c x)

/-- What a name leads to is no nearer to the root than what its segments lead to child by child,
and nothing else is as near. -/
theorem Leads.eq_down {b c : Address} {mode : LookupMode} {name first : String}
    {rest : List String} (h : c.Leads mode name b) (hsegments : nameSegments name = first :: rest)
    (hlength : b.trail.length ≤ (c.down ((first :: rest).map nodeName)).trail.length) :
    b = c.down ((first :: rest).map nodeName) := by
  obtain @⟨first', rest', a, hsegments', -, hlabel, hlt⟩ := h.below
  obtain ⟨rfl, rfl⟩ := List.cons.inj (hsegments.symm.trans hsegments')
  obtain ⟨x, hle⟩ := lt_iff_exists_child_le.mp hlt
  -- the way from where the first segment is found is as long as the rest of the way down
  have hnear : a.trail.length ≤ (c.child x).trail.length := by
    simp only [down_eq, List.length_append, List.length_reverse, List.length_map, List.map_cons,
      List.length_cons, trail_child] at hlength ⊢
    omega
  obtain rfl := eq_of_le_of_length_le hle hnear
  rw [label_child] at hlabel
  rw [hlabel, List.map_cons, down_cons]

end Address

namespace Index

/-- No name on the way down from `top` to a node is empty or holds a dot. -/
def Legible (t : Index) (top id : NodeId) : Prop :=
  ∀ i ∈ t.ancestors id, i ≠ top → ∀ n ∈ t.node? i, n.name ≠ "" ∧ '.' ∉ n.name.toList

instance (t : Index) (top id : NodeId) : Decidable (t.Legible top id) :=
  inferInstanceAs (Decidable (∀ i ∈ t.ancestors id, i ≠ top →
    ∀ n ∈ t.node? i, n.name ≠ "" ∧ '.' ∉ n.name.toList))

variable {t : Index} {L : Ledger} {lay : Layout} {a : Address} {id anchor top : NodeId} {n : Node}
  {name : String} {accept : NodeFilter}

namespace Laid

/-- The names of an address have no sigils. -/
theorem plain_of_mem_trail (h : t.Laid lay) (ha : lay a = some id) {x : String}
    (hx : x ∈ a.trail) : nodeName x = x := by
  obtain ⟨b, hle⟩ := Address.mem_trail_iff.mp hx
  obtain ⟨j, hj⟩ := h.closed_of_le ha hle
  exact h.plain hj

/-- The names of an address are those on the way down to it. -/
theorem legible_of_mem_trail (h : t.Laid lay) (ha : lay a = some id)
    (htop : lay ⟨a.home, []⟩ = some top) (hlegible : t.Legible top id) {x : String}
    (hx : x ∈ a.trail) : x ≠ "" ∧ '.' ∉ x.toList := by
  obtain ⟨b, hle⟩ := Address.mem_trail_iff.mp hx
  obtain ⟨j, hj⟩ := h.closed_of_le ha hle
  obtain ⟨n, hn⟩ := h.exists_node hj
  have hne : j ≠ top := by
    rintro rfl
    cases congrArg Address.trail (h.injective hj htop)
  have hname := hlegible j ((h.mem_ancestors_iff ha).mpr ⟨_, hle, hj⟩) hne n hn
  rwa [h.name_eq hj hn, Address.label_child] at hname

/-- Cutting a path gives the names of which it is made, if none of them holds a dot. -/
theorem nameSegments_path (h : t.Laid lay) (ha : lay a = some id) (hne : a.trail ≠ [])
    (hdots : ∀ x ∈ a.trail, '.' ∉ x.toList) : nameSegments (t.path id) = a.trail.reverse := by
  rw [h.path_eq ha]
  exact Text.split_intercalate (mt List.reverse_eq_nil_iff.mp hne)
    fun x hx => hdots x (List.mem_reverse.mp hx)

/-- A legible path leads from the root to its node, child by child. -/
theorem leadsFrom_path (h : t.Laid lay) (ha : lay a = some id)
    (htop : lay ⟨a.home, []⟩ = some top) (hne : id ≠ top) (hlegible : t.Legible top id) :
    t.LeadsFrom top (t.path id) id := by
  have hnames : ∀ {x}, x ∈ a.trail → x ≠ "" ∧ '.' ∉ x.toList :=
    h.legible_of_mem_trail ha htop hlegible
  have htrail : a.trail ≠ [] := by
    intro hnil
    refine hne (Option.some.inj (ha.symm.trans (Eq.trans ?_ htop)))
    rw [← hnil]
  have hsegments := h.nameSegments_path ha htrail fun x hx => (hnames hx).2
  obtain ⟨first, rest, hcons⟩ := List.exists_cons_of_ne_nil (mt List.reverse_eq_nil_iff.mp htrail)
  have hmem : ∀ x ∈ first :: rest, x ∈ a.trail := fun x hx => by
    rwa [← hcons, List.mem_reverse] at hx
  have hplain : (first :: rest).map nodeName = first :: rest :=
    (List.map_congr_left fun x hx => h.plain_of_mem_trail ha (hmem x hx)).trans (List.map_id _)
  have hfirst := hmem first List.mem_cons_self
  refine ⟨first, rest, hsegments.trans hcons, ?_, ?_⟩
  · rw [h.plain_of_mem_trail ha hfirst]
    exact (hnames hfirst).1
  · rw [h.follow?_eq htop, hplain, ← hcons, Address.down_eq, List.reverse_reverse, List.append_nil]
    exact ha

end Laid

namespace Built

/-- What a name leads to child by child comes first among all that it leads to. -/
theorem lookup?_of_leadsFrom (h : t.Built L lay) (hleads : t.LeadsFrom anchor name id)
    (hn : t.node? id = some n) (haccept : accept id n = true) (mode : LookupMode) :
    t.lookup? anchor name mode accept = some id := by
  have hchild := h.leads_child_iff.mpr hleads
  obtain ⟨first, rest, hsegments, -, hfollow⟩ := hleads
  obtain ⟨p, hp⟩ : ∃ p, t.node? anchor = some p := by
    rw [follow?, child?] at hfollow
    obtain ⟨start, hstart, -⟩ := Option.bind_eq_some_iff.mp hfollow
    obtain ⟨p, hp, -⟩ := Option.bind_eq_some_iff.mp hstart
    exact ⟨p, hp⟩
  obtain ⟨c, hc⟩ := h.laid.exists_address hp
  have hb : lay (c.down ((first :: rest).map nodeName)) = some id :=
    (h.laid.follow?_eq hc _).symm.trans hfollow
  have hmatch : t.Matches anchor mode name accept id := by
    refine ⟨?_, n, hn, haccept⟩
    cases mode with
    | child => exact hchild
    | below => exact (h.laid.leads_iff hc hb).mpr ((h.laid.leads_iff hc hb).mp hchild).below
  obtain ⟨j, hj⟩ := Option.ne_none_iff_exists'.mp fun hnone =>
    h.lookup?_eq_none_iff.mp hnone id hmatch
  -- what is found is no farther from the root, so it is the node itself
  obtain ⟨⟨hjleads, m, hm, -⟩, hfirst⟩ := h.isFirstMatch_of_lookup?_eq hj
  obtain ⟨d, hd⟩ := h.laid.exists_address hm
  have hdepth : t.depth j ≤ t.depth id :=
    (hfirst id hmatch).elim Nat.le_of_lt fun heq => Nat.le_of_eq heq.1
  rw [h.laid.depth_eq hd, h.laid.depth_eq hb] at hdepth
  have heq := ((h.laid.leads_iff hc hd).mp hjleads).eq_down hsegments
    (Nat.le_of_succ_le_succ hdepth)
  rw [heq, hb, Option.some.injEq] at hd
  rw [hj, hd]

/-- The roots stand at the ends of addresses. -/
theorem exists_root_at (h : t.Built L lay)
    (htop : top = root ∨ ∃ f ∈ t.isolatedFiles, f.top = top) :
    ∃ home, lay ⟨home, []⟩ = some top := by
  rcases htop with rfl | ⟨f, hf, rfl⟩
  · exact ⟨none, h.laid.root_at⟩
  · exact ⟨_, h.isolated_at_of_mem hf⟩

/-- A legible path means its node, to every look-up from the root and to the resolution of names. -/
theorem lookup?_path (h : t.Built L lay) {home : Option (List PathComponent)}
    (htop : lay ⟨home, []⟩ = some top) (hbelow : t.isBelow id top = true)
    (hlegible : t.Legible top id) :
    (∀ mode, t.lookup? top (t.path id) mode anyNode = some id) ∧
      t.resolveName? top (t.path id) anyNode = some id := by
  have hmem : top ∈ t.ancestors id := List.mem_of_mem_tail (List.contains_iff_mem.mp hbelow)
  obtain ⟨a, ha, hle⟩ := h.laid.le_of_mem_ancestors htop hmem
  have hlt := (h.laid.isBelow_iff htop ha).mp hbelow
  obtain ⟨n, hn⟩ := h.laid.exists_node ha
  have hne : id ≠ top := by
    rintro rfl
    exact (h.laid.injective htop ha ▸ hlt).false
  have hhome : lay ⟨a.home, []⟩ = some top := hle.1 ▸ htop
  have hleads := h.laid.leadsFrom_path ha hhome hne hlegible
  have hlookup : ∀ mode, t.lookup? top (t.path id) mode anyNode = some id :=
    h.lookup?_of_leadsFrom hleads hn rfl
  refine ⟨hlookup, ?_⟩
  -- nothing stands above a root
  rw [resolveName?_eq, h.laid.ancestors_eq htop, Layout.above_of_root rfl,
    List.findSome?_singleton, hlookup, Option.some_or]

end Built

/-- After any run, if `top` is the common root or that of an isolated file and no name on the way
down to a node below it is empty or holds a dot, the path of the node leads back to it from `top`:
in look-ups of either mode and in the resolution of names. So different such nodes have different
paths. -/
theorem lookup?_path_run (options : IndexOptions) (ops : List Operation) {top id : NodeId}
    (htop : top = root ∨ ∃ f ∈ (run options ops).isolatedFiles, f.top = top)
    (hbelow : (run options ops).isBelow id top = true)
    (hlegible : (run options ops).Legible top id) :
    let t := run options ops
    t.lookup? top (t.path id) .child anyNode = some id ∧
      t.lookup? top (t.path id) .below anyNode = some id ∧
      t.resolveName? top (t.path id) anyNode = some id ∧
      ∀ j, t.isBelow j top = true → t.Legible top j → t.path j = t.path id → j = id := by
  intro t
  obtain ⟨lay, h, -⟩ := exists_built_run options ops
  obtain ⟨home, htop⟩ := h.exists_root_at htop
  obtain ⟨hlookup, hresolve⟩ := h.lookup?_path htop hbelow hlegible
  refine ⟨hlookup .child, hlookup .below, hresolve, fun j hj hlegible' hpath => ?_⟩
  have hj := (h.lookup?_path htop hj hlegible').1 .child
  rw [hpath, hlookup] at hj
  exact (Option.some.inj hj).symm

/-- A file in which many nodes are called `web`: one in another, and one in the `db` beside it. -/
def echoingDocument (package : Option PackageClause) : Document where
  package
  definitions := [.object (.reference "+web" .start)
      [.object (.reference "web" .start) [.object (.reference "$db" .start) [] {}] {},
        .object (.reference "db" .start) [.object (.reference "web" .start) [] {}] {}] {}]
  comments := []
  pragmas := []

/-- Below the root of the isolated file the path `web.db` is that of the outer `db`, though from the
inner `web` it leads to a `db` as well; and so it is with `web.web.db` below the common root. -/
theorem lookup?_path_run_of_echoes :
    let ops := [.add (.ofText "a.pcl") (echoingDocument (some ⟨"web", .start⟩)),
      .add (.ofText "b.pcl") (echoingDocument none)]
    let t := run {} ops
    (∃ f ∈ t.isolatedFiles, f.top = 7) ∧ t.isBelow 11 7 = true ∧ t.Legible 7 11 ∧
      (t.lookup? 7 (t.path 11) .child anyNode = some 11 ∧
        t.lookup? 7 (t.path 11) .below anyNode = some 11 ∧
        t.resolveName? 7 (t.path 11) anyNode = some 11 ∧
        ∀ j, t.isBelow j 7 = true → t.Legible 7 j → t.path j = t.path 11 → j = 11) ∧
      t.isBelow 5 root = true ∧ t.Legible root 5 ∧
      (t.lookup? root (t.path 5) .child anyNode = some 5 ∧
        t.lookup? root (t.path 5) .below anyNode = some 5 ∧
        t.resolveName? root (t.path 5) anyNode = some 5 ∧
        ∀ j, t.isBelow j root = true → t.Legible root j → t.path j = t.path 5 → j = 5) := by
  intro ops t
  have htop : ∃ f ∈ t.isolatedFiles, f.top = 7 := by decide +kernel
  have hbelow : t.isBelow 11 7 = true := by decide +kernel
  have hlegible : t.Legible 7 11 := by decide +kernel
  have hbelow' : t.isBelow 5 root = true := by decide +kernel
  have hlegible' : t.Legible root 5 := by decide +kernel
  exact ⟨htop, hbelow, hlegible, lookup?_path_run {} ops (Or.inr htop) hbelow hlegible, hbelow',
    hlegible', lookup?_path_run {} ops (Or.inl rfl) hbelow' hlegible'⟩

end Index

end SemanticIndex
