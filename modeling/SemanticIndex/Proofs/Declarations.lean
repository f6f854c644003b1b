import SemanticIndex.Proofs.Fields
import SemanticIndex.Proofs.Places

/-!
# The Index Holds What Its Files Declare

An index that is built from a ledger mirrors its files (`Index.Mirrors`): there is a node where some
file declares a package or an object and nowhere else, the history of a field lists the fields of
that name that lie in the node, and a template is the last one of its name.

Files with a package share the common namespace, and every other file has a tree of its own
(`Ledger.sharing`). In each tree nodes and histories are read off the documents alone, file by file
in the order of the ledger and in source order within a file.
-/

namespace SemanticIndex

/-- The file in whose tree the document is laid, if it is not laid in the common namespace. -/
def Document.home (file : SourcePath) (d : Document) : Option (List PathComponent) :=
  if d.packagePath.isEmpty then some file.components else none

/-- The contributions of the document to the field `x` of the node at the end of the path `names`,
in source order. -/
def Document.history (file : SourcePath) (d : Document) (names : List String) (x : String) :
    List FieldEntry :=
  (d.fieldSites.filter fun s =>
    (d.packagePath ++ s.path).map nodeName = names ∧ s.field.name = x).map (FieldSite.entry file)

/-- The last template of a name that the document defines. -/
def Document.template? (d : Document) (name : String) : Option Template :=
  (d.templates.filter fun t => t.name == name).getLast?

/-- The files that are laid in one tree: those with a package in the common namespace, every other
one in a tree that it has to itself. -/
def Ledger.sharing (L : Ledger) (home : Option (List PathComponent)) : Ledger :=
  L.filter fun e => e.2.home e.1 = home

namespace Index

/-- The root of the common namespace, or of an isolated file. -/
def rootOf? (t : Index) : Option (List PathComponent) → Option NodeId
  | none => some root
  | some k => t.files[k]?.bind fun f => if f.isolated then some f.top else none

/-- The index holds what the files of `L` declare and nothing else. -/
structure Mirrors (t : Index) (L : Ledger) : Prop where
  hasFile_iff : ∀ path, t.hasFile path = true ↔ ∃ e ∈ L, e.1.components = path.components
  /-- A file without a package has a root of its own, and no other file has. -/
  rootOf?_isSome_iff : ∀ k, (t.rootOf? (some k)).isSome ↔ ∃ e ∈ L, e.2.home e.1 = some k
  /-- Every node is reached from one of the roots. -/
  reached : ∀ i, t.isLive i = true →
    ∃ home r, t.rootOf? home = some r ∧ t.follow? r (t.pathNames i) = some i
  /-- A path leads somewhere if it begins one that is declared in its tree. -/
  follow?_isSome_iff : ∀ home r names, t.rootOf? home = some r → names ≠ [] →
    ((t.follow? r names).isSome ↔ ∃ e ∈ L.sharing home, ∃ p ∈ e.2.declaredPaths,
      names.map nodeName <+: p.map nodeName)
  /-- The history of a field is what the files of its tree contribute to it. -/
  history_eq : ∀ home r names i n x, t.rootOf? home = some r → t.follow? r names = some i →
    t.node? i = some n →
    (n.summary.fields[x]?.getD []).map FieldEntry.withoutValue =
      (L.sharing home).flatMap fun e => e.2.history e.1 (names.map nodeName) x
  /-- The latest file that defines a template decides, and in it the last definition. -/
  template?_eq : ∀ name, t.template? name =
    L.reverse.findSome? fun e => (e.2.template? name).map (e.1, ·)

end Index

/-! ### Addresses of blocks -/

namespace Outline

variable {o : Outline} {path : SourcePath}

/-- The top address is reached from the root of its tree along the path of the package. -/
theorem topAddress_eq (o : Outline) (path : SourcePath) :
    o.topAddress path = ⟨o.home path, (o.packagePath.map nodeName).reverse⟩ := by
  unfold topAddress home
  cases o.packagePath with
  | nil => rfl
  | cons x names =>
    show Address.origin.down ((x :: names).map nodeName) = _
    rw [Address.down_eq]
    simp [Address.origin]

/-- A block stands at the end of the path of its package, extended by its own. -/
theorem address_eq (o : Outline) (path : SourcePath) (b : Block) :
    b.address (o.topAddress path) =
      ⟨o.home path, ((o.packagePath ++ b.path).map nodeName).reverse⟩ := by
  rw [Block.address, Address.down_eq, topAddress_eq, List.map_append, List.reverse_append]

end Outline

section

variable {L : Ledger} {home : Option (List PathComponent)} {names : List String}

/-! ### Paths -/

/-- Whether an address lies at or above a block is a matter of the tree and of the names. -/
theorem Document.le_address_iff {file : SourcePath} {d : Document} {b : Block} :
    (⟨home, names.reverse⟩ : Address) ≤ b.address ((d.outline file).topAddress file) ↔
      d.home file = home ∧ names <+: (d.packagePath ++ b.path).map nodeName := by
  rw [Outline.address_eq, Address.le_def, List.reverse_suffix, eq_comm]
  rfl

/-- Something is deposited at or below the end of a path if the path begins one that is declared. -/
theorem Ledger.exists_deposit_iff :
    (∃ d ∈ L.deposits, (⟨home, names.reverse⟩ : Address) ≤ d.1) ↔
      ∃ e ∈ L.sharing home, ∃ p ∈ e.2.declaredPaths, names <+: p.map nodeName := by
  -- the declared paths of a document are the paths of its blocks
  have hpaths : ∀ (e : SourcePath × Document) (p : List String), p ∈ e.2.declaredPaths ↔
      ∃ b ∈ (e.2.outline e.1).blocks, e.2.packagePath ++ b.path = p := by
    intro e p
    rw [Document.declaredPaths, List.mem_cons, List.mem_map]
    constructor
    · rintro (rfl | ⟨q, hq, rfl⟩)
      · obtain ⟨b, hb, hpath⟩ := Document.exists_block_of_file e.1 e.2
        exact ⟨b, hb, by rw [hpath, List.append_nil]⟩
      · obtain ⟨b, hb, rfl⟩ := Document.exists_block_iff.mpr (Or.inr hq)
        exact ⟨b, hb, rfl⟩
    · rintro ⟨b, hb, rfl⟩
      rcases Document.exists_block_iff.mp ⟨b, hb, rfl⟩ with hnil | hq
      · exact Or.inl (by rw [hnil, List.append_nil])
      · exact Or.inr ⟨b.path, hq, rfl⟩
  simp only [Ledger.sharing, List.mem_filter, decide_eq_true_eq, hpaths]
  constructor
  · rintro ⟨d, hd, hle⟩
    obtain ⟨e, he, hd⟩ := Ledger.mem_deposits_iff.mp hd
    obtain ⟨b, hb, rfl⟩ := List.mem_map.mp hd
    obtain ⟨hhome, hnames⟩ := Document.le_address_iff.mp hle
    exact ⟨e, ⟨he, hhome⟩, _, ⟨b, hb, rfl⟩, hnames⟩
  · rintro ⟨e, ⟨he, hhome⟩, p, ⟨b, hb, rfl⟩, hnames⟩
    exact ⟨_, Ledger.mem_deposits_iff.mpr ⟨e, he, List.mem_map.mpr ⟨b, hb, rfl⟩⟩,
      Document.le_address_iff.mpr ⟨hhome, hnames⟩⟩

/-! ### Fields -/

/-- Whether a path of a document leads to the end of the path `names`. -/
def Document.leadsTo (d : Document) (names : List String) (q : List String) : Bool :=
  (d.packagePath ++ q).map nodeName = names

/-- Paths to which the same names lead are equally long. -/
theorem Document.length_eq_of_leadsTo {d : Document} (q q' : List String)
    (hq : d.leadsTo names q = true) (hq' : d.leadsTo names q' = true) :
    q.length = q'.length := by
  have hlen := congrArg List.length ((of_decide_eq_true hq).trans (of_decide_eq_true hq').symm)
  simpa using hlen

/-- The fields of what a document leaves on a node are those that lie there. -/
theorem Document.flatMap_fragmentsAt (file : SourcePath) (d : Document) :
    (fragmentsAt ((d.outline file).deposits file) ⟨home, names.reverse⟩).flatMap
        Summary.fragmentFields =
      if d.home file = home then Site.entries (d.leadsTo names) file d.sites else [] := by
  have hat : ∀ b : Block, b.address ((d.outline file).topAddress file) = ⟨home, names.reverse⟩ ↔
      d.home file = home ∧ d.leadsTo names b.path = true := by
    intro b
    rw [Outline.address_eq, Address.mk.injEq, List.reverse_inj, leadsTo, decide_eq_true_eq]
    rfl
  rw [fragmentsAt, Outline.deposits, List.filter_map, List.map_map, List.flatMap_map]
  simp only [Function.comp_def, hat]
  split
  · rename_i hhome
    rw [← entries_outline length_eq_of_leadsTo file d, Block.entries]
    simp only [hhome, true_and, Bool.decide_eq_true]
  · rename_i hhome
    simp [hhome]

/-- Those of one name are what the document contributes to the history of the field. -/
theorem Document.history_eq (file : SourcePath) (d : Document) (x : String) :
    ((Site.entries (d.leadsTo names) file d.sites).filter fun e => e.1 = x).map Prod.snd =
      d.history file names x := by
  rw [Site.entries, List.filter_map, List.filter_filter, List.map_map, history, fieldSites]
  simp only [Function.comp_def, leadsTo, Bool.decide_and, Bool.and_comm]

/-- What all files leave on a node, as the history of a field. -/
theorem Ledger.flatMap_fragmentsAt (L : Ledger) (x : String) :
    ((((fragmentsAt L.deposits ⟨home, names.reverse⟩).flatMap Summary.fragmentFields).filter
      fun e => e.1 = x).map Prod.snd) =
      (L.sharing home).flatMap fun e => e.2.history e.1 names x := by
  induction L with
  | nil => rfl
  | cons e L ih =>
    have hdeposits : deposits (e :: L) = (e.2.outline e.1).deposits e.1 ++ deposits L :=
      List.flatMap_cons
    rw [hdeposits, fragmentsAt_append, List.flatMap_append, List.filter_append, List.map_append, ih,
      Document.flatMap_fragmentsAt, sharing, sharing, List.filter_cons]
    -- a file in another tree has left nothing there
    by_cases hhome : e.2.home e.1 = home
    · rw [if_pos hhome, if_pos (decide_eq_true hhome), List.flatMap_cons, Document.history_eq]
    · rw [if_neg hhome, if_neg (by simpa using hhome)]
      rfl

/-! ### Templates -/

/-- The last file that defines a template of a name decides, and in it the last definition. -/
theorem Ledger.getLast?_registrations (L : Ledger) (name : String) :
    (L.registrations.filter fun r => r.2.name == name).getLast? =
      L.reverse.findSome? fun e => (e.2.template? name).map (e.1, ·) := by
  rw [registrations, List.filter_flatMap, List.getLast?_flatMap]
  refine congrArg (List.findSome? · L.reverse) (funext fun e => ?_)
  rw [Document.templates_outline, List.filter_map, List.getLast?_map, Document.template?]
  rfl

end

/-! ### The index -/

namespace Index

variable {t : Index} {L : Ledger} {lay : Layout} {home : Option (List PathComponent)} {i r : NodeId}
  {n : Node}

namespace Built

/-- The roots stand where the trees begin. -/
theorem rootOf?_eq (h : t.Built L lay) (home : Option (List PathComponent)) :
    t.rootOf? home = lay ⟨home, []⟩ := by
  cases home with
  | none => exact h.laid.root_at.symm
  | some k =>
    refine Option.ext fun i => ?_
    have hroot : lay ⟨some k, []⟩ = some i ↔ _ := h.isolated_at_iff
    rw [hroot, rootOf?, Option.bind_eq_some_iff]
    simp

/-- Names lead from a root to the address that they make up. -/
theorem follow?_rootOf? (h : t.Built L lay) (hr : t.rootOf? home = some r) (names : List String) :
    t.follow? r names = lay ⟨home, (names.map nodeName).reverse⟩ := by
  rw [h.rootOf?_eq] at hr
  rw [h.laid.follow?_eq hr, Address.down_eq, List.append_nil]

/-- Every live node is reached from a root by its names. -/
theorem reached (h : t.Built L lay) (hi : t.isLive i = true) :
    ∃ home r, t.rootOf? home = some r ∧ t.follow? r (t.pathNames i) = some i := by
  obtain ⟨⟨home, trail⟩, ha⟩ := h.laid.isLive_iff.mp hi
  obtain ⟨r, hr⟩ := h.laid.closed_of_le ha (a := ⟨home, []⟩)
    ⟨rfl, List.nil_suffix⟩
  rw [← h.rootOf?_eq] at hr
  refine ⟨home, r, hr, ?_⟩
  -- the names of nodes have no sigils to lose
  have hplain : ∀ (trail : List String) i, lay ⟨home, trail⟩ = some i →
      trail.map nodeName = trail := by
    intro trail
    induction trail with
    | nil => exact fun _ _ => rfl
    | cons x trail ih =>
      intro i hi
      obtain ⟨p, hp⟩ := h.laid.closed (a := ⟨home, trail⟩) hi
      rw [List.map_cons, h.laid.plain (a := ⟨home, trail⟩) hi, ih p hp]
  rw [h.follow?_rootOf? hr, h.laid.pathNames_eq ha, ← List.map_reverse, List.reverse_reverse,
    hplain trail i ha, ha]

/-- The history of a field is what the files of the tree contribute to it. -/
theorem history_at (h : t.Built L lay) {names : List String}
    (hi : lay ⟨home, names.reverse⟩ = some i) (hn : t.node? i = some n) (x : String) :
    (n.summary.fields[x]?.getD []).map FieldEntry.withoutValue =
      (L.sharing home).flatMap fun e => e.2.history e.1 names x := by
  rw [(h.current hn List.not_mem_nil).map_fields_eq, h.fragments_eq hi hn,
    Ledger.flatMap_fragmentsAt]

/-- An index that is built from a ledger mirrors its files. -/
theorem mirrors (h : t.Built L lay) : t.Mirrors L where
  hasFile_iff _ := h.hasFile_iff
  rootOf?_isSome_iff k := by
    rw [h.rootOf?_eq, Option.isSome_iff_exists, h.taken_iff, ← List.reverse_nil,
      Ledger.exists_deposit_iff]
    simp only [Ledger.sharing, List.mem_filter, decide_eq_true_eq]
    constructor
    · rintro (horigin | ⟨e, ⟨he, hhome⟩, -⟩)
      · cases congrArg Address.home horigin
      · exact ⟨e, he, hhome⟩
    -- a file comes to its root with the path of its package
    · rintro ⟨e, he, hhome⟩
      exact Or.inr ⟨e, ⟨he, hhome⟩, _, List.mem_cons_self, List.nil_prefix⟩
  reached _ := h.reached
  follow?_isSome_iff home r names hr hne := by
    rw [h.follow?_rootOf? hr, Option.isSome_iff_exists, h.taken_iff, Ledger.exists_deposit_iff]
    -- only the empty path leads to the origin
    refine or_iff_right fun horigin => hne ?_
    have htrail : (names.map nodeName).reverse = [] := congrArg Address.trail horigin
    simpa using htrail
  history_eq _ _ names _ _ x hr hi hn :=
    h.history_at (h.follow?_rootOf? hr names ▸ hi) hn x
  template?_eq name := by
    rw [Index.template?, h.registrations_eq, Ledger.getLast?_registrations]

end Built

/-- After any run the index holds what its files declare, and nothing else: the files that are
indexed, each with its last document, in the order in which they were last added. -/
theorem mirrors_run (options : IndexOptions) (ops : List Operation) :
    (run options ops).Mirrors (Ledger.latest ops) := by
  obtain ⟨lay, h, -⟩ := exists_built_run options ops
  exact h.mirrors

end Index

end SemanticIndex
