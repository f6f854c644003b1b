import SemanticIndex.Proofs.Access.Operations
import SemanticIndex.Proofs.Access.Pragmas

/-!
# Adding by Direct Access

A file is added in one go: the node of its package is made, or a root of its own, its definitions
are indexed, its pragmas added to the fragments that these have left, and the nodes that the file
has come to are summed up (`Direct.contribute`). All nodes and fragments to which this goes are
there, and it comes to what laying the outline of the file over the forest comes to
(`Direct.add_eq`).
-/

namespace SemanticIndex

/-- No pragma has come to a block before it is placed. -/
theorem Definition.pragmas_of_mem_blocksAll {file : SourcePath} {comments : List Comment}
    {path : List String} {c : Bool} {ds : List Definition} {b : Block}
    (hb : b ∈ blocksAll file comments path c ds) : b.fragment.pragmas = [] := by
  obtain ⟨s, -, hsb⟩ := mem_blocksAll_iff.mp hb
  unfold Site.block? at hsb
  split at hsb
  case h_3 => cases hsb
  all_goals
    obtain rfl := Option.some.inj hsb
    rfl

/-- Bare blocks have no pragmas yet. -/
theorem Document.pragmas_of_mem_bareBlocks {file : SourcePath} {d : Document} {b : Block}
    (hb : b ∈ d.bareBlocks file) : b.fragment.pragmas = [] := by
  rcases List.mem_append.mp hb with hb | hb
  · exact Definition.pragmas_of_mem_blocksAll hb
  · rw [List.mem_singleton.mp hb]
    rfl

namespace Indexer

/-- Placing blocks leads to the same index and to the same nodes, whether or not spans are noted. -/
theorem foldl_place_eq (p : NodeId) (s : Indexer) (bs : List Block) :
    bs.foldl (Index.place p) (s.index, s.touched) =
      ((bs.foldl (place p) s).index, (bs.foldl (place p) s).touched) := by
  induction bs generalizing s with
  | nil => rfl
  | cons b bs ih => exact ih (s.place p b)

/-- The pragmas of an outline are those that none of the noted spans holds. -/
theorem pragmas_outline (s : Indexer) (hspans : s.spans = []) (p : NodeId) (path : SourcePath)
    (d : Document) :
    (d.pragmas.filter fun q => (innermost? q.position
      ((d.outline path).blocks.foldl (place p) s).spans).isNone) = (d.outline path).pragmas := by
  have hblocks : (d.outline path).blocks =
      Outline.attachPragmas (d.bareBlocks path) (Outline.homes (d.bareBlocks path) d.pragmas) := rfl
  have hpragmas : (d.outline path).pragmas =
      ((Outline.homes (d.bareBlocks path) d.pragmas).filter fun h => h.2.isNone).map Prod.fst := rfl
  rw [hblocks, hpragmas, Outline.homes, List.filter_map, List.map_map]
  simp only [spans_foldl_place, hspans, List.nil_append, innermost?_map, Option.isNone_map,
    Outline.spans_attachPragmas, Function.comp_def, List.map_id']

end Indexer

/-- Adding a file places the blocks of its outline and sums up the nodes that these have touched. -/
theorem Index.contribute_outline (t : Index) (path : SourcePath) (d : Document) :
    t.contribute path (d.outline path) =
      let (u, top, ids) := t.openTop d.packagePath
      let s := (d.outline path).blocks.foldl (Indexer.place top) ⟨u, ids, []⟩
      (s.touched.foldl refresh s.index).recorded path (d.outline path) top s.touched := by
  have hpackage : (d.outline path).packagePath = d.packagePath := rfl
  rw [contribute, hpackage]
  generalize t.openTop d.packagePath = r
  obtain ⟨u, top, ids⟩ := r
  dsimp only
  rw [Indexer.foldl_place_eq top ⟨u, ids, []⟩]
  rfl

namespace Direct

/-- The nodes on the way from `id` along some declared names, made where they are missing. -/
def ensurePath (t : Index) (id : NodeId) : List String → Direct (Index × List NodeId)
  | [] => return (t, [])
  | name :: names => do
    let (t, child) ← ensureChild t id name
    let (t, below) ← ensurePath t child names
    return (t, child :: below)

/-- The index with a new root, and the root. -/
def addRoot (t : Index) : Direct (Index × NodeId) := do
  let made : Index := { t with
    nodes := t.nodes.insert t.nextId (.new "" "" [])
    nextId := t.nextId + 1 }
  return ({ made with names := made.names.addNode t.nextId (← node made t.nextId) }, t.nextId)

/-- The node to which a file belongs, made if it is missing, and the nodes that lead to it. -/
def openTop (t : Index) (packagePath : List String) : Direct (Index × NodeId × List NodeId) := do
  match packagePath with
  | [] =>
    let (t, top) ← addRoot t
    return (t, top, [top])
  | name :: names =>
    let (t, ids) ← ensurePath t Index.root (name :: names)
    return (t, ids.getLast?.getD Index.root, ids)

/-- Indexes the content of a file that belongs to the node `top`: its definitions, the file as a
whole, and then its pragmas. -/
def indexDocument (s : Indexer) (top : NodeId) (path : SourcePath) (d : Document) :
    Direct Indexer := do
  let s ← indexDefinitions path d.comments top false d.definitions s
  let s ← push s top (Fragment.ofDocument path d)
  d.pragmas.foldlM attachPragma s

/-- The index with a document as the content of a file that is not indexed. -/
def contribute (t : Index) (path : SourcePath) (d : Document) : Direct Index := do
  let (t, top, ids) ← openTop t d.packagePath
  let s ← indexDocument ⟨t, ids, []⟩ top path d
  let pragmas := d.pragmas.filter fun q => (innermost? q.position s.spans).isNone
  return (s.touched.foldl Index.refresh s.index).recorded path { d.outline path with pragmas } top
    s.touched

/-- The index with a document as the content of a file, in place of what the file held before. -/
def add (t : Index) (path : SourcePath) (d : Document) : Direct Index := do
  let t ← ensureNames t
  let t ← remove t path
  contribute t path d

/-- The index of no files. -/
def empty (options : IndexOptions) : Direct Index := do
  let (t, _) ← addRoot
    { options, nodes := ∅, nextId := Index.root, names := .empty, files := ∅, registrations := [] }
  return t

section

variable {t : Index} {L : Ledger} {lay : Layout} {ds : List Deposit} {stale : List NodeId}
  {a : Address} {id : NodeId}

/-- Each node on the way is there when its child is asked for. -/
theorem ensurePath_eq (h : t.Holds lay ds stale) (ha : lay a = some id) (names : List String) :
    ensurePath t id names = .ok (t.ensurePath id names) := by
  induction names generalizing t lay a id stale with
  | nil => rfl
  | cons name names ih =>
    obtain ⟨lay', hholds, -, hchild, -⟩ := h.exists_ensureChild ha name
    rw [ensurePath, ensureChild_eq (h.laid.isLive_iff.mpr ⟨a, ha⟩) (h.laid.ne_next ha), ok_bind]
    rw [Index.ensurePath]
    generalize t.ensureChild id name = r at hholds hchild
    obtain ⟨u, child⟩ := r
    dsimp only at hholds hchild ⊢
    rw [ih hholds hchild, ok_bind]
    rfl

/-- A root is added without a fault. -/
theorem addRoot_eq (t : Index) : addRoot t = .ok (t.addNode (.new "" "" []), t.nextId) := by
  have hmade : Index.node? { t with
      nodes := t.nodes.insert t.nextId (.new "" "" [])
      nextId := t.nextId + 1 } t.nextId = some (.new "" "" []) :=
    (t.node?_addNode (.new "" "" []) t.nextId).trans (if_pos rfl)
  rw [addRoot, node_eq hmade]
  rfl

/-- The node of a package, or a root of its own, is opened without a fault. -/
theorem openTop_eq (h : t.Holds lay ds stale) (packagePath : List String) :
    openTop t packagePath = .ok (t.openTop packagePath) := by
  cases packagePath with
  | nil => rw [openTop, addRoot_eq]; rfl
  | cons name names => rw [openTop, ensurePath_eq h h.laid.root_at]; rfl

/-- The empty index comes about without a fault. -/
theorem empty_eq (options : IndexOptions) : empty options = .ok (Index.empty options) := by
  rw [empty, addRoot_eq]
  rfl

/-- The file has come to its top, and from there it comes to where each block is put. -/
theorem indexDocument_eq {s : Indexer} {top : NodeId} (hs : s.Stands lay) (htop : lay a = some top)
    (hmem : top ∈ s.touched) (hspans : s.spans = []) (path : SourcePath) (d : Document) :
    indexDocument s top path d = .ok ((d.outline path).blocks.foldl (Indexer.place top) s) := by
  have hreached : s.Reached lay a [] top := ⟨htop, [], .nil, List.nil_subset _⟩
  obtain ⟨lay', hlater⟩ := hs.exists_foldl_place htop hmem
    (Definition.blocksAll path d.comments [] false d.definitions)
  -- the whole file is one more block, on the top itself, where nothing has to be made
  have hbare : (d.bareBlocks path).foldl (Indexer.place top) s =
      ((Definition.blocksAll path d.comments [] false d.definitions).foldl
        (Indexer.place top) s).place top ⟨[], Fragment.ofDocument path d⟩ := List.foldl_concat ..
  rw [indexDocument, indexDefinitions_eq _ hs htop hmem hreached, ok_bind,
    push_eq_place hlater.stands (hlater.keep htop) (hreached.later hlater), ok_bind, ← hbare]
  exact attachPragmas_eq ⟨lay, a, hs, htop, hmem⟩ hspans
    (fun b hb => Document.pragmas_of_mem_bareBlocks hb) d.pragmas

/-- All nodes to which adding a file goes are there when it does. -/
theorem contribute_eq (h : t.Built L lay) {path : SourcePath} (hnew : t.hasFile path = false)
    (d : Document) : contribute t path d = .ok (t.contribute path (d.outline path)) := by
  have hopen : ∃ lay', t.Laying lay ((d.outline path).opening path) L.deposits
      (t.openTop d.packagePath).1 lay' (t.openTop d.packagePath).2.2 ∧
      lay' ((d.outline path).topAddress path) = some (t.openTop d.packagePath).2.1 :=
    h.toHolds.exists_openTop (o := d.outline path) fun _ => h.isolated_eq_none hnew
  rw [contribute, openTop_eq h.toHolds, ok_bind, Index.contribute_outline]
  generalize t.openTop d.packagePath = r at hopen
  obtain ⟨u, top, ids⟩ := r
  obtain ⟨lay', hopen, htop⟩ := hopen
  -- the nodes that lead to the top have been noted, and so has the top
  have hmem := (hopen.listed.mem_iff hopen.holds.laid.injective htop).mpr
    Outline.topAddress_mem_opening
  have hs : Indexer.Stands ⟨u, ids, []⟩ lay' := ⟨_, hopen.holds⟩
  dsimp only
  rw [indexDocument_eq hs htop hmem rfl, ok_bind, Indexer.pragmas_outline ⟨u, ids, []⟩ rfl]
  rfl

/-- A document is added without a fault. -/
theorem add_eq (h : t.Built L lay) (path : SourcePath) (d : Document) :
    add t path d = .ok (t.add path d) := by
  obtain ⟨lay', hremoved⟩ := h.exists_remove path
  rw [add, ensureNames_eq h, ok_bind, remove_eq, ok_bind]
  exact contribute_eq hremoved (h.hasFile_remove path) d

end

end Direct

end SemanticIndex
