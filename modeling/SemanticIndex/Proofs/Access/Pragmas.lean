import Mathlib.Data.List.Induction
import SemanticIndex.Proofs.Access.Indexing
import SemanticIndex.Proofs.Fidelity
import SemanticIndex.Proofs.Nesting
import SemanticIndex.Proofs.Regions

/-!
# Pragmas by Direct Access

When the blocks of a file have been put on their nodes, each pragma is added to the fragment of the
innermost block around it: to the fragment with the noted place, on the noted node
(`Direct.attachPragma`). The node has by then not lost a fragment, so there is one at this place. To
add a pragma to a fragment that is on a node is the same as to add it to the block beforehand
(`Indexer.foldl_place_addPragma`), and so this comes to the same index as placing the blocks with
their pragmas (`Direct.attachPragmas_eq`).
-/

namespace SemanticIndex

/-- The fragment with one more pragma. -/
def Fragment.addPragma (f : Fragment) (text : String) : Fragment :=
  { f with pragmas := f.pragmas ++ [text] }

/-- The block with one more pragma. -/
def Block.addPragma (b : Block) (text : String) : Block :=
  { b with fragment := b.fragment.addPragma text }

namespace Outline

variable {b : Block} {bs bs' : List Block} {qs : List Pragma}

theorem spans_cons : spans (b :: bs) =
    (b.fragment.span.map (·, 0)).toList ++ (spans bs).map (Prod.map id (· + 1)) := by
  rw [spans, List.zipIdx_cons', List.filterMap_cons, List.filterMap_map, spans, List.map_filterMap]
  cases b.fragment.span <;> simp [Function.comp_def]

/-- Where the blocks have the same spans, the spans have the same places. -/
theorem spans_congr (h : bs.map (·.fragment.span) = bs'.map (·.fragment.span)) :
    spans bs = spans bs' := by
  have hspans : ∀ bs : List Block, spans bs =
      (bs.map (·.fragment.span)).zipIdx.filterMap fun s => s.1.map (·, s.2) := by
    intro bs
    rw [spans, List.zipIdx_map, List.filterMap_map]
    rfl
  rw [hspans, hspans, h]

/-- Pragmas do not change the spans of blocks. -/
theorem spans_attachPragmas (homes : List (Pragma × Option Nat)) :
    spans (attachPragmas bs homes) = spans bs := by
  refine spans_congr ?_
  rw [attachPragmas, List.map_map]
  conv_rhs => rw [← List.zipIdx_map_fst 0 bs, List.map_map]
  rfl

/-- Without pragmas bare blocks stay as they are. -/
theorem attachPragmas_nil (hbare : ∀ b ∈ bs, b.fragment.pragmas = []) :
    attachPragmas bs [] = bs := by
  have hsame : ∀ b ∈ bs.zipIdx,
      { b.1 with fragment := { b.1.fragment with pragmas := [] } } = b.1 := by
    intro b hb
    rw [← hbare b.1 (List.fst_mem_of_mem_zipIdx hb)]
  exact (List.map_congr_left hsame).trans (List.zipIdx_map_fst 0 bs)

/-- One more pragma goes to its home. -/
theorem attachPragmas_concat (homes : List (Pragma × Option Nat)) (q : Pragma) (home : Option Nat) :
    attachPragmas bs (homes ++ [(q, home)]) =
      match home with
      | some k => (attachPragmas bs homes).modify k fun b => b.addPragma q.text
      | none => attachPragmas bs homes := by
  cases home with
  | none => simp [attachPragmas, List.filter_append]
  | some k =>
    refine List.ext_getElem? fun i => ?_
    simp only [attachPragmas, List.getElem?_modify, List.getElem?_map, List.getElem?_zipIdx,
      List.filter_append]
    -- only the block that is the home gets the text
    by_cases hi : k = i
    · cases bs[i]? <;> simp [hi, Block.addPragma, Fragment.addPragma]
    · cases bs[i]? <;> simp [hi]

end Outline

/-- The node with one more pragma on the fragment at a place. -/
def Node.annotate (n : Node) (place : Nat) (text : String) : Node :=
  { n with fragments := n.fragments.modify place fun f => f.addPragma text }

namespace Index

/-- One more pragma on the fragment at a place of a node. -/
def annotate (t : Index) (site : NodeId × Nat) (text : String) : Index :=
  t.modifyNode site.1 fun n => n.annotate site.2 text

section

variable {t u : Index} {id other : NodeId} {site : NodeId × Nat} {text : String}

/-- Two indexes with the same nodes and the same besides are the same. -/
theorem ext_nodes (hnodes : ∀ i, t.node? i = u.node? i) (hrest : { t with nodes := u.nodes } = u) :
    t = u := by
  have h : t.nodes = u.nodes := Std.ExtTreeMap.ext_getElem? hnodes
  rw [← hrest, ← h]

/-- Which of two nodes is changed first makes no difference. -/
theorem modifyNode_comm {f g : Node → Node}
    (h : id = other → ∀ n, t.node? id = some n → g (f n) = f (g n)) :
    (t.modifyNode id f).modifyNode other g = (t.modifyNode other g).modifyNode id f := by
  refine ext_nodes (fun i => ?_) rfl
  simp only [node?_modifyNode]
  -- the order could only matter where both changes are to one node
  by_cases hi : i = id
  · by_cases hj : i = other
    · rw [if_pos hi, if_pos hj, if_pos hi, if_pos hj]
      cases hn : t.node? i with
      | none => rfl
      | some n => exact congrArg some (h (hi.symm.trans hj) n (hi ▸ hn))
    · rw [if_neg hj, if_neg hj]
  · rw [if_neg hi, if_neg hi]

/-- Pragmas have no part in most of what is read off a node. -/
theorem bind_node?_annotate {α : Type} {g : Node → Option α}
    (hg : ∀ n, g (n.annotate site.2 text) = g n) (i : NodeId) :
    ((t.annotate site text).node? i).bind g = (t.node? i).bind g := by
  rw [annotate, node?_modifyNode]
  split
  · rw [Option.bind_map]
    exact Option.bind_congr fun n _ => hg n
  · rfl

/-- A pragma changes no child. -/
theorem child?_annotate (p : NodeId) (declared : String) :
    (t.annotate site text).child? p declared = t.child? p declared :=
  bind_node?_annotate (fun _ => rfl) p

/-- A pragma changes nothing above a node. -/
theorem ancestors_annotate (p : NodeId) :
    (t.annotate site text).ancestors p = t.ancestors p := by
  rw [ancestors_eq_getD, bind_node?_annotate fun _ => rfl, ancestors_eq_getD]

/-- A pragma changes the number of fragments of no node. -/
theorem fragmentCount_annotate (i : NodeId) :
    (t.annotate site text).fragmentCount i = t.fragmentCount i := by
  rw [fragmentCount, Option.map_eq_bind, bind_node?_annotate, ← Option.map_eq_bind, fragmentCount]
  intro n
  rw [Function.comp_apply, Node.annotate, List.length_modify, Function.comp_apply]

/-- A pragma can be added before or after a child is planted. -/
theorem plant_annotate (p : NodeId) (declared : String) :
    (t.annotate site text).plant p declared = (t.plant p declared).annotate site text := by
  -- a new node has no fragments to which a pragma could be added
  have hadd : ∀ name above, (t.annotate site text).addNode (.new name declared above) =
      (t.addNode (.new name declared above)).annotate site text := by
    intro name above
    refine ext_nodes (fun i => ?_) rfl
    have hnext : (t.annotate site text).nextId = t.nextId := rfl
    rw [node?_addNode, hnext, annotate, annotate, node?_modifyNode, node?_modifyNode, node?_addNode]
    by_cases hi : i = t.nextId
    · rw [if_pos hi, if_pos hi]
      split <;> simp [Node.annotate, Node.new]
    · rw [if_neg hi, if_neg hi]
  rw [plant, ancestors_annotate, hadd, plant]
  exact modifyNode_comm fun _ _ _ => rfl

/-- A pragma can be added before or after a child is found or made. -/
theorem ensureChild_annotate (p : NodeId) (declared : String) :
    (t.annotate site text).ensureChild p declared =
      ((t.ensureChild p declared).1.annotate site text, (t.ensureChild p declared).2) := by
  cases hc : t.child? p declared with
  | some c => rw [ensureChild_of_some hc, ensureChild_of_some ((child?_annotate ..).trans hc)]
  | none =>
    rw [ensureChild_of_none hc, ensureChild_of_none ((child?_annotate ..).trans hc), plant_annotate]
    rfl

/-- A pragma can be added before or after a path is found or made. -/
theorem ensurePath_annotate (p : NodeId) (names : List String) :
    (t.annotate site text).ensurePath p names =
      ((t.ensurePath p names).1.annotate site text, (t.ensurePath p names).2) := by
  induction names generalizing t p with
  | nil => rfl
  | cons name names ih => simp only [ensurePath, ensureChild_annotate, ih]

end

end Index

namespace Indexer

/-- One more pragma on the fragment at a place of a node. -/
def annotate (s : Indexer) (site : NodeId × Nat) (text : String) : Indexer :=
  { s with index := s.index.annotate site text }

/-- The node on which a block of some is put, and its place among the fragments there, when the
blocks are placed one after the other. -/
def site (p : NodeId) (s : Indexer) : List Block → Nat → NodeId × Nat
  | [], _ => (p, 0)
  | b :: _, 0 =>
    let (s, id) := s.visit p b.path
    (id, s.index.fragmentCount id)
  | b :: bs, k + 1 => site p (s.place p b) bs k

/-- The indexer goes on from the node `p`, which stands in an index whose nodes stand somewhere. -/
def Open (s : Indexer) (p : NodeId) : Prop :=
  ∃ lay top, s.Stands lay ∧ lay top = some p ∧ p ∈ s.touched

section

variable {s : Indexer} {p id : NodeId} {b : Block} {site : NodeId × Nat} {text : String}

/-- Where blocks are placed, no fragments go, and there is a node for the next block. -/
theorem Open.place (h : s.Open p) (b : Block) :
    (s.place p b).Open p ∧
      ∀ i, s.index.fragmentCount i ≤ (s.place p b).index.fragmentCount i := by
  obtain ⟨lay, top, hs, htop, hp⟩ := h
  obtain ⟨lay', hlater⟩ := hs.exists_place htop hp b
  exact ⟨⟨lay', top, hlater.stands, hlater.keep htop, hlater.touched hp⟩, hlater.count_le⟩

/-- A path leads to a live node once it is visited. -/
theorem Open.isLive_visit (h : s.Open p) (path : List String) :
    (s.visit p path).1.index.isLive (s.visit p path).2 := by
  obtain ⟨lay, top, hs, htop, -⟩ := h
  obtain ⟨lay', hlater, hreached⟩ := hs.exists_visit htop path
  exact hlater.stands.laid.isLive_iff.mpr ⟨_, hreached.stands_at⟩

/-- Visiting a path takes no fragment away. -/
theorem Open.fragmentCount_visit_le (h : s.Open p) (path : List String) (i : NodeId) :
    s.index.fragmentCount i ≤ (s.visit p path).1.index.fragmentCount i := by
  obtain ⟨lay, top, hs, htop, -⟩ := h
  obtain ⟨lay', hlater, -⟩ := hs.exists_visit htop path
  exact hlater.count_le i

/-- Placing blocks takes no fragment away. -/
theorem Open.fragmentCount_le (h : s.Open p) (bs : List Block) (i : NodeId) :
    s.index.fragmentCount i ≤ (bs.foldl (Indexer.place p) s).index.fragmentCount i := by
  induction bs generalizing s with
  | nil => exact Nat.le_refl _
  | cons b bs ih =>
    obtain ⟨hnext, hle⟩ := h.place b
    exact Nat.le_trans (hle i) (ih hnext)

/-- A fragment that is there can get a pragma before or after another one is put on a node. -/
theorem push_annotate (hsite : site.2 < s.index.fragmentCount site.1) (id : NodeId)
    (f : Fragment) :
    (s.annotate site text).push id f = (s.push id f).annotate site text := by
  have hindex : ((s.index.annotate site text).modifyNode id fun n =>
      { n with fragments := n.fragments ++ [f] }) =
      (s.index.modifyNode id fun n => { n with fragments := n.fragments ++ [f] }).annotate site
        text := by
    refine Index.modifyNode_comm fun _ n hn => ?_
    rw [Index.fragmentCount_eq hn] at hsite
    rw [Node.annotate, Node.annotate, Node.mk.injEq]
    -- the new fragment comes after the one that gets the pragma
    refine ⟨rfl, rfl, rfl, rfl, List.ext_getElem? fun j => ?_, rfl, rfl⟩
    grind
  rw [push, push, annotate, annotate]
  simp only [hindex, Index.fragmentCount_annotate]

/-- A pragma of a fragment that is there can be added before or after a block is placed. -/
theorem place_annotate (h : s.Open p) (hsite : site.2 < s.index.fragmentCount site.1) (b : Block) :
    (s.annotate site text).place p b = (s.place p b).annotate site text := by
  have hvisit : (s.annotate site text).visit p b.path =
      ((s.visit p b.path).1.annotate site text, (s.visit p b.path).2) := by
    simp only [visit, annotate, Index.ensurePath_annotate]
  rw [place, hvisit, place]
  exact push_annotate (Nat.lt_of_lt_of_le hsite (h.fragmentCount_visit_le ..)) ..

/-- A pragma of a fragment that is there can be added before or after blocks are placed. -/
theorem foldl_place_annotate (h : s.Open p) (hsite : site.2 < s.index.fragmentCount site.1)
    (bs : List Block) :
    bs.foldl (place p) (s.annotate site text) = (bs.foldl (place p) s).annotate site text := by
  induction bs generalizing s with
  | nil => rfl
  | cons b bs ih =>
    obtain ⟨hnext, hle⟩ := h.place b
    rw [List.foldl_cons, place_annotate h hsite, List.foldl_cons]
    exact ih hnext (Nat.lt_of_lt_of_le hsite (hle _))

/-- Pushing a fragment adds to the fragments of the node. -/
theorem fragmentCount_push (hid : s.index.isLive id) (f : Fragment) :
    s.index.fragmentCount id < (s.push id f).index.fragmentCount id := by
  rw [push, Index.fragmentCount_modifyNode_append hid, if_pos rfl]
  exact Nat.lt_succ_self _

/-- A block that has one more pragma leaves one more on its node. -/
theorem push_addPragma (hid : s.index.isLive id) (f : Fragment) (text : String) :
    s.push id (f.addPragma text) =
      (s.push id f).annotate (id, s.index.fragmentCount id) text := by
  have hindex : (s.index.modifyNode id fun n =>
      { n with fragments := n.fragments ++ [f.addPragma text] }) =
      (s.index.modifyNode id fun n => { n with fragments := n.fragments ++ [f] }).annotate
        (id, s.index.fragmentCount id) text := by
    refine Index.ext_nodes (fun i => ?_) rfl
    rw [Index.annotate, Index.node?_modifyNode, Index.node?_modifyNode, Index.node?_modifyNode]
    by_cases hi : i = id
    · obtain ⟨n, hn⟩ := Option.isSome_iff_exists.mp hid
      rw [if_pos hi, if_pos hi, if_pos hi, hi, hn, Index.fragmentCount_eq hn]
      have hlast : (n.fragments ++ [f]).modify n.fragments.length (fun f => f.addPragma text) =
          n.fragments ++ [f.addPragma text] := List.modifyTailIdx_add _ 0 n.fragments [f]
      simp only [Option.map_some, Node.annotate, hlast]
    · rw [if_neg hi, if_neg hi, if_neg hi]
  rw [push, push, annotate]
  simp only [hindex]
  rfl

/-- A block that is put on a node leaves one more fragment there, at its place. -/
theorem place_addPragma (h : s.Open p) (b : Block) (bs : List Block) (text : String) :
    s.place p (b.addPragma text) = (s.place p b).annotate (s.site p (b :: bs) 0) text :=
  push_addPragma (h.isLive_visit b.path) b.fragment text

/-- Each block has left its fragment where it is said to be. -/
theorem site_lt (h : s.Open p) {bs : List Block} {k : Nat} (hk : k < bs.length) :
    (s.site p bs k).2 < (bs.foldl (place p) s).index.fragmentCount (s.site p bs k).1 := by
  induction bs generalizing s k with
  | nil => exact absurd hk (Nat.not_lt_zero k)
  | cons b bs ih =>
    obtain ⟨hnext, -⟩ := h.place b
    cases k with
    | zero =>
      -- the fragment is there when its block has been placed, and none goes while the others are
      exact Nat.lt_of_lt_of_le (fragmentCount_push (h.isLive_visit b.path) b.fragment)
        (hnext.fragmentCount_le bs _)
    | succ k => exact ih hnext (Nat.lt_of_succ_lt_succ hk)

/-- A pragma may be added to a block before it is placed, or to its fragment when all blocks have
been placed. -/
theorem foldl_place_addPragma (h : s.Open p) {bs : List Block} {k : Nat} (hk : k < bs.length)
    (text : String) :
    (bs.modify k fun b => b.addPragma text).foldl (place p) s =
      (bs.foldl (place p) s).annotate (s.site p bs k) text := by
  induction bs generalizing s k with
  | nil => exact absurd hk (Nat.not_lt_zero k)
  | cons b bs ih =>
    obtain ⟨hnext, -⟩ := h.place b
    cases k with
    | zero =>
      rw [List.modify_zero_cons, List.foldl_cons, place_addPragma h b bs, List.foldl_cons]
      -- the pragma that comes with the first block might as well come after the others
      refine foldl_place_annotate hnext ?_ bs
      exact fragmentCount_push (h.isLive_visit b.path) b.fragment
    | succ k =>
      rw [List.modify_succ_cons, List.foldl_cons, List.foldl_cons]
      exact ih hnext (Nat.lt_of_succ_lt_succ hk)

end

/-- The spans of the blocks are noted with the nodes and the places of their fragments. -/
theorem spans_foldl_place (s : Indexer) (p : NodeId) (bs : List Block) :
    (bs.foldl (place p) s).spans =
      s.spans ++ (Outline.spans bs).map (Prod.map id (s.site p bs)) := by
  induction bs generalizing s with
  | nil => exact (List.append_nil _).symm
  | cons b bs ih =>
    have hplace : (s.place p b).spans = s.spans ++
        (b.fragment.span.map (·, s.site p (b :: bs) 0)).toList := rfl
    rw [List.foldl_cons, ih, hplace, List.append_assoc, Outline.spans_cons, List.map_append,
      List.map_map]
    cases b.fragment.span <;> rfl

end Indexer

namespace Direct

/-- Adds a pragma to the fragment at a place of a node. -/
def annotate (t : Index) (site : NodeId × Nat) (text : String) : Direct Index := do
  let n ← node t site.1
  if site.2 < n.fragments.length then
    modify t site.1 fun n => n.annotate site.2 text
  else
    throw (.fragment site.1 site.2)

/-- Adds a pragma to the fragment of the innermost block around it. -/
def attachPragma (s : Indexer) (q : Pragma) : Direct Indexer := do
  match innermost? q.position s.spans with
  | some (_, site) => return { s with index := ← annotate s.index site q.text }
  | none => return s

section

variable {s : Indexer} {p : NodeId} {site : NodeId × Nat} {bs : List Block}

/-- A fragment that is there gets a pragma without a fault. -/
theorem annotate_eq {t : Index} (h : site.2 < t.fragmentCount site.1) (text : String) :
    annotate t site text = .ok (t.annotate site text) := by
  cases hn : t.node? site.1 with
  | none =>
    rw [Index.fragmentCount, hn] at h
    exact absurd h (Nat.not_lt_zero _)
  | some n =>
    rw [Index.fragmentCount_eq hn] at h
    rw [annotate, node_eq hn, ok_bind, if_pos h, modify_eq (Index.isLive_of_node? hn)]
    rfl

/-- The root of an index without files has no fragments. -/
example : annotate (.empty {}) (Index.root, 0) "fast" = .error (.fragment Index.root 0) := rfl

/-- A pragma comes to the block that is its home. -/
theorem attachPragma_eq (h : s.Open p) (hspans : s.spans = [])
    (homes : List (Pragma × Option Nat)) (q : Pragma) :
    attachPragma ((Outline.attachPragmas bs homes).foldl (Indexer.place p) s) q =
      .ok ((Outline.attachPragmas bs (homes ++
        [(q, (innermost? q.position (Outline.spans bs)).map Prod.snd)])).foldl
          (Indexer.place p) s) := by
  have hfound : innermost? q.position
      ((Outline.attachPragmas bs homes).foldl (Indexer.place p) s).spans =
      (innermost? q.position (Outline.spans bs)).map
        (Prod.map id (s.site p (Outline.attachPragmas bs homes))) := by
    rw [Indexer.spans_foldl_place, hspans, List.nil_append, innermost?_map,
      Outline.spans_attachPragmas]
  rw [attachPragma, hfound, Outline.attachPragmas_concat]
  cases hhome : innermost? q.position (Outline.spans bs) with
  | none => rfl
  | some found =>
    obtain ⟨span, k⟩ := found
    -- the home is the place of a block, so a node and a place are noted for it
    have hk : k < (Outline.attachPragmas bs homes).length := by
      obtain ⟨b, hb, -⟩ := Outline.mem_spans_iff.mp (innermost?_eq_some hhome).1
      rw [Outline.attachPragmas, List.length_map, List.length_zipIdx]
      exact (List.getElem?_eq_some_iff.mp hb).1
    simp only [Option.map_some, Prod.map_apply]
    rw [annotate_eq (Indexer.site_lt h hk), Indexer.foldl_place_addPragma h hk]
    rfl

/-- The pragmas come to the blocks that are their homes. -/
theorem attachPragmas_eq (h : s.Open p) (hspans : s.spans = [])
    (hbare : ∀ b ∈ bs, b.fragment.pragmas = []) (qs : List Pragma) :
    qs.foldlM attachPragma (bs.foldl (Indexer.place p) s) =
      .ok ((Outline.attachPragmas bs (Outline.homes bs qs)).foldl (Indexer.place p) s) := by
  induction qs using List.reverseRec with
  | nil => rw [Outline.homes, List.map_nil, Outline.attachPragmas_nil hbare]; rfl
  | append_singleton qs q ih =>
    rw [List.foldlM_append, ih, ok_bind, List.foldlM_cons, attachPragma_eq h hspans, ok_bind,
      Outline.homes, Outline.homes, List.map_append]
    rfl

end

end Direct

end SemanticIndex
