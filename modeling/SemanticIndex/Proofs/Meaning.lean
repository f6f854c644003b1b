import SemanticIndex.Proofs.Anchoring
import SemanticIndex.Proofs.Lookup
import SemanticIndex.Proofs.Shape

/-!
# What Names Mean

The rules by which names get their meaning, said of the forest alone: what a name means among the
nodes (`Index.NameMeans`) and what a mention is bound to (`Index.MentionMeans`). Resolution follows
them (`Index.Built.nameMeans_resolveName?`, `Index.Built.mentionMeans_bindingOf`).
-/

namespace SemanticIndex

namespace Index

/-- A node holds a variable. -/
def HoldsVariable (t : Index) (id : NodeId) (name : String) : Prop :=
  ∃ n v, t.node? id = some n ∧ n.summary.vars[name]? = some v

/-- A dotted name leads to `id` from `top`, child by child. -/
def LeadsFrom (t : Index) (top : NodeId) (name : String) (id : NodeId) : Prop :=
  ∃ first rest, nameSegments name = first :: rest ∧ nodeName first ≠ "" ∧
    t.follow? top (first :: rest) = some id

/-- What a name means from a scope, if only accepted nodes count: a first match below the nearest
node, the scope itself or above it, below which anything matches, and if there is no such node what
the name leads to from the common root. -/
inductive NameMeans (t : Index) (scope : NodeId) (name : String) (accept : NodeFilter) :
    Option NodeId → Prop where
  | below {before after : List NodeId} {anchor id : NodeId}
    (chain_eq : t.ancestors scope = before ++ anchor :: after)
    (nearest : ∀ i ∈ before, ∀ j, ¬ t.Matches i .below name accept j)
    (first : t.IsFirstMatch anchor .below name accept id) :
    NameMeans t scope name accept (some id)
  | common {id : NodeId} {n : Node}
    (not_below : ∀ i ∈ t.ancestors scope, ∀ j, ¬ t.Matches i .below name accept j)
    (leads : t.LeadsFrom root name id) (node_eq : t.node? id = some n)
    (accepted : accept id n = true) : NameMeans t scope name accept (some id)
  | nothing
    (not_below : ∀ i ∈ t.ancestors scope, ∀ j, ¬ t.Matches i .below name accept j)
    (not_common : ∀ j n, t.LeadsFrom root name j → t.node? j = some n → accept j n = false) :
    NameMeans t scope name accept none

/-- What a mention in a scope is bound to. A variable comes before any node, and the one on the
nearest node counts, the common root being asked last; the mark of a variable is no part of its
name. -/
inductive MentionMeans (t : Index) (scope : NodeId) (m : Mention) : Binding → Prop where
  | ofLocal (isLocal : m.isLocal = true) : MentionMeans t scope m .unbound
  | var {before after : List NodeId} {owner : NodeId} (notLocal : m.isLocal = false)
    (chain_eq : t.ancestors scope ++ [root] = before ++ owner :: after)
    (nearest : ∀ i ∈ before, ¬ t.HoldsVariable i (variableName m.name))
    (holds : t.HoldsVariable owner (variableName m.name)) :
    MentionMeans t scope m (.var owner (variableName m.name))
  | marked (notLocal : m.isLocal = false)
    (noVariable : ∀ i ∈ t.ancestors scope ++ [root], ¬ t.HoldsVariable i (variableName m.name))
    (marked : m.marked = true) : MentionMeans t scope m .unbound
  | node {id : NodeId} (notLocal : m.isLocal = false)
    (noVariable : ∀ i ∈ t.ancestors scope ++ [root], ¬ t.HoldsVariable i (variableName m.name))
    (unmarked : m.marked = false) (means : t.NameMeans scope m.name anyNode (some id)) :
    MentionMeans t scope m (.node id)
  | nothing (notLocal : m.isLocal = false)
    (noVariable : ∀ i ∈ t.ancestors scope ++ [root], ¬ t.HoldsVariable i (variableName m.name))
    (unmarked : m.marked = false) (means : t.NameMeans scope m.name anyNode none) :
    MentionMeans t scope m .unbound

/-- Below one node there is only one node to which a name leads child by child. -/
theorem leadsFrom_unique {t : Index} {top i j : NodeId} {name : String}
    (hi : t.LeadsFrom top name i) (hj : t.LeadsFrom top name j) : i = j := by
  obtain ⟨first, rest, hsegments, -, hi⟩ := hi
  obtain ⟨first', rest', hsegments', -, hj⟩ := hj
  rw [hsegments] at hsegments'
  obtain ⟨rfl, rfl⟩ := List.cons.inj hsegments'
  exact Option.some.inj (hi.symm.trans hj)

/-- What a name means is there and accepted. -/
theorem NameMeans.accepted {t : Index} {scope id : NodeId} {name : String} {accept : NodeFilter}
    (h : t.NameMeans scope name accept (some id)) :
    ∃ n, t.node? id = some n ∧ accept id n = true := by
  cases h with
  | below _ _ hfirst => exact hfirst.isMatch.2
  | common _ _ hn haccept => exact ⟨_, hn, haccept⟩

/-- A name means a live node. -/
theorem NameMeans.isLive {t : Index} {scope id : NodeId} {name : String} {accept : NodeFilter}
    (h : t.NameMeans scope name accept (some id)) : t.isLive id = true := by
  obtain ⟨n, hn, -⟩ := h.accepted
  exact isLive_of_node? hn

namespace Built

variable {t : Index} {L : Ledger} {lay : Layout} {scope top id : NodeId} {name : String}
  {accept : NodeFilter} {m : Mention}

/-- Among the children of a node a name leads where it leads child by child. -/
theorem leads_child_iff (h : t.Built L lay) :
    t.Leads top .child name id ↔ t.LeadsFrom top name id := by
  constructor
  · rintro ⟨hsegments, hne, hn, hname, hreach, hfollow⟩
    refine ⟨_, _, hsegments, hne, ?_⟩
    rw [inReach, beq_iff_eq, parent?, hn, Option.bind_some] at hreach
    obtain ⟨p, hp, hchild, -⟩ := h.parent_holds hn hreach
    rw [follow?, child?, hp, Option.bind_some, Node.child?, ← hname, hchild, Option.bind_some,
      hfollow]
  · rintro ⟨first, rest, hsegments, hne, hfollow⟩
    rw [follow?] at hfollow
    obtain ⟨start, hchild, hfollow⟩ := Option.bind_eq_some_iff.mp hfollow
    obtain ⟨p, hp, hchild⟩ := Option.bind_eq_some_iff.mp hchild
    obtain ⟨n, hn, hparent, hname⟩ := h.child_points hp hchild
    refine ⟨hsegments, hne, hn, hname, ?_, hfollow⟩
    rw [inReach, beq_iff_eq, parent?, hn, Option.bind_some, hparent]

/-- The resolution of a name follows the rules. -/
theorem nameMeans_resolveName? (h : t.Built L lay) (scope : NodeId) (name : String)
    (accept : NodeFilter) :
    t.NameMeans scope name accept (t.resolveName? scope name accept) := by
  have hbelow : ∀ {is : List NodeId},
      (∀ i ∈ is, t.lookup? i name .below accept = none) →
        ∀ i ∈ is, ∀ j, ¬ t.Matches i .below name accept j :=
    fun hnone i hi => h.lookup?_eq_none_iff.mp (hnone i hi)
  rw [resolveName?_eq]
  -- the nearest node around that has a match decides, and then the root
  cases habove : (t.ancestors scope).findSome? fun anchor =>
      t.lookup? anchor name .below accept with
  | some id =>
    obtain ⟨before, anchor, after, hchain, hid, hnone⟩ := List.findSome?_eq_some_iff.mp habove
    exact .below hchain (hbelow hnone) (h.isFirstMatch_of_lookup?_eq hid)
  | none =>
    have hnone := hbelow (List.findSome?_eq_none_iff.mp habove)
    rw [Option.none_or]
    cases hroot : t.lookup? root name .child accept with
    | some id =>
      obtain ⟨hleads, n, hn, haccept⟩ := (h.isFirstMatch_of_lookup?_eq hroot).isMatch
      exact .common hnone (h.leads_child_iff.mp hleads) hn haccept
    | none =>
      refine .nothing hnone fun j n hleads hn => Bool.eq_false_iff.mpr fun haccept => ?_
      exact h.lookup?_eq_none_iff.mp hroot j ⟨h.leads_child_iff.mpr hleads, n, hn, haccept⟩

/-- A variable is found on the nearest node that holds it. -/
theorem resolveVariable?_eq_some (h : t.Built L lay) {owner : NodeId} {v : VariableEntry}
    (hv : t.resolveVariable? scope name = some (owner, v)) :
    v.declaration.name = variableName name ∧ t.HoldsVariable owner (variableName name) ∧
      ∃ before after, t.ancestors scope ++ [root] = before ++ owner :: after ∧
        ∀ i ∈ before, ¬ t.HoldsVariable i (variableName name) := by
  rw [resolveVariable?] at hv
  obtain ⟨before, i, after, hchain, hi, hnone⟩ := List.findSome?_eq_some_iff.mp hv
  obtain ⟨v', hv', heq⟩ := Option.map_eq_some_iff.mp hi
  obtain ⟨n, hn, hvar⟩ := Option.bind_eq_some_iff.mp hv'
  obtain ⟨rfl, rfl⟩ := Prod.mk.inj heq
  refine ⟨name_eq_of_vars (h.current hn List.not_mem_nil) hvar, ⟨n, _, hn, hvar⟩, before, after,
    hchain, ?_⟩
  rintro j hj ⟨n', v', hn', hvar'⟩
  have hj := hnone j hj
  rw [hn', Option.bind_some, hvar'] at hj
  cases hj

/-- If a name means no variable, then no node around holds one of that name. -/
theorem resolveVariable?_eq_none (hv : t.resolveVariable? scope name = none) :
    ∀ i ∈ t.ancestors scope ++ [root], ¬ t.HoldsVariable i (variableName name) := by
  rintro i hi ⟨n, v, hn, hvar⟩
  have hi := List.findSome?_eq_none_iff.mp hv i hi
  rw [hn, Option.bind_some, hvar] at hi
  cases hi

/-- What a mention is bound to follows the rules. -/
theorem mentionMeans_bindingOf (h : t.Built L lay) (scope : NodeId) (m : Mention) :
    t.MentionMeans scope m (t.bindingOf scope m) := by
  unfold bindingOf
  split
  · exact .ofLocal ‹_›
  · have hlocal : m.isLocal = false := Bool.eq_false_iff.mpr ‹_›
    split
    · rename_i owner v hv
      obtain ⟨hname, hholds, before, after, hchain, hnearest⟩ := h.resolveVariable?_eq_some hv
      rw [hname]
      exact .var hlocal hchain hnearest hholds
    · rename_i hv
      have hnone := resolveVariable?_eq_none hv
      split
      · exact .marked hlocal hnone ‹_›
      · have hunmarked : m.marked = false := Bool.eq_false_iff.mpr ‹_›
        have hmeans := h.nameMeans_resolveName? scope m.name anyNode
        split
        · rename_i id hid
          exact .node hlocal hnone hunmarked (hid ▸ hmeans)
        · rename_i hnothing
          exact .nothing hlocal hnone hunmarked (hnothing ▸ hmeans)

end Built

end Index

end SemanticIndex
