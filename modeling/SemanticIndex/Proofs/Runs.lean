import SemanticIndex.Proofs.Copying
import SemanticIndex.Proofs.Laying
import SemanticIndex.Proofs.Withdrawing

/-!
# Runs

An index comes about by a run of operations on the index of no files. Whatever the operations are,
it is built from the ledger of the files that are still indexed (`Index.exists_built_run`), as is
the index to which these files are added one by one (`Index.exists_built_batch`). So its name table
names its nodes (`Index.names_run`), and no node has still to be summed up (`Index.refresh_run`).
-/

namespace SemanticIndex

/-- What can be done to an index. A run goes on with what the operation gives. -/
inductive Operation where
  /-- A document becomes the content of a file. -/
  | add (path : SourcePath) (doc : Document)
  | remove (path : SourcePath)
  | resolve
  | reevaluate (options : EvaluationOptions)
  /-- A copy takes the place of the index. -/
  | copy

/-- The ledger after an operation on an index that is built from `L`. -/
def Ledger.apply (L : Ledger) : Operation → Ledger
  | .add path doc => L.without path ++ [(path, doc)]
  | .remove path => L.without path
  | .resolve | .reevaluate _ | .copy => L

/-- The files that are indexed after a run, each with its last document, in the order in which they
were last added. -/
def Ledger.latest (ops : List Operation) : Ledger := ops.foldl Ledger.apply []

namespace Index

def apply (t : Index) : Operation → Index
  | .add path doc => t.add path doc
  | .remove path => t.remove path
  | .resolve => t.resolve
  | .reevaluate options => t.reevaluate options
  | .copy => t.copy

/-- The index after a run that starts without files. -/
def run (options : IndexOptions) (ops : List Operation) : Index := ops.foldl apply (empty options)

/-- The index to which the files of a ledger are added, one by one. -/
def batch (options : IndexOptions) (L : Ledger) : Index :=
  L.foldl (fun t e => t.add e.1 e.2) (empty options)

/-- A built index has no file that it is not built of. -/
theorem Built.hasFile_eq_false {t : Index} {L : Ledger} {lay : Layout} (h : t.Built L lay)
    {path : SourcePath} (hpath : ∀ e ∈ L, e.1.components ≠ path.components) :
    t.hasFile path = false := by
  rw [← Bool.not_eq_true, h.hasFile_iff]
  rintro ⟨e, he, heq⟩
  exact hpath e he heq

section

variable {t : Index} {L : Ledger} {lay : Layout}

/-- A file that is removed is not there. -/
theorem Built.hasFile_remove (h : t.Built L lay) (path : SourcePath) :
    (t.remove path).hasFile path = false := by
  obtain ⟨lay', hremoved⟩ := h.exists_remove path
  exact hremoved.hasFile_eq_false fun e he => (Ledger.mem_without_iff.mp he).2

/-- Adding a file enters it last, with its new document. -/
theorem Built.exists_add (h : t.Built L lay) (path : SourcePath) (doc : Document) :
    ∃ lay', (t.add path doc).Built (L.without path ++ [(path, doc)]) lay' := by
  obtain ⟨lay', hremoved⟩ := h.exists_remove path
  exact hremoved.exists_contribute (h.hasFile_remove path) doc

/-- An operation takes an index that is built from a ledger to one that is. -/
theorem Built.exists_apply (h : t.Built L lay) (op : Operation) :
    ∃ lay', (t.apply op).Built (L.apply op) lay' :=
  match op with
  | .add path doc => h.exists_add path doc
  | .remove path => h.exists_remove path
  | .resolve => ⟨lay, h.resolve⟩
  | .reevaluate options => ⟨lay, h.reevaluate options⟩
  | .copy => ⟨_, h.copy⟩

/-- Adding a file changes no option. -/
theorem Built.options_add (h : t.Built L lay) (path : SourcePath) (doc : Document) :
    (t.add path doc).options = t.options := by
  obtain ⟨lay', hremoved⟩ := h.exists_remove path
  rw [add, hremoved.options_contribute (h.hasFile_remove path) doc, h.options_remove path]

/-- No operation changes an option. -/
theorem Built.options_apply (h : t.Built L lay) (op : Operation) :
    (t.apply op).options = t.options :=
  match op with
  | .add path doc => h.options_add path doc
  | .remove path => h.options_remove path
  | .resolve | .reevaluate _ | .copy => rfl

end

/-- After any run the index is built from the ledger of the files that are indexed, and has the
options with which it began. -/
theorem exists_built_run (options : IndexOptions) (ops : List Operation) :
    ∃ lay, (run options ops).Built (Ledger.latest ops) lay ∧
      (run options ops).options = options := by
  -- the run goes on from any index that is built from any ledger
  have hfold : ∀ (t : Index) (L : Ledger) (lay : Layout), t.Built L lay →
      ∃ lay', (ops.foldl apply t).Built (ops.foldl Ledger.apply L) lay' ∧
        (ops.foldl apply t).options = t.options := by
    induction ops with
    | nil => exact fun t L lay h => ⟨lay, h, rfl⟩
    | cons op ops ih =>
      intro t L lay h
      obtain ⟨lay', h'⟩ := h.exists_apply op
      rw [← h.options_apply op]
      exact ih _ _ lay' h'
  exact hfold _ _ _ (built_empty options)

/-- What holds of the index of no files and outlasts every operation holds after any run. -/
theorem run_induction {P : Index → Prop} (options : IndexOptions) (hempty : P (empty options))
    (hstep : ∀ {t L lay} op, t.Built L lay → P t → P (t.apply op)) (ops : List Operation) :
    P (run options ops) := by
  have hfold : ∀ (t : Index) (L : Ledger) (lay : Layout), t.Built L lay → P t →
      P (ops.foldl apply t) := by
    induction ops with
    | nil => exact fun t L lay h ht => ht
    | cons op ops ih =>
      intro t L lay h ht
      obtain ⟨lay', h'⟩ := h.exists_apply op
      exact ih _ _ lay' h' (hstep op h ht)
  exact hfold _ _ _ (built_empty options) hempty

/-- An index to which the files of a ledger are added one by one is built from the ledger. -/
theorem exists_built_batch (options : IndexOptions) {L : Ledger} (hL : L.Distinct) :
    ∃ lay, (batch options L).Built L lay ∧ (batch options L).options = options := by
  -- `L₀` has been entered and `L` is still to come
  have hfold : ∀ (t : Index) (L₀ L : Ledger) (lay : Layout), Ledger.Distinct (L₀ ++ L) →
      t.Built L₀ lay →
      ∃ lay', (L.foldl (fun t e => t.add e.1 e.2) t).Built (L₀ ++ L) lay' ∧
        (L.foldl (fun t e => t.add e.1 e.2) t).options = t.options := by
    intro t L₀ L lay hdistinct h
    induction L generalizing t L₀ lay with
    | nil =>
      rw [List.append_nil]
      exact ⟨lay, h, rfl⟩
    | cons e L ih =>
      -- the file is not entered yet, so nothing is removed
      have hwithout : L₀.without e.1 = L₀ := by
        refine Ledger.without_eq_self fun e' he' => ?_
        rw [Ledger.Distinct, List.map_append, List.nodup_append] at hdistinct
        exact hdistinct.2.2 _ (List.mem_map_of_mem he') _ (List.mem_map_of_mem List.mem_cons_self)
      obtain ⟨lay', h'⟩ := h.exists_add e.1 e.2
      rw [hwithout] at h'
      have hassoc : L₀ ++ e :: L = L₀ ++ [e] ++ L := by simp
      rw [hassoc] at hdistinct ⊢
      rw [← h.options_add e.1 e.2]
      exact ih _ _ lay' hdistinct h'
  exact hfold _ [] L _ hL (built_empty options)

/-! ### The name table -/

/-- After any run the name table lists each node under its name and under its real name, once each,
under nothing else, and has no empty list. It is never empty. -/
theorem names_run (options : IndexOptions) (ops : List Operation) :
    (∀ s id, id ∈ (run options ops).names.get s ↔
      ∃ n, (run options ops).node? id = some n ∧ (n.name = s ∨ n.realName = s)) ∧
    (∀ s, ((run options ops).names.get s).Nodup) ∧
    (∀ s : String, (run options ops).names.lists[s]? ≠ some []) ∧
    (run options ops).names.isEmpty = false := by
  obtain ⟨lay, h, -⟩ := exists_built_run options ops
  have hroot : (run options ops).isLive root := h.laid.isLive_iff.mpr ⟨_, h.laid.root_at⟩
  exact ⟨h.named.mem_iff, h.named.nodup, h.named.nonempty, h.named.not_isEmpty hroot⟩

/-! ### Summaries -/

/-- Where nothing is stale, summing up a node anew only forgets its values. -/
theorem Holds.refresh_eq {t : Index} {lay : Layout} {ds : List Deposit} (h : t.Holds lay ds [])
    (i : NodeId) : t.refresh i = t.modifyNode i Node.withoutValues := by
  cases hn : t.node? i with
  | none =>
    have hnodes : t.nodes.modify i Node.withoutValues = t.nodes := by
      refine Std.ExtTreeMap.ext_getElem? fun j => ?_
      rw [Std.ExtTreeMap.getElem?_modify]
      split
      · rename_i hij
        rw [← Std.LawfulEqCmp.eq_of_compare hij]
        rw [node?] at hn
        rw [hn, Option.map_none]
      · rfl
    rw [Index.refresh, hn, modifyNode, hnodes]
  | some n =>
    have hcurrent := h.current hn List.not_mem_nil
    -- a current node has the real name that it would get, so the name table stays as it is
    have hnames : t.names.rename i n.name n.realName (n.refreshed t.options).realName = t.names :=
      if_pos hcurrent.realName_eq
    have hnodes : t.nodes.insert i (n.refreshed t.options) =
        t.nodes.modify i Node.withoutValues := by
      refine Std.ExtTreeMap.ext_getElem? fun j => ?_
      rw [node?] at hn
      rw [Std.ExtTreeMap.getElem?_insert, Std.ExtTreeMap.getElem?_modify, hcurrent.refreshed_eq,
        hn, Option.map_some]
    rw [Index.refresh, hn, modifyNode]
    simp only [hnames, hnodes]

/-- After any run every node stores what its fragments amount to, apart from values, and has a
target only if one of them makes it a link. So summing up any node anew changes nothing but that
its values are forgotten. -/
theorem refresh_run (options : IndexOptions) (ops : List Operation) :
    (∀ i n, (run options ops).node? i = some n → n.IsCurrent options) ∧
    ∀ i, (run options ops).refresh i = (run options ops).modifyNode i Node.withoutValues := by
  obtain ⟨lay, h, hoptions⟩ := exists_built_run options ops
  refine ⟨fun i n hn => ?_, h.refresh_eq⟩
  have hcurrent := h.current hn List.not_mem_nil
  rwa [hoptions] at hcurrent

end Index

end SemanticIndex
