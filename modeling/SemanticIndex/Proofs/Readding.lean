import SemanticIndex.Proofs.History
import SemanticIndex.Proofs.Places
import SemanticIndex.Proofs.Regions
import SemanticIndex.Proofs.Reindexing

/-!
# Adding Many Files

Adding some files one after the other enters each of them last. What the other files have left
stays as it is and where it is (`Index.Built.spares_addAll`), and adding the same files once more
leads to the same ledger (`Ledger.enterAll_enterAll`), hence to the same listing
(`Index.Built.lines_addAll_addAll`), whatever has been rearranged on the way.
-/

namespace SemanticIndex

namespace SourcePath

variable {p path q : SourcePath}

/-- What names one file does not name another. -/
theorem same_eq_false_of_same (hq : path.same q = false) (hp : p.same q = true) :
    p.same path = false := by
  refine Bool.eq_false_iff.mpr fun hpath => Bool.eq_false_iff.mp hq ?_
  rw [same_iff] at *
  exact hpath.symm.trans hp

/-- What is of one file stays when another is taken out. -/
theorem filter_same_filter_not {α : Type} (origin : α → SourcePath) (hq : path.same q = false)
    (xs : List α) :
    (xs.filter fun x => !(origin x).same path).filter (fun x => (origin x).same q) =
      xs.filter fun x => (origin x).same q := by
  rw [List.filter_filter]
  refine List.filter_congr fun x _ => ?_
  cases hx : (origin x).same q with
  | false => rfl
  | true => rw [same_eq_false_of_same hq hx, Bool.not_false, Bool.and_true]

end SourcePath

namespace Ledger

variable {L D : Ledger} {e : SourcePath × Document} {path q : SourcePath} {doc : Document}

/-- The ledger after some files have been added, one after the other. -/
def enterAll (L D : Ledger) : Ledger := D.foldl (fun L e => L.without e.1 ++ [e]) L

/-- The ledger without the files of another one. -/
def withoutAll (L D : Ledger) : Ledger := L.filter fun e => D.all fun e' => !e.1.same e'.1

theorem withoutAll_append (L L' D : Ledger) :
    withoutAll (L ++ L') D = L.withoutAll D ++ L'.withoutAll D := List.filter_append ..

theorem withoutAll_cons (L D : Ledger) (e : SourcePath × Document) :
    L.withoutAll (e :: D) = (L.without e.1).withoutAll D := by
  rw [withoutAll, withoutAll, without, List.filter_filter]
  simp only [List.all_cons, Bool.and_comm]

/-- Leaving out files that are not there changes nothing. -/
theorem withoutAll_eq_self (h : ∀ e ∈ L, ∀ e' ∈ D, e.1.components ≠ e'.1.components) :
    L.withoutAll D = L := by
  refine List.filter_eq_self.mpr fun e he => List.all_eq_true.mpr fun e' he' => ?_
  rw [Bool.not_eq_true', Bool.eq_false_iff, ne_eq, SourcePath.same_iff]
  exact h e he e' he'

/-- Leaving files out twice is leaving them out once. -/
theorem withoutAll_withoutAll (L D : Ledger) : (L.withoutAll D).withoutAll D = L.withoutAll D := by
  rw [withoutAll, withoutAll, List.filter_filter]
  simp only [Bool.and_self]

/-- Nothing is left without all of its files. -/
theorem withoutAll_self (D : Ledger) : D.withoutAll D = [] := by
  refine List.filter_eq_nil_iff.mpr fun e he hall => ?_
  have hself := List.all_eq_true.mp hall e he
  rw [SourcePath.same_refl] at hself
  cases hself

/-- The files that are added come last, in the order in which they are added. -/
theorem enterAll_eq (hD : D.Distinct) : L.enterAll D = L.withoutAll D ++ D := by
  induction D generalizing L with
  | nil => simp [enterAll, withoutAll]
  | cons e D ih =>
    obtain ⟨hnew, hD⟩ := List.nodup_cons.mp hD
    have hkept : withoutAll [e] D = [e] := by
      refine withoutAll_eq_self fun e' he' e'' he'' heq => hnew ?_
      rw [List.mem_singleton.mp he'] at heq
      exact List.mem_map.mpr ⟨e'', he'', heq.symm⟩
    calc L.enterAll (e :: D) = (L.without e.1 ++ [e]).enterAll D := rfl
      _ = (L.without e.1).withoutAll D ++ [e] ++ D := by rw [ih hD, withoutAll_append, hkept]
      _ = L.withoutAll (e :: D) ++ e :: D := by
        rw [withoutAll_cons, List.append_assoc, List.singleton_append]

/-- Adding the files once more changes nothing. -/
theorem enterAll_enterAll (hD : D.Distinct) : (L.enterAll D).enterAll D = L.enterAll D := by
  rw [enterAll_eq hD, enterAll_eq hD, withoutAll_append, withoutAll_withoutAll, withoutAll_self,
    List.append_nil]

/-- What another file deposits stays when a file is replaced. -/
theorem deposits_filter_replace (L : Ledger) (doc : Document) (hq : path.same q = false) :
    (deposits (L.without path ++ [(path, doc)])).filter (fun d => d.2.file.same q) =
      L.deposits.filter fun d => d.2.file.same q := by
  have hnew : ((doc.outline path).deposits path).filter (fun d => d.2.file.same q) = [] := by
    refine List.filter_eq_nil_iff.mpr fun d hd => ?_
    rw [Document.file_eq_of_mem_deposits hd, hq]
    exact Bool.false_ne_true
  rw [deposits_concat, List.filter_append, hnew, List.append_nil, deposits_without,
    SourcePath.filter_same_filter_not (fun d : Deposit => d.2.file) hq]

end Ledger

namespace Index

/-- The fragments of a file on a node. -/
def fragmentsOn (t : Index) (path : SourcePath) (i : NodeId) : List Fragment :=
  (t.node? i).elim [] fun n => n.fragments.filter fun f => f.file.same path

/-- What a file has left in `t` stands in `u` as it does in `t`. -/
structure Spares (t u : Index) (path : SourcePath) : Prop where
  /-- Every node holds the same fragments of the file. -/
  fragments_eq : ∀ i, u.fragmentsOn path i = t.fragmentsOn path i
  /-- The nodes that hold some stay below the same nodes, under the same names. -/
  stands_eq : ∀ i, t.fragmentsOn path i ≠ [] →
    u.ancestors i = t.ancestors i ∧ u.pathNames i = t.pathNames i
  /-- The record of the file stays as it is, apart from bindings. -/
  record_eq : (u.file? path).map FileRecord.unbound = (t.file? path).map FileRecord.unbound
  registrations_eq : (u.registrations.filter fun r => r.1.same path) =
    t.registrations.filter fun r => r.1.same path

/-- The index after some files have been added, one after the other. -/
def addAll (t : Index) (D : Ledger) : Index := D.foldl (fun t e => t.add e.1 e.2) t

variable {t u w : Index} {L D : Ledger} {lay : Layout} {path q : SourcePath} {i : NodeId}

theorem Spares.rfl : t.Spares t path :=
  ⟨fun _ => Eq.refl _, fun _ _ => ⟨Eq.refl _, Eq.refl _⟩, Eq.refl _, Eq.refl _⟩

theorem Spares.trans (h : t.Spares u path) (h' : u.Spares w path) : t.Spares w path where
  fragments_eq i := (h'.fragments_eq i).trans (h.fragments_eq i)
  stands_eq i hi := by
    obtain ⟨habove, hnames⟩ := h.stands_eq i hi
    obtain ⟨habove', hnames'⟩ := h'.stands_eq i (h.fragments_eq i ▸ hi)
    exact ⟨habove'.trans habove, hnames'.trans hnames⟩
  record_eq := h'.record_eq.trans h.record_eq
  registrations_eq := h'.registrations_eq.trans h.registrations_eq

namespace Built

/-- The fragments of a file on a node are its deposits there. -/
theorem fragmentsOn_eq (h : t.Built L lay) {a : Address} (ha : lay a = some i) :
    t.fragmentsOn path i = fragmentsAt (L.deposits.filter fun d => d.2.file.same path) a := by
  obtain ⟨n, hn⟩ := h.laid.exists_node ha
  rw [fragmentsAt_filter _ fun f => f.file.same path, fragmentsOn, hn, Option.elim_some,
    h.fragments_eq ha hn]

/-- A node that holds fragments of a file stands somewhere, and something is deposited there. -/
theorem exists_deposit_of_fragmentsOn (h : t.Built L lay) (hi : t.fragmentsOn path i ≠ []) :
    ∃ a, lay a = some i ∧ ∃ d ∈ L.deposits.filter fun d => d.2.file.same path, d.1 = a := by
  cases hn : t.node? i with
  | none =>
    rw [fragmentsOn, hn] at hi
    exact absurd rfl hi
  | some n =>
    obtain ⟨a, ha⟩ := h.laid.exists_address hn
    refine ⟨a, ha, ?_⟩
    rw [h.fragmentsOn_eq ha, ne_eq, fragmentsAt_eq_nil_iff] at hi
    push Not at hi
    exact hi

/-- Replacing a file moves no node at or below which another file has left something. -/
theorem exists_add_keeping (h : t.Built L lay) (path : SourcePath) (doc : Document) :
    ∃ lay', (t.add path doc).Built (L.without path ++ [(path, doc)]) lay' ∧
      ∀ {a : Address} {id : NodeId} {d : Deposit}, lay a = some id →
        d ∈ (L.without path).deposits → a ≤ d.1 → lay' a = some id := by
  obtain ⟨lay₁, hremoved, hkeep⟩ := h.exists_remove_keeping path
  obtain ⟨lay', ids, hadded⟩ := h.exists_added_remove path doc hremoved
  exact ⟨lay', hadded.built_add, fun ha hd hle => hadded.keep (hkeep ha hd hle)⟩

/-- Replacing a file spares the others. -/
theorem spares_add (h : t.Built L lay) (ht : t.Anchored) (doc : Document)
    (hq : path.same q = false) : t.Spares (t.add path doc) q := by
  obtain ⟨lay', h', hkeep⟩ := h.exists_add_keeping path doc
  have hchanges := h.onlyChanges_add ht path doc
  have hsame := Ledger.deposits_filter_replace L doc hq
  -- what the other file has left somewhere holds the nodes there and above
  have hstays : ∀ {a b : Address} {j : NodeId} {d : Deposit},
      d ∈ (L.deposits.filter fun d => d.2.file.same q) → d.1 = a → b ≤ a → lay b = some j →
      lay' b = some j := by
    rintro a b j d hd rfl hle hb
    obtain ⟨hd, hdq⟩ := List.mem_filter.mp hd
    refine hkeep hb ?_ hle
    rw [Ledger.deposits_without, List.mem_filter, Bool.not_eq_true']
    exact ⟨hd, SourcePath.same_eq_false_of_same hq hdq⟩
  refine { fragments_eq := fun i => ?_, stands_eq := fun i hi => ?_, record_eq := ?_,
           registrations_eq := ?_ }
  · by_cases hi : t.fragmentsOn q i = []
    · rw [hi]
      by_contra hnew
      obtain ⟨a, ha, d, hd, hda⟩ := h'.exists_deposit_of_fragmentsOn hnew
      rw [hsame] at hd
      obtain ⟨j, hj⟩ := h.placed d (List.mem_filter.mp hd).1
      rw [hda] at hj
      obtain rfl := Option.some.inj ((hstays hd hda le_rfl hj).symm.trans ha)
      rw [h.fragmentsOn_eq hj, fragmentsAt_eq_nil_iff] at hi
      exact hi d hd hda
    · obtain ⟨a, ha, d, hd, hda⟩ := h.exists_deposit_of_fragmentsOn hi
      rw [h'.fragmentsOn_eq (hstays hd hda le_rfl ha), h.fragmentsOn_eq ha, hsame]
  · obtain ⟨a, ha, d, hd, hda⟩ := h.exists_deposit_of_fragmentsOn hi
    have ha' := hstays hd hda le_rfl ha
    refine ⟨?_, by rw [h'.laid.pathNames_eq ha', h.laid.pathNames_eq ha]⟩
    rw [h'.laid.ancestors_eq ha', h.laid.ancestors_eq ha]
    refine congrArg (i :: ·) (Layout.above_congr fun b hlt => ?_)
    obtain ⟨p, hp⟩ := h.laid.closed_of_le ha hlt.le
    rw [hp, hstays hd hda hlt.le hp]
  · refine hchanges.files_eq _ fun heq => Bool.eq_false_iff.mp hq ?_
    rw [SourcePath.same_iff, heq]
  · rw [← SourcePath.filter_same_filter_not Prod.fst hq (t.add path doc).registrations,
      hchanges.registrations_eq, SourcePath.filter_same_filter_not Prod.fst hq]

/-- Resolution spares every file. -/
theorem spares_resolve (h : t.Built L lay) (path : SourcePath) : t.Spares t.resolve path where
  fragments_eq i := by
    rw [fragmentsOn, fragmentsOn, node?_resolve]
    cases t.node? i <;> rfl
  stands_eq i hi := by
    obtain ⟨a, ha, -⟩ := h.exists_deposit_of_fragmentsOn hi
    rw [h.resolve.laid.ancestors_eq ha, h.laid.ancestors_eq ha, h.resolve.laid.pathNames_eq ha,
      h.laid.pathNames_eq ha]
    exact ⟨rfl, rfl⟩
  record_eq := by
    rw [file?, files_resolve, Option.map_map]
    exact congrArg (Option.map · _) (funext fun f => f.unbound_rebound _)
  registrations_eq := rfl

/-! ### Many files -/

/-- Adding documents gives an index that is built of them. -/
theorem exists_addAll (h : t.Built L lay) (D : Ledger) :
    ∃ lay', (t.addAll D).Built (L.enterAll D) lay' ∧ (t.addAll D).options = t.options := by
  induction D generalizing t L lay with
  | nil => exact ⟨lay, h, rfl⟩
  | cons e D ih =>
    obtain ⟨lay₁, hadd⟩ := h.exists_add e.1 e.2
    obtain ⟨lay', hall, hoptions⟩ := ih hadd
    exact ⟨lay', hall, hoptions.trans (h.options_add e.1 e.2)⟩

/-- Adding some files spares the others. -/
theorem spares_addAll (h : t.Built L lay) (ht : t.Anchored)
    (hpath : ∀ e ∈ D, e.1.same path = false) : t.Spares (t.addAll D) path := by
  induction D generalizing t L lay with
  | nil => exact Spares.rfl
  | cons e D ih =>
    obtain ⟨he, hD⟩ := List.forall_mem_cons.mp hpath
    obtain ⟨lay₁, hadd⟩ := h.exists_add e.1 e.2
    have hanchored : (t.add e.1 e.2).Anchored := h.anchored_apply ht (.add e.1 e.2)
    exact (h.spares_add ht e.2 he).trans (ih hadd hanchored hD)

/-- Adding the same files once more, and resolving again, shows in no line of the listing. -/
theorem lines_addAll_addAll (h : t.Built L lay) (hD : D.Distinct) :
    ((t.addAll D).resolve.addAll D).resolve.lines = (t.addAll D).resolve.lines := by
  obtain ⟨lay₁, hfirst, hoptions⟩ := h.exists_addAll D
  obtain ⟨lay₂, hagain, hoptions'⟩ := hfirst.resolve.exists_addAll D
  rw [Ledger.enterAll_enterAll hD] at hagain
  obtain ⟨ρ, rfl⟩ := hfirst.resolve.exists_relabel hagain.resolve
  exact hfirst.resolve.lines_eq hagain.resolve hoptions'

end Built

end Index

end SemanticIndex
