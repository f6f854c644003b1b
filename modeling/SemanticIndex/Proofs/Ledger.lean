import Mathlib.Data.List.Nodup
import SemanticIndex.Proofs.Adding
import SemanticIndex.Proofs.Pruning

/-!
# Indexes Built from a Ledger

A ledger lists files with their documents, in the order in which they were last added. An index is
built from a ledger, in some layout, when it holds what the documents deposit, has no node that no
deposit keeps, and has records and templates of just these files (`Index.Built`). Two indexes that
are built from one ledger differ in the numbers of their nodes and in what is found out about them
later, and in nothing else.
-/

namespace SemanticIndex

/-- Files with their documents, in the order in which they were last added. -/
abbrev Ledger := List (SourcePath × Document)

namespace Ledger

/-- The ledger without a file. -/
def without (L : Ledger) (path : SourcePath) : Ledger := L.filter fun e => !e.1.same path

/-- All that the documents deposit. -/
def deposits (L : Ledger) : List Deposit := L.flatMap fun e => (e.2.outline e.1).deposits e.1

/-- The templates that the documents register. -/
def registrations (L : Ledger) : List (SourcePath × Template) :=
  L.flatMap fun e => (e.2.outline e.1).templates.map (e.1, ·)

/-- No file is entered twice. -/
def Distinct (L : Ledger) : Prop := (L.map fun e => e.1.components).Nodup

variable {L : Ledger} {path : SourcePath} {doc : Document} {e e' : SourcePath × Document}
  {d : Deposit}

theorem mem_without_iff : e ∈ L.without path ↔ e ∈ L ∧ e.1.components ≠ path.components := by
  rw [without, List.mem_filter, Bool.not_eq_true', Bool.eq_false_iff, ne_eq, SourcePath.same_iff]

/-- A file that is not entered cannot be taken out. -/
theorem without_eq_self (h : ∀ e ∈ L, e.1.components ≠ path.components) : L.without path = L := by
  refine List.filter_eq_self.mpr fun e he => ?_
  rw [Bool.not_eq_true', Bool.eq_false_iff, ne_eq, SourcePath.same_iff]
  exact h e he

/-- Which file is taken out depends on the components of its path. -/
theorem without_congr {path' : SourcePath} (h : path.components = path'.components) :
    L.without path = L.without path' := by
  have hsame : ∀ e : SourcePath × Document, e.1.same path = e.1.same path' := fun e => by
    rw [SourcePath.same, SourcePath.same, h]
  simp only [without, hsame]

theorem mem_deposits_iff : d ∈ L.deposits ↔ ∃ e ∈ L, d ∈ (e.2.outline e.1).deposits e.1 :=
  List.mem_flatMap

/-- Only a file without a package deposits in the tree of an isolated file, and only in its own. -/
theorem components_eq_of_home {k : List PathComponent} (hd : d ∈ L.deposits)
    (hk : d.1.home = some k) :
    ∃ e ∈ L, e.1.components = k ∧ (e.2.outline e.1).packagePath.isEmpty = true := by
  obtain ⟨e, he, hd⟩ := mem_deposits_iff.mp hd
  rw [Outline.home_of_mem_deposits hd, Outline.home] at hk
  split at hk
  · exact ⟨e, he, Option.some.inj hk, ‹_›⟩
  · cases hk

/-- A part of what a ledger contributes that carries the paths of its files, without a file. -/
private theorem flatMap_without {α : Type} (L : Ledger) (path : SourcePath)
    (f : SourcePath × Document → List α) (origin : α → SourcePath)
    (horigin : ∀ e, ∀ x ∈ f e, origin x = e.1) :
    (L.flatMap f).filter (fun x => !(origin x).same path) = (L.without path).flatMap f := by
  induction L with
  | nil => rfl
  | cons e L ih =>
    have hcons : without (e :: L) path =
        if (!e.1.same path) = true then e :: without L path else without L path := List.filter_cons
    rw [List.flatMap_cons, List.filter_append, ih, hcons]
    -- all that a file contributes carries its path, so all of it stays or all of it goes
    split
    · rename_i he
      rw [List.flatMap_cons, List.filter_eq_self.mpr]
      intro x hx
      rwa [horigin e x hx]
    · rename_i he
      rw [List.filter_eq_nil_iff.mpr]
      · rfl
      · intro x hx
        rwa [horigin e x hx]

/-- Without a file its deposits are missing. -/
theorem deposits_without (L : Ledger) (path : SourcePath) :
    (L.without path).deposits = L.deposits.filter fun d => !d.2.file.same path :=
  (flatMap_without L path (fun e => (e.2.outline e.1).deposits e.1) (fun d => d.2.file)
    fun _ _ hd => Document.file_eq_of_mem_deposits hd).symm

/-- Without a file its templates are missing. -/
theorem registrations_without (L : Ledger) (path : SourcePath) :
    (L.without path).registrations = L.registrations.filter fun r => !r.1.same path := by
  refine (flatMap_without L path _ Prod.fst fun e r hr => ?_).symm
  obtain ⟨_, -, rfl⟩ := List.mem_map.mp hr
  rfl

/-- A further document adds its deposits at the end. -/
theorem deposits_concat (L : Ledger) (path : SourcePath) (doc : Document) :
    deposits (L ++ [(path, doc)]) = L.deposits ++ (doc.outline path).deposits path := by
  simp [deposits]

/-- A further document adds its templates at the end. -/
theorem registrations_concat (L : Ledger) (path : SourcePath) (doc : Document) :
    registrations (L ++ [(path, doc)]) =
      L.registrations ++ (doc.outline path).templates.map (path, ·) := by
  simp [registrations]

/-- Files stay distinct when one is left out. -/
theorem Distinct.without (h : L.Distinct) (path : SourcePath) : (L.without path).Distinct :=
  (List.filter_sublist.map _).nodup h

/-- Files stay distinct when a new one is added. -/
theorem Distinct.concat (h : L.Distinct) (hnew : ∀ e ∈ L, e.1.components ≠ path.components) :
    Distinct (L ++ [(path, doc)]) := by
  rw [Distinct, List.map_append, List.map_singleton, List.nodup_append]
  refine ⟨h, List.nodup_singleton _, fun k hk k' hk' => ?_⟩
  obtain ⟨e, he, rfl⟩ := List.mem_map.mp hk
  rw [List.mem_singleton] at hk'
  rw [hk']
  exact hnew e he

/-- A file has one entry. -/
theorem Distinct.eq (h : L.Distinct) (he : e ∈ L) (he' : e' ∈ L)
    (hpath : e.1.components = e'.1.components) : e = e' :=
  List.inj_on_of_nodup_map h he he' hpath

end Ledger

/-- The record `f` says of the outline of a file what it should, where the nodes stand as `lay`
says. -/
structure FileRecord.IsOf (f : FileRecord) (lay : Layout) (path : SourcePath) (o : Outline) :
    Prop where
  path_eq : f.path = path
  top_at : lay (o.topAddress path) = some f.top
  isolated_eq : f.isolated = o.packagePath.isEmpty
  nodes_at : lay.Lists (o.visited path) f.nodes
  references_at : List.Forall₂ (fun (m : ScopedMention) r => r.mention = m.2 ∧ r.file = path ∧
    lay ((o.topAddress path).down (m.1.map nodeName)) = some r.scope) o.mentions f.references
  pragmas_eq : f.pragmas = o.pragmas

/-- The record with other bindings. -/
def FileRecord.rebound (bind : Reference → Binding) (f : FileRecord) : FileRecord :=
  { f with references := f.references.map fun r => { r with binding := bind r } }

/-- What was bound before does not matter to new bindings that do not depend on it. -/
theorem FileRecord.rebound_rebound (bind : Reference → Binding) {bind' : Reference → Binding}
    (h : ∀ r b, bind' { r with binding := b } = bind' r) (f : FileRecord) :
    (f.rebound bind).rebound bind' = f.rebound bind' := by
  rw [rebound, rebound, rebound, List.map_map]
  simp only [Function.comp_def, h]

/-- A record in which all is bound as before is the record. -/
theorem FileRecord.rebound_eq_self {f : FileRecord} {bind : Reference → Binding}
    (h : ∀ r ∈ f.references, bind r = r.binding) : f.rebound bind = f := by
  have hreferences : (f.references.map fun r => { r with binding := bind r }) = f.references :=
    (List.map_congr_left fun r hr => by rw [h r hr]; rfl).trans (List.map_id f.references)
  rw [rebound, hreferences]

namespace FileRecord.IsOf

variable {f : FileRecord} {lay lay' : Layout} {path : SourcePath} {doc : Document}

/-- The scope of a mention is an address that the file comes to. -/
theorem scope_mem_visited {m : ScopedMention} (hm : m ∈ (doc.outline path).mentions) :
    ((doc.outline path).topAddress path).down (m.1.map nodeName) ∈
      (doc.outline path).visited path := by
  obtain ⟨b, hb, hpath⟩ := Document.exists_block_of_mention hm
  rw [← hpath]
  exact Outline.address_mem_visited hb

/-- A record is right as long as no node moves that stands where the file came to. -/
theorem congr (h : f.IsOf lay path (doc.outline path))
    (hlay : ∀ a ∈ (doc.outline path).visited path, ∀ id, lay a = some id → lay' a = some id) :
    f.IsOf lay' path (doc.outline path) where
  path_eq := h.path_eq
  top_at := hlay _ Outline.topAddress_mem_visited _ h.top_at
  isolated_eq := h.isolated_eq
  nodes_at := by
    refine List.forall₂_iff_zip.mpr ⟨h.nodes_at.length_eq, fun {a id} hmem => ?_⟩
    exact hlay a (List.of_mem_zip hmem).1 id (List.forall₂_zip h.nodes_at hmem)
  references_at := by
    refine List.forall₂_iff_zip.mpr ⟨h.references_at.length_eq, fun {m r} hmem => ?_⟩
    obtain ⟨hmention, hfile, hscope⟩ := List.forall₂_zip h.references_at hmem
    exact ⟨hmention, hfile, hlay _ (scope_mem_visited (List.of_mem_zip hmem).1) _ hscope⟩
  pragmas_eq := h.pragmas_eq

/-- The scope of a reference stands somewhere. -/
theorem exists_scope_at {o : Outline} (h : f.IsOf lay path o) {r : Reference}
    (hr : r ∈ f.references) : ∃ a, lay a = some r.scope := by
  have hscopes : List.Forall₂
      (fun r (_ : ScopedMention) => (∃ a, lay a = some r.scope) ∧ True) f.references o.mentions :=
    (h.references_at.imp fun _ _ hm => ⟨⟨_, hm.2.2⟩, trivial⟩).flip
  exact ((List.forall₂_and_left _ _).mp hscopes).1 r hr

/-- The bindings do not matter. -/
theorem rebound {o : Outline} (h : f.IsOf lay path o) (bind : Reference → Binding) :
    (f.rebound bind).IsOf lay path o :=
  { h with references_at := List.forall₂_map_right_iff.mpr h.references_at }

end FileRecord.IsOf

namespace Index

/-- A file is not there exactly if it has no record. -/
theorem hasFile_eq_false_iff {t : Index} {path : SourcePath} :
    t.hasFile path = false ↔ t.file? path = none := by
  rw [hasFile, Option.isSome_eq_false_iff, Option.isNone_iff_eq_none]

/-- Removing a file that is not there changes nothing. -/
theorem remove_of_not_hasFile {t : Index} {path : SourcePath} (h : t.hasFile path = false) :
    t.remove path = t := by
  rw [remove, hasFile_eq_false_iff.mp h]

/-- Removing a file that is there withdraws its record. -/
theorem remove_of_file? {t : Index} {path : SourcePath} {f : FileRecord}
    (h : t.file? path = some f) : t.remove path = t.withdraw f := by
  rw [remove, h]

/-- The index is built from the ledger `L`, its nodes laid out as `lay` says. -/
structure Built (t : Index) (L : Ledger) (lay : Layout) : Prop
    extends t.Holds lay L.deposits [] where
  covered : lay.Covered L.deposits
  distinct : L.Distinct
  /-- Every entered file has its record. -/
  exists_file : ∀ e ∈ L, ∃ f, t.files[e.1.components]? = some f ∧ f.IsOf lay e.1 (e.2.outline e.1)
  /-- No other file has one. -/
  exists_entry : ∀ {k : List PathComponent} {f : FileRecord}, t.files[k]? = some f →
    ∃ e ∈ L, e.1.components = k
  registrations_eq : t.registrations = L.registrations

/-- The empty index is built of nothing. -/
theorem built_empty (options : IndexOptions) : (empty options).Built [] emptyLayout :=
  { holds_empty options with
    covered := fun a id ha => by
      rw [emptyLayout] at ha
      split at ha
      · exact Or.inl ‹_›
      · cases ha
    distinct := .nil
    exists_file := fun _ he => nomatch he
    exists_entry := fun {k f} hf => by simp [empty] at hf
    registrations_eq := rfl }

namespace Built

variable {t u : Index} {L : Ledger} {lay : Layout} {f : FileRecord} {k : List PathComponent}
  {path : SourcePath}

/-- The record under a key is that of an entered file. -/
theorem isOf (h : t.Built L lay) (hf : t.files[k]? = some f) :
    ∃ e ∈ L, e.1.components = k ∧ f.IsOf lay e.1 (e.2.outline e.1) := by
  obtain ⟨e, he, rfl⟩ := h.exists_entry hf
  obtain ⟨f', hf', hisOf⟩ := h.exists_file e he
  rw [hf, Option.some.injEq] at hf'
  exact ⟨e, he, rfl, hf' ▸ hisOf⟩

/-- A record stands under the key of its own path. -/
theorem components_eq (h : t.Built L lay) (hf : t.files[k]? = some f) : f.path.components = k := by
  obtain ⟨e, -, he, hisOf⟩ := h.isOf hf
  rw [hisOf.path_eq, he]

/-- A built index has the files that it is built of. -/
theorem hasFile_iff (h : t.Built L lay) :
    t.hasFile path = true ↔ ∃ e ∈ L, e.1.components = path.components := by
  rw [hasFile, file?, Option.isSome_iff_exists]
  constructor
  · rintro ⟨f, hf⟩
    exact h.exists_entry hf
  · rintro ⟨e, he, hpath⟩
    obtain ⟨f, hf, -⟩ := h.exists_file e he
    exact ⟨f, hpath ▸ hf⟩

/-- A file without a record is not entered. -/
theorem components_ne (h : t.Built L lay) (hnew : t.hasFile path = false) :
    ∀ e ∈ L, e.1.components ≠ path.components := by
  intro e he hpath
  rw [h.hasFile_iff.mpr ⟨e, he, hpath⟩] at hnew
  cases hnew

/-- Nodes stand at the origin and wherever there is a deposit at or below. -/
theorem taken_iff (h : t.Built L lay) {a : Address} :
    (∃ id, lay a = some id) ↔ a = .origin ∨ ∃ d ∈ L.deposits, a ≤ d.1 := by
  constructor
  · rintro ⟨id, ha⟩
    exact h.covered a id ha
  · rintro (rfl | ⟨d, hd, hle⟩)
    · exact ⟨root, h.laid.root_at⟩
    · obtain ⟨j, hj⟩ := h.placed d hd
      exact h.laid.closed_of_le hj hle

/-- There is a deposit at the top address of an entered file, or below. -/
theorem exists_deposit {e : SourcePath × Document} (he : e ∈ L) {a : Address}
    (ha : a ∈ (e.2.outline e.1).visited e.1) : ∃ d ∈ L.deposits, a ≤ d.1 := by
  obtain ⟨d, hd, hle⟩ := Document.exists_deposit_of_mem_visited ha
  exact ⟨d, Ledger.mem_deposits_iff.mpr ⟨e, he, hd⟩, hle⟩

/-- The root of an isolated file that is entered is at its address, and no other file has one. -/
theorem isolated_at_iff (h : t.Built L lay) {id : NodeId} :
    lay (.isolated k) = some id ↔
      ∃ f, t.files[k]? = some f ∧ f.isolated = true ∧ f.top = id := by
  constructor
  · intro ha
    rcases h.covered _ _ ha with horigin | ⟨d, hd, hle⟩
    · cases congrArg Address.home horigin
    -- what lies below the root was deposited by the file itself, which has no package
    · obtain ⟨e, he, rfl, hempty⟩ := Ledger.components_eq_of_home hd hle.1.symm
      obtain ⟨f, hf, hisOf⟩ := h.exists_file e he
      refine ⟨f, hf, hisOf.isolated_eq.trans hempty, ?_⟩
      have htop := hisOf.top_at
      rw [Outline.topAddress, List.isEmpty_iff.mp hempty] at htop
      exact Option.some.inj (htop.symm.trans ha)
  · rintro ⟨f, hf, hisolated, rfl⟩
    obtain ⟨e, he, rfl, hisOf⟩ := h.isOf hf
    have hempty := hisOf.isolated_eq.symm.trans hisolated
    have htop := hisOf.top_at
    rwa [Outline.topAddress, List.isEmpty_iff.mp hempty] at htop

/-- Summaries of other values, other targets and other bindings do not matter. -/
theorem congr (h : t.Built L lay) (hholds : u.Holds lay L.deposits [])
    (hfiles : ∃ bind, ∀ k : List PathComponent,
      u.files[k]? = (t.files[k]?).map (FileRecord.rebound bind))
    (hregistrations : u.registrations = t.registrations) : u.Built L lay :=
  { hholds with
    covered := h.covered
    distinct := h.distinct
    exists_file := fun e he => by
      obtain ⟨bind, hbind⟩ := hfiles
      obtain ⟨f, hf, hisOf⟩ := h.exists_file e he
      exact ⟨f.rebound bind, by rw [hbind, hf, Option.map_some], hisOf.rebound bind⟩
    exists_entry := fun {k f} hf => by
      obtain ⟨bind, hbind⟩ := hfiles
      rw [hbind] at hf
      obtain ⟨f', hf', -⟩ := Option.map_eq_some_iff.mp hf
      exact h.exists_entry hf'
    registrations_eq := hregistrations.trans h.registrations_eq }

end Built

end Index

end SemanticIndex
