import SemanticIndex.Proofs.Arriving
import SemanticIndex.Proofs.PathOrder
import SemanticIndex.Proofs.Readding

/-!
# What a Scan Does

A scan splits the regular files at which its walks arrive into those that are indexed and those
that fail, and reports with the latter the entries that the walks could not read (`Index.IsScan`).
What it makes of an index is what adding the indexed ones in the order of their paths, and then
resolving, would have made; so a file that fails keeps what it has left before. The order in which
the walks come to their entries does not matter, nor that in which results arrive, and a second scan
has the same report and leads to the same listing (`Index.scan_run`).

Of the host no more is assumed than that an entry that it cannot read is no regular file.
-/

namespace SemanticIndex

/-! ### Hosts -/

/-- What one walk comes to: paths that match and entries that it cannot read. -/
abbrev WalkEntries := List (Except WalkError SourcePath)

/-- What walks could not read, as often as they have met it. -/
def unreadIn (walks : List WalkEntries) : List WalkError :=
  walks.flatten.filterMap fun
    | .ok _ => none
    | .error e => some e

namespace Host

/-- There is a text in the file, and it is parsed as this document. -/
def Holds (h : Host) (parse : DocumentParser) (path : SourcePath) (document : Document) : Prop :=
  ∃ text, h.readText path = .ok text ∧ parse path text = .ok document

/-- Why there is no document in a file. -/
inductive Fails (h : Host) (parse : DocumentParser) (path : SourcePath) : ScanError → Prop where
  | unreadable {e : HostError} (read_eq : h.readText path = .error e) :
    Fails h parse path (.unreadable path e)
  | malformed {text : String} {e : ParseError} (read_eq : h.readText path = .ok text)
    (parse_eq : parse path text = .error e) : Fails h parse path (.malformed path e)

/-- The walks of a scan, one for each extension, come to these entries. -/
def WalksTo (h : Host) (root : String) (o : ScanOptions) (walks : List WalkEntries) : Prop :=
  List.Forall₂ (fun extension entries =>
      h.walk (h.quote root ++ "/**/*." ++ extension) o.followHidden = .ok entries)
    o.extensions walks

/-- One of the walks arrives at a regular file. -/
def Finds (h : Host) (walks : List WalkEntries) (path : SourcePath) : Prop :=
  h.isFile path = true ∧ ∃ entries ∈ walks, .ok path ∈ entries

/-- A walk reads nothing but directories: an entry that it cannot read is no regular file, whichever
path leads to it. -/
def ReadsFiles (h : Host) : Prop :=
  ∀ pattern hidden entries, h.walk pattern hidden = .ok entries → ∀ e, .error e ∈ entries →
    ∀ path : SourcePath, path.same e.path = true → h.isFile path = false

/-- Where `h` walks to some entries, the walks of another host arrive at the same files, in whatever
order and however often, and cannot read the same entries; and what it reads from the files is the
same. -/
structure ShowsAlike (h h' : Host) (root : String) (o : ScanOptions) (walks : List WalkEntries) :
    Prop where
  starts : h'.startParsers (max o.concurrency 1) = .ok ()
  exists_walks : ∃ walks', h'.WalksTo root o walks' ∧
    (∀ path, h'.Finds walks' path ↔ h.Finds walks path) ∧
    ∀ k, (unreadIn walks').filter (fun e => e.path.components == k) =
      (unreadIn walks).filter fun e => e.path.components == k
  /-- The walks spell each file in one way. -/
  spelling_eq : ∀ p q, h.Finds walks p → h.Finds walks q → p.same q = true → p = q
  readText_eq : ∀ path, h.Finds walks path → h'.readText path = h.readText path

end Host

/-! ### Discoveries -/

section

variable {h : Host} {walks : List WalkEntries} {path : SourcePath} {e : WalkError} {root : String}
  {o : ScanOptions}

/-- What all walks have come to. -/
def Discovery.ofWalks (h : Host) (walks : List WalkEntries) : Discovery :=
  .join (walks.map (.ofEntries h))

/-- The files discovered are those that the walks find. -/
theorem Discovery.mem_files_ofWalks_iff : path ∈ (ofWalks h walks).files ↔ h.Finds walks path := by
  have hentries : ∀ entries : WalkEntries, path ∈ (ofEntries h entries).files ↔
      h.isFile path = true ∧ .ok path ∈ entries := by
    intro entries
    rw [ofEntries, List.mem_filterMap]
    constructor
    · rintro ⟨entry, hentry, heq⟩
      split at heq
      · split at heq
        · obtain rfl := Option.some.inj heq
          exact ⟨‹_›, hentry⟩
        · cases heq
      · cases heq
    · rintro ⟨hfile, hentry⟩
      exact ⟨_, hentry, if_pos hfile⟩
  rw [ofWalks, join, List.flatMap_map, List.mem_flatMap, Host.Finds]
  simp only [hentries]
  exact ⟨fun ⟨entries, hmem, hfile, hpath⟩ => ⟨hfile, entries, hmem, hpath⟩,
    fun ⟨hfile, entries, hmem, hpath⟩ => ⟨entries, hmem, hfile, hpath⟩⟩

/-- What was not read is what the walks could not read. -/
theorem Discovery.unread_ofWalks (h : Host) (walks : List WalkEntries) :
    (ofWalks h walks).unread = unreadIn walks := by
  rw [unreadIn, List.filterMap_flatten, ← List.flatMap_def]
  exact List.flatMap_map (Discovery.ofEntries h) Discovery.unread walks

/-- If the walks come to some entries, these are what is discovered. -/
theorem discoverAll_eq (hwalks : h.WalksTo root o walks) :
    discoverAll h root o = .ok (.ofWalks h walks) := by
  have hmapM : o.extensions.mapM (discoverExtension h o.followHidden (h.quote root)) =
      .ok (walks.map (.ofEntries h)) := by
    unfold Host.WalksTo at hwalks
    generalize o.extensions = extensions at hwalks
    induction hwalks with
    | nil => rfl
    | cons hwalk _ ih =>
      rw [List.mapM_cons, discoverExtension, hwalk, ih]
      rfl
  rw [discoverAll, hmapM]
  rfl

/-- Each of the walks is one of the host. -/
theorem Host.WalksTo.exists_walk (hwalks : h.WalksTo root o walks) {entries : WalkEntries}
    (hmem : entries ∈ walks) : ∃ pattern, h.walk pattern o.followHidden = .ok entries := by
  unfold WalksTo at hwalks
  generalize o.extensions = extensions at hwalks
  induction hwalks with
  | nil => cases hmem
  | cons hwalk _ ih =>
    rcases List.mem_cons.mp hmem with rfl | hmem
    · exact ⟨_, hwalk⟩
    · exact ih hmem

/-- A file that is found is none of the entries that could not be read. -/
theorem not_same_of_mem_unreadIn (hreads : h.ReadsFiles) (hwalks : h.WalksTo root o walks)
    (hpath : h.Finds walks path) (he : e ∈ unreadIn walks) : path.same e.path = false := by
  refine Bool.eq_false_iff.mpr fun hsame => ?_
  obtain ⟨entry, hentry, heq⟩ := List.mem_filterMap.mp he
  obtain ⟨entries, hmem, hentry⟩ := List.mem_flatten.mp hentry
  obtain ⟨pattern, hwalk⟩ := hwalks.exists_walk hmem
  split at heq
  · cases heq
  · obtain rfl := Option.some.inj heq
    have hfile := hreads _ _ entries hwalk _ hentry path hsame
    rw [hpath.1] at hfile
    cases hfile

end

/-! ### Reading files -/

/-- What is read from a file. -/
abbrev ReadResult := SourcePath × Except ScanError Document

/-- What is read from some files, one after the other. -/
def readAll (h : Host) (parse : DocumentParser) (paths : List SourcePath) : List ReadResult :=
  paths.map fun path => (path, readDocument h parse path)

/-- The documents that have been read. -/
def documentsOf (results : List ReadResult) : Ledger :=
  results.filterMap fun r => r.2.toOption.map (r.1, ·)

/-- The errors that have come up. -/
def failuresOf (results : List ReadResult) : List (SourcePath × ScanError) :=
  results.filterMap fun r =>
    match r.2 with
    | .ok _ => none
    | .error e => some (r.1, e)

variable {h : Host} {parse : DocumentParser} {path p q : SourcePath} {paths : List SourcePath}
  {document : Document} {e : ScanError} {results : List ReadResult}

/-- A file that is read holds the document. -/
theorem readDocument_eq_ok (hread : readDocument h parse path = .ok document) :
    h.Holds parse path document := by
  unfold readDocument at hread
  split at hread
  · cases hread
  · rename_i text htext
    refine ⟨text, htext, ?_⟩
    cases hparse : parse path text with
    | error e =>
      rw [hparse] at hread
      cases hread
    | ok found =>
      rw [hparse] at hread
      rw [Except.ok.inj hread]

/-- A file that is not read holds none. -/
theorem readDocument_eq_error (hread : readDocument h parse path = .error e) :
    h.Fails parse path e := by
  unfold readDocument at hread
  split at hread
  · rename_i htext
    obtain rfl := Except.error.inj hread
    exact .unreadable htext
  · rename_i text htext
    cases hparse : parse path text with
    | error e =>
      rw [hparse] at hread
      obtain rfl := Except.error.inj hread
      exact .malformed htext hparse
    | ok found =>
      rw [hparse] at hread
      cases hread

theorem mem_documentsOf_iff :
    (p, document) ∈ documentsOf results ↔ (p, .ok document) ∈ results := by
  rw [documentsOf, List.mem_filterMap]
  constructor
  · rintro ⟨⟨q, result⟩, hmem, heq⟩
    cases result with
    | error e => cases heq
    | ok found =>
      cases heq
      exact hmem
  · exact fun hmem => ⟨_, hmem, rfl⟩

theorem mem_failuresOf_iff : (p, e) ∈ failuresOf results ↔ (p, .error e) ∈ results := by
  rw [failuresOf, List.mem_filterMap]
  constructor
  · rintro ⟨⟨q, result⟩, hmem, heq⟩
    cases result with
    | ok found => cases heq
    | error e =>
      cases heq
      exact hmem
  · exact fun hmem => ⟨_, hmem, rfl⟩

/-- The documents are in the order in which their files were read. -/
theorem documentsOf_sublist (results : List ReadResult) :
    ((documentsOf results).map Prod.fst).Sublist (results.map Prod.fst) := by
  induction results with
  | nil => exact .slnil
  | cons r results ih =>
    obtain ⟨path, result⟩ := r
    cases result with
    | ok document => exact ih.cons_cons path
    | error e => exact ih.cons path

/-- The failures are in the order in which their files were read. -/
theorem failuresOf_sublist (results : List ReadResult) :
    ((failuresOf results).map Prod.fst).Sublist (results.map Prod.fst) := by
  induction results with
  | nil => exact .slnil
  | cons r results ih =>
    obtain ⟨path, result⟩ := r
    cases result with
    | ok document => exact ih.cons path
    | error e => exact ih.cons_cons path

theorem map_fst_readAll (h : Host) (parse : DocumentParser) (paths : List SourcePath) :
    (readAll h parse paths).map Prod.fst = paths := by
  rw [readAll, List.map_map]
  exact List.map_id paths

theorem mem_readAll_iff {result : Except ScanError Document} :
    (p, result) ∈ readAll h parse paths ↔ p ∈ paths ∧ readDocument h parse p = result := by
  rw [readAll, List.mem_map]
  constructor
  · rintro ⟨q, hq, heq⟩
    cases heq
    exact ⟨hq, rfl⟩
  · rintro ⟨hp, rfl⟩
    exact ⟨p, hp, rfl⟩

/-- A file that is read holds a document or fails. -/
theorem mem_documentsOf_or_mem_failuresOf (hp : p ∈ paths) :
    p ∈ (documentsOf (readAll h parse paths)).map Prod.fst ∨
      p ∈ (failuresOf (readAll h parse paths)).map Prod.fst := by
  cases hresult : readDocument h parse p with
  | ok document =>
    have hmem := mem_documentsOf_iff.mpr (mem_readAll_iff.mpr ⟨hp, hresult⟩)
    exact Or.inl (List.mem_map_of_mem hmem)
  | error e =>
    have hmem := mem_failuresOf_iff.mpr (mem_readAll_iff.mpr ⟨hp, hresult⟩)
    exact Or.inr (List.mem_map_of_mem hmem)

/-! ### Reports -/

/-- What could not be read in a walk, if that is the error. -/
def ScanError.walkError? : ScanError → Option WalkError
  | .unwalkable e => some e
  | .unreadable .. | .malformed .. | .badPattern _ | .noParsers _ => none

namespace ScanReport

/-- The files that have failed. -/
def failedFiles (r : ScanReport) : List SourcePath :=
  (r.failed.filter fun f => f.2.walkError?.isNone).map Prod.fst

/-- What the walks could not read. -/
def unread (r : ScanReport) : List WalkError := r.failed.filterMap fun f => f.2.walkError?

/-- The report on files, where the walks could not read some entries. -/
def ofResults (walked : List WalkError) (results : List ReadResult) : ScanReport :=
  sorted ⟨(documentsOf results).map Prod.fst, (ofUnread walked).failed ++ failuresOf results⟩

end ScanReport

/-- A file does not fail because of a walk. -/
theorem Host.Fails.walkError?_eq_none (hfails : h.Fails parse path e) : e.walkError? = none := by
  cases hfails with
  | unreadable | malformed => rfl

variable {walked walked' : List WalkError}

/-- What has failed is reported in the order of the paths. -/
theorem pairwise_failed_ofResults (walked : List WalkError) (results : List ReadResult) :
    ((ScanReport.ofResults walked results).failed.map Prod.fst).Pairwise
      fun p q => p.le q = true :=
  List.pairwise_map.mpr (SourcePath.pairwise_sort_le Prod.fst _)

/-- What has failed are the entries that the walks could not read and the files that hold no
document. -/
theorem mem_failed_ofResults_iff :
    (p, e) ∈ (ScanReport.ofResults walked results).failed ↔
      (∃ w ∈ walked, w.path = p ∧ .unwalkable w = e) ∨ (p, e) ∈ failuresOf results := by
  rw [ScanReport.ofResults, ScanReport.sorted, mem_sort, List.mem_append, ScanReport.ofUnread,
    List.mem_map]
  simp only [Prod.mk.injEq]

/-- The entries that the walks could not read are reported as often as they have met them. -/
theorem unread_ofResults_perm (hfiles : ∀ f ∈ failuresOf results, f.2.walkError? = none) :
    (ScanReport.ofResults walked results).unread.Perm walked := by
  have hwalked : (ScanReport.ofUnread walked).failed.filterMap (fun f => f.2.walkError?) =
      walked := by
    rw [ScanReport.ofUnread, List.filterMap_map]
    exact List.filterMap_some
  have hnone : (failuresOf results).filterMap (fun f => f.2.walkError?) = [] :=
    List.filterMap_eq_nil_iff.mpr hfiles
  have hperm := (sort_perm (fun a b => a.1.le b.1)
    ((ScanReport.ofUnread walked).failed ++ failuresOf results)).filterMap fun f => f.2.walkError?
  rwa [List.filterMap_append, hwalked, hnone, List.append_nil] at hperm

/-- The files that have failed are those without documents, in the order in which they were read. -/
theorem failedFiles_ofResults (hfiles : ∀ f ∈ failuresOf results, f.2.walkError? = none)
    (hascending : (results.map Prod.fst).Pairwise SourcePath.Before) :
    (ScanReport.ofResults walked results).failedFiles = (failuresOf results).map Prod.fst := by
  have hkept : ((ScanReport.ofUnread walked).failed ++ failuresOf results).filter
      (fun f => f.2.walkError?.isNone) = failuresOf results := by
    rw [List.filter_append, List.filter_eq_nil_iff.mpr, List.nil_append, List.filter_eq_self.mpr]
    · exact fun f hf => Option.isNone_iff_eq_none.mpr (hfiles f hf)
    · intro f hf
      obtain ⟨w, -, rfl⟩ := List.mem_map.mp hf
      exact Bool.false_ne_true
  have hsorted : (failuresOf results).Pairwise fun a b => a.1.le b.1 = true :=
    (List.pairwise_map.mp (hascending.sublist (failuresOf_sublist results))).imp
      SourcePath.le_of_before
  rw [ScanReport.failedFiles, ScanReport.ofResults, ScanReport.sorted,
    ← SourcePath.sort_le_filter Prod.fst, hkept, sort_eq_self hsorted]

/-- If the walks could read all, nothing but files has failed. -/
theorem failedFiles_ofResults_nil (hfiles : ∀ f ∈ failuresOf results, f.2.walkError? = none) :
    (ScanReport.ofResults [] results).failedFiles =
      (ScanReport.ofResults [] results).failed.map Prod.fst := by
  rw [ScanReport.failedFiles, List.filter_eq_self.mpr]
  rintro ⟨p, e⟩ he
  rcases mem_failed_ofResults_iff.mp he with ⟨w, hw, -⟩ | he
  · cases hw
  · exact Option.isNone_iff_eq_none.mpr (hfiles _ he)

/-- The report depends on what is said of each entry that the walks could not read, and not on
where it stands among the others. -/
theorem ofResults_congr (h : ∀ k, walked'.filter (fun e => e.path.components == k) =
      walked.filter fun e => e.path.components == k) (results : List ReadResult) :
    ScanReport.ofResults walked' results = ScanReport.ofResults walked results := by
  have hfilter : ∀ walked : List WalkError, ∀ k, (ScanReport.ofUnread walked).failed.filter
      (fun f => f.1.components == k) =
        (walked.filter fun e => e.path.components == k).map fun e => (e.path, .unwalkable e) :=
    fun walked k => List.filter_map
  have hsorted : sort (fun a b => a.1.le b.1)
        ((ScanReport.ofUnread walked').failed ++ failuresOf results) =
      sort (fun a b => a.1.le b.1)
        ((ScanReport.ofUnread walked).failed ++ failuresOf results) :=
    SourcePath.sort_le_congr Prod.fst fun k => by
      rw [List.filter_append, List.filter_append, hfilter, hfilter, h]
  exact congrArg (ScanReport.mk ((documentsOf results).map Prod.fst)) hsorted

/-! ### One scan -/

namespace Index

/-- Adds the document that has been read from a file, or reports why there is none. -/
def takeResult (state : Index × ScanReport) (r : ReadResult) : Index × ScanReport :=
  match r.2 with
  | .ok document =>
    (state.1.add r.1 document, { state.2 with indexed := state.2.indexed ++ [r.1] })
  | .error e => (state.1, { state.2 with failed := state.2.failed ++ [(r.1, e)] })

/-- Indexes files whose results arrive with their numbers in some order, where the walks could not
read some entries. -/
def scanArriving (t : Index) (walked : List WalkError) (results : List (ReadResult × Nat)) :
    Index × ScanReport :=
  let (t, report) := Intake.receiveAll takeResult (t, .ofUnread walked) results
  (t.resolve, report.sorted)

variable {t : Index} {root : String} {o : ScanOptions} {walks : List WalkEntries}

/-- Where the host does what it is asked for, a scan takes up what the walks have come to. -/
theorem scan_eq_ok (t : Index) (parse : DocumentParser)
    (hstarts : h.startParsers (max o.concurrency 1) = .ok ())
    (hwalks : h.WalksTo root o walks) :
    t.scan h parse root o = .ok (t.scanFound h parse (Discovery.ofWalks h walks).inOrder) := by
  rw [scan, hstarts, discover, discoverAll_eq hwalks]
  rfl

/-- The files are read one after the other. -/
theorem foldl_scanFile (h : Host) (parse : DocumentParser) (paths : List SourcePath)
    (state : Index × ScanReport) :
    paths.foldl (scanFile h parse) state = (readAll h parse paths).foldl takeResult state := by
  rw [readAll, List.foldl_map]
  refine congrArg (fun f => paths.foldl f state) (funext fun state => funext fun path => ?_)
  unfold scanFile takeResult
  cases readDocument h parse path <;> rfl

/-- The results are sorted into documents, which are added, and errors. -/
theorem foldl_takeResult (results : List ReadResult) (t : Index) (report : ScanReport) :
    results.foldl takeResult (t, report) =
      (t.addAll (documentsOf results), ⟨report.indexed ++ (documentsOf results).map Prod.fst,
        report.failed ++ failuresOf results⟩) := by
  induction results generalizing t report with
  | nil =>
    simp only [documentsOf, failuresOf, List.foldl_nil, List.filterMap_nil, List.map_nil,
      List.append_nil]
    rfl
  | cons r results ih =>
    obtain ⟨path, result⟩ := r
    rw [List.foldl_cons, takeResult]
    cases result with
    | ok document =>
      rw [ih]
      show (_, _) = (_, ScanReport.mk (_ ++ path :: _) _)
      rw [← List.append_cons]
      rfl
    | error e =>
      rw [ih]
      show (_, _) = (_, ScanReport.mk _ (_ ++ (path, e) :: _))
      rw [← List.append_cons]
      rfl

/-- What a scan comes to. -/
theorem scanFound_eq (t : Index) (h : Host) (parse : DocumentParser) (found : Discovery) :
    t.scanFound h parse found =
      ((t.addAll (documentsOf (readAll h parse found.files))).resolve,
        .ofResults found.unread (readAll h parse found.files)) := by
  rw [scanFound, foldl_scanFile, foldl_takeResult]
  rfl

/-- Results that arrive in any order are taken in the order of the paths. -/
theorem scanArriving_eq (t : Index) {found : Discovery} {results : List (ReadResult × Nat)}
    (hresults : results.Perm (readAll h parse found.files).zipIdx) :
    t.scanArriving found.unread results = t.scanFound h parse found := by
  rw [scanArriving, Intake.receiveAll_eq takeResult _ hresults, scanFound, foldl_scanFile]

/-- Where another host shows the same, a scan does the same. -/
theorem scan_eq_of_showsAlike {h' : Host} (t : Index) (parse : DocumentParser)
    (hstarts : h.startParsers (max o.concurrency 1) = .ok ()) (hwalks : h.WalksTo root o walks)
    (halike : h.ShowsAlike h' root o walks) :
    t.scan h' parse root o = t.scan h parse root o := by
  obtain ⟨walks', hwalks', hfinds, hunread⟩ := halike.exists_walks
  have hsame : SameListing (Discovery.ofWalks h walks).files
      (Discovery.ofWalks h' walks').files := {
    mem_iff := fun p => by
      rw [Discovery.mem_files_ofWalks_iff, Discovery.mem_files_ofWalks_iff, hfinds]
    spelling_eq := fun p hp q hq => halike.spelling_eq p q
      (Discovery.mem_files_ofWalks_iff.mp hp) (Discovery.mem_files_ofWalks_iff.mp hq) }
  have hread : readAll h' parse (Discovery.ofWalks h' walks').inOrder.files =
      readAll h parse (Discovery.ofWalks h walks).inOrder.files := by
    show readAll h' parse (inPathOrder _) = readAll h parse (inPathOrder _)
    rw [hsame.inPathOrder_eq]
    refine List.map_congr_left fun path hpath => ?_
    have hfound := Discovery.mem_files_ofWalks_iff.mp (mem_of_mem_inPathOrder hpath)
    rw [readDocument, halike.readText_eq path hfound, readDocument]
  rw [t.scan_eq_ok parse halike.starts hwalks', t.scan_eq_ok parse hstarts hwalks, scanFound_eq,
    scanFound_eq, hread]
  refine congrArg (fun report => Except.ok (_, report)) (ofResults_congr (fun k => ?_) _)
  show (Discovery.ofWalks h' walks').unread.filter _ = (Discovery.ofWalks h walks).unread.filter _
  rw [Discovery.unread_ofWalks, Discovery.unread_ofWalks, hunread]

/-- What a scan whose walks have come to some entries makes of `t`. -/
structure IsScan (t : Index) (h : Host) (parse : DocumentParser) (walks : List WalkEntries)
    (u : Index) (report : ScanReport) : Prop where
  indexed_ascending : report.indexed.Pairwise SourcePath.Before
  failed_ascending : (report.failed.map Prod.fst).Pairwise fun p q => p.le q = true
  /-- Every file that fails is reported once. -/
  failedFiles_ascending : report.failedFiles.Pairwise SourcePath.Before
  /-- If the walks could read all, nothing is reported twice. -/
  failed_strict : unreadIn walks = [] → (report.failed.map Prod.fst).Pairwise SourcePath.Before
  disjoint : ∀ p ∈ report.indexed, ∀ q ∈ report.failed.map Prod.fst, p.same q = false
  /-- No file is reported at which no walk has arrived. -/
  finds_of_mem : ∀ p, p ∈ report.indexed ∨ p ∈ report.failedFiles → h.Finds walks p
  /-- All files at which a walk has arrived are reported. -/
  covers : ∀ p, h.Finds walks p → ∃ q, q.same p = true ∧
    (q ∈ report.indexed ∨ q ∈ report.failedFiles)
  /-- What the walks could not read is reported as often as they have met it. -/
  unread_perm : report.unread.Perm (unreadIn walks)
  /-- What fails is an entry that a walk could not read, or a file in which there is no document. -/
  fails : ∀ p e, (p, e) ∈ report.failed →
    (∃ w ∈ unreadIn walks, w.path = p ∧ .unwalkable w = e) ∨
      p ∈ report.failedFiles ∧ h.Fails parse p e
  /-- The files with documents are added, and then all is resolved. -/
  exists_documents : ∃ D : Ledger, D.map Prod.fst = report.indexed ∧
    (∀ e ∈ D, h.Holds parse e.1 e.2) ∧ u = (t.addAll D).resolve
  /-- Files that are not indexed, because they fail or are not found, keep what they have left. -/
  spares : ∀ p, (∀ q ∈ report.indexed, q.same p = false) → t.Spares u p

variable {L : Ledger} {lay : Layout}

/-- No file is read twice. -/
theorem documents_distinct (h : Host) (parse : DocumentParser) (listed : List SourcePath) :
    (documentsOf (readAll h parse (inPathOrder listed))).Distinct := by
  have hsub := documentsOf_sublist (readAll h parse (inPathOrder listed))
  rw [map_fst_readAll] at hsub
  have hascending := List.pairwise_map.mp ((pairwise_inPathOrder listed).sublist hsub)
  refine List.pairwise_map.mpr (hascending.imp fun hbefore heq => ?_)
  exact Bool.eq_false_iff.mp hbefore.not_same (SourcePath.same_iff.mpr heq)

/-- A scan does what it should with the files that are found. -/
theorem Built.isScan (ht : t.Built L lay) (hanchored : t.Anchored) (hreads : h.ReadsFiles)
    (hwalks : h.WalksTo root o walks) {listed : List SourcePath}
    (hlisted : ∀ p, p ∈ listed ↔ h.Finds walks p)
    (hresults : readAll h parse (inPathOrder listed) = results) :
    t.IsScan h parse walks (t.addAll (documentsOf results)).resolve
      (.ofResults (unreadIn walks) results) := by
  have hpaths : results.map Prod.fst = inPathOrder listed := hresults ▸ map_fst_readAll _ _ _
  have hordered : (results.map Prod.fst).Pairwise SourcePath.Before :=
    hpaths ▸ pairwise_inPathOrder listed
  have hindexed := hpaths ▸ documentsOf_sublist results
  have hfailed := hpaths ▸ failuresOf_sublist results
  have hread : ∀ p result, (p, result) ∈ results ↔
      p ∈ inPathOrder listed ∧ readDocument h parse p = result :=
    fun _ _ => hresults ▸ mem_readAll_iff
  have hfails : ∀ f ∈ failuresOf results, h.Fails parse f.1 f.2 := fun f hf =>
    readDocument_eq_error ((hread _ _).mp (mem_failuresOf_iff.mp hf)).2
  have hnone : ∀ f ∈ failuresOf results, f.2.walkError? = none := fun f hf =>
    (hfails f hf).walkError?_eq_none
  have hfiles : (ScanReport.ofResults (unreadIn walks) results).failedFiles =
      (failuresOf results).map Prod.fst := failedFiles_ofResults hnone hordered
  exact {
    indexed_ascending := (pairwise_inPathOrder listed).sublist hindexed
    failed_ascending := pairwise_failed_ofResults _ _
    failedFiles_ascending := hfiles ▸ (pairwise_inPathOrder listed).sublist hfailed
    failed_strict := by
      intro hnil
      rw [hnil] at hfiles ⊢
      rw [← failedFiles_ofResults_nil hnone, hfiles]
      exact (pairwise_inPathOrder listed).sublist hfailed
    disjoint := by
      intro p hp q hq
      obtain ⟨⟨_, document⟩, hdocument, rfl⟩ := List.mem_map.mp hp
      obtain ⟨⟨_, e⟩, he, rfl⟩ := List.mem_map.mp hq
      rcases mem_failed_ofResults_iff.mp he with ⟨w, hw, rfl, -⟩ | he
      · exact not_same_of_mem_unreadIn hreads hwalks
          ((hlisted _).mp (mem_of_mem_inPathOrder (hindexed.subset hp))) hw
      refine Bool.eq_false_iff.mpr fun hsame => ?_
      -- a file is taken under one path, and so it is read once
      obtain rfl := eq_of_same_inPathOrder (hindexed.subset hp)
        (hfailed.subset (List.mem_map_of_mem he)) hsame
      have hok := ((hread _ _).mp (mem_documentsOf_iff.mp hdocument)).2
      rw [((hread _ _).mp (mem_failuresOf_iff.mp he)).2] at hok
      cases hok
    finds_of_mem := by
      rw [hfiles]
      rintro p (hp | hp)
      · exact (hlisted p).mp (mem_of_mem_inPathOrder (hindexed.subset hp))
      · exact (hlisted p).mp (mem_of_mem_inPathOrder (hfailed.subset hp))
    covers := by
      rw [hfiles]
      intro p hp
      obtain ⟨q, hq, hqp⟩ := exists_same_mem_inPathOrder ((hlisted p).mpr hp)
      exact ⟨q, hqp, hresults ▸ mem_documentsOf_or_mem_failuresOf hq⟩
    unread_perm := unread_ofResults_perm hnone
    fails := by
      rw [hfiles]
      intro p e he
      exact (mem_failed_ofResults_iff.mp he).imp_right fun he =>
        ⟨List.mem_map_of_mem he, hfails _ he⟩
    exists_documents := ⟨_, rfl, fun e he =>
      readDocument_eq_ok ((hread _ _).mp (mem_documentsOf_iff.mp he)).2, rfl⟩
    spares := by
      intro p hp
      obtain ⟨lay', hadded, -⟩ := ht.exists_addAll (documentsOf results)
      exact (ht.spares_addAll hanchored fun e he => hp _ (List.mem_map_of_mem he)).trans
        (hadded.spares_resolve p) }

/-- A second scan has the same report, and the index the same listing. -/
theorem Built.rescan (ht : t.Built L lay) (h : Host) (parse : DocumentParser)
    (listed : Discovery) :
    let u := (t.scanFound h parse listed.inOrder).1
    (u.scanFound h parse listed.inOrder).2 = (t.scanFound h parse listed.inOrder).2 ∧
      (u.scanFound h parse listed.inOrder).1.listing = u.listing := by
  intro u
  refine ⟨by rw [scanFound_eq, scanFound_eq], ?_⟩
  have hlines := ht.lines_addAll_addAll (documents_distinct h parse listed.files)
  have hu : u = (t.addAll (documentsOf (readAll h parse (inPathOrder listed.files)))).resolve :=
    congrArg Prod.fst (scanFound_eq t h parse listed.inOrder)
  rw [scanFound_eq, listing, listing, hu]
  exact congrArg (fun lines => String.join (lines.map (· ++ "\n"))) hlines

/-- After any run, whatever a host shows, a scan adds the files that hold documents in the order of
their paths and resolves, and reports the others and what the walks could not read. Scanning once
more gives the same report and the same listing of the index. The order in which the walks come to
their entries, repetitions of files among these, and the order in which results arrive do not
matter. -/
theorem scan_run (options : IndexOptions) (ops : List Operation) (parse : DocumentParser)
    (hstarts : h.startParsers (max o.concurrency 1) = .ok ())
    (hwalks : h.WalksTo root o walks) (hreads : h.ReadsFiles) :
    let t := run options ops
    ∃ u report, t.scan h parse root o = .ok (u, report) ∧ t.IsScan h parse walks u report ∧
      (∃ w, u.scan h parse root o = .ok (w, report) ∧ w.listing = u.listing) ∧
      (∀ h', h.ShowsAlike h' root o walks →
        ∀ t : Index, t.scan h' parse root o = t.scan h parse root o) ∧
      ∀ found, discover h root o = .ok found →
        ∀ results, results.Perm (readAll h parse found.files).zipIdx →
          t.scanArriving found.unread results = (u, report) := by
  intro t
  obtain ⟨lay, ht, -⟩ := exists_built_run options ops
  let found := (Discovery.ofWalks h walks).inOrder
  have hscan : ∀ t : Index, t.scan h parse root o = .ok (t.scanFound h parse found) :=
    fun t => t.scan_eq_ok parse hstarts hwalks
  obtain ⟨hreport, hlisting⟩ := ht.rescan h parse (Discovery.ofWalks h walks)
  have hagain : (t.scanFound h parse found).1.scan h parse root o =
      .ok (((t.scanFound h parse found).1.scanFound h parse found).1,
        (t.scanFound h parse found).2) :=
    (hscan _).trans (congrArg _ (Prod.ext rfl hreport))
  refine ⟨(t.scanFound h parse found).1, (t.scanFound h parse found).2, hscan t, ?_,
    ⟨_, hagain, hlisting⟩,
    fun h' halike t => t.scan_eq_of_showsAlike parse hstarts hwalks halike,
    fun found' hfound results hresults => ?_⟩
  · rw [scanFound_eq]
    show IsScan _ _ _ _ _ (.ofResults (Discovery.ofWalks h walks).unread _)
    rw [Discovery.unread_ofWalks]
    exact ht.isScan (anchored_run options ops) hreads hwalks
      (fun _ => Discovery.mem_files_ofWalks_iff) rfl
  · rw [discover, discoverAll_eq hwalks] at hfound
    obtain rfl := Except.ok.inj hfound
    exact t.scanArriving_eq hresults

/-- In the directory `conf` there are a file with a document, one without, and a directory that
cannot be read. A walk for `p*` comes to the same as one for `pcl`, in another order. -/
def confHost : Host where
  startParsers _ := .ok ()
  quote s := s
  walk pattern _ :=
    let web : Except WalkError SourcePath := .ok (.ofText "conf/web.pcl")
    let broken : Except WalkError SourcePath := .ok (.ofText "conf/broken.pcl")
    let closed : Except WalkError SourcePath :=
      .error ⟨.ofText "conf/closed", "permission denied"⟩
    if pattern = "conf/**/*.pcl" then .ok [closed, broken, web]
    else if pattern = "conf/**/*.p*" then .ok [web, closed, broken]
    else .ok []
  isFile path := path.same (.ofText "conf/web.pcl") || path.same (.ofText "conf/broken.pcl")
  readText path :=
    if path.same (.ofText "conf/web.pcl") then .ok "web"
    else if path.same (.ofText "conf/broken.pcl") then .ok ""
    else .error ⟨"no such file"⟩

/-- There is a document in every file that is not empty. -/
def confParser : DocumentParser := fun _ text =>
  if text = "" then .error ⟨"nothing is defined", .start⟩ else .ok appDocument

/-- The directory is no regular file. -/
theorem readsFiles_confHost : confHost.ReadsFiles := by
  intro pattern hidden entries hentries e he path hsame
  have hclosed : e.path = .ofText "conf/closed" := by
    simp only [confHost] at hentries
    split at hentries
    · obtain rfl := Except.ok.inj hentries
      simp at he
      rw [he]
    · split at hentries
      · obtain rfl := Except.ok.inj hentries
        simp at he
        rw [he]
      · obtain rfl := Except.ok.inj hentries
        cases he
  rw [hclosed, SourcePath.same_iff] at hsame
  simp only [confHost, SourcePath.same, hsame]
  decide

/-- The one file is indexed, the other one has failed and keeps what it has left before, and the
directory is reported by both walks. -/
theorem scan_run_of_closed :
    let o : ScanOptions := { extensions := ["pcl", "p*"] }
    let t := run {} [.add (.ofText "conf/broken.pcl") appDocument, .resolve]
    ∃ walks u report, confHost.startParsers (max o.concurrency 1) = .ok () ∧
      confHost.WalksTo "conf" o walks ∧ confHost.ReadsFiles ∧
      t.scan confHost confParser "conf" o = .ok (u, report) ∧
      t.IsScan confHost confParser walks u report ∧
      (∃ w, u.scan confHost confParser "conf" o = .ok (w, report) ∧ w.listing = u.listing) ∧
      report.indexed.map SourcePath.text = ["conf/web.pcl"] ∧
      report.failed.map (fun f => f.1.text) =
        ["conf/broken.pcl", "conf/closed", "conf/closed"] := by
  intro o t
  obtain ⟨walks, hwalks⟩ : ∃ walks, confHost.WalksTo "conf" o walks :=
    ⟨_, .cons rfl (.cons rfl .nil)⟩
  obtain ⟨u, report, hscan, hreport, hagain, -⟩ :=
    scan_run {} [.add (.ofText "conf/broken.pcl") appDocument, .resolve] confParser rfl hwalks
      readsFiles_confHost
  obtain ⟨u', report', hscan', hindexed, hfailed⟩ : ∃ u report,
      t.scan confHost confParser "conf" o = .ok (u, report) ∧
        report.indexed.map SourcePath.text = ["conf/web.pcl"] ∧
        report.failed.map (fun f => f.1.text) =
          ["conf/broken.pcl", "conf/closed", "conf/closed"] :=
    ⟨_, _, rfl, by decide +kernel, by decide +kernel⟩
  obtain ⟨rfl, rfl⟩ := Prod.mk.inj (Except.ok.inj (hscan'.symm.trans hscan))
  exact ⟨walks, u', report', rfl, hwalks, readsFiles_confHost, hscan, hreport, hagain, hindexed,
    hfailed⟩

/-- What has failed is not always in strict order, nor is it always a file: a directory that cannot
be read is none, and it is reported by each walk that meets it. -/
theorem exists_directory_failed_twice :
    let o : ScanOptions := { extensions := ["pcl", "p*"] }
    ∃ found u report, discover confHost "conf" o = .ok found ∧
      (run {} []).scan confHost confParser "conf" o = .ok (u, report) ∧
      found.files.map SourcePath.text = ["conf/broken.pcl", "conf/web.pcl"] ∧
      report.indexed.map SourcePath.text = ["conf/web.pcl"] ∧
      report.failed.map (fun f => f.1.text) = ["conf/broken.pcl", "conf/closed", "conf/closed"] ∧
      ¬ (report.failed.map Prod.fst).Pairwise SourcePath.Before := by
  exact ⟨_, _, _, rfl, rfl, by decide +kernel, by decide +kernel, by decide +kernel,
    by decide +kernel⟩

end Index

end SemanticIndex
