import PackageCatalog.Proofs.Index.Enumeration
import PackageCatalog.Proofs.Index.InstalledRecords
import PackageCatalog.Proofs.Repository.Invalidation
import PackageCatalog.Proofs.Repository.ProvidesText
import PackageCatalog.Proofs.Repository.Renewing

/-!
# What a provides cache answers

After a regeneration the provided virtuals are those that a scan of the installed packages finds at
that moment, entry for entry, and no line of the cache is reported:

    r.regenerate.on w = (.ok (), w') → the answer with the cache = the answer without it
                                                                            (provided_regenerated)

A scan takes the records that the index remembers, and reads the others (`scanProvides_on`).  The
cache is written last, and what was written is read back (`writeProvides_ok`).
-/

namespace PackageCatalog

open FileTree (placeOf)
open FileStep (Performed)
open Index (Recorded Whole provideOf)
open Scan (Yields)

namespace InstalledRepository

variable {r : InstalledRepository} {t u : FileTree}

/-! ## Scans -/

/-- What a package version provides, if anything, by what is remembered and by the files. -/
def provisionFrom (r : InstalledRepository) (t : FileTree) (memo : IndexMemo) (n : QualifiedName)
    (v : Version) : Option Provision :=
  let virtuals := provideOf (r.index.recordFrom t memo n v)
  if virtuals.isEmpty then none else some ⟨n, v, virtuals⟩

/-- What the known package versions provide, by package and version. -/
def provisionsFrom (r : InstalledRepository) (t : FileTree) (memo : IndexMemo) : List Provision :=
  memo.catalogue.flatMap fun n => (memo.versionsOf n).filterMap (r.provisionFrom t memo n)

theorem provisionsFrom_congr {memo memo' : IndexMemo}
    (hcatalogue : memo'.catalogue = memo.catalogue)
    (hversions : ∀ n, memo'.versionsOf n = memo.versionsOf n)
    (hprovides : ∀ n ∈ memo.catalogue, ∀ v ∈ memo.versionsOf n,
      provideOf (r.index.recordFrom u memo' n v) = provideOf (r.index.recordFrom t memo n v)) :
    r.provisionsFrom u memo' = r.provisionsFrom t memo := by
  unfold provisionsFrom
  rw [hcatalogue]
  refine List.flatMap_congr fun n hn => ?_
  rw [hversions]
  refine List.filterMap_congr fun v hv => ?_
  rw [provisionFrom, provisionFrom, hprovides n hn v hv]

/-- What an installed repository knows of its index. -/
def KnowsIndex (P : IndexMemo → Prop) (memo : InstalledMemo) : Prop := P memo.index

theorem onIndex_yields {P : IndexMemo → Prop} {α : Type} {s : Scan IndexMemo α}
    {result : Except Error α} (h : Yields P s t result) :
    Yields (KnowsIndex P) (InstalledMemo.onIndex s) t result :=
  h.zoom (fun _ h => h) fun _ _ _ h => h

section
variable {start : IndexMemo} (hinstalled : r.index.layout = .installed)
include hinstalled

theorem provisionOf_yields {n : QualifiedName} {v : Version} (hloaded : start.isLoaded n.category)
    (hv : v ∈ start.versionsOf n) : Yields (KnowsIndex (Recorded r.index t start))
      (r.provisionOf n v) t (.ok (r.provisionFrom t start n v)) := by
  have hrecord := onIndex_yields
    (Index.metadata_yields_recordFrom (t := t) hinstalled hloaded hv)
  refine hrecord.attempt.bind_ok ?_
  unfold provisionFrom
  cases r.index.recordFrom t start n v with
  | ok m => exact Scan.yields_pure _
  | error e => exact Yields.bind_ok (fun _ hj => ⟨rfl, hj⟩) (Scan.yields_pure none)

theorem scanPackages_yields (hwhole : Whole start) {names : List QualifiedName}
    (hnames : ∀ n ∈ names, n ∈ start.catalogue) :
    Yields (KnowsIndex (Recorded r.index t start))
      (names.mapM fun n => do
        let versions ← InstalledMemo.onIndex (r.index.versions n)
        versions.mapM (r.provisionOf n)) t
      (.ok (names.map fun n => (start.versionsOf n).map (r.provisionFrom t start n))) := by
  have hpackage : ∀ n ∈ names, Yields (KnowsIndex (Recorded r.index t start)) (do
      let versions ← InstalledMemo.onIndex (r.index.versions n)
      versions.mapM (r.provisionOf n)) t
      (.ok ((start.versionsOf n).map (r.provisionFrom t start n))) := by
    intro n hn
    have hloaded := hwhole.loaded _ (Index.mem_catalogue_iff.1 (hnames n hn)).1
    refine (onIndex_yields (Index.versions_yields_known hinstalled hloaded)).bind_ok ?_
    have hversions := Yields.mapM (start.versionsOf n) fun v hv =>
      provisionOf_yields (t := t) hinstalled hloaded hv
    rwa [Scan.mapM_ok] at hversions
  have hall := Yields.mapM names hpackage
  rwa [Scan.mapM_ok] at hall

/-- A scan lists the packages, and then takes from the files what is not remembered. -/
theorem scanProvides_on {j : Journal InstalledMemo} {ns : List QualifiedName}
    {j₁ : Journal IndexMemo}
    (hlist : r.index.allPackages.on t ⟨j.memo.index, j.warnings⟩ = (.ok ns, j₁)) :
    ∃ j', r.scanProvides.on t j = (.ok (r.provisionsFrom t j₁.memo), j') ∧
      Recorded r.index t j₁.memo j'.memo.index := by
  obtain ⟨hwhole, rfl, -⟩ := Index.allPackages_ok hlist
  have honIndex : (InstalledMemo.onIndex r.index.allPackages).on t j =
      (.ok j₁.memo.catalogue, ⟨{ j.memo with index := j₁.memo }, j₁.warnings⟩) := by
    rw [InstalledMemo.onIndex, Scan.on_zoom, hlist]
  obtain ⟨j', hj', hrecorded⟩ := (scanPackages_yields (t := t) hinstalled hwhole
    (fun _ h => h)).on_eq (j := ⟨{ j.memo with index := j₁.memo }, j₁.warnings⟩)
    (Recorded.refl r.index t j₁.memo)
  refine ⟨j', ?_, hrecorded⟩
  unfold scanProvides
  rw [Scan.on_bind_of_ok honIndex, Scan.on_bind_of_ok hj', Scan.on_pure]
  simp only [provisionsFrom, List.flatMap, List.filterMap_flatten, List.map_map,
    Function.comp_def, List.filterMap_map, id]

end

/-! ## Answers -/

theorem layout_of_ofKeys {context : RepositoryContext} {keys : RepositoryKeys}
    (h : ofKeys context keys = .ok r) :
    r.index.layout = .installed ∧ r.index.generator.format = .vdb := by
  obtain ⟨location, -, h⟩ := Scan.bind_eq_ok_iff.1 h
  obtain ⟨name, -, h⟩ := Scan.bind_eq_ok_iff.1 h
  cases h
  exact ⟨rfl, rfl⟩

/-- The keys decide where the provides cache is and whose it is. -/
theorem ofKeys_inj {context context' : RepositoryContext} {keys : RepositoryKeys}
    {r' : InstalledRepository} (h : ofKeys context keys = .ok r)
    (h' : ofKeys context' keys = .ok r') :
    r'.name = r.name ∧ r'.providesCache = r.providesCache := by
  obtain ⟨location, hlocation, h⟩ := Scan.bind_eq_ok_iff.1 h
  obtain ⟨name, hname, h⟩ := Scan.bind_eq_ok_iff.1 h
  obtain ⟨location', hlocation', h'⟩ := Scan.bind_eq_ok_iff.1 h'
  obtain ⟨name', hname', h'⟩ := Scan.bind_eq_ok_iff.1 h'
  obtain rfl := Except.ok.inj (hlocation.symm.trans hlocation')
  obtain rfl := Except.ok.inj (hname.symm.trans hname')
  cases h
  cases h'
  exact ⟨rfl, rfl⟩

theorem providesContent_of_name {r' : InstalledRepository} (h : r'.name = r.name)
    (provisions : List Provision) :
    r'.providesContent provisions = r.providesContent provisions := by
  rw [providesContent, providesContent, h]

theorem entriesOf_of_name {r' : InstalledRepository} (h : r'.name = r.name)
    (provisions : List Provision) : r'.entriesOf provisions = r.entriesOf provisions := by
  rw [entriesOf, entriesOf, h]

theorem isDisabled_disabledLocation : isDisabled disabledLocation = true := Path.same_refl _

/-- The repository as it is without a provides cache. -/
def withoutProvides (r : InstalledRepository) : InstalledRepository :=
  { r with providesCache := disabledLocation }

/-- The provided virtuals are told, and nothing is reported. -/
def Tells (r : InstalledRepository) (w : Workspace InstalledMemo) (entries : List VirtualEntry) :
    Prop :=
  ∃ memo, r.provided.on w.files ⟨w.memo, w.warnings⟩ = (.ok entries, ⟨memo, w.warnings⟩)

/-- The provided virtuals are found without a provides cache. -/
def Finds (r : InstalledRepository) (w : Workspace InstalledMemo) (entries : List VirtualEntry) :
    Prop :=
  (r.withoutProvides.provided.on w.files ⟨w.memo, w.warnings⟩).1 = .ok entries

theorem tells_of_readText {w : Workspace InstalledMemo} {provisions : List Provision}
    (henabled : isDisabled r.providesCache = false) (hmemo : w.memo.provides = none)
    (hread : w.files.readText r.providesCache = .ok (r.providesContent provisions)) :
    r.Tells w (r.entriesOf provisions) := by
  have hload : r.loadProvides.on w.files ⟨w.memo, w.warnings⟩ =
      (.ok (some (r.entriesOf provisions)), ⟨w.memo, w.warnings⟩) := by
    unfold loadProvides
    rw [henabled, if_neg Bool.false_ne_true, Scan.on_bind_of_ok (Scan.on_read _ _), hread]
    exact readProvides_providesContent provisions _
  refine ⟨{ w.memo with provides := some (r.entriesOf provisions) }, ?_⟩
  unfold provided
  rw [Scan.on_bind_of_ok (Scan.on_memo _ _), hmemo]
  simp only
  rw [Scan.on_bind_of_ok hload]
  rfl

/-- Without a provides cache the answer is what a scan finds. -/
theorem provided_withoutProvides {w : Workspace InstalledMemo} (hmemo : w.memo.provides = none) :
    (r.withoutProvides.provided.on w.files ⟨w.memo, w.warnings⟩).1 =
      (r.scanProvides.on w.files ⟨w.memo, w.warnings⟩).1.map r.entriesOf := by
  have hload : r.withoutProvides.loadProvides.on w.files ⟨w.memo, w.warnings⟩ =
      (.ok none, ⟨w.memo, w.warnings⟩) := by
    unfold loadProvides withoutProvides
    rw [isDisabled_disabledLocation, if_pos rfl]
    rfl
  unfold provided
  rw [Scan.on_bind_of_ok (Scan.on_memo _ _), hmemo]
  simp only
  rw [Scan.on_bind_of_ok hload]
  simp only
  rw [Scan.on_bind, show r.withoutProvides.scanProvides = r.scanProvides from rfl]
  cases (r.scanProvides.on w.files ⟨w.memo, w.warnings⟩).1 with
  | error e => rfl
  | ok provisions => rfl

theorem finds_of_list (hinstalled : r.index.layout = .installed) {w : Workspace InstalledMemo}
    {ns : List QualifiedName} {j : Journal IndexMemo} (hmemo : w.memo.provides = none)
    (hlist : r.index.allPackages.on w.files ⟨w.memo.index, w.warnings⟩ = (.ok ns, j)) :
    r.Finds w (r.entriesOf (r.provisionsFrom w.files j.memo)) := by
  obtain ⟨j', hscan, -⟩ := scanProvides_on (j := ⟨w.memo, w.warnings⟩) hinstalled hlist
  unfold Finds
  rw [provided_withoutProvides hmemo, hscan]
  rfl

theorem finds_of_whole (hinstalled : r.index.layout = .installed) {w : Workspace InstalledMemo}
    (hmemo : w.memo.provides = none) (hwhole : Whole w.memo.index) :
    r.Finds w (r.entriesOf (r.provisionsFrom w.files w.memo.index)) := by
  have hlist := Index.allPackages_of_whole (x := r.index) (t := w.files)
    (j := ⟨w.memo.index, w.warnings⟩) hwhole
  have hfinds := finds_of_list hinstalled hmemo hlist
  exact hfinds

/-! ## Writing -/

/-- A file with the directories above it. -/
def writtenPaths (path : String) : List String :=
  path :: ((Path.parent? path).map Path.ancestors).getD []

/-- The steps by which a file is written where no directory need be. -/
def writingSteps (path content : String) : List FileStep :=
  ((Path.parent? path).map FileStep.makeDirs).toList ++ [.write path content]

/-- What writing a file has changed. -/
structure WrittenAt (path content : String) (t u : FileTree) : Prop where
  content : u.readText path = .ok content
  directories : ∀ q, t.get? q = some .directory → u.get? q = some .directory
  other : ∀ q, (∀ p ∈ writtenPaths path, q ≠ placeOf p) → u.get? q = t.get? q

theorem writtenAt_of_write {path content : String}
    (h : (FileM.writeText path content).on t = (.ok (), u)) :
    u.readText path = .ok content ∧ (∀ q, t.get? q = some .directory → u.get? q = some .directory) ∧
      ∀ q, q ≠ placeOf path → u.get? q = t.get? q := by
  rcases FileM.writeEntry_on path (.text content) t with ⟨hok, hlocate, hdir⟩ | ⟨e, herror⟩
  · obtain rfl : u = _ := congrArg Prod.snd (h.symm.trans hok)
    have hplace : ¬ FileTree.IsStart (placeOf path) := fun hs =>
      hdir (FileTree.get?_of_isStart hs)
    have hkeeps : ∀ q, t.get? q = some .directory →
        (t.put (placeOf path) (.text content)).get? q = some .directory := by
      intro q hq
      rw [FileTree.get?_put hplace, if_neg]
      · exact hq
      · rintro rfl
        exact hdir hq
    refine ⟨FileTree.readText_eq_ok_iff.2 (FileTree.find_eq_ok_iff.2
      ⟨_, FileTree.locate_of_keeps hkeeps hlocate, ?_⟩), hkeeps, fun q hq => ?_⟩
    · rw [FileTree.get?_put hplace, if_pos rfl]
    · rw [FileTree.get?_put hplace, if_neg hq]
  · rw [FileM.writeText, herror] at h
    cases h

theorem writtenAt_of_performed {path content : String}
    (h : Performed (writingSteps path content) t u) : WrittenAt path content t u := by
  unfold writingSteps at h
  obtain ⟨v, hdirs, _, hwrite, rfl⟩ := FileStep.performed_append_iff.1 h
  obtain ⟨hcontent, hkeeps, hother⟩ := writtenAt_of_write hwrite
  cases hparent : Path.parent? path with
  | none =>
    rw [hparent] at hdirs
    cases hdirs
    exact ⟨hcontent, hkeeps, fun q hq => hother q (hq path List.mem_cons_self)⟩
  | some parent =>
    rw [hparent] at hdirs
    obtain ⟨_, hmake, rfl⟩ := hdirs
    have hmade : ((FileM.makeDirs parent).on t).2 = v := congrArg Prod.snd hmake
    refine ⟨hcontent, fun q hq => hkeeps q ?_, fun q hq => ?_⟩
    · rw [← hmade]
      exact (FileM.makeDirs_grows parent t).keeps q _ hq
    · rw [hother q (hq path List.mem_cons_self), ← hmade]
      refine FileM.get?_makeDirs parent t fun above habove => hq above ?_
      rw [writtenPaths, hparent]
      exact List.mem_cons_of_mem path habove

theorem writeProvides_ok {w w' : Workspace InstalledMemo}
    (henabled : isDisabled r.providesCache = false) (h : r.writeProvides.on w = (.ok (), w')) :
    ∃ provisions j, r.scanProvides.on w.files ⟨w.memo, w.warnings⟩ = (.ok provisions, j) ∧
      w'.memo = j.memo ∧
      WrittenAt r.providesCache (r.providesContent provisions) w.files w'.files := by
  unfold writeProvides at h
  rw [henabled, if_neg Bool.false_ne_true] at h
  obtain ⟨provisions, w₁, hscan, h⟩ := Change.on_bind_eq_ok h
  obtain ⟨hfiles, hscan⟩ := Change.scan_of_ok hscan
  refine ⟨provisions, _, hscan, ?_⟩
  rw [← hfiles]
  suffices hsteps : w'.memo = w₁.memo ∧
      Performed (writingSteps r.providesCache (r.providesContent provisions)) w₁.files w'.files from
    ⟨hsteps.1, writtenAt_of_performed hsteps.2⟩
  unfold writingSteps
  cases hparent : Path.parent? r.providesCache with
  | none =>
    rw [hparent] at h
    obtain ⟨hwrite, hmemo⟩ := Change.perform_eq_ok h
    exact ⟨hmemo, _, hwrite, rfl⟩
  | some parent =>
    rw [hparent] at h
    obtain ⟨_, w₂, hmake, h⟩ := Change.on_bind_eq_ok h
    obtain ⟨hmake, hmemo₂⟩ := Change.perform_eq_ok hmake
    obtain ⟨hwrite, hmemo⟩ := Change.perform_eq_ok h
    exact ⟨hmemo.trans hmemo₂, _, hmake, _, hwrite, rfl⟩

/-- If all packages are known, what is written is made from what is known and from the files. -/
theorem writeProvides_whole {w w' : Workspace InstalledMemo}
    (hinstalled : r.index.layout = .installed) (henabled : isDisabled r.providesCache = false)
    (hwhole : Whole w.memo.index) (h : r.writeProvides.on w = (.ok (), w')) :
    WrittenAt r.providesCache (r.providesContent (r.provisionsFrom w.files w.memo.index)) w.files
        w'.files ∧
      Recorded r.index w.files w.memo.index w'.memo.index := by
  obtain ⟨provisions, j, hscan, hmemo, hwritten⟩ := writeProvides_ok henabled h
  obtain ⟨j', hscan', hrecorded⟩ := scanProvides_on (j := ⟨w.memo, w.warnings⟩) hinstalled
    (Index.allPackages_of_whole hwhole)
  obtain ⟨hresult, rfl⟩ := Prod.mk.inj (hscan.symm.trans hscan')
  obtain rfl := Except.ok.inj hresult
  rw [← hmemo] at hrecorded
  exact ⟨hwritten, hrecorded⟩

/-! ## Regeneration -/

/-- Whatever provided virtuals are remembered is forgotten. -/
def forgetting (w : Workspace InstalledMemo) : Workspace InstalledMemo :=
  { w with memo := { w.memo with provides := none } }

/-- The names cache is written first. -/
theorem regenerate_eq (r : InstalledRepository) : r.regenerate = (do
    memoParts.renewNames r.namesCache r.index
    r.writeProvides
    Change.scan (Scan.modifyMemo fun memo => { memo with provides := none })) := by
  unfold regenerate MemoParts.renewNames
  rw [bind_assoc]
  rfl

theorem regenerate_ok {w w' : Workspace InstalledMemo} (h : r.regenerate.on w = (.ok (), w')) :
    ∃ w₁ w₂, (memoParts.renewNames r.namesCache r.index).on w = (.ok (), w₁) ∧
      r.writeProvides.on w₁ = (.ok (), w₂) ∧ w' = forgetting w₂ := by
  rw [regenerate_eq] at h
  obtain ⟨_, w₁, hnames, h⟩ := Change.on_bind_eq_ok h
  obtain ⟨_, w₂, hprovides, h⟩ := Change.on_bind_eq_ok h
  cases h
  exact ⟨w₁, w₂, hnames, hprovides, rfl⟩

theorem regenerate_withoutProvides {w w₁ : Workspace InstalledMemo}
    (h : (memoParts.renewNames r.namesCache r.index).on w = (.ok (), w₁)) :
    r.withoutProvides.regenerate.on w = (.ok (), forgetting w₁) := by
  have hdisabled : isDisabled r.withoutProvides.providesCache = true := isDisabled_disabledLocation
  have hwrite : r.withoutProvides.writeProvides.on w₁ = (.ok (), w₁) := by
    unfold writeProvides
    rw [hdisabled, if_pos rfl]
    rfl
  have hnames : (memoParts.renewNames r.withoutProvides.namesCache r.withoutProvides.index).on w =
      (.ok (), w₁) := h
  rw [regenerate_eq, Change.on_bind_of_ok hnames, Change.on_bind_of_ok hwrite]
  rfl

/-! ## The round trip -/

/-- A package version whose directory the provides cache leaves alone: neither the cache nor a
directory made for it lies in there. -/
structure Apart (r : InstalledRepository) (t u : FileTree) (n : QualifiedName) (v : Version) :
    Prop where
  outside : ∀ p ∈ writtenPaths r.providesCache,
    ¬ placeOf (installedPath r.index.location n v) <+: placeOf p
  present : u.isDirectory (installedPath r.index.location n v) = true →
    t.isDirectory (installedPath r.index.location n v) = true

/-- The provided virtuals around a regeneration from `w` to `w'`; without a provides cache it leads
to `s`. -/
structure ProvidesKept (r : InstalledRepository) (keys : RepositoryKeys)
    (w s w' : Workspace InstalledMemo) (entries : List VirtualEntry) : Prop where
  own : r.Tells w' entries
  other : ∀ context r', ofKeys context keys = .ok r' → r'.Tells ⟨w'.files, r'.freshMemo, []⟩ entries
  scanned : r.Finds s entries
  /-- Before, if the names cache leaves alone what is provided. -/
  before : (∀ n, ∀ v ∈ w'.memo.index.versionsOf n,
    r.index.provideIn w.files n v = r.index.provideIn s.files n v) → r.Finds (forgetting w) entries
  /-- After, if the provides cache lies outside the package directories. -/
  after : (∀ n, ∀ v ∈ w'.memo.index.versionsOf n, r.Apart s.files w'.files n v) → r.Finds w' entries

theorem Apart.sameDirectory {n : QualifiedName} {v : Version} {content : String}
    (h : r.Apart t u n v) (hwritten : WrittenAt r.providesCache content t u) :
    r.index.SameDirectory t u n v where
  present := Bool.eq_iff_iff.2 ⟨h.present, FileTree.isDirectory_of_keeps hwritten.directories⟩
  inside place hplace := hwritten.other place fun p hp => by
    rintro rfl
    exact h.outside p hp hplace

theorem provideOf_recordFrom_congr {memo : IndexMemo} {n : QualifiedName} {v : Version}
    (h : r.index.provideIn u n v = r.index.provideIn t n v) :
    provideOf (r.index.recordFrom u memo n v) = provideOf (r.index.recordFrom t memo n v) := by
  unfold Index.recordFrom
  cases memo.metadata.get? (n, v) with
  | some m => rfl
  | none => exact h

/-- After a regeneration the provided virtuals are those that a scan finds at that moment. -/
theorem provided_regenerated {context : RepositoryContext} {keys : RepositoryKeys}
    {w w' : Workspace InstalledMemo} (hmade : ofKeys context keys = .ok r)
    (henabled : isDisabled r.providesCache = false) (hrun : r.regenerate.on w = (.ok (), w')) :
    ∃ s entries, r.withoutProvides.regenerate.on w = (.ok (), s) ∧
      r.ProvidesKept keys w s w' entries := by
  obtain ⟨hinstalled, hformat⟩ := layout_of_ofKeys hmade
  obtain ⟨w₁, w₂, hnames, hprovides, rfl⟩ := regenerate_ok hrun
  obtain ⟨ns, j, names, hlist, -, hmemo⟩ := MemoParts.renewNames_ok hnames
  have hindex : w₁.memo.index = j.memo := congrArg InstalledMemo.index hmemo
  obtain ⟨hwhole, -, -⟩ := Index.allPackages_ok hlist
  rw [← hindex] at hwhole
  -- the list is made from what is known by now, and from the files as they are by now
  obtain ⟨hwritten, hrecorded⟩ := writeProvides_whole hinstalled henabled hwhole hprovides
  have hentries : ∀ {t : FileTree}, (∀ n, ∀ v ∈ w₂.memo.index.versionsOf n,
      r.index.provideIn t n v = r.index.provideIn w₁.files n v) → ∀ memo,
      Recorded r.index w₁.files w₁.memo.index memo →
      r.provisionsFrom t memo = r.provisionsFrom w₁.files w₁.memo.index := by
    intro t hsame memo hmemo
    refine provisionsFrom_congr hmemo.catalogue hmemo.versionsOf fun n _ v hv => ?_
    rw [← hrecorded.versionsOf] at hv
    rw [provideOf_recordFrom_congr (hsame n v hv), hmemo.record]
  refine ⟨forgetting w₁, r.entriesOf (r.provisionsFrom w₁.files w₁.memo.index),
    regenerate_withoutProvides hnames, ?_, ?_, ?_, fun hbefore => ?_, fun hafter => ?_⟩
  · exact tells_of_readText (w := forgetting w₂) henabled rfl hwritten.content
  · intro context' r' hmade'
    obtain ⟨hname, hcache⟩ := ofKeys_inj hmade hmade'
    have hcontent := hwritten.content
    rw [← hcache, ← providesContent_of_name hname] at hcontent
    rw [← entriesOf_of_name hname]
    rw [← hcache] at henabled
    exact tells_of_readText (w := ⟨w₂.files, r'.freshMemo, []⟩) henabled rfl hcontent
  · exact finds_of_whole (w := forgetting w₁) hinstalled rfl hwhole
  · have hfinds : r.Finds (forgetting w) (r.entriesOf (r.provisionsFrom w.files j.memo)) :=
      finds_of_list hinstalled rfl hlist
    rw [← hindex, hentries hbefore _ (.refl _ _ _)] at hfinds
    exact hfinds
  · have hsame : ∀ n, ∀ v ∈ w₂.memo.index.versionsOf n,
        r.index.provideIn w₂.files n v = r.index.provideIn w₁.files n v := fun n v hv =>
      ((hafter n v hv).sameDirectory hwritten).provideIn_eq hformat
    rw [← hentries hsame _ hrecorded]
    exact finds_of_whole (w := forgetting w₂) hinstalled rfl (hrecorded.whole hwhole)

/-! ### A database with one package -/

def databaseKeys : RepositoryKeys :=
  ⟨[("location", "/i"), ("names_cache", "/n"), ("provides_cache", "/p/provides")]⟩

def database : InstalledRepository where
  name := ⟨"installed", by decide⟩
  location := "/i"
  root := "/"
  providesCache := "/p/provides"
  index := ⟨"installed", "/i", .installed, [], ⟨.vdb, none⟩⟩
  namesCache := ⟨"/n/installed", "installed"⟩

/-- The database before its caches are written. -/
def unwritten : Workspace InstalledMemo where
  files := ⟨⟨[(["i"], .directory), (["i", "cat"], .directory), (["i", "cat", "a-1"], .directory),
    (["i", "cat", "a-1", "DESCRIPTION"], .text "a\n"), (["i", "cat", "a-1", "SLOT"], .text "0\n"),
    (["i", "cat", "a-1", "PROVIDE"], .text "virtual/x virtual/y\n")]⟩⟩
  memo := database.freshMemo
  warnings := []

/-- The database with its caches. -/
def written : Workspace InstalledMemo := (database.regenerate.on unwritten).2

theorem provided_regenerated_database :
    ofKeys plainContext databaseKeys = .ok database ∧
    isDisabled database.providesCache = false ∧
    database.regenerate.on unwritten = (.ok (), written) ∧
    ∃ s entries, database.withoutProvides.regenerate.on unwritten = (.ok (), s) ∧
      database.ProvidesKept databaseKeys unwritten s written entries := by
  have hmade : ofKeys plainContext databaseKeys = .ok database := rfl
  have henabled : isDisabled database.providesCache = false := by decide +kernel
  have hrun : database.regenerate.on unwritten = (.ok (), written) := by
    rw [written]
    exact Prod.fst_eq_iff.1 (by decide +kernel)
  exact ⟨hmade, henabled, hrun, provided_regenerated hmade henabled hrun⟩

example : (database.provided.run written.files written.memo).1.toOption.map
    (List.map fun e => (e.virtualName.text, e.version.text, e.provider.text)) =
      some [("virtual/x", "1", "cat/a"), ("virtual/y", "1", "cat/a")] := by
  decide +kernel

end InstalledRepository

end PackageCatalog
