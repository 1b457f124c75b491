import PackageCatalog.Proofs.Repository.ProvidesRecall

/-!
# Caches of repositories in use

A repository in use regenerates its caches from what it recalls, whatever it was asked before and
however the files changed.  The caches then reflect the files of the moment if and only if the
repository is up to date (`regenerated_reflects_iff`), as it always is right after an invalidation.

    regenerated on t, up to date       the caches tell what a new repository finds on t
    regenerated on t, not up to date   the caches tell what was there before
-/

namespace PackageCatalog

open FileTree (placeOf)
open NamesCache (AllWritten Overlooked Written ofBase)
open Scan (Ensures Keeps)

/-! ## Repositories in use -/

/-- What every answer and every change keeps is so as long as a repository is in use. -/
theorem Service.after_keeps {σ : Type} {Q : Type → Type 1} {s : Service σ Q} {I : σ → Prop}
    (hfresh : I s.freshMemo) (hreply : ∀ {α : Type} (q : Q α) t, Keeps I (s.reply q) t)
    (hinvalidate : ∀ t, Keeps I s.invalidate t) (hregenerate : Change.Keeps I s.regenerate)
    (t : FileTree) (history : List (Event Q)) : I (s.after (s.start t) history).memo := by
  suffices hkeeps : ∀ x, I x.memo → I (s.after x history).memo from hkeeps (s.start t) hfresh
  induction history with
  | nil => exact fun x hx => hx
  | cons event history ih =>
    intro x hx
    refine ih (s.next x event) ?_
    cases event with
    | asked q => exact hreply q x.files ⟨x.memo, []⟩ hx
    | regenerated => exact hregenerate ⟨x.files, x.memo, []⟩ hx
    | invalidated => exact hinvalidate x.files ⟨x.memo, []⟩ hx
    | edited u => exact hx

/-! ## What a database in use remembers -/

namespace InstalledRepository

variable {r : InstalledRepository} {P : IndexMemo → Prop} {α : Type} {t : FileTree}

/-- The entries are of this database. -/
def Tagged (r : InstalledRepository) (entries : List VirtualEntry) : Prop :=
  ∀ e ∈ entries, e.repository = r.name.text

/-- What is so of the index of a memo; the provided virtuals that are remembered are of this
database. -/
structure Remembers (r : InstalledRepository) (P : IndexMemo → Prop) (memo : InstalledMemo) :
    Prop where
  index : P memo.index
  provides : ∀ entries, memo.provides = some entries → r.Tagged entries

theorem onIndex_keeps {s : Scan IndexMemo α} (h : Keeps P s t) :
    Keeps (r.Remembers P) (InstalledMemo.onIndex s) t :=
  h.zoom (fun _ hmemo => hmemo.index) fun _ _ hmemo hnew => ⟨hnew, hmemo.provides⟩

theorem onNames_keeps (s : Scan NamesMemo α) :
    Keeps (r.Remembers P) (InstalledMemo.onNames s) t :=
  Keeps.zoom (J := fun _ => True) (fun _ _ => trivial) (fun _ _ => trivial) fun _ _ hmemo _ =>
    ⟨hmemo.index, hmemo.provides⟩

/-- A scan keeps what each query of the index keeps. -/
theorem scanProvides_keeps {I : InstalledMemo → Prop}
    (h : ∀ {α : Type} (q : Index.Query α), Keeps I (InstalledMemo.onIndex (r.index.reply q)) t) :
    Keeps I r.scanProvides t := by
  refine (h .allPackages).bind fun ns => Keeps.bind ?_ fun _ => Scan.keeps_pure _
  refine .mapM ns fun n => (h (.ask (.versions n))).bind fun vs => .mapM vs fun v => ?_
  refine (h (.ask (.metadata n v))).attempt.bind fun outcome => ?_
  cases outcome with
  | ok m => exact Scan.keeps_pure _
  | error e => exact (Scan.keeps_warn _).bind fun _ => Scan.keeps_pure none

/-! ### Provided virtuals -/

theorem tagged_entries (p : Provision) : r.Tagged (p.entries r.name.text) := by
  intro e he
  obtain ⟨n, -, rfl⟩ := List.mem_map.1 he
  rfl

/-- What a provides cache lists, if it can be used, is of this database. -/
theorem readProvides_ensures {I : InstalledMemo → Prop} (content : String) :
    Ensures I (r.readProvides content) t fun loaded => ∀ entries ∈ loaded, r.Tagged entries := by
  have hwarn {β : Type} (w : Warning) {b : β} {Q : β → Prop} (hb : Q b) :
      Ensures I (do Scan.warn w; return b) t Q :=
    (Scan.keeps_warn w).ensures.bind fun _ _ => Scan.ensures_pure hb
  unfold readProvides
  dsimp only
  split
  · exact hwarn _ nofun
  · have hnil : r.Tagged [] := List.forall_mem_nil _
    refine (Ensures.foldlM _ (fun entries line hentries => ?_) hnil).bind
      fun entries hentries => Scan.ensures_pure fun _ h => Option.mem_some.1 h ▸ hentries
    cases parseProvision line with
    | ok p => exact Scan.ensures_pure fun e he =>
        (List.mem_append.1 he).elim (hentries e) (tagged_entries p e)
    | error e => exact hwarn _ hentries

theorem loadProvides_ensures {I : InstalledMemo → Prop} :
    Ensures I r.loadProvides t fun loaded => ∀ entries ∈ loaded, r.Tagged entries := by
  intro j hj
  unfold loadProvides
  split
  · exact Scan.ensures_pure nofun j hj
  · rw [Scan.on_bind_of_ok (Scan.on_read t j)]
    cases t.readText r.providesCache with
    | ok content => exact readProvides_ensures content j hj
    | error problem =>
      cases problem with
      | missing => exact Scan.ensures_pure nofun j hj
      | _ => exact ⟨hj, fun loaded h entries hentries => by cases h; cases hentries⟩

section
variable (hindex : ∀ {α : Type} (q : Index.Query α) t, Keeps P (r.index.reply q) t)
include hindex

/-- What a database provides is its own, and so is what it remembers of it. -/
theorem provided_ensures : Ensures (r.Remembers P) r.provided t r.Tagged := by
  have hremember (entries : List VirtualEntry) (hentries : r.Tagged entries) :
      Ensures (r.Remembers P) (do
        Scan.modifyMemo fun memo => { memo with provides := some entries }
        return entries : Scan InstalledMemo (List VirtualEntry)) t r.Tagged := fun j hj =>
    ⟨⟨hj.index, fun _ h => Option.some_inj.1 h ▸ hentries⟩, fun _ h => Except.ok.inj h ▸ hentries⟩
  refine Scan.ensures_memo.bind fun memo hmemo => ?_
  split
  · next entries h => exact Scan.ensures_pure (hmemo.provides entries h)
  · refine loadProvides_ensures.bind fun loaded hloaded => ?_
    cases loaded with
    | some entries => exact hremember entries (hloaded entries rfl)
    | none =>
      have hscan : Keeps (r.Remembers P) r.scanProvides t :=
        scanProvides_keeps fun q => onIndex_keeps (hindex q t)
      refine hscan.ensures.bind fun provisions _ => hremember _ fun e he => ?_
      obtain ⟨p, -, hp⟩ := List.mem_flatMap.1 he
      exact tagged_entries p e hp

/-! ### Questions and changes -/

theorem answer_keeps (q : Question α) : Keeps (r.Remembers P) (r.answer q) t := by
  have hanswer : Keeps (r.Remembers P) (InstalledMemo.onIndex (r.index.answer q)) t :=
    onIndex_keeps (hindex (.ask q) t)
  cases q with
  | containing p =>
    refine (onNames_keeps _).bind fun categories => ?_
    cases categories with
    | some categories => exact Scan.keeps_pure categories
    | none => exact hanswer
  | _ => exact hanswer

theorem reply_keeps (q : InstalledQuestion α) : Keeps (r.Remembers P) (r.reply q) t := by
  cases q with
  | package q => exact answer_keeps hindex q
  | provided => exact (provided_ensures hindex).keeps
  | providedMetadata e =>
    refine onIndex_keeps ((hindex (.ask (.metadata e.provider e.version)) t).bind fun m => ?_)
    cases Metadata.forVirtual e.virtualName e.provider e.version m with
    | ok record => exact Scan.keeps_pure record
    | error e => exact Scan.keeps_throw e

theorem writeProvides_keeps : Change.Keeps (r.Remembers P) r.writeProvides := by
  unfold writeProvides
  split
  · exact Change.keeps_pure _
  · have hscan : ∀ t, Keeps (r.Remembers P) r.scanProvides t := fun t =>
      scanProvides_keeps fun q => onIndex_keeps (hindex q t)
    refine (Change.keeps_scan hscan).bind fun provisions => ?_
    split
    · exact (Change.keeps_perform _).bind fun _ => Change.keeps_perform _
    · exact Change.keeps_perform _

theorem regenerate_keeps : Change.Keeps (r.Remembers P) r.regenerate := by
  have hnames : Change.Keeps (r.Remembers P) (memoParts.renewNames r.namesCache r.index) :=
    (Change.keeps_scan fun t => onIndex_keeps (hindex .allPackages t)).bind fun _ =>
      Change.keeps_zoom _ fun _ _ h => ⟨h.index, h.provides⟩
  rw [regenerate_eq]
  exact hnames.bind fun _ => (writeProvides_keeps hindex).bind fun _ =>
    Change.keeps_scan fun _ => Scan.keeps_modifyMemo fun _ h => ⟨h.index, nofun⟩

/-- What every query of the index keeps is so as long as the database is in use. -/
theorem remembers_after (hempty : P {}) (t : FileTree) (history : List (Event InstalledQuestion)) :
    r.Remembers P (r.service.after (r.service.start t) history).memo :=
  Service.after_keeps (s := r.service) (I := r.Remembers P) ⟨hempty, nofun⟩
    (fun q _ => reply_keeps hindex q) (fun _ _ _ => ⟨hempty, nofun⟩) (regenerate_keeps hindex) t
    history

end

theorem orderly_after (r : InstalledRepository) (t : FileTree)
    (history : List (Event InstalledQuestion)) :
    Index.Orderly r.index (r.service.after (r.service.start t) history).memo.index :=
  (remembers_after (fun q _ j hj => (Index.reply_learned j.memo q j .refl).orderly hj)
    Index.orderly_empty t history).index

end InstalledRepository

/-! ## Caches that can be written -/

namespace NamesCache

/-- A name that can stand in a directory and on a line. -/
structure IsLabel (name : String) : Prop where
  isName : Path.IsName name
  isLine : Text.IsLine name

/-- The cache is in use, no file is reported that could not be written, and no old fragment is
overlooked. -/
structure Writable (c : NamesCache) (t : FileTree) (warnings : List Warning) : Prop where
  enabled : isDisabled c.location = false
  written : AllWritten warnings
  seen : ∀ p : PackageName, p.text ≠ versionFileName → ¬ Overlooked c t p

end NamesCache

theorem RepositoryName.isLabel (name : RepositoryName) : NamesCache.IsLabel name.text :=
  ⟨name.isName, name.isLine⟩

section
variable {c : NamesCache} {base name : String} (hcache : c = ofBase base name)
  (hlabel : NamesCache.IsLabel name)
include hcache hlabel

theorem NamesCache.isPlace_of_isLabel (henabled : isDisabled c.location = false) :
    NamesCache.IsPlace c.location := by
  subst hcache
  exact NamesCache.isPlace_ofBase_of_isName hlabel.isName henabled

/-- The names cache is filled from a full list, and reflects the files if and only if the index was
up to date. -/
theorem MemoParts.renewed {σ : Type} {parts : MemoParts σ} {x : Index} {w s : Workspace σ}
    (h : (parts.renewNames c x).on w = (.ok (), s)) (hwritable : c.Writable w.files s.warnings) :
    (∃ ns j, x.allPackages.on w.files ⟨parts.index w.memo, w.warnings⟩ = (.ok ns, j) ∧
      s.memo = parts.setNames (parts.setIndex w.memo j.memo) c.freshMemo) ∧
    c.check s.files = .ok () ∧
    (c.Reflects s.files x w.files ↔ x.UpToDate w.files (parts.index w.memo)) := by
  subst hcache
  obtain ⟨ns, j, hlist, hwritten, hmemo⟩ :=
    renewNames_written hlabel.isName hwritable.enabled h hwritable.written
  have hplace := NamesCache.isPlace_ofBase_of_isName hlabel.isName hwritable.enabled
  exact ⟨⟨ns, j, hlist, hmemo⟩, hwritten.check hplace.ne_empty hlabel.isLine,
    NamesCache.reflects_iff hlist fun p hp =>
      hwritten.answerIn hwritable.enabled hplace hlabel.isLine hp (hwritable.seen p hp)⟩

end

namespace EbuildRepository

variable {context : RepositoryContext} {keys : RepositoryKeys} {t : FileTree} {r : EbuildRepository}

/-- The index and the names cache bear the name of the repository. -/
structure Named (r : EbuildRepository) : Prop where
  index : r.index.repository = r.name
  names : ∃ base, r.namesCache = ofBase base r.name

/-- The name stands in the keys, or else it is fetched; the rest goes by it. -/
theorem ofKeys_spec {σ : Type} {j : Journal σ} (h : ((ofKeys context keys).on t j).1 = .ok r) :
    ∃ location, keys.require "location" = .ok location ∧ r.Named ∧
      ((∃ name : RepositoryName, keys.value? "name" = some name.text ∧ r.name = name.text) ∨
        keys.value? "name" = none ∧ ((fetchName location).on t j).1 = .ok r.name) := by
  unfold ofKeys at h
  obtain ⟨location, hlocation, h⟩ := Scan.on_lift_bind_eq_ok h
  refine ⟨location, hlocation, ?_⟩
  -- what is done once the name is known
  extract_lets own rest at h
  have hrest : ∀ name j, ((rest name).on t j).1 = .ok r → r.Named ∧ r.name = name := by
    intro name j h
    obtain ⟨master, -, h⟩ := Scan.on_lift_bind_eq_ok h
    rw [Scan.on_bind_of_ok (Scan.on_read t j)] at h
    obtain ⟨format, -, h⟩ := Scan.on_lift_bind_eq_ok h
    cases h
    exact ⟨⟨rfl, _, rfl⟩, rfl⟩
  cases hname : keys.value? "name" with
  | some name =>
    rw [hname] at h
    obtain ⟨parsed, hparsed, h⟩ := Scan.on_lift_bind_eq_ok h
    obtain ⟨hnamed, hr⟩ := hrest parsed.text j h
    obtain rfl := RepositoryName.parse_eq_ok_iff.1 hparsed
    exact ⟨hnamed, .inl ⟨parsed, rfl, hr⟩⟩
  | none =>
    rw [hname] at h
    obtain ⟨name, j', hfetch, h⟩ := Scan.on_bind_eq_ok (Prod.ext h rfl)
    obtain ⟨hnamed, hr⟩ := hrest name j' (congrArg Prod.fst h)
    refine ⟨hnamed, .inr ⟨rfl, ?_⟩⟩
    rw [hfetch, hr]

theorem named_of_ofKeys {σ : Type} {j : Journal σ}
    (h : ((ofKeys context keys).on t j).1 = .ok r) : r.Named := by
  obtain ⟨location, -, hnamed, -⟩ := ofKeys_spec h
  exact hnamed

/-- The names cache of a source repository after a regeneration. -/
theorem regenerate_reflects_iff {base : String} (hcache : r.namesCache = ofBase base r.name)
    (hlabel : NamesCache.IsLabel r.name) {memo : EbuildMemo} {w : Workspace EbuildMemo}
    (hrun : r.regenerate.on ⟨t, memo, []⟩ = (.ok (), w))
    (hwritable : r.namesCache.Writable t w.warnings) :
    w.memo.names = r.namesCache.freshMemo ∧
      (r.namesCache.Reflects w.files r.index t ↔ r.index.UpToDate t memo.index) := by
  have hrenewed : (memoParts.renewNames r.namesCache r.index).on ⟨t, memo, []⟩ = (.ok (), w) := hrun
  obtain ⟨⟨ns, j, -, hmemo⟩, -, hiff⟩ := MemoParts.renewed hcache hlabel hrenewed hwritable
  rw [hmemo]
  exact ⟨rfl, hiff⟩

end EbuildRepository

namespace InstalledRepository

variable {context : RepositoryContext} {keys : RepositoryKeys} {t : FileTree}
  {r : InstalledRepository}

/-- The index and the names cache bear the name of the database. -/
structure Named (r : InstalledRepository) : Prop where
  index : r.index.repository = r.name.text
  names : ∃ base, r.namesCache = ofBase base r.name.text

theorem named_of_ofKeys (h : ofKeys context keys = .ok r) : r.Named := by
  obtain ⟨location, -, h⟩ := Scan.bind_eq_ok_iff.1 h
  obtain ⟨name, -, h⟩ := Scan.bind_eq_ok_iff.1 h
  cases h
  exact ⟨rfl, _, rfl⟩

theorem names_of_writeProvides (henabled : isDisabled r.providesCache = false)
    {w w' : Workspace InstalledMemo} (h : r.writeProvides.on w = (.ok (), w')) :
    w'.memo.names = w.memo.names := by
  obtain ⟨provisions, j, hscan, hmemo, -⟩ := writeProvides_ok henabled h
  have hkeeps := scanProvides_keeps (r := r) (t := w.files)
    (I := fun memo => memo.names = w.memo.names) (fun q _ hj => hj) ⟨w.memo, w.warnings⟩ rfl
  rw [hmemo]
  rwa [hscan] at hkeeps

/-- Both caches can be written, and neither stands in the other's way: `s` is where the names cache
is written and the provides cache not yet. -/
structure Writable (r : InstalledRepository) (t : FileTree) (s : Workspace InstalledMemo) :
    Prop where
  names : r.namesCache.Writable t s.warnings
  enabled : isDisabled r.providesCache = false
  apart : ∀ p ∈ writtenPaths r.providesCache, ¬ placeOf r.namesCache.location <+: placeOf p
  /-- The names cache leaves alone what the installed packages provide. -/
  kept : ∀ n ∈ s.memo.index.catalogue, ∀ v ∈ s.memo.index.versionsOf n,
    r.index.provideIn s.files n v = r.index.provideIn t n v

/-- Both caches of a database after a regeneration. -/
theorem regenerate_reflects_iff (hmade : ofKeys context keys = .ok r) {memo : InstalledMemo}
    (horderly : Index.Orderly r.index memo.index) {w s : Workspace InstalledMemo}
    (hrun : r.regenerate.on ⟨t, memo, []⟩ = (.ok (), w))
    (hnames : r.withoutProvides.regenerate.on ⟨t, memo, []⟩ = (.ok (), s))
    (hwritable : r.Writable t s) :
    w.memo.names = r.namesCache.freshMemo ∧
    (r.namesCache.Reflects w.files r.index t ↔ r.index.UpToDate t memo.index) ∧
    ((∃ entries, r.Finds ⟨t, r.freshMemo, []⟩ entries ∧ r.Tells w entries) ↔
      r.UpToDate t memo.index) := by
  obtain ⟨hinstalled, -⟩ := layout_of_ofKeys hmade
  obtain ⟨base, hcache⟩ := (named_of_ofKeys hmade).names
  obtain ⟨w₁, w₂, hrenewed, hprovides, rfl⟩ := regenerate_ok hrun
  obtain rfl : s = forgetting w₁ :=
    congrArg Prod.snd (hnames.symm.trans (regenerate_withoutProvides hrenewed))
  have hlabel := r.name.isLabel
  have hplace := NamesCache.isPlace_of_isLabel hcache hlabel hwritable.names.enabled
  obtain ⟨⟨ns, j, hlist, hmemo⟩, hcheck, hreflects⟩ :=
    MemoParts.renewed hcache hlabel hrenewed hwritable.names
  have hindex : w₁.memo.index = j.memo := congrArg InstalledMemo.index hmemo
  obtain ⟨hwhole, -, -⟩ := Index.allPackages_ok hlist
  rw [← hindex] at hwhole
  obtain ⟨hwritten, -⟩ := writeProvides_whole hinstalled hwritable.enabled hwhole hprovides
  refine ⟨?_, ?_, ?_⟩
  · rw [show (forgetting w₂).memo.names = w₂.memo.names from rfl,
      names_of_writeProvides hwritable.enabled hprovides, hmemo]
    rfl
  · refine (NamesCache.reflects_congr fun p => ?_).trans hreflects
    have hdirectory := FileTree.isDirectory_of_keeps hwritten.directories
      (NamesCache.isDirectory_of_check hcheck)
    refine NamesCache.answerIn_congr hplace hcheck hdirectory (fun name _ => ?_) p
    refine hwritten.other _ fun path hpath heq => hwritable.apart path hpath ?_
    rw [← heq]
    exact List.prefix_append _ _
  · have htells : r.Tells (forgetting w₂) (r.entriesOf (r.provisionsFrom w₁.files w₁.memo.index)) :=
      tells_of_readText hwritable.enabled rfl hwritten.content
    have hsame : r.provisionsFrom w₁.files w₁.memo.index = r.provisionsFrom t w₁.memo.index :=
      provisionsFrom_congr rfl (fun _ => rfl) fun n hn v hv =>
        provideOf_recordFrom_congr (hwritable.kept n hn v hv)
    rw [hsame, hindex] at htells
    exact tells_found_iff hinstalled hlist horderly htells

end InstalledRepository

/-! ## Regenerating -/

/-- However they were used and the files changed, a source repository and a database of installed
packages regenerate caches that reflect the files of the moment if and only if they are up to date.
Once invalidated they are. -/
theorem regenerated_reflects_iff {context : RepositoryContext} {keys keys' : RepositoryKeys}
    {t t' : FileTree} {r : EbuildRepository} {i : InstalledRepository}
    (hmade : ((EbuildRepository.ofKeys context keys : Scan Unit EbuildRepository).run t ()).1 =
      .ok r)
    (hlabel : NamesCache.IsLabel r.name)
    (hinstalled : InstalledRepository.ofKeys context keys' = .ok i)
    (history : List (Event EbuildQuestion)) (history' : List (Event InstalledQuestion)) :
    let x := r.service.after (r.service.start t) history
    let x' := i.service.after (i.service.start t') history'
    (∀ w, r.regenerate.on ⟨x.files, x.memo, []⟩ = (.ok (), w) →
      r.namesCache.Writable x.files w.warnings →
        w.memo.names = r.namesCache.freshMemo ∧
        (r.namesCache.Reflects w.files r.index x.files ↔ r.index.UpToDate x.files x.memo.index)) ∧
    (∀ w s, i.regenerate.on ⟨x'.files, x'.memo, []⟩ = (.ok (), w) →
      i.withoutProvides.regenerate.on ⟨x'.files, x'.memo, []⟩ = (.ok (), s) →
      i.Writable x'.files s →
        w.memo.names = i.namesCache.freshMemo ∧
        (i.namesCache.Reflects w.files i.index x'.files ↔
          i.index.UpToDate x'.files x'.memo.index) ∧
        ((∃ entries, i.Finds ⟨x'.files, i.freshMemo, []⟩ entries ∧ i.Tells w entries) ↔
          i.UpToDate x'.files x'.memo.index)) ∧
    r.index.UpToDate x.files (r.service.next x .invalidated).memo.index ∧
    i.index.UpToDate x'.files (i.service.next x' .invalidated).memo.index := by
  obtain ⟨base, hcache⟩ := (EbuildRepository.named_of_ofKeys (j := ⟨(), []⟩) hmade).names
  refine ⟨fun w hrun hwritable => ?_, fun w s hrun hnames hwritable => ?_,
    Index.upToDate_empty _ _, Index.upToDate_empty _ _⟩
  · exact EbuildRepository.regenerate_reflects_iff hcache hlabel hrun hwritable
  · exact InstalledRepository.regenerate_reflects_iff hinstalled
      (InstalledRepository.orderly_after i t' history') hrun hnames hwritable

/-! ### Packages that are replaced -/

open InstalledRepository (database databaseKeys)

def sourceKeys : RepositoryKeys := ⟨[("location", "/r"), ("name", "r"), ("names_cache", "/n")]⟩

def sourceRepository : EbuildRepository := { treeRepository with namesCache := ⟨"/n/r", "r"⟩ }

/-- A tree with one package, and an empty names cache. -/
def sourceTree (package : String) : FileTree :=
  ⟨⟨[(["n"], .directory), (["n", "r"], .directory), (["r"], .directory), (["r", "cat"], .directory),
    (["r", "cat", package], .directory),
    (["r", "cat", package, package ++ "-1.ebuild"], .text "")]⟩⟩

/-- A database with one package that provides a virtual, and an empty names cache. -/
def databaseTree (package virtualName : String) : FileTree :=
  ⟨⟨[(["n"], .directory), (["n", "installed"], .directory), (["i"], .directory),
    (["i", "cat"], .directory), (["i", "cat", package ++ "-1"], .directory),
    (["i", "cat", package ++ "-1", "DESCRIPTION"], .text "some package\n"),
    (["i", "cat", package ++ "-1", "SLOT"], .text "0\n"),
    (["i", "cat", package ++ "-1", "PROVIDE"], .text (virtualName ++ "\n"))]⟩⟩

/-- The packages are listed, and then another one takes the place of the first. -/
def replacedPackage : List (Event EbuildQuestion) :=
  [.asked (.package (.packages Index.treeCategory)), .edited (sourceTree "b")]

def replacedProvider : List (Event InstalledQuestion) :=
  [.asked .provided, .edited (databaseTree "b" "virtual/y")]

def staleSource : Situation EbuildMemo :=
  sourceRepository.service.after (sourceRepository.service.start (sourceTree "a")) replacedPackage

def staleDatabase : Situation InstalledMemo :=
  database.service.after (database.service.start (databaseTree "a" "virtual/x")) replacedProvider

/-- The names cache of the source repository is written anew. -/
def rewrittenSource : Workspace EbuildMemo :=
  (sourceRepository.regenerate.on ⟨staleSource.files, staleSource.memo, []⟩).2

/-- The names cache of the database is written anew, and its provides cache not yet. -/
def rewrittenNames : Workspace InstalledMemo :=
  (database.withoutProvides.regenerate.on ⟨staleDatabase.files, staleDatabase.memo, []⟩).2

def rewrittenDatabase : Workspace InstalledMemo :=
  (database.regenerate.on ⟨staleDatabase.files, staleDatabase.memo, []⟩).2

theorem ofKeys_sourceKeys : ((EbuildRepository.ofKeys plainContext sourceKeys :
    Scan Unit EbuildRepository).run (sourceTree "a") ()).1 = .ok sourceRepository := by
  rfl

theorem isLabel_sourceRepository : NamesCache.IsLabel sourceRepository.name :=
  (⟨"r", by decide⟩ : RepositoryName).isLabel

theorem regenerate_staleSource :
    sourceRepository.regenerate.on ⟨staleSource.files, staleSource.memo, []⟩ =
      (.ok (), rewrittenSource) := by
  rw [rewrittenSource]
  exact Prod.fst_eq_iff.1 (by decide +kernel)

theorem writable_rewrittenSource :
    sourceRepository.namesCache.Writable staleSource.files rewrittenSource.warnings where
  enabled := by decide +kernel
  written := by
    rw [show rewrittenSource.warnings = [] by decide +kernel]
    exact fun _ _ => List.not_mem_nil
  seen _ _ h := absurd h.missing (by decide +kernel)

theorem regenerate_staleDatabase :
    database.regenerate.on ⟨staleDatabase.files, staleDatabase.memo, []⟩ =
      (.ok (), rewrittenDatabase) := by
  rw [rewrittenDatabase]
  exact Prod.fst_eq_iff.1 (by decide +kernel)

/-- The names cache is written without a report, and leaves alone what is provided. -/
theorem rewrittenNames_undisturbed :
    (database.withoutProvides.regenerate.on ⟨staleDatabase.files, staleDatabase.memo, []⟩).1 =
        .ok () ∧
      rewrittenNames.warnings = [] ∧
      ∀ n ∈ rewrittenNames.memo.index.catalogue, ∀ v ∈ rewrittenNames.memo.index.versionsOf n,
        database.index.provideIn rewrittenNames.files n v =
          database.index.provideIn staleDatabase.files n v := by
  decide +kernel

theorem regenerate_rewrittenNames :
    database.withoutProvides.regenerate.on ⟨staleDatabase.files, staleDatabase.memo, []⟩ =
      (.ok (), rewrittenNames) := by
  rw [rewrittenNames]
  exact Prod.fst_eq_iff.1 rewrittenNames_undisturbed.1

theorem writable_rewrittenNames : database.Writable staleDatabase.files rewrittenNames where
  names := {
    enabled := by decide +kernel
    written := by
      rw [rewrittenNames_undisturbed.2.1]
      exact fun _ _ => List.not_mem_nil
    seen := fun _ _ h => absurd h.missing (by decide +kernel) }
  enabled := by decide +kernel
  apart := by decide +kernel
  kept := rewrittenNames_undisturbed.2.2

theorem regenerated_reflects_iff_replaced :
    ((EbuildRepository.ofKeys plainContext sourceKeys :
        Scan Unit EbuildRepository).run (sourceTree "a") ()).1 = .ok sourceRepository ∧
    NamesCache.IsLabel sourceRepository.name ∧
    InstalledRepository.ofKeys plainContext databaseKeys = .ok database ∧
    (sourceRepository.namesCache.Reflects rewrittenSource.files sourceRepository.index
        staleSource.files ↔
      sourceRepository.index.UpToDate staleSource.files staleSource.memo.index) ∧
    (database.namesCache.Reflects rewrittenDatabase.files database.index staleDatabase.files ↔
      database.index.UpToDate staleDatabase.files staleDatabase.memo.index) ∧
    ((∃ entries, database.Finds ⟨staleDatabase.files, database.freshMemo, []⟩ entries ∧
        database.Tells rewrittenDatabase entries) ↔
      database.UpToDate staleDatabase.files staleDatabase.memo.index) := by
  have hinstalled : InstalledRepository.ofKeys plainContext databaseKeys = .ok database := rfl
  obtain ⟨hsource, hdatabase, -⟩ := regenerated_reflects_iff ofKeys_sourceKeys
    isLabel_sourceRepository hinstalled replacedPackage replacedProvider
  obtain ⟨-, hnames⟩ := hsource _ regenerate_staleSource writable_rewrittenSource
  obtain ⟨-, hcaches⟩ := hdatabase _ _ regenerate_staleDatabase regenerate_rewrittenNames
    writable_rewrittenNames
  exact ⟨ofKeys_sourceKeys, isLabel_sourceRepository, hinstalled, hnames, hcaches⟩

/-- The names cache does not know of the new package, and the provides cache lists the provider that
is gone. -/
theorem not_reflects_replaced :
    (sourceRepository.regenerate.on ⟨staleSource.files, staleSource.memo, []⟩ =
        (.ok (), rewrittenSource) ∧
      sourceRepository.namesCache.Writable staleSource.files rewrittenSource.warnings ∧
      ¬ sourceRepository.namesCache.Reflects rewrittenSource.files sourceRepository.index
        staleSource.files) ∧
    database.regenerate.on ⟨staleDatabase.files, staleDatabase.memo, []⟩ =
        (.ok (), rewrittenDatabase) ∧
      database.Writable staleDatabase.files rewrittenNames ∧
      ¬ ∃ entries, database.Finds ⟨staleDatabase.files, database.freshMemo, []⟩ entries ∧
        database.Tells rewrittenDatabase entries := by
  refine ⟨⟨regenerate_staleSource, writable_rewrittenSource, fun hreflects => ?_⟩,
    regenerate_staleDatabase, writable_rewrittenNames, ?_⟩
  · obtain ⟨cs, hcs, hlists⟩ := hreflects ⟨"b", by decide⟩ (by decide) _ .fresh
    have hnone : ((sourceRepository.namesCache.lookup ⟨"b", by decide⟩).run rewrittenSource.files
        sourceRepository.namesCache.freshMemo).1 = .ok (some []) := by decide +kernel
    obtain rfl := Option.some.inj (Except.ok.inj (hcs.symm.trans hnone))
    have hlisted : sourceRepository.index.Lists staleSource.files
        ⟨Index.treeCategory, ⟨"b", by decide⟩⟩ :=
      ⟨[⟨Index.treeCategory, ⟨"b", by decide⟩⟩], by decide +kernel, List.mem_cons_self⟩
    exact absurd ((hlists _).2 hlisted) List.not_mem_nil
  · rintro ⟨entries, hfinds, memo, htells⟩
    have hfound := congrArg (fun a => a.toOption.map (List.map fun e => e.virtualName.text)) hfinds
    have htold := congrArg (fun a => a.1.toOption.map (List.map fun e => e.virtualName.text)) htells
    have hdiffer := hfound.trans htold.symm
    revert hdiffer
    decide +kernel

end PackageCatalog
