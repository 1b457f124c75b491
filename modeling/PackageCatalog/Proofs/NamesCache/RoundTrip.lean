import PackageCatalog.Proofs.NamesCache.Regeneration

/-!
# What a regenerated cache answers

After a regeneration that reports nothing, the cache answers for each package the categories that it
has in the catalogue, with two exceptions (`roundTrips_iff`):

* The version file stands where a package `_VERSION_` has its fragment, and is read as one.
* If the path of the cache leads through a missing directory and back, the cache seems to be missing
  and is not cleared.  Making the missing directory makes its old fragments count again.
-/

namespace PackageCatalog.NamesCache

open FileTree (placeOf Fits)
open PackageCatalog.Path (IsName)

variable {c : NamesCache} {t u : FileTree}

/-! ## Reading what was written -/

theorem readText_fragmentFile (hl : c.location ≠ "") (hdir : t.isDirectory c.location = true)
    {name : String} (hname : IsName name) {content : String} :
    t.readText (c.fragmentFile name) = .ok content ↔ Fits c.location name ∧
      t.get? (placeOf c.location ++ [name]) = some (.text content) := by
  rw [FileTree.readText_eq_ok_iff]
  exact FileTree.find_join hl hname hdir

theorem stored_of_readText {p : PackageName} {content : String}
    (h : t.readText (c.fragmentFile p.text) = .ok content) : c.stored t p = categoriesIn content := by
  unfold stored
  rw [h]

theorem stored_of_not_readText {p : PackageName}
    (h : ∀ content, t.readText (c.fragmentFile p.text) ≠ .ok content) : c.stored t p = [] := by
  unfold stored
  cases hread : t.readText (c.fragmentFile p.text) with
  | ok content => exact absurd hread (h content)
  | error e => rfl

theorem isCategoryText_of_isRepositoryText {s : String} (h : isRepositoryText s = true) :
    isCategoryText s = true := by
  obtain ⟨c, r, hs, hc, hr⟩ := isNameOf_iff.1 h
  refine isNameOf_iff.2 ⟨c, r, hs, hc, fun d hd => ?_⟩
  have := hr d hd
  simp only [Bool.or_eq_true, decide_eq_true_eq, List.mem_cons, List.not_mem_nil] at this ⊢
  tauto

/-- What the version file lists if it is read as a fragment: the format and the repository. -/
def versionCategories (name : RepositoryName) : List Category :=
  Ascending.ofList [⟨namesCacheFormat, by decide⟩,
    ⟨name.text, isCategoryText_of_isRepositoryText name.valid⟩]

theorem categoriesIn_versionContent {name : RepositoryName} (h : c.repository = name.text) :
    categoriesIn c.versionContent = versionCategories name := by
  have hcontent : c.versionContent = contentOf [⟨namesCacheFormat, by decide⟩,
      ⟨name.text, isCategoryText_of_isRepositoryText name.valid⟩] := by
    unfold versionContent
    rw [contentOf, contentOf, contentOf, String.append_empty, h, String.append_assoc]
  rw [hcontent, categoriesIn_contentOf]
  rfl

theorem lines_versionContent (hname : Text.IsLine c.repository) :
    Text.lines c.versionContent = [namesCacheFormat, c.repository] := by
  have hformat : Text.IsLine namesCacheFormat := ⟨by decide, by decide⟩
  have hcontent : c.versionContent =
      namesCacheFormat ++ "\n" ++ (c.repository ++ "\n" ++ "") := by
    unfold versionContent
    rw [String.append_empty, String.append_assoc, String.append_assoc]
  rw [hcontent, Text.lines_append hformat, Text.lines_append hname, Text.lines_empty]

theorem checkVersion_versionContent (hname : Text.IsLine c.repository) :
    c.checkVersion c.versionContent = .ok () := by
  unfold checkVersion
  rw [lines_versionContent hname]
  simp [line]

theorem check_eq_ok_iff (hdir : t.isDirectory c.location = true) : c.check t = .ok () ↔
    ∃ content, t.readText c.versionFile = .ok content ∧ c.checkVersion content = .ok () := by
  unfold NamesCache.check
  rw [hdir, Bool.true_and]
  constructor
  · intro h
    split at h
    · cases hread : t.readText c.versionFile with
      | ok content =>
        rw [hread] at h
        exact ⟨content, rfl, h⟩
      | error e =>
        rw [hread] at h
        cases h
    · split at h <;> cases h
  · rintro ⟨content, hread, hcontent⟩
    rw [FileTree.isPresent_of_readText hread, if_pos rfl, hread]
    exact hcontent

theorem isDirectory_of_check (h : c.check t = .ok ()) : t.isDirectory c.location = true := by
  unfold NamesCache.check at h
  split at h
  · next hcond => exact (Bool.and_eq_true_iff.1 hcond).1
  · split at h <;> cases h

theorem stored_congr (hl : IsPlace c.location) (ht : t.isDirectory c.location = true)
    (hu : u.isDirectory c.location = true) {p : PackageName}
    (h : u.get? (placeOf c.location ++ [p.text]) = t.get? (placeOf c.location ++ [p.text])) :
    c.stored u p = c.stored t p := by
  have hread : ∀ content, u.readText (c.fragmentFile p.text) = .ok content ↔
      t.readText (c.fragmentFile p.text) = .ok content := by
    intro content
    rw [readText_fragmentFile hl.ne_empty hu p.isName,
      readText_fragmentFile hl.ne_empty ht p.isName, h]
  cases hresult : t.readText (c.fragmentFile p.text) with
  | ok content => rw [stored_of_readText hresult, stored_of_readText ((hread content).2 hresult)]
  | error e =>
    have hnot : ∀ content, t.readText (c.fragmentFile p.text) ≠ .ok content := by
      intro content h
      rw [hresult] at h
      cases h
    rw [stored_of_not_readText hnot, stored_of_not_readText fun content h =>
      hnot content ((hread content).1 h)]

/-- A cache that passes its check answers the same as long as the files in its directory stay. -/
theorem answerIn_congr (hl : IsPlace c.location) (hcheck : c.check t = .ok ())
    (hu : u.isDirectory c.location = true) (h : ∀ name, IsName name →
      u.get? (placeOf c.location ++ [name]) = t.get? (placeOf c.location ++ [name]))
    (p : PackageName) : c.answerIn u p = c.answerIn t p := by
  have ht := isDirectory_of_check hcheck
  obtain ⟨content, hread, hcontent⟩ := (check_eq_ok_iff ht).1 hcheck
  have hreadU : u.readText c.versionFile = .ok content := by
    have hversion := (readText_fragmentFile hl.ne_empty ht isName_versionFileName).1 hread
    rw [← h versionFileName isName_versionFileName] at hversion
    exact (readText_fragmentFile hl.ne_empty hu isName_versionFileName).2 hversion
  have hcheckU : c.check u = .ok () := (check_eq_ok_iff hu).2 ⟨content, hreadU, hcontent⟩
  unfold answerIn
  rw [hcheck, hcheckU, stored_congr hl ht hu (h p.text p.isName)]

/-- A cache that was written passes the check. -/
theorem Written.check {packages : List QualifiedName} (h : Written c packages t u)
    (hl : c.location ≠ "") (hname : Text.IsLine c.repository) : c.check u = .ok () := by
  have hread : u.readText c.versionFile = .ok c.versionContent :=
    (readText_fragmentFile hl h.directory isName_versionFileName).2 h.version
  exact (check_eq_ok_iff h.directory).2 ⟨_, hread, checkVersion_versionContent hname⟩

/-- A file that a regeneration did not see: the directory of the cache seemed to be missing, yet
there was a fragment in its place. -/
structure Overlooked (c : NamesCache) (t : FileTree) (p : PackageName) : Prop where
  missing : t.list c.location = .error .missing
  fits : Fits c.location p.text
  fragment : ∃ content, t.get? (placeOf c.location ++ [p.text]) = some (.text content) ∧
    categoriesIn content ≠ []

theorem Written.stored_version {packages : List QualifiedName} (h : Written c packages t u)
    (hl : c.location ≠ "") {p : PackageName} (hp : p.text = versionFileName) :
    c.stored u p = categoriesIn c.versionContent := by
  refine stored_of_readText ((readText_fragmentFile hl h.directory p.isName).2 ?_)
  rw [hp]
  exact h.version

/-- The fragment of a package of the catalogue lists its categories. -/
theorem Written.stored_of_mem {packages : List QualifiedName} (h : Written c packages t u)
    (hl : c.location ≠ "") {p : PackageName} (hp : p.text ≠ versionFileName)
    (hmem : categoriesOf packages p ≠ []) : c.stored u p = categoriesOf packages p := by
  rw [Ne, categoriesOf_eq_nil_iff] at hmem
  have hfragment := h.fragment _ _ hp (mem_fragments_iff.2 ⟨hmem, rfl⟩)
  rw [stored_of_readText ((readText_fragmentFile hl h.directory p.isName).2 hfragment),
    categoriesIn_contentOf, categoriesOf_eq]

/-- For any other package nothing is stored, overlooked fragments apart. -/
theorem Written.stored_eq_nil_iff {packages : List QualifiedName} (h : Written c packages t u)
    (hl : c.location ≠ "") {p : PackageName} (hp : p.text ≠ versionFileName)
    (hnil : categoriesOf packages p = []) : c.stored u p = [] ↔ ¬ Overlooked c t p := by
  rw [categoriesOf_eq_nil_iff] at hnil
  have hother := h.other p.text p.isName hp hnil
  have hread : ∀ content, u.readText (c.fragmentFile p.text) = .ok content ↔
      Fits c.location p.text ∧ t.list c.location = .error .missing ∧
        t.get? (placeOf c.location ++ [p.text]) = some (.text content) := by
    intro content
    rw [readText_fragmentFile hl h.directory p.isName, hother]
  constructor
  · rintro hstored ⟨hmissing, hfits, content, hcontent, hne⟩
    rw [stored_of_readText ((hread content).2 ⟨hfits, hmissing, hcontent⟩)] at hstored
    exact hne hstored
  · intro hnot
    cases hresult : u.readText (c.fragmentFile p.text) with
    | error e =>
      refine stored_of_not_readText fun content hcontent => ?_
      rw [hresult] at hcontent
      cases hcontent
    | ok content =>
      obtain ⟨hfits, hmissing, hcontent⟩ := (hread content).1 hresult
      rw [stored_of_readText hresult]
      by_contra hne
      exact hnot ⟨hmissing, hfits, content, hcontent, hne⟩

/-- A cache that was written answers the categories that were listed, the version file and overlooked
fragments apart. -/
theorem Written.answerIn {packages : List QualifiedName} (h : Written c packages t u)
    (hlocation : isDisabled c.location = false) (hl : IsPlace c.location)
    (hline : Text.IsLine c.repository) {p : PackageName} (hp : p.text ≠ versionFileName)
    (hseen : ¬ Overlooked c t p) : c.answerIn u p = some (categoriesOf packages p) := by
  rw [answerIn_of_check hlocation (h.check hl.ne_empty hline), Option.some.injEq]
  by_cases hnil : categoriesOf packages p = []
  · rw [hnil]
    exact (h.stored_eq_nil_iff hl.ne_empty hp hnil).2 hseen
  · exact h.stored_of_mem hl.ne_empty hp hnil

/-! ## Round trips -/

/-- The memos that a cache may have after lookups. -/
inductive Consulted (c : NamesCache) (t : FileTree) : NamesMemo → Prop where
  | fresh : Consulted c t c.freshMemo
  | lookup {memo : NamesMemo} (p : PackageName) :
      Consulted c t memo → Consulted c t ((c.lookup p).run t memo).2.1

theorem Consulted.sound {memo : NamesMemo} (h : Consulted c t memo) : Sound c t memo := by
  induction h with
  | fresh => exact sound_freshMemo
  | lookup p _ ih => exact (lookup_yields p ⟨_, []⟩ ih).2

/-- Whatever was looked up before, a lookup answers the categories of the package in the list. -/
def RoundTrips (c : NamesCache) (t : FileTree) (packages : List QualifiedName)
    (p : PackageName) : Prop :=
  ∀ memo, Consulted c t memo →
    ((c.lookup p).run t memo).1 = .ok (some (categoriesOf packages p))

theorem roundTrips_iff_answerIn {packages : List QualifiedName} {p : PackageName} :
    RoundTrips c t packages p ↔ c.answerIn t p = some (categoriesOf packages p) := by
  constructor
  · intro h
    have hfresh := h c.freshMemo .fresh
    rw [lookup_run sound_freshMemo] at hfresh
    exact Except.ok.inj hfresh
  · intro h memo hmemo
    rw [lookup_run hmemo.sound, h]

/-- After a regeneration that reports nothing the lookup of a package answers its categories in the
catalogue if and only if the version file does not stand in for its fragment and no old fragment of
it was overlooked. -/
theorem roundTrips_iff {base : String} {name : RepositoryName} {packages : List QualifiedName}
    {w w' : Workspace NamesMemo}
    (hlocation : isDisabled (ofBase base name.text).location = false)
    (hrun : ((ofBase base name.text).regenerate packages).on w = (.ok (), w'))
    (hwarnings : w'.warnings = w.warnings) :
    w'.memo = (ofBase base name.text).freshMemo ∧
      ∀ p, RoundTrips (ofBase base name.text) w'.files packages p ↔
        (p.text = versionFileName → categoriesOf packages p = versionCategories name) ∧
        (p.text ≠ versionFileName → categoriesOf packages p = [] →
          ¬ Overlooked (ofBase base name.text) w.files p) := by
  obtain ⟨hmemo, steps, hsteps, hperformed⟩ := regenerate_on hlocation hrun hwarnings
  have hl := isPlace_ofBase hlocation
  have hwritten := written_of_performed hl hsteps hperformed
  have hcheck := hwritten.check hl.ne_empty name.isLine
  refine ⟨hmemo, fun p => ?_⟩
  rw [roundTrips_iff_answerIn, answerIn_of_check hlocation hcheck, Option.some.injEq]
  by_cases hp : p.text = versionFileName
  · rw [hwritten.stored_version hl.ne_empty hp, categoriesIn_versionContent rfl]
    refine ⟨fun h => ⟨fun _ => h.symm, fun hne => absurd hp hne⟩, fun h => (h.1 hp).symm⟩
  · by_cases hnil : categoriesOf packages p = []
    · rw [hnil, hwritten.stored_eq_nil_iff hl.ne_empty hp hnil]
      exact ⟨fun h => ⟨fun he => absurd he hp, fun _ _ => h⟩, fun h => h.2 hp rfl⟩
    · refine iff_of_true (hwritten.stored_of_mem hl.ne_empty hp hnil) ⟨fun he => absurd he hp, ?_⟩
      exact fun _ h => absurd h hnil

/-- A workspace with an old fragment `/n/test/foo`. -/
def oldFragment : Workspace NamesMemo where
  files := ⟨⟨[(["n"], .directory), (["n", "test"], .directory),
    (["n", "test", "foo"], .text "cat1\n")]⟩⟩
  memo := { usable := true }
  warnings := []

def testName : RepositoryName := ⟨"test", by decide⟩

def testCatalog : List QualifiedName := [⟨⟨"cat2", by decide⟩, ⟨"bar", by decide⟩⟩]

/-- The workspace after a regeneration below `base`. -/
def regenerated (base : String) : Workspace NamesMemo :=
  (((ofBase base testName.text).regenerate testCatalog).on oldFragment).2

theorem roundTrips_iff_oldFragment :
    (regenerated "/n").memo = (ofBase "/n" testName.text).freshMemo ∧
      ∀ p, RoundTrips (ofBase "/n" testName.text) (regenerated "/n").files testCatalog p ↔
        (p.text = versionFileName → categoriesOf testCatalog p = versionCategories testName) ∧
        (p.text ≠ versionFileName → categoriesOf testCatalog p = [] →
          ¬ Overlooked (ofBase "/n" testName.text) oldFragment.files p) :=
  roundTrips_iff (by decide +kernel) (Prod.ext (by decide +kernel) rfl) (by decide +kernel)

/-- The version file is found for a package of its name, and below `/n/later/..`, where `later` is
missing, the old fragment is found again. -/
theorem not_roundTrips_oldFragment :
    ((((ofBase "/n" testName.text).regenerate testCatalog).on oldFragment).1 = .ok () ∧
      (regenerated "/n").warnings = [] ∧
      ¬ RoundTrips (ofBase "/n" testName.text) (regenerated "/n").files testCatalog
        ⟨versionFileName, by decide⟩) ∧
    ((((ofBase "/n/later/.." testName.text).regenerate testCatalog).on oldFragment).1 = .ok () ∧
      (regenerated "/n/later/..").warnings = [] ∧
      ¬ RoundTrips (ofBase "/n/later/.." testName.text) (regenerated "/n/later/..").files testCatalog
        ⟨"foo", by decide⟩) := by
  refine ⟨⟨by decide +kernel, by decide +kernel, ?_⟩, by decide +kernel, by decide +kernel, ?_⟩
  · rw [roundTrips_iff_answerIn]
    decide +kernel
  · rw [roundTrips_iff_answerIn]
    decide +kernel

end PackageCatalog.NamesCache
