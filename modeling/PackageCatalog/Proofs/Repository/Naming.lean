import PackageCatalog.Proofs.Atom.Repository
import PackageCatalog.Proofs.Config.Grammar
import PackageCatalog.Proofs.Repository.UpToDate
import PackageCatalog.Repository.Basic

/-!
# Where repositories get their names

A repository that is made is called as its keys say, by what its tree declares, after its location,
after its root, or by its kind (`TakesName`).  The name after the location holds the last component
as it is; every other name is made of characters that may stand in one:

    TakesName t keys kind name → (isRepositoryText name ↔
      the characters of the last component may stand in a name, if it is called after its location)
                                                                     (TakesName.isRepositoryText_iff)

A repository name can be written, and is read again, in configurations, in the headers of caches and
in dependency specifications (`RepositoryName.citable`).
-/

namespace PackageCatalog

/-! ## Characters of names -/

def isRepositoryChar (c : Char) : Bool := c.isAlphanum || c ∈ ['_', '-']

theorem RepositoryName.exists_parse_iff {s : String} :
    (∃ name, parse s = .ok name) ↔ isRepositoryText s = true := by
  constructor
  · rintro ⟨name, h⟩
    rw [← parse_eq_ok_iff.1 h]
    exact name.valid
  · intro h
    exact ⟨⟨s, h⟩, parse_eq_ok_iff.2 rfl⟩

/-! ## Names that are made up -/

theorem isRepositoryText_fallbackName_iff {location : String} :
    isRepositoryText (EbuildRepository.fallbackName location) = true ↔
      ∀ base ∈ Path.fileName? location, ∀ c ∈ base.toList, isRepositoryChar c = true := by
  have htext (base : String) : isRepositoryText ("x-" ++ base) = true ↔
      ∀ c ∈ base.toList, isRepositoryChar c = true := by
    rw [← List.all_eq_true]
    unfold isRepositoryText
    rw [String.toList_append]
    exact Iff.rfl
  unfold EbuildRepository.fallbackName
  rw [htext]
  cases Path.fileName? location with
  | none => simp
  | some base => simp

theorem isRepositoryChar_repositoryNameChar (c : Char) :
    isRepositoryChar (repositoryNameChar c) = true := by
  unfold repositoryNameChar
  split
  · next h => simpa [isRepositoryChar, or_assoc] using h
  · rfl

theorem isRepositoryText_installedVirtualsName (root : String) :
    isRepositoryText (installedVirtualsName root) = true := by
  unfold installedVirtualsName
  split
  · decide
  · unfold isRepositoryText
    rw [String.toList_ofList, String.toList_append, List.map_append, isNameOf_iff]
    refine ⟨'i', _, rfl, by decide, fun c hc => ?_⟩
    obtain ⟨d, -, rfl⟩ : ∃ d ∈ "nstalled_virtuals-".toList ++ root.toList,
        repositoryNameChar d = c := by
      rw [← List.mem_map, List.map_append]
      exact hc
    exact isRepositoryChar_repositoryNameChar d

/-! ## Names that are declared -/

namespace EbuildRepository

/-- The first line that counts in the file `profiles/repo_name` is the name. -/
def Declares (t : FileTree) (location : String) (name : RepositoryName) : Prop :=
  ∃ text others, t.readText (Path.join (Path.join location "profiles") "repo_name") = .ok text ∧
    Config.entryLines text = name.text :: others

/-- The name that the tree declares; `Declares` as a function. -/
def declaredIn? (t : FileTree) (location : String) : Option RepositoryName :=
  match Scan.content t (Path.join (Path.join location "profiles") "repo_name") with
  | .ok (some text) =>
    (Config.entryLines text).head?.bind fun first => (RepositoryName.parse first).toOption
  | _ => none

/-- The name of a repository whose keys do not say it. -/
def nameIn (t : FileTree) (location : String) : String :=
  match declaredIn? t location with
  | some name => name.text
  | none => fallbackName location

variable {σ τ : Type} {view : σ → τ} {t : FileTree} {location : String} {name : RepositoryName}

theorem declaredIn?_eq_some_iff : declaredIn? t location = some name ↔ Declares t location name := by
  unfold declaredIn?
  constructor
  · intro h
    split at h
    · next text hcontent =>
      obtain ⟨first, hfirst, hname⟩ := Option.bind_eq_some_iff.1 h
      obtain ⟨others, hlines⟩ := List.head?_eq_some_iff.1 hfirst
      obtain rfl := RepositoryName.parse_eq_ok_iff.1 (Scan.toOption_eq_some_iff.1 hname)
      exact ⟨text, others, Scan.content_eq_some_iff.1 hcontent, hlines⟩
    · cases h
  · rintro ⟨text, others, hread, hlines⟩
    rw [Scan.content_eq_some_iff.2 hread]
    simp only
    rw [hlines, List.head?_cons, Option.bind_some, RepositoryName.parse_eq_ok_iff.2 rfl]
    rfl

theorem reads_declaredName? :
    Scan.Reads view (declaredName? location) t (.ok (declaredIn? t location)) := by
  intro shown
  refine (Scan.reads_readLineFile _ shown).attempt.bind_ok ?_
  unfold declaredIn?
  cases Scan.content t (Path.join (Path.join location "profiles") "repo_name") with
  | error e => exact (Scan.reads_warn _ shown).bind_ok (Scan.yields_pure none)
  | ok content =>
    cases content with
    | none => exact Scan.yields_pure none
    | some text =>
      simp only [Except.map, Option.map_some]
      cases Config.entryLines text with
      | nil => exact Scan.yields_pure none
      | cons first others =>
        simp only [List.head?_cons, Option.bind_some]
        cases RepositoryName.parse first with
        | ok name => exact Scan.yields_pure (some name)
        | error e => exact (Scan.reads_warn _ shown).bind_ok (Scan.yields_pure none)

theorem reads_fetchName : Scan.Reads view (fetchName location) t (.ok (nameIn t location)) := by
  refine reads_declaredName?.bind_ok ?_
  unfold nameIn
  cases declaredIn? t location with
  | some name => exact Scan.reads_pure name.text
  | none => exact (Scan.reads_warn _).bind_ok (Scan.reads_pure _)

end EbuildRepository

/-! ## The names of all kinds -/

/-- A source repository that is called after its location. -/
structure Unnamed (t : FileTree) (keys : RepositoryKeys) (location : String) : Prop where
  unconfigured : keys.value? "name" = none
  located : keys.value? "location" = some location
  undeclared : ∀ name, ¬ EbuildRepository.Declares t location name

/-- The name of a repository of a kind that is made from these keys. -/
inductive TakesName (t : FileTree) (keys : RepositoryKeys) : RepositoryKind → String → Prop where
  | configured {name : RepositoryName} (hname : keys.value? "name" = some name.text) :
    TakesName t keys .ebuild name.text
  | declared {location : String} {name : RepositoryName} (hname : keys.value? "name" = none)
    (hlocation : keys.value? "location" = some location)
    (h : EbuildRepository.Declares t location name) : TakesName t keys .ebuild name.text
  | unnamed {location : String} (h : Unnamed t keys location) :
    TakesName t keys .ebuild (EbuildRepository.fallbackName location)
  | installed {name : RepositoryName} (hname : (keys.value? "name").getD "installed" = name.text) :
    TakesName t keys .installed name.text
  | installedVirtuals {root : String} (hroot : keys.value? "root" = some root) :
    TakesName t keys .installedVirtuals (installedVirtualsName root)
  | virtuals : TakesName t keys .virtuals "virtuals"

/-- What a repository is called after can stand in a name. -/
def Presentable (t : FileTree) (keys : RepositoryKeys) : Prop :=
  ∀ location, Unnamed t keys location →
    ∀ base ∈ Path.fileName? location, ∀ c ∈ base.toList, isRepositoryChar c = true

variable {context : RepositoryContext} {keys : RepositoryKeys} {t : FileTree}
  {kind : RepositoryKind} {name : String}

theorem TakesName.isRepositoryText_iff (h : TakesName t keys kind name) :
    isRepositoryText name = true ↔ (kind = .ebuild → Presentable t keys) := by
  cases h with
  | @configured name hname =>
    refine iff_of_true name.valid fun _ location h => ?_
    rw [h.unconfigured] at hname
    cases hname
  | @declared location name _ hlocation hdeclares =>
    refine iff_of_true name.valid fun _ location' h => ?_
    have heq : some location = some location' := hlocation.symm.trans h.located
    cases heq
    exact absurd hdeclares (h.undeclared name)
  | @unnamed location h =>
    rw [isRepositoryText_fallbackName_iff]
    constructor
    · intro hchars _ location' h'
      have heq : some location = some location' := h.located.symm.trans h'.located
      cases heq
      exact hchars
    · intro hpresentable
      exact hpresentable rfl location h
  | @installed name _ => exact iff_of_true name.valid nofun
  | @installedVirtuals root _ =>
    exact iff_of_true (isRepositoryText_installedVirtualsName root) nofun
  | virtuals => exact iff_of_true (by decide) nofun

theorem RepositoryKeys.require_eq_ok_iff {key value : String} :
    keys.require key = .ok value ↔ keys.value? key = some value := by
  unfold require
  cases keys.value? key <;> simp

theorem EbuildRepository.takesName {σ : Type} {j : Journal σ} {r : EbuildRepository}
    (h : ((ofKeys context keys).on t j).1 = .ok r) : TakesName t keys .ebuild r.name := by
  obtain ⟨location, hrequire, -, hname⟩ := ofKeys_spec h
  have hlocation := RepositoryKeys.require_eq_ok_iff.1 hrequire
  rcases hname with ⟨name, hkey, hname⟩ | ⟨hkey, hfetch⟩
  · rw [hname]
    exact .configured hkey
  · have hreads : Scan.Reads (id : σ → σ) (fetchName location) t (.ok (nameIn t location)) :=
      reads_fetchName
    obtain ⟨j', hfetched, -⟩ := hreads.on_eq j
    rw [hfetched, Except.ok.injEq] at hfetch
    rw [← hfetch]
    unfold nameIn
    cases hdeclared : declaredIn? t location with
    | some name => exact .declared hkey hlocation (declaredIn?_eq_some_iff.1 hdeclared)
    | none =>
      refine .unnamed ⟨hkey, hlocation, fun name hdeclares => ?_⟩
      rw [declaredIn?_eq_some_iff.2 hdeclares] at hdeclared
      cases hdeclared

theorem InstalledRepository.takesName {r : InstalledRepository}
    (h : ofKeys context keys = .ok r) : TakesName t keys .installed r.name.text := by
  obtain ⟨location, -, h⟩ := Scan.bind_eq_ok_iff.1 h
  obtain ⟨name, hname, h⟩ := Scan.bind_eq_ok_iff.1 h
  cases h
  exact .installed (RepositoryName.parse_eq_ok_iff.1 hname).symm

/-! ## Names that are written -/

namespace RepositoryName

/-- Wherever repositories are called by name, the name is read as it was written. -/
structure Citable (name : RepositoryName) : Prop where
  /-- In the text of a configuration. -/
  key : ∀ key ∈ ["name", "master_repository"], ∃ pairs,
    Config.parseAssignments (key ++ "=" ++ name.text ++ "\n") = .ok pairs ∧
      RepositoryKeys.value? (Table.ofList pairs) key = some name.text
  /-- A repository can be given the name. -/
  given : ∀ context keys, (∃ location, keys.value? "location" = some location) →
    keys.value? "name" = some name.text →
      ∃ r, InstalledRepository.ofKeys context keys = .ok r ∧ r.name = name
  namesHeader : ∀ base, (NamesCache.ofBase base name.text).checkVersion
    (NamesCache.ofBase base name.text).versionContent = .ok ()
  providesHeader : ∀ r : InstalledRepository, r.name = name → ∀ provisions t j,
    (r.readProvides (r.providesContent provisions)).on t j =
      (.ok (some (r.entriesOf provisions)), j)
  atom : ∀ n : QualifiedName, ∃ a, Atom.parse? (n.text ++ "::" ++ name.text) = some a ∧
    ∀ m w repository slot, a.accepts m w repository slot = true ↔ m = n ∧ repository = name.text

/-- A name stands in a configuration without quotes. -/
theorem lists_assignment (name : RepositoryName) {key : String} (hkey : Config.IsKey key.toList) :
    Config.Lists (key ++ "=" ++ name.text ++ "\n").toList [(key, name.text)] := by
  have hchars : ∀ c ∈ name.text.toList, isEntryChar c = true := by
    refine isEntryChar_of_mem (fun c hc => ?_) name.valid
    rcases Bool.or_eq_true_iff.1 hc with hc | hc
    · exact Bool.or_eq_true_iff.2 (.inl hc)
    · have hsubset : ['_', '-'] ⊆ ['+', '_', '.', '-'] := by simp
      exact Bool.or_eq_true_iff.2 (.inr (decide_eq_true (hsubset (of_decide_eq_true hc))))
  -- none of its characters is a quote or a blank, or ends a value
  have hvalue : Config.HasValue (name.text.toList ++ [] ++ ['\n']) name.text.toList ['\n'] := by
    refine .bare ?_ ?_ (starts_cons (.inl rfl) _) ?_ nofun
    · rw [List.append_nil]
      intro c hc
      have hchar := hchars c (List.mem_of_head? hc)
      constructor <;> (rintro rfl; exact absurd hchar (by decide))
    · rw [List.append_nil]
      intro c hc
      have hchar := hchars c hc
      constructor <;> (rintro rfl; exact absurd hchar (by decide))
    · exact fun c hc => not_isBlank_of_isEntryChar (hchars c (List.mem_of_getLast? hc))
  have hassigns : Config.Assigns (key ++ "=" ++ name.text ++ "\n").toList (key, name.text) [] := by
    refine ⟨[], key.toList, name.text.toList, _, ['\n'], ?_, .absent, hkey, hvalue,
      ⟨[], [], ['\n'], rfl, nofun, .inl rfl, .lineFeed []⟩, by simp⟩
    simp
  exact .assignment hassigns .done

theorem citable (name : RepositoryName) : name.Citable where
  key key hkey := by
    have hkeys : ∀ key ∈ ["name", "master_repository"], Config.IsKey key.toList := by
      rw [List.forall_mem_cons, List.forall_mem_singleton]
      exact ⟨⟨'n', _, rfl, rfl, List.all_eq_true.1 (by decide)⟩,
        ⟨'m', _, rfl, rfl, List.all_eq_true.1 (by decide)⟩⟩
    have hlists := name.lists_assignment (hkeys key hkey)
    have hne : name.text ≠ "" := name.isName.ne_empty
    refine ⟨_, Config.parseAssignments_eq_ok_iff.2 (Config.readAssignments_of_lists hlists), ?_⟩
    simp [RepositoryKeys.value?, Table.ofList, hne]
  given context keys hlocation hname := by
    obtain ⟨location, hlocation⟩ := hlocation
    unfold InstalledRepository.ofKeys
    rw [RepositoryKeys.require_eq_ok_iff.2 hlocation, hname, Option.getD_some, parse_eq_ok_iff.2 rfl]
    exact ⟨_, rfl, rfl⟩
  namesHeader base := NamesCache.checkVersion_versionContent name.isLine
  providesHeader r _ provisions _ j := r.readProvides_providesContent provisions j
  atom n := ⟨_, Atom.parse?_within n name, fun _ _ _ _ => Atom.accepts_within_iff⟩

end RepositoryName

end PackageCatalog
