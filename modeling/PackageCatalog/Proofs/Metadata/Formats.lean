import PackageCatalog.Proofs.Metadata.Failures
import PackageCatalog.Proofs.Text.Lines

/-!
# Metadata in two formats

The values of a package version may stand on the lines of a cache entry, or in files of their own.
The record does not depend on that: the order of the lines, other lines among them, blanks after a
value and a line feed at the end of a file make no difference.

    an entry lists the values → its keys are those of the values       (haveValues_cacheEntryKeys)
    a directory holds the values → its keys are those of the values    (HoldsValues.exists_keys)
    the two formats read the same record, or neither reads one         (formats_agree)
-/

namespace PackageCatalog

open Scan (Reads)

/-! ## Tables of pairs -/

namespace Table

variable {κ α : Type} [DecidableEq κ]

theorem get?_ofList (pairs : List (κ × α)) (k : κ) :
    (ofList pairs).get? k = ((pairs.filter (·.1 = k)).getLast?).map Prod.snd := by
  induction pairs using List.reverseRecOn with
  | nil => rfl
  | append_singleton pairs pair ih =>
    have hlast : ofList (pairs ++ [pair]) = (ofList pairs).insert pair.1 pair.2 := List.foldl_append
    rw [hlast, get?_insert, ih, List.filter_append]
    by_cases hk : pair.1 = k
    · simp [hk]
    · simp [hk, Ne.symm hk]

/-- A key that stands with one value only has that value. -/
theorem get?_ofList_eq {pairs : List (κ × α)} {k : κ} {value : Option α}
    (h : ∀ a, (k, a) ∈ pairs ↔ value = some a) : (ofList pairs).get? k = value := by
  rw [get?_ofList]
  cases hlast : (pairs.filter (·.1 = k)).getLast? with
  | none =>
    rw [List.getLast?_eq_none_iff, List.filter_eq_nil_iff] at hlast
    cases value with
    | none => rfl
    | some a => exact absurd (decide_eq_true rfl) (hlast (k, a) ((h a).2 rfl))
  | some pair =>
    obtain ⟨hpair, hk⟩ := List.mem_filter.1 (List.mem_of_getLast? hlast)
    obtain rfl : pair.1 = k := of_decide_eq_true hk
    exact ((h pair.2).1 hpair).symm

end Table

/-! ## Values -/

/-- The keys have these values, but for blanks at the end. -/
def HaveValues (keys : Table String String) (values : String → Option String) : Prop :=
  ∀ key ∈ installedKeys, keys.get? key = (values key).map Text.trimEnd

/-- A record depends on nothing but the values of its keys. -/
theorem HaveValues.ofKeys_eq {keys keys' : Table String String} {values : String → Option String}
    (h : HaveValues keys values) (h' : HaveValues keys' values) (eapis : Option EapiTable) :
    Metadata.ofKeys eapis keys = Metadata.ofKeys eapis keys' := by
  have hget : ∀ key ∈ installedKeys, keys.get? key = keys'.get? key :=
    fun key hkey => (h key hkey).trans (h' key hkey).symm
  have hfield : ∀ key ∈ installedKeys, Metadata.field keys key = Metadata.field keys' key :=
    fun key hkey => by rw [Metadata.field, Metadata.field, hget key hkey]
  unfold Metadata.ofKeys
  rw [hget "DESCRIPTION" (by decide), hget "RDEPEND" (by decide), hfield "EAPI" (by decide),
    hfield "SLOT" (by decide), hfield "DEPEND" (by decide), hfield "KEYWORDS" (by decide),
    hfield "PDEPEND" (by decide), hfield "HOMEPAGE" (by decide), hfield "SRC_URI" (by decide),
    hfield "LICENSE" (by decide), hfield "PROVIDE" (by decide)]

/-! ## Cache entries -/

/-- The line of a key in a cache entry. -/
def keyLine (key value : String) : String := key ++ "=" ++ value

/-- A line that is not that of a key, even behind blanks. -/
def IsOther (line : String) : Prop :=
  '\n' ∉ line.toList ∧ ∀ key ∈ installedKeys, ∀ blanks rest : List Char,
    (∀ c ∈ blanks, Text.isBlank c = true) → line.toList ≠ blanks ++ (key.toList ++ '=' :: rest)

/-- The lines of a cache entry are those of the values, in any order, and others among them. -/
def ListsValues (content : String) (values : String → Option String) : Prop :=
  ∃ lines others : List String, content = "\n".intercalate lines ∧
    lines.Perm (installedKeys.filterMap (fun key => (values key).map (keyLine key)) ++ others) ∧
    ∀ line ∈ others, IsOther line

theorem key_chars : ∀ key ∈ installedKeys,
    key ≠ "" ∧ '=' ∉ key.toList ∧ '\n' ∉ key.toList ∧ ∀ c ∈ key.toList, Text.isBlank c = false := by
  have hkeys : installedKeys.all (fun key => key ≠ "" ∧ '=' ∉ key.toList ∧ '\n' ∉ key.toList ∧
      key.toList.all (!Text.isBlank ·) = true) = true := by decide
  simpa using hkeys

/-- The line of a key is read as the key and the value. -/
theorem cut?_trim_eq {line key : String} {blanks rest : List Char} (hkey : key ∈ installedKeys)
    (hblanks : ∀ c ∈ blanks, Text.isBlank c = true)
    (hline : line.toList = blanks ++ (key.toList ++ '=' :: rest)) :
    Text.cut? '=' (Text.trim line) = some (key, Text.trimEnd (String.ofList rest)) := by
  obtain ⟨hne, hequals, -, hdense⟩ := key_chars key hkey
  have hfront : line.toList.dropWhile Text.isBlank = key.toList ++ '=' :: rest := by
    rw [hline, List.dropWhile_append_of_pos hblanks]
    obtain ⟨c, r, hcons⟩ := List.exists_cons_of_ne_nil (mt String.toList_eq_nil_iff.1 hne)
    rw [hcons] at hdense ⊢
    exact List.dropWhile_cons_of_neg (by simp [hdense c List.mem_cons_self])
  unfold Text.trim Text.cut?
  rw [hfront, Text.dropEndWhile_append_cons (by decide), String.toList_ofList,
    Text.splitOnce_eq_some_iff.2 ⟨rfl, hequals⟩]
  simp only [Option.map_some, Text.trimEnd, String.toList_ofList, String.ofList_toList]

theorem cut?_trim_keyLine {key : String} (hkey : key ∈ installedKeys) (value : String) :
    Text.cut? '=' (Text.trim (keyLine key value)) = some (key, Text.trimEnd value) := by
  have hline : (keyLine key value).toList = [] ++ (key.toList ++ '=' :: value.toList) := by
    simp [keyLine]
  have hcut := cut?_trim_eq hkey (List.forall_mem_nil _) hline
  rwa [String.ofList_toList] at hcut

/-- Another line is not read as the line of a key. -/
theorem isOther_iff {line : String} : IsOther line ↔ '\n' ∉ line.toList ∧
    ∀ pair ∈ Text.cut? '=' (Text.trim line), pair.1 ∉ installedKeys := by
  refine and_congr_right fun _ => ⟨?_, ?_⟩
  · rintro hother ⟨key, value⟩ hcut hkey
    obtain ⟨⟨before, after⟩, hsplit, heq⟩ := Option.map_eq_some_iff.1 hcut
    obtain ⟨rfl, rfl⟩ := Prod.mk.inj heq
    obtain ⟨htrim, -⟩ := Text.splitOnce_eq_some_iff.1 hsplit
    obtain ⟨front, back, hline, hfront, -⟩ := Text.exists_eq_trim line
    refine hother _ hkey front (after ++ back) hfront ?_
    rw [hline, htrim, String.toList_ofList, List.append_assoc, List.cons_append]
  · intro hcut key hkey blanks rest hblanks hline
    exact hcut _ (cut?_trim_eq hkey hblanks hline) hkey

theorem mem_keyLines_iff {values : String → Option String} {line : String} :
    line ∈ installedKeys.filterMap (fun key => (values key).map (keyLine key)) ↔
      ∃ key ∈ installedKeys, ∃ value, values key = some value ∧ keyLine key value = line := by
  simp only [List.mem_filterMap, Option.map_eq_some_iff]

theorem ListsValues.exists_line_iff {content : String} {values : String → Option String}
    (hvalues : ∀ key ∈ installedKeys, ∀ value, values key = some value → '\n' ∉ value.toList)
    (h : ListsValues content values) :
    ∃ lines : List String, content = "\n".intercalate lines ∧
      (∀ line ∈ lines, '\n' ∉ line.toList) ∧
      ∀ key ∈ installedKeys, ∀ a, (∃ line ∈ lines, Text.cut? '=' (Text.trim line) = some (key, a)) ↔
        (values key).map Text.trimEnd = some a := by
  obtain ⟨lines, others, hcontent, hperm, hothers⟩ := h
  refine ⟨lines, hcontent, fun line hline => ?_, fun key hkey a => ⟨?_, fun ha => ?_⟩⟩
  · rcases List.mem_append.1 (hperm.mem_iff.1 hline) with hown | hother
    · obtain ⟨key, hkey, value, hvalue, rfl⟩ := mem_keyLines_iff.1 hown
      simp [keyLine, hvalues key hkey value hvalue, (key_chars key hkey).2.2.1]
    · exact (hothers line hother).1
  · rintro ⟨line, hline, hcut⟩
    rcases List.mem_append.1 (hperm.mem_iff.1 hline) with hown | hother
    · obtain ⟨key', hkey', value, hvalue, rfl⟩ := mem_keyLines_iff.1 hown
      rw [cut?_trim_keyLine hkey', Option.some_inj, Prod.mk.injEq] at hcut
      obtain ⟨rfl, rfl⟩ := hcut
      rw [hvalue, Option.map_some]
    · exact absurd hkey ((isOther_iff.1 (hothers line hother)).2 _ hcut)
  · obtain ⟨value, hvalue, rfl⟩ := Option.map_eq_some_iff.1 ha
    have hown := mem_keyLines_iff.2 ⟨key, hkey, value, hvalue, rfl⟩
    exact ⟨_, hperm.mem_iff.2 (List.mem_append_left others hown), cut?_trim_keyLine hkey value⟩

/-- The lines of a cache entry are read as the values. -/
theorem haveValues_cacheEntryKeys {content : String} {values : String → Option String}
    (hvalues : ∀ key ∈ installedKeys, ∀ value, values key = some value → '\n' ∉ value.toList)
    (h : ListsValues content values) : HaveValues (cacheEntryKeys content) values := by
  obtain ⟨lines, rfl, hfeeds, hlines⟩ := h.exists_line_iff hvalues
  intro key hkey
  refine Table.get?_ofList_eq fun a => ?_
  rw [Text.trimmed_lines_intercalate hfeeds, ← hlines key hkey a, List.mem_filterMap]
  simp only [List.mem_filter, List.mem_map]
  constructor
  · rintro ⟨_, ⟨⟨line, hline, rfl⟩, -⟩, hcut⟩
    exact ⟨line, hline, hcut⟩
  · rintro ⟨line, hline, hcut⟩
    refine ⟨_, ⟨⟨line, hline, rfl⟩, ?_⟩, hcut⟩
    rw [Bool.not_eq_true', String.isEmpty_eq_false_iff]
    intro hempty
    rw [hempty] at hcut
    cases hcut

/-! ## Directories -/

/-- A directory has a file for each key that has a value, with the value and perhaps a line feed. -/
structure HoldsValues (t : FileTree) (dir : String) (values : String → Option String) : Prop where
  present : ∀ key ∈ installedKeys, ∀ value ∈ values key,
    t.readText (Path.join dir key) = .ok value ∨
      t.readText (Path.join dir key) = .ok (value ++ "\n")
  absent : ∀ key ∈ installedKeys, values key = none →
    t.readText (Path.join dir key) = .error .missing

theorem trimEnd_feed (value : String) : Text.trimEnd (value ++ "\n") = Text.trimEnd value := by
  have hfeed : (value ++ "\n").toList = value.toList ++ ['\n'] := String.toList_append
  unfold Text.trimEnd
  rw [hfeed, Text.dropEndWhile_concat (by decide)]

theorem HoldsValues.keyPair_eq {t : FileTree} {dir key : String}
    {values : String → Option String} (h : HoldsValues t dir values) (hkey : key ∈ installedKeys) :
    keyPair t dir key = .ok ((values key).map fun value => (key, Text.trimEnd value)) := by
  unfold keyPair Scan.content
  cases hvalue : values key with
  | none =>
    rw [h.absent key hkey hvalue]
    rfl
  | some value =>
    rcases h.present key hkey value hvalue with hread | hread
    · rw [hread]
      rfl
    · rw [hread]
      show Except.ok (some (key, Text.trimEnd (value ++ "\n"))) = _
      rw [trimEnd_feed]
      rfl

/-- The files of a directory are read as the values. -/
theorem HoldsValues.exists_keys {t : FileTree} {dir : String} {values : String → Option String}
    (h : HoldsValues t dir values) :
    ∃ keys, installedKeysIn t dir = .ok keys ∧ HaveValues keys values := by
  refine ⟨Table.ofList ((installedKeys.map fun key =>
    (values key).map fun value => (key, Text.trimEnd value)).filterMap id), ?_, ?_⟩
  · unfold installedKeysIn
    rw [mapM_congr installedKeys fun key hkey => h.keyPair_eq hkey, Scan.mapM_ok]
    rfl
  · intro key hkey
    refine Table.get?_ofList_eq fun a => ?_
    rw [List.filterMap_map, List.mem_filterMap]
    constructor
    · rintro ⟨key', -, hpair⟩
      obtain ⟨value, hvalue, heq⟩ := Option.map_eq_some_iff.1 hpair
      obtain ⟨rfl, rfl⟩ := Prod.mk.inj heq
      rw [hvalue, Option.map_some]
    · intro ha
      obtain ⟨value, hvalue, rfl⟩ := Option.map_eq_some_iff.1 ha
      exact ⟨key, hkey, by simp [hvalue]⟩

/-! ## Records -/

theorem parseList_empty : Dependency.parseList "" = .ok [] := by
  unfold Dependency.parseList
  rw [Dependency.readEntries]
  rfl

/-- Where the dependencies at run time of a record come from. -/
theorem rdepend_of_ofKeys {eapis : Option EapiTable} {keys : Table String String} {m : Metadata}
    (h : Metadata.ofKeys eapis keys = .ok m) :
    (∀ value, keys.get? "RDEPEND" = some value →
      Dependency.parseList (Text.trim value) = .ok m.rdepend) ∧
    (keys.get? "RDEPEND" = none → ∃ defaults, rdependDefaultsFor eapis m.eapi = .ok defaults ∧
      m.rdepend = if defaults then m.depend else []) := by
  unfold Metadata.ofKeys at h
  obtain ⟨defaults, hdefaults, h⟩ := Scan.bind_eq_ok_iff.1 h
  dsimp only at h
  split at h
  · obtain ⟨description, -, h⟩ := Scan.bind_eq_ok_iff.1 h
    obtain ⟨slot, -, h⟩ := Scan.bind_eq_ok_iff.1 h
    obtain ⟨depend, -, h⟩ := Scan.bind_eq_ok_iff.1 h
    split at h
    · next value hvalue =>
      obtain ⟨rdepend, hrdepend, h⟩ := Scan.bind_eq_ok_iff.1 h
      obtain ⟨keywords, -, h⟩ := Scan.bind_eq_ok_iff.1 h
      obtain ⟨pdepend, -, h⟩ := Scan.bind_eq_ok_iff.1 h
      obtain rfl := Except.ok.inj h
      rw [hvalue]
      refine ⟨fun value' heq => ?_, fun hnone => ?_⟩
      · rw [← Option.some_inj.1 heq]
        exact hrdepend
      · cases hnone
    · next hnone =>
      obtain ⟨rdepend, hrdepend, h⟩ := Scan.bind_eq_ok_iff.1 h
      obtain ⟨keywords, -, h⟩ := Scan.bind_eq_ok_iff.1 h
      obtain ⟨pdepend, -, h⟩ := Scan.bind_eq_ok_iff.1 h
      obtain rfl := Except.ok.inj h
      refine ⟨fun _ hvalue => ?_, fun _ => ?_⟩
      · rw [hnone] at hvalue
        cases hvalue
      · dsimp only
        exact ⟨defaults, hdefaults, (Except.ok.inj hrdepend).symm⟩
  · cases h

namespace Generator

variable {σ : Type} {t : FileTree} {eapis : Option EapiTable} {location content : String}
  {n : QualifiedName} {v : Version} {m : Metadata}

theorem generate_tree_eq_ok_iff (hread : t.readText (cacheEntryPath location n v) = .ok content)
    (j : Journal σ) : ((generate ⟨.ebuild, eapis⟩ location n v).on t j).1 = .ok m ↔
      Metadata.ofKeys eapis (cacheEntryKeys content) = .ok m := by
  have hgenerate : Reads id (generate ⟨.ebuild, eapis⟩ location n v : Scan σ Metadata) t _ :=
    reads_generate_tree rfl location n v
  rw [(hgenerate j.memo j rfl).1, Scan.content_eq_some_iff.2 hread]
  show tryCatch (Metadata.ofKeys eapis (cacheEntryKeys content)) _ = .ok m ↔ _
  cases Metadata.ofKeys eapis (cacheEntryKeys content) with
  | ok found => exact Iff.rfl
  | error e => exact ⟨nofun, nofun⟩

theorem generate_installed_eq_ok_iff {keys : Table String String}
    (hkeys : installedKeysIn t (installedPath location n v) = .ok keys) (j : Journal σ) :
    ((generate ⟨.vdb, eapis⟩ location n v).on t j).1 = .ok m ↔
      Metadata.ofKeys eapis keys = .ok m := by
  have hgenerate : Reads id (generate ⟨.vdb, eapis⟩ location n v : Scan σ Metadata) t _ :=
    Index.reads_generate_installed rfl location n v
  rw [(hgenerate j.memo j rfl).1, hkeys]
  rfl

end Generator

/-- The two formats read the same record of the same values, or neither reads one.  In both the
dependencies at build time may stand in for those at run time if these have no value, not if their
value is empty. -/
theorem Generator.formats_agree {σ : Type} {t u : FileTree} {values : String → Option String}
    {content location location' : String} {n n' : QualifiedName} {v v' : Version}
    (hvalues : ∀ key ∈ installedKeys, ∀ value ∈ values key, '\n' ∉ value.toList)
    (hread : t.readText (cacheEntryPath location n v) = .ok content)
    (hlists : ListsValues content values)
    (hholds : HoldsValues u (installedPath location' n' v') values)
    (eapis : Option EapiTable) (j k : Journal σ) :
    (∀ m, ((generate ⟨.ebuild, eapis⟩ location n v).on t j).1 = .ok m ↔
      ((generate ⟨.vdb, eapis⟩ location' n' v').on u k).1 = .ok m) ∧
    ∀ m, ((generate ⟨.vdb, eapis⟩ location' n' v').on u k).1 = .ok m →
      (∀ value, values "RDEPEND" = some value →
        Dependency.parseList (Text.trim value) = .ok m.rdepend ∧
          (Text.trim value = "" → m.rdepend = [])) ∧
      (values "RDEPEND" = none → ∃ defaults, rdependDefaultsFor eapis m.eapi = .ok defaults ∧
        m.rdepend = if defaults then m.depend else []) := by
  have hentry := haveValues_cacheEntryKeys hvalues hlists
  obtain ⟨keys, hkeys, hfiles⟩ := hholds.exists_keys
  refine ⟨fun m => ?_, fun m hm => ?_⟩
  · rw [generate_tree_eq_ok_iff hread, generate_installed_eq_ok_iff hkeys,
      hentry.ofKeys_eq hfiles eapis]
  · obtain ⟨hgiven, habsent⟩ := rdepend_of_ofKeys ((generate_installed_eq_ok_iff hkeys k).1 hm)
    have hrdepend := hfiles "RDEPEND" (by decide)
    refine ⟨fun value hvalue => ?_, fun hvalue => habsent (by rw [hrdepend, hvalue]; rfl)⟩
    have hparse := hgiven (Text.trimEnd value) (by rw [hrdepend, hvalue]; rfl)
    rw [Text.trim_trimEnd] at hparse
    refine ⟨hparse, fun hempty => ?_⟩
    rw [hempty, parseList_empty] at hparse
    exact (Except.ok.inj hparse).symm

/-- The values of a package version, in both formats; blanks stand at the ends of some, and the
dependencies at run time are those at build time. -/
def editorValues (key : String) : Option String :=
  ([("EAPI", "3"), ("DESCRIPTION", " a=b "), ("SLOT", "0/2"), ("DEPEND", "app/vi")] :
    List (String × String)).lookup key

def formatsTree : FileTree :=
  ⟨⟨[(["t"], .directory), (["t", "metadata"], .directory),
    (["t", "metadata", "md5-cache"], .directory),
    (["t", "metadata", "md5-cache", "app"], .directory),
    (["t", "metadata", "md5-cache", "app", "ed-1"],
      .text "SLOT=0/2\n\n_md5_=12\nDEPEND=app/vi\nDESCRIPTION= a=b \nEAPI=3"),
    (["d"], .directory), (["d", "app"], .directory), (["d", "app", "ed-1"], .directory),
    (["d", "app", "ed-1", "EAPI"], .text "3\n"),
    (["d", "app", "ed-1", "DESCRIPTION"], .text " a=b "),
    (["d", "app", "ed-1", "SLOT"], .text "0/2\n"),
    (["d", "app", "ed-1", "DEPEND"], .text "app/vi")]⟩⟩

theorem formats_agree_formatsTree :
    let ed : QualifiedName := ⟨⟨"app", by decide⟩, ⟨"ed", by decide⟩⟩
    let v : Version := ⟨.ofNat 1, [], none, [], none⟩
    ∃ m, ((Generator.generate ⟨.ebuild, none⟩ "/t" ed v).on formatsTree ⟨(), []⟩).1 = .ok m ∧
      ((Generator.generate ⟨.vdb, none⟩ "/d" ed v).on formatsTree ⟨(), []⟩).1 = .ok m ∧
      m.depend ≠ [] ∧ m.rdepend = m.depend := by
  intro ed v
  have hread : formatsTree.readText (cacheEntryPath "/t" ed v) =
      .ok "SLOT=0/2\n\n_md5_=12\nDEPEND=app/vi\nDESCRIPTION= a=b \nEAPI=3" := by decide +kernel
  have hvalues : ∀ key ∈ installedKeys, ∀ value ∈ editorValues key, '\n' ∉ value.toList := by
    decide +kernel
  have hlists : ListsValues "SLOT=0/2\n\n_md5_=12\nDEPEND=app/vi\nDESCRIPTION= a=b \nEAPI=3"
      editorValues := by
    refine ⟨["SLOT=0/2", "", "_md5_=12", "DEPEND=app/vi", "DESCRIPTION= a=b ", "EAPI=3"],
      ["", "_md5_=12"], by decide, by decide +kernel, ?_⟩
    simp only [isOther_iff]
    decide +kernel
  have hholds : HoldsValues formatsTree (installedPath "/d" ed v) editorValues :=
    ⟨by decide +kernel, by decide +kernel⟩
  obtain ⟨hagree, hrdepend⟩ := @Generator.formats_agree Unit _ _ _ _ _ _ _ _ _ _ hvalues hread
    hlists hholds none ⟨(), []⟩ ⟨(), []⟩
  have hfound : ((Generator.generate ⟨.vdb, none⟩ "/d" ed v).on formatsTree
      (⟨(), []⟩ : Journal Unit)).1.toOption.any
      (fun m => m.eapi == "3" && !m.depend.isEmpty) = true := by
    decide +kernel
  obtain ⟨m, hm, hshown⟩ := (Option.any_eq_true _ _).1 hfound
  obtain ⟨heapi, hdepend⟩ := (Bool.and_eq_true _ _).mp hshown
  have hm := Scan.toOption_eq_some_iff.1 hm
  obtain ⟨defaults, hdefaults, hstands⟩ := (hrdepend m hm).2 (by decide +kernel)
  rw [beq_iff_eq.1 heapi] at hdefaults
  obtain rfl : true = defaults := Except.ok.inj hdefaults
  exact ⟨m, (hagree m).2 hm, hm, by simpa using hdepend, hstands⟩

end PackageCatalog
