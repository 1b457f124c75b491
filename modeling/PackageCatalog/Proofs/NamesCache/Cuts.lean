import PackageCatalog.Proofs.NamesCache.RoundTrip

/-!
# What a reader sees of a regeneration

A regeneration removes the files of an old cache in the order in which the directory lists them,
then writes the new fragments, and the version file last.  A reader may come after any number of
these steps.  It is told the old categories, the new ones, or that the cache cannot be used, if and
only if the version file is removed early enough and nothing else is taken for it
(`readsHonestly_iff`):

* A fragment that is removed before the version file is missing from a cache that still passes its
  check.
* The fragment of a package `_VERSION_` may pass for a version file; then the fragments that are
  written after it are missing.
-/

namespace PackageCatalog.NamesCache

open FileTree (placeOf Fits IsStart)
open PackageCatalog.Path (IsName)

variable {c : NamesCache} {t u : FileTree} {location : String}

/-! ## Cuts -/

/-- The steps of a regeneration whose directory lists the names in this order. -/
def stepsInOrder (c : NamesCache) (names : List String) (packages : List QualifiedName) :
    List FileStep :=
  names.map (fun name => .remove (Path.join c.location name)) ++
    (.makeDirs c.location :: c.writeSteps packages)

theorem steps_eq_stepsInOrder {names : List String} (h : t.list c.location = .ok names)
    (packages : List QualifiedName) : c.steps t packages = .ok (c.stepsInOrder names packages) := by
  unfold NamesCache.steps clearSteps
  rw [h]
  rfl

/-- The file tree after the first steps of a regeneration. -/
def cut (c : NamesCache) (t : FileTree) (names : List String) (packages : List QualifiedName)
    (k : Nat) : FileTree :=
  (((((c.stepsInOrder names packages).take k).forM performStep)).on ⟨t, c.freshMemo, []⟩).2.files

/-- The last cut is what a regeneration of the directory leaves, whether it fails or not. -/
theorem files_regenerate (hlocation : isDisabled c.location = false) {names : List String}
    (h : t.list c.location = .ok names) (packages : List QualifiedName) {k : Nat}
    (hk : (c.stepsInOrder names packages).length ≤ k) :
    ((c.regenerate packages).on ⟨t, c.freshMemo, []⟩).2.files = c.cut t names packages k := by
  unfold cut regenerate
  rw [List.take_of_length_le hk, hlocation, if_neg Bool.false_ne_true,
    Change.on_bind_of_ok (Change.on_get _), steps_eq_stepsInOrder h,
    Change.on_bind_of_ok (Change.on_lift _ _)]
  cases hrun : ((c.stepsInOrder names packages).forM performStep).on ⟨t, c.freshMemo, []⟩ with
  | mk r w =>
    cases r with
    | error e => rw [Change.on_bind_of_error hrun]
    | ok _ =>
      rw [Change.on_bind_of_ok hrun]
      rfl

/-- A directory that holds a cache for a list of packages, and files only. -/
structure Holds (c : NamesCache) (t : FileTree) (packages : List QualifiedName) : Prop where
  check : c.check t = .ok ()
  nodup : ∀ names, t.list c.location = .ok names → names.Nodup
  files : ∀ names, t.list c.location = .ok names → ∀ name ∈ names,
    IsName name ∧ t.isFile (Path.join c.location name) = true
  stored : ∀ p : PackageName, p.text ≠ versionFileName → c.stored t p = categoriesOf packages p

/-- What a reader may be told while a cache is replaced. -/
def Honest (old new : List QualifiedName) (p : PackageName)
    (answer : Option (List Category)) : Prop :=
  answer = none ∨ answer = some (categoriesOf old p) ∨ answer = some (categoriesOf new p)

/-- After any number of steps a new cache answers honestly for every package. -/
def ReadsHonestly (c : NamesCache) (t : FileTree) (names : List String)
    (old new : List QualifiedName) : Prop :=
  ∀ k p, p.text ≠ versionFileName → ∃ answer,
    ((c.lookup p).run (c.cut t names new k) c.freshMemo).1 = .ok answer ∧ Honest old new p answer

/-- One name stands before another in a list: some front of it has the first but not the second. -/
def Before (names : List String) (a b : String) : Prop :=
  ∃ k, a ∈ names.take k ∧ b ∉ names.take k

/-! ## Removing files -/

theorem append_name_prefix_iff {p : Place} {a b : String} : p ++ [a] <+: p ++ [b] ↔ a = b := by
  rw [List.prefix_append_right_inj, List.singleton_prefix_cons_iff]

/-- A file is removed; the rest of the directory stays. -/
theorem remove_run (hl : IsPlace c.location) {name : String} (hname : IsName name)
    {w : Workspace NamesMemo} (hdir : w.files.isDirectory c.location = true)
    (hfile : w.files.isFile (Path.join c.location name) = true) :
    ∃ v, (performStep (.remove (Path.join c.location name))).on w =
        (.ok (), { w with files := v }) ∧
      v.isDirectory c.location = true ∧ ∀ other, IsName other →
        v.get? (placeOf c.location ++ [other]) =
          if other = name then none else w.files.get? (placeOf c.location ++ [other]) := by
  have hplace := FileTree.placeOf_join hl.ne_empty hname
  obtain ⟨entry, hfound, hentry⟩ := FileTree.isFile_iff.1 hfile
  have hfound := ((FileTree.find_join hl.ne_empty hname hdir).1 hfound).2
  have hremove : (FileStep.remove (Path.join c.location name)).perform.on w.files =
      (.ok (), w.files.dropPlace (placeOf c.location ++ [name])) := by
    rw [← hplace]
    exact FileM.remove_of_isFile hfile
  refine ⟨_, Change.perform_of_ok hremove, FileTree.isDirectory_dropPlace hfound hentry hdir, ?_⟩
  intro other hother
  rw [FileTree.get?_dropPlace (FileTree.not_isStart_append_name hother _)]
  simp only [append_name_prefix_iff, eq_comm]

/-- Files are removed one by one. -/
theorem removes_run (hl : IsPlace c.location) (names : List String) (hnodup : names.Nodup)
    (hnames : ∀ name ∈ names, IsName name) {w : Workspace NamesMemo}
    (hdir : w.files.isDirectory c.location = true)
    (hfiles : ∀ name ∈ names, w.files.isFile (Path.join c.location name) = true) :
    ∃ u, ((names.map fun name => FileStep.remove (Path.join c.location name)).forM
        performStep).on w = (.ok (), { w with files := u }) ∧
      u.isDirectory c.location = true ∧ ∀ name, IsName name →
        u.get? (placeOf c.location ++ [name]) =
          if name ∈ names then none else w.files.get? (placeOf c.location ++ [name]) := by
  induction names generalizing w with
  | nil => exact ⟨w.files, rfl, hdir, fun name _ => by simp⟩
  | cons first names ih =>
    obtain ⟨hfirst, hnodup⟩ := List.nodup_cons.1 hnodup
    obtain ⟨v, hv, hdirv, hget⟩ := remove_run hl (hnames first List.mem_cons_self) hdir
      (hfiles first List.mem_cons_self)
    have hfilesv : ∀ name ∈ names, v.isFile (Path.join c.location name) = true := by
      intro name hmem
      have hn := hnames name (List.mem_cons_of_mem _ hmem)
      have hne : name ≠ first := by
        rintro rfl
        exact hfirst hmem
      obtain ⟨old, hold, holdFile⟩ :=
        FileTree.isFile_iff.1 (hfiles name (List.mem_cons_of_mem _ hmem))
      rw [FileTree.find_join hl.ne_empty hn hdir] at hold
      refine FileTree.isFile_iff.2 ⟨old, ?_, holdFile⟩
      rw [FileTree.find_join hl.ne_empty hn hdirv, hget name hn, if_neg hne]
      exact hold
    obtain ⟨u, hu, hdiru, hrest⟩ := ih hnodup (fun n hn => hnames n (List.mem_cons_of_mem _ hn))
      (w := { w with files := v }) hdirv hfilesv
    refine ⟨u, (Change.on_bind_of_ok hv _).trans hu, hdiru, fun name hn => ?_⟩
    rw [hrest name hn, hget name hn]
    by_cases hne : name = first
    · simp [hne]
    · simp [hne]

/-! ## Writing files -/

/-- What is at a name after files are written one by one. -/
def written (files : List (String × String)) (name : String) (start : Option FileEntry) :
    Option FileEntry :=
  files.foldl (fun entry f => if f.1 = name then some (.text f.2) else entry) start

theorem written_of_notMem {files : List (String × String)} {name : String}
    (h : name ∉ files.map Prod.fst) (start : Option FileEntry) :
    written files name start = start := by
  induction files generalizing start with
  | nil => rfl
  | cons f files ih =>
    rw [List.map_cons, List.mem_cons, not_or] at h
    rw [written, List.foldl_cons, if_neg (Ne.symm h.1)]
    exact ih h.2 start

theorem written_append (before after : List (String × String)) (name : String)
    (start : Option FileEntry) :
    written (before ++ after) name start = written after name (written before name start) :=
  List.foldl_append

theorem written_of_mem {files : List (String × String)} (hnodup : (files.map Prod.fst).Nodup)
    {name content : String} (h : (name, content) ∈ files) (start : Option FileEntry) :
    written files name start = some (.text content) := by
  obtain ⟨before, after, rfl⟩ := List.append_of_mem h
  rw [List.map_append, List.map_cons, List.nodup_append, List.nodup_cons] at hnodup
  have hlast := written_of_notMem hnodup.2.1.1 (some (.text content))
  rw [written_append, written, List.foldl_cons, if_pos rfl]
  exact hlast

/-- A file is written, unless its name is too long; the rest of the directory stays. -/
theorem write_run (hl : IsPlace c.location) {name : String} (hname : IsName name)
    (content : String) {w : Workspace NamesMemo}
    (hdir : w.files.isDirectory c.location = true)
    (hfile : w.files.get? (placeOf c.location ++ [name]) ≠ some .directory) :
    ∃ v ws, (performStep (.write (Path.join c.location name) content)).on w =
        (.ok (), ⟨v, w.memo, ws⟩) ∧
      v.isDirectory c.location = true ∧ ∀ other,
        v.get? (placeOf c.location ++ [other]) =
          if Fits c.location name ∧ name = other then some (.text content)
          else w.files.get? (placeOf c.location ++ [other]) := by
  have hstart := FileTree.not_isStart_append_name hname (placeOf c.location)
  have hrun : ∃ ws, (performStep (.write (Path.join c.location name) content)).on w = (.ok (),
      ⟨((FileM.writeEntry (Path.join c.location name) (.text content)).on w.files).2,
        w.memo, ws⟩) := by
    show ∃ ws, (Change.performLoosely (.write (Path.join c.location name) content)).on w = _
    rw [Change.on_performLoosely]
    exact ⟨_, rfl⟩
  obtain ⟨ws, hrun⟩ := hrun
  by_cases hfits : Fits c.location name
  · rw [FileM.writeEntry_join hl.ne_empty hname _
      (FileTree.locate_join hl.ne_empty hname hdir hfits) hfile] at hrun
    refine ⟨_, ws, hrun, FileTree.isDirectory_put hstart hfile _ hdir, fun other => ?_⟩
    rw [FileTree.get?_put hstart]
    by_cases he : name = other
    · subst he
      simp [hfits]
    · simp [he, Ne.symm he]
  · rcases FileM.writeEntry_on (Path.join c.location name) (.text content) w.files with
      ⟨-, hlocate, -⟩ | ⟨e, he⟩
    · obtain ⟨-, -, -, hlen, hpath, -⟩ := (FileTree.locate_join_iff hl.ne_empty hname).1 hlocate
      exact absurd ⟨hlen, hpath⟩ hfits
    · rw [he] at hrun
      refine ⟨_, ws, hrun, hdir, fun other => ?_⟩
      rw [if_neg fun h => hfits h.1]

/-- Files are written one by one. -/
theorem writes_run (hl : IsPlace c.location) (files : List (String × String))
    (hnames : ∀ f ∈ files, IsName f.1) {w : Workspace NamesMemo}
    (hdir : w.files.isDirectory c.location = true)
    (hfiles : ∀ name, IsName name →
      w.files.get? (placeOf c.location ++ [name]) ≠ some .directory) :
    ∃ u ws, ((files.map fun f => FileStep.write (Path.join c.location f.1) f.2).forM
        performStep).on w = (.ok (), ⟨u, w.memo, ws⟩) ∧
      u.isDirectory c.location = true ∧ ∀ name, IsName name →
        u.get? (placeOf c.location ++ [name]) =
          if Fits c.location name then
            written files name (w.files.get? (placeOf c.location ++ [name]))
          else w.files.get? (placeOf c.location ++ [name]) := by
  induction files generalizing w with
  | nil => exact ⟨w.files, w.warnings, rfl, hdir, fun name _ => by simp [written]⟩
  | cons f files ih =>
    have hname := hnames f List.mem_cons_self
    obtain ⟨v, ws, hv, hdirv, hget⟩ := write_run hl hname f.2 hdir (hfiles f.1 hname)
    have hfilesv : ∀ name, IsName name →
        v.get? (placeOf c.location ++ [name]) ≠ some .directory := by
      intro name hn
      rw [hget name]
      split
      · nofun
      · exact hfiles name hn
    obtain ⟨u, ws', hu, hdiru, hrest⟩ := ih
      (fun g hg => hnames g (List.mem_cons_of_mem _ hg)) (w := ⟨v, w.memo, ws⟩) hdirv hfilesv
    refine ⟨u, ws', (Change.on_bind_of_ok hv _).trans hu, hdiru, fun name hn => ?_⟩
    rw [hrest name hn, hget name]
    by_cases hfits : Fits c.location name
    · rw [if_pos hfits, if_pos hfits]
      by_cases he : f.1 = name
      · subst he
        simp [hfits, written]
      · simp [he, written]
    · rw [if_neg hfits, if_neg hfits, if_neg]
      rintro ⟨hf, rfl⟩
      exact hfits hf

/-! ## The directory at a cut -/

/-- All files that a regeneration writes, in order. -/
def filesOf (c : NamesCache) (packages : List QualifiedName) : List (String × String) :=
  fragments packages ++ [(versionFileName, c.versionContent)]

theorem writeSteps_eq (packages : List QualifiedName) : c.writeSteps packages =
    (c.filesOf packages).map fun f => .write (Path.join c.location f.1) f.2 := by
  unfold writeSteps filesOf
  rw [List.map_append]
  rfl

theorem forM_append_on {first second : List FileStep} {w w' : Workspace NamesMemo}
    (h : (first.forM performStep).on w = (.ok (), w')) :
    ((first ++ second).forM performStep).on w = (second.forM performStep).on w' := by
  have happend : (first ++ second).forM performStep =
      first.forM performStep >>= fun _ => second.forM performStep := List.forM_append
  rw [happend, Change.on_bind_of_ok h]

theorem take_stepsInOrder (names : List String) (packages : List QualifiedName) (k : Nat) :
    (c.stepsInOrder names packages).take k =
      (names.take k).map (fun name => .remove (Path.join c.location name)) ++
        if k ≤ names.length then [] else .makeDirs c.location ::
          ((c.filesOf packages).take (k - (names.length + 1))).map fun f =>
            .write (Path.join c.location f.1) f.2 := by
  unfold stepsInOrder
  rw [List.take_append, List.length_map, List.map_take, writeSteps_eq]
  congr 1
  by_cases hk : k ≤ names.length
  · rw [if_pos hk, Nat.sub_eq_zero_of_le hk, List.take_zero]
  · obtain ⟨m, hm⟩ : ∃ m, k - names.length = m + 1 := ⟨k - names.length - 1, by omega⟩
    rw [if_neg hk, hm, List.take_succ_cons, show k - (names.length + 1) = m by omega,
      List.map_take]

theorem isName_of_mem_filesOf {packages : List QualifiedName} {f : String × String}
    (h : f ∈ c.filesOf packages) : IsName f.1 := by
  rcases List.mem_append.1 h with h | h
  · exact isName_of_mem_fragments h
  · rw [List.mem_singleton.1 h]
    exact isName_versionFileName

/-- At a cut some files are removed, and some are written after that. -/
theorem get?_cut (hl : IsPlace c.location) {old : List QualifiedName} (h : Holds c t old)
    {listed names : List String} (hlisted : t.list c.location = .ok listed)
    (hperm : names.Perm listed) (new : List QualifiedName) (k : Nat) :
    (c.cut t names new k).isDirectory c.location = true ∧ ∀ name, IsName name →
      (c.cut t names new k).get? (placeOf c.location ++ [name]) =
        let left := if name ∈ names.take k then none
          else t.get? (placeOf c.location ++ [name])
        if Fits c.location name then
          written ((c.filesOf new).take (k - (names.length + 1))) name left
        else left := by
  have hfiles : ∀ name ∈ names.take k,
      IsName name ∧ t.isFile (Path.join c.location name) = true := fun name hname =>
    h.files listed hlisted name (hperm.mem_iff.1 (List.mem_of_mem_take hname))
  obtain ⟨u, hu, hdiru, hget⟩ := removes_run hl (names.take k)
    ((hperm.nodup_iff.2 (h.nodup listed hlisted)).sublist (List.take_sublist k names))
    (fun name hname => (hfiles name hname).1) (w := ⟨t, c.freshMemo, []⟩)
    (isDirectory_of_check h.check) (fun name hname => (hfiles name hname).2)
  unfold cut
  rw [take_stepsInOrder, forM_append_on hu]
  by_cases hk : k ≤ names.length
  · rw [if_pos hk, Nat.sub_eq_zero_of_le (by omega)]
    refine ⟨hdiru, fun name hname => ?_⟩
    simp only [List.take_zero, written, List.foldl_nil, ite_self]
    exact hget name hname
  · have hall : names.take k = names := List.take_of_length_le (by omega)
    have hnothing : ∀ name, IsName name → u.get? (placeOf c.location ++ [name]) = none := by
      intro name hname
      rw [hget name hname, hall]
      by_cases hmem : name ∈ names
      · rw [if_pos hmem]
      · rw [if_neg hmem]
        cases hentry : t.get? (placeOf c.location ++ [name]) with
        | none => rfl
        | some entry =>
          exact absurd (hperm.mem_iff.2 (FileTree.mem_of_get?_append_name hlisted hname hentry))
            hmem
    have hmade : (performStep (.makeDirs c.location)).on ⟨u, c.freshMemo, []⟩ =
        (.ok (), ⟨u, c.freshMemo, []⟩) := by
      have hdirs : (FileStep.makeDirs c.location).perform.on u = (.ok (), u) :=
        FileM.makeDirs_of_isDirectory hl.ne_empty hl.slash hdiru
      exact Change.perform_of_ok hdirs
    obtain ⟨v, ws, hv, hdirv, hgetv⟩ := writes_run hl
      ((c.filesOf new).take (k - (names.length + 1)))
      (fun f hf => isName_of_mem_filesOf (List.mem_of_mem_take hf)) (w := ⟨u, c.freshMemo, []⟩)
      hdiru (fun name hname => by rw [hnothing name hname]; nofun)
    rw [if_neg hk, show ((FileStep.makeDirs c.location :: _).forM performStep).on _ = _ from
      (Change.on_bind_of_ok hmade _).trans hv]
    refine ⟨hdirv, fun name hname => ?_⟩
    rw [hgetv name hname]
    simp only [hget name hname]

/-! ## What a reader is told -/

/-- The names of the fragments in the order in which they are written. -/
def fragmentNames (packages : List QualifiedName) : List String :=
  (fragments packages).map Prod.fst

theorem written_take_fragments (packages : List QualifiedName) (m : Nat) (name : String)
    (start : Option FileEntry) :
    written ((fragments packages).take m) name start =
      if name ∈ (fragmentNames packages).take m then
        some (.text (contentOf (categoriesNamed packages name)))
      else start := by
  have hnames : (fragmentNames packages).take m = ((fragments packages).take m).map Prod.fst :=
    List.map_take.symm
  rw [hnames]
  by_cases hmem : name ∈ ((fragments packages).take m).map Prod.fst
  · rw [if_pos hmem]
    obtain ⟨⟨key, content⟩, hf, rfl⟩ := List.mem_map.1 hmem
    have hcontent := (mem_fragments_iff.1 (List.mem_of_mem_take hf)).2
    have hnodup : (((fragments packages).take m).map Prod.fst).Nodup := by
      rw [← hnames]
      exact (nodup_fragments packages).sublist (List.take_sublist _ _)
    rw [written_of_mem hnodup hf, hcontent]
  · rw [if_neg hmem, written_of_notMem hmem]

theorem written_take_filesOf (packages : List QualifiedName) (m : Nat) {name : String}
    (hname : name ≠ versionFileName) (start : Option FileEntry) :
    written ((c.filesOf packages).take m) name start =
      if name ∈ (fragmentNames packages).take m then
        some (.text (contentOf (categoriesNamed packages name)))
      else start := by
  unfold filesOf
  rw [List.take_append, written_append]
  have hversion : name ∉
      ([(versionFileName, c.versionContent)].take (m - (fragments packages).length)).map
        Prod.fst := by
    intro hmem
    rw [List.map_take] at hmem
    exact hname (List.mem_singleton.1 (List.mem_of_mem_take hmem))
  rw [written_of_notMem hversion, written_take_fragments]

theorem exists_of_stored_ne_nil (hl : IsPlace c.location)
    (hdir : t.isDirectory c.location = true) {p : PackageName} (h : c.stored t p ≠ []) :
    Fits c.location p.text ∧
      ∃ content, t.get? (placeOf c.location ++ [p.text]) = some (.text content) := by
  cases hread : t.readText (c.fragmentFile p.text) with
  | ok content =>
    obtain ⟨hfits, hentry⟩ := (readText_fragmentFile hl.ne_empty hdir p.isName).1 hread
    exact ⟨hfits, content, hentry⟩
  | error e =>
    refine absurd (stored_of_not_readText fun content hcontent => ?_) h
    rw [hread] at hcontent
    cases hcontent

theorem mem_fragmentNames_iff {packages : List QualifiedName} {p : PackageName} :
    p.text ∈ fragmentNames packages ↔ categoriesOf packages p ≠ [] := by
  unfold fragmentNames
  rw [mem_keys_fragments_iff, Ne, Ne, categoriesOf_eq_nil_iff]

theorem length_le_of_notMem_take {packages : List QualifiedName} {p : PackageName}
    (hp : categoriesOf packages p ≠ []) {m : Nat} (h : p.text ∉ (fragmentNames packages).take m) :
    m ≤ (fragments packages).length := by
  by_contra hgt
  have hlength : (fragmentNames packages).length = (fragments packages).length :=
    List.length_map _
  rw [List.take_of_length_le (by omega)] at h
  exact h (mem_fragmentNames_iff.2 hp)

section
variable (hl : IsPlace c.location) {old : List QualifiedName} (h : Holds c t old)
  {listed names : List String} (hlisted : t.list c.location = .ok listed)
  (hperm : names.Perm listed) (new : List QualifiedName)
include hl h hlisted hperm

/-- At a cut a package has its new categories if its fragment is written, its old ones if it is not
yet removed, and none in between. -/
theorem stored_cut (k : Nat) {p : PackageName} (hp : p.text ≠ versionFileName) :
    c.stored (c.cut t names new k) p =
      if Fits c.location p.text ∧
          p.text ∈ (fragmentNames new).take (k - (names.length + 1)) then
        categoriesOf new p
      else if p.text ∈ names.take k then [] else categoriesOf old p := by
  obtain ⟨hdir, hget⟩ := get?_cut hl h hlisted hperm new k
  have hentry := hget p.text p.isName
  simp only [written_take_filesOf new _ hp] at hentry
  by_cases hwritten : Fits c.location p.text ∧
      p.text ∈ (fragmentNames new).take (k - (names.length + 1))
  · rw [if_pos hwritten]
    rw [if_pos hwritten.1, if_pos hwritten.2] at hentry
    rw [stored_of_readText ((readText_fragmentFile hl.ne_empty hdir p.isName).2
      ⟨hwritten.1, hentry⟩), categoriesIn_contentOf, categoriesOf_eq]
  · have hleft : (c.cut t names new k).get? (placeOf c.location ++ [p.text]) =
        if p.text ∈ names.take k then none else t.get? (placeOf c.location ++ [p.text]) := by
      rw [hentry]
      by_cases hfits : Fits c.location p.text
      · rw [if_pos hfits, if_neg fun hmem => hwritten ⟨hfits, hmem⟩]
      · rw [if_neg hfits]
    rw [if_neg hwritten]
    by_cases hmem : p.text ∈ names.take k
    · rw [if_pos hmem] at hleft ⊢
      by_contra hne
      obtain ⟨-, content, hcontent⟩ := exists_of_stored_ne_nil hl hdir hne
      rw [hleft] at hcontent
      cases hcontent
    · rw [if_neg hmem] at hleft ⊢
      rw [stored_congr hl (isDirectory_of_check h.check) hdir hleft, h.stored p hp]

/-- The version file is among the listed names. -/
theorem versionFileName_mem : Fits c.location versionFileName ∧ versionFileName ∈ names := by
  have hdir := isDirectory_of_check h.check
  obtain ⟨content, hread, -⟩ := (check_eq_ok_iff hdir).1 h.check
  obtain ⟨hfits, hentry⟩ :=
    (readText_fragmentFile hl.ne_empty hdir isName_versionFileName).1 hread
  exact ⟨hfits, hperm.mem_iff.2
    (FileTree.mem_of_get?_append_name hlisted isName_versionFileName hentry)⟩

/-- The old version file is there until it is removed. -/
theorem check_cut_of_notMem {k : Nat} (hk : versionFileName ∉ names.take k) :
    c.check (c.cut t names new k) = .ok () := by
  obtain ⟨hdir, hget⟩ := get?_cut hl h hlisted hperm new k
  obtain ⟨hfits, hmem⟩ := versionFileName_mem hl h hlisted hperm
  have hlt : k < names.length := by
    by_contra hge
    rw [List.take_of_length_le (by omega)] at hk
    exact hk hmem
  obtain ⟨content, hread, hcheck⟩ := (check_eq_ok_iff (isDirectory_of_check h.check)).1 h.check
  refine (check_eq_ok_iff hdir).2 ⟨content, ?_, hcheck⟩
  rw [versionFile, ← fragmentFile, readText_fragmentFile hl.ne_empty hdir isName_versionFileName]
  refine ⟨hfits, ?_⟩
  have hentry := hget versionFileName isName_versionFileName
  rw [Nat.sub_eq_zero_of_le (by omega)] at hentry
  simp only [List.take_zero, written, List.foldl_nil, ite_self, if_neg hk] at hentry
  rw [hentry]
  exact ((readText_fragmentFile hl.ne_empty (isDirectory_of_check h.check)
    isName_versionFileName).1 hread).2

/-- After it is removed, only a fragment of its name can be taken for it, until it is written. -/
theorem check_cut_iff {k : Nat} (hk : versionFileName ∈ names.take k)
    (hm : k - (names.length + 1) ≤ (fragments new).length) :
    c.check (c.cut t names new k) = .ok () ↔
      versionFileName ∈ (fragmentNames new).take (k - (names.length + 1)) ∧
        c.checkVersion (contentOf (categoriesNamed new versionFileName)) = .ok () := by
  obtain ⟨hdir, hget⟩ := get?_cut hl h hlisted hperm new k
  obtain ⟨hfits, -⟩ := versionFileName_mem hl h hlisted hperm
  have hentry := hget versionFileName isName_versionFileName
  rw [filesOf, List.take_append_of_le_length hm] at hentry
  simp only [written_take_fragments, if_pos hk, if_pos hfits] at hentry
  rw [check_eq_ok_iff hdir]
  have hread : ∀ content, (c.cut t names new k).readText c.versionFile = .ok content ↔
      versionFileName ∈ (fragmentNames new).take (k - (names.length + 1)) ∧
        content = contentOf (categoriesNamed new versionFileName) := by
    intro content
    rw [versionFile, ← fragmentFile,
      readText_fragmentFile hl.ne_empty hdir isName_versionFileName, hentry]
    by_cases hmem :
        versionFileName ∈ (fragmentNames new).take (k - (names.length + 1))
    · rw [if_pos hmem]
      simp [hmem, hfits, eq_comm]
    · rw [if_neg hmem]
      simp [hmem]
  constructor
  · rintro ⟨content, hcontent, hcheck⟩
    obtain ⟨hmem, rfl⟩ := (hread content).1 hcontent
    exact ⟨hmem, hcheck⟩
  · rintro ⟨hmem, hcheck⟩
    exact ⟨_, (hread _).2 ⟨hmem, rfl⟩, hcheck⟩

theorem fits_of_categoriesOf_ne_nil {p : PackageName} (hp : p.text ≠ versionFileName)
    (hold : categoriesOf old p ≠ []) : Fits c.location p.text ∧ p.text ∈ names := by
  rw [← h.stored p hp] at hold
  obtain ⟨hfits, content, hentry⟩ :=
    exists_of_stored_ne_nil hl (isDirectory_of_check h.check) hold
  exact ⟨hfits, hperm.mem_iff.2 (FileTree.mem_of_get?_append_name hlisted p.isName hentry)⟩

/-- A package that both catalogues have is told to be nowhere only while its fragment is away. -/
theorem answerIn_cut_cases (k : Nat) {p : PackageName} (hp : p.text ≠ versionFileName) :
    Honest old new p (c.answerIn (c.cut t names new k) p) ∨
      (c.check (c.cut t names new k) = .ok () ∧ categoriesOf old p ≠ [] ∧
        categoriesOf new p ≠ [] ∧ p.text ∈ names.take k ∧
        p.text ∉ (fragmentNames new).take (k - (names.length + 1))) := by
  cases hcheck : c.check (c.cut t names new k) with
  | error problem => exact Or.inl (Or.inl (answerIn_of_check_error hcheck p))
  | ok _ =>
    cases hdisabled : isDisabled c.location with
    | true =>
      refine Or.inl (Or.inl ?_)
      unfold answerIn
      rw [hdisabled, if_pos rfl]
    | false =>
      have hstored := stored_cut hl h hlisted hperm new k hp
      rw [answerIn_of_check hdisabled hcheck, hstored]
      by_cases hold : categoriesOf old p = []
      · left
        rw [hold]
        split
        · exact Or.inr (Or.inr rfl)
        · exact Or.inr (Or.inl (by rw [ite_self, hold]))
      · obtain ⟨hfits, -⟩ := fits_of_categoriesOf_ne_nil hl h hlisted hperm hp hold
        by_cases hwritten : p.text ∈ (fragmentNames new).take (k - (names.length + 1))
        · rw [if_pos ⟨hfits, hwritten⟩]
          exact Or.inl (Or.inr (Or.inr rfl))
        · rw [if_neg fun h => hwritten h.2]
          by_cases hremoved : p.text ∈ names.take k
          · rw [if_pos hremoved]
            by_cases hnew : categoriesOf new p = []
            · exact Or.inl (Or.inr (Or.inr (by rw [hnew])))
            · exact Or.inr ⟨rfl, hold, hnew, hremoved, hwritten⟩
          · rw [if_neg hremoved]
            exact Or.inl (Or.inr (Or.inl rfl))

variable {new}

/-- A fragment that is removed and not yet written betrays a cache that passes its check. -/
theorem ReadsHonestly.mem_take (hhonest : ReadsHonestly c t names old new)
    (henabled : isDisabled c.location = false) {k : Nat} {p : PackageName}
    (hp : p.text ≠ versionFileName) (hold : categoriesOf old p ≠ [])
    (hnew : categoriesOf new p ≠ []) (hcheck : c.check (c.cut t names new k) = .ok ())
    (hremoved : p.text ∈ names.take k) :
    p.text ∈ (fragmentNames new).take (k - (names.length + 1)) := by
  by_contra hwritten
  obtain ⟨answer, hanswer, htold⟩ := hhonest k p hp
  rw [lookup_run sound_freshMemo, answerIn_of_check henabled hcheck,
    stored_cut hl h hlisted hperm new k hp, if_neg fun h => hwritten h.2, if_pos hremoved] at hanswer
  obtain rfl := Except.ok.inj hanswer
  rcases htold with hnone | hsome | hsome
  · cases hnone
  · exact hold (Option.some.inj hsome).symm
  · exact hnew (Option.some.inj hsome).symm

/-- Removing a fragment before the version file is noticed. -/
theorem ReadsHonestly.not_before (hhonest : ReadsHonestly c t names old new)
    (henabled : isDisabled c.location = false) {p : PackageName}
    (hp : p.text ≠ versionFileName) (hold : categoriesOf old p ≠ [])
    (hnew : categoriesOf new p ≠ []) : ¬ Before names p.text versionFileName := by
  rintro ⟨k, hremoved, hkept⟩
  obtain ⟨-, hversion⟩ := versionFileName_mem hl h hlisted hperm
  have hcheck := check_cut_of_notMem hl h hlisted hperm new hkept
  have hwritten := hhonest.mem_take hl h hlisted hperm henabled hp hold hnew hcheck hremoved
  have hlt : k < names.length := by
    by_contra hge
    rw [List.take_of_length_le (by omega)] at hkept
    exact hkept hversion
  rw [Nat.sub_eq_zero_of_le (by omega)] at hwritten
  cases hwritten

/-- Writing a fragment after one that passes for the version file is noticed. -/
theorem ReadsHonestly.not_before_of_passes (hhonest : ReadsHonestly c t names old new)
    (henabled : isDisabled c.location = false)
    (hpasses : c.checkVersion (contentOf (categoriesNamed new versionFileName)) = .ok ())
    {p : PackageName} (hp : p.text ≠ versionFileName) (hold : categoriesOf old p ≠ [])
    (hnew : categoriesOf new p ≠ []) : ¬ Before (fragmentNames new) versionFileName p.text := by
  rintro ⟨m, hforged, hwritten⟩
  obtain ⟨-, hversion⟩ := versionFileName_mem hl h hlisted hperm
  obtain ⟨-, hlistedp⟩ := fits_of_categoriesOf_ne_nil hl h hlisted hperm hp hold
  have hm := length_le_of_notMem_take hnew hwritten
  have hk : names.length + 1 + m - (names.length + 1) = m := by omega
  have hall : names.take (names.length + 1 + m) = names := List.take_of_length_le (by omega)
  have hcheck := (check_cut_iff hl h hlisted hperm new (k := names.length + 1 + m)
    (by rw [hall]; exact hversion) (by rw [hk]; exact hm)).2
    ⟨by rw [hk]; exact hforged, hpasses⟩
  have hmem := hhonest.mem_take hl h hlisted hperm henabled hp hold hnew hcheck
    (by rw [hall]; exact hlistedp)
  rw [hk] at hmem
  exact hwritten hmem

end

/-- While a cache is replaced a reader is told the old categories of a package, the new ones, or
that the cache cannot be used, if and only if the fragments of the packages that both catalogues
have are not removed before the version file, and not written after a fragment that passes for it. -/
theorem readsHonestly_iff {base : String} {name : RepositoryName} {old new : List QualifiedName}
    {listed names : List String}
    (hlocation : isDisabled (ofBase base name.text).location = false)
    (hholds : Holds (ofBase base name.text) t old)
    (hlisted : t.list (ofBase base name.text).location = .ok listed)
    (hperm : names.Perm listed) :
    ReadsHonestly (ofBase base name.text) t names old new ↔
      ∀ p : PackageName, p.text ≠ versionFileName → categoriesOf old p ≠ [] →
        categoriesOf new p ≠ [] →
        ¬ Before names p.text versionFileName ∧
          ((ofBase base name.text).checkVersion (contentOf (categoriesNamed new versionFileName)) =
              .ok () →
            ¬ Before (fragmentNames new) versionFileName p.text) := by
  have hl := isPlace_ofBase hlocation
  constructor
  · intro hhonest p hp hold hnew
    exact ⟨hhonest.not_before hl hholds hlisted hperm hlocation hp hold hnew, fun hpasses =>
      hhonest.not_before_of_passes hl hholds hlisted hperm hlocation hpasses hp hold hnew⟩
  · intro hcond k p hp
    refine ⟨_, lookup_run sound_freshMemo p, ?_⟩
    rcases answerIn_cut_cases hl hholds hlisted hperm new k hp with
      hhonest | ⟨hcheck, hold, hnew, hremoved, hwritten⟩
    · exact hhonest
    · obtain ⟨hbefore, hforged⟩ := hcond p hp hold hnew
      have hgone : versionFileName ∈ names.take k := by
        by_contra hkept
        exact hbefore ⟨k, hremoved, hkept⟩
      obtain ⟨hmem, hpasses⟩ := (check_cut_iff hl hholds hlisted hperm new hgone
        (length_le_of_notMem_take hnew hwritten)).1 hcheck
      exact absurd ⟨_, hmem, hwritten⟩ (hforged hpasses)

/-- The listing of the regenerated cache `/n/test`, up to its order. -/
theorem list_regenerated : ∃ listed,
    (regenerated "/n").files.list (ofBase "/n" testName.text).location = .ok listed ∧
      ["bar", "_VERSION_"].Perm listed := by
  have hnames : (regenerated "/n").files.entries.keys.filterMap
      (FileTree.nameIn? ["n", "test"]) = ["bar", "_VERSION_"] := by decide +kernel
  refine ⟨_, FileTree.list_eq_ok_iff.2 ⟨["n", "test"], by decide +kernel, by decide +kernel, rfl⟩, ?_⟩
  unfold FileTree.namesAt
  rw [hnames]
  exact (List.mergeSort_perm _ _).symm

/-- The regenerated cache holds the catalogue that it was made for. -/
theorem holds_regenerated :
    Holds (ofBase "/n" testName.text) (regenerated "/n").files testCatalog := by
  have hlocation : isDisabled (ofBase "/n" testName.text).location = false := by decide +kernel
  have hl := isPlace_ofBase hlocation
  obtain ⟨listed, hlist, hperm⟩ := list_regenerated
  have hrun : ((ofBase "/n" testName.text).regenerate testCatalog).on oldFragment =
      (.ok (), regenerated "/n") := Prod.ext (by decide +kernel) rfl
  obtain ⟨-, steps, hsteps, hperformed⟩ := regenerate_on hlocation hrun (by decide +kernel)
  have hwritten := written_of_performed hl hsteps hperformed
  refine ⟨by decide +kernel, fun names hnames => ?_, fun names hnames name hname => ?_,
    fun p hp => ?_⟩
  · obtain rfl := Except.ok.inj (hlist.symm.trans hnames)
    exact hperm.nodup_iff.1 (by decide)
  · obtain rfl := Except.ok.inj (hlist.symm.trans hnames)
    have hcases := hperm.mem_iff.2 hname
    rw [List.mem_cons, List.mem_singleton] at hcases
    rcases hcases with rfl | rfl
    · exact ⟨(⟨"bar", by decide⟩ : PackageName).isName, by decide +kernel⟩
    · exact ⟨isName_versionFileName, by decide +kernel⟩
  · by_cases hnil : categoriesOf testCatalog p = []
    · rw [hnil, hwritten.stored_eq_nil_iff hl.ne_empty hp hnil]
      intro hoverlooked
      have hdirectory : oldFragment.files.isDirectory (ofBase "/n" testName.text).location = true := by
        decide +kernel
      obtain ⟨names, hnames⟩ := FileTree.list_of_isDirectory hdirectory
      cases hnames.symm.trans hoverlooked.missing
    · exact hwritten.stored_of_mem hl.ne_empty hp hnil

theorem readsHonestly_iff_regenerated :
    ReadsHonestly (ofBase "/n" testName.text) (regenerated "/n").files ["bar", "_VERSION_"]
        testCatalog testCatalog ↔
      ∀ p : PackageName, p.text ≠ versionFileName → categoriesOf testCatalog p ≠ [] →
        categoriesOf testCatalog p ≠ [] →
        ¬ Before ["bar", "_VERSION_"] p.text versionFileName ∧
          ((ofBase "/n" testName.text).checkVersion
              (contentOf (categoriesNamed testCatalog versionFileName)) = .ok () →
            ¬ Before (fragmentNames testCatalog) versionFileName p.text) := by
  obtain ⟨listed, hlist, hperm⟩ := list_regenerated
  exact readsHonestly_iff (by decide +kernel) holds_regenerated hlist hperm

/-- A catalogue with a package `_VERSION_` whose fragment passes for a version file. -/
def forgedCatalog : List QualifiedName :=
  (versionCategories testName).map (fun c => ⟨c, ⟨versionFileName, by decide⟩⟩) ++ testCatalog

theorem fragmentNames_forgedCatalog : fragmentNames forgedCatalog = ["_VERSION_", "bar"] := by
  unfold fragmentNames fragments
  rw [List.mergeSort_of_pairwise (by decide +kernel)]
  decide +kernel

/-- A reader is told that no category has `bar` when its fragment is removed before the version
file, and also when a forged version file is written before it. -/
theorem not_readsHonestly_regenerated :
    ¬ ReadsHonestly (ofBase "/n" testName.text) (regenerated "/n").files ["bar", "_VERSION_"]
        testCatalog testCatalog ∧
      ¬ ReadsHonestly (ofBase "/n" testName.text) (regenerated "/n").files ["_VERSION_", "bar"]
        testCatalog forgedCatalog := by
  have hlocation : isDisabled (ofBase "/n" testName.text).location = false := by decide +kernel
  have hl := isPlace_ofBase hlocation
  obtain ⟨listed, hlist, hperm⟩ := list_regenerated
  constructor
  · intro hhonest
    exact hhonest.not_before hl holds_regenerated hlist hperm hlocation
      (p := ⟨"bar", by decide⟩) (by decide) (by decide +kernel) (by decide +kernel)
      ⟨1, by decide, by decide⟩
  · intro hhonest
    have hpasses : (ofBase "/n" testName.text).checkVersion
        (contentOf (categoriesNamed forgedCatalog versionFileName)) = .ok () := by decide +kernel
    refine hhonest.not_before_of_passes hl holds_regenerated hlist
      ((List.Perm.swap _ _ _).trans hperm) hlocation hpasses (p := ⟨"bar", by decide⟩) (by decide)
      (by decide +kernel) (by decide +kernel) ⟨1, ?_⟩
    rw [fragmentNames_forgedCatalog]
    decide

end PackageCatalog.NamesCache
