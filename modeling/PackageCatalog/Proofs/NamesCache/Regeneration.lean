import PackageCatalog.Proofs.Changes
import PackageCatalog.Proofs.NamesCache.Lookup

/-!
# What a regeneration writes

A regeneration that reports nothing has performed all its steps (`regenerate_on`).  They leave the
version file and one fragment for each package of the catalogue, and of the files that were there
before only those of a directory that seemed to be missing (`written_of_performed`).
-/

namespace PackageCatalog.NamesCache

open FileTree (placeOf Fits IsStart Shrinks Grows)
open FileStep (Performed)
open PackageCatalog.Path (IsName)

variable {c : NamesCache} {t u : FileTree}

/-! ## Performing steps -/

/-- No file is reported that could not be written. -/
def AllWritten (warnings : List Warning) : Prop :=
  ∀ path problem, Warning.cannotWrite path problem ∉ warnings

theorem performStep_on (step : FileStep) (w : Workspace NamesMemo) :
    ∃ r extra, (performStep step).on w =
        (r, ⟨(step.perform.on w.files).2, w.memo, w.warnings ++ extra⟩) ∧
      (r = .ok () → AllWritten extra → (step.perform.on w.files).1 = .ok ()) := by
  have hstrict : ∀ step : FileStep, ∃ r extra, (Change.perform step).on w =
      (r, ⟨(step.perform.on w.files).2, w.memo, w.warnings ++ extra⟩) ∧
        (r = .ok () → AllWritten extra → (step.perform.on w.files).1 = .ok ()) := by
    intro step
    rw [Change.on_perform]
    refine ⟨_, [], by rw [List.append_nil], fun hr _ => ?_⟩
    cases hstep : (step.perform.on w.files).1 with
    | ok _ => rfl
    | error problem =>
      rw [hstep] at hr
      cases hr
  cases step with
  | remove path => exact hstrict (.remove path)
  | makeDirs path => exact hstrict (.makeDirs path)
  | write path content =>
    show ∃ r extra, (Change.performLoosely (.write path content)).on w = _ ∧ _
    rw [Change.on_performLoosely]
    cases hstep : ((FileStep.write path content).perform.on w.files).1 with
    | ok _ => exact ⟨.ok (), [], by rw [List.append_nil], fun _ _ => rfl⟩
    | error problem =>
      exact ⟨.ok (), _, rfl, fun _ h => absurd List.mem_cons_self (h path problem)⟩

/-- Steps that are performed without a failure have all succeeded, but for the files that are
reported. -/
theorem forM_performStep (steps : List FileStep) (w : Workspace NamesMemo) :
    ∃ r files extra, (steps.forM performStep).on w =
        (r, ⟨files, w.memo, w.warnings ++ extra⟩) ∧
      (r = .ok () → AllWritten extra → Performed steps w.files files) := by
  induction steps generalizing w with
  | nil => exact ⟨.ok (), w.files, [], by rw [List.append_nil]; rfl, fun _ _ => rfl⟩
  | cons step steps ih =>
    obtain ⟨r, first, hstep, hok⟩ := performStep_on step w
    show ∃ r files extra, (performStep step >>= fun _ => steps.forM performStep).on w = _ ∧ _
    cases r with
    | error e =>
      rw [Change.on_bind_of_error hstep]
      exact ⟨.error e, _, first, rfl, nofun⟩
    | ok _ =>
      rw [Change.on_bind_of_ok hstep]
      obtain ⟨r, files, rest, hrest, hperformed⟩ := ih _
      refine ⟨r, files, first ++ rest, by rw [hrest, List.append_assoc], fun hr hall => ?_⟩
      have hfirst : AllWritten first := fun path problem hmem =>
        hall path problem (List.mem_append_left rest hmem)
      have hlast : AllWritten rest := fun path problem hmem =>
        hall path problem (List.mem_append_right first hmem)
      exact ⟨_, Prod.ext (hok rfl hfirst) rfl, hperformed hr hlast⟩

/-- A regeneration that ends well has forgotten what was looked up, and performed its steps but for
the files that it reports. -/
theorem regenerate_reports {packages : List QualifiedName} {w w' : Workspace NamesMemo}
    (hlocation : isDisabled c.location = false)
    (h : (c.regenerate packages).on w = (.ok (), w')) :
    w'.memo = c.freshMemo ∧ ∃ extra, w'.warnings = w.warnings ++ extra ∧ (AllWritten extra →
      ∃ steps, c.steps w.files packages = .ok steps ∧ Performed steps w.files w'.files) := by
  unfold regenerate at h
  rw [hlocation, if_neg Bool.false_ne_true, Change.on_bind_of_ok (Change.on_get w)] at h
  cases hsteps : c.steps w.files packages with
  | error e =>
    rw [hsteps, Change.on_bind_of_error (Change.on_lift _ w)] at h
    cases h
  | ok steps =>
    rw [hsteps, Change.on_bind_of_ok (Change.on_lift _ w)] at h
    obtain ⟨r, files, extra, hrun, hperformed⟩ := forM_performStep steps w
    cases r with
    | error e =>
      rw [Change.on_bind_of_error hrun] at h
      cases h
    | ok _ =>
      rw [Change.on_bind_of_ok hrun, Change.on_scan] at h
      cases h
      exact ⟨rfl, extra, rfl, fun hall => ⟨steps, rfl, hperformed rfl hall⟩⟩

/-- A regeneration that fails remembers what was looked up before. -/
theorem regenerate_error {packages : List QualifiedName} {w w' : Workspace NamesMemo} {e : Error}
    (h : (c.regenerate packages).on w = (.error e, w')) : w'.memo = w.memo := by
  unfold regenerate at h
  by_cases hlocation : isDisabled c.location = true
  · rw [if_pos hlocation] at h
    cases h
  · rw [if_neg hlocation, Change.on_bind_of_ok (Change.on_get w)] at h
    cases hsteps : c.steps w.files packages with
    | error e =>
      rw [hsteps, Change.on_bind_of_error (Change.on_lift _ w)] at h
      cases h
      rfl
    | ok steps =>
      rw [hsteps, Change.on_bind_of_ok (Change.on_lift _ w)] at h
      obtain ⟨r, files, extra, hrun, -⟩ := forM_performStep steps w
      cases r with
      | error e =>
        rw [Change.on_bind_of_error hrun] at h
        cases h
        rfl
      | ok _ =>
        rw [Change.on_bind_of_ok hrun, Change.on_scan] at h
        cases h

/-- A cache at the disabled location is not regenerated. -/
theorem regenerate_disabled (hlocation : isDisabled c.location = true)
    (packages : List QualifiedName) (w : Workspace NamesMemo) :
    (c.regenerate packages).on w = (.ok (), w) := by
  unfold regenerate
  rw [if_pos hlocation]
  rfl

/-- A regeneration that reports nothing has performed its steps and forgotten what was looked up. -/
theorem regenerate_on {packages : List QualifiedName} {w w' : Workspace NamesMemo}
    (hlocation : isDisabled c.location = false) (h : (c.regenerate packages).on w = (.ok (), w'))
    (hwarnings : w'.warnings = w.warnings) :
    w'.memo = c.freshMemo ∧
      ∃ steps, c.steps w.files packages = .ok steps ∧ Performed steps w.files w'.files := by
  obtain ⟨hmemo, extra, hextra, hperformed⟩ := regenerate_reports hlocation h
  rw [hwarnings] at hextra
  obtain rfl := List.append_right_eq_self.1 hextra.symm
  exact ⟨hmemo, hperformed fun _ _ => List.not_mem_nil⟩

/-! ## Fragments -/

/-- The categories of a package in the order of the list. -/
def categoriesNamed (packages : List QualifiedName) (key : String) : List Category :=
  (packages.filter fun n => n.package.text = key).map (·.category)

theorem categoriesOf_eq (packages : List QualifiedName) (p : PackageName) :
    categoriesOf packages p = Ascending.ofList (categoriesNamed packages p.text) := by
  have htext : ∀ n : QualifiedName, n.package = p ↔ n.package.text = p.text := by
    intro n
    constructor
    · rintro rfl
      rfl
    · intro h
      exact Except.ok.inj ((PackageName.parse_eq_ok_iff.2 h).symm.trans
        (PackageName.parse_eq_ok_iff.2 rfl))
  unfold categoriesOf categoriesNamed
  simp only [htext]

theorem categoriesOf_eq_nil_iff (packages : List QualifiedName) (p : PackageName) :
    categoriesOf packages p = [] ↔ categoriesNamed packages p.text = [] := by
  rw [categoriesOf_eq, List.eq_nil_iff_forall_not_mem, List.eq_nil_iff_forall_not_mem]
  simp only [Ascending.mem_ofList]

theorem get?_fragments (packages : List QualifiedName) (table : Table String String)
    (key : String) :
    (packages.foldl (fun (t : Table String String) n =>
      t.update n.package.text "" (· ++ n.category.text ++ "\n")) table).get? key =
      if categoriesNamed packages key = [] then table.get? key
      else some ((table.get? key).getD "" ++ contentOf (categoriesNamed packages key)) := by
  induction packages generalizing table with
  | nil => simp [categoriesNamed]
  | cons n packages ih =>
    rw [List.foldl_cons, ih, Table.update, Table.get?_insert]
    by_cases hkey : n.package.text = key
    · have hcons : categoriesNamed (n :: packages) key =
          n.category :: categoriesNamed packages key := by
        simp [categoriesNamed, hkey]
      rw [hcons, if_pos hkey.symm, if_neg (List.cons_ne_nil _ _), hkey, contentOf]
      by_cases hnil : categoriesNamed packages key = []
      · rw [if_pos hnil, hnil, contentOf, String.append_empty, String.append_assoc]
      · rw [if_neg hnil, Option.getD_some]
        simp only [String.append_assoc]
    · have hsame : categoriesNamed (n :: packages) key = categoriesNamed packages key := by
        simp [categoriesNamed, hkey]
      rw [hsame, if_neg (c := key = n.package.text) fun h => hkey h.symm]

theorem nodup_fragments (packages : List QualifiedName) :
    ((fragments packages).map Prod.fst).Nodup := by
  have htable : ∀ table : Table String String, table.keys.Nodup →
      (packages.foldl (fun (t : Table String String) n =>
        t.update n.package.text "" (· ++ n.category.text ++ "\n")) table).keys.Nodup := by
    induction packages with
    | nil => exact fun table h => h
    | cons n packages ih =>
      intro table h
      exact ih _ (Table.nodup_keys_insert h _ _)
  unfold fragments
  exact ((List.mergeSort_perm _ _).map Prod.fst).nodup_iff.2 (htable ∅ List.nodup_nil)

theorem mem_fragments_iff {packages : List QualifiedName} {key content : String} :
    (key, content) ∈ fragments packages ↔ categoriesNamed packages key ≠ [] ∧
      content = contentOf (categoriesNamed packages key) := by
  have hnodup := nodup_fragments packages
  unfold fragments at hnodup ⊢
  rw [((List.mergeSort_perm _ _).map Prod.fst).nodup_iff] at hnodup
  rw [(List.mergeSort_perm _ _).mem_iff, ← Table.find?_eq_some_iff hnodup]
  have hget := get?_fragments packages ∅ key
  rw [show (∅ : Table String String).get? key = none from rfl, Option.getD_none,
    String.empty_append] at hget
  rw [show Table.find? key _ = _ from hget]
  by_cases hnil : categoriesNamed packages key = []
  · simp [hnil]
  · simp [hnil, eq_comm]

theorem isName_of_mem_fragments {packages : List QualifiedName} {f : String × String}
    (h : f ∈ fragments packages) : IsName f.1 := by
  obtain ⟨hne, -⟩ := mem_fragments_iff.1 h
  obtain ⟨category, rest, hcons⟩ := List.exists_cons_of_ne_nil hne
  have hmem : category ∈ categoriesNamed packages f.1 := by
    rw [hcons]
    exact List.mem_cons_self
  obtain ⟨n, hn, -⟩ := List.mem_map.1 hmem
  rw [← of_decide_eq_true (List.mem_filter.1 hn).2]
  exact n.package.isName

theorem mem_keys_fragments_iff {packages : List QualifiedName} {key : String} :
    key ∈ (fragments packages).map Prod.fst ↔ categoriesNamed packages key ≠ [] := by
  rw [List.mem_map]
  constructor
  · rintro ⟨⟨key', content⟩, hf, rfl⟩
    exact (mem_fragments_iff.1 hf).1
  · intro h
    exact ⟨_, mem_fragments_iff.2 ⟨h, rfl⟩, rfl⟩

theorem isName_versionFileName : IsName versionFileName :=
  ⟨by decide, by decide, by decide, by decide⟩

/-! ## The files of a cache -/

/-- A path at which a directory can be made. -/
structure IsPlace (path : String) : Prop where
  ne_empty : path ≠ ""
  slash : FileM.dropEndSlashes (Path.parts path) = Path.parts path

theorem isPlace_of_isName {name : String} (h : IsName name) : IsPlace name := by
  refine ⟨h.ne_empty, ?_⟩
  have hne := h.ne_empty
  rw [Path.parts_of_isName h]
  simp [FileM.dropEndSlashes, hne]

theorem isPlace_join {base name : String} (h : IsName name) : IsPlace (Path.join base name) := by
  by_cases hbase : base = ""
  · subst hbase
    rw [Path.join_of_isName h, if_pos (by simp), String.empty_append]
    exact isPlace_of_isName h
  · exact ⟨Path.join_ne_empty h, FileM.dropEndSlashes_parts_join hbase h⟩

theorem isPlace_ofBase_of_isName {base name : String} (hname : IsName name)
    (h : isDisabled (ofBase base name).location = false) :
    IsPlace (ofBase base name).location := by
  unfold ofBase at h ⊢
  by_cases hbase : isDisabled base = true
  · rw [if_pos hbase] at h
    rw [h] at hbase
    cases hbase
  · rw [if_neg hbase]
    exact isPlace_join hname

theorem isPlace_ofBase {base : String} {name : RepositoryName}
    (h : isDisabled (ofBase base name.text).location = false) :
    IsPlace (ofBase base name.text).location :=
  isPlace_ofBase_of_isName name.isName h

section
variable {location : String} (hl : IsPlace location)
include hl

theorem write_on {name content : String} (hname : IsName name)
    (hdir : t.isDirectory location = true)
    (h : (FileM.writeText (Path.join location name) content).on t = (.ok (), u)) :
    u.isDirectory location = true ∧ Fits location name ∧
      ∀ q, u.get? q = if q = placeOf location ++ [name] then some (.text content)
        else t.get? q := by
  rcases FileM.writeEntry_on (Path.join location name) (.text content) t with
    ⟨hok, hlocate, hdir'⟩ | ⟨e, herror⟩
  · rw [FileTree.placeOf_join hl.ne_empty hname] at hok hlocate hdir'
    obtain rfl : u = _ := congrArg Prod.snd (h.symm.trans hok)
    have hplace := FileTree.not_isStart_append_name hname (placeOf location)
    obtain ⟨-, -, -, hlen, hpath, -⟩ := (FileTree.locate_join_iff hl.ne_empty hname).1 hlocate
    exact ⟨FileTree.isDirectory_put hplace hdir' _ hdir, ⟨hlen, hpath⟩, FileTree.get?_put hplace _⟩
  · rw [FileM.writeText, herror] at h
    cases h

/-- Writing files changes the files that are written. -/
theorem writes_other (files : List (String × String)) (hnames : ∀ f ∈ files, IsName f.1)
    (hdir : t.isDirectory location = true)
    (h : Performed (files.map fun f => .write (Path.join location f.1) f.2) t u) :
    u.isDirectory location = true ∧ ∀ name, name ∉ files.map Prod.fst →
      u.get? (placeOf location ++ [name]) = t.get? (placeOf location ++ [name]) := by
  induction files generalizing t with
  | nil =>
    cases h
    exact ⟨hdir, fun _ _ => rfl⟩
  | cons f files ih =>
    obtain ⟨v, hv, hrest⟩ := h
    obtain ⟨hdirv, -, hget⟩ := write_on hl (hnames f List.mem_cons_self) hdir hv
    obtain ⟨hdiru, hother⟩ :=
      ih (fun f hf => hnames f (List.mem_cons_of_mem _ hf)) hdirv hrest
    refine ⟨hdiru, fun name hname => ?_⟩
    rw [List.map_cons, List.mem_cons, not_or] at hname
    rw [hother name hname.2, hget, if_neg]
    intro he
    exact hname.1 (List.append_cancel_left he |> List.singleton_inj.1)

/-- A file that is written once has what was written. -/
theorem writes_mem {files : List (String × String)} (hnames : ∀ f ∈ files, IsName f.1)
    (hnodup : (files.map Prod.fst).Nodup) (hdir : t.isDirectory location = true)
    (h : Performed (files.map fun f => .write (Path.join location f.1) f.2) t u)
    {name content : String} (hmem : (name, content) ∈ files) :
    Fits location name ∧ u.get? (placeOf location ++ [name]) = some (.text content) := by
  obtain ⟨before, after, rfl⟩ := List.append_of_mem hmem
  rw [List.map_append, List.map_cons, FileStep.performed_append_iff] at h
  obtain ⟨v, hbefore, x, hx, hafter⟩ := h
  have hdirv := (writes_other hl before (fun f hf => hnames f (List.mem_append_left _ hf))
    hdir hbefore).1
  obtain ⟨hdirx, hfits, hget⟩ := write_on hl (hnames _ hmem) hdirv hx
  obtain ⟨-, hother⟩ := writes_other hl after (fun f hf =>
    hnames f (List.mem_append_right _ (List.mem_cons_of_mem _ hf))) hdirx hafter
  refine ⟨hfits, ?_⟩
  rw [List.map_append, List.map_cons, List.nodup_append, List.nodup_cons] at hnodup
  rw [hother name hnodup.2.1.1, hget, if_pos rfl]

theorem removes_on (names : List String)
    (h : Performed (names.map fun name => .remove (Path.join location name)) t u) :
    t.Shrinks u ∧ ∀ name ∈ names, IsName name → ∀ entry,
      u.get? (placeOf location ++ [name]) = some entry → entry = .directory := by
  induction names generalizing t with
  | nil =>
    cases h
    exact ⟨.refl _, nofun⟩
  | cons name names ih =>
    obtain ⟨v, hv, hrest⟩ := h
    obtain ⟨hshrinks, hgone⟩ := ih hrest
    have hfirst : t.Shrinks v := by
      have := FileM.remove_shrinks (Path.join location name) t
      rw [show (FileM.remove (Path.join location name)).on t = _ from hv] at this
      exact this
    refine ⟨hfirst.trans hshrinks, fun name' hmem hname' entry hentry => ?_⟩
    rcases List.mem_cons.1 hmem with rfl | hmem
    · have hplace := FileTree.placeOf_join hl.ne_empty hname'
      have hstart := FileTree.not_isStart_append_name hname' (placeOf location)
      have hv' : (FileM.remove (Path.join location name')).on t = (.ok (), v) := hv
      refine FileM.get?_remove (by rwa [hplace]) (by rw [hv']) ?_
      rw [hv', hplace]
      exact hshrinks _ _ hentry
    · exact hgone name' hmem hname' entry hentry

end

/-- After clearing, a file is left in the directory only if the directory seemed to be missing. -/
theorem clear_on (hl : IsPlace c.location) {clear : List FileStep}
    (hclear : c.clearSteps t = .ok clear) (h : Performed clear t u) {name : String}
    (hname : IsName name) (content : String) :
    u.get? (placeOf c.location ++ [name]) = some (.text content) ↔
      t.list c.location = .error .missing ∧
        t.get? (placeOf c.location ++ [name]) = some (.text content) := by
  unfold clearSteps at hclear
  cases hlist : t.list c.location with
  | ok names =>
    rw [hlist] at hclear
    cases hclear
    obtain ⟨hshrinks, hgone⟩ := removes_on hl names h
    refine iff_of_false (fun hcontent => ?_) nofun
    have hmem := FileTree.mem_of_get?_append_name hlist hname (hshrinks _ _ hcontent)
    exact nomatch hgone name hmem hname _ hcontent
  | error problem =>
    rw [hlist] at hclear
    by_cases hmissing : problem = .missing
    · subst hmissing
      cases hclear
      rw [show u = t from h]
      simp
    · refine iff_of_false (fun hcontent => ?_) fun h => hmissing (Except.error.inj h.1)
      have hfile : t.isFile c.location = true ∧ clear = [.remove c.location] := by
        cases hf : t.isFile c.location with
        | true =>
          refine ⟨rfl, ?_⟩
          cases problem with
          | missing => exact absurd rfl hmissing
          | _ => simpa [hf, eq_comm] using hclear
        | false =>
          cases problem with
          | missing => exact absurd rfl hmissing
          | _ => simp [hf] at hclear
      obtain ⟨hfile, rfl⟩ := hfile
      obtain ⟨v, hv, rfl⟩ := h
      have hv' : (FileM.remove c.location).on t = (.ok (), u) := hv
      rw [FileM.remove_of_isFile hfile] at hv'
      obtain rfl : u = _ := (congrArg Prod.snd hv').symm
      rw [FileTree.get?_dropPlace (FileTree.not_isStart_append_name hname _),
        if_pos (List.prefix_append _ _)] at hcontent
      cases hcontent

/-- What a regeneration leaves in the directory of the cache. -/
structure Written (c : NamesCache) (packages : List QualifiedName) (t u : FileTree) : Prop where
  directory : u.isDirectory c.location = true
  version : Fits c.location versionFileName ∧
    u.get? (placeOf c.location ++ [versionFileName]) = some (.text c.versionContent)
  fragment : ∀ key content, key ≠ versionFileName → (key, content) ∈ fragments packages →
    Fits c.location key ∧ u.get? (placeOf c.location ++ [key]) = some (.text content)
  other : ∀ key, IsName key → key ≠ versionFileName → categoriesNamed packages key = [] →
    ∀ content, u.get? (placeOf c.location ++ [key]) = some (.text content) ↔
      t.list c.location = .error .missing ∧
        t.get? (placeOf c.location ++ [key]) = some (.text content)

theorem written_of_performed (hl : IsPlace c.location) {packages : List QualifiedName}
    {steps : List FileStep} (hsteps : c.steps t packages = .ok steps)
    (h : Performed steps t u) : Written c packages t u := by
  unfold NamesCache.steps at hsteps
  cases hclear : c.clearSteps t with
  | error e =>
    rw [hclear] at hsteps
    cases hsteps
  | ok clear =>
    rw [hclear] at hsteps
    cases hsteps
    obtain ⟨v, hv, x, hx, hwrites⟩ := FileStep.performed_append_iff.1 h
    obtain ⟨y, hfragments, z, hversion, rfl⟩ := FileStep.performed_append_iff.1 hwrites
    have hx' : (FileM.makeDirs c.location).on v = (.ok (), x) := hx
    have hdirx : x.isDirectory c.location = true := by
      have := FileM.isDirectory_of_makeDirs hl.ne_empty hl.slash (congrArg Prod.fst hx')
      rwa [hx'] at this
    have hgrows : v.Grows x := by
      have := FileM.makeDirs_grows c.location v
      rwa [hx'] at this
    have hnames : ∀ f ∈ fragments packages, IsName f.1 := fun f => isName_of_mem_fragments
    obtain ⟨hdiry, hother⟩ := writes_other hl _ hnames hdirx hfragments
    obtain ⟨hdiru, hfits, hget⟩ := write_on hl isName_versionFileName hdiry hversion
    have hversionFile : ∀ key, key ≠ versionFileName →
        u.get? (placeOf c.location ++ [key]) = y.get? (placeOf c.location ++ [key]) := by
      intro key hkey
      rw [hget, if_neg]
      intro he
      exact hkey (List.singleton_inj.1 (List.append_cancel_left he))
    refine ⟨hdiru, ⟨hfits, by rw [hget, if_pos rfl]⟩, fun key content hkey hmem => ?_,
      fun key hname hkey hnil content => ?_⟩
    · rw [hversionFile key hkey]
      exact writes_mem hl hnames (nodup_fragments packages) hdirx hfragments hmem
    · rw [hversionFile key hkey, hother key fun hmem => mem_keys_fragments_iff.1 hmem hnil,
        ← clear_on hl hclear hv hname content]
      constructor
      · intro hx
        exact (hgrows.adds _ _ hx).resolve_right nofun
      · intro hv
        exact hgrows.keeps _ _ hv

end PackageCatalog.NamesCache
