import PackageCatalog.Proofs.Files.Places

/-!
# What writing changes

Each step on a file tree changes what is at one place, or below it:

    writing a file puts it at its place and changes nothing else               (writeEntry_on)
    making directories puts directories where nothing was                      (makeDirs_grows)
    removing takes away what is at a place and below it                        (remove_on)

A step on a path goes to `FileTree.placeOf path`, in whatever tree it is done.
-/

namespace PackageCatalog

namespace FileTree

open PackageCatalog.Path (join parts IsName)

variable {t : FileTree}

/-! ## Changed trees -/

/-- The root and the start of relative paths. -/
def IsStart (place : Place) : Prop := place = [] ∨ place = workingPlace

theorem get?_of_isStart {place : Place} (h : IsStart place) : t.get? place = some .directory := by
  rcases h with rfl | rfl
  · exact get?_root
  · exact get?_workingPlace

theorem get?_of_not_isStart {place : Place} (h : ¬ IsStart place) :
    t.get? place = t.entries.get? place := by
  unfold get?
  rw [if_neg]
  rw [Bool.or_eq_true, List.isEmpty_iff, beq_iff_eq]
  exact h

theorem not_isStart_append_name {name : String} (h : IsName name) (p : Place) :
    ¬ IsStart (p ++ [name]) := by
  rintro (he | he)
  · simp at he
  · cases p with
    | nil => exact h.ne_empty (by simpa [workingPlace] using he)
    | cons a r => simp [workingPlace] at he

theorem get?_put {place : Place} (h : ¬ IsStart place) (entry : FileEntry) (q : Place) :
    (t.put place entry).get? q = if q = place then some entry else t.get? q := by
  by_cases hq : IsStart q
  · have hne : q ≠ place := by
      rintro rfl
      exact h hq
    rw [if_neg hne, get?_of_isStart hq, get?_of_isStart hq]
  · rw [get?_of_not_isStart hq, get?_of_not_isStart hq]
    exact Table.get?_insert _ _ _ _

theorem get?_dropPlace {place q : Place} (hq : ¬ IsStart q) :
    (t.dropPlace place).get? q = if place <+: q then none else t.get? q := by
  rw [get?_of_not_isStart hq, get?_of_not_isStart hq]
  unfold dropPlace Table.get?
  rw [Table.find?_filter fun key => !place.isPrefixOf key]
  by_cases hp : place <+: q
  · rw [if_pos hp, List.isPrefixOf_iff_prefix.2 hp]
    rfl
  · rw [if_neg hp, Bool.eq_false_iff.2 fun h => hp (List.isPrefixOf_iff_prefix.1 h)]
    rfl

theorem get?_clear {place q : Place} (hq : ¬ IsStart q) :
    (t.clear place).get? q = if place <+: q ∧ q ≠ place then none else t.get? q := by
  rw [get?_of_not_isStart hq, get?_of_not_isStart hq]
  unfold clear Table.get?
  rw [Table.find?_filter fun key => key == place || !place.isPrefixOf key]
  by_cases he : q = place
  · subst he
    rw [beq_self_eq_true, Bool.true_or, if_pos rfl, if_neg fun h => h.2 rfl]
  · rw [beq_eq_false_iff_ne.2 he, Bool.false_or]
    by_cases hp : place <+: q
    · rw [List.isPrefixOf_iff_prefix.2 hp, if_pos (c := _ ∧ _) ⟨hp, he⟩]
      rfl
    · rw [Bool.eq_false_iff.2 fun h => hp (List.isPrefixOf_iff_prefix.1 h),
        if_neg (c := _ ∧ _) fun h => hp h.1]
      rfl

/-- Everything that is there was there before. -/
def Shrinks (t u : FileTree) : Prop := ∀ q entry, u.get? q = some entry → t.get? q = some entry

theorem Shrinks.refl (t : FileTree) : t.Shrinks t := fun _ _ h => h

theorem Shrinks.trans {u v : FileTree} (htu : t.Shrinks u) (huv : u.Shrinks v) : t.Shrinks v :=
  fun q entry h => htu q entry (huv q entry h)

theorem shrinks_dropPlace (place : Place) : t.Shrinks (t.dropPlace place) := by
  intro q entry h
  by_cases hq : IsStart q
  · rw [get?_of_isStart hq] at h ⊢
    exact h
  · rw [get?_dropPlace hq] at h
    split at h
    · cases h
    · exact h

theorem shrinks_clear (place : Place) : t.Shrinks (t.clear place) := by
  intro q entry h
  by_cases hq : IsStart q
  · rw [get?_of_isStart hq] at h ⊢
    exact h
  · rw [get?_clear hq] at h
    split at h
    · cases h
    · exact h

/-- A path leads where it led while the directories stay. -/
theorem locate_of_keeps {u : FileTree} {path : String} {p : Place}
    (h : ∀ q, t.get? q = some .directory → u.get? q = some .directory)
    (hp : t.locate path = .ok p) : u.locate path = .ok p :=
  locate_mono (fun q _ hq => h q hq) hp

/-- No way leads through a file, so that no directory is lost with it. -/
theorem get?_dropPlace_of_open {place : Place} {entry : FileEntry}
    (hentry : t.get? place = some entry) (hfile : entry ≠ .directory) {q : Place}
    (hopen : t.Open q) (hq : t.get? q = some .directory) :
    (t.dropPlace place).get? q = some .directory := by
  by_cases hs : IsStart q
  · exact get?_of_isStart hs
  · rw [get?_dropPlace hs, if_neg]
    · exact hq
    · intro hprefix
      have hdir : t.get? place = some .directory := by
        by_cases he : place = q
        · rw [he]
          exact hq
        · exact hopen place hprefix he
      rw [hentry] at hdir
      exact hfile (Option.some.inj hdir)

theorem isDirectory_dropPlace {place : Place} {entry : FileEntry}
    (hentry : t.get? place = some entry) (hfile : entry ≠ .directory) {path : String}
    (h : t.isDirectory path = true) : (t.dropPlace place).isDirectory path = true := by
  obtain ⟨p, hp, hdir⟩ := find_eq_ok_iff.1 (isDirectory_iff.1 h)
  refine isDirectory_iff.2 (find_eq_ok_iff.2 ⟨p, locate_mono (fun q hopen hq => ?_) hp, ?_⟩)
  · exact get?_dropPlace_of_open hentry hfile hopen hq
  · exact get?_dropPlace_of_open hentry hfile (open_of_locate hp) hdir

/-- A path leads to a directory while the directories stay. -/
theorem isDirectory_of_keeps {u : FileTree} {path : String}
    (hkeeps : ∀ q, t.get? q = some .directory → u.get? q = some .directory)
    (h : t.isDirectory path = true) : u.isDirectory path = true := by
  obtain ⟨p, hp, hdir⟩ := find_eq_ok_iff.1 (isDirectory_iff.1 h)
  exact isDirectory_iff.2 (find_eq_ok_iff.2 ⟨p, locate_of_keeps hkeeps hp, hkeeps p hdir⟩)

theorem isDirectory_put {place : Place} (hplace : ¬ IsStart place)
    (hdir : t.get? place ≠ some .directory) (entry : FileEntry) {path : String}
    (h : t.isDirectory path = true) : (t.put place entry).isDirectory path = true := by
  refine isDirectory_of_keeps (fun q hq => ?_) h
  rw [get?_put hplace, if_neg]
  · exact hq
  · rintro rfl
    exact hdir hq

/-- Everything that was there still is, and all that is new are directories. -/
structure Grows (t u : FileTree) : Prop where
  keeps : ∀ q entry, t.get? q = some entry → u.get? q = some entry
  adds : ∀ q entry, u.get? q = some entry → t.get? q = some entry ∨ entry = .directory

theorem Grows.refl (t : FileTree) : t.Grows t := ⟨fun _ _ h => h, fun _ _ h => Or.inl h⟩

theorem Grows.trans {u v : FileTree} (htu : t.Grows u) (huv : u.Grows v) : t.Grows v where
  keeps q entry h := huv.keeps q entry (htu.keeps q entry h)
  adds q entry h := (huv.adds q entry h).elim (htu.adds q entry) Or.inr

theorem Grows.locate {u : FileTree} (h : t.Grows u) {path : String} {p : Place}
    (hp : t.locate path = .ok p) : u.locate path = .ok p :=
  locate_of_keeps (fun q hq => h.keeps q _ hq) hp

theorem grows_put {place : Place} (h : t.get? place = none) : t.Grows (t.put place .directory) := by
  have hplace : ¬ IsStart place := by
    intro hs
    rw [get?_of_isStart hs] at h
    cases h
  constructor
  · intro q entry hq
    rw [get?_put hplace]
    split
    · next he =>
      rw [he, h] at hq
      cases hq
    · exact hq
  · intro q entry hq
    rw [get?_put hplace] at hq
    split at hq
    · exact Or.inr (Option.some.inj hq).symm
    · exact Or.inl hq

end FileTree

namespace FileM

open FileTree (Shrinks Grows IsStart placeOf)

variable {α β : Type} {t : FileTree}

/-! ## Steps -/

/-- What a step makes of a file tree. -/
def on (step : FileM α) (t : FileTree) : Except FileProblem α × FileTree := step.run.run t

@[simp] theorem on_pure (a : α) (t : FileTree) : (pure a : FileM α).on t = (.ok a, t) := rfl

@[simp] theorem on_throw (e : FileProblem) (t : FileTree) :
    (throw e : FileM α).on t = (.error e, t) := rfl

theorem on_bind_of_ok {s : FileM α} {t u : FileTree} {a : α} (h : s.on t = (.ok a, u))
    (f : α → FileM β) : (s >>= f).on t = (f a).on u := by
  show (s >>= f).run.run t = _
  rw [ExceptT.run_bind, StateT.run_bind, show s.run.run t = (.ok a, u) from h]
  rfl

theorem on_bind_of_error {s : FileM α} {t u : FileTree} {e : FileProblem}
    (h : s.on t = (.error e, u)) (f : α → FileM β) : (s >>= f).on t = (.error e, u) := by
  show (s >>= f).run.run t = _
  rw [ExceptT.run_bind, StateT.run_bind, show s.run.run t = (.error e, u) from h]
  rfl

@[simp] theorem on_get (t : FileTree) : (get : FileM FileTree).on t = (.ok t, t) := rfl

@[simp] theorem on_lift (r : Except FileProblem α) (t : FileTree) :
    (liftM r : FileM α).on t = (r, t) := by
  cases r <;> rfl

theorem remove_on (path : String) (t : FileTree) : (remove path).on t =
    match t.find path with
    | .error e => (.error e, t)
    | .ok .directory =>
      let emptied := t.clear (placeOf path)
      (.ok (), if emptied.isPresent path then emptied.dropPlace (placeOf path) else emptied)
    | .ok _ => (.ok (), t.dropPlace (placeOf path)) := by
  unfold remove FileTree.find
  rw [on_bind_of_ok (on_get t)]
  cases hp : t.locate path with
  | error e => rfl
  | ok place =>
    rw [← FileTree.locate_eq_placeOf hp]
    rw [on_bind_of_ok (on_lift _ t)]
    cases hentry : t.get? place with
    | none => simp [Bind.bind, Except.bind, hentry]
    | some entry =>
      simp only [Bind.bind, Except.bind, hentry]
      cases entry <;> rfl

/-- A file is put at its place, or nothing changes. -/
theorem writeEntry_on (path : String) (entry : FileEntry) (t : FileTree) :
    ((writeEntry path entry).on t = (.ok (), t.put (placeOf path) entry) ∧
      t.locate path = .ok (placeOf path) ∧ t.get? (placeOf path) ≠ some .directory) ∨
    ∃ e, (writeEntry path entry).on t = (.error e, t) := by
  unfold writeEntry FileTree.locate
  rw [on_bind_of_ok (on_get t)]
  cases hparts : FileTree.partsOf path with
  | error e => exact Or.inr ⟨e, on_bind_of_error (on_lift _ t) _⟩
  | ok parts =>
    rw [on_bind_of_ok (on_lift _ t)]
    by_cases hslash : (dropEndSlashes parts != parts) = true
    · right
      simp only [hslash, ↓reduceIte]
      cases t.follow (wayInto (dropEndSlashes parts)) with
      | ok p => exact ⟨.isDirectory, rfl⟩
      | error e => exact ⟨e, rfl⟩
    · simp only [hslash]
      cases hfollow : t.follow parts with
      | error e => exact Or.inr ⟨e, rfl⟩
      | ok place =>
        have hlocate : t.locate path = .ok place := by
          unfold FileTree.locate
          rw [hparts]
          exact hfollow
        rw [← FileTree.locate_eq_placeOf hlocate, if_neg Bool.false_ne_true,
          on_bind_of_ok (on_lift _ t)]
        cases hentry : t.get? place with
        | none => exact Or.inl ⟨rfl, hfollow, nofun⟩
        | some old =>
          cases old with
          | directory => exact Or.inr ⟨.isDirectory, rfl⟩
          | text _ => exact Or.inl ⟨rfl, hfollow, nofun⟩
          | bytes _ => exact Or.inl ⟨rfl, hfollow, nofun⟩

theorem dropEndSlashes_parts_join {base name : String} (hbase : base ≠ "") (hname : Path.IsName name) :
    dropEndSlashes (Path.parts (Path.join base name)) = Path.parts (Path.join base name) := by
  obtain ⟨front, hfront⟩ : ∃ front, Path.parts (Path.join base name) = front ++ [name] := by
    rcases Path.parts_join hbase hname with h | ⟨way, -, -, h⟩
    · exact ⟨_, h⟩
    · exact ⟨_, h⟩
  have hne := hname.ne_empty
  rw [hfront]
  simp [dropEndSlashes, hne]

/-- A file in a directory is put there, unless a directory stands in its place. -/
theorem writeEntry_join {base name : String} (hbase : base ≠ "") (hname : Path.IsName name)
    (entry : FileEntry) {t : FileTree} {p : Place}
    (hp : t.locate (Path.join base name) = .ok p) (hdir : t.get? p ≠ some .directory) :
    (writeEntry (Path.join base name) entry).on t = (.ok (), t.put p entry) := by
  have hlocate := FileTree.locate_eq_ok_iff.1 hp
  have hparts : FileTree.partsOf (Path.join base name) = .ok (Path.parts (Path.join base name)) :=
    FileTree.partsOf_eq_ok_iff.2 ⟨hlocate.1, hlocate.2.1, hlocate.2.2.1, rfl⟩
  unfold writeEntry
  rw [on_bind_of_ok (on_get t), hparts, on_bind_of_ok (on_lift _ t)]
  simp only [dropEndSlashes_parts_join hbase hname, bne_self_eq_false, hlocate.2.2.2]
  rw [if_neg Bool.false_ne_true, on_bind_of_ok (on_lift _ t)]
  cases hentry : t.get? p with
  | none => rfl
  | some old =>
    cases old with
    | directory => exact absurd hentry hdir
    | text _ => rfl
    | bytes _ => rfl

/-! ## Making directories -/

/-- A directory is put where nothing was, or nothing changes. -/
theorem makeDir_on (path : String) (t : FileTree) :
    (∃ p, (makeDir path).on t = (.ok (), t.put p .directory) ∧ t.get? p = none ∧
      (dropEndSlashes (Path.parts path) = Path.parts path → t.locate path = .ok p)) ∨
    ∃ e, (makeDir path).on t = (.error e, t) := by
  unfold makeDir FileTree.locate
  rw [on_bind_of_ok (on_get t)]
  cases hparts : FileTree.partsOf path with
  | error e => exact Or.inr ⟨e, on_bind_of_error (on_lift _ t) _⟩
  | ok parts =>
    obtain ⟨-, -, -, rfl⟩ := FileTree.partsOf_eq_ok_iff.1 hparts
    rw [on_bind_of_ok (on_lift _ t)]
    cases hfollow : t.follow (dropEndSlashes (Path.parts path)) with
    | error e => exact Or.inr ⟨e, on_bind_of_error (on_lift _ t) _⟩
    | ok place =>
      rw [on_bind_of_ok (on_lift _ t)]
      cases hentry : t.get? place with
      | none => exact Or.inl ⟨place, rfl, hentry, fun hslash => hslash ▸ hfollow⟩
      | some old => exact Or.inr ⟨.alreadyThere, rfl⟩

theorem makeDir_of_isDirectory {path : String} {t : FileTree}
    (hslash : dropEndSlashes (Path.parts path) = Path.parts path)
    (h : t.isDirectory path = true) : (makeDir path).on t = (.error .alreadyThere, t) := by
  obtain ⟨p, hp, hdir⟩ := FileTree.find_eq_ok_iff.1 (FileTree.isDirectory_iff.1 h)
  obtain ⟨hnul, hempty, hlen, hfollow⟩ := FileTree.locate_eq_ok_iff.1 hp
  unfold makeDir
  rw [on_bind_of_ok (on_get t), FileTree.partsOf_eq_ok_iff.2 ⟨hnul, hempty, hlen, rfl⟩,
    on_bind_of_ok (on_lift _ t), hslash, hfollow, on_bind_of_ok (on_lift _ t), hdir]
  rfl

theorem makeDir_grows (path : String) (t : FileTree) : t.Grows ((makeDir path).on t).2 := by
  rcases makeDir_on path t with ⟨p, h, hnone, -⟩ | ⟨e, h⟩
  · rw [h]
    exact FileTree.grows_put hnone
  · rw [h]
    exact .refl t

theorem on_outcome {α : Type} (s : FileM α) (t : FileTree) :
    (outcome s).on t = (.ok (s.on t).1, (s.on t).2) := rfl

theorem unlessDirectory_on (path : String) (result : Except FileProblem Unit) (t : FileTree) :
    (unlessDirectory path result).on t = (if t.isDirectory path then .ok () else result, t) := by
  cases result with
  | ok _ => simp [unlessDirectory]
  | error problem =>
    unfold unlessDirectory
    rw [on_bind_of_ok (on_get t)]
    cases t.isDirectory path <;> rfl

/-- The directory is made at once, or after those above it if they are missing. -/
theorem makeDirsFrom_on {path : String} (hpath : path ≠ "") (above : List String) (t : FileTree) :
    let first := (makeDir path).on t
    let retry := (makeDirsFrom above).on first.2
    let second := (makeDir path).on retry.2
    (makeDirsFrom (path :: above)).on t =
        (if first.2.isDirectory path then .ok () else first.1, first.2) ∨
      (first.1 = .error .missing ∧ ∃ e, retry.1 = .error e ∧
        (makeDirsFrom (path :: above)).on t = retry) ∨
      (first.1 = .error .missing ∧ retry.1 = .ok () ∧ (makeDirsFrom (path :: above)).on t =
        (if second.2.isDirectory path then .ok () else second.1, second.2)) := by
  intro first retry second
  rw [makeDirsFrom, if_neg (by simpa using hpath), on_bind_of_ok (on_outcome (makeDir path) t)]
  by_cases hmissing : first.1 = .error .missing
  · right
    rw [show ((makeDir path).on t).1 = .error .missing from hmissing]
    cases hretry : retry.1 with
    | error e =>
      refine Or.inl ⟨rfl, e, rfl, ?_⟩
      simp only
      rw [on_bind_of_error (Prod.ext hretry rfl : (makeDirsFrom above).on first.2 = (.error e, retry.2))]
      exact Prod.ext hretry.symm rfl
    | ok _ =>
      refine Or.inr ⟨rfl, rfl, ?_⟩
      simp only
      rw [on_bind_of_ok (Prod.ext hretry rfl : (makeDirsFrom above).on first.2 = (.ok (), retry.2)),
        on_bind_of_ok (on_outcome (makeDir path) retry.2), unlessDirectory_on]
  · left
    rw [← unlessDirectory_on]
    cases hfirst : ((makeDir path).on t).1 with
    | ok _ => rfl
    | error problem =>
      cases problem with
      | missing => exact absurd hfirst hmissing
      | _ => rfl

theorem makeDirsFrom_grows (paths : List String) (t : FileTree) :
    t.Grows ((makeDirsFrom paths).on t).2 := by
  induction paths generalizing t with
  | nil => exact .refl t
  | cons path above ih =>
    by_cases hpath : path = ""
    · subst hpath
      exact .refl t
    · have hfirst := makeDir_grows path t
      have hretry := hfirst.trans (ih ((makeDir path).on t).2)
      rcases makeDirsFrom_on hpath above t with h | ⟨-, e, -, h⟩ | ⟨-, -, h⟩
      · rw [h]
        exact hfirst
      · rw [h]
        exact hretry
      · rw [h]
        exact hretry.trans (makeDir_grows path _)

/-- Where making a directory succeeds, there is one. -/
theorem isDirectory_of_makeDir {path : String} {t : FileTree}
    (hslash : dropEndSlashes (Path.parts path) = Path.parts path)
    (h : ((makeDir path).on t).1 = .ok ()) : ((makeDir path).on t).2.isDirectory path = true := by
  rcases makeDir_on path t with ⟨p, hok, hnone, hlocate⟩ | ⟨e, herror⟩
  · have hplace : ¬ IsStart p := by
      intro hs
      rw [FileTree.get?_of_isStart hs] at hnone
      cases hnone
    have hgrows := FileTree.grows_put hnone
    rw [hok]
    refine FileTree.isDirectory_iff.2
      (FileTree.find_eq_ok_iff.2 ⟨p, hgrows.locate (hlocate hslash), ?_⟩)
    rw [FileTree.get?_put hplace, if_pos rfl]
  · rw [herror] at h
    cases h

/-- Where making a directory and those above it succeeds, there is one. -/
theorem isDirectory_of_makeDirs {path : String} {t : FileTree} (hpath : path ≠ "")
    (hslash : dropEndSlashes (Path.parts path) = Path.parts path)
    (h : ((makeDirs path).on t).1 = .ok ()) : ((makeDirs path).on t).2.isDirectory path = true := by
  obtain ⟨above, habove⟩ : ∃ above, Path.ancestors path = path :: above := ⟨_, rfl⟩
  unfold makeDirs at h ⊢
  rw [habove] at h ⊢
  have hmade : ∀ u : FileTree,
      (if ((makeDir path).on u).2.isDirectory path then .ok () else ((makeDir path).on u).1) =
        (.ok () : Except FileProblem Unit) → ((makeDir path).on u).2.isDirectory path = true := by
    intro u hu
    by_cases hdir : ((makeDir path).on u).2.isDirectory path = true
    · exact hdir
    · rw [if_neg hdir] at hu
      exact isDirectory_of_makeDir hslash hu
  rcases makeDirsFrom_on hpath above t with hon | ⟨-, e, he, hon⟩ | ⟨-, -, hon⟩
  · rw [hon] at h ⊢
    exact hmade t h
  · rw [hon, he] at h
    cases h
  · rw [hon] at h ⊢
    exact hmade _ h

/-- Where there is a directory, none is made. -/
theorem makeDirs_of_isDirectory {path : String} {t : FileTree} (hpath : path ≠ "")
    (hslash : dropEndSlashes (Path.parts path) = Path.parts path)
    (h : t.isDirectory path = true) : (makeDirs path).on t = (.ok (), t) := by
  obtain ⟨above, habove⟩ : ∃ above, Path.ancestors path = path :: above := ⟨_, rfl⟩
  have hfirst := makeDir_of_isDirectory hslash h
  unfold makeDirs
  rw [habove]
  rcases makeDirsFrom_on hpath above t with hon | ⟨hmissing, -⟩ | ⟨hmissing, -⟩
  · rw [hon, hfirst, if_pos h]
  · rw [hfirst] at hmissing
    cases hmissing
  · rw [hfirst] at hmissing
    cases hmissing

theorem exists_dropEndSlashes (parts : List String) :
    ∃ slashes, parts = dropEndSlashes parts ++ slashes ∧ ∀ part ∈ slashes, part = "" := by
  refine ⟨(parts.reverse.takeWhile String.isEmpty).reverse, ?_, fun part hpart => ?_⟩
  · unfold dropEndSlashes
    rw [← List.reverse_append, List.takeWhile_append_dropWhile, List.reverse_reverse]
  · simpa using List.all_eq_true.1 List.all_takeWhile _ (List.mem_reverse.1 hpart)

theorem foldl_stride_slashes (slashes : List String) (h : ∀ part ∈ slashes, part = "")
    (p : Place) : slashes.foldl FileTree.stride p = p := by
  induction slashes with
  | nil => rfl
  | cons part slashes ih =>
    obtain rfl := h part List.mem_cons_self
    exact ih fun part hpart => h part (List.mem_cons_of_mem _ hpart)

/-- Slashes at the end of a path do not change where it leads. -/
theorem foldl_stride_dropEndSlashes (path : String) :
    (dropEndSlashes (Path.parts path)).foldl FileTree.stride
      (FileTree.startOf (dropEndSlashes (Path.parts path))) = placeOf path := by
  obtain ⟨slashes, hparts, hslashes⟩ := exists_dropEndSlashes (Path.parts path)
  have hstart : FileTree.startOf (Path.parts path) =
      FileTree.startOf (dropEndSlashes (Path.parts path)) := by
    unfold FileTree.startOf
    cases hfront : dropEndSlashes (Path.parts path) with
    | cons part front =>
      rw [hparts, hfront]
      rfl
    | nil =>
      rw [hparts, hfront, List.nil_append]
      cases slashes with
      | nil => rfl
      | cons part slashes =>
        rw [hslashes part List.mem_cons_self]
        rfl
  have hfoldl := congrArg (List.foldl FileTree.stride (FileTree.startOf (Path.parts path))) hparts
  rw [List.foldl_append, foldl_stride_slashes slashes hslashes, hstart] at hfoldl
  unfold placeOf
  rw [hstart, hfoldl]

/-- Making a directory changes nothing elsewhere. -/
theorem get?_makeDir (path : String) (t : FileTree) {q : Place} (hq : q ≠ placeOf path) :
    ((makeDir path).on t).2.get? q = t.get? q := by
  unfold makeDir
  rw [on_bind_of_ok (on_get t)]
  cases hparts : FileTree.partsOf path with
  | error e => rfl
  | ok parts =>
    obtain ⟨-, -, -, rfl⟩ := FileTree.partsOf_eq_ok_iff.1 hparts
    rw [on_bind_of_ok (on_lift _ t)]
    cases hfollow : t.follow (dropEndSlashes (Path.parts path)) with
    | error e => rfl
    | ok place =>
      obtain rfl : place = placeOf path :=
        (FileTree.foldlM_step_eq hfollow).trans (foldl_stride_dropEndSlashes path)
      rw [on_bind_of_ok (on_lift _ t)]
      cases hentry : t.get? (placeOf path) with
      | some old => rfl
      | none =>
        have hplace : ¬ IsStart (placeOf path) := by
          intro hs
          rw [FileTree.get?_of_isStart hs] at hentry
          cases hentry
        exact (FileTree.get?_put hplace _ _).trans (if_neg hq)

theorem get?_makeDirsFrom (paths : List String) (t : FileTree) {q : Place}
    (hq : ∀ path ∈ paths, q ≠ placeOf path) :
    ((makeDirsFrom paths).on t).2.get? q = t.get? q := by
  induction paths generalizing t with
  | nil => rfl
  | cons path above ih =>
    by_cases hpath : path = ""
    · subst hpath
      rfl
    · have hfirst := get?_makeDir path t (hq path List.mem_cons_self)
      have hretry := (ih ((makeDir path).on t).2 fun p hp =>
        hq p (List.mem_cons_of_mem _ hp)).trans hfirst
      rcases makeDirsFrom_on hpath above t with h | ⟨-, e, -, h⟩ | ⟨-, -, h⟩
      · rw [h]
        exact hfirst
      · rw [h]
        exact hretry
      · rw [h]
        exact (get?_makeDir path _ (hq path List.mem_cons_self)).trans hretry

/-- Directories are made at the way to a path and nowhere else. -/
theorem get?_makeDirs (path : String) (t : FileTree) {q : Place}
    (hq : ∀ above ∈ Path.ancestors path, q ≠ placeOf above) :
    ((makeDirs path).on t).2.get? q = t.get? q :=
  get?_makeDirsFrom (Path.ancestors path) t hq

theorem makeDirs_grows (path : String) (t : FileTree) : t.Grows ((makeDirs path).on t).2 :=
  makeDirsFrom_grows (Path.ancestors path) t

/-! ## Removing -/

theorem remove_shrinks (path : String) (t : FileTree) : t.Shrinks ((remove path).on t).2 := by
  rw [remove_on]
  cases t.find path with
  | error e => exact .refl t
  | ok entry =>
    cases entry with
    | directory =>
      simp only
      split
      · exact (FileTree.shrinks_clear _).trans (FileTree.shrinks_dropPlace _)
      · exact FileTree.shrinks_clear _
    | text _ => exact FileTree.shrinks_dropPlace _
    | bytes _ => exact FileTree.shrinks_dropPlace _

/-- Where removing succeeds, no file is left. -/
theorem get?_remove {path : String} {t : FileTree} (hplace : ¬ IsStart (placeOf path))
    (h : ((remove path).on t).1 = .ok ()) {entry : FileEntry}
    (hentry : ((remove path).on t).2.get? (placeOf path) = some entry) : entry = .directory := by
  rw [remove_on] at h hentry
  cases hfind : t.find path with
  | error e =>
    rw [hfind] at h
    cases h
  | ok old =>
    rw [hfind] at hentry
    have hgone : ∀ u : FileTree, (u.dropPlace (placeOf path)).get? (placeOf path) = none := by
      intro u
      rw [FileTree.get?_dropPlace hplace, if_pos (List.prefix_refl _)]
    cases old with
    | directory =>
      simp only at hentry
      split at hentry
      · rw [hgone] at hentry
        cases hentry
      · obtain ⟨p, hp, hdir⟩ := FileTree.find_eq_ok_iff.1 hfind
        rw [FileTree.get?_clear hplace, if_neg fun h => h.2 rfl, ← FileTree.locate_eq_placeOf hp,
          hdir] at hentry
        exact (Option.some.inj hentry).symm
    | text _ =>
      rw [hgone] at hentry
      cases hentry
    | bytes _ =>
      rw [hgone] at hentry
      cases hentry

theorem remove_of_isFile {path : String} {t : FileTree} (h : t.isFile path = true) :
    (remove path).on t = (.ok (), t.dropPlace (placeOf path)) := by
  rw [remove_on]
  unfold FileTree.isFile at h
  cases hfind : t.find path with
  | error e =>
    rw [hfind] at h
    cases h
  | ok entry =>
    rw [hfind] at h
    cases entry with
    | directory => cases h
    | text _ => rfl
    | bytes _ => rfl

end FileM

end PackageCatalog
