import PackageCatalog.Files.Tree
import PackageCatalog.Proofs.Files.Paths
import PackageCatalog.Proofs.Tables

/-!
# Where paths lead

A path joined with a name leads to the place of that name in the directory to which the path leads:

    t.locate (join base name) = .ok q ↔
      ∃ p, t.locate base = .ok p ∧ p is a directory ∧ q = p ++ [name] ∧ ...    (locate_join_iff)

Hence a directory or file at such a path stands in the listing of the directory
(`mem_list_of_find_join`).
-/

namespace PackageCatalog

namespace FileTree

open PackageCatalog.Path (join parts IsName)

variable {t : FileTree}

/-! ## Steps -/

theorem get?_append_name {name : String} (h : IsName name) (p : Place) :
    t.get? (p ++ [name]) = t.entries.get? (p ++ [name]) := by
  have hne : p ++ [name] ≠ workingPlace := by
    intro he
    cases p with
    | nil => exact h.ne_empty (by simpa [workingPlace] using he)
    | cons a r => simp [workingPlace] at he
  unfold get?
  rw [if_neg (by simp [hne])]

theorem step_eq_ok_iff {name : String} (h : IsName name) {p q : Place} :
    t.step p name = .ok q ↔
      t.get? p = some .directory ∧ name.utf8ByteSize ≤ nameLimit ∧ q = p ++ [name] := by
  unfold step
  cases hp : t.get? p with
  | none => simp
  | some entry =>
    cases entry with
    | directory =>
      simp only [h.notVoid, Bool.false_eq_true, ↓reduceIte, beq_iff_eq, h.notParent, true_and]
      by_cases hlen : nameLimit < name.utf8ByteSize
      · rw [if_pos hlen]
        constructor
        · intro he
          cases he
        · rintro ⟨hle, -⟩
          exact absurd hlen (Nat.not_lt.2 hle)
      · rw [if_neg hlen]
        constructor
        · intro he
          cases he
          exact ⟨Nat.not_lt.1 hlen, rfl⟩
        · rintro ⟨-, rfl⟩
          rfl
    | text _ => simp
    | bytes _ => simp

theorem step_empty_eq_ok_iff {p q : Place} :
    t.step p "" = .ok q ↔ t.get? p = some .directory ∧ q = p := by
  unfold step
  cases hp : t.get? p with
  | none => simp
  | some entry =>
    cases entry with
    | directory => simp [show Path.isVoid "" = true from rfl, eq_comm]
    | text _ => simp
    | bytes _ => simp

theorem follow_append {way : List String} (h : way ≠ []) (part : String) :
    t.follow (way ++ [part]) = t.follow way >>= fun p => t.step p part := by
  unfold follow
  rw [List.foldlM_append]
  cases way with
  | nil => exact absurd rfl h
  | cons first rest => simp

/-! ## Paths -/

theorem partsOf_eq_ok_iff {path : String} {ps : List String} :
    partsOf path = .ok ps ↔
      '\x00' ∉ path.toList ∧ path ≠ "" ∧ path.utf8ByteSize < pathLimit ∧ ps = parts path := by
  unfold partsOf
  by_cases hnul : '\x00' ∈ path.toList
  · simp [hnul]
  · by_cases hempty : path = ""
    · simp [hempty]
    · rw [if_neg hnul, if_neg (by simpa using hempty)]
      by_cases hlen : pathLimit ≤ path.utf8ByteSize
      · rw [if_pos hlen]
        constructor
        · intro he
          cases he
        · rintro ⟨-, -, hlt, -⟩
          exact absurd hlen (Nat.not_le.2 hlt)
      · rw [if_neg hlen]
        constructor
        · intro he
          cases he
          exact ⟨hnul, hempty, Nat.lt_of_not_le hlen, rfl⟩
        · rintro ⟨-, -, -, rfl⟩
          rfl

theorem locate_eq_ok_iff {path : String} {p : Place} :
    t.locate path = .ok p ↔
      '\x00' ∉ path.toList ∧ path ≠ "" ∧ path.utf8ByteSize < pathLimit ∧
        t.follow (parts path) = .ok p := by
  unfold locate
  cases h : partsOf path with
  | ok ps =>
    obtain ⟨hnul, hempty, hlen, rfl⟩ := partsOf_eq_ok_iff.1 h
    exact ⟨fun hf => ⟨hnul, hempty, hlen, hf⟩, fun hf => hf.2.2.2⟩
  | error e =>
    constructor
    · intro hf
      cases hf
    · rintro ⟨hnul, hempty, hlen, -⟩
      rw [partsOf_eq_ok_iff.2 ⟨hnul, hempty, hlen, rfl⟩] at h
      cases h

theorem follow_parts_join {base name : String} (hbase : base ≠ "") (hname : IsName name)
    {q : Place} : t.follow (parts (join base name)) = .ok q ↔
      ∃ p, t.follow (parts base) = .ok p ∧ t.get? p = some .directory ∧
        name.utf8ByteSize ≤ nameLimit ∧ q = p ++ [name] := by
  rcases Path.parts_join hbase hname with h | ⟨way, hway, hbaseParts, h⟩
  · rw [h, follow_append (Path.parts_ne_nil base)]
    cases t.follow (parts base) with
    | ok p => simp [Bind.bind, Except.bind, step_eq_ok_iff hname]
    | error e => simp [Bind.bind, Except.bind]
  · rw [h, hbaseParts, follow_append hway, follow_append hway]
    cases t.follow way with
    | ok p =>
      simp only [Bind.bind, Except.bind, step_eq_ok_iff hname, step_empty_eq_ok_iff]
      constructor
      · rintro ⟨hdir, hlen, rfl⟩
        exact ⟨p, ⟨hdir, rfl⟩, hdir, hlen, rfl⟩
      · rintro ⟨p', ⟨hdir, rfl⟩, -, hlen, rfl⟩
        exact ⟨hdir, hlen, rfl⟩
    | error e => simp [Bind.bind, Except.bind]

theorem nul_notMem_join_iff {base name : String} (hname : IsName name) :
    '\x00' ∉ (join base name).toList ↔ '\x00' ∉ base.toList := by
  rw [Path.join_of_isName hname]
  have := hname.nul
  split <;> simp [this]

theorem utf8ByteSize_le_join {base name : String} (hname : IsName name) :
    base.utf8ByteSize ≤ (join base name).utf8ByteSize := by
  rw [Path.join_of_isName hname]
  split <;> simp only [String.utf8ByteSize_append] <;> omega

theorem locate_join_iff {base name : String} (hbase : base ≠ "") (hname : IsName name)
    {q : Place} : t.locate (join base name) = .ok q ↔
      ∃ p, t.locate base = .ok p ∧ t.get? p = some .directory ∧
        name.utf8ByteSize ≤ nameLimit ∧ (join base name).utf8ByteSize < pathLimit ∧
        q = p ++ [name] := by
  simp only [locate_eq_ok_iff, follow_parts_join hbase hname, nul_notMem_join_iff hname]
  have hsize : base.utf8ByteSize ≤ (join base name).utf8ByteSize := utf8ByteSize_le_join hname
  constructor
  · rintro ⟨hnul, -, hlen, p, hp, hdir, hname, rfl⟩
    exact ⟨p, ⟨hnul, hbase, by omega, hp⟩, hdir, hname, hlen, rfl⟩
  · rintro ⟨p, ⟨hnul, -, -, hp⟩, hdir, hname', hlen, rfl⟩
    exact ⟨hnul, Path.join_ne_empty hname, hlen, p, hp, hdir, hname', rfl⟩

/-! ## What is at a path -/

theorem find_eq_ok_iff {path : String} {entry : FileEntry} :
    t.find path = .ok entry ↔ ∃ p, t.locate path = .ok p ∧ t.get? p = some entry := by
  unfold find
  cases t.locate path with
  | ok p => cases h : t.get? p <;> simp [Bind.bind, Except.bind, h]
  | error e => simp [Bind.bind, Except.bind]

theorem isDirectory_iff {path : String} :
    t.isDirectory path = true ↔ t.find path = .ok .directory := by
  unfold isDirectory
  split <;> simp_all

theorem isFile_iff {path : String} :
    t.isFile path = true ↔ ∃ entry, t.find path = .ok entry ∧ entry ≠ .directory := by
  unfold isFile
  cases t.find path with
  | ok entry => cases entry <;> simp
  | error e => simp

theorem readText_eq_ok_iff {path content : String} :
    t.readText path = .ok content ↔ t.find path = .ok (.text content) := by
  unfold readText
  cases t.find path with
  | ok entry => cases entry <;> simp [Bind.bind, Except.bind]
  | error e => simp [Bind.bind, Except.bind]

theorem isPresent_of_readText {path content : String} (h : t.readText path = .ok content) :
    t.isPresent path = true := by
  unfold isPresent
  rw [readText_eq_ok_iff.1 h]
  rfl

theorem list_eq_ok_iff {path : String} {names : List String} :
    t.list path = .ok names ↔
      ∃ p, t.locate path = .ok p ∧ t.get? p = some .directory ∧ names = t.namesAt p := by
  unfold list
  cases t.locate path with
  | ok p =>
    cases h : t.get? p with
    | none => simp [Bind.bind, Except.bind, h]
    | some entry => cases entry <;> simp [Bind.bind, Except.bind, h, eq_comm]
  | error e => simp [Bind.bind, Except.bind]

theorem list_of_isDirectory {path : String} (h : t.isDirectory path = true) :
    ∃ names, t.list path = .ok names := by
  obtain ⟨p, hp, hdir⟩ := find_eq_ok_iff.1 (isDirectory_iff.1 h)
  exact ⟨_, list_eq_ok_iff.2 ⟨p, hp, hdir, rfl⟩⟩

theorem nameIn?_eq_some_iff {dir place : Place} {name : String} :
    nameIn? dir place = some name ↔ place = dir ++ [name] := by
  unfold nameIn?
  cases h : place.getLast? with
  | none =>
    rw [List.getLast?_eq_none_iff] at h
    simp [h]
  | some last =>
    obtain ⟨front, rfl⟩ := List.getLast?_eq_some_iff.1 h
    rw [List.dropLast_concat]
    by_cases hd : front = dir
    · simp [hd]
    · simp [hd]

theorem mem_namesAt_iff {p : Place} {name : String} :
    name ∈ t.namesAt p ↔ p ++ [name] ∈ t.entries.keys := by
  unfold namesAt
  simp [List.mem_filterMap, nameIn?_eq_some_iff]

/-- What is at a path in a directory stands in the listing of the directory. -/
theorem mem_list_of_find_join {base name : String} {entry : FileEntry} (hbase : base ≠ "")
    (hname : IsName name) (h : t.find (join base name) = .ok entry) :
    ∃ names, t.list base = .ok names ∧ name ∈ names := by
  obtain ⟨q, hq, hentry⟩ := find_eq_ok_iff.1 h
  obtain ⟨p, hp, hdir, -, -, rfl⟩ := (locate_join_iff hbase hname).1 hq
  refine ⟨_, list_eq_ok_iff.2 ⟨p, hp, hdir, rfl⟩, mem_namesAt_iff.2 ?_⟩
  rw [get?_append_name hname] at hentry
  exact (Table.contains_iff _ _).1 (Option.isSome_of_eq_some hentry)

/-! ## The place a path describes -/

/-- One part further, whether or not there is a directory. -/
def stride (place : Place) (part : String) : Place :=
  if Path.isVoid part then place
  else if part == ".." then place.dropLast
  else place ++ [part]

def startOf (way : List String) : Place := if (way.headD "").isEmpty then [] else workingPlace

/-- The place to which a path leads in every tree in which it leads anywhere. -/
def placeOf (path : String) : Place := (parts path).foldl stride (startOf (parts path))

theorem step_eq_stride {p q : Place} {part : String} (h : t.step p part = .ok q) :
    q = stride p part ∧ t.get? p = some .directory := by
  unfold step at h
  unfold stride
  cases hp : t.get? p with
  | none => rw [hp] at h; cases h
  | some entry =>
    rw [hp] at h
    cases entry with
    | directory =>
      refine ⟨?_, rfl⟩
      simp only at h
      split at h
      · cases h
        rw [if_pos (by assumption)]
      · rw [if_neg (by assumption)]
        split at h
        · cases h
          rw [if_pos (by assumption)]
        · rw [if_neg (by assumption)]
          split at h
          · cases h
          · cases h
            rfl
    | text _ => cases h
    | bytes _ => cases h

theorem foldlM_step_eq {way : List String} {p q : Place} (h : way.foldlM t.step p = .ok q) :
    q = way.foldl stride p := by
  induction way generalizing p with
  | nil =>
    cases h
    rfl
  | cons part way ih =>
    rw [List.foldlM_cons] at h
    cases hs : t.step p part with
    | error e => rw [hs] at h; cases h
    | ok next =>
      rw [hs] at h
      rw [List.foldl_cons, ← (step_eq_stride hs).1]
      exact ih h

theorem locate_eq_placeOf {path : String} {p : Place} (h : t.locate path = .ok p) :
    p = placeOf path :=
  foldlM_step_eq (locate_eq_ok_iff.1 h).2.2.2

theorem stride_name {name : String} (h : IsName name) (p : Place) :
    stride p name = p ++ [name] := by
  unfold stride
  rw [h.notVoid, if_neg Bool.false_ne_true, if_neg (by simpa using h.notParent)]

theorem placeOf_join {base name : String} (hbase : base ≠ "") (hname : IsName name) :
    placeOf (join base name) = placeOf base ++ [name] := by
  unfold placeOf
  rcases Path.parts_join hbase hname with h | ⟨way, hway, hparts, h⟩
  · obtain ⟨first, rest, hcons⟩ := List.exists_cons_of_ne_nil (Path.parts_ne_nil base)
    rw [h, List.foldl_append, List.foldl_cons, List.foldl_nil, stride_name hname, hcons]
    rfl
  · obtain ⟨first, rest, rfl⟩ := List.exists_cons_of_ne_nil hway
    rw [h, hparts, List.foldl_append, List.foldl_append, List.foldl_cons, List.foldl_nil,
      stride_name hname]
    rfl

/-- A name that is not too long to stand in a directory. -/
def Fits (base name : String) : Prop :=
  name.utf8ByteSize ≤ nameLimit ∧ (join base name).utf8ByteSize < pathLimit

instance (base name : String) : Decidable (Fits base name) := inferInstanceAs (Decidable (_ ∧ _))

theorem locate_join {base name : String} (hbase : base ≠ "") (hname : IsName name)
    (hdir : t.isDirectory base = true) (hfits : Fits base name) :
    t.locate (join base name) = .ok (placeOf base ++ [name]) := by
  obtain ⟨p, hp, hentry⟩ := find_eq_ok_iff.1 (isDirectory_iff.1 hdir)
  rw [← locate_eq_placeOf hp]
  exact (locate_join_iff hbase hname).2 ⟨p, hp, hentry, hfits.1, hfits.2, rfl⟩

/-- What is found in a directory. -/
theorem find_join {base name : String} (hbase : base ≠ "") (hname : IsName name)
    (hdir : t.isDirectory base = true) {entry : FileEntry} :
    t.find (join base name) = .ok entry ↔
      Fits base name ∧ t.get? (placeOf base ++ [name]) = some entry := by
  rw [find_eq_ok_iff]
  constructor
  · rintro ⟨q, hq, hentry⟩
    obtain ⟨p, hp, -, hlen, hpath, rfl⟩ := (locate_join_iff hbase hname).1 hq
    rw [← locate_eq_placeOf hp]
    exact ⟨⟨hlen, hpath⟩, hentry⟩
  · rintro ⟨hfits, hentry⟩
    exact ⟨_, locate_join hbase hname hdir hfits, hentry⟩

theorem follow_parts_join_of_ok {base name : String} {p : Place} (hbase : base ≠ "")
    (hname : IsName name) (hp : t.follow (parts base) = .ok p) :
    t.follow (parts (join base name)) = t.step p name := by
  rcases Path.parts_join hbase hname with h | ⟨way, hway, hbaseParts, h⟩
  · rw [h, follow_append (Path.parts_ne_nil base), hp]
    rfl
  · rw [hbaseParts, follow_append hway] at hp
    rw [h, follow_append hway]
    cases hfollow : t.follow way with
    | error e =>
      rw [hfollow] at hp
      cases hp
    | ok q =>
      rw [hfollow] at hp
      obtain ⟨-, rfl⟩ := step_empty_eq_ok_iff.1 hp
      rfl

/-- What does not fit is not found, whatever is in the directory. -/
theorem find_join_of_not_fits {base name : String} (hbase : base ≠ "") (hname : IsName name)
    (hdir : t.isDirectory base = true) (hfits : ¬ Fits base name) :
    t.find (join base name) = .error .nameTooLong := by
  obtain ⟨p, hp, hentry⟩ := find_eq_ok_iff.1 (isDirectory_iff.1 hdir)
  obtain ⟨hnul, -, -, hfollow⟩ := locate_eq_ok_iff.1 hp
  have hlocate : t.locate (join base name) = .error .nameTooLong := by
    unfold locate
    by_cases hlen : (join base name).utf8ByteSize < pathLimit
    · have hlong : nameLimit < name.utf8ByteSize := Nat.lt_of_not_le fun h => hfits ⟨h, hlen⟩
      rw [partsOf_eq_ok_iff.2 ⟨(nul_notMem_join_iff hname).2 hnul, Path.join_ne_empty hname, hlen,
        rfl⟩]
      show t.follow (parts (join base name)) = _
      rw [follow_parts_join_of_ok hbase hname hfollow, step, hentry]
      simp only
      rw [hname.notVoid, if_neg Bool.false_ne_true, if_neg (by simpa using hname.notParent),
        if_pos hlong]
    · have hempty : (join base name).isEmpty = false := by simpa using Path.join_ne_empty hname
      rw [partsOf, if_neg ((nul_notMem_join_iff hname).2 hnul), hempty, if_neg Bool.false_ne_true,
        if_pos (Nat.not_lt.1 hlen)]
      rfl
  unfold find
  rw [hlocate]
  rfl

/-- What is found in a directory is decided by what stands there. -/
theorem find_join_congr {u : FileTree} {base name : String} (hbase : base ≠ "")
    (hname : IsName name) (ht : t.isDirectory base = true) (hu : u.isDirectory base = true)
    (hentry : u.get? (placeOf base ++ [name]) = t.get? (placeOf base ++ [name])) :
    u.find (join base name) = t.find (join base name) := by
  by_cases hfits : Fits base name
  · unfold find
    rw [locate_join hbase hname ht hfits, locate_join hbase hname hu hfits]
    simp only [Bind.bind, Except.bind, hentry]
  · rw [find_join_of_not_fits hbase hname ht hfits, find_join_of_not_fits hbase hname hu hfits]

/-- What is at a name in a directory is in its listing. -/
theorem mem_of_get?_append_name {path : String} {names : List String} (h : t.list path = .ok names)
    {name : String} (hname : IsName name) {entry : FileEntry}
    (hentry : t.get? (placeOf path ++ [name]) = some entry) : name ∈ names := by
  obtain ⟨p, hp, -, rfl⟩ := list_eq_ok_iff.1 h
  rw [← locate_eq_placeOf hp, get?_append_name hname] at hentry
  exact mem_namesAt_iff.2 ((Table.contains_iff _ _).1 (Option.isSome_of_eq_some hentry))

/-! ## Ways that stay open -/

/-- All places above are directories, so that a way can lead here. -/
def Open (t : FileTree) (place : Place) : Prop :=
  ∀ above, above <+: place → above ≠ place → t.get? above = some .directory

theorem get?_root : t.get? [] = some .directory := rfl

theorem get?_workingPlace : t.get? workingPlace = some .directory := rfl

theorem open_startOf (way : List String) : t.Open (startOf way) := by
  intro above habove hne
  unfold startOf workingPlace at habove hne
  split at habove
  · rw [List.prefix_nil] at habove
    rw [habove]
    rfl
  · rw [List.prefix_cons_iff] at habove
    rcases habove with rfl | ⟨rest, rfl, hrest⟩
    · rfl
    · rw [List.prefix_nil] at hrest
      rw [hrest]
      rfl

theorem Open.of_prefix {p q : Place} (h : t.Open p) (hq : q <+: p) : t.Open q := by
  intro above habove hne
  refine h above (habove.trans hq) ?_
  rintro rfl
  exact hne (habove.eq_of_length (Nat.le_antisymm habove.length_le hq.length_le))

theorem Open.append {p : Place} (h : t.Open p) (hp : t.get? p = some .directory) (name : String) :
    t.Open (p ++ [name]) := by
  intro above habove hne
  rw [List.prefix_concat_iff] at habove
  rcases habove with rfl | habove
  · exact absurd rfl hne
  · by_cases he : above = p
    · rw [he]
      exact hp
    · exact h above habove he

theorem Open.stride {p : Place} (h : t.Open p) (hp : t.get? p = some .directory)
    (part : String) : t.Open (stride p part) := by
  unfold FileTree.stride
  split
  · exact h
  · split
    · exact h.of_prefix (List.dropLast_prefix p)
    · exact h.append hp part

theorem open_of_foldlM {way : List String} {p q : Place} (hp : t.Open p)
    (h : way.foldlM t.step p = .ok q) : t.Open q := by
  induction way generalizing p with
  | nil =>
    cases h
    exact hp
  | cons part way ih =>
    rw [List.foldlM_cons] at h
    cases hs : t.step p part with
    | error e => rw [hs] at h; cases h
    | ok next =>
      rw [hs] at h
      obtain ⟨rfl, hdir⟩ := step_eq_stride hs
      exact ih (hp.stride hdir part) h

theorem open_of_locate {path : String} {p : Place} (h : t.locate path = .ok p) : t.Open p :=
  open_of_foldlM (open_startOf _) (locate_eq_ok_iff.1 h).2.2.2

/-- A way stays open while the directories on it stay. -/
theorem foldlM_step_mono {u : FileTree}
    (hdirs : ∀ q, t.Open q → t.get? q = some .directory → u.get? q = some .directory)
    {way : List String} {p q : Place} (hp : t.Open p) (h : way.foldlM t.step p = .ok q) :
    way.foldlM u.step p = .ok q := by
  induction way generalizing p with
  | nil => exact h
  | cons part way ih =>
    rw [List.foldlM_cons] at h ⊢
    cases hs : t.step p part with
    | error e => rw [hs] at h; cases h
    | ok next =>
      rw [hs] at h
      obtain ⟨rfl, hdir⟩ := step_eq_stride hs
      have hu : u.step p part = t.step p part := by
        unfold step
        rw [hdirs p hp hdir, hdir]
      rw [hu, hs]
      exact ih (hp.stride hdir part) h

theorem locate_mono {u : FileTree}
    (hdirs : ∀ q, t.Open q → t.get? q = some .directory → u.get? q = some .directory)
    {path : String} {p : Place} (h : t.locate path = .ok p) : u.locate path = .ok p := by
  obtain ⟨hnul, hempty, hlen, hfollow⟩ := locate_eq_ok_iff.1 h
  exact locate_eq_ok_iff.2 ⟨hnul, hempty, hlen, foldlM_step_mono hdirs (open_startOf _) hfollow⟩

end FileTree

end PackageCatalog
