import PackageCatalog.Proofs.Profile.Contents
import PackageCatalog.Proofs.Profile.Recall

/-!
# Calls to a chain of profiles

`x.Reached t memo` says that some calls, made one after the other while the files are `t`, leave the
chain with `memo`.  Whatever the calls were, what is remembered is right, and the active profile was
loaded from some directories:

    x.Reached t memo → x.Recalls t active memo for the profile of some directories   (Reached.sound)
    the chain goes through all lines of the files of one name, if it can read them  (reads_foldEach)
-/

namespace PackageCatalog.ProfileChain

open Profile (linesAt linesIn)
open Scan (Reads Yields)
open Selection (activeAfter)

variable {x : ProfileChain} {t : FileTree} {memo : ChainMemo}

/-! ## Going through the lines -/

/-- Each directory has a file of this name that can be read, or it has none. -/
def Readable (t : FileTree) (file : String) (dirs : List String) : Prop :=
  ∀ dir ∈ dirs, (Scan.content t (Path.join dir file)).isOk = true

section
variable {α τ : Type} {view : ChainMemo → τ} {file : String}
  {apply : String → α → String → Scan ChainMemo α} {read : α → String → α}

/-- One directory: the lines of its file, and whether it has one. -/
theorem reads_foldDir (happly : ∀ path a line, Reads view (apply path a line) t (.ok (read a line)))
    {dir : String} {content : Option String}
    (hcontent : Scan.content t (Path.join dir file) = .ok content) (found : α × Bool) :
    ∃ present, Reads view (do
        match ← Config.readLineFile (Path.join dir file) with
        | none => return found
        | some lines => return (← lines.foldlM (apply (Path.join dir file)) found.1, true)) t
      (.ok ((linesAt t (Path.join dir file)).foldl read found.1, present)) := by
  have hread : Reads view (Config.readLineFile (Path.join dir file)) t _ :=
    Scan.reads_readLineFile _
  unfold linesAt
  rw [hcontent] at hread ⊢
  cases content with
  | none => exact ⟨found.2, hread.bind_ok (Scan.reads_pure found)⟩
  | some text =>
    refine ⟨true, hread.bind_ok (.bind_ok ?_ (Scan.reads_pure _))⟩
    rw [← Scan.foldlM_ok]
    exact .foldlM _ (fun a line _ => happly _ a line) found.1

/-- The lines of all directories, if all of the files can be read. -/
theorem reads_foldEach
    (happly : ∀ path a line, Reads view (apply path a line) t (.ok (read a line))) (start : α) :
    ∃ r, Reads view (x.foldEach file apply start) t r ∧
      (r.isOk = true ↔ Readable t file x.profilesDirs) ∧
      ∀ a present, r = .ok (a, present) → a = (linesIn t file x.profilesDirs).foldl read start := by
  unfold foldEach linesIn Readable
  generalize false = found
  induction x.profilesDirs generalizing start found with
  | nil =>
    exact ⟨_, Scan.reads_pure _, ⟨fun _ => nofun, fun _ => rfl⟩, fun a present h => by cases h; rfl⟩
  | cons dir dirs ih =>
    rw [List.foldlM_cons, List.flatMap_cons, List.foldl_append, List.forall_mem_cons]
    cases hcontent : Scan.content t (Path.join dir file) with
    | error e =>
      have hread : Reads view (Config.readLineFile (Path.join dir file)) t _ :=
        Scan.reads_readLineFile _
      rw [hcontent] at hread
      exact ⟨.error e, .bind_error (.bind_error hread _) _, ⟨nofun, fun h => nomatch h.1⟩, nofun⟩
    | ok content =>
      obtain ⟨found', hfound'⟩ := reads_foldDir happly hcontent (start, found)
      obtain ⟨r, hr, hok, hfold⟩ := ih _ found'
      exact ⟨r, hfound'.bind_ok hr, hok.trans (and_iff_right rfl).symm, hfold⟩

/-- A chain that remembers nothing comes to the end of the lines if all of the files can be read. -/
theorem foldEach_on (read : α → String → α)
    (happly : ∀ path a line, Reads id (apply path a line) t (.ok (read a line))) (start : α)
    (h : Readable t file x.profilesDirs) :
    ∃ present j, (x.foldEach file apply start).on t ⟨{}, []⟩ =
      (.ok ((linesIn t file x.profilesDirs).foldl read start, present), j) := by
  obtain ⟨r, hread, hok, hfold⟩ := reads_foldEach (x := x) happly start
  obtain ⟨j, hj, -⟩ := hread.on_eq ⟨{}, []⟩
  cases r with
  | error e => cases hok.2 h
  | ok found =>
    obtain ⟨a, present⟩ := found
    obtain rfl := hfold a present rfl
    exact ⟨present, j, hj⟩

end

/-! ## Calls on one tree -/

/-- What a chain remembers after some calls while the files are the same.  A chain that is told to
forget starts again. -/
inductive Reached (x : ProfileChain) (t : FileTree) : ChainMemo → Prop
  | start : Reached x t {}
  | asked {α : Type} (q : ProfileQuestion α) {j : Journal ChainMemo} (h : Reached x t j.memo) :
    Reached x t ((x.answer q).on t j).2.memo
  | adopted (d : ProfileDescriptor) {j : Journal ChainMemo} (h : Reached x t j.memo) :
    Reached x t ((adopt d).on t j).2.memo
  | masked {j : Journal ChainMemo} (h : Reached x t j.memo) :
    Reached x t (x.needMasks.on t j).2.memo

/-- The profile of some directories in the files. -/
def loadedIn (t : FileTree) (starts : List String) : Except Error Profile :=
  (Profile.load starts : Scan ChainMemo Profile).found t

/-- The profile of some directories is active, and the rest of what is remembered is right. -/
def Sound (x : ProfileChain) (t : FileTree) (memo : ChainMemo) : Prop :=
  ∃ starts, x.Recalls t (loadedIn t starts) memo

/-- A profile that is selected was loaded from the directory of some descriptor. -/
theorem sound_activeAfter {starts : List String} {r : Except Error (Option Profile)}
    (hr : ∀ p, r = .ok (some p) → ∃ d, loadIn t d = .ok p)
    (h : x.Recalls t (activeAfter (loadedIn t starts) r) memo) : x.Sound t memo := by
  match r, hr with
  | .ok (some p), hr =>
    obtain ⟨d, hd⟩ := hr p rfl
    exact ⟨[d.path], (show loadedIn t [d.path] = .ok p from hd) ▸ h⟩
  | .ok none, _ => exact ⟨starts, h⟩
  | .error e, _ => exact ⟨starts, h⟩

theorem loadIn_of_profileAtIn {k : Nat} {p : Profile} (h : x.profileAtIn t k = .ok (some p)) :
    ∃ d, loadIn t d = .ok p := by
  obtain ⟨list, hlist, -⟩ := Scan.bind_eq_ok_iff.1 h
  rw [profileAtIn_of_ok hlist] at h
  cases hk : list[k]? with
  | none =>
    rw [hk] at h
    cases h
  | some d =>
    rw [hk] at h
    obtain ⟨p', hp', hsome⟩ := Scan.map_eq_ok_iff.1 h
    cases hsome
    exact ⟨d, hp'⟩

theorem loadIn_of_byArchIn {arch : String} {p : Profile} (h : x.byArchIn t arch = .ok p) :
    ∃ d, loadIn t d = .ok p := by
  obtain ⟨list, hlist, -⟩ := Scan.bind_eq_ok_iff.1 h
  rw [byArchIn_of_ok hlist] at h
  cases hd : (choose list arch).bind (list[·]?) with
  | none =>
    rw [hd] at h
    cases h
  | some d =>
    rw [hd] at h
    exact ⟨d, h⟩

/-- One call more. -/
theorem Sound.answer {j : Journal ChainMemo} (h : x.Sound t j.memo) {α : Type}
    (q : ProfileQuestion α) : x.Sound t ((x.answer q).on t j).2.memo := by
  obtain ⟨starts, h⟩ := h
  cases hselects : q.selects with
  | false => exact ⟨starts, (answer_agrees hselects j j ⟨h, h⟩).2.1⟩
  | true =>
    cases q with
    | select k =>
      obtain ⟨j', hj', h'⟩ := Selection.select_on k h
      show x.Sound t ((x.select k).on t j).2.memo
      rw [hj']
      exact sound_activeAfter (fun p hp => loadIn_of_profileAtIn hp) h'
    | selectByArch arch =>
      obtain ⟨result, j', hj', -, h'⟩ := Selection.selectByArch_on arch h
      show x.Sound t ((x.selectByArch arch).on t j).2.memo
      rw [hj']
      refine sound_activeAfter (fun p hp => ?_) h'
      obtain ⟨p', hp', hsome⟩ := Scan.map_eq_ok_iff.1 hp
      cases hsome
      exact loadIn_of_byArchIn hp'
    | _ => cases hselects

theorem Sound.adopt {j : Journal ChainMemo} (h : x.Sound t j.memo) (d : ProfileDescriptor) :
    x.Sound t ((ProfileChain.adopt d).on t j).2.memo := by
  obtain ⟨starts, h⟩ := h
  obtain ⟨j', hj', h'⟩ := Selection.adopt_on d h
  rw [hj']
  refine sound_activeAfter (fun p hp => ?_) h'
  obtain ⟨p', hp', hsome⟩ := Scan.map_eq_ok_iff.1 hp
  cases hsome
  exact ⟨d, hp'⟩

/-- Whatever was called, what is remembered is right. -/
theorem Reached.sound (h : x.Reached t memo) : x.Sound t memo := by
  induction h with
  | start => exact ⟨x.configured, recalls_selecting none⟩
  | asked q _ ih => exact ih.answer q
  | adopted d _ ih => exact ih.adopt d
  | @masked j _ ih =>
    obtain ⟨starts, ih⟩ := ih
    exact ⟨starts, (needMasks_yields j ih).2⟩

/-- The active profile is what the files of its directories make of it. -/
theorem Reached.holds {j : Journal ChainMemo} (h : x.Reached t j.memo) {p : Profile}
    (hp : (x.profile.on t j).1 = .ok p) : Profile.Holds t p := by
  obtain ⟨starts, h⟩ := h.sound
  rw [(profile_recalls j h).1] at hp
  exact Profile.load_holds hp

end PackageCatalog.ProfileChain
