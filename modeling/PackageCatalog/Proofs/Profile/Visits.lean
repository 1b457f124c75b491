import Mathlib.Logic.ExistsUnique
import PackageCatalog.Proofs.Scans
import PackageCatalog.Profile.Stack

/-!
# Visits to profile directories

`Profile.stack` follows `parent` files to a bounded depth.  `Visits t depth s paths r` is the same
walk without the bound in its recursion: paths are visited one after the other, the parents of a
directory before it is put on the stack, and `depth` counts upwards until there are too many
generations.  Every walk ends, cyclic parents or not, and it ends in one way only:

    ∃! r, Visits t depth s paths r                                        (existsUnique_visits)
    the stack of a profile is what the visits of its directories end with (visits_iff_stack)
-/

namespace PackageCatalog.Profile

variable {σ : Type} {t : FileTree}

/-! ## Parents -/

/-- The paths that the `parent` file of a directory names, none if there is no such file. -/
def parentsOf (t : FileTree) (dir : String) : Except Error (List String) :=
  (Scan.content t (Path.join dir "parent")).map fun text =>
    ((text.map Config.entryLines).getD []).map (Path.join dir)

/-- The `parent` file of a directory has a line that leads to this path. -/
def Names (t : FileTree) (dir path : String) : Prop :=
  ∃ parents, parentsOf t dir = .ok parents ∧ path ∈ parents

namespace Stack

/-- Whether a directory was entered, perhaps under another spelling. -/
def Knows (s : Stack) (dir : String) : Prop := ∃ e ∈ s.entered, Path.same dir e = true

instance (s : Stack) (dir : String) : Decidable (s.Knows dir) :=
  inferInstanceAs (Decidable (∃ e ∈ s.entered, _))

def enter (s : Stack) (dir : String) : Stack := { s with entered := s.entered ++ [dir] }

def put (s : Stack) (dir : String) : Stack := { s with dirs := s.dirs ++ [dir] }

end Stack

/-! ## Visits -/

/-- The parents that are visited before a directory is put on the stack; nothing if the directory
was entered before. -/
def ahead (t : FileTree) (depth : Nat) (s : Stack) (dir : String) :
    Except Error (Option (List String)) :=
  if parentLimit ≤ depth then .error (.configuration (.parentsTooDeep dir))
  else if s.Knows dir then .ok none
  else if t.isDirectory dir then (parentsOf t dir).map some
  else .error (.configuration (.noProfileDirectory dir))

theorem ahead_eq_some_iff {depth : Nat} {s : Stack} {dir : String} {parents : List String} :
    ahead t depth s dir = .ok (some parents) ↔ depth < parentLimit ∧ ¬ s.Knows dir ∧
      t.isDirectory dir = true ∧ parentsOf t dir = .ok parents := by
  unfold ahead
  by_cases hdepth : parentLimit ≤ depth
  · simp [hdepth, Nat.not_lt.2 hdepth]
  · by_cases hknown : s.Knows dir
    · simp [hdepth, hknown]
    · by_cases hdir : t.isDirectory dir = true
      · simp [hdepth, hknown, hdir, Scan.map_eq_ok_iff, Nat.lt_of_not_le hdepth]
      · simp [hdepth, hknown, hdir]

theorem ahead_eq_none_iff {depth : Nat} {s : Stack} {dir : String} :
    ahead t depth s dir = .ok none ↔ depth < parentLimit ∧ s.Knows dir := by
  unfold ahead
  by_cases hdepth : parentLimit ≤ depth
  · simp [hdepth, Nat.not_lt.2 hdepth]
  · by_cases hknown : s.Knows dir
    · simp [hdepth, hknown, Nat.lt_of_not_le hdepth]
    · by_cases hdir : t.isDirectory dir = true
      · simp [hdepth, hknown, hdir, Scan.map_eq_ok_iff]
      · simp [hdepth, hknown, hdir]

/-- Visiting paths one after the other, so many generations away from the start, ends with a stack
or with an error. -/
inductive Visits (t : FileTree) : Nat → Stack → List String → Except Error Stack → Prop
  | done {depth : Nat} {s : Stack} : Visits t depth s [] (.ok s)
  | again {depth : Nat} {s : Stack} {dir : String} {rest : List String} {r : Except Error Stack}
      (hahead : ahead t depth s dir = .ok none) (hrest : Visits t depth s rest r) :
      Visits t depth s (dir :: rest) r
  | refused {depth : Nat} {s : Stack} {dir : String} {rest : List String} {e : Error}
      (hahead : ahead t depth s dir = .error e) : Visits t depth s (dir :: rest) (.error e)
  | failed {depth : Nat} {s : Stack} {dir : String} {rest parents : List String} {e : Error}
      (hahead : ahead t depth s dir = .ok (some parents))
      (hparents : Visits t (depth + 1) (s.enter dir) parents (.error e)) :
      Visits t depth s (dir :: rest) (.error e)
  | put {depth : Nat} {s s' : Stack} {dir : String} {rest parents : List String}
      {r : Except Error Stack} (hahead : ahead t depth s dir = .ok (some parents))
      (hparents : Visits t (depth + 1) (s.enter dir) parents (.ok s'))
      (hrest : Visits t depth (s'.put dir) rest r) : Visits t depth s (dir :: rest) r

theorem Visits.unique {depth : Nat} {s : Stack} {paths : List String} {r r' : Except Error Stack}
    (h : Visits t depth s paths r) (h' : Visits t depth s paths r') : r = r' := by
  induction h generalizing r' with
  | done =>
    cases h'
    rfl
  | again hahead _ ih =>
    cases h' with
    | again _ hrest => exact ih hrest
    | refused hahead' => cases hahead.symm.trans hahead'
    | failed hahead' => cases hahead.symm.trans hahead'
    | put hahead' => cases hahead.symm.trans hahead'
  | refused hahead =>
    cases h' with
    | again hahead' => cases hahead.symm.trans hahead'
    | refused hahead' =>
      cases hahead.symm.trans hahead'
      rfl
    | failed hahead' => cases hahead.symm.trans hahead'
    | put hahead' => cases hahead.symm.trans hahead'
  | failed hahead _ ih =>
    cases h' with
    | again hahead' => cases hahead.symm.trans hahead'
    | refused hahead' => cases hahead.symm.trans hahead'
    | failed hahead' hparents =>
      cases hahead.symm.trans hahead'
      exact ih hparents
    | put hahead' hparents =>
      cases hahead.symm.trans hahead'
      cases ih hparents
  | put hahead _ _ ihparents ihrest =>
    cases h' with
    | again hahead' => cases hahead.symm.trans hahead'
    | refused hahead' => cases hahead.symm.trans hahead'
    | failed hahead' hparents =>
      cases hahead.symm.trans hahead'
      cases ihparents hparents
    | put hahead' hparents hrest =>
      cases hahead.symm.trans hahead'
      cases ihparents hparents
      exact ihrest hrest

/-! ## The walk -/

/-- One step of the walk is what is ahead of a directory, and then the walk over its parents. -/
theorem stack_on (fuel : Nat) (s : Stack) (dir : String) {depth : Nat} (hdepth : depth < parentLimit)
    (j : Journal σ) : ∃ j', (stack (fuel + 1) s dir).on t j =
      match ahead t depth s dir with
      | .error e => (.error e, j')
      | .ok none => (.ok s, j')
      | .ok (some parents) =>
        (((parents.foldlM (stack fuel) (s.enter dir)).on t j').1.map (·.put dir),
          ((parents.foldlM (stack fuel) (s.enter dir)).on t j').2) := by
  unfold stack ahead
  rw [if_neg (Nat.not_le.2 hdepth)]
  have hknown : s.entered.any (Path.same dir) = true ↔ s.Knows dir := by
    simp [Stack.Knows]
  by_cases hknows : s.Knows dir
  · rw [if_pos (hknown.2 hknows), if_pos hknows]
    exact ⟨j, rfl⟩
  · rw [if_neg (mt hknown.1 hknows), if_neg hknows, Scan.on_bind_of_ok (Scan.on_isDirectory dir t j)]
    cases hdir : t.isDirectory dir with
    | false => exact ⟨j, rfl⟩
    | true =>
      have hread : Scan.Reads (id : σ → σ) (Config.readLineFile (Path.join dir "parent")) t _ :=
        Scan.reads_readLineFile _
      obtain ⟨j', hj', -⟩ := hread.on_eq j
      refine ⟨j', ?_⟩
      unfold parentsOf
      cases hcontent : Scan.content t (Path.join dir "parent") with
      | error e =>
        rw [hcontent] at hj'
        exact Scan.on_bind_of_error hj' _
      | ok text =>
        rw [hcontent] at hj'
        refine (Scan.on_bind_of_ok hj' _).trans ?_
        show (List.foldlM (fun s parent => stack fuel s (Path.join dir parent)) (s.enter dir)
          ((text.map Config.entryLines).getD []) >>= fun s => pure (s.put dir)).on t j' = _
        rw [bind_pure_comp, Scan.on_map, ← List.foldlM_map]
        rfl

/-- The walk with as much fuel as generations are left is a visit. -/
theorem visits_foldlM_stack {fuel depth : Nat} (hfuel : depth + fuel = parentLimit) (s : Stack)
    (paths : List String) (j : Journal σ) :
    Visits t depth s paths ((paths.foldlM (stack fuel) s).on t j).1 := by
  -- On the generations that are left, and for each of them on the paths: the parents of a path are
  -- visited with one generation less, the paths after it with as many.
  induction fuel generalizing depth s paths j with
  | zero =>
    cases paths with
    | nil => exact .done
    | cons dir rest =>
      refine .refused ?_
      unfold ahead
      rw [if_pos (by omega)]
  | succ fuel ih =>
    have hdepth : depth < parentLimit := by omega
    induction paths generalizing s j with
    | nil => exact .done
    | cons dir rest ihrest =>
      obtain ⟨j', hj'⟩ := stack_on (t := t) fuel s dir hdepth j
      rw [List.foldlM_cons]
      cases hahead : ahead t depth s dir with
      | error e =>
        rw [hahead] at hj'
        rw [Scan.on_bind_of_error hj']
        exact .refused hahead
      | ok found =>
        rw [hahead] at hj'
        cases found with
        | none =>
          rw [Scan.on_bind_of_ok hj']
          exact .again hahead (ihrest s j')
        | some parents =>
          have hparents := ih (by omega : depth + 1 + fuel = parentLimit) (s.enter dir) parents j'
          dsimp only at hj'
          cases hwalk : ((parents.foldlM (stack fuel) (s.enter dir)).on t j').1 with
          | error e =>
            rw [hwalk] at hj' hparents
            rw [Scan.on_bind_of_error hj']
            exact .failed hahead hparents
          | ok s' =>
            rw [hwalk] at hj' hparents
            rw [Scan.on_bind_of_ok hj']
            exact .put hahead hparents (ihrest _ _)

theorem existsUnique_visits (t : FileTree) {depth : Nat} (hdepth : depth ≤ parentLimit) (s : Stack)
    (paths : List String) : ∃! r, Visits t depth s paths r := by
  have h := visits_foldlM_stack (t := t) (Nat.add_sub_of_le hdepth) s paths
    (⟨(), []⟩ : Journal Unit)
  exact ⟨_, h, fun r hr => hr.unique h⟩

/-- The stack of a profile is what visiting its directories ends with. -/
theorem visits_iff_stack {starts : List String} {r : Except Error Stack} (j : Journal σ) :
    Visits t 0 {} starts r ↔ ((starts.foldlM (stack parentLimit) {}).on t j).1 = r := by
  have h := visits_foldlM_stack (t := t) (Nat.zero_add parentLimit) {} starts j
  exact ⟨fun hr => h.unique hr, fun hr => hr ▸ h⟩

end PackageCatalog.Profile
