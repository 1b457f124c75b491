/-!
# Searching an ordered array

`partitionPoint p xs` halves the array until it finds the boundary between the elements that satisfy
`p` and those that do not.

    every index below it satisfies p, every index from it on does not,
    provided that no element that fails p stands before one that satisfies it
                                                              (lt_partitionPoint_iff)
-/

namespace PackageCatalog.Virtuals

variable {α : Type}

/-! ## Algorithm -/

/-- The boundary between `lo` and `hi`, where all below `lo` satisfies `p` and nothing from `hi` on
does. -/
def boundary (p : α → Bool) (xs : Array α) (lo hi : Nat) (h : hi ≤ xs.size) : Nat :=
  if hlt : lo < hi then
    let mid := lo + (hi - lo) / 2
    have inside : mid < xs.size := by omega
    if p xs[mid] then boundary p xs (mid + 1) hi h
    else boundary p xs lo mid (by omega)
  else lo
termination_by hi - lo

def partitionPoint (p : α → Bool) (xs : Array α) : Nat :=
  boundary p xs 0 xs.size (Nat.le_refl _)

/-- The elements for which `low` fails and `high` holds, where both hold of a first part only. -/
def between (low high : α → Bool) (xs : Array α) : List α :=
  (xs.extract (partitionPoint low xs) (partitionPoint high xs)).toList

/-! ## Lemmas -/

/-- Elements that satisfy `p` come before those that do not. -/
def Partitioned (p : α → Bool) (xs : Array α) : Prop :=
  ∀ i j (_ : i < xs.size) (_ : j < xs.size), i ≤ j → p xs[j] = true → p xs[i] = true

theorem lt_boundary_iff {p : α → Bool} {xs : Array α} (hp : Partitioned p xs) (lo hi : Nat)
    (h : hi ≤ xs.size) (hlo : ∀ i (_ : i < xs.size), i < lo → p xs[i] = true)
    (hhi : ∀ i (_ : i < xs.size), hi ≤ i → p xs[i] = false) (hle : lo ≤ hi) (i : Nat)
    (inRange : i < xs.size) : i < boundary p xs lo hi h ↔ p xs[i] = true := by
  fun_induction boundary p xs lo hi h with
  | case1 lo hi h hlt mid inside hm ih =>
    refine ih (fun j hj below => ?_) hhi (by omega)
    exact hp j mid hj (by omega) (by omega) hm
  | case2 lo hi h hlt mid inside hm ih =>
    refine ih hlo (fun j hj hge => ?_) (by omega)
    cases hpj : p xs[j] with
    | false => rfl
    | true => exact absurd (hp mid j (by omega) hj hge hpj) hm
  | case3 lo hi h hnlt =>
    constructor
    · exact hlo i inRange
    · intro hpi
      have hlohi : lo = hi := by omega
      cases Nat.lt_or_ge i lo with
      | inl hlt => exact hlt
      | inr hge =>
        rw [hhi i inRange (by omega)] at hpi
        cases hpi

theorem lt_partitionPoint_iff {p : α → Bool} {xs : Array α} (hp : Partitioned p xs) (i : Nat)
    (hi : i < xs.size) : i < partitionPoint p xs ↔ p xs[i] = true :=
  lt_boundary_iff hp 0 xs.size _ (fun _ _ h => absurd h (by omega))
    (fun i hi h => absurd h (by omega)) (Nat.zero_le _) i hi

end PackageCatalog.Virtuals
