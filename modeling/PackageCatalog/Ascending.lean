/-!
# Ascending lists

A finite set is kept as a list in ascending order without repetition.

    a ∈ insert x xs ↔ a = x ∨ a ∈ xs        (mem_insert)
    a ∈ ofList xs   ↔ a ∈ xs                (mem_ofList)
-/

namespace PackageCatalog.Ascending

variable {α : Type} [Ord α]

/-! ## Algorithm -/

def insert (x : α) : List α → List α
  | [] => [x]
  | y :: ys =>
    match compare x y with
    | .lt => x :: y :: ys
    | .eq => y :: ys
    | .gt => y :: insert x ys

def ofList (xs : List α) : List α :=
  xs.foldl (fun set x => insert x set) []

/-! ## Lemmas -/

theorem mem_insert [Std.LawfulEqOrd α] {a x : α} {xs : List α} :
    a ∈ insert x xs ↔ a = x ∨ a ∈ xs := by
  induction xs with
  | nil => simp [insert]
  | cons y ys ih =>
    unfold insert
    cases h : compare x y with
    | lt => simp
    | eq =>
      have := Std.LawfulEqOrd.eq_of_compare h
      subst this
      simp
    | gt => simp only [List.mem_cons, ih]; grind

theorem mem_foldl_insert [Std.LawfulEqOrd α] {a : α} (xs set : List α) :
    a ∈ xs.foldl (fun set x => insert x set) set ↔ a ∈ xs ∨ a ∈ set := by
  induction xs generalizing set with
  | nil => simp
  | cons x xs ih => simp only [List.foldl_cons, ih, mem_insert, List.mem_cons]; grind

theorem mem_ofList [Std.LawfulEqOrd α] {a : α} {xs : List α} : a ∈ ofList xs ↔ a ∈ xs := by
  simp [ofList, mem_foldl_insert]

end PackageCatalog.Ascending
