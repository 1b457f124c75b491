import Mathlib.Data.List.Sort
import PackageCatalog.Ascending
import PackageCatalog.Name.Basic
import PackageCatalog.Table

/-!
# Ascending lists as sets

An ascending list is determined by its members:

    Sorted xs → Sorted ys → (∀ a, a ∈ xs ↔ a ∈ ys) → xs = ys           (Sorted.eq_of_mem_iff)

Names of every kind are ordered by their texts, and tie only if they are equal.  Sorting keeps the
order of members that tie (`filter_mergeSort`).
-/

namespace PackageCatalog

/-! ## Orders of names -/

instance : Std.TransOrd Category where
  eq_swap {a b} := show compare a.text b.text = (compare b.text a.text).swap from
    Std.OrientedOrd.eq_swap
  isLE_trans {a _ c} h k := show (compare a.text c.text).isLE from Std.TransOrd.isLE_trans h k

instance : Std.LawfulEqOrd Category where
  compare_self {a} := show compare a.text a.text = _ from Std.ReflOrd.compare_self
  eq_of_compare {a b} h := by
    obtain ⟨s, hs⟩ := a
    obtain ⟨u, hu⟩ := b
    obtain rfl : s = u := Std.LawfulEqOrd.eq_of_compare h
    rfl

instance : Std.TransOrd PackageName where
  eq_swap {a b} := show compare a.text b.text = (compare b.text a.text).swap from
    Std.OrientedOrd.eq_swap
  isLE_trans {a _ c} h k := show (compare a.text c.text).isLE from Std.TransOrd.isLE_trans h k

instance : Std.LawfulEqOrd PackageName where
  compare_self {a} := show compare a.text a.text = _ from Std.ReflOrd.compare_self
  eq_of_compare {a b} h := by
    obtain ⟨s, hs⟩ := a
    obtain ⟨u, hu⟩ := b
    obtain rfl : s = u := Std.LawfulEqOrd.eq_of_compare h
    rfl

instance : Std.LawfulEqOrd UseFlag where
  compare_self {a} := show compare a.text a.text = _ from Std.ReflOrd.compare_self
  eq_of_compare {a b} h := by
    obtain ⟨s, hs⟩ := a
    obtain ⟨u, hu⟩ := b
    obtain rfl : s = u := Std.LawfulEqOrd.eq_of_compare h
    rfl

instance : Std.LawfulEqOrd QualifiedName where
  compare_self {a} := Ordering.then_eq_eq.2 ⟨Std.ReflOrd.compare_self, Std.ReflOrd.compare_self⟩
  eq_of_compare {a b} h := by
    obtain ⟨hcategory, hpackage⟩ := Ordering.then_eq_eq.1 h
    obtain ⟨c, p⟩ := a
    obtain ⟨d, q⟩ := b
    obtain rfl : c = d := Std.LawfulEqOrd.eq_of_compare hcategory
    obtain rfl : p = q := Std.LawfulEqOrd.eq_of_compare hpackage
    rfl

namespace Ascending

variable {α : Type} [Ord α]

/-- Each member comes before all that follow it. -/
def Sorted (xs : List α) : Prop := xs.Pairwise fun a b => compare a b = .lt

theorem sorted_nil : Sorted ([] : List α) := List.Pairwise.nil

theorem Sorted.nodup [Std.ReflOrd α] {xs : List α} (h : Sorted xs) : xs.Nodup := by
  refine h.imp fun {a b} hlt heq => ?_
  rw [heq, Std.ReflOrd.compare_self] at hlt
  cases hlt

variable [Std.TransOrd α]

theorem sorted_insert [Std.LawfulEqOrd α] {x : α} {xs : List α} (h : Sorted xs) :
    Sorted (insert x xs) := by
  induction xs with
  | nil => simp [insert, Sorted]
  | cons y ys ih =>
    obtain ⟨hy, hys⟩ := List.pairwise_cons.1 h
    unfold insert
    cases hc : compare x y with
    | lt =>
      refine List.pairwise_cons.2 ⟨fun a ha => ?_, h⟩
      rcases List.mem_cons.1 ha with rfl | ha
      · exact hc
      · exact Std.TransCmp.lt_trans hc (hy a ha)
    | eq => exact h
    | gt =>
      refine List.pairwise_cons.2 ⟨fun a ha => ?_, ih hys⟩
      rcases mem_insert.1 ha with rfl | ha
      · exact Std.OrientedCmp.lt_of_gt hc
      · exact hy a ha

theorem sorted_foldl_insert [Std.LawfulEqOrd α] (xs : List α) {set : List α} (h : Sorted set) :
    Sorted (xs.foldl (fun set x => insert x set) set) := by
  induction xs generalizing set with
  | nil => exact h
  | cons x xs ih => exact ih (sorted_insert h)

theorem sorted_ofList [Std.LawfulEqOrd α] (xs : List α) : Sorted (ofList xs) :=
  sorted_foldl_insert xs sorted_nil

theorem Sorted.eq_of_mem_iff {xs ys : List α} (hx : Sorted xs) (hy : Sorted ys)
    (h : ∀ a, a ∈ xs ↔ a ∈ ys) : xs = ys := by
  have : Std.Irrefl fun a b : α => compare a b = .lt := ⟨fun a ha => by
    rw [Std.ReflOrd.compare_self] at ha
    cases ha⟩
  have : Std.Antisymm fun a b : α => compare a b = .lt := ⟨fun a b hab hba => by
    rw [Std.OrientedOrd.eq_swap, hba] at hab
    cases hab⟩
  exact List.Pairwise.eq_of_mem_iff hx hy h

end Ascending

/-! ## Sorting -/

/-- Members that are alike in an order keep their places among each other when they are sorted. -/
theorem filter_mergeSort {α : Type} {le : α → α → Bool}
    (htrans : ∀ a b c, le a b = true → le b c = true → le a c = true)
    (htotal : ∀ a b, (le a b || le b a) = true) (xs : List α) {p : α → Bool}
    (h : ∀ a b, p a = true → p b = true → le a b = true) :
    (xs.mergeSort le).filter p = xs.filter p := by
  have hsub : (xs.filter p).Sublist (xs.mergeSort le) := by
    refine List.sublist_mergeSort htrans htotal ?_ List.filter_sublist
    refine List.pairwise_iff_forall_sublist.2 fun {a b} hab => ?_
    have ha := (List.mem_filter.1 (hab.subset List.mem_cons_self)).2
    have hb := (List.mem_filter.1 (hab.subset (List.mem_cons_of_mem _ List.mem_cons_self))).2
    exact h a b ha hb
  have hwithin := hsub.filter p
  rw [List.filter_filter] at hwithin
  simp only [Bool.and_self] at hwithin
  exact (hwithin.eq_of_length ((List.mergeSort_perm xs le).filter p).length_eq.symm).symm

end PackageCatalog
