import PackageCatalog.Proofs.Version.Transitive
import PackageCatalog.Virtuals.Search

/-!
# Ranges of a sorted array

Halving finds in a sorted array what a search through all of it finds.

    between low high xs = xs.toList.filter fun a => !low a && high a   (between_eq_filter)
    the range of key k  = xs.toList.filter fun a => f a = k            (range_eq_filter)
-/

namespace PackageCatalog.Virtuals

variable {α β : Type}

/-! ## The part for which a predicate holds -/

section Boundary

variable {p : α → Bool} {xs : Array α}

theorem of_mem_take_partitionPoint (hp : Partitioned p xs) {a : α}
    (ha : a ∈ xs.toList.take (partitionPoint p xs)) : p a = true := by
  obtain ⟨i, hi, rfl⟩ := List.mem_take_iff_getElem.1 ha
  have hbound : i < partitionPoint p xs ∧ i < xs.size := by simpa using hi
  exact (lt_partitionPoint_iff hp i hbound.2).1 hbound.1

theorem of_mem_drop_partitionPoint (hp : Partitioned p xs) {a : α}
    (ha : a ∈ xs.toList.drop (partitionPoint p xs)) : p a = false := by
  obtain ⟨i, hi, rfl⟩ := List.mem_drop_iff_getElem.1 ha
  have hbound : i + partitionPoint p xs < xs.size := hi
  refine Bool.eq_false_iff.2 fun hpa => ?_
  have := (lt_partitionPoint_iff hp _ _).2 hpa
  omega

theorem take_partitionPoint (hp : Partitioned p xs) :
    xs.toList.take (partitionPoint p xs) = xs.toList.filter p := by
  conv_rhs => rw [← List.take_append_drop (partitionPoint p xs) xs.toList]
  rw [List.filter_append, List.filter_eq_self.2 fun a => of_mem_take_partitionPoint hp,
    List.filter_eq_nil_iff.2 fun a ha => by simp [of_mem_drop_partitionPoint hp ha],
    List.append_nil]

/-- Past the boundary, in any first part of the array. -/
theorem drop_partitionPoint (hp : Partitioned p xs) (n : Nat) :
    (xs.toList.take n).drop (partitionPoint p xs) =
      (xs.toList.take n).filter fun a => !p a := by
  have hbefore : ∀ a ∈ (xs.toList.take n).take (partitionPoint p xs), p a = true := by
    intro a ha
    rw [List.take_take, Nat.min_comm, ← List.take_take] at ha
    exact of_mem_take_partitionPoint hp (List.mem_of_mem_take ha)
  have hafter : ∀ a ∈ (xs.toList.take n).drop (partitionPoint p xs), p a = false := by
    intro a ha
    rw [List.drop_take] at ha
    exact of_mem_drop_partitionPoint hp (List.mem_of_mem_take ha)
  conv_rhs => rw [← List.take_append_drop (partitionPoint p xs) (xs.toList.take n)]
  rw [List.filter_append, List.filter_eq_nil_iff.2 fun a ha => by simp [hbefore a ha],
    List.filter_eq_self.2 fun a ha => by simp [hafter a ha], List.nil_append]

end Boundary

/-- The range between two boundaries is what a search through the whole array finds, also where the
boundaries are at its ends or cross. -/
theorem between_eq_filter {low high : α → Bool} {xs : Array α} (hlow : Partitioned low xs)
    (hhigh : Partitioned high xs) :
    between low high xs = xs.toList.filter fun a => !low a && high a := by
  calc between low high xs
      = (xs.toList.take (partitionPoint high xs)).drop (partitionPoint low xs) := by
        rw [between, Array.toList_extract, List.extract_eq_take_drop, List.drop_take]
    _ = (xs.toList.filter high).filter fun a => !low a := by
        rw [drop_partitionPoint hlow, take_partitionPoint hhigh]
    _ = xs.toList.filter fun a => !low a && high a := List.filter_filter

/-! ## Sorted arrays -/

section Sorted

variable [Ord β]

/-- The values of `f` ascend, possibly with repetitions. -/
def SortedBy (f : α → β) (xs : List α) : Prop :=
  xs.Pairwise fun a b => (compare (f a) (f b)).isLE

theorem SortedBy.le_of_le {f : α → β} [Std.ReflOrd β] {xs : Array α} (h : SortedBy f xs.toList)
    {i j : Nat} (hi : i < xs.size) (hj : j < xs.size) (hij : i ≤ j) :
    (compare (f xs[i]) (f xs[j])).isLE := by
  rcases Nat.lt_or_eq_of_le hij with hlt | rfl
  · exact List.pairwise_iff_getElem.1 h i j hi hj hlt
  · rw [Std.ReflOrd.compare_self]
    rfl

variable [Std.TransOrd β]

theorem SortedBy.partitioned_lt {f : α → β} {xs : Array α} (h : SortedBy f xs.toList) (k : β) :
    Partitioned (fun a => compare (f a) k == .lt) xs := by
  intro i j hi hj hij hlt
  have hle := h.le_of_le hi hj hij
  exact beq_iff_eq.2 (Std.TransCmp.lt_of_isLE_of_lt hle (beq_iff_eq.1 hlt))

theorem SortedBy.partitioned_le {f : α → β} {xs : Array α} (h : SortedBy f xs.toList) (k : β) :
    Partitioned (fun a => compare (f a) k != .gt) xs := by
  intro i j hi hj hij hle
  have hne := bne_iff_ne.1 hle
  exact bne_iff_ne.2 (Ordering.ne_gt_iff_isLE.2
    (Std.TransCmp.isLE_trans (h.le_of_le hi hj hij) (Ordering.ne_gt_iff_isLE.1 hne)))

theorem range_eq_filter [Std.LawfulEqOrd β] [DecidableEq β] {f : α → β} {xs : Array α}
    (h : SortedBy f xs.toList) (k : β) :
    between (fun a => compare (f a) k == .lt) (fun a => compare (f a) k != .gt) xs =
      xs.toList.filter fun a => f a = k := by
  rw [between_eq_filter (h.partitioned_lt k) (h.partitioned_le k)]
  refine List.filter_congr fun a _ => ?_
  have heq := Std.LawfulEqOrd.compare_eq_iff_eq (a := f a) (b := k)
  cases hc : compare (f a) k <;> simp [← heq, hc]

end Sorted

end PackageCatalog.Virtuals
