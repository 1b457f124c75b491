import PackageCatalog.Table

/-!
# Tables as finite maps

The keys of a table, and what is left of one when only some keys are kept:

    (t.insert k a).keys = if k ∈ t.keys then t.keys else t.keys ++ [k]        (keys_insert)
    find? k (ps.filter (keep ·.1)) = if keep k then find? k ps else none      (find?_filter)
-/

namespace PackageCatalog.Table

variable {κ α : Type} [DecidableEq κ]

/-! ## Keys -/

theorem find?_isSome_iff (k : κ) (ps : List (κ × α)) :
    (find? k ps).isSome = true ↔ k ∈ ps.map Prod.fst := by
  induction ps with
  | nil => simp [find?]
  | cons p r ih =>
    unfold find?
    by_cases hk : p.1 = k
    · simp [hk]
    · have hk' : k ≠ p.1 := fun e => hk e.symm
      rw [if_neg hk, ih, List.map_cons, List.mem_cons]
      simp [hk']

theorem contains_iff (t : Table κ α) (k : κ) : t.contains k = true ↔ k ∈ t.keys :=
  find?_isSome_iff k t.entries

theorem contains_eq_of_keys_eq {β : Type} {t : Table κ α} {u : Table κ β} (h : t.keys = u.keys)
    (k : κ) : t.contains k = u.contains k := by
  rw [Bool.eq_iff_iff, contains_iff, contains_iff, h]

theorem map_fst_put (k : κ) (a : α) (ps : List (κ × α)) :
    (put k a ps).map Prod.fst =
      if k ∈ ps.map Prod.fst then ps.map Prod.fst else ps.map Prod.fst ++ [k] := by
  induction ps with
  | nil => rfl
  | cons p r ih =>
    unfold put
    by_cases hk : p.1 = k
    · simp [hk]
    · have hk' : k ≠ p.1 := fun e => hk e.symm
      rw [if_neg hk, List.map_cons, ih, List.map_cons]
      by_cases hr : k ∈ r.map Prod.fst
      · rw [if_pos hr, if_pos (List.mem_cons_of_mem _ hr)]
      · rw [if_neg hr, if_neg (by simp only [List.mem_cons, hk', hr, or_self, not_false_eq_true])]
        rfl

theorem keys_insert (t : Table κ α) (k : κ) (a : α) :
    (t.insert k a).keys = if k ∈ t.keys then t.keys else t.keys ++ [k] :=
  map_fst_put k a t.entries

theorem nodup_keys_insert {t : Table κ α} (h : t.keys.Nodup) (k : κ) (a : α) :
    (t.insert k a).keys.Nodup := by
  rw [keys_insert]
  by_cases hk : k ∈ t.keys
  · rw [if_pos hk]
    exact h
  · rw [if_neg hk, List.nodup_append]
    refine ⟨h, by simp, ?_⟩
    intro a ha b hb
    rw [List.mem_singleton] at hb
    rintro rfl
    exact hk (hb ▸ ha)

/-! ## Entries -/

theorem find?_filter (keep : κ → Bool) (k : κ) (ps : List (κ × α)) :
    find? k (ps.filter fun p => keep p.1) = if keep k then find? k ps else none := by
  induction ps with
  | nil => simp [find?]
  | cons p r ih =>
    rw [List.filter_cons]
    by_cases hk : p.1 = k
    · subst hk
      cases hkeep : keep p.1 with
      | true => simp [find?]
      | false => simpa [hkeep] using ih
    · cases keep p.1 with
      | true => simp [find?, hk, ih]
      | false => simp [find?, hk, ih]

theorem find?_map {β : Type} (f : α → β) (k : κ) (ps : List (κ × α)) :
    find? k (ps.map fun p => (p.1, f p.2)) = (find? k ps).map f := by
  induction ps with
  | nil => rfl
  | cons p r ih =>
    unfold find?
    rw [apply_ite (Option.map f), ← ih]
    rfl

theorem find?_eq_some_iff {k : κ} {a : α} {ps : List (κ × α)} (h : (ps.map Prod.fst).Nodup) :
    find? k ps = some a ↔ (k, a) ∈ ps := by
  induction ps with
  | nil => simp [find?]
  | cons p r ih =>
    rw [List.map_cons, List.nodup_cons] at h
    obtain ⟨k', b⟩ := p
    unfold find?
    by_cases hk : k' = k
    · subst hk
      have hr : (k', a) ∉ r := fun hmem => h.1 (List.mem_map.2 ⟨_, hmem, rfl⟩)
      simp [hr, eq_comm]
    · have hk' : k ≠ k' := fun e => hk e.symm
      rw [if_neg hk, ih h.2, List.mem_cons]
      simp [hk']

end PackageCatalog.Table
