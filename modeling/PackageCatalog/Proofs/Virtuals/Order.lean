import PackageCatalog.Proofs.Virtuals.Ranges
import PackageCatalog.Virtuals.Index

/-!
# The order of an index of providers

`BestFirst` puts entries in order of importance and of name and leaves those that tie as they were
given, which settles the order (`BestFirst.unique`).  Sorting the whole source puts the entries of
each version of each virtual in that order:

    BestFirst (ranked.filter at n, v) ((sortedEntries ranked).filter at n, v)
                                                          (bestFirst_sortedEntries)

and the ranges of the index are what a search through the sorted entries finds.
-/

namespace PackageCatalog

/-! ## The best first -/

namespace RankedEntry

/-- Equally important, and of providers of the same name. -/
def ties (a b : RankedEntry) : Bool :=
  a.importance = b.importance && a.entry.provider = b.entry.provider

/-- More important, or as important and with a name that does not come before. -/
def AtLeast (a b : RankedEntry) : Prop :=
  b.importance < a.importance ∨
    a.importance = b.importance ∧ (compare b.entry.provider a.entry.provider).isLE

end RankedEntry

/-- The entries that were given, the best first; those that tie are as they were given. -/
structure BestFirst (given found : List RankedEntry) : Prop where
  perm : found.Perm given
  descending : found.Pairwise RankedEntry.AtLeast
  stable : ∀ r : RankedEntry, found.filter r.ties = given.filter r.ties

namespace RankedEntry

theorem ties_iff {a b : RankedEntry} :
    a.ties b = true ↔ a.importance = b.importance ∧ a.entry.provider = b.entry.provider := by
  simp [ties]

theorem ties_self (a : RankedEntry) : a.ties a = true := ties_iff.2 ⟨rfl, rfl⟩

theorem AtLeast.ties {a b : RankedEntry} (h : a.AtLeast b) (h' : b.AtLeast a) :
    a.ties b = true := by
  rcases h with hlt | ⟨heq, hle⟩ <;> rcases h' with hlt' | ⟨heq', hle'⟩ <;> try omega
  exact ties_iff.2 ⟨heq, Std.LawfulEqOrd.eq_of_compare (Std.OrientedCmp.isLE_antisymm hle' hle)⟩

end RankedEntry

/-- Two lists that hold the same entries best first, tied ones in the same order, are the same. -/
theorem eq_of_descending {xs ys : List RankedEntry} (perm : xs.Perm ys)
    (hx : xs.Pairwise RankedEntry.AtLeast) (hy : ys.Pairwise RankedEntry.AtLeast)
    (stable : ∀ r : RankedEntry, xs.filter r.ties = ys.filter r.ties) : xs = ys := by
  induction xs generalizing ys with
  | nil => exact perm.nil_eq
  | cons x xs ih =>
    obtain ⟨y, ys, rfl⟩ := List.exists_cons_of_ne_nil
      (show ys ≠ [] from fun h => by simpa [h] using perm.length_eq)
    obtain ⟨hx, hxs⟩ := List.pairwise_cons.1 hx
    obtain ⟨hy, hys⟩ := List.pairwise_cons.1 hy
    -- both heads are among the best, so they tie, and the first of those that tie is first
    have hties : x.ties y = true := by
      rcases List.mem_cons.1 (perm.mem_iff.1 List.mem_cons_self) with rfl | hxy
      · exact x.ties_self
      rcases List.mem_cons.1 (perm.mem_iff.2 List.mem_cons_self) with rfl | hyx
      · exact y.ties_self
      exact (hx y hyx).ties (hy x hxy)
    have hheads := stable x
    rw [List.filter_cons_of_pos x.ties_self, List.filter_cons_of_pos hties] at hheads
    obtain rfl : x = y := (List.cons.inj hheads).1
    refine congrArg _ (ih ((List.perm_cons x).1 perm) hxs hys fun r => ?_)
    have hr := stable r
    rw [List.filter_cons, List.filter_cons] at hr
    split at hr
    · exact (List.cons.inj hr).2
    · exact hr

theorem BestFirst.unique {given xs ys : List RankedEntry} (hx : BestFirst given xs)
    (hy : BestFirst given ys) : xs = ys :=
  eq_of_descending (hx.perm.trans hy.perm.symm) hx.descending hy.descending
    fun r => (hx.stable r).trans (hy.stable r).symm

theorem BestFirst.iff_eq {given found : List RankedEntry} (h : BestFirst given found)
    (xs : List RankedEntry) : BestFirst given xs ↔ xs = found :=
  ⟨fun hx => hx.unique h, fun heq => heq ▸ h⟩

/-! ## Sorting -/

namespace RankedEntry

instance : Std.TransCmp RankedEntry.order := by
  have := Version.transCmp_comap (fun a b : Int => compare b a) importance
  have := Version.transCmp_comap (fun a b : QualifiedName => compare b a)
    fun a : RankedEntry => a.entry.provider
  exact inferInstanceAs (Std.TransCmp <|
    compareLex (compareOn fun a : RankedEntry => a.entry.virtualName) <|
    compareLex (compareOn fun a => a.entry.version) <|
    compareLex (fun a b => compare b.importance a.importance)
      fun a b => compare b.entry.provider a.entry.provider)

end RankedEntry

/-- The entries in the order of an index. -/
def sortedEntries (ranked : List RankedEntry) : List RankedEntry :=
  ranked.mergeSort fun a b => a.order b != .gt

theorem toList_ofRanked (ranked : List RankedEntry) :
    (ProviderIndex.ofRanked ranked).entries.toList =
      (sortedEntries ranked).map RankedEntry.entry := rfl

theorem perm_sortedEntries (ranked : List RankedEntry) : (sortedEntries ranked).Perm ranked :=
  List.mergeSort_perm ranked _

theorem order_trans (a b c : RankedEntry) (h : (a.order b != .gt) = true)
    (k : (b.order c != .gt) = true) : (a.order c != .gt) = true := by
  simp only [bne_iff_ne, Ordering.ne_gt_iff_isLE] at h k ⊢
  exact Std.TransCmp.isLE_trans h k

theorem order_total (a b : RankedEntry) : (a.order b != .gt || b.order a != .gt) = true := by
  have hswap : b.order a = (a.order b).swap := Std.OrientedCmp.eq_swap
  rw [hswap]
  cases a.order b <;> rfl

theorem pairwise_sortedEntries (ranked : List RankedEntry) :
    (sortedEntries ranked).Pairwise fun a b => (a.order b).isLE :=
  (List.pairwise_mergeSort order_trans order_total ranked).imp fun h =>
    Ordering.ne_gt_iff_isLE.1 (bne_iff_ne.1 h)

/-- Entries that tie in the order stay as they were given. -/
theorem filter_sortedEntries (ranked : List RankedEntry) {p : RankedEntry → Bool}
    (h : ∀ a b, p a = true → p b = true → a.order b = .eq) :
    (sortedEntries ranked).filter p = ranked.filter p := by
  refine filter_mergeSort order_trans order_total ranked fun a b ha hb => ?_
  rw [h a b ha hb]
  rfl

/-! ## Ranges of an index -/

namespace RankedEntry

theorem le_virtualName {a b : RankedEntry} (h : (a.order b).isLE) :
    (compare a.entry.virtualName b.entry.virtualName).isLE := by
  rcases Ordering.isLE_then_iff_or.1 h with h | ⟨h, -⟩ <;> rw [h] <;> rfl

theorem le_category {a b : RankedEntry} (h : (a.order b).isLE) :
    (compare a.entry.virtualName.category b.entry.virtualName.category).isLE := by
  rcases Ordering.isLE_then_iff_or.1 (le_virtualName h) with h | ⟨h, -⟩ <;> rw [h] <;> rfl

theorem le_of_virtualName {a b : RankedEntry} (h : (a.order b).isLE)
    (hname : a.entry.virtualName = b.entry.virtualName) :
    ((compare a.entry.version b.entry.version).then <|
      (compare b.importance a.importance).then <|
      compare b.entry.provider a.entry.provider).isLE := by
  rcases Ordering.isLE_then_iff_or.1 h with h | ⟨-, h⟩
  · rw [hname, Std.ReflOrd.compare_self] at h
    cases h
  · exact h

theorem le_version {a b : RankedEntry} (h : (a.order b).isLE)
    (hname : a.entry.virtualName = b.entry.virtualName) :
    (compare a.entry.version b.entry.version).isLE := by
  rcases Ordering.isLE_then_iff_or.1 (le_of_virtualName h hname) with h | ⟨h, -⟩ <;> rw [h] <;> rfl

theorem atLeast_of_le {a b : RankedEntry} (h : (a.order b).isLE)
    (hname : a.entry.virtualName = b.entry.virtualName)
    (hversion : a.entry.version = b.entry.version) : a.AtLeast b := by
  have h := le_of_virtualName h hname
  rw [hversion, Std.ReflOrd.compare_self, Ordering.eq_then] at h
  rcases Ordering.isLE_then_iff_or.1 h with h | ⟨heq, hle⟩
  · exact .inl (compare_lt_iff_lt.1 h)
  · exact .inr ⟨(Std.LawfulEqOrd.eq_of_compare heq).symm, hle⟩

theorem order_eq_of_ties {r a b : RankedEntry} (ha : r.ties a = true) (hb : r.ties b = true)
    (hname : a.entry.virtualName = b.entry.virtualName)
    (hversion : a.entry.version = b.entry.version) : a.order b = .eq := by
  obtain ⟨hia, hpa⟩ := ties_iff.1 ha
  obtain ⟨hib, hpb⟩ := ties_iff.1 hb
  rw [order, hname, hversion, ← hia, ← hib, ← hpa, ← hpb]
  simp

end RankedEntry

/-- Sorting and then looking for one version of a virtual gives its entries, the best first. -/
theorem bestFirst_sortedEntries (ranked : List RankedEntry) (n : QualifiedName) (v : Version) :
    BestFirst (ranked.filter fun r => r.entry.virtualName = n ∧ r.entry.version = v)
      ((sortedEntries ranked).filter fun r => r.entry.virtualName = n ∧ r.entry.version = v) where
  perm := (perm_sortedEntries ranked).filter _
  descending := by
    refine List.pairwise_filter.2 ((pairwise_sortedEntries ranked).imp fun {a b} hle ha hb => ?_)
    obtain ⟨hna, hva⟩ := of_decide_eq_true ha
    obtain ⟨hnb, hvb⟩ := of_decide_eq_true hb
    exact RankedEntry.atLeast_of_le hle (hna.trans hnb.symm) (hva.trans hvb.symm)
  stable r := by
    rw [List.filter_filter, List.filter_filter]
    refine filter_sortedEntries ranked fun a b ha hb => ?_
    simp only [Bool.and_eq_true, decide_eq_true_eq] at ha hb
    exact RankedEntry.order_eq_of_ties ha.1 hb.1 (ha.2.1.trans hb.2.1.symm)
      (ha.2.2.trans hb.2.2.symm)

namespace ProviderIndex

variable (ranked : List RankedEntry)

theorem named_ofRanked (n : QualifiedName) : (ofRanked ranked).named n =
    ((sortedEntries ranked).filter fun r => r.entry.virtualName = n).map RankedEntry.entry := by
  have hsorted : Virtuals.SortedBy VirtualEntry.virtualName (ofRanked ranked).entries.toList :=
    List.pairwise_map.2 ((pairwise_sortedEntries ranked).imp RankedEntry.le_virtualName)
  rw [named, Virtuals.range_eq_filter hsorted, toList_ofRanked, List.filter_map]
  rfl

theorem inCategory_ofRanked (c : Category) : (ofRanked ranked).inCategory c =
    ((sortedEntries ranked).filter fun r => r.entry.virtualName.category = c).map
      RankedEntry.entry := by
  have hsorted : Virtuals.SortedBy (fun e : VirtualEntry => e.virtualName.category)
      (ofRanked ranked).entries.toList :=
    List.pairwise_map.2 ((pairwise_sortedEntries ranked).imp RankedEntry.le_category)
  rw [inCategory, Virtuals.range_eq_filter hsorted, toList_ofRanked, List.filter_map]
  rfl

/-- Within one virtual the versions ascend. -/
theorem sortedBy_version (n : QualifiedName) :
    Virtuals.SortedBy (fun r : RankedEntry => r.entry.version)
      ((sortedEntries ranked).filter fun r => r.entry.virtualName = n) := by
  refine List.pairwise_filter.2 ((pairwise_sortedEntries ranked).imp fun {a b} hle ha hb => ?_)
  exact RankedEntry.le_version hle ((of_decide_eq_true ha).trans (of_decide_eq_true hb).symm)

theorem ofVersion_ofRanked (n : QualifiedName) (v : Version) : (ofRanked ranked).ofVersion n v =
    ((sortedEntries ranked).filter fun r => r.entry.virtualName = n ∧ r.entry.version = v).map
      RankedEntry.entry := by
  have hsorted : Virtuals.SortedBy VirtualEntry.version
      ((ofRanked ranked).named n).toArray.toList := by
    rw [named_ofRanked]
    exact List.pairwise_map.2 (sortedBy_version ranked n)
  rw [ofVersion, Virtuals.range_eq_filter hsorted, named_ofRanked, List.filter_map,
    List.filter_filter]
  refine congrArg _ (List.filter_congr fun r _ => ?_)
  rw [Bool.decide_and]
  exact Bool.and_comm _ _

theorem hasVersion_eq (x : ProviderIndex) (n : QualifiedName) (v : Version) :
    x.hasVersion n v = !(x.ofVersion n v).isEmpty := by
  unfold hasVersion best
  cases x.ofVersion n v <;> rfl

theorem size_ofRanked : (ofRanked ranked).size = ranked.length := by
  rw [size, ← Array.length_toList, toList_ofRanked, List.length_map,
    (perm_sortedEntries ranked).length_eq]

end ProviderIndex

end PackageCatalog
