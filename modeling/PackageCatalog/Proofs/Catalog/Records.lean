import Mathlib.Data.Fintype.Pigeonhole
import Mathlib.Logic.Function.Iterate
import PackageCatalog.Proofs.Catalog.Missing

/-!
# Records of declared virtuals

The provider of a declared virtual may be a declared virtual itself, and then the record is made of
that one's record.  Such a provider is always in the repository registered as `virtuals`: `followed`
goes from virtual to virtual in its index.  To go on for more steps than there are entries is to go
round in a circle.  So the bound on the look-ups of a record cuts off nothing but circles:

    followed for more steps than there are entries → followed for ever            (followed_forever)
    the record is the one within every bound that is large enough      (metadata_on_eq_recordWithin)
    followed to an end → the record is found in as many look-ups               (metadata_on_of_ends)
    followed for ever → a circle is reported                                 (metadata_on_of_circle)
-/

namespace PackageCatalog

open CatalogM (answer bestProvider recordBy recordWithin registeredRecord declaredRecord
  virtualsMemo onEbuild?)

/-! ## From virtual to virtual -/

theorem Virtuals.mem_of_mem_between {α : Type} {low high : α → Bool} {xs : Array α} {a : α}
    (h : a ∈ Virtuals.between low high xs) : a ∈ xs := by
  obtain ⟨i, hi, rfl⟩ := Array.mem_extract_iff_getElem.1 (Array.mem_toList_iff.1 h)
  exact Array.getElem_mem _

theorem ProviderIndex.mem_of_best {x : ProviderIndex} {n : QualifiedName} {v : Version}
    {e : VirtualEntry} (h : x.best n v = some e) : e ∈ x.entries := by
  have hnamed := Virtuals.mem_of_mem_between (List.mem_of_head? h)
  exact Virtuals.mem_of_mem_between (List.mem_toArray.1 hnamed)

namespace Catalog

theorem mem_of_provider? {x : ProviderIndex} {n : QualifiedName} {v : Version} {e : VirtualEntry}
    (h : provider? x n v = some e) : e ∈ x.entries := by
  unfold provider? at h
  split at h
  · exact ProviderIndex.mem_of_best h
  · cases h

variable {c : Catalog} {k : Nat} {x : ProviderIndex}

/-- The provider of a version of a virtual, if it is one too and in repository `k` as well. -/
def nextVirtual (c : Catalog) (k : Nat) (x : ProviderIndex) (q : QualifiedName × Version) :
    Option (QualifiedName × Version) :=
  (provider? x q.1 q.2).bind fun e =>
    if c.fetch e.repository = some k then some (e.provider, e.version) else none

/-- The virtual that is reached after so many steps, if they do not come to an end before. -/
def followed (c : Catalog) (k : Nat) (x : ProviderIndex) :
    Nat → QualifiedName × Version → Option (QualifiedName × Version)
  | 0, q => some q
  | i + 1, q => (nextVirtual c k x q).bind (followed c k x i)

variable {q q' : QualifiedName × Version} {i j : Nat}

theorem nextVirtual_eq_some_iff : nextVirtual c k x q = some q' ↔
    ∃ e, provider? x q.1 q.2 = some e ∧ c.fetch e.repository = some k ∧
      q' = (e.provider, e.version) := by
  unfold nextVirtual
  rw [Option.bind_eq_some_iff]
  refine exists_congr fun e => and_congr_right fun _ => ?_
  rw [Option.ite_none_right_eq_some, Option.some_inj, eq_comm (a := q')]

theorem followed_add (i j : Nat) (q : QualifiedName × Version) :
    followed c k x (i + j) q = (followed c k x i q).bind (followed c k x j) := by
  induction i generalizing q with
  | zero =>
    rw [Nat.zero_add]
    rfl
  | succ i ih =>
    rw [Nat.succ_add]
    show (nextVirtual c k x q).bind _ = ((nextVirtual c k x q).bind _).bind _
    rw [Option.bind_assoc]
    exact congrArg _ (funext ih)

theorem followed_of_le (hle : i ≤ j) (h : (followed c k x j q).isSome) :
    (followed c k x i q).isSome := by
  rw [← Nat.add_sub_cancel' hle, followed_add] at h
  exact Option.isSome_of_isSome_bind h

theorem followed_mul (h : followed c k x j q = some q) (m : Nat) :
    followed c k x (m * j) q = some q := by
  induction m with
  | zero =>
    rw [Nat.zero_mul]
    rfl
  | succ m ih => rw [Nat.succ_mul, followed_add, ih, Option.bind_some, h]

/-- What was reached before is reached again and again. -/
theorem followed_of_repeated (hlt : i < j) (hi : followed c k x i q = some q')
    (hj : followed c k x j q = some q') (m : Nat) : (followed c k x m q).isSome := by
  have hround : followed c k x (j - i) q' = some q' := by
    rw [← Nat.add_sub_cancel' hlt.le, followed_add, hi] at hj
    exact hj
  have hlater : followed c k x (i + m * (j - i)) q = some q' := by
    rw [followed_add, hi]
    exact followed_mul hround m
  refine followed_of_le (j := i + m * (j - i)) ?_ (hlater ▸ rfl)
  exact (Nat.le_mul_of_pos_right m (Nat.sub_pos_of_lt hlt)).trans (Nat.le_add_left _ _)

/-- Every step takes an entry of the index. -/
theorem followed_succ (h : (followed c k x (i + 1) q).isSome) : ∃ entry : Fin x.size,
    followed c k x (i + 1) q = some (x.entries[entry].provider, x.entries[entry].version) := by
  obtain ⟨q', hq'⟩ := Option.isSome_iff_exists.1 h
  rw [followed_add] at hq' ⊢
  obtain ⟨q₁, hq₁, hlast⟩ := Option.bind_eq_some_iff.1 hq'
  obtain ⟨q₂, hnext, -⟩ := Option.bind_eq_some_iff.1 hlast
  obtain ⟨e, hprovider, -, rfl⟩ := nextVirtual_eq_some_iff.1 hnext
  obtain ⟨entry, hentry, rfl⟩ := Array.mem_iff_getElem.1 (mem_of_provider? hprovider)
  refine ⟨⟨entry, hentry⟩, ?_⟩
  rw [hq₁, Option.bind_some]
  unfold followed
  rw [hnext]
  rfl

/-- To go on for more steps than there are entries is to go round in a circle. -/
theorem followed_forever (h : (followed c k x (x.size + 1) q).isSome) (m : Nat) :
    (followed c k x m q).isSome := by
  have hentry (i : Fin (x.size + 1)) := followed_succ
    (followed_of_le (Nat.succ_le_of_lt i.isLt) h)
  choose entry hentry using hentry
  obtain ⟨i, j, hne, heq⟩ := Fintype.exists_ne_map_eq_of_card_lt entry (by simp)
  have hj := hentry j
  rw [← heq] at hj
  rcases lt_or_gt_of_ne (Fin.val_ne_of_ne hne) with hlt | hlt
  · exact followed_of_repeated (Nat.succ_lt_succ hlt) (hentry i) hj m
  · exact followed_of_repeated (Nat.succ_lt_succ hlt) hj (hentry i) m

/-! ## One look-up -/

variable {n : QualifiedName} {v : Version}
  {follow follow' : Nat → QualifiedName → Version → CatalogM Metadata}

/-- What follows a look-up matters only where it leads to a repository of declared virtuals. -/
theorem recordBy_congr (h : ∀ e provider c', (bestProvider k n v).on c = (.ok (e, provider), c') →
      (∃ memo, c'.repositories[provider]? = some (.virtuals memo)) →
      (follow provider e.provider e.version).on c' =
        (follow' provider e.provider e.version).on c') :
    (recordBy follow k n v).on c = (recordBy follow' k n v).on c := by
  unfold recordBy
  refine CatalogM.on_bind_congr rfl fun best c' hbest => ?_
  obtain ⟨e, provider⟩ := best
  refine CatalogM.on_bind_congr rfl fun record c₁ hrecord => ?_
  cases record with
  | some m => rfl
  | none =>
    obtain rfl : c₁ = c' := CatalogM.eq_of_onEbuild?_on_none hrecord
    dsimp only
    rw [CatalogM.on_bind_get, CatalogM.on_bind_get]
    cases hprovider : c₁.repositories[provider]? with
    | none => rfl
    | some r =>
      cases r with
      | virtuals memo =>
        exact CatalogM.on_bind_congr (h e provider c₁ hbest ⟨memo, hprovider⟩) fun _ _ _ => rfl
      | _ => rfl

theorem recordBy_of_no_provider {e : Error} {c' : Catalog}
    (h : (bestProvider k n v).on c = (.error e, c')) :
    (recordBy follow k n v).on c = (.error e, c') :=
  CatalogM.on_bind_of_error h _

theorem nameOf_of_fetch {name : String} (h : c.fetch name = some k) : c.nameOf k = name := by
  obtain ⟨g, hg, rfl⟩ := Option.map_eq_some_iff.1 h
  unfold find? at hg
  have hname := List.find?_some hg
  exact eq_of_beq hname

/-- A provider that is a declared virtual is in the repository registered as `virtuals`. -/
theorem fetch_of_bestProvider {e : VirtualEntry} {provider : Nat} {c' : Catalog}
    (h : (bestProvider k n v).on c = (.ok (e, provider), c'))
    (hprovider : ∃ memo, c'.repositories[provider]? = some (.virtuals memo)) :
    c'.fetch "virtuals" = some provider := by
  have hfetch : c'.fetch e.repository = some provider := by
    obtain ⟨best, c₁, -, h⟩ := CatalogM.exists_of_on_bind h
    cases best with
    | none =>
      rw [CatalogM.on_bind_get] at h
      cases h
    | some e' =>
      obtain ⟨-, c₂, -, h⟩ := CatalogM.exists_of_on_bind h
      rw [CatalogM.on_bind_get] at h
      split at h
      · cases h
      · next hfetch =>
        cases h
        exact hfetch
  have hname := nameOf_of_fetch hfetch
  obtain ⟨memo, hr⟩ := hprovider
  unfold nameOf at hname
  rw [hr] at hname
  rw [show "virtuals" = e.repository from hname, hfetch]

/-! ## The registered repository -/

/-- This repository is registered as `virtuals`, and its index is built. -/
structure Registers (c : Catalog) (k : Nat) (x : ProviderIndex) : Prop where
  index : c.repositories[k]? = some (.virtuals (some x))
  registered : c.fetch "virtuals" = some k

theorem Registers.hasIndex (h : c.Registers k x) : HasIndex k (some x) c := ⟨_, h.index, rfl⟩

theorem Registers.next_of_bestProvider (h : c.Registers k x) {e : VirtualEntry} {provider : Nat}
    {c' : Catalog} (hbest : (bestProvider k n v).on c = (.ok (e, provider), c'))
    (hprovider : ∃ memo, c'.repositories[provider]? = some (.virtuals memo)) :
    c' = c ∧ provider = k ∧ nextVirtual c k x (n, v) = some (e.provider, e.version) := by
  have hregistered := fetch_of_bestProvider hbest hprovider
  rw [(h.hasIndex.looksUp n.category).bestProvider_on] at hbest
  obtain ⟨hfound, rfl⟩ := Prod.mk.inj hbest
  obtain rfl : provider = k := Option.some_inj.1 (hregistered.symm.trans h.registered)
  obtain ⟨hsome, hfetch⟩ := foundProvider_eq_ok_iff.1 hfound
  exact ⟨rfl, rfl, nextVirtual_eq_some_iff.2 ⟨e, hsome, hfetch, rfl⟩⟩

/-- What is followed when the virtuals have come to an end is not used. -/
theorem recordBy_of_ends (h : c.Registers k x) (hends : followed c k x i q = none)
    (follow follow' : Nat → QualifiedName → Version → CatalogM Metadata) :
    (recordBy^[i] follow k q.1 q.2).on c = (recordBy^[i] follow' k q.1 q.2).on c := by
  induction i generalizing q with
  | zero => cases hends
  | succ i ih =>
    rw [Function.iterate_succ_apply', Function.iterate_succ_apply']
    refine recordBy_congr fun e provider c' hbest hprovider => ?_
    obtain ⟨rfl, rfl, hnext⟩ := h.next_of_bestProvider hbest hprovider
    unfold followed at hends
    rw [hnext] at hends
    exact ih hends

theorem recordWithin_of_circle (h : c.Registers k x) {fuel : Nat}
    (hfollowed : (followed c k x fuel q).isSome) :
    (recordWithin fuel k q.1 q.2).on c = (.error (.configuration .virtualsCircle), c) := by
  induction fuel generalizing q with
  | zero => rfl
  | succ fuel ih =>
    obtain ⟨last, hlast⟩ := Option.isSome_iff_exists.1 hfollowed
    obtain ⟨q', hnext, hlater⟩ := Option.bind_eq_some_iff.1 hlast
    obtain ⟨e, hsome, hfetch, rfl⟩ := nextVirtual_eq_some_iff.1 hnext
    have hbest := (h.hasIndex.looksUp q.1.category).bestProvider_on (v := q.2)
    rw [foundProvider_eq_ok_iff.2 ⟨hsome, hfetch⟩] at hbest
    have hnone : (onEbuild? k (·.virtualMetadata e)).on c = (.ok none, c) :=
      CatalogM.onEbuild?_on_of_ne (fun r memo hr => nomatch h.index.symm.trans hr) _
    unfold recordWithin recordBy
    rw [CatalogM.on_bind_of_ok hbest]
    dsimp only
    rw [CatalogM.on_bind_of_ok hnone, CatalogM.on_bind_get, h.index]
    exact CatalogM.on_bind_of_error (ih (q := (e.provider, e.version)) (hlater ▸ rfl)) _

theorem recordWithin_add (i j : Nat) : recordWithin (i + j) = recordBy^[i] (recordWithin j) := by
  induction i with
  | zero =>
    rw [Nat.zero_add]
    rfl
  | succ i ih =>
    rw [Nat.succ_add, Function.iterate_succ_apply', ← ih]
    rfl

/-- Within more look-ups than there are entries, the bound makes no difference. -/
theorem recordWithin_of_size_lt (h : c.Registers k x) {fuel : Nat} (hlt : x.size < fuel)
    (n : QualifiedName) (v : Version) :
    (recordWithin fuel k n v).on c = (recordWithin (x.size + 1) k n v).on c := by
  cases hfollowed : followed c k x (x.size + 1) (n, v) with
  | none =>
    obtain ⟨more, rfl⟩ := Nat.exists_eq_add_of_le (Nat.succ_le_of_lt hlt)
    rw [recordWithin_add, show recordWithin (x.size + 1) = _ from recordWithin_add (x.size + 1) 0]
    exact recordBy_of_ends h hfollowed (recordWithin more) (recordWithin 0)
  | some q =>
    have hforever := followed_forever (hfollowed ▸ rfl : (followed c k x _ (n, v)).isSome)
    rw [recordWithin_of_circle h (hforever fuel), recordWithin_of_circle h (hforever _)]

theorem recordWithin_of_index_on {memo : Option ProviderIndex} {c' : Catalog}
    (hindex : HasIndex k memo c) (hvirtual : isVirtual n.category)
    (hon : (virtualsMemo k).index.on c = (.ok x, c')) (fuel : Nat) :
    (recordWithin (fuel + 1) k n v).on c = (recordWithin (fuel + 1) k n v).on c' :=
  CatalogM.on_bind_congr (bestProvider_of_ok hindex hvirtual hon) fun _ _ _ => rfl

/-! ## The record -/

theorem Registers.of_index_on {memo : Option ProviderIndex} {c' : Catalog}
    (hr : c.repositories[k]? = some (.virtuals memo)) (hfetch : c.fetch "virtuals" = some k)
    (hon : (virtualsMemo k).index.on c = (.ok x, c')) : c'.Registers k x := by
  have hframed : Framed c c' := .of_index_on hon
  have hindex : HasIndex k memo c := ⟨_, hr, rfl⟩
  obtain ⟨memo', hr'⟩ := hframed.virtuals ⟨memo, hr⟩
  obtain ⟨r, hr'', hmemo⟩ := hindex.of_index_on hon
  obtain rfl := Option.some_inj.1 (hr'.symm.trans hr'')
  obtain rfl := Option.some_inj.1 hmemo
  exact ⟨hr', hframed.fetch_eq ▸ hfetch⟩

/-- In the registered repository, be its index built or not. -/
theorem registeredRecord_eq_recordWithin (hk : ∃ memo, c.repositories[k]? = some (.virtuals memo))
    (hfetch : c.fetch "virtuals" = some k) (n : QualifiedName) (v : Version) :
    ∃ enough, ∀ fuel, enough < fuel →
      (recordWithin fuel k n v).on c = (registeredRecord k n v).on c := by
  obtain ⟨memo, hr⟩ := hk
  by_cases hvirtual : isVirtual n.category
  · cases hon : (virtualsMemo k).index.on c with
    | mk result c' =>
      have hask : ((virtualsMemo k).ask n.category 0 (·.size)).on c =
          (result.map (·.size), c') := by
        rw [CatalogM.ask_on, if_pos hvirtual, hon]
      cases result with
      | error e =>
        have hrecord : (registeredRecord k n v).on c = (.error e, c') :=
          CatalogM.on_bind_of_error hask _
        refine ⟨0, fun fuel hfuel => ?_⟩
        obtain ⟨fuel, rfl⟩ := Nat.exists_eq_add_of_lt hfuel
        rw [hrecord]
        exact recordBy_of_no_provider (bestProvider_of_error hvirtual hon)
      | ok x =>
        have hrecord : (registeredRecord k n v).on c = (recordWithin (x.size + 1) k n v).on c' :=
          CatalogM.on_bind_of_ok hask _
        refine ⟨x.size, fun fuel hfuel => ?_⟩
        rw [hrecord, ← recordWithin_of_size_lt (.of_index_on hr hfetch hon) hfuel]
        obtain ⟨fuel, rfl⟩ := Nat.exists_eq_add_of_lt hfuel
        exact recordWithin_of_index_on ⟨_, hr, rfl⟩ hvirtual hon _
  · have hlooks := looksUp_of_not_virtual (k := k) hvirtual ⟨#[]⟩ c
    have hbest := hlooks.bestProvider_on (v := v)
    rw [show provider? ⟨#[]⟩ n v = none from if_neg hvirtual] at hbest
    refine ⟨0, fun fuel hfuel => ?_⟩
    obtain ⟨fuel, rfl⟩ := Nat.exists_eq_add_of_lt hfuel
    unfold registeredRecord
    rw [CatalogM.on_bind_of_ok (hlooks _ 0 (·.size))]
    exact (recordBy_of_no_provider hbest).trans (recordBy_of_no_provider hbest).symm

/-- The record of a declared virtual is the one within every bound that is large enough. -/
theorem metadata_on_eq_recordWithin (hk : ∃ memo, c.repositories[k]? = some (.virtuals memo))
    (n : QualifiedName) (v : Version) : ∃ enough, ∀ fuel, enough < fuel →
      (recordWithin fuel k n v).on c = (answer k (.metadata n v)).on c := by
  obtain ⟨memo, hr⟩ := hk
  have hdeclared : (answer k (.metadata n v)).on c = (declaredRecord k n v).on c := by
    rw [metadata_on ⟨_, hr, rfl⟩]
    unfold CatalogM.virtualRecord
    rw [CatalogM.on_bind_get, hr]
  rw [hdeclared]
  by_cases hnext : ∃ e provider c', (bestProvider k n v).on c = (.ok (e, provider), c') ∧
      ∃ memo, c'.repositories[provider]? = some (.virtuals memo)
  · obtain ⟨e, provider, c', hbest, hprovider⟩ := hnext
    obtain ⟨enough, henough⟩ := registeredRecord_eq_recordWithin hprovider
      (fetch_of_bestProvider hbest hprovider) e.provider e.version
    refine ⟨enough + 1, fun fuel hfuel => ?_⟩
    obtain ⟨fuel, rfl⟩ := Nat.exists_eq_add_of_lt hfuel
    refine recordBy_congr fun e' provider' c'' hbest' _ => ?_
    cases hbest.symm.trans hbest'
    exact henough _ (by omega)
  · refine ⟨0, fun fuel hfuel => ?_⟩
    obtain ⟨fuel, rfl⟩ := Nat.exists_eq_add_of_lt hfuel
    exact recordBy_congr fun e provider c' hbest hprovider =>
      absurd ⟨e, provider, c', hbest, hprovider⟩ hnext

/-- Where the virtuals come to an end, the record is found in so many look-ups. -/
theorem metadata_on_of_ends (h : c.Registers k x) (hends : followed c k x i (n, v) = none)
    (follow : Nat → QualifiedName → Version → CatalogM Metadata) :
    (answer k (.metadata n v)).on c = (recordBy^[i] follow k n v).on c := by
  obtain ⟨enough, henough⟩ := metadata_on_eq_recordWithin ⟨_, h.index⟩ n v
  rw [← henough (i + (enough + 1)) (by omega), recordWithin_add]
  exact recordBy_of_ends h hends _ follow

/-- Virtuals that provide one another in a circle have no record, and that is what is reported. -/
theorem metadata_on_of_circle (h : c.Registers k x)
    (hforever : ∀ i, (followed c k x i (n, v)).isSome) :
    (answer k (.metadata n v)).on c = (.error (.configuration .virtualsCircle), c) := by
  obtain ⟨enough, henough⟩ := metadata_on_eq_recordWithin ⟨_, h.index⟩ n v
  rw [← henough (enough + 1) (Nat.lt_succ_self enough)]
  exact recordWithin_of_circle h (hforever _)

end Catalog

end PackageCatalog
