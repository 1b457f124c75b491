import PackageCatalog.Proofs.Catalog.Declared

/-!
# What repositories of virtuals answer

A repository of virtuals puts a question to its index, which it builds when it is first asked
(`answer_eq`).  From a steady catalogue that index answers as one that is built now
(`index_sameAnswers`), and all questions, records of virtuals among them, leave the catalogue steady
(`inquired_steady`).  About masks, no index is asked (`masked?_on_of_ne`).
-/

namespace PackageCatalog

/-- What a repository of virtuals remembers of its index; nothing for another repository. -/
def Repository.index? : Repository → Option (Option ProviderIndex)
  | .installedVirtuals _ memo => some memo
  | .virtuals memo => some memo
  | _ => none

namespace CatalogM

open Catalog (Steady)

variable {k : Nat} {c₀ : Catalog} {α : Type}

/-! ## Repositories with packages -/

/-- A source repository answers for itself. -/
theorem answer_on_ebuild {number : Nat} {c : Catalog} {r : EbuildRepository} {memo : EbuildMemo}
    (h : c.repositories[number]? = some (.ebuild r memo)) (q : Question α) :
    (answer number q).on c =
      (((r.answer q).on c.files ⟨memo, c.warnings⟩).1,
        worked c number (.ebuild r ((r.answer q).on c.files ⟨memo, c.warnings⟩).2.memo)
          ((r.answer q).on c.files ⟨memo, c.warnings⟩).2.warnings) := by
  unfold answer
  rw [on_bind_of_found (g := id) (onEbuild?_on_of_eq h (·.answer q)) fun _ => rfl, Except.map_id]
  rfl

/-- So does a database of installed packages. -/
theorem answer_on_installed {number : Nat} {c : Catalog} {r : InstalledRepository}
    {memo : InstalledMemo} (h : c.repositories[number]? = some (.installed r memo))
    (q : Question α) :
    (answer number q).on c =
      (((r.answer q).on c.files ⟨memo, c.warnings⟩).1,
        worked c number (.installed r ((r.answer q).on c.files ⟨memo, c.warnings⟩).2.memo)
          ((r.answer q).on c.files ⟨memo, c.warnings⟩).2.warnings) := by
  have hebuild : (onEbuild? number (·.answer q)).on c = (.ok none, c) :=
    onEbuild?_on_of_ne (fun r' memo' h' => by rw [h] at h'; cases h') _
  unfold answer
  rw [on_bind_of_ok hebuild]
  dsimp only
  rw [on_bind_of_found (g := id) (onInstalled?_on_of_eq h (·.answer q)) fun _ => rfl,
    Except.map_id]
  rfl

/-! ## Masks -/

section
variable {number : Nat} {c : Catalog} {query : EbuildRepository → Scan EbuildMemo Bool}

theorem masked?_on_ebuild {r : EbuildRepository} {memo : EbuildMemo}
    (h : c.repositories[number]? = some (.ebuild r memo)) :
    (masked? number query).on c = (onEbuild? number query).on c := by
  have hon := onEbuild?_on_of_eq h query
  refine Eq.trans (on_bind_of_found (g := some) hon ?_) hon.symm
  exact fun _ => rfl

/-- Other repositories are left as they are. -/
theorem masked?_on_of_ne {r : Repository} (h : c.repositories[number]? = some r)
    (hkind : r.kind ≠ .ebuild) : (masked? number query).on c =
      (.ok (if r.kind = .installedVirtuals then some false else none), c) := by
  have hon : (onEbuild? number query).on c = (.ok none, c) :=
    onEbuild?_on_of_ne (fun r' memo' h' => by rw [h] at h'; cases h'; exact hkind rfl) query
  unfold masked?
  rw [on_bind_of_ok hon]
  dsimp only
  rw [on_bind_get, h]
  cases r with
  | ebuild r memo => exact absurd rfl hkind
  | _ => rfl

/-- The repositories that answer about masks are those that can mask. -/
theorem masked?_on_eq_none_iff {r : Repository} (h : c.repositories[number]? = some r) :
    ((masked? number query).on c).1 = .ok none ↔ r.can .mask = false := by
  cases r with
  | ebuild r memo =>
    refine iff_of_false (fun hnone => ?_) Bool.noConfusion
    rw [masked?_on_ebuild h, onEbuild?_on_of_eq h] at hnone
    obtain ⟨masked, -, hmasked⟩ := Scan.map_eq_ok_iff.1 hnone
    cases hmasked
  | installedVirtuals root memo =>
    rw [masked?_on_of_ne h nofun]
    exact iff_of_false (fun hnone => nomatch hnone) Bool.noConfusion
  | installed r memo =>
    rw [masked?_on_of_ne h nofun]
    exact iff_of_true rfl rfl
  | virtuals memo =>
    rw [masked?_on_of_ne h nofun]
    exact iff_of_true rfl rfl

end

/-! ## The index -/

/-- The index that is remembered, or else one that is built and kept. -/
theorem index_on {number : Nat} {c : Catalog} {r : Repository} {memo : Option ProviderIndex}
    (h : c.repositories[number]? = some r) (hr : r.index? = some memo) :
    (virtualsMemo number).index.on c = (match memo with
      | some x => return x
      | none => do
        let x := ProviderIndex.ofRanked (← collect number)
        keepIndex number x
        return x : CatalogM ProviderIndex).on c := by
  have hrecall : (recallIndex number).on c = (.ok memo, c) := by
    unfold recallIndex
    rw [on_bind_get, h]
    cases r <;> cases hr <;> rfl
  refine (on_bind_of_ok hrecall _).trans ?_
  cases memo <;> rfl

/-- A question to a repository of virtuals is one about virtuals. -/
theorem answer_on_virtuals {number : Nat} {c : Catalog} {r : Repository}
    {memo : Option ProviderIndex} (h : c.repositories[number]? = some r)
    (hr : r.index? = some memo) (q : Question α) :
    (answer number q).on c = (answerVirtuals number q).on c := by
  have hebuild : (onEbuild? number (·.answer q)).on c = (.ok none, c) :=
    onEbuild?_on_of_ne (fun r' memo' h' => by rw [h] at h'; cases h'; cases hr) _
  have hinstalled : (onInstalled? number (·.answer q)).on c = (.ok none, c) :=
    onInstalled?_on_of_ne (fun r' memo' h' => by rw [h] at h'; cases h'; cases hr) _
  unfold answer
  rw [on_bind_of_ok hebuild]
  dsimp only
  rw [on_bind_of_ok hinstalled]

theorem ask_on (number : Nat) (category : Category) (nothing : α) (query : ProviderIndex → α)
    (c : Catalog) : ((virtualsMemo number).ask category nothing query).on c =
      if isVirtual category then
        (((virtualsMemo number).index.on c).1.map query, ((virtualsMemo number).index.on c).2)
      else (.ok nothing, c) := by
  unfold VirtualsMemo.ask
  split
  · rw [bind_pure_comp, on_map]
  · rfl

/-- A repository of virtuals puts a question to its index, if it is about a virtual. -/
theorem answer_on {number : Nat} {c : Catalog} {r : Repository} {memo : Option ProviderIndex}
    (h : c.repositories[number]? = some r) (hr : r.index? = some memo) {q : Question α}
    {p : ProviderQuery α} (hp : q.provider? = some p) :
    (answer number q).on c = if isVirtual p.category then
      (((virtualsMemo number).index.on c).1.map p.query, ((virtualsMemo number).index.on c).2)
      else (.ok p.nothing, c) := by
  rw [answer_on_virtuals h hr, ← ask_on]
  cases q with
  | categories => cases hp
  | metadata n v => cases hp
  | containing p => cases hp
  | _ => cases hp; rfl

theorem answer_eq {number : Nat} {c : Catalog} {r : Repository} {memo : Option ProviderIndex}
    (h : c.repositories[number]? = some r) (hr : r.index? = some memo) {q : Question α}
    {p : ProviderQuery α} (hp : q.provider? = some p) :
    ((answer number q).on c).1 = p.answer ((virtualsMemo number).index.on c).1 := by
  rw [answer_on h hr hp]
  unfold ProviderQuery.answer
  split <;> rfl

/-- An index that is remembered for the declared virtuals has to be up to date. -/
theorem keepIndex_yields {number : Nat} {x : ProviderIndex}
    (h : number = k → SameAnswers (.ok x) c₀.builtIndex) :
    Yields (Steady k c₀) (keepIndex number x) (.ok ()) := by
  intro c hc
  unfold keepIndex
  rw [on_bind_get]
  split
  · next root memo hr =>
    refine ⟨rfl, hc.worked_other hr ?_ ?_ ?_ c.warnings⟩
    · rfl
    · nofun
    · rintro x' - hx
      cases hx
  · next memo hr =>
    refine ⟨rfl, hc.worked_other hr ?_ ?_ ?_ c.warnings⟩
    · rfl
    · nofun
    · rintro x' hk hx
      cases hx
      exact h hk
  · exact ⟨rfl, hc⟩

/-- Questions to single repositories leave a catalogue steady. -/
theorem undisturbed_steady : Undisturbed (Steady k c₀) where
  warned h ws := h.warned ws
  ebuild {c number r memo memo'} h hr hasked ws := by
    refine h.scanned hr (h.current_self hr) (hasked.of_keeps (h.current_self hr) ?_) ws
    rw [h.files]
    exact fun hstays => EbuildRepository.reply_keeps_current hstays
  installed h hr _ ws := by
    refine h.worked_other hr ?_ ?_ ?_ ws
    · rfl
    · nofun
    · rintro x - hx
      cases hx

variable (halive : c₀.registry.isSome) (hkind : ∃ memo, c₀.repositories[k]? = some (.virtuals memo))
include halive hkind

theorem collect_yields : Yields (Steady k c₀) (collect k) c₀.declared := by
  intro c hc
  obtain ⟨memo, hmemo⟩ := hc.toKept.virtuals hkind
  unfold collect
  rw [on_bind_get, hmemo]
  exact declaredEntries_yields halive c hc

theorem buildIndex_yields : Yields (Steady k c₀) (do
      let x := ProviderIndex.ofRanked (← collect k)
      keepIndex k x
      return x) c₀.builtIndex := by
  have hcollect := collect_yields halive hkind
  cases hdeclared : c₀.declared with
  | error e =>
    rw [hdeclared] at hcollect
    rw [show c₀.builtIndex = .error e from congrArg (Except.map _) hdeclared]
    exact hcollect.bind_error _
  | ok entries =>
    have hbuilt : c₀.builtIndex = .ok (.ofRanked entries) := congrArg (Except.map _) hdeclared
    rw [hdeclared] at hcollect
    rw [hbuilt]
    refine hcollect.bind_ok (Yields.bind_ok (keepIndex_yields fun _ => ?_) (yields_pure _))
    rw [hbuilt]
    exact SameAnswers.refl _

/-- The index that is used answers as one that is built now. -/
theorem index_sameAnswers {c : Catalog} (hc : Steady k c₀ c) :
    SameAnswers ((virtualsMemo k).index.on c).1 c₀.builtIndex ∧
      Steady k c₀ ((virtualsMemo k).index.on c).2 := by
  obtain ⟨memo, hmemo⟩ := hc.toKept.virtuals hkind
  rw [index_on hmemo rfl]
  cases memo with
  | some x => exact ⟨hc.upToDate x hmemo, hc⟩
  | none =>
    obtain ⟨hresult, hc'⟩ := buildIndex_yields halive hkind c hc
    exact ⟨hresult ▸ SameAnswers.refl _, hc'⟩

/-- Once it is built, the index is remembered. -/
theorem index_remembered {c : Catalog} (hc : Steady k c₀ c) {x : ProviderIndex}
    (hx : c₀.builtIndex = .ok x) : ∃ y,
      ((virtualsMemo k).index.on c).2.repositories[k]? = some (.virtuals (some y)) := by
  obtain ⟨memo, hmemo⟩ := hc.toKept.virtuals hkind
  rw [index_on hmemo rfl]
  cases memo with
  | some y => exact ⟨y, hmemo⟩
  | none =>
    obtain ⟨c', hcollect, hc'⟩ := (collect_yields halive hkind).on_eq hc
    obtain ⟨memo', hmemo'⟩ := hc'.toKept.virtuals hkind
    obtain ⟨entries, hentries, -⟩ := Scan.map_eq_ok_iff.1 hx
    rw [hentries] at hcollect
    refine ⟨.ofRanked entries, ?_⟩
    dsimp only
    rw [on_bind_of_ok hcollect]
    have hkeep : (keepIndex k (.ofRanked entries)).on c' =
        (.ok (), worked c' k (.virtuals (some (.ofRanked entries))) c'.warnings) := by
      unfold keepIndex
      rw [on_bind_get, hmemo']
      rfl
    rw [on_bind_of_ok hkeep]
    exact (Catalog.getElem?_worked hmemo' _ k).trans (if_pos rfl)

/-- No question changes what is declared, whoever it is put to. -/
theorem inquired_steady : Inquired (Steady k c₀) where
  toUndisturbed := undisturbed_steady
  built number := by
    by_cases h : number = k
    · subst h
      exact fun c hc => (index_sameAnswers halive hkind hc).2
    · exact undisturbed_steady.index fun _ => (keepIndex_yields fun hk => absurd hk h).keeps

end CatalogM

end PackageCatalog
