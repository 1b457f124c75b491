import PackageCatalog.Proofs.Catalog.Computations
import PackageCatalog.Proofs.Repository.Declaring

/-!
# What questions do to a catalogue

A question to one repository may put questions to others.  All that changes on the way is what
repositories remember: source repositories and databases of installed packages through questions
that select no profile, repositories of virtuals by building their index.  A property that neither
disturbs is left by every question, records of virtuals among them:

    Inquired I → Keeps I (answer number q)                                       (Inquired.answer)
-/

namespace PackageCatalog

open CatalogM (Keeps worked)

/-! ## Catalogues of the same repositories -/

theorem Repository.invalidated_invalidated (r : Repository) :
    r.invalidated.invalidated = r.invalidated := by
  cases r <;> rfl

namespace Catalog

/-- The files, the registry and the repositories are the same, whatever is remembered. -/
structure Framed (c₀ c : Catalog) : Prop where
  files : c.files = c₀.files
  registry : c.registry = c₀.registry
  repositories : c.repositories.map Repository.invalidated =
    c₀.repositories.map Repository.invalidated

variable {number : Nat} {c₀ c : Catalog}

theorem getElem?_worked {r r' : Repository} (h : c.repositories[number]? = some r)
    (warnings : List Warning) (m : Nat) :
    (worked c number r' warnings).repositories[m]? =
      if number = m then some r' else c.repositories[m]? := by
  obtain ⟨hlt, -⟩ := List.getElem?_eq_some_iff.1 h
  show (c.repositories.set number r')[m]? = _
  by_cases hm : number = m
  · subst hm
    rw [List.getElem?_set_self hlt, if_pos rfl]
  · rw [List.getElem?_set_ne hm, if_neg hm]

/-- What work on one repository leaves alone in it, it leaves alone in all. -/
theorem map_worked {α : Type} {f : Repository → α} {r r' : Repository}
    (h : c.repositories[number]? = some r) (hf : f r' = f r) (warnings : List Warning) :
    (worked c number r' warnings).repositories.map f = c.repositories.map f := by
  refine List.ext_getElem? fun m => ?_
  rw [List.getElem?_map, List.getElem?_map, getElem?_worked h]
  by_cases hm : number = m
  · subst hm
    rw [if_pos rfl, h, Option.map_some, Option.map_some, hf]
  · rw [if_neg hm]

namespace Framed

theorem refl (c : Catalog) : Framed c c := ⟨rfl, rfl, rfl⟩

theorem trans {c' : Catalog} (h : Framed c₀ c) (h' : Framed c c') : Framed c₀ c' :=
  ⟨h'.files.trans h.files, h'.registry.trans h.registry, h'.repositories.trans h.repositories⟩

theorem worked (h : Framed c₀ c) {r s : Repository} (hr : c.repositories[number]? = some r)
    (hinvalidated : s.invalidated = r.invalidated) (warnings : List Warning) :
    Framed c₀ (worked c number s warnings) :=
  ⟨h.files, h.registry, (map_worked hr hinvalidated warnings).trans h.repositories⟩

theorem invalidated_eq (h : Framed c₀ c) (number : Nat) :
    c.repositories[number]?.map Repository.invalidated =
      c₀.repositories[number]?.map Repository.invalidated := by
  rw [← List.getElem?_map, h.repositories, List.getElem?_map]

theorem nameOf_eq (h : Framed c₀ c) : c.nameOf = c₀.nameOf := by
  funext number
  have hname := congrArg (Option.map Repository.name) (h.invalidated_eq number)
  simp only [Option.map_map, Function.comp_def, Repository.name_invalidated] at hname
  unfold nameOf
  cases hc : c.repositories[number]? <;> cases hc₀ : c₀.repositories[number]? <;> simp_all

theorem fetch_eq (h : Framed c₀ c) : c.fetch = c₀.fetch := by
  funext name
  unfold fetch find? registered
  rw [h.registry, h.nameOf_eq]

theorem ranked_eq (h : Framed c₀ c) : c.ranked = c₀.ranked := by
  unfold ranked registered
  rw [h.registry]

/-- The repository of a number is of the same kind. -/
theorem exists_invalidated (h : Framed c₀ c) {r₀ : Repository}
    (h₀ : c₀.repositories[number]? = some r₀) :
    ∃ r, c.repositories[number]? = some r ∧ r.invalidated = r₀.invalidated := by
  have heq := h.invalidated_eq number
  rw [h₀, Option.map_some] at heq
  exact Option.map_eq_some_iff.1 heq

theorem virtuals (h : Framed c₀ c)
    (h₀ : ∃ memo, c₀.repositories[number]? = some (.virtuals memo)) :
    ∃ memo, c.repositories[number]? = some (.virtuals memo) := by
  obtain ⟨memo₀, h₀⟩ := h₀
  obtain ⟨r, hr, hinvalidated⟩ := h.exists_invalidated h₀
  cases r with
  | virtuals memo => exact ⟨memo, hr⟩
  | _ => cases hinvalidated

/-- A source repository is the same, whatever it remembers. -/
theorem ebuild (h : Framed c₀ c) {r : EbuildRepository} {memo₀ : EbuildMemo}
    (h₀ : c₀.repositories[number]? = some (.ebuild r memo₀)) :
    ∃ memo, c.repositories[number]? = some (.ebuild r memo) := by
  obtain ⟨r', hr', hinvalidated⟩ := h.exists_invalidated h₀
  cases r' with
  | ebuild r' memo =>
    obtain rfl : r' = r := (Repository.ebuild.inj hinvalidated).1
    exact ⟨memo, hr'⟩
  | _ => cases hinvalidated

theorem not_ebuild (h : Framed c₀ c)
    (h₀ : ∀ r memo, c₀.repositories[number]? ≠ some (.ebuild r memo)) (r : EbuildRepository)
    (memo : EbuildMemo) : c.repositories[number]? ≠ some (.ebuild r memo) := by
  intro hc
  have heq := h.invalidated_eq number
  rw [hc, Option.map_some] at heq
  obtain ⟨r₀, hr₀, hinvalidated⟩ := Option.map_eq_some_iff.1 heq.symm
  cases r₀ with
  | ebuild r' memo' => exact h₀ r' memo' hr₀
  | _ => cases hinvalidated

end Framed

end Catalog

/-! ## Repositories that are asked -/

/-- What a source repository may remember after questions that select no profile. -/
inductive EbuildRepository.Asked (r : EbuildRepository) (t : FileTree) (memo : EbuildMemo) :
    EbuildMemo → Prop where
  | now : Asked r t memo memo
  | asked {α : Type} {memo' : EbuildMemo} {q : EbuildQuestion α} (stays : q.selects = false)
      (ws : List Warning) (h : Asked r t memo memo') :
      Asked r t memo ((r.reply q).on t ⟨memo', ws⟩).2.memo

/-- What a database of installed packages may remember after questions. -/
inductive InstalledRepository.Asked (r : InstalledRepository) (t : FileTree)
    (memo : InstalledMemo) : InstalledMemo → Prop where
  | now : Asked r t memo memo
  | asked {α : Type} {memo' : InstalledMemo} (q : InstalledQuestion α) (ws : List Warning)
      (h : Asked r t memo memo') : Asked r t memo ((r.reply q).on t ⟨memo', ws⟩).2.memo

namespace EbuildRepository

variable {r : EbuildRepository} {t : FileTree} {start memo : EbuildMemo} {α : Type}

theorem reply_asked {q : EbuildQuestion α} (h : q.selects = false) :
    Scan.Keeps (r.Asked t start) (r.reply q) t :=
  fun j hj => .asked h j.warnings hj

theorem Asked.of_keeps {I : EbuildMemo → Prop} (h : r.Asked t start memo) (hstart : I start)
    (hI : ∀ {α : Type} {q : EbuildQuestion α}, q.selects = false → Scan.Keeps I (r.reply q) t) :
    I memo := by
  induction h with
  | now => exact hstart
  | asked stays ws _ ih => exact hI stays _ ih

/-- What the index and the profiles of a repository keep, it keeps when it is asked. -/
theorem Asked.parts {P : IndexMemo → Prop} {Q : ChainMemo → Prop} (h : r.Asked t start memo)
    (hP : ∀ {α : Type} (q : Index.Query α), Scan.Keeps P (r.index.reply q) t)
    (hQ : r.profiles.Maintained t Q) (hstart : Parts P Q start) : Parts P Q memo :=
  h.of_keeps hstart fun hstays => reply_keeps hP hQ hstays

/-- The entries that one source repository adds to a declared virtual. -/
def rankedVersions (importance : Int) (virtualName provider : QualifiedName) (atom : Atom)
    (r : EbuildRepository) : Scan EbuildMemo (List RankedEntry) := do
  return (← CatalogM.acceptedVersions r atom provider).map fun v =>
    ⟨importance, virtualName, v, provider, r.name⟩

/-- To collect entries is to ask for versions and records. -/
theorem rankedVersions_asked (importance : Int) (virtualName provider : QualifiedName)
    (atom : Atom) :
    Scan.Keeps (r.Asked t start) (rankedVersions importance virtualName provider atom r) t := by
  have hindex {β : Type} (q : Question β) :
      Scan.Keeps (r.Asked t start) (r.reply (.package q)) t := reply_asked rfl
  have haccepted : Scan.Keeps (r.Asked t start) (CatalogM.acceptedVersions r atom provider) t := by
    refine (hindex (.versions provider)).bind fun versions => .filterM versions fun v =>
      Atom.acceptsM_keeps ((hindex (.metadata provider v)).attempt.bind fun outcome => ?_)
    cases outcome with
    | ok m => exact Scan.keeps_pure _
    | error e => exact Scan.keeps_pure none
  exact haccepted.bind fun _ => Scan.keeps_pure _

end EbuildRepository

theorem InstalledRepository.Asked.of_keeps {r : InstalledRepository} {t : FileTree}
    {start memo : InstalledMemo} {I : InstalledMemo → Prop} (h : r.Asked t start memo)
    (hstart : I start)
    (hI : ∀ {α : Type} (q : InstalledQuestion α), Scan.Keeps I (r.reply q) t) : I memo := by
  induction h with
  | now => exact hstart
  | asked q ws _ ih => exact hI q _ ih

/-! ## Catalogues whose repositories are asked -/

/-- A property that questions to single repositories do not disturb. -/
structure Undisturbed (I : Catalog → Prop) : Prop where
  warned {c : Catalog} (h : I c) (ws : List Warning) : I { c with warnings := ws }
  ebuild {c : Catalog} {number : Nat} {r : EbuildRepository} {memo memo' : EbuildMemo} (h : I c)
    (hr : c.repositories[number]? = some (.ebuild r memo)) (hasked : r.Asked c.files memo memo')
    (ws : List Warning) : I (worked c number (.ebuild r memo') ws)
  installed {c : Catalog} {number : Nat} {r : InstalledRepository} {memo memo' : InstalledMemo}
    (h : I c) (hr : c.repositories[number]? = some (.installed r memo))
    (hasked : r.Asked c.files memo memo') (ws : List Warning) :
    I (worked c number (.installed r memo') ws)

namespace Undisturbed

open CatalogM

variable {I : Catalog → Prop} {α : Type} (hI : Undisturbed I)
include hI

theorem onEbuild? {work : EbuildRepository → Scan EbuildMemo α}
    (hwork : ∀ r t start, Scan.Keeps (r.Asked t start) (work r) t) (number : Nat) :
    Keeps I (CatalogM.onEbuild? number work) := by
  intro c hc
  rcases onEbuild?_on_cases number work c with ⟨r, memo, hr, hon⟩ | hon
  · rw [hon]
    exact hI.ebuild hc hr (hwork r c.files memo ⟨memo, c.warnings⟩ .now) _
  · rw [hon]
    exact hc

theorem reply? {q : EbuildQuestion α} (h : q.selects = false) (number : Nat) :
    Keeps I (CatalogM.onEbuild? number (·.reply q)) :=
  hI.onEbuild? (fun _ _ _ => EbuildRepository.reply_asked h) number

theorem installedReply? (q : InstalledQuestion α) (number : Nat) :
    Keeps I (onInstalled? number (·.reply q)) := by
  intro c hc
  by_cases hr : ∃ r memo, c.repositories[number]? = some (.installed r memo)
  · obtain ⟨r, memo, hr⟩ := hr
    rw [onInstalled?_on_of_eq hr]
    exact hI.installed hc hr (.asked q c.warnings .now) _
  · rw [onInstalled?_on_of_ne fun r memo h => hr ⟨r, memo, h⟩]
    exact hc

omit hI in
theorem needRegistry : Keeps I CatalogM.needRegistry := by
  refine keeps_get.bind fun c => ?_
  split
  · exact keeps_get.bind fun _ => keeps_pure _
  · exact keeps_throw _

/-! ## Collecting entries -/

theorem providedEntries : Keeps I CatalogM.providedEntries :=
  needRegistry.bind fun gs => (Keeps.mapM gs fun g =>
    (hI.installedReply? .provided g.number).bind fun _ => keeps_pure _).bind fun _ => keeps_pure _

theorem entriesOf (ranked : List Registered) (virtualName provider : QualifiedName) (atom : Atom) :
    Keeps I (CatalogM.entriesOf ranked virtualName provider atom) :=
  (Keeps.mapM ranked fun g => (hI.onEbuild? (fun _ _ _ =>
    EbuildRepository.rankedVersions_asked g.importance virtualName provider atom) g.number).bind
      fun _ => keeps_pure _).bind fun _ => keeps_pure _

theorem declaredEntries : Keeps I CatalogM.declaredEntries := by
  refine needRegistry.bind fun ranked => (Keeps.mapM ranked fun g => ?_).bind fun _ => keeps_pure _
  refine (hI.reply? (q := .profile .virtuals) rfl g.number).bind fun declared =>
    (Keeps.mapM _ fun declaration => ?_).bind fun _ => keeps_pure _
  obtain ⟨virtualName, atom⟩ := declaration
  dsimp only
  cases atom.qualifiedName with
  | ok provider => exact hI.entriesOf ranked virtualName provider atom
  | error e => exact keeps_get.bind fun _ => Keeps.bind (fun _ hc => hI.warned hc _) fun _ =>
      keeps_pure _

theorem collect (number : Nat) : Keeps I (CatalogM.collect number) := by
  refine keeps_get.bind fun c => ?_
  split
  · exact hI.providedEntries
  · exact hI.declaredEntries
  · exact keeps_pure []

/-- An index is recalled, or else it is collected and kept. -/
theorem index {number : Nat} (hkeep : ∀ x, Keeps I (keepIndex number x)) :
    Keeps I (virtualsMemo number).index := by
  have hrecall : Keeps I (recallIndex number) := by
    refine keeps_get.bind fun c => ?_
    split <;> exact keeps_pure _
  refine hrecall.bind fun remembered => ?_
  cases remembered with
  | some x => exact keeps_pure x
  | none => exact (hI.collect number).bind fun _ => (hkeep _).bind fun _ => keeps_pure _

end Undisturbed

/-! ## Questions -/

/-- A property that the building of an index does not disturb either. -/
structure Inquired (I : Catalog → Prop) : Prop extends Undisturbed I where
  built (number : Nat) : Keeps I (CatalogM.virtualsMemo number).index

namespace Inquired

open CatalogM

variable {I : Catalog → Prop} {α : Type} (hI : Inquired I)
include hI

theorem ask {number : Nat} {category : Category} {nothing : α} {query : ProviderIndex → α} :
    Keeps I ((virtualsMemo number).ask category nothing query) := by
  unfold VirtualsMemo.ask
  split
  · exact (hI.built number).bind fun _ => keeps_pure _
  · exact keeps_pure nothing

theorem bestProvider (number : Nat) (n : QualifiedName) (v : Version) :
    Keeps I (CatalogM.bestProvider number n v) := by
  refine hI.ask.bind fun best => ?_
  cases best with
  | none => exact keeps_get.bind fun _ => keeps_throw _
  | some e =>
    refine (Undisturbed.needRegistry.bind fun _ => keeps_pure _).bind fun _ =>
      keeps_get.bind fun c => ?_
    split
    · exact keeps_throw _
    · exact keeps_pure _

theorem installedRecord (number : Nat) (n : QualifiedName) (v : Version) :
    Keeps I (CatalogM.installedRecord number n v) := by
  refine (hI.bestProvider number n v).bind fun best => ?_
  obtain ⟨e, provider⟩ := best
  refine (hI.installedReply? (.providedMetadata e) provider).bind fun record => ?_
  cases record with
  | some m => exact keeps_pure m
  | none => exact keeps_throw _

theorem recordBy {follow : Nat → QualifiedName → Version → CatalogM Metadata}
    (hfollow : ∀ number n v, Keeps I (follow number n v)) (number : Nat) (n : QualifiedName)
    (v : Version) : Keeps I (CatalogM.recordBy follow number n v) := by
  refine (hI.bestProvider number n v).bind fun best => ?_
  obtain ⟨e, provider⟩ := best
  refine (hI.reply? (q := .virtualMetadata e) rfl provider).bind fun record => ?_
  have hfor (m : Metadata) : Keeps I
      (liftM (Metadata.forVirtual e.virtualName e.provider e.version m) : CatalogM Metadata) :=
    keeps_lift _
  cases record with
  | some m => exact keeps_pure m
  | none =>
    refine keeps_get.bind fun c => ?_
    dsimp only
    split
    · refine (hI.installedReply? (.package (.metadata e.provider e.version)) provider).bind
        fun record => ?_
      cases record with
      | some m => exact hfor m
      | none => exact (keeps_throw _).bind hfor
    · exact (hI.installedRecord _ _ _).bind hfor
    · exact (hfollow _ _ _).bind hfor
    · exact (keeps_throw _).bind hfor

theorem recordWithin (fuel number : Nat) (n : QualifiedName) (v : Version) :
    Keeps I (CatalogM.recordWithin fuel number n v) := by
  induction fuel generalizing number n v with
  | zero => exact keeps_throw _
  | succ fuel ih => exact hI.recordBy ih number n v

theorem registeredRecord (number : Nat) (n : QualifiedName) (v : Version) :
    Keeps I (CatalogM.registeredRecord number n v) :=
  hI.ask.bind fun size => hI.recordWithin (size + 1) number n v

theorem declaredRecord (number : Nat) (n : QualifiedName) (v : Version) :
    Keeps I (CatalogM.declaredRecord number n v) :=
  hI.recordBy hI.registeredRecord number n v

theorem virtualRecord (number : Nat) (n : QualifiedName) (v : Version) :
    Keeps I (CatalogM.virtualRecord number n v) := by
  refine keeps_get.bind fun c => ?_
  split
  · exact hI.installedRecord number n v
  · exact hI.declaredRecord number n v

theorem answerVirtuals (number : Nat) (q : Question α) :
    Keeps I (CatalogM.answerVirtuals number q) := by
  have hcategories : Keeps I (CatalogM.answerVirtuals.categories number) := by
    refine hI.ask.bind fun found => ?_
    cases found <;> exact keeps_pure _
  cases q with
  | categories => exact hcategories
  | metadata n v => exact hI.virtualRecord number n v
  | containing p => exact hcategories.bind fun cs => .filterM cs fun _ => hI.ask
  | _ => exact hI.ask

/-- No question to any repository disturbs the property. -/
theorem answer (number : Nat) (q : Question α) : Keeps I (CatalogM.answer number q) := by
  refine (hI.reply? (q := .package q) rfl number).bind fun found => ?_
  cases found with
  | some a => exact keeps_pure a
  | none =>
    refine (hI.installedReply? (.package q) number).bind fun found => ?_
    cases found with
    | some a => exact keeps_pure a
    | none => exact hI.answerVirtuals number q

end Inquired

end PackageCatalog
