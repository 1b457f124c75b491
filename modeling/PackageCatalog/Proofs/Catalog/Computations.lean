import PackageCatalog.Catalog.Virtuals
import PackageCatalog.Proofs.Changes

/-!
# What computations on a catalogue do

`CatalogM.on` is what a computation makes of a catalogue: its result, and the catalogue after it.
`Yields I m r` says that from every catalogue with the property `I` the result is `r` and the
property is kept; `Keeps I m` leaves the result open:

    Yields I m r → Yields I (m >>= f) (r >>= g)       if f a yields g a             (Yields.bind)
    Keeps I m → Keeps I (m >>= f)                     if f a keeps I                (Keeps.bind)
-/

namespace PackageCatalog.CatalogM

variable {α β : Type}

/-! ## Laws -/

/-- What a computation makes of a catalogue. -/
def on (m : CatalogM α) (c : Catalog) : Except Error α × Catalog := m.run.run c

@[simp] theorem on_pure (a : α) (c : Catalog) : (pure a : CatalogM α).on c = (.ok a, c) := rfl

@[simp] theorem on_throw (e : Error) (c : Catalog) :
    (throw e : CatalogM α).on c = (.error e, c) := rfl

@[simp] theorem on_get (c : Catalog) : (get : CatalogM Catalog).on c = (.ok c, c) := rfl

@[simp] theorem on_modify (f : Catalog → Catalog) (c : Catalog) :
    (modify f : CatalogM Unit).on c = (.ok (), f c) := rfl

theorem on_bind_of_ok {m : CatalogM α} {c c' : Catalog} {a : α} (h : m.on c = (.ok a, c'))
    (f : α → CatalogM β) : (m >>= f).on c = (f a).on c' := by
  show (m >>= f).run.run c = _
  rw [ExceptT.run_bind, StateT.run_bind, show m.run.run c = (.ok a, c') from h]
  rfl

theorem on_bind_of_error {m : CatalogM α} {c c' : Catalog} {e : Error}
    (h : m.on c = (.error e, c')) (f : α → CatalogM β) : (m >>= f).on c = (.error e, c') := by
  show (m >>= f).run.run c = _
  rw [ExceptT.run_bind, StateT.run_bind, show m.run.run c = (.error e, c') from h]
  rfl

/-- What comes after a look-up is left out, if the look-up finds something or fails. -/
theorem on_bind_of_found {m : CatalogM (Option α)} {f : Option α → CatalogM β} {g : α → β}
    {r : Except Error α} {c c' : Catalog} (h : m.on c = (r.map some, c'))
    (hf : ∀ a, f (some a) = pure (g a)) : (m >>= f).on c = (r.map g, c') := by
  cases r with
  | ok a =>
    rw [on_bind_of_ok h, hf]
    rfl
  | error e => exact on_bind_of_error h f

theorem exists_of_on_bind {m : CatalogM α} {f : α → CatalogM β} {c c' : Catalog} {b : β}
    (h : (m >>= f).on c = (.ok b, c')) :
    ∃ a c₁, m.on c = (.ok a, c₁) ∧ (f a).on c₁ = (.ok b, c') := by
  cases hon : m.on c with
  | mk result c₁ =>
    cases result with
    | ok a => exact ⟨a, c₁, rfl, (on_bind_of_ok hon f).symm.trans h⟩
    | error e =>
      rw [on_bind_of_error hon] at h
      cases h

/-- What follows a computation matters only for the result and the catalogue that it leaves. -/
theorem on_bind_congr {m m' : CatalogM α} {f f' : α → CatalogM β} {c c' : Catalog}
    (h : m.on c = m'.on c')
    (hf : ∀ a c₁, m'.on c' = (.ok a, c₁) → (f a).on c₁ = (f' a).on c₁) :
    (m >>= f).on c = (m' >>= f').on c' := by
  cases hon : m'.on c' with
  | mk result c₁ =>
    rw [hon] at h
    cases result with
    | ok a => rw [on_bind_of_ok h, on_bind_of_ok hon, hf a c₁ hon]
    | error e => rw [on_bind_of_error h, on_bind_of_error hon]

theorem on_map (g : α → β) (m : CatalogM α) (c : Catalog) :
    (g <$> m).on c = ((m.on c).1.map g, (m.on c).2) := by
  rw [← bind_pure_comp]
  cases h : (m.on c).1 with
  | ok a => exact on_bind_of_ok (Prod.ext h rfl) _
  | error e => exact on_bind_of_error (Prod.ext h rfl) _

theorem on_bind_get (f : Catalog → CatalogM β) (c : Catalog) : (get >>= f).on c = (f c).on c :=
  on_bind_of_ok (on_get c) f

theorem needRegistry_on {c : Catalog} (halive : c.registry.isSome) :
    needRegistry.on c = (.ok c.ranked, c) := by
  obtain ⟨list, hlist⟩ := Option.isSome_iff_exists.1 halive
  unfold needRegistry
  rw [on_bind_get, hlist]
  rfl

theorem needRegistry_on_of_none {c : Catalog} (h : c.registry = none) :
    needRegistry.on c = (.error (.configuration .registryGone), c) := by
  unfold needRegistry
  rw [on_bind_get, h]
  rfl

theorem on_discard (m : CatalogM α) (c : Catalog) :
    (discard m).on c = ((m.on c).1.map fun _ => (), (m.on c).2) := on_map (fun _ => ()) m c

/-! ## Working on one repository -/

/-- The catalogue after work on one repository. -/
def worked (c : Catalog) (number : Nat) (r : Repository) (warnings : List Warning) : Catalog :=
  { c with warnings := warnings, repositories := c.repositories.set number r }

theorem change_on {σ : Type} (number : Nat) (memo : σ) (keep : σ → Repository) (s : Scan σ α)
    (c : Catalog) : (change number memo keep (Change.scan s)).on c =
      ((s.on c.files ⟨memo, c.warnings⟩).1,
        worked c number (keep (s.on c.files ⟨memo, c.warnings⟩).2.memo)
          (s.on c.files ⟨memo, c.warnings⟩).2.warnings) := by
  unfold change
  rw [on_bind_get]
  rfl

theorem onEbuild?_on_of_eq {number : Nat} {c : Catalog} {r : EbuildRepository} {memo : EbuildMemo}
    (h : c.repositories[number]? = some (.ebuild r memo))
    (s : EbuildRepository → Scan EbuildMemo α) :
    (onEbuild? number s).on c =
      (((s r).on c.files ⟨memo, c.warnings⟩).1.map some,
        worked c number (.ebuild r ((s r).on c.files ⟨memo, c.warnings⟩).2.memo)
          ((s r).on c.files ⟨memo, c.warnings⟩).2.warnings) := by
  unfold onEbuild?
  rw [on_bind_get, h]
  simp only
  rw [bind_pure_comp, on_map, change_on]

theorem onEbuild?_on_of_ne {number : Nat} {c : Catalog}
    (h : ∀ r memo, c.repositories[number]? ≠ some (.ebuild r memo))
    (s : EbuildRepository → Scan EbuildMemo α) : (onEbuild? number s).on c = (.ok none, c) := by
  unfold onEbuild?
  rw [on_bind_get]
  split
  · next r memo hr => exact absurd hr (h r memo)
  · rfl

/-- There is work on a source repository, or none at all. -/
theorem onEbuild?_on_cases (number : Nat) (s : EbuildRepository → Scan EbuildMemo α) (c : Catalog) :
    (∃ r memo, c.repositories[number]? = some (.ebuild r memo) ∧
      (onEbuild? number s).on c =
        (((s r).on c.files ⟨memo, c.warnings⟩).1.map some,
          worked c number (.ebuild r ((s r).on c.files ⟨memo, c.warnings⟩).2.memo)
            ((s r).on c.files ⟨memo, c.warnings⟩).2.warnings)) ∨
      (onEbuild? number s).on c = (.ok none, c) := by
  by_cases h : ∃ r memo, c.repositories[number]? = some (.ebuild r memo)
  · obtain ⟨r, memo, hr⟩ := h
    exact .inl ⟨r, memo, hr, onEbuild?_on_of_eq hr s⟩
  · exact .inr (onEbuild?_on_of_ne (fun r memo hr => h ⟨r, memo, hr⟩) s)

/-- A number of another kind of repository is left alone. -/
theorem eq_of_onEbuild?_on_none {number : Nat} {s : EbuildRepository → Scan EbuildMemo α}
    {c c' : Catalog} (h : (onEbuild? number s).on c = (.ok none, c')) : c' = c := by
  rcases onEbuild?_on_cases number s c with ⟨r, memo, -, hon⟩ | hon
  · obtain ⟨a, -, ha⟩ := Scan.map_eq_ok_iff.1 (congrArg Prod.fst (hon.symm.trans h))
    cases ha
  · exact (Prod.mk.inj (hon.symm.trans h)).2.symm

theorem onInstalled?_on_of_eq {number : Nat} {c : Catalog} {r : InstalledRepository}
    {memo : InstalledMemo} (h : c.repositories[number]? = some (.installed r memo))
    (s : InstalledRepository → Scan InstalledMemo α) :
    (onInstalled? number s).on c =
      (((s r).on c.files ⟨memo, c.warnings⟩).1.map some,
        worked c number (.installed r ((s r).on c.files ⟨memo, c.warnings⟩).2.memo)
          ((s r).on c.files ⟨memo, c.warnings⟩).2.warnings) := by
  unfold onInstalled?
  rw [on_bind_get, h]
  simp only
  rw [bind_pure_comp, on_map, change_on]

theorem onInstalled?_on_of_ne {number : Nat} {c : Catalog}
    (h : ∀ r memo, c.repositories[number]? ≠ some (.installed r memo))
    (s : InstalledRepository → Scan InstalledMemo α) :
    (onInstalled? number s).on c = (.ok none, c) := by
  unfold onInstalled?
  rw [on_bind_get]
  split
  · next r memo hr => exact absurd hr (h r memo)
  · rfl

/-! ## Yielding a result -/

/-- From a catalogue with the property `I`, the result is `r` and the property is kept. -/
def Yields (I : Catalog → Prop) (m : CatalogM α) (r : Except Error α) : Prop :=
  ∀ c, I c → (m.on c).1 = r ∧ I (m.on c).2

/-- Whatever the result is, a catalogue with the property `I` is left with it. -/
def Keeps (I : Catalog → Prop) (m : CatalogM α) : Prop := ∀ c, I c → I (m.on c).2

section
variable {I : Catalog → Prop}

theorem Yields.keeps {m : CatalogM α} {r : Except Error α} (h : Yields I m r) : Keeps I m :=
  fun c hc => (h c hc).2

theorem Yields.on_eq {m : CatalogM α} {r : Except Error α} (h : Yields I m r) {c : Catalog}
    (hc : I c) : ∃ c', m.on c = (r, c') ∧ I c' :=
  ⟨(m.on c).2, Prod.ext (h c hc).1 rfl, (h c hc).2⟩

theorem yields_pure (a : α) : Yields I (pure a) (.ok a) := fun _ hc => ⟨rfl, hc⟩

theorem Yields.bind_ok {m : CatalogM α} {a : α} {f : α → CatalogM β} {r : Except Error β}
    (hm : Yields I m (.ok a)) (hf : Yields I (f a) r) : Yields I (m >>= f) r := by
  intro c hc
  obtain ⟨c', hc', hI⟩ := hm.on_eq hc
  rw [on_bind_of_ok hc']
  exact hf c' hI

theorem Yields.bind_error {m : CatalogM α} {e : Error} (hm : Yields I m (.error e))
    (f : α → CatalogM β) : Yields I (m >>= f) (.error e) := by
  intro c hc
  obtain ⟨c', hc', hI⟩ := hm.on_eq hc
  rw [on_bind_of_error hc']
  exact ⟨rfl, hI⟩

theorem Yields.bind {m : CatalogM α} {r : Except Error α} {f : α → CatalogM β}
    {g : α → Except Error β} (hm : Yields I m r) (hf : ∀ a, r = .ok a → Yields I (f a) (g a)) :
    Yields I (m >>= f) (r >>= g) := by
  cases r with
  | ok a => exact hm.bind_ok (hf a rfl)
  | error e => exact hm.bind_error f

theorem Yields.map {m : CatalogM α} {r : Except Error α} (hm : Yields I m r) (g : α → β) :
    Yields I (g <$> m) (r.map g) := by
  intro c hc
  rw [on_map]
  exact ⟨congrArg (Except.map g) (hm c hc).1, (hm c hc).2⟩

theorem Yields.mapM {f : α → CatalogM β} {g : α → Except Error β} (xs : List α)
    (h : ∀ a ∈ xs, Yields I (f a) (g a)) : Yields I (xs.mapM f) (xs.mapM g) := by
  induction xs with
  | nil => exact yields_pure []
  | cons x xs ih =>
    rw [List.mapM_cons, List.mapM_cons]
    exact (h x List.mem_cons_self).bind fun b _ =>
      (ih fun a ha => h a (List.mem_cons_of_mem _ ha)).bind fun bs _ => yields_pure (b :: bs)

theorem keeps_pure (a : α) : Keeps I (pure a) := (yields_pure a).keeps

theorem keeps_throw (e : Error) : Keeps I (throw e : CatalogM α) := fun _ hc => hc

theorem keeps_get : Keeps I (get : CatalogM Catalog) := fun _ hc => hc

theorem keeps_lift (r : Except Error α) : Keeps I (liftM r : CatalogM α) := by
  cases r with
  | ok a => exact keeps_pure a
  | error e => exact keeps_throw e

theorem Keeps.bind {m : CatalogM α} {f : α → CatalogM β} (hm : Keeps I m)
    (hf : ∀ a, Keeps I (f a)) : Keeps I (m >>= f) := by
  intro c hc
  cases hresult : (m.on c).1 with
  | ok a =>
    rw [on_bind_of_ok (Prod.ext hresult rfl)]
    exact hf a _ (hm c hc)
  | error e =>
    rw [on_bind_of_error (Prod.ext hresult rfl)]
    exact hm c hc

theorem Keeps.mapM {f : α → CatalogM β} (xs : List α) (h : ∀ a, Keeps I (f a)) :
    Keeps I (xs.mapM f) := by
  induction xs with
  | nil => exact keeps_pure []
  | cons x xs ih =>
    rw [List.mapM_cons]
    exact (h x).bind fun _ => ih.bind fun _ => keeps_pure _

theorem Keeps.filterM {p : α → CatalogM Bool} (xs : List α) (h : ∀ a, Keeps I (p a)) :
    Keeps I (xs.filterM p) := by
  induction xs with
  | nil => exact keeps_pure []
  | cons x xs ih =>
    rw [Scan.filterM_cons]
    exact (h x).bind fun _ => ih.bind fun _ => keeps_pure _

end

end PackageCatalog.CatalogM
