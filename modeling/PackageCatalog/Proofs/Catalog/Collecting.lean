import PackageCatalog.Proofs.Catalog.Asking

/-!
# Collecting entries

Entries are collected in loops: over the repositories that declare virtuals, over what each of them
declares, and over the repositories that have the provider.  `collected` is what the loops make of
the answers of single repositories, whatever those are (`declaredEntries_yields_collected`):

    a is collected by g if and only if g declares its virtual, and some h has it  (mem_collectedBy)
    collected gs declared provided is right if all answers are                     (collected_isOk)
    it holds an entry twice if and only if two repositories declare it            (nodup_collected)
-/

namespace PackageCatalog

variable {α β κ : Type}

/-! ## Loops over answers -/

theorem mem_flatten_mapM {f : α → Except Error (List β)} {xs : List α} {list : List β}
    (h : (xs.mapM f).map List.flatten = .ok list) {b : β} :
    b ∈ list ↔ ∃ a ∈ xs, ∃ bs, f a = .ok bs ∧ b ∈ bs := by
  obtain ⟨lists, hlists, rfl⟩ := Scan.map_eq_ok_iff.1 h
  obtain ⟨hleft, hright⟩ := Scan.mapM_spec hlists
  rw [List.mem_flatten]
  constructor
  · rintro ⟨bs, hbs, hb⟩
    obtain ⟨a, ha, hf⟩ := hright bs hbs
    exact ⟨a, ha, bs, hf, hb⟩
  · rintro ⟨a, ha, bs, hf, hb⟩
    obtain ⟨bs', hbs', hf'⟩ := hleft a ha
    cases hf.symm.trans hf'
    exact ⟨bs, hbs', hb⟩

theorem flatten_mapM_isOk {f : α → Except Error (List β)} {xs : List α}
    (h : ∀ a ∈ xs, ∃ bs, f a = .ok bs) : ∃ list, (xs.mapM f).map List.flatten = .ok list := by
  obtain ⟨lists, hlists⟩ := Scan.mapM_isOk h
  exact ⟨lists.flatten, congrArg (Except.map List.flatten) hlists⟩

/-- The lists that two members of a loop add have no key in common. -/
def Apart (f : α → Except Error (List β)) (key : β → κ) (a a' : α) : Prop :=
  ∀ bs bs', f a = .ok bs → f a' = .ok bs' → ∀ b ∈ bs, ∀ b' ∈ bs', key b ≠ key b'

/-- No key comes twice if and only if none does in one turn of the loop, nor in two. -/
theorem nodup_flatten_mapM {f : α → Except Error (List β)} {xs : List α} {list : List β}
    (h : (xs.mapM f).map List.flatten = .ok list) (key : β → κ) :
    (list.map key).Nodup ↔ (∀ a ∈ xs, ∀ bs, f a = .ok bs → (bs.map key).Nodup) ∧
      xs.Pairwise (Apart f key) := by
  obtain ⟨lists, hlists, rfl⟩ := Scan.map_eq_ok_iff.1 h
  induction xs generalizing lists with
  | nil =>
    cases hlists
    exact ⟨fun _ => ⟨List.forall_mem_nil _, .nil⟩, fun _ => List.nodup_nil⟩
  | cons a xs ih =>
    rw [List.mapM_cons, Scan.bind_eq_ok_iff] at hlists
    obtain ⟨bs, hbs, hlists⟩ := hlists
    obtain ⟨rest, hrest, hlists⟩ := Scan.bind_eq_ok_iff.1 hlists
    cases hlists
    have hmem (b : β) : b ∈ rest.flatten ↔ ∃ a' ∈ xs, ∃ bs', f a' = .ok bs' ∧ b ∈ bs' :=
      mem_flatten_mapM (congrArg (Except.map List.flatten) hrest)
    have hapart : (∀ k ∈ bs.map key, ∀ k' ∈ rest.flatten.map key, k ≠ k') ↔
        ∀ a' ∈ xs, Apart f key a a' := by
      simp only [List.forall_mem_map]
      constructor
      · intro hkeys a' ha' cs cs' hcs hcs' b hb b' hb'
        cases hbs.symm.trans hcs
        exact hkeys b hb b' ((hmem b').2 ⟨a', ha', cs', hcs', hb'⟩)
      · intro happart b hb b' hb'
        obtain ⟨a', ha', bs', hbs', hb'⟩ := (hmem b').1 hb'
        exact happart a' ha' bs bs' hbs hbs' b hb b' hb'
    rw [List.flatten_cons, List.map_append, List.nodup_append, hapart,
      ih rest hrest (congrArg (Except.map List.flatten) hrest), List.forall_mem_cons,
      List.pairwise_cons]
    constructor
    · rintro ⟨hfirst, ⟨hothers, hpairwise⟩, happart⟩
      exact ⟨⟨fun cs hcs => Except.ok.inj (hbs.symm.trans hcs) ▸ hfirst, hothers⟩, happart,
        hpairwise⟩
    · rintro ⟨⟨hfirst, hothers⟩, happart, hpairwise⟩
      exact ⟨hfirst bs hbs, ⟨hothers, hpairwise⟩, happart⟩

/-! ## Declared entries -/

section
variable (gs : List Registered)
  (declared : Registered → Except Error (Option (List (QualifiedName × Atom))))
  (provided : Registered → QualifiedName → QualifiedName → Atom →
    Except Error (Option (List RankedEntry)))

/-- The entries of one declared virtual; a declaration without the name of a package has none. -/
def collectedOf (declaration : QualifiedName × Atom) : Except Error (List RankedEntry) :=
  match declaration.2.qualifiedName with
  | .ok provider => .map List.flatten <| gs.mapM fun g =>
      (provided g declaration.1 provider declaration.2).map (·.getD [])
  | .error _ => .ok []

/-- The entries that one repository declares. -/
def collectedBy (g : Registered) : Except Error (List RankedEntry) := do
  let declarations := (← declared g).getD []
  (declarations.mapM (collectedOf gs provided)).map List.flatten

def collected : Except Error (List RankedEntry) :=
  (gs.mapM (collectedBy gs declared provided)).map List.flatten

end

section
variable {gs : List Registered}
  {declared : Registered → Except Error (Option (List (QualifiedName × Atom)))}
  {provided : Registered → QualifiedName → QualifiedName → Atom →
    Except Error (Option (List RankedEntry))}

theorem mem_collectedOf {declaration : QualifiedName × Atom} {list : List RankedEntry}
    (h : collectedOf gs provided declaration = .ok list) {a : RankedEntry} :
    a ∈ list ↔ ∃ provider, declaration.2.qualifiedName = .ok provider ∧ ∃ g ∈ gs, ∃ bs,
      provided g declaration.1 provider declaration.2 = .ok (some bs) ∧ a ∈ bs := by
  unfold collectedOf at h
  cases hprovider : declaration.2.qualifiedName with
  | error e =>
    rw [hprovider] at h
    cases h
    exact ⟨nofun, nofun⟩
  | ok provider =>
    rw [hprovider] at h
    rw [mem_flatten_mapM h]
    constructor
    · rintro ⟨g, hg, bs, hbs, ha⟩
      obtain ⟨found, hfound, rfl⟩ := Scan.map_eq_ok_iff.1 hbs
      cases found with
      | none => cases ha
      | some bs => exact ⟨provider, rfl, g, hg, bs, hfound, ha⟩
    · rintro ⟨_, hp, g, hg, bs, hbs, ha⟩
      cases hp
      exact ⟨g, hg, bs, Scan.map_eq_ok_iff.2 ⟨_, hbs, rfl⟩, ha⟩

/-- An entry is collected by a repository if that declares its virtual, and some repository has the
provider. -/
theorem mem_collectedBy {g : Registered} {list : List RankedEntry}
    (h : collectedBy gs declared provided g = .ok list) {a : RankedEntry} :
    a ∈ list ↔ ∃ declarations, declared g = .ok (some declarations) ∧
      ∃ declaration ∈ declarations, ∃ provider, declaration.2.qualifiedName = .ok provider ∧
        ∃ g' ∈ gs, ∃ bs, provided g' declaration.1 provider declaration.2 = .ok (some bs) ∧
          a ∈ bs := by
  obtain ⟨found, hfound, h⟩ := Scan.bind_eq_ok_iff.1 h
  rw [mem_flatten_mapM h, hfound]
  constructor
  · rintro ⟨declaration, hmem, bs, hbs, ha⟩
    cases found with
    | none => cases hmem
    | some declarations => exact ⟨declarations, rfl, declaration, hmem, (mem_collectedOf hbs).1 ha⟩
  · rintro ⟨declarations, hdeclarations, declaration, hmem, ha⟩
    cases hdeclarations
    obtain ⟨lists, hlists, -⟩ := Scan.map_eq_ok_iff.1 h
    obtain ⟨bs, -, hbs⟩ := (Scan.mapM_spec hlists).1 declaration hmem
    exact ⟨declaration, hmem, bs, hbs, (mem_collectedOf hbs).2 ha⟩

/-- Everything can be collected if nothing fails that is asked for. -/
theorem collected_isOk (hdeclared : ∀ g ∈ gs, ∃ found, declared g = .ok found)
    (hprovided : ∀ g ∈ gs, ∀ declarations, declared g = .ok (some declarations) →
      ∀ declaration ∈ declarations, ∀ provider, declaration.2.qualifiedName = .ok provider →
        ∀ g' ∈ gs, ∃ found, provided g' declaration.1 provider declaration.2 = .ok found) :
    ∃ list, collected gs declared provided = .ok list := by
  refine flatten_mapM_isOk fun g hg => ?_
  obtain ⟨found, hfound⟩ := hdeclared g hg
  unfold collectedBy
  rw [hfound]
  refine flatten_mapM_isOk fun declaration hmem => ?_
  unfold collectedOf
  cases hprovider : declaration.2.qualifiedName with
  | error e => exact ⟨[], rfl⟩
  | ok provider =>
    refine flatten_mapM_isOk fun g' hg' => ?_
    cases found with
    | none => cases hmem
    | some declarations =>
      obtain ⟨found', hfound'⟩ := hprovided g hg declarations hfound declaration hmem provider
        hprovider g' hg'
      exact ⟨found'.getD [], Scan.map_eq_ok_iff.2 ⟨found', hfound', rfl⟩⟩

/-- A repository declares each virtual once, and a provider is found in a repository at most once
and in no two. -/
structure Separate (gs : List Registered)
    (declared : Registered → Except Error (Option (List (QualifiedName × Atom))))
    (provided : Registered → QualifiedName → QualifiedName → Atom →
      Except Error (Option (List RankedEntry))) : Prop where
  declared : ∀ g ∈ gs, ∀ declarations, declared g = .ok (some declarations) →
    (declarations.map Prod.fst).Nodup
  named : ∀ g ∈ gs, ∀ n provider atom bs, provided g n provider atom = .ok (some bs) →
    ∀ b ∈ bs, b.entry.virtualName = n
  once : ∀ g ∈ gs, ∀ n provider atom bs, provided g n provider atom = .ok (some bs) →
    (bs.map RankedEntry.entry).Nodup
  apart : gs.Pairwise fun g g' => ∀ n provider atom bs bs',
    provided g n provider atom = .ok (some bs) → provided g' n provider atom = .ok (some bs') →
      ∀ b ∈ bs, ∀ b' ∈ bs', b.entry ≠ b'.entry

theorem Separate.nodup_collectedOf (h : Separate gs declared provided)
    {declaration : QualifiedName × Atom} {list : List RankedEntry}
    (hlist : collectedOf gs provided declaration = .ok list) :
    (list.map RankedEntry.entry).Nodup := by
  unfold collectedOf at hlist
  cases hprovider : declaration.2.qualifiedName with
  | error e =>
    rw [hprovider] at hlist
    cases hlist
    exact List.nodup_nil
  | ok provider =>
    rw [hprovider] at hlist
    refine (nodup_flatten_mapM hlist RankedEntry.entry).2 ⟨fun g hg bs hbs => ?_, ?_⟩
    · obtain ⟨found, hfound, rfl⟩ := Scan.map_eq_ok_iff.1 hbs
      cases found with
      | none => exact List.nodup_nil
      | some bs => exact h.once g hg _ _ _ bs hfound
    · refine h.apart.imp fun {g g'} happart bs bs' hbs hbs' b hb b' hb' => ?_
      obtain ⟨found, hfound, rfl⟩ := Scan.map_eq_ok_iff.1 hbs
      obtain ⟨found', hfound', rfl⟩ := Scan.map_eq_ok_iff.1 hbs'
      cases found with
      | none => cases hb
      | some bs =>
        cases found' with
        | none => cases hb'
        | some bs' => exact happart _ _ _ bs bs' hfound hfound' b hb b' hb'

theorem Separate.nodup_collectedBy (h : Separate gs declared provided) {g : Registered}
    (hg : g ∈ gs) {list : List RankedEntry}
    (hlist : collectedBy gs declared provided g = .ok list) :
    (list.map RankedEntry.entry).Nodup := by
  obtain ⟨found, hfound, hlist⟩ := Scan.bind_eq_ok_iff.1 hlist
  refine (nodup_flatten_mapM hlist RankedEntry.entry).2
    ⟨fun declaration _ bs hbs => h.nodup_collectedOf hbs, ?_⟩
  cases found with
  | none => exact .nil
  | some declarations =>
    have hnames : declarations.Pairwise fun d d' => d.1 ≠ d'.1 :=
      List.pairwise_map.1 (h.declared g hg declarations hfound)
    refine hnames.imp fun {d d'} hne bs bs' hbs hbs' b hb b' hb' heq => hne ?_
    obtain ⟨provider, -, g', hg', cs, hcs, hb⟩ := (mem_collectedOf hbs).1 hb
    obtain ⟨provider', -, g'', hg'', cs', hcs', hb'⟩ := (mem_collectedOf hbs').1 hb'
    rw [← h.named g' hg' _ _ _ cs hcs b hb, heq, h.named g'' hg'' _ _ _ cs' hcs' b' hb']

/-- No entry is collected twice if and only if no two repositories declare one. -/
theorem Separate.nodup_collected (h : Separate gs declared provided) {list : List RankedEntry}
    (hlist : collected gs declared provided = .ok list) :
    (list.map RankedEntry.entry).Nodup ↔
      gs.Pairwise (Apart (collectedBy gs declared provided) RankedEntry.entry) := by
  rw [nodup_flatten_mapM hlist]
  exact and_iff_right fun g hg bs hbs => h.nodup_collectedBy hg hbs

end

namespace CatalogM

/-- What is collected, if the answers of single repositories are always the same. -/
theorem declaredEntries_yields_collected {I : Catalog → Prop} {gs : List Registered}
    {declared : Registered → Except Error (Option (List (QualifiedName × Atom)))}
    {provided : Registered → QualifiedName → QualifiedName → Atom →
      Except Error (Option (List RankedEntry))}
    (hregistry : Yields I needRegistry (.ok gs))
    (hwarned : ∀ (c : Catalog) (ws : List Warning), I c → I { c with warnings := ws })
    (hdeclared : ∀ g, Yields I (onEbuild? g.number (·.virtualPackages)) (declared g))
    (hprovided : ∀ g virtualName provider atom, Yields I (onEbuild? g.number
      (EbuildRepository.rankedVersions g.importance virtualName provider atom))
      (provided g virtualName provider atom)) :
    Yields I declaredEntries (collected gs declared provided) := by
  refine hregistry.bind_ok ?_
  rw [bind_pure_comp]
  refine Yields.map (Yields.mapM gs fun g _ => (hdeclared g).bind fun found _ => ?_) _
  rw [bind_pure_comp]
  refine Yields.map (Yields.mapM (found.getD []) fun declaration _ => ?_) _
  obtain ⟨virtualName, atom⟩ := declaration
  unfold collectedOf
  dsimp only
  cases atom.qualifiedName with
  | ok provider =>
    dsimp only
    unfold CatalogM.entriesOf
    rw [bind_pure_comp]
    refine Yields.map (Yields.mapM gs fun h _ => ?_) _
    rw [bind_pure_comp]
    exact (hprovided h virtualName provider atom).map _
  | error e => exact fun c hc => ⟨rfl, hwarned c _ hc⟩

end CatalogM

end PackageCatalog
