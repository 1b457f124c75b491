import PackageCatalog.Config.Lines

/-!
# What scans do

`Scan.on` is what a scan makes of a journal: its result, and the journal after it.  There is one law
for each way to build a scan; later proofs go from law to law and open no monad.

`Yields I s t r` says that from every memo with the property `I` the scan ends with the result `r`
and leaves a memo with that property.  A scan that *reads* yields its result whatever the memo, and
leaves alone what `view` shows of it.  `Keeps I s t` leaves the result open, and `Ensures I s t Q`
says of it that it has the property `Q`.  `Agrees R s t` compares two runs from different memos:

    Reads view s t r → s.found t = r                                     (Reads.found_eq)
    Reads view s t r → s.on t j = (r, j') with view j'.memo = view j.memo (Reads.on_eq)
-/

namespace PackageCatalog.Scan

variable {σ τ α β : Type}

/-! ## Laws -/

/-- What a scan makes of a journal. -/
def on (s : Scan σ α) (t : FileTree) (j : Journal σ) : Except Error α × Journal σ :=
  (ReaderT.run s t).run.run j

theorem run_eq_on (s : Scan σ α) (t : FileTree) (memo : σ) :
    s.run t memo =
      ((s.on t ⟨memo, []⟩).1, (s.on t ⟨memo, []⟩).2.memo, (s.on t ⟨memo, []⟩).2.warnings) := rfl

@[simp] theorem on_pure (a : α) (t : FileTree) (j : Journal σ) :
    (pure a : Scan σ α).on t j = (.ok a, j) := rfl

@[simp] theorem on_throw (e : Error) (t : FileTree) (j : Journal σ) :
    (throw e : Scan σ α).on t j = (.error e, j) := rfl

@[simp] theorem on_memo (t : FileTree) (j : Journal σ) :
    (memo : Scan σ σ).on t j = (.ok j.memo, j) := rfl

@[simp] theorem on_modifyMemo (f : σ → σ) (t : FileTree) (j : Journal σ) :
    (modifyMemo f).on t j = (.ok (), { j with memo := f j.memo }) := rfl

@[simp] theorem on_setMemo (memo : σ) (t : FileTree) (j : Journal σ) :
    (setMemo memo).on t j = (.ok (), { j with memo := memo }) := rfl

@[simp] theorem on_read (t : FileTree) (j : Journal σ) :
    (read : Scan σ FileTree).on t j = (.ok t, j) := rfl

@[simp] theorem on_isDirectory (path : String) (t : FileTree) (j : Journal σ) :
    (isDirectory path : Scan σ Bool).on t j = (.ok (t.isDirectory path), j) := rfl

theorem on_bind_of_ok {s : Scan σ α} {t : FileTree} {j j' : Journal σ} {a : α}
    (h : s.on t j = (.ok a, j')) (f : α → Scan σ β) : (s >>= f).on t j = (f a).on t j' := by
  show (s t >>= fun a => f a t : ExceptT Error (StateM (Journal σ)) β).run.run j = _
  rw [ExceptT.run_bind, StateT.run_bind, show (s t).run.run j = (.ok a, j') from h]
  rfl

theorem on_bind_of_error {s : Scan σ α} {t : FileTree} {j j' : Journal σ} {e : Error}
    (h : s.on t j = (.error e, j')) (f : α → Scan σ β) : (s >>= f).on t j = (.error e, j') := by
  show (s t >>= fun a => f a t : ExceptT Error (StateM (Journal σ)) β).run.run j = _
  rw [ExceptT.run_bind, StateT.run_bind, show (s t).run.run j = (.error e, j') from h]
  rfl

/-- What goes on after an outcome is right only if the outcome is. -/
theorem on_lift_bind_eq_ok {r : Except Error α} {f : α → Scan σ β} {t : FileTree}
    {j : Journal σ} {b : β} (h : ((liftM r >>= f : Scan σ β).on t j).1 = .ok b) :
    ∃ a, r = .ok a ∧ ((f a).on t j).1 = .ok b := by
  cases r with
  | error e => cases h
  | ok a => exact ⟨a, rfl, h⟩

/-- The first scan is done, and then the second unless the first failed. -/
theorem on_bind (s : Scan σ α) (f : α → Scan σ β) (t : FileTree) (j : Journal σ) :
    (s >>= f).on t j = match (s.on t j).1 with
      | .ok a => (f a).on t (s.on t j).2
      | .error e => (.error e, (s.on t j).2) := by
  cases h : (s.on t j).1 with
  | ok a => exact on_bind_of_ok (Prod.ext h rfl) f
  | error e => exact on_bind_of_error (Prod.ext h rfl) f

/-- The parts of a scan that ends well end well. -/
theorem on_bind_eq_ok {s : Scan σ α} {f : α → Scan σ β} {t : FileTree} {j j' : Journal σ} {b : β}
    (h : (s >>= f).on t j = (.ok b, j')) :
    ∃ a j₁, s.on t j = (.ok a, j₁) ∧ (f a).on t j₁ = (.ok b, j') := by
  rw [on_bind] at h
  cases hs : (s.on t j).1 with
  | ok a =>
    rw [hs] at h
    exact ⟨a, _, Prod.ext hs rfl, h⟩
  | error e =>
    rw [hs] at h
    cases h

@[simp] theorem on_map (g : α → β) (s : Scan σ α) (t : FileTree) (j : Journal σ) :
    (g <$> s).on t j = ((s.on t j).1.map g, (s.on t j).2) := by
  rw [← bind_pure_comp, on_bind]
  cases (s.on t j).1 <;> rfl

theorem on_discard (s : Scan σ α) (t : FileTree) (j : Journal σ) :
    (discard s).on t j = ((s.on t j).1.map fun _ => (), (s.on t j).2) :=
  on_map (fun _ => ()) s t j

theorem on_zoom (part : σ → τ) (putBack : σ → τ → σ) (s : Scan τ α) (t : FileTree)
    (j : Journal σ) : (zoom part putBack s).on t j =
      ((s.on t ⟨part j.memo, j.warnings⟩).1,
        ⟨putBack j.memo (s.on t ⟨part j.memo, j.warnings⟩).2.memo,
          (s.on t ⟨part j.memo, j.warnings⟩).2.warnings⟩) := rfl

theorem on_attempt (s : Scan σ α) (t : FileTree) (j : Journal σ) :
    s.attempt.on t j = (.ok (s.on t j).1, (s.on t j).2) := rfl

theorem on_tryCatch_of_ok {s : Scan σ α} {t : FileTree} {j j' : Journal σ} {a : α}
    (h : s.on t j = (.ok a, j')) (f : Error → Scan σ α) :
    (tryCatch s f).on t j = (.ok a, j') := by
  show (ExceptT.tryCatch (s t) fun e => f e t : ExceptT Error (StateM (Journal σ)) α).run.run j = _
  unfold ExceptT.tryCatch ExceptT.run ExceptT.mk
  rw [StateT.run_bind, show StateT.run (s t) j = (.ok a, j') from h]
  rfl

theorem on_tryCatch_of_error {s : Scan σ α} {t : FileTree} {j j' : Journal σ} {e : Error}
    (h : s.on t j = (.error e, j')) (f : Error → Scan σ α) :
    (tryCatch s f).on t j = (f e).on t j' := by
  show (ExceptT.tryCatch (s t) fun e => f e t : ExceptT Error (StateM (Journal σ)) α).run.run j = _
  unfold ExceptT.tryCatch ExceptT.run ExceptT.mk
  rw [StateT.run_bind, show StateT.run (s t) j = (.error e, j') from h]
  rfl

/-! ## Outcomes that are right -/

theorem toOption_eq_some_iff {ε : Type} {r : Except ε α} {a : α} :
    r.toOption = some a ↔ r = .ok a := by
  cases r <;> simp [Except.toOption]

theorem bind_eq_ok_iff {r : Except Error α} {f : α → Except Error β} {b : β} :
    r >>= f = .ok b ↔ ∃ a, r = .ok a ∧ f a = .ok b := by
  cases r with
  | error e => exact ⟨nofun, nofun⟩
  | ok a => exact ⟨fun h => ⟨a, rfl, h⟩, fun ⟨_, ha, h⟩ => Except.ok.inj ha ▸ h⟩

theorem map_eq_ok_iff {r : Except Error α} {g : α → β} {b : β} :
    r.map g = .ok b ↔ ∃ a, r = .ok a ∧ g a = b := by
  cases r with
  | error e => exact ⟨nofun, nofun⟩
  | ok a => exact ⟨fun h => ⟨a, rfl, Except.ok.inj h⟩, fun ⟨_, ha, h⟩ => by cases ha; cases h; rfl⟩

/-- The outcomes of the members of a list are the members of the result. -/
theorem mapM_spec {f : α → Except Error β} {as : List α} {bs : List β}
    (h : as.mapM f = .ok bs) :
    (∀ a ∈ as, ∃ b ∈ bs, f a = .ok b) ∧ ∀ b ∈ bs, ∃ a ∈ as, f a = .ok b := by
  induction as generalizing bs with
  | nil =>
    cases h
    exact ⟨nofun, nofun⟩
  | cons a as ih =>
    rw [List.mapM_cons, bind_eq_ok_iff] at h
    obtain ⟨b, hb, h⟩ := h
    obtain ⟨rest, hrest, h⟩ := bind_eq_ok_iff.1 h
    cases h
    obtain ⟨hleft, hright⟩ := ih hrest
    constructor
    · refine List.forall_mem_cons.2 ⟨⟨b, List.mem_cons_self, hb⟩, fun a' ha' => ?_⟩
      obtain ⟨b', hb', hf⟩ := hleft a' ha'
      exact ⟨b', List.mem_cons_of_mem b hb', hf⟩
    · refine List.forall_mem_cons.2 ⟨⟨a, List.mem_cons_self, hb⟩, fun b' hb' => ?_⟩
      obtain ⟨a', ha', hf⟩ := hright b' hb'
      exact ⟨a', List.mem_cons_of_mem a ha', hf⟩

theorem mapM_isOk {f : α → Except Error β} {xs : List α} (h : ∀ a ∈ xs, ∃ b, f a = .ok b) :
    ∃ bs, xs.mapM f = .ok bs := by
  induction xs with
  | nil => exact ⟨[], rfl⟩
  | cons a xs ih =>
    obtain ⟨b, hb⟩ := h a List.mem_cons_self
    obtain ⟨bs, hbs⟩ := ih fun a ha => h a (List.mem_cons_of_mem _ ha)
    refine ⟨b :: bs, ?_⟩
    rw [List.mapM_cons, hb, hbs]
    rfl

/-! ## Yielding a result -/

/-- From a memo with the property `I`, the result is `r` and the memo keeps the property. -/
def Yields (I : σ → Prop) (s : Scan σ α) (t : FileTree) (r : Except Error α) : Prop :=
  ∀ j, I j.memo → (s.on t j).1 = r ∧ I (s.on t j).2.memo

section
variable {I : σ → Prop} {t : FileTree}

theorem Yields.of_on {s : Scan σ α} {r : Except Error α}
    (h : ∀ j, I j.memo → ∃ j', s.on t j = (r, j') ∧ I j'.memo) : Yields I s t r := by
  intro j hj
  obtain ⟨j', hs, hj'⟩ := h j hj
  rw [hs]
  exact ⟨rfl, hj'⟩

theorem Yields.on_eq {s : Scan σ α} {r : Except Error α} (h : Yields I s t r) {j : Journal σ}
    (hj : I j.memo) : ∃ j', s.on t j = (r, j') ∧ I j'.memo :=
  ⟨(s.on t j).2, Prod.ext (h j hj).1 rfl, (h j hj).2⟩

theorem yields_pure (a : α) : Yields I (pure a) t (.ok a) := fun _ hj => ⟨rfl, hj⟩

theorem yields_throw (e : Error) : Yields I (throw e : Scan σ α) t (.error e) :=
  fun _ hj => ⟨rfl, hj⟩

theorem Yields.bind_ok {s : Scan σ α} {a : α} {f : α → Scan σ β} {r : Except Error β}
    (hs : Yields I s t (.ok a)) (hf : Yields I (f a) t r) : Yields I (s >>= f) t r := by
  intro j hj
  obtain ⟨j', hj', hI⟩ := hs.on_eq hj
  rw [on_bind_of_ok hj']
  exact hf j' hI

theorem Yields.bind_error {s : Scan σ α} {e : Error} (hs : Yields I s t (.error e))
    (f : α → Scan σ β) : Yields I (s >>= f) t (.error e) := by
  intro j hj
  obtain ⟨j', hj', hI⟩ := hs.on_eq hj
  rw [on_bind_of_error hj']
  exact ⟨rfl, hI⟩

theorem Yields.bind {s : Scan σ α} {r : Except Error α} {f : α → Scan σ β}
    {g : α → Except Error β} (hs : Yields I s t r)
    (hf : ∀ a, r = .ok a → Yields I (f a) t (g a)) : Yields I (s >>= f) t (r >>= g) := by
  cases r with
  | ok a => exact hs.bind_ok (hf a rfl)
  | error e => exact hs.bind_error f

theorem Yields.map {s : Scan σ α} {r : Except Error α} (hs : Yields I s t r) (g : α → β) :
    Yields I (g <$> s) t (r.map g) := by
  intro j hj
  rw [on_map]
  exact ⟨by rw [(hs j hj).1], (hs j hj).2⟩

theorem Yields.attempt {s : Scan σ α} {r : Except Error α} (hs : Yields I s t r) :
    Yields I s.attempt t (.ok r) := by
  intro j hj
  rw [on_attempt]
  exact ⟨congrArg Except.ok (hs j hj).1, (hs j hj).2⟩

/-- A scan of a part of the memo, where what is known of the whole gives what the scan needs. -/
theorem Yields.zoom {J : τ → Prop} {part : σ → τ} {putBack : σ → τ → σ} {s : Scan τ α}
    {r : Except Error α} (hs : Yields J s t r) (hpart : ∀ memo, I memo → J (part memo))
    (hback : ∀ memo new, I memo → J new → I (putBack memo new)) :
    Yields I (s.zoom part putBack) t r := by
  intro j hj
  obtain ⟨hresult, hnew⟩ := hs ⟨part j.memo, j.warnings⟩ (hpart _ hj)
  rw [on_zoom]
  exact ⟨hresult, hback _ _ hj hnew⟩

theorem Yields.foldlM {f : β → α → Scan σ β} {g : β → α → Except Error β} (xs : List α)
    (h : ∀ b, ∀ a ∈ xs, Yields I (f b a) t (g b a)) (b : β) :
    Yields I (xs.foldlM f b) t (xs.foldlM g b) := by
  induction xs generalizing b with
  | nil => exact yields_pure b
  | cons x xs ih =>
    rw [List.foldlM_cons, List.foldlM_cons]
    exact (h b x List.mem_cons_self).bind fun b' _ =>
      ih (fun b a ha => h b a (List.mem_cons_of_mem _ ha)) b'

theorem Yields.mapM {f : α → Scan σ β} {g : α → Except Error β} (xs : List α)
    (h : ∀ a ∈ xs, Yields I (f a) t (g a)) : Yields I (xs.mapM f) t (xs.mapM g) := by
  induction xs with
  | nil => exact yields_pure []
  | cons x xs ih =>
    rw [List.mapM_cons, List.mapM_cons]
    exact (h x List.mem_cons_self).bind fun b _ =>
      (ih fun a ha => h a (List.mem_cons_of_mem _ ha)).bind fun bs _ => yields_pure (b :: bs)

end

theorem filterAuxM_eq {m : Type → Type} [Monad m] [LawfulMonad m] (p : α → m Bool)
    (xs kept : List α) :
    xs.filterAuxM p kept = (fun ys => ys.reverse ++ kept) <$> xs.filterM p := by
  induction xs generalizing kept with
  | nil => simp [List.filterM]
  | cons x xs ih =>
    simp only [List.filterM, List.filterAuxM, bind_pure_comp, map_bind, Functor.map_map] at ih ⊢
    refine bind_congr fun b => ?_
    rw [ih, ih (cond b [x] [])]
    cases b <;> simp

theorem filterM_cons {m : Type → Type} [Monad m] [LawfulMonad m] (p : α → m Bool) (x : α)
    (xs : List α) :
    (x :: xs).filterM p = do
      let keep ← p x
      let kept ← xs.filterM p
      return if keep then x :: kept else kept := by
  simp only [List.filterM, List.filterAuxM, bind_assoc]
  refine bind_congr fun keep => ?_
  rw [filterAuxM_eq]
  cases keep <;> simp [List.filterM]

theorem Yields.filterM {I : σ → Prop} {t : FileTree} {p : α → Scan σ Bool}
    {q : α → Except Error Bool} (xs : List α) (h : ∀ a ∈ xs, Yields I (p a) t (q a)) :
    Yields I (xs.filterM p) t (xs.filterM q) := by
  induction xs with
  | nil => exact yields_pure []
  | cons x xs ih =>
    rw [filterM_cons, filterM_cons]
    exact (h x List.mem_cons_self).bind fun keep _ =>
      (ih fun a ha => h a (List.mem_cons_of_mem _ ha)).bind fun kept _ => yields_pure _

theorem Yields.anyM {I : σ → Prop} {t : FileTree} {p : α → Scan σ Bool} {q : α → Bool}
    (xs : List α) (h : ∀ a, Yields I (p a) t (.ok (q a))) :
    Yields I (xs.anyM p) t (.ok (xs.any q)) := by
  induction xs with
  | nil => exact yields_pure false
  | cons x xs ih =>
    refine (h x).bind_ok ?_
    rw [List.any_cons]
    cases q x with
    | true => exact yields_pure true
    | false => exact ih

/-! ## Keeping a property -/

/-- Whatever the result is, a memo with the property `I` is left with it. -/
def Keeps (I : σ → Prop) (s : Scan σ α) (t : FileTree) : Prop :=
  ∀ j, I j.memo → I (s.on t j).2.memo

section
variable {I : σ → Prop} {t : FileTree}

theorem Yields.keeps {s : Scan σ α} {r : Except Error α} (h : Yields I s t r) : Keeps I s t :=
  fun j hj => (h j hj).2

theorem keeps_pure (a : α) : Keeps I (pure a) t := (yields_pure a).keeps

theorem Keeps.bind {s : Scan σ α} {f : α → Scan σ β} (hs : Keeps I s t)
    (hf : ∀ a, Keeps I (f a) t) : Keeps I (s >>= f) t := by
  intro j hj
  rw [on_bind]
  cases h : (s.on t j).1 with
  | ok a => exact hf a _ (hs j hj)
  | error e => exact hs j hj

theorem keeps_throw (e : Error) : Keeps I (throw e : Scan σ α) t := (yields_throw e).keeps

theorem keeps_memo : Keeps I (memo : Scan σ σ) t := fun _ hj => hj

theorem keeps_warn (w : Warning) : Keeps I (warn w : Scan σ Unit) t := fun _ hj => hj

theorem keeps_modifyMemo {f : σ → σ} (h : ∀ memo, I memo → I (f memo)) :
    Keeps I (modifyMemo f) t := fun _ hj => h _ hj

theorem Keeps.discard {s : Scan σ α} (hs : Keeps I s t) : Keeps I (discard s) t := by
  intro j hj
  rw [on_discard]
  exact hs j hj

theorem Keeps.attempt {s : Scan σ α} (hs : Keeps I s t) : Keeps I s.attempt t := by
  intro j hj
  rw [on_attempt]
  exact hs j hj

theorem Keeps.zoom {J : τ → Prop} {part : σ → τ} {putBack : σ → τ → σ} {s : Scan τ α}
    (hs : Keeps J s t) (hpart : ∀ memo, I memo → J (part memo))
    (hback : ∀ memo new, I memo → J new → I (putBack memo new)) :
    Keeps I (s.zoom part putBack) t :=
  fun j hj => hback _ _ hj (hs ⟨part j.memo, j.warnings⟩ (hpart _ hj))

theorem Keeps.foldlM {f : β → α → Scan σ β} (xs : List α) (h : ∀ b a, Keeps I (f b a) t) (b : β) :
    Keeps I (xs.foldlM f b) t := by
  induction xs generalizing b with
  | nil => exact keeps_pure b
  | cons x xs ih =>
    rw [List.foldlM_cons]
    exact (h b x).bind ih

theorem Keeps.anyM {p : α → Scan σ Bool} (xs : List α) (h : ∀ a, Keeps I (p a) t) :
    Keeps I (xs.anyM p) t := by
  induction xs with
  | nil => exact keeps_pure false
  | cons x xs ih =>
    refine (h x).bind fun found => ?_
    cases found with
    | true => exact keeps_pure true
    | false => exact ih

theorem Keeps.filterM {p : α → Scan σ Bool} (xs : List α) (h : ∀ a, Keeps I (p a) t) :
    Keeps I (xs.filterM p) t := by
  induction xs with
  | nil => exact keeps_pure []
  | cons x xs ih =>
    rw [filterM_cons]
    exact (h x).bind fun _ => ih.bind fun _ => keeps_pure _

theorem Keeps.mapM {f : α → Scan σ β} (xs : List α) (h : ∀ a, Keeps I (f a) t) :
    Keeps I (xs.mapM f) t := by
  induction xs with
  | nil => exact keeps_pure []
  | cons x xs ih =>
    rw [List.mapM_cons]
    exact (h x).bind fun _ => ih.bind fun _ => keeps_pure _

end

/-! ## Ensuring a property of the result -/

/-- From a memo with the property `I`, a result has the property `Q`, and the memo is left with `I`.
-/
def Ensures (I : σ → Prop) (s : Scan σ α) (t : FileTree) (Q : α → Prop) : Prop :=
  ∀ j, I j.memo → I (s.on t j).2.memo ∧ ∀ a, (s.on t j).1 = .ok a → Q a

section
variable {I : σ → Prop} {t : FileTree} {P Q : α → Prop}

theorem Ensures.keeps {s : Scan σ α} (h : Ensures I s t Q) : Keeps I s t := fun j hj => (h j hj).1

theorem Keeps.ensures {s : Scan σ α} (h : Keeps I s t) : Ensures I s t fun _ => True :=
  fun j hj => ⟨h j hj, fun _ _ => trivial⟩

theorem ensures_pure {a : α} (h : Q a) : Ensures I (pure a) t Q :=
  fun _ hj => ⟨hj, fun _ ha => Except.ok.inj ha ▸ h⟩

theorem ensures_throw (e : Error) : Ensures I (throw e : Scan σ α) t Q := fun _ hj => ⟨hj, nofun⟩

theorem ensures_memo : Ensures I (memo : Scan σ σ) t I :=
  fun _ hj => ⟨hj, fun _ ha => Except.ok.inj ha ▸ hj⟩

theorem Ensures.bind {s : Scan σ α} {f : α → Scan σ β} {R : β → Prop} (hs : Ensures I s t Q)
    (hf : ∀ a, Q a → Ensures I (f a) t R) : Ensures I (s >>= f) t R := by
  intro j hj
  obtain ⟨hkept, hresult⟩ := hs j hj
  rw [on_bind]
  cases h : (s.on t j).1 with
  | ok a => exact hf a (hresult a h) _ hkept
  | error e => exact ⟨hkept, nofun⟩

theorem Ensures.foldlM {f : β → α → Scan σ β} {R : β → Prop} (xs : List α)
    (h : ∀ b a, R b → Ensures I (f b a) t R) {b : β} (hb : R b) :
    Ensures I (xs.foldlM f b) t R := by
  induction xs generalizing b with
  | nil => exact ensures_pure hb
  | cons x xs ih =>
    rw [List.foldlM_cons]
    exact (h b x hb).bind fun b' hb' => ih hb'

end

/-! ## Agreeing -/

/-- From memos that are alike the results are the same, whatever was reported before, and the memos
that are left are alike. -/
def Agrees (R : σ → σ → Prop) (s : Scan σ α) (t : FileTree) : Prop :=
  ∀ j j', R j.memo j'.memo →
    (s.on t j).1 = (s.on t j').1 ∧ R (s.on t j).2.memo (s.on t j').2.memo

section
variable {R : σ → σ → Prop} {t : FileTree}

theorem agrees_pure (a : α) : Agrees R (pure a) t := fun _ _ h => ⟨rfl, h⟩

theorem agrees_throw (e : Error) : Agrees R (throw e : Scan σ α) t := fun _ _ h => ⟨rfl, h⟩

theorem agrees_warn (w : Warning) : Agrees R (warn w) t := fun _ _ h => ⟨rfl, h⟩

theorem agrees_modifyMemo {f : σ → σ} (h : ∀ m m', R m m' → R (f m) (f m')) :
    Agrees R (modifyMemo f) t := fun _ _ hm => ⟨rfl, h _ _ hm⟩

theorem Agrees.bind {s : Scan σ α} {f : α → Scan σ β} (hs : Agrees R s t)
    (hf : ∀ a, Agrees R (f a) t) : Agrees R (s >>= f) t := by
  intro j j' h
  obtain ⟨hresult, hmemo⟩ := hs j j' h
  rw [on_bind, on_bind, ← hresult]
  cases (s.on t j).1 with
  | ok a => exact hf a _ _ hmemo
  | error e => exact ⟨rfl, hmemo⟩

/-- What is done with the memo has to be the same for memos that are alike. -/
theorem agrees_memo_bind {f : σ → Scan σ α} (hsame : ∀ m m', R m m' → f m = f m')
    (h : ∀ m, Agrees R (f m) t) : Agrees R (memo >>= f) t := by
  intro j j' hj
  rw [on_bind_of_ok (on_memo t j), on_bind_of_ok (on_memo t j'), ← hsame _ _ hj]
  exact h j.memo j j' hj

theorem Agrees.map {s : Scan σ α} (hs : Agrees R s t) (g : α → β) : Agrees R (g <$> s) t := by
  rw [← bind_pure_comp]
  exact hs.bind fun _ => agrees_pure _

theorem Agrees.attempt {s : Scan σ α} (hs : Agrees R s t) : Agrees R s.attempt t := by
  intro j j' h
  rw [on_attempt, on_attempt]
  exact ⟨congrArg Except.ok (hs j j' h).1, (hs j j' h).2⟩

/-- A result that is always the same is the same from any two memos. -/
theorem Yields.agrees {I : σ → Prop} {s : Scan σ α} {r : Except Error α} (h : Yields I s t r) :
    Agrees (fun m m' => I m ∧ I m') s t := by
  rintro j j' ⟨hj, hj'⟩
  exact ⟨(h j hj).1.trans (h j' hj').1.symm, (h j hj).2, (h j' hj').2⟩

theorem Agrees.zoom {R' : τ → τ → Prop} {part : σ → τ} {putBack : σ → τ → σ} {s : Scan τ α}
    (hs : Agrees R' s t) (hpart : ∀ m m', R m m' → R' (part m) (part m'))
    (hback : ∀ m m' n n', R m m' → R' n n' → R (putBack m n) (putBack m' n')) :
    Agrees R (s.zoom part putBack) t := by
  intro j j' h
  obtain ⟨hresult, hmemo⟩ := hs ⟨part j.memo, j.warnings⟩ ⟨part j'.memo, j'.warnings⟩ (hpart _ _ h)
  rw [on_zoom, on_zoom]
  exact ⟨hresult, hback _ _ _ _ h hmemo⟩

theorem Agrees.foldlM {f : β → α → Scan σ β} (xs : List α) (h : ∀ b a, Agrees R (f b a) t) (b : β) :
    Agrees R (xs.foldlM f b) t := by
  induction xs generalizing b with
  | nil => exact agrees_pure b
  | cons x xs ih =>
    rw [List.foldlM_cons]
    exact (h b x).bind ih

theorem Agrees.mapM {f : α → Scan σ β} (xs : List α) (h : ∀ a, Agrees R (f a) t) :
    Agrees R (xs.mapM f) t := by
  induction xs with
  | nil => exact agrees_pure []
  | cons x xs ih =>
    rw [List.mapM_cons]
    exact (h x).bind fun _ => ih.bind fun _ => agrees_pure _

theorem Agrees.filterM {p : α → Scan σ Bool} (xs : List α) (h : ∀ a, Agrees R (p a) t) :
    Agrees R (xs.filterM p) t := by
  induction xs with
  | nil => exact agrees_pure []
  | cons x xs ih =>
    rw [filterM_cons]
    exact (h x).bind fun _ => ih.bind fun _ => agrees_pure _

theorem Agrees.anyM {p : α → Scan σ Bool} (xs : List α) (h : ∀ a, Agrees R (p a) t) :
    Agrees R (xs.anyM p) t := by
  induction xs with
  | nil => exact agrees_pure false
  | cons x xs ih =>
    refine (h x).bind fun found => ?_
    cases found with
    | true => exact agrees_pure true
    | false => exact ih

end

/-! ## Reading -/

/-- Whatever the memo, the result is `r`, and what `view` shows of the memo stays. -/
def Reads (view : σ → τ) (s : Scan σ α) (t : FileTree) (r : Except Error α) : Prop :=
  ∀ shown, Yields (fun memo => view memo = shown) s t r

/-- The result from the memo at the start. -/
def found [Inhabited σ] (s : Scan σ α) (t : FileTree) : Except Error α := (s.run t default).1

section
variable {view : σ → τ} {t : FileTree}

theorem Reads.on_eq {s : Scan σ α} {r : Except Error α} (h : Reads view s t r) (j : Journal σ) :
    ∃ j', s.on t j = (r, j') ∧ view j'.memo = view j.memo :=
  (h (view j.memo)).on_eq rfl

theorem Reads.found_eq [Inhabited σ] {s : Scan σ α} {r : Except Error α} (h : Reads view s t r) :
    s.found t = r :=
  (h _ ⟨default, []⟩ rfl).1

/-- What a scan reads is what it finds from the start. -/
theorem Reads.reads_found [Inhabited σ] {s : Scan σ α} {r : Except Error α}
    (h : Reads view s t r) : Reads view s t (s.found t) := by
  rw [h.found_eq]
  exact h

theorem reads_pure (a : α) : Reads view (pure a) t (.ok a) := fun _ => yields_pure a

theorem reads_throw (e : Error) : Reads view (throw e : Scan σ α) t (.error e) :=
  fun _ => yields_throw e

theorem reads_warn (w : Warning) : Reads view (warn w) t (.ok ()) := fun _ _ hj => ⟨rfl, hj⟩

theorem reads_forM_warn (ws : List Warning) : Reads view (ws.forM warn) t (.ok ()) := by
  induction ws with
  | nil => exact fun _ => yields_pure ()
  | cons w ws ih => exact fun shown => ((reads_warn w) shown).bind_ok (ih shown)

theorem reads_isDirectory (path : String) :
    Reads view (isDirectory path) t (.ok (t.isDirectory path)) := fun _ _ hj => ⟨rfl, hj⟩

theorem reads_isFile (path : String) : Reads view (isFile path) t (.ok (t.isFile path)) :=
  fun _ _ hj => ⟨rfl, hj⟩

theorem Reads.bind {s : Scan σ α} {r : Except Error α} {f : α → Scan σ β}
    {g : α → Except Error β} (hs : Reads view s t r)
    (hf : ∀ a, r = .ok a → Reads view (f a) t (g a)) : Reads view (s >>= f) t (r >>= g) :=
  fun shown => (hs shown).bind fun a ha => hf a ha shown

theorem Reads.bind_ok {s : Scan σ α} {a : α} {f : α → Scan σ β} {r : Except Error β}
    (hs : Reads view s t (.ok a)) (hf : Reads view (f a) t r) : Reads view (s >>= f) t r :=
  fun shown => (hs shown).bind_ok (hf shown)

theorem Reads.bind_error {s : Scan σ α} {e : Error} (hs : Reads view s t (.error e))
    (f : α → Scan σ β) : Reads view (s >>= f) t (.error e) :=
  fun shown => (hs shown).bind_error f

theorem Reads.map {s : Scan σ α} {r : Except Error α} (hs : Reads view s t r) (g : α → β) :
    Reads view (g <$> s) t (r.map g) :=
  fun shown => (hs shown).map g

theorem Reads.tryCatch {s : Scan σ α} {r : Except Error α} {f : Error → Scan σ α}
    {g : Error → Except Error α} (hs : Reads view s t r) (hf : ∀ e, Reads view (f e) t (g e)) :
    Reads view (tryCatch s f) t (tryCatch r g) := by
  intro shown j hj
  obtain ⟨j', hj', hshown⟩ := (hs shown).on_eq hj
  cases r with
  | ok a => rw [on_tryCatch_of_ok hj']; exact ⟨rfl, hshown⟩
  | error e => rw [on_tryCatch_of_error hj']; exact hf e shown j' hshown

theorem Reads.foldlM {f : β → α → Scan σ β} {g : β → α → Except Error β} (xs : List α)
    (h : ∀ b, ∀ a ∈ xs, Reads view (f b a) t (g b a)) (b : β) :
    Reads view (xs.foldlM f b) t (xs.foldlM g b) :=
  fun shown => .foldlM xs (fun b a ha => h b a ha shown) b

theorem Reads.mapM {f : α → Scan σ β} {g : α → Except Error β} (xs : List α)
    (h : ∀ a ∈ xs, Reads view (f a) t (g a)) : Reads view (xs.mapM f) t (xs.mapM g) :=
  fun shown => .mapM xs fun a ha => h a ha shown

theorem Reads.filterM {p : α → Scan σ Bool} {q : α → Except Error Bool} (xs : List α)
    (h : ∀ a ∈ xs, Reads view (p a) t (q a)) : Reads view (xs.filterM p) t (xs.filterM q) :=
  fun shown => .filterM xs fun a ha => h a ha shown

/-! ### Scans that only read -/

/-- The result does not depend on the memo, and what `view` shows of it stays. -/
def IsReader (view : σ → τ) (s : Scan σ α) (t : FileTree) : Prop := ∃ r, Reads view s t r

theorem Reads.isReader {s : Scan σ α} {r : Except Error α} (h : Reads view s t r) :
    IsReader view s t := ⟨r, h⟩

theorem IsReader.reads_found [Inhabited σ] {s : Scan σ α} (h : IsReader view s t) :
    Reads view s t (s.found t) :=
  have ⟨_, hr⟩ := h
  hr.reads_found

theorem IsReader.keeps {s : Scan σ α} (h : IsReader view s t) (shown : τ) :
    Keeps (fun memo => view memo = shown) s t :=
  have ⟨_, hr⟩ := h
  (hr shown).keeps

/-- What leaves the memo as it is keeps all that is so of it. -/
theorem IsReader.keeps_all {I : σ → Prop} {s : Scan σ α} (h : IsReader id s t) : Keeps I s t := by
  intro j hj
  obtain ⟨_, hr⟩ := h
  obtain ⟨j', hon, hmemo⟩ := hr.on_eq j
  rw [hon, show j'.memo = j.memo from hmemo]
  exact hj

/-- Memos that show the same are left so. -/
theorem Reads.agrees {s : Scan σ α} {r : Except Error α} (h : Reads view s t r) :
    Agrees (fun m m' => view m = view m') s t := by
  intro j j' hj
  obtain ⟨i, hi, hview⟩ := h.on_eq j
  obtain ⟨i', hi', hview'⟩ := h.on_eq j'
  rw [hi, hi']
  exact ⟨rfl, hview.trans (hj.trans hview'.symm)⟩

theorem IsReader.agrees {R : σ → σ → Prop} {s : Scan σ α} (h : IsReader id s t) :
    Agrees R s t := by
  intro j j' hj
  obtain ⟨_, hr⟩ := h
  obtain ⟨i, hi, hmemo⟩ := hr.on_eq j
  obtain ⟨i', hi', hmemo'⟩ := hr.on_eq j'
  rw [hi, hi', show i.memo = j.memo from hmemo, show i'.memo = j'.memo from hmemo']
  exact ⟨rfl, hj⟩

theorem isReader_pure (a : α) : IsReader view (pure a) t := (reads_pure a).isReader

theorem isReader_throw (e : Error) : IsReader view (throw e : Scan σ α) t :=
  (reads_throw e).isReader

theorem isReader_warn (w : Warning) : IsReader view (warn w) t := (reads_warn w).isReader

theorem IsReader.bind {s : Scan σ α} {f : α → Scan σ β} (hs : IsReader view s t)
    (hf : ∀ a, IsReader view (f a) t) : IsReader view (s >>= f) t :=
  have ⟨_, hr⟩ := hs
  (hr.bind fun a _ => (hf a).choose_spec).isReader

theorem IsReader.foldlM {f : β → α → Scan σ β} (xs : List α) (h : ∀ b a, IsReader view (f b a) t)
    (b : β) : IsReader view (xs.foldlM f b) t :=
  (Reads.foldlM xs (fun b a _ => (h b a).choose_spec) b).isReader

theorem IsReader.mapM {f : α → Scan σ β} (xs : List α) (h : ∀ a, IsReader view (f a) t) :
    IsReader view (xs.mapM f) t :=
  (Reads.mapM xs fun a _ => (h a).choose_spec).isReader

theorem filterM_ok (q : α → Bool) (xs : List α) :
    xs.filterM (fun a => (.ok (q a) : Except Error Bool)) = .ok (xs.filter q) := by
  induction xs with
  | nil => rfl
  | cons x xs ih =>
    rw [filterM_cons, ih, List.filter_cons]
    rfl

theorem mapM_ok (g : α → β) (xs : List α) :
    xs.mapM (fun a => (.ok (g a) : Except Error β)) = .ok (xs.map g) :=
  List.mapM_pure

theorem foldlM_ok (g : β → α → β) (xs : List α) (b : β) :
    xs.foldlM (fun b a => (.ok (g b a) : Except Error β)) b = .ok (xs.foldl g b) := by
  induction xs generalizing b with
  | nil => rfl
  | cons x xs ih => exact ih (g b x)

/-- The names in a directory, none if there is no directory. -/
def listed (t : FileTree) (path : String) : Except Error (List String) :=
  match t.list path with
  | .ok names => .ok names
  | .error .missing => .ok []
  | .error problem => .error (.file path problem)

theorem reads_list (path : String) : Reads view (list path) t (listed t path) := by
  intro shown j hj
  unfold list listed
  rw [on_bind]
  simp only [on_read]
  cases t.list path with
  | ok names => exact ⟨rfl, hj⟩
  | error problem => cases problem <;> exact ⟨rfl, hj⟩

/-- The content of a file, if there is one. -/
def content (t : FileTree) (path : String) : Except Error (Option String) :=
  match t.readText path with
  | .ok content => .ok (some content)
  | .error .missing => .ok none
  | .error problem => .error (.file path problem)

theorem content_eq_some_iff {path text : String} :
    content t path = .ok (some text) ↔ t.readText path = .ok text := by
  unfold content
  cases t.readText path with
  | ok text' => simp
  | error problem => cases problem <;> simp

theorem reads_readText? (path : String) : Reads view (readText? path) t (content t path) := by
  intro shown j hj
  unfold readText? content
  rw [on_bind]
  simp only [on_read]
  cases t.readText path with
  | ok text => exact ⟨rfl, hj⟩
  | error problem => cases problem <;> exact ⟨rfl, hj⟩

theorem reads_readLineFile (path : String) : Reads view (Config.readLineFile path) t
    ((content t path).map (Option.map Config.entryLines)) := by
  unfold Config.readLineFile
  rw [bind_pure_comp]
  exact (reads_readText? path).map _

theorem isReader_readAssignmentFile (path : String) :
    IsReader view (Config.readAssignmentFile path) t := by
  refine (reads_readText? path).isReader.bind fun content => ?_
  cases content with
  | none => exact isReader_pure none
  | some content =>
    simp only
    split
    · exact isReader_pure _
    · exact isReader_throw _

end

/-! ## Reading once -/

/-- What is remembered is the result; if nothing is, the result is read, and it is remembered unless
reading it failed. -/
def ReadsOnce (part : σ → Option α) (put : σ → α → σ) (s : Scan σ α) (t : FileTree)
    (r : Except Error α) : Prop :=
  ∀ j, match part j.memo with
    | some a => s.on t j = (.ok a, j)
    | none => (s.on t j).1 = r ∧
        (s.on t j).2.memo = match r with
          | .ok a => put j.memo a
          | .error _ => j.memo

section
variable {part : σ → Option α} {put : σ → α → σ} {t : FileTree} {r : Except Error α}

/-- What is read, and then remembered. -/
theorem readsOnce {s : Scan σ α} {f : σ → Scan σ α} {read : Scan σ β} {after : β → Scan σ α}
    {g : β → α} (hs : s = memo >>= f) (hsome : ∀ m a, part m = some a → f m = pure a)
    (hnone : ∀ m, part m = none → f m = read >>= after) (hread : IsReader id read t)
    (hafter : ∀ b j, ((after b).on t j).1 = .ok (g b) ∧
      ((after b).on t j).2.memo = put j.memo (g b)) :
    ∃ r, ReadsOnce part put s t r := by
  obtain ⟨r, hr⟩ := hread
  refine ⟨r.map g, fun j => ?_⟩
  rw [hs, on_bind_of_ok (on_memo t j)]
  cases hpart : part j.memo with
  | some a => rw [hsome j.memo a hpart, on_pure]
  | none =>
    rw [hnone j.memo hpart]
    obtain ⟨i, hi, hmemo⟩ := hr.on_eq j
    have hmemo : i.memo = j.memo := hmemo
    cases r with
    | ok b =>
      rw [on_bind_of_ok hi, ← hmemo]
      exact hafter b i
    | error e =>
      rw [on_bind_of_error hi]
      exact ⟨rfl, hmemo⟩

/-- The result is always the same if what is remembered is what is read. -/
theorem ReadsOnce.yields {I : σ → Prop} {s : Scan σ α} (h : ReadsOnce part put s t r)
    (hpart : ∀ m a, I m → part m = some a → r = .ok a)
    (hput : ∀ m a, I m → r = .ok a → I (put m a)) : Yields I s t r := by
  intro j hj
  have hon := h j
  cases hmemo : part j.memo with
  | some a =>
    rw [hmemo] at hon
    dsimp only at hon
    rw [hon, hpart j.memo a hj hmemo]
    exact ⟨rfl, hj⟩
  | none =>
    rw [hmemo] at hon
    obtain ⟨hresult, hleft⟩ := hon
    rw [hresult, hleft]
    cases r with
    | ok a => exact ⟨rfl, hput j.memo a hj rfl⟩
    | error e => exact ⟨rfl, hj⟩

/-- What is read is what is found from the start. -/
theorem ReadsOnce.readsOnce_found [Inhabited σ] {s : Scan σ α} (h : ReadsOnce part put s t r)
    (hpart : part default = none) : ReadsOnce part put s t (s.found t) := by
  have hon := h ⟨default, []⟩
  rw [hpart] at hon
  rwa [show s.found t = r from hon.1]

end

end PackageCatalog.Scan
