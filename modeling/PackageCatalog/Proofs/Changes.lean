import PackageCatalog.Change
import PackageCatalog.Proofs.Files.Writing
import PackageCatalog.Proofs.Scans

/-!
# What changes do

`Change.on` is what a change makes of a workspace: its result, and the workspace after it.  There is
one law for each way to build a change.  `FileStep.Performed` says that a list of steps leads from
one file tree to another without a failure.
-/

namespace PackageCatalog

namespace Change

variable {σ α β : Type}

/-! ## Laws -/

def on (ch : Change σ α) (w : Workspace σ) : Except Error α × Workspace σ := ch.run.run w

@[simp] theorem on_pure (a : α) (w : Workspace σ) : (pure a : Change σ α).on w = (.ok a, w) := rfl

@[simp] theorem on_get (w : Workspace σ) : (get : Change σ (Workspace σ)).on w = (.ok w, w) := rfl

theorem on_bind_of_ok {ch : Change σ α} {w w' : Workspace σ} {a : α} (h : ch.on w = (.ok a, w'))
    (f : α → Change σ β) : (ch >>= f).on w = (f a).on w' := by
  show (ch >>= f).run.run w = _
  rw [ExceptT.run_bind, StateT.run_bind, show ch.run.run w = (.ok a, w') from h]
  rfl

theorem on_bind_of_error {ch : Change σ α} {w w' : Workspace σ} {e : Error}
    (h : ch.on w = (.error e, w')) (f : α → Change σ β) : (ch >>= f).on w = (.error e, w') := by
  show (ch >>= f).run.run w = _
  rw [ExceptT.run_bind, StateT.run_bind, show ch.run.run w = (.error e, w') from h]
  rfl

/-- The first change is made, and then the second unless the first failed. -/
theorem on_bind (ch : Change σ α) (f : α → Change σ β) (w : Workspace σ) :
    (ch >>= f).on w = match (ch.on w).1 with
      | .ok a => (f a).on (ch.on w).2
      | .error e => (.error e, (ch.on w).2) := by
  cases h : (ch.on w).1 with
  | ok a => exact on_bind_of_ok (Prod.ext h rfl) f
  | error e => exact on_bind_of_error (Prod.ext h rfl) f

/-- The parts of a change that ends well end well. -/
theorem on_bind_eq_ok {ch : Change σ α} {f : α → Change σ β} {w w' : Workspace σ} {b : β}
    (h : (ch >>= f).on w = (.ok b, w')) :
    ∃ a w₁, ch.on w = (.ok a, w₁) ∧ (f a).on w₁ = (.ok b, w') := by
  rw [on_bind] at h
  cases hch : (ch.on w).1 with
  | ok a =>
    rw [hch] at h
    exact ⟨a, _, Prod.ext hch rfl, h⟩
  | error e =>
    rw [hch] at h
    cases h

theorem on_zoom {τ : Type} (part : σ → τ) (putBack : σ → τ → σ) (ch : Change τ α)
    (w : Workspace σ) : (zoom part putBack ch).on w =
      ((ch.on ⟨w.files, part w.memo, w.warnings⟩).1,
        ⟨(ch.on ⟨w.files, part w.memo, w.warnings⟩).2.files,
          putBack w.memo (ch.on ⟨w.files, part w.memo, w.warnings⟩).2.memo,
          (ch.on ⟨w.files, part w.memo, w.warnings⟩).2.warnings⟩) := rfl

@[simp] theorem on_lift (r : Except Error α) (w : Workspace σ) :
    (liftM r : Change σ α).on w = (r, w) := by
  cases r <;> rfl

theorem on_scan (s : Scan σ α) (w : Workspace σ) : (scan s).on w =
    ((s.on w.files ⟨w.memo, w.warnings⟩).1,
      { w with
        memo := (s.on w.files ⟨w.memo, w.warnings⟩).2.memo
        warnings := (s.on w.files ⟨w.memo, w.warnings⟩).2.warnings }) := rfl

/-- A scan that ends well as a change. -/
theorem scan_of_ok {s : Scan σ α} {w w' : Workspace σ} {a : α} (h : (scan s).on w = (.ok a, w')) :
    w'.files = w.files ∧
      s.on w.files ⟨w.memo, w.warnings⟩ = (.ok a, ⟨w'.memo, w'.warnings⟩) := by
  rw [on_scan] at h
  obtain ⟨ha, rfl⟩ := Prod.mk.inj h
  exact ⟨rfl, Prod.ext ha rfl⟩

/-! ## Steps -/

theorem on_perform (step : FileStep) (w : Workspace σ) :
    (perform step).on w = ((step.perform.on w.files).1.mapError (.file step.path),
      { w with files := (step.perform.on w.files).2 }) := by
  have h : (tryFiles step.perform).on w = (.ok (step.perform.on w.files).1,
      { w with files := (step.perform.on w.files).2 }) := rfl
  unfold perform
  rw [on_bind_of_ok h]
  cases (step.perform.on w.files).1 <;> rfl

theorem perform_eq_ok {step : FileStep} {w w' : Workspace σ}
    (h : (perform step).on w = (.ok (), w')) :
    step.perform.on w.files = (.ok (), w'.files) ∧ w'.memo = w.memo := by
  rw [on_perform] at h
  obtain ⟨hok, rfl⟩ := Prod.mk.inj h
  refine ⟨Prod.ext ?_ rfl, rfl⟩
  cases hstep : (step.perform.on w.files).1 with
  | ok _ => rfl
  | error problem =>
    rw [hstep] at hok
    cases hok

theorem perform_of_ok {step : FileStep} {w : Workspace σ} {u : FileTree}
    (h : step.perform.on w.files = (.ok (), u)) :
    (perform step).on w = (.ok (), { w with files := u }) := by
  rw [on_perform, h]
  rfl

theorem on_performLoosely (step : FileStep) (w : Workspace σ) :
    (performLoosely step).on w = (.ok (), {
      files := (step.perform.on w.files).2
      memo := w.memo
      warnings := match (step.perform.on w.files).1 with
        | .ok () => w.warnings
        | .error problem => w.warnings ++ [.cannotWrite step.path problem] }) := by
  have h : (tryFiles step.perform).on w = (.ok (step.perform.on w.files).1,
      { w with files := (step.perform.on w.files).2 }) := rfl
  unfold performLoosely
  rw [on_bind_of_ok h]
  cases (step.perform.on w.files).1 <;> rfl

/-! ## Keeping a property -/

/-- Whatever the result is, a memo with the property `I` is left with it. -/
def Keeps (I : σ → Prop) (ch : Change σ α) : Prop := ∀ w, I w.memo → I (ch.on w).2.memo

section
variable {I : σ → Prop}

theorem keeps_pure (a : α) : Keeps I (pure a : Change σ α) := fun _ h => h

theorem Keeps.bind {ch : Change σ α} {f : α → Change σ β} (hch : Keeps I ch)
    (hf : ∀ a, Keeps I (f a)) : Keeps I (ch >>= f) := by
  intro w hw
  rw [on_bind]
  cases h : (ch.on w).1 with
  | ok a => exact hf a _ (hch w hw)
  | error e => exact hch w hw

theorem keeps_scan {s : Scan σ α} (h : ∀ t, Scan.Keeps I s t) : Keeps I (scan s) :=
  fun w hw => h w.files ⟨w.memo, w.warnings⟩ hw

/-- A change of a part that the property does not speak of. -/
theorem keeps_zoom {τ : Type} {part : σ → τ} {putBack : σ → τ → σ} (ch : Change τ α)
    (h : ∀ memo new, I memo → I (putBack memo new)) : Keeps I (zoom part putBack ch) :=
  fun _ hw => h _ _ hw

theorem keeps_perform (step : FileStep) : Keeps I (perform step : Change σ Unit) := by
  intro w hw
  rw [on_perform]
  exact hw

end

end Change

namespace FileStep

/-- The steps lead from one file tree to another, and none of them fails. -/
def Performed : List FileStep → FileTree → FileTree → Prop
  | [], t, u => u = t
  | step :: steps, t, u => ∃ v, step.perform.on t = (.ok (), v) ∧ Performed steps v u

theorem performed_append_iff {first second : List FileStep} {t u : FileTree} :
    Performed (first ++ second) t u ↔ ∃ v, Performed first t v ∧ Performed second v u := by
  induction first generalizing t with
  | nil => simp [Performed]
  | cons step steps ih =>
    constructor
    · rintro ⟨v, hv, h⟩
      obtain ⟨x, hx, hu⟩ := ih.1 h
      exact ⟨x, ⟨v, hv, hx⟩, hu⟩
    · rintro ⟨x, ⟨v, hv, hx⟩, hu⟩
      exact ⟨v, hv, ih.2 ⟨x, hx, hu⟩⟩

end FileStep

end PackageCatalog
