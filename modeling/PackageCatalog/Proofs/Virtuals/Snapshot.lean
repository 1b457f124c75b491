import Mathlib.Data.List.Induction
import PackageCatalog.Proofs.Virtuals.Answers

/-!
# Between two invalidations an index answers from one snapshot of its source

The source may change, fail and work again between any two questions.  Whatever has happened, the
calls of the source since the last invalidation are

    failures.map .error ++ built.toList.map .ok                      (snapshot_sinceInvalidated)

so it has succeeded at most once and was not called after that.  If it has succeeded, every answer
comes from the list that it returned then; if not, the next question that needs the index calls the
source again.  A question about another category than `virtual` needs no index.
-/

namespace PackageCatalog

/-! ## Questions that need the index -/

namespace ProviderQuestion

variable {α : Type}

/-- The number of entries is asked of no category, every other question of one. -/
def needsIndex : ProviderQuestion α → Bool
  | .named n | .ofVersion n _ | .best n _ | .hasPackage n | .versions n | .hasVersion n _ =>
    isVirtual n.category
  | .hasCategory c | .packages c => isVirtual c
  | .size => true

/-- What the index `x` answers. -/
def answerOf (x : ProviderIndex) : ProviderQuestion α → α
  | .named n => x.named n
  | .ofVersion n v => x.ofVersion n v
  | .best n v => x.best n v
  | .hasCategory c => x.hasCategory c
  | .packages c => x.packages c
  | .hasPackage n => x.hasPackage n
  | .versions n => x.versions n
  | .hasVersion n v => x.hasVersion n v
  | .size => x.size

/-- The answer where nothing is provided. -/
def nothing : ProviderQuestion α → α
  | .named _ | .ofVersion _ _ | .packages _ | .versions _ => []
  | .best _ _ => none
  | .hasCategory _ | .hasPackage _ | .hasVersion _ _ => false
  | .size => 0

end ProviderQuestion

theorem VirtualsMemo.reply_eq {m : Type → Type} [Monad m] [LawfulMonad m] {α : Type}
    (memo : VirtualsMemo m) (q : ProviderQuestion α) :
    memo.reply q = if q.needsIndex then q.answerOf <$> memo.index else pure q.nothing := by
  have hask : ∀ (c : Category) (a : α) (query : ProviderIndex → α), memo.ask c a query =
      if isVirtual c then query <$> memo.index else pure a := by
    intro c a query
    rw [VirtualsMemo.ask, map_eq_pure_bind]
  cases q with
  | size => exact (map_eq_pure_bind ..).symm
  | _ => exact hask ..

/-! ## An index whose source changes -/

/-- An index with its source, which may change between questions. -/
structure ProviderCell where
  remembered : Option ProviderIndex
  /-- What the source answers if it is called now. -/
  source : Except Error (List RankedEntry)
  /-- What the source has answered, call by call. -/
  calls : List (Except Error (List RankedEntry))

abbrev CellM := ExceptT Error (StateM ProviderCell)

def cellMemo : VirtualsMemo CellM where
  remembered := return (← get).remembered
  keep x := modify fun cell => { cell with remembered := some x }
  source := do
    let cell ← get
    set { cell with calls := cell.calls ++ [cell.source] }
    MonadExcept.ofExcept cell.source

inductive CellEvent where
  | asked {α : Type} (q : ProviderQuestion α)
  | invalidated
  /-- The source gets other entries, begins to fail or works again. -/
  | sourceChanged (now : Except Error (List RankedEntry))

namespace ProviderCell

/-- The answer, and the cell after it. -/
def ask {α : Type} (cell : ProviderCell) (q : ProviderQuestion α) :
    Except Error α × ProviderCell :=
  (cellMemo.reply q).run.run cell

def next (cell : ProviderCell) : CellEvent → ProviderCell
  | .asked q => (cell.ask q).2
  | .invalidated => { cell with remembered := none }
  | .sourceChanged now => { cell with source := now }

/-- A new index over `source`, after all that happened to it. -/
def after (source : Except Error (List RankedEntry)) (history : List CellEvent) : ProviderCell :=
  history.foldl next ⟨none, source, []⟩

end ProviderCell

namespace ProviderCell

/-! ## One question -/

section Asking

variable {cell : ProviderCell} {α : Type} {q : ProviderQuestion α}

/-- A remembered index answers alone. -/
theorem ask_of_remembered {x : ProviderIndex} (hx : cell.remembered = some x)
    (hq : q.needsIndex = true) : cell.ask q = (.ok (q.answerOf x), cell) := by
  obtain ⟨remembered, source, calls⟩ := cell
  subst hx
  rw [ask, VirtualsMemo.reply_eq, if_pos hq]
  rfl

theorem ask_of_builds {ranked : List RankedEntry} (hnone : cell.remembered = none)
    (hsource : cell.source = .ok ranked) (hq : q.needsIndex = true) :
    cell.ask q = (.ok (q.answerOf (.ofRanked ranked)),
      { cell with
        remembered := some (.ofRanked ranked)
        calls := cell.calls ++ [.ok ranked] }) := by
  obtain ⟨remembered, source, calls⟩ := cell
  subst hnone hsource
  rw [ask, VirtualsMemo.reply_eq, if_pos hq]
  rfl

theorem ask_of_fails {e : Error} (hnone : cell.remembered = none)
    (hsource : cell.source = .error e) (hq : q.needsIndex = true) :
    cell.ask q = (.error e, { cell with calls := cell.calls ++ [.error e] }) := by
  obtain ⟨remembered, source, calls⟩ := cell
  subst hnone hsource
  rw [ask, VirtualsMemo.reply_eq, if_pos hq]
  rfl

theorem ask_of_other (hq : q.needsIndex = false) : cell.ask q = (.ok q.nothing, cell) := by
  have hn : ¬ q.needsIndex = true := by simp [hq]
  rw [ask, VirtualsMemo.reply_eq, if_neg hn]
  rfl

end Asking

/-! ## Since the last invalidation -/

/-- The calls of the source since `start`: they failed with `failures`, up to one that returned
what is `built` now. -/
structure Since (start now : ProviderCell) (failures : List Error)
    (built : Option (List RankedEntry)) : Prop where
  calls : now.calls = start.calls ++ failures.map .error ++ built.toList.map .ok
  remembered : now.remembered = built.map .ofRanked

/-- What can be asked now, and what it does to the index. -/
structure Snapshot (start now : ProviderCell) (failures : List Error)
    (built : Option (List RankedEntry)) : Prop extends Since start now failures built where
  /-- Once the source has succeeded, its list answers and it is not called again. -/
  answers : ∀ ranked, built = some ranked → ∀ {α : Type} (q : ProviderQuestion α),
    q.needsIndex = true → now.ask q = (.ok (q.answerOf (.ofRanked ranked)), now)
  /-- Until then each question calls it, and its first list is remembered. -/
  builds : built = none → ∀ ranked, now.source = .ok ranked →
    ∀ {α : Type} (q : ProviderQuestion α), q.needsIndex = true →
      now.ask q = (.ok (q.answerOf (.ofRanked ranked)),
        { now with
          remembered := some (.ofRanked ranked)
          calls := now.calls ++ [.ok ranked] })
  fails : built = none → ∀ e, now.source = .error e →
    ∀ {α : Type} (q : ProviderQuestion α), q.needsIndex = true →
      now.ask q = (.error e, { now with calls := now.calls ++ [.error e] })
  /-- Other categories are empty without a look at the index. -/
  others : ∀ {α : Type} (q : ProviderQuestion α), q.needsIndex = false →
    now.ask q = (.ok q.nothing, now)

section Windows

variable {start now : ProviderCell} {failures : List Error} {built : Option (List RankedEntry)}

theorem Since.refl (h : start.remembered = none) : Since start start [] none :=
  ⟨by simp, h⟩

theorem Since.snapshot (h : Since start now failures built) :
    Snapshot start now failures built where
  toSince := h
  answers ranked hbuilt α q hq := by
    have hx : now.remembered = some (.ofRanked ranked) := by rw [h.remembered, hbuilt]; rfl
    exact ask_of_remembered hx hq
  builds hbuilt ranked hsource α q hq := by
    have hnone : now.remembered = none := by rw [h.remembered, hbuilt]; rfl
    exact ask_of_builds hnone hsource hq
  fails hbuilt e hsource α q hq := by
    have hnone : now.remembered = none := by rw [h.remembered, hbuilt]; rfl
    exact ask_of_fails hnone hsource hq
  others q hq := ask_of_other hq

/-- A question adds at most one call, and none once a list is built. -/
theorem Since.asked {α : Type} (h : Since start now failures built) (q : ProviderQuestion α) :
    ∃ failures' built', Since start (now.ask q).2 failures' built' := by
  have hnow := h.snapshot
  cases hq : q.needsIndex with
  | false =>
    rw [hnow.others q hq]
    exact ⟨failures, built, h⟩
  | true =>
    cases built with
    | some ranked =>
      rw [hnow.answers ranked rfl q hq]
      exact ⟨failures, some ranked, h⟩
    | none =>
      have hcalls : now.calls = start.calls ++ failures.map .error := by simpa using h.calls
      cases hsource : now.source with
      | ok ranked =>
        rw [hnow.builds rfl ranked hsource q hq]
        refine ⟨failures, some ranked, ?_, rfl⟩
        simp [hcalls]
      | error e =>
        rw [hnow.fails rfl e hsource q hq]
        refine ⟨failures ++ [e], none, ?_, h.remembered⟩
        simp [hcalls]

theorem Since.next (h : Since start now failures built) {e : CellEvent}
    (he : e ≠ .invalidated) : ∃ failures' built', Since start (now.next e) failures' built' := by
  cases e with
  | asked q => exact h.asked q
  | invalidated => exact absurd rfl he
  | sourceChanged source => exact ⟨failures, built, h.calls, h.remembered⟩

theorem Since.run (h : Since start now failures built) (window : List CellEvent)
    (hwindow : .invalidated ∉ window) :
    ∃ failures' built', Since start (window.foldl ProviderCell.next now) failures' built' := by
  induction window generalizing now failures built with
  | nil => exact ⟨failures, built, h⟩
  | cons e window ih =>
    obtain ⟨he, hrest⟩ := not_or.1 (mt List.mem_cons.2 hwindow)
    obtain ⟨failures', built', h'⟩ := h.next (Ne.symm he)
    exact ih h' hrest

end Windows

/-! ## Every history -/

/-- Nothing is remembered at the start and after an invalidation. -/
theorem remembered_after (source : Except Error (List RankedEntry)) {earlier : List CellEvent}
    (h : earlier = [] ∨ ∃ before, earlier = before ++ [.invalidated]) :
    (after source earlier).remembered = none := by
  rcases h with rfl | ⟨before, rfl⟩
  · rfl
  · rw [after, List.foldl_append]
    rfl

/-- Every history is cut at its last invalidation. -/
theorem exists_window (history : List CellEvent) : ∃ earlier window,
    history = earlier ++ window ∧
      (earlier = [] ∨ ∃ before, earlier = before ++ [.invalidated]) ∧
      .invalidated ∉ window := by
  induction history using List.reverseRecOn with
  | nil => exact ⟨[], [], rfl, .inl rfl, List.not_mem_nil⟩
  | append_singleton history e ih =>
    by_cases he : e = .invalidated
    · subst he
      exact ⟨history ++ [.invalidated], [], by simp, .inr ⟨history, rfl⟩, List.not_mem_nil⟩
    · obtain ⟨earlier, window, rfl, hearlier, hwindow⟩ := ih
      refine ⟨earlier, window ++ [e], by simp, hearlier, ?_⟩
      intro hmem
      rcases List.mem_append.1 hmem with hmem | hmem
      · exact hwindow hmem
      · exact he (List.mem_singleton.1 hmem).symm

/-- Whatever was asked, and however the source has changed and failed. -/
theorem snapshot_sinceInvalidated (source : Except Error (List RankedEntry))
    (history : List CellEvent) : ∃ earlier window, history = earlier ++ window ∧
      (earlier = [] ∨ ∃ before, earlier = before ++ [.invalidated]) ∧
      .invalidated ∉ window ∧
      ∃ failures built, Snapshot (after source earlier) (after source history) failures built := by
  obtain ⟨earlier, window, rfl, hearlier, hwindow⟩ := exists_window history
  have hstart := Since.refl (remembered_after source hearlier)
  obtain ⟨failures, built, h⟩ := hstart.run window hwindow
  refine ⟨earlier, window, rfl, hearlier, hwindow, failures, built, ?_⟩
  rw [show after source (earlier ++ window) = window.foldl next (after source earlier) from
    List.foldl_append ..]
  exact h.snapshot

end ProviderCell

end PackageCatalog
