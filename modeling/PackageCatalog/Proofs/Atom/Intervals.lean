import PackageCatalog.Proofs.Atom.Constraint
import PackageCatalog.Proofs.Version.Transitive

/-!
# Operators and intervals of versions

`Version.order` refines the order of releases, and that refines the order without revisions.  So a
version between two that an operator relates to `w` is related to `w` as well:

    order a b ≤ → order b d ≤ → op.Relates a w → op.Relates d w → op.Relates b w
                                                                       (Operator.Relates.between)

Of a sorted list of versions each operator accepts one contiguous part (`operators_cut_order`).
-/

namespace PackageCatalog

/-! ## Contiguous parts of a list -/

section
variable {α : Type} {le : α → α → Prop} {p : α → Bool} {x : α} {xs : List α}

/-- Behind a first member that satisfies `p`, the members that do come before all others. -/
theorem filter_isPrefix_of_between
    (hbetween : ∀ a b c, le a b → le b c → p a = true → p c = true → p b = true)
    (hsorted : (x :: xs).Pairwise le) (hx : p x = true) : xs.filter p <+: xs := by
  induction xs with
  | nil => exact List.prefix_rfl
  | cons y ys ih =>
    obtain ⟨hle, htail⟩ := List.pairwise_cons.1 hsorted
    obtain ⟨hy, hys⟩ := List.pairwise_cons.1 htail
    obtain ⟨hxy, hxys⟩ := List.forall_mem_cons.1 hle
    cases hp : p y with
    | true =>
      rw [List.filter_cons_of_pos hp]
      exact List.cons_prefix_cons.2 ⟨rfl, ih (List.pairwise_cons.2 ⟨hxys, hys⟩)⟩
    | false =>
      have hnone : ∀ z ∈ ys, ¬ p z = true := by
        intro z hz hpz
        rw [hbetween x y z hxy (hy z hz) hx hpz] at hp
        cases hp
      rw [List.filter_cons_of_neg (by simp [hp]), List.filter_eq_nil_iff.2 hnone]
      exact List.nil_prefix

theorem filter_isInfix_of_between
    (hbetween : ∀ a b c, le a b → le b c → p a = true → p c = true → p b = true)
    (hsorted : xs.Pairwise le) : xs.filter p <:+: xs := by
  induction xs with
  | nil => exact List.infix_rfl
  | cons x xs ih =>
    cases hp : p x with
    | true =>
      have hrest := filter_isPrefix_of_between hbetween hsorted hp
      rw [List.filter_cons_of_pos hp]
      exact (List.cons_prefix_cons.2 ⟨rfl, hrest⟩).isInfix
    | false =>
      rw [List.filter_cons_of_neg (by simp [hp])]
      exact (ih (List.pairwise_cons.1 hsorted).2).trans (List.suffix_cons x xs).isInfix

end

/-! ## Between two members -/

section
variable {α : Type} {cmp : α → α → Ordering} [Std.TransCmp cmp] {a b d w : α}

theorem ne_gt_of_isLE (hab : (cmp a b).isLE) (h : cmp b w ≠ .gt) : cmp a w ≠ .gt :=
  Ordering.ne_gt_iff_isLE.2 (Std.TransCmp.isLE_trans hab (Ordering.ne_gt_iff_isLE.1 h))

theorem ne_lt_of_isLE (hab : (cmp a b).isLE) (h : cmp a w ≠ .lt) : cmp b w ≠ .lt := by
  have hba : (cmp b a).isGE := Std.OrientedCmp.isGE_iff_isLE.2 hab
  exact Ordering.ne_lt_iff_isGE.2 (Std.TransCmp.isGE_trans hba (Ordering.ne_lt_iff_isGE.1 h))

/-- What ties with `w` on both sides has nothing else between. -/
theorem eq_of_isLE_of_isLE (hab : (cmp a b).isLE) (hbd : (cmp b d).isLE) (ha : cmp a w = .eq)
    (hd : cmp d w = .eq) : cmp b w = .eq := by
  have hle : cmp b w ≠ .gt := ne_gt_of_isLE hbd (by simp [hd])
  have hge : cmp b w ≠ .lt := ne_lt_of_isLE hab (by simp [ha])
  cases h : cmp b w with
  | lt => exact absurd h hge
  | eq => rfl
  | gt => exact absurd h hle

end

namespace Version

variable {a b : Version}

theorem precedence_isLE_of_order (h : (order a b).isLE) : (precedence a b).isLE :=
  Ordering.isLE_left_of_isLE_then h

theorem baseOrder_isLE_of_precedence (h : (precedence a b).isLE) : (baseOrder a b).isLE :=
  Ordering.isLE_left_of_isLE_then h

end Version

/-! ## Operators -/

namespace Operator

variable {op : Operator} {a b d w : Version}

theorem Relates.above (hop : op = .greater ∨ op = .greaterOrEqual)
    (hab : (Version.order a b).isLE) (h : op.Relates a w) : op.Relates b w := by
  have hab := Version.precedence_isLE_of_order hab
  rcases hop with rfl | rfl
  · have hwa : Version.precedence w a = .lt := Std.OrientedCmp.gt_iff_lt.1 h
    exact Std.OrientedCmp.gt_iff_lt.2 (Std.TransCmp.lt_of_lt_of_isLE hwa hab)
  · exact ne_lt_of_isLE hab h

theorem Relates.below (hop : op = .less ∨ op = .lessOrEqual) (hab : (Version.order a b).isLE)
    (h : op.Relates b w) : op.Relates a w := by
  have hab := Version.precedence_isLE_of_order hab
  rcases hop with rfl | rfl
  · exact Std.TransCmp.lt_of_isLE_of_lt hab h
  · exact ne_gt_of_isLE hab h

theorem Relates.between (hab : (Version.order a b).isLE) (hbd : (Version.order b d).isLE)
    (ha : op.Relates a w) (hd : op.Relates d w) : op.Relates b w := by
  have hab' := Version.precedence_isLE_of_order hab
  have hbd' := Version.precedence_isLE_of_order hbd
  cases op with
  | less => exact hd.below (.inl rfl) hbd
  | lessOrEqual => exact hd.below (.inr rfl) hbd
  | equal => exact eq_of_isLE_of_isLE hab' hbd' ha hd
  | approximate =>
    exact eq_of_isLE_of_isLE (Version.baseOrder_isLE_of_precedence hab')
      (Version.baseOrder_isLE_of_precedence hbd') ha hd
  | greaterOrEqual => exact ha.above (.inr rfl) hab
  | greater => exact ha.above (.inl rfl) hab

theorem existsUnique_relates (a w : Version) :
    ∃! op : Operator, op ∈ [less, equal, greater] ∧ op.Relates a w := by
  cases h : a.precedence w with
  | lt => exact ⟨less, by simp [Relates, h], by simp [Relates, h]⟩
  | eq => exact ⟨equal, by simp [Relates, h], by simp [Relates, h]⟩
  | gt => exact ⟨greater, by simp [Relates, h], by simp [Relates, h]⟩

theorem relates_lessOrEqual_iff :
    lessOrEqual.Relates a w ↔ less.Relates a w ∨ equal.Relates a w := by
  cases h : a.precedence w <;> simp [Relates, h]

theorem relates_greaterOrEqual_iff :
    greaterOrEqual.Relates a w ↔ greater.Relates a w ∨ equal.Relates a w := by
  cases h : a.precedence w <;> simp [Relates, h]

theorem Relates.approximate (h : equal.Relates a w) : approximate.Relates a w :=
  (Ordering.then_eq_eq.1 h).1

end Operator

namespace VersionConstraint

/-- The constraint with another operator. -/
def under (c : VersionConstraint) (op : Operator) : VersionConstraint :=
  { c with operator := some op }

/-- Without a star, `>` and `>=` accept whatever comes after a version they accept, `<` and `<=`
what comes before; of `<`, `=` and `>` one accepts any given version; `<=` and `>=` accept what one
of two accepts, and `~` accepts what `=` does.  Of a sorted list each operator accepts one
contiguous part. -/
theorem operators_cut_order {c : VersionConstraint} (hglob : c.glob = false) :
    (∀ a b : Version, (Version.order a b).isLE →
      ((c.under .greaterOrEqual).accepts a → (c.under .greaterOrEqual).accepts b) ∧
      ((c.under .greater).accepts a → (c.under .greater).accepts b) ∧
      ((c.under .lessOrEqual).accepts b → (c.under .lessOrEqual).accepts a) ∧
      ((c.under .less).accepts b → (c.under .less).accepts a)) ∧
    (∀ v, ∃! op, op ∈ [.less, .equal, .greater] ∧ (c.under op).accepts v) ∧
    (∀ v, (c.under .lessOrEqual).accepts v ↔
      (c.under .less).accepts v ∨ (c.under .equal).accepts v) ∧
    (∀ v, (c.under .greaterOrEqual).accepts v ↔
      (c.under .greater).accepts v ∨ (c.under .equal).accepts v) ∧
    (∀ v, (c.under .equal).accepts v → (c.under .approximate).accepts v) ∧
    ∀ (op : Operator) (vs : List Version), vs.Pairwise (fun a b => (Version.order a b).isLE) →
      vs.filter (c.under op).accepts <:+: vs := by
  have hrelates : ∀ op v, (c.under op).accepts v = true ↔ op.Relates v c.version :=
    comparesAs_version hglob
  simp only [hrelates]
  refine ⟨fun a b hab => ⟨?_, ?_, ?_, ?_⟩, fun v => Operator.existsUnique_relates v c.version,
    fun v => Operator.relates_lessOrEqual_iff, fun v => Operator.relates_greaterOrEqual_iff,
    fun v => Operator.Relates.approximate, fun op vs hsorted => ?_⟩
  · exact Operator.Relates.above (.inr rfl) hab
  · exact Operator.Relates.above (.inl rfl) hab
  · exact Operator.Relates.below (.inr rfl) hab
  · exact Operator.Relates.below (.inl rfl) hab
  · refine filter_isInfix_of_between (fun a b d hab hbd ha hd => ?_) hsorted
    rw [hrelates] at ha hd ⊢
    exact ha.between hab hbd hd

/-! ### The constraint `1` among `1_beta1`, `1_rc1`, `1`, `1-r0`, `1-r1` and `1.0` -/

def oneConstraint : VersionConstraint := ⟨none, 1, [], none, [], 0, false⟩

def candidateOfOne (kind : SuffixKind) : Version :=
  let one : Numeral := .ofNat 1
  ⟨one, [], none, [⟨kind, one.val, one.property.2⟩], none⟩

def revisionOfOne (revision : Option Numeral) : Version := ⟨.ofNat 1, [], none, [], revision⟩

def longerOne : Version := ⟨.ofNat 1, [.ofNat 0], none, [], none⟩

def versionsAroundOne : List Version :=
  [candidateOfOne .beta, candidateOfOne .rc, revisionOfOne none, revisionOfOne (some (.ofNat 0)),
    revisionOfOne (some (.ofNat 1)), longerOne]

theorem operators_cut_order_one :
    oneConstraint.glob = false ∧
    (oneConstraint.under .less).accepts (candidateOfOne .beta) ∧
    (oneConstraint.under .lessOrEqual).accepts (revisionOfOne none) ∧
    (oneConstraint.under .greaterOrEqual).accepts (revisionOfOne (some (.ofNat 0))) ∧
    (oneConstraint.under .greater).accepts longerOne ∧
    (oneConstraint.under .approximate).accepts (revisionOfOne (some (.ofNat 0))) ∧
    versionsAroundOne.Pairwise (fun a b => (Version.order a b).isLE) ∧
    versionsAroundOne.filter (oneConstraint.under .approximate).accepts <:+: versionsAroundOne := by
  have hsorted : versionsAroundOne.Pairwise (fun a b => (Version.order a b).isLE) := by decide
  obtain ⟨hmono, -, -, -, happroximate, hcontiguous⟩ :=
    operators_cut_order (c := oneConstraint) rfl
  obtain ⟨-, -, -, hless⟩ := hmono (candidateOfOne .beta) (candidateOfOne .rc) (by decide)
  obtain ⟨hgreaterOrEqual, -, hlessOrEqual, -⟩ :=
    hmono (revisionOfOne none) (revisionOfOne (some (.ofNat 0))) (by decide)
  obtain ⟨-, hgreater, -, -⟩ := hmono (revisionOfOne (some (.ofNat 1))) longerOne (by decide)
  exact ⟨rfl, hless (by decide), hlessOrEqual (by decide), hgreaterOrEqual (by decide),
    hgreater (by decide), happroximate _ (by decide), hsorted, hcontiguous _ _ hsorted⟩

end VersionConstraint

end PackageCatalog
