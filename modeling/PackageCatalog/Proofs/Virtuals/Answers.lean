import PackageCatalog.Proofs.Virtuals.Order

/-!
# An index of providers answers like a search through its source

    SearchesAll ranked (answerAfter ranked earlier)                 (searchesAll_answerAfter)

for every list that the source returns and everything that was asked before.  An index is built at
the first question about the category `virtual` and kept until it is invalidated
(`Remembers.next`), so the answers depend on the source alone.
-/

namespace PackageCatalog

/-! ## Questions -/

/-- What can be asked of an index of providers. -/
inductive ProviderQuestion : Type → Type
  | named (n : QualifiedName) : ProviderQuestion (List VirtualEntry)
  | ofVersion (n : QualifiedName) (v : Version) : ProviderQuestion (List VirtualEntry)
  | best (n : QualifiedName) (v : Version) : ProviderQuestion (Option VirtualEntry)
  | hasCategory (c : Category) : ProviderQuestion Bool
  | packages (c : Category) : ProviderQuestion (List QualifiedName)
  | hasPackage (n : QualifiedName) : ProviderQuestion Bool
  | versions (n : QualifiedName) : ProviderQuestion (List Version)
  | hasVersion (n : QualifiedName) (v : Version) : ProviderQuestion Bool
  | size : ProviderQuestion Nat

def VirtualsMemo.reply {m : Type → Type} [Monad m] {α : Type} (memo : VirtualsMemo m) :
    ProviderQuestion α → m α
  | .named n => memo.ask n.category [] (·.named n)
  | .ofVersion n v => memo.ask n.category [] (·.ofVersion n v)
  | .best n v => memo.ask n.category none (·.best n v)
  | .hasCategory c => memo.ask c false (·.hasCategory c)
  | .packages c => memo.ask c [] (·.packages c)
  | .hasPackage n => memo.ask n.category false (·.hasPackage n)
  | .versions n => memo.ask n.category [] (·.versions n)
  | .hasVersion n v => memo.ask n.category false (·.hasVersion n v)
  | .size => return (← memo.index).size

/-- Computations that may remember an index. -/
abbrev ProviderM := ExceptT Error (StateM (Option ProviderIndex))

/-- An index over a source that returns `ranked`. -/
def rankedMemo (ranked : List RankedEntry) : VirtualsMemo ProviderM :=
  ⟨get, fun x => set (some x), return ranked⟩

/-- What may happen to an index of providers. -/
inductive ProviderEvent where
  | asked {α : Type} (q : ProviderQuestion α)
  | invalidated

def ProviderEvent.next (ranked : List RankedEntry) (memo : Option ProviderIndex) :
    ProviderEvent → Option ProviderIndex
  | .asked q => (((rankedMemo ranked).reply q).run.run memo).2
  | .invalidated => none

/-- The answer to a question after all that happened before. -/
def answerAfter {α : Type} (ranked : List RankedEntry) (earlier : List ProviderEvent)
    (q : ProviderQuestion α) : Except Error α :=
  (((rankedMemo ranked).reply q).run.run (earlier.foldl (ProviderEvent.next ranked) none)).1

/-! ## Answers -/

/-- The entries of virtuals that satisfy `p`; nothing else counts as a virtual. -/
def offered (ranked : List RankedEntry) (p : VirtualEntry → Bool) : List RankedEntry :=
  ranked.filter fun r => isVirtual r.entry.virtualName.category && p r.entry

/-- The members of `xs`, each once, in ascending order. -/
def SetOf {α : Type} [Ord α] (xs set : List α) : Prop :=
  Ascending.Sorted set ∧ ∀ a, a ∈ set ↔ a ∈ xs

/-- The entries of a virtual by ascending version, those of one version the best first. -/
structure NamedAnswer (ranked : List RankedEntry) (n : QualifiedName) (found : List RankedEntry) :
    Prop where
  perm : found.Perm (offered ranked fun e => e.virtualName = n)
  ascending : Virtuals.SortedBy (fun r : RankedEntry => r.entry.version) found
  bestFirst : ∀ v, BestFirst (offered ranked fun e => e.virtualName = n ∧ e.version = v)
    (found.filter fun r => r.entry.version = v)

/-- Every answer is what a search through all entries of the source gives. -/
structure SearchesAll (ranked : List RankedEntry)
    (answer : {α : Type} → ProviderQuestion α → Except Error α) : Prop where
  named : ∀ n, ∃ found, NamedAnswer ranked n found ∧
    answer (.named n) = .ok (found.map RankedEntry.entry)
  ofVersion : ∀ n v, ∃ found,
    (∀ xs, BestFirst (offered ranked fun e => e.virtualName = n ∧ e.version = v) xs ↔
      xs = found) ∧
      answer (.ofVersion n v) = .ok (found.map RankedEntry.entry) ∧
      answer (.best n v) = .ok (found.map RankedEntry.entry).head?
  hasCategory : ∀ c, answer (.hasCategory c) =
    .ok !(offered ranked fun e => e.virtualName.category = c).isEmpty
  packages : ∀ c, ∃ names, answer (.packages c) = .ok names ∧
    SetOf ((offered ranked fun e => e.virtualName.category = c).map (·.entry.virtualName)) names
  hasPackage : ∀ n, answer (.hasPackage n) =
    .ok !(offered ranked fun e => e.virtualName = n).isEmpty
  versions : ∀ n, ∃ versions, answer (.versions n) = .ok versions ∧
    SetOf ((offered ranked fun e => e.virtualName = n).map (·.entry.version)) versions
  hasVersion : ∀ n v, answer (.hasVersion n v) =
    .ok !(offered ranked fun e => e.virtualName = n ∧ e.version = v).isEmpty
  size : answer .size = .ok ranked.length

section Offered

variable {ranked : List RankedEntry}

theorem offered_eq {p : VirtualEntry → Bool} {c : Category}
    (h : ∀ e, p e = true → e.virtualName.category = c) :
    offered ranked p = if isVirtual c then ranked.filter (fun r => p r.entry) else [] := by
  split
  case isTrue hc =>
    refine List.filter_congr fun r _ => ?_
    cases hp : p r.entry with
    | false => exact Bool.and_false _
    | true => rw [h _ hp, hc, Bool.true_and]
  case isFalse hc =>
    refine List.filter_eq_nil_iff.2 fun r _ hr => ?_
    obtain ⟨hvirtual, hp⟩ := Bool.and_eq_true_iff.1 hr
    rw [h _ hp] at hvirtual
    exact hc hvirtual

theorem offered_category (c : Category) : (offered ranked fun e => e.virtualName.category = c) =
    if isVirtual c then ranked.filter (fun r => r.entry.virtualName.category = c) else [] :=
  offered_eq fun _ he => of_decide_eq_true he

theorem offered_named (n : QualifiedName) : (offered ranked fun e => e.virtualName = n) =
    if isVirtual n.category then ranked.filter (fun r => r.entry.virtualName = n) else [] :=
  offered_eq fun _ he => by rw [of_decide_eq_true he]

theorem offered_version (n : QualifiedName) (v : Version) :
    (offered ranked fun e => e.virtualName = n ∧ e.version = v) =
      if isVirtual n.category then
        ranked.filter (fun r => r.entry.virtualName = n ∧ r.entry.version = v)
      else [] :=
  offered_eq fun _ he => by rw [(of_decide_eq_true he).1]

/-- Sorting changes neither the members nor whether there are any. -/
theorem isEmpty_sortedEntries (q : RankedEntry → Bool) :
    ((sortedEntries ranked).filter q).isEmpty = (ranked.filter q).isEmpty :=
  ((perm_sortedEntries ranked).filter q).isEmpty_eq

theorem setOf_sortedEntries {α : Type} [Ord α] [Std.TransOrd α] [Std.LawfulEqOrd α]
    (q : RankedEntry → Bool) (f : RankedEntry → α) :
    SetOf ((ranked.filter q).map f)
      (Ascending.ofList (((sortedEntries ranked).filter q).map f)) := by
  refine ⟨Ascending.sorted_ofList _, fun a => ?_⟩
  rw [Ascending.mem_ofList]
  exact (((perm_sortedEntries ranked).filter q).map f).mem_iff

end Offered

/-! ## Runs -/

/-- Nothing is remembered, or the index of the source. -/
def Remembers (ranked : List RankedEntry) (memo : Option ProviderIndex) : Prop :=
  memo = none ∨ memo = some (.ofRanked ranked)

section Runs

variable {ranked : List RankedEntry} {memo : Option ProviderIndex} {α : Type}

theorem ask_run (h : Remembers ranked memo) (c : Category) (nothing : α)
    (query : ProviderIndex → α) :
    ((rankedMemo ranked).ask c nothing query).run.run memo =
      if isVirtual c then (.ok (query (.ofRanked ranked)), some (.ofRanked ranked))
      else (.ok nothing, memo) := by
  unfold VirtualsMemo.ask
  cases isVirtual c with
  | false => rfl
  | true => rcases h with rfl | rfl <;> rfl

theorem Remembers.ask (h : Remembers ranked memo) (c : Category) (nothing : α)
    (query : ProviderIndex → α) :
    Remembers ranked (((rankedMemo ranked).ask c nothing query).run.run memo).2 := by
  rw [ask_run h]
  cases isVirtual c with
  | false => exact h
  | true => exact .inr rfl

/-- One step keeps what is remembered in accord with the source. -/
theorem Remembers.next (h : Remembers ranked memo) (e : ProviderEvent) :
    Remembers ranked (e.next ranked memo) := by
  cases e with
  | invalidated => exact .inl rfl
  | asked q =>
    cases q with
    | size => rcases h with rfl | rfl <;> exact .inr rfl
    | _ => exact h.ask ..

theorem Remembers.run (h : Remembers ranked memo) (earlier : List ProviderEvent) :
    Remembers ranked (earlier.foldl (ProviderEvent.next ranked) memo) := by
  induction earlier generalizing memo with
  | nil => exact h
  | cons e earlier ih => exact ih (h.next e)

end Runs

theorem remembers_after (ranked : List RankedEntry) (earlier : List ProviderEvent) :
    Remembers ranked (earlier.foldl (ProviderEvent.next ranked) none) :=
  Remembers.run (.inl rfl) earlier

/-- A question about a category is answered by the index of the source, whatever came before. -/
theorem answerAfter_ask {α : Type} {ranked : List RankedEntry} {q : ProviderQuestion α}
    {c : Category} {nothing : α} {query : ProviderIndex → α}
    (hq : (rankedMemo ranked).reply q = (rankedMemo ranked).ask c nothing query)
    (earlier : List ProviderEvent) : answerAfter ranked earlier q =
      .ok (if isVirtual c then query (.ofRanked ranked) else nothing) := by
  rw [answerAfter, hq, ask_run (remembers_after ranked earlier)]
  cases isVirtual c <;> rfl

theorem answerAfter_size (ranked : List RankedEntry) (earlier : List ProviderEvent) :
    answerAfter ranked earlier .size = .ok (ProviderIndex.ofRanked ranked).size := by
  rcases remembers_after ranked earlier with h | h <;> rw [answerAfter, h] <;> rfl

/-! ## The index against its source -/

theorem bestFirst_nil : BestFirst [] [] := ⟨.nil, .nil, fun _ => rfl⟩

section Answers

variable (ranked : List RankedEntry)

theorem named_found (n : QualifiedName) : ∃ found, NamedAnswer ranked n found ∧
    (if isVirtual n.category then (ProviderIndex.ofRanked ranked).named n else []) =
      found.map RankedEntry.entry := by
  cases hn : isVirtual n.category with
  | false =>
    refine ⟨[], ⟨?_, .nil, fun v => ?_⟩, rfl⟩
    · rw [offered_named, hn]
      exact .nil
    · rw [offered_version, hn]
      exact bestFirst_nil
  | true =>
    refine ⟨(sortedEntries ranked).filter fun r => r.entry.virtualName = n,
      ⟨?_, ProviderIndex.sortedBy_version ranked n, fun v => ?_⟩,
      ProviderIndex.named_ofRanked ranked n⟩
    · rw [offered_named, hn]
      exact (perm_sortedEntries ranked).filter _
    · have hsorted := bestFirst_sortedEntries ranked n v
      rw [offered_version, hn, if_pos rfl, List.filter_filter]
      simp only [Bool.decide_and] at hsorted ⊢
      simpa only [Bool.and_comm] using hsorted

theorem ofVersion_found (n : QualifiedName) (v : Version) : ∃ found,
    BestFirst (offered ranked fun e => e.virtualName = n ∧ e.version = v) found ∧
      (if isVirtual n.category then (ProviderIndex.ofRanked ranked).ofVersion n v else []) =
        found.map RankedEntry.entry := by
  rw [offered_version]
  cases isVirtual n.category with
  | false => exact ⟨[], bestFirst_nil, rfl⟩
  | true =>
    exact ⟨_, bestFirst_sortedEntries ranked n v, ProviderIndex.ofVersion_ofRanked ranked n v⟩

/-- Whatever was asked before, and however often the index was built anew. -/
theorem searchesAll_answerAfter (earlier : List ProviderEvent) :
    SearchesAll ranked (answerAfter ranked earlier) where
  named n := by
    obtain ⟨found, hfound, heq⟩ := named_found ranked n
    refine ⟨found, hfound, ?_⟩
    rw [answerAfter_ask rfl, heq]
  ofVersion n v := by
    obtain ⟨found, hfound, heq⟩ := ofVersion_found ranked n v
    refine ⟨found, hfound.iff_eq, ?_, ?_⟩
    · rw [answerAfter_ask rfl, heq]
    · rw [answerAfter_ask rfl, ← heq]
      cases isVirtual n.category <;> rfl
  hasCategory c := by
    rw [answerAfter_ask rfl, offered_category]
    cases isVirtual c with
    | false => rfl
    | true =>
      simp only [if_true, ProviderIndex.hasCategory, ProviderIndex.inCategory_ofRanked,
        List.isEmpty_map, isEmpty_sortedEntries]
  packages c := by
    refine ⟨_, answerAfter_ask rfl earlier, ?_⟩
    rw [offered_category]
    cases isVirtual c with
    | false => exact ⟨.nil, fun _ => Iff.rfl⟩
    | true =>
      simp only [if_true, ProviderIndex.packages, ProviderIndex.inCategory_ofRanked, List.map_map]
      exact setOf_sortedEntries _ _
  hasPackage n := by
    rw [answerAfter_ask rfl, offered_named]
    cases isVirtual n.category with
    | false => rfl
    | true =>
      simp only [if_true, ProviderIndex.hasPackage, ProviderIndex.named_ofRanked,
        List.isEmpty_map, isEmpty_sortedEntries]
  versions n := by
    refine ⟨_, answerAfter_ask rfl earlier, ?_⟩
    rw [offered_named]
    cases isVirtual n.category with
    | false => exact ⟨.nil, fun _ => Iff.rfl⟩
    | true =>
      simp only [if_true, ProviderIndex.versions, ProviderIndex.named_ofRanked, List.map_map]
      exact setOf_sortedEntries _ _
  hasVersion n v := by
    rw [answerAfter_ask rfl, offered_version]
    cases isVirtual n.category with
    | false => rfl
    | true =>
      simp only [if_true, ProviderIndex.hasVersion_eq, ProviderIndex.ofVersion_ofRanked,
        List.isEmpty_map, isEmpty_sortedEntries]
  size := by
    rw [answerAfter_size, ProviderIndex.size_ofRanked]

end Answers

end PackageCatalog
