/-!
# Tables

Finite maps kept as a list of pairs in the order in which the keys came first.

    (t.insert k a).get? k' = if k' = k then some a else t.get? k'        (get?_insert)
-/

namespace PackageCatalog

structure Table (κ α : Type) where
  entries : List (κ × α) := []

namespace Table

variable {κ α : Type} [DecidableEq κ]

/-! ## Algorithm -/

def empty : Table κ α := ⟨[]⟩

instance : EmptyCollection (Table κ α) := ⟨empty⟩

instance : Inhabited (Table κ α) := ⟨empty⟩

def find? (k : κ) : List (κ × α) → Option α
  | [] => none
  | (k', a) :: r => if k' = k then some a else find? k r

def get? (t : Table κ α) (k : κ) : Option α := find? k t.entries

def contains (t : Table κ α) (k : κ) : Bool := (t.get? k).isSome

/-- The entry of a key stays at its place when it is replaced. -/
def put (k : κ) (a : α) : List (κ × α) → List (κ × α)
  | [] => [(k, a)]
  | (k', b) :: r => if k' = k then (k, a) :: r else (k', b) :: put k a r

def insert (t : Table κ α) (k : κ) (a : α) : Table κ α := ⟨put k a t.entries⟩

/-- The last pair of a key decides. -/
def ofList (pairs : List (κ × α)) : Table κ α :=
  pairs.foldl (fun t p => t.insert p.1 p.2) empty

def keys (t : Table κ α) : List κ := t.entries.map Prod.fst

def size (t : Table κ α) : Nat := t.entries.length

/-- Changes the entry of `k`, which is `start` before the first change. -/
def update (t : Table κ α) (k : κ) (start : α) (f : α → α) : Table κ α :=
  t.insert k (f ((t.get? k).getD start))

/-! ## Lemmas -/

@[simp] theorem get?_empty (k : κ) : (empty : Table κ α).get? k = none := rfl

theorem find?_put (k k' : κ) (a : α) (ps : List (κ × α)) :
    find? k' (put k a ps) = if k' = k then some a else find? k' ps := by
  induction ps with
  | nil => simp [put, find?, eq_comm]
  | cons p r ih => grind [put, find?]

@[simp] theorem get?_insert (t : Table κ α) (k k' : κ) (a : α) :
    (t.insert k a).get? k' = if k' = k then some a else t.get? k' :=
  find?_put k k' a t.entries

end Table

end PackageCatalog
