import PackageCatalog.Error
import PackageCatalog.Table

/-!
# EAPI levels and their configurations

The EAPI of a package says which rules its metadata follows.  Ten levels are known by themselves
(`Eapi`); a configured table of them (`EapiTable`) replaces that knowledge and always defines EAPI
0, which a package without an EAPI has.
-/

namespace PackageCatalog

/-! ## The known levels -/

abbrev Eapi := Fin 10

namespace Eapi

def name (e : Eapi) : String := String.ofList [Nat.digitChar e.val]

def parse (s : String) : Except Error Eapi :=
  match (List.finRange 10).find? (fun e => name e == s) with
  | some e => .ok e
  | none => .error (.invalidEapi s)

/-- Before EAPI 4 an absent `RDEPEND` takes the value of `DEPEND`. -/
def rdependDefaults (e : Eapi) : Bool := e < 4

/-- Sub-slots and slot operators came with EAPI 5. -/
def slotOperators (e : Eapi) : Bool := 5 ≤ e

end Eapi

/-! ## Configured levels -/

structure EapiDefinition where
  name : String
  values : Table String String

namespace EapiDefinition

/-- The value of a key; `true`, `yes` and `1` mean yes, and all else, like an absent key, no. -/
def flag (d : EapiDefinition) (key : String) : Bool :=
  match d.values.get? key with
  | some v => v ∈ ["true", "yes", "1"]
  | none => false

def rdependDefaults (d : EapiDefinition) : Bool := d.flag "rdepend_defaults_to_depend"

end EapiDefinition

/-- The configured EAPI levels, by name. -/
structure EapiTable where
  definitions : Table String EapiDefinition
  zero_defined : definitions.contains "0" = true

namespace EapiTable

/-- Of several definitions of one name the last counts. -/
def ofDefinitions (ds : List EapiDefinition) : Except ConfigurationProblem EapiTable :=
  let table := Table.ofList (ds.map fun d => (d.name, d))
  if h : table.contains "0" = true then .ok ⟨table, h⟩ else .error .noEapiZero

/-- The definition of an EAPI; the empty text names EAPI 0. -/
def get? (t : EapiTable) (eapi : String) : Option EapiDefinition :=
  t.definitions.get? (if eapi.isEmpty then "0" else eapi)

def size (t : EapiTable) : Nat := t.definitions.size

def isEmpty (t : EapiTable) : Bool := t.size == 0

end EapiTable

/-- Whether an absent `RDEPEND` takes the value of `DEPEND` under the EAPI of this name: the
configured levels decide if there are any, else the known ones. -/
def rdependDefaultsFor (table : Option EapiTable) (eapi : String) : Except Error Bool :=
  match table with
  | some t =>
    match t.get? eapi with
    | some d => .ok d.rdependDefaults
    | none => .error (.invalidEapi eapi)
  | none => (Eapi.parse eapi).map Eapi.rdependDefaults

end PackageCatalog
