import OperationTree.Transport.Standard

/-! Catalogs name the transports that trees may use.  Loading a name builds its transport the first
time and gives the same instance afterwards. -/

namespace OperationTree

structure Catalog where
  transports : List (String × Transport) := []

namespace Catalog

def find? (c : Catalog) (name : String) : Option Transport := c.transports.lookup name

def contains (c : Catalog) (name : String) : Bool := (c.find? name).isSome

/-- Registers a transport under a name, in place of an earlier one. -/
def register (c : Catalog) (name : String) (transport : Transport) : Catalog where
  transports := c.transports.filter (fun entry => entry.1 != name) ++ [(name, transport)]

/-- The names in order of their characters. -/
def names (c : Catalog) : List String := (c.transports.map Prod.fst).mergeSort fun a b => a ≤ b

/-- The transports for HTTP, files, aggregates and databases. -/
def standardWith (options : Http.Options) : Catalog where
  transports :=
    [Transport.http options, Transport.file, Transport.aggregator, Transport.sql].map
      fun transport => (transport.name, transport)

def standard : Catalog := standardWith {}

end Catalog

/-- A transport that has been built, under the name that was asked for. -/
structure Instance where
  key : String
  /-- How many instances had been built before. -/
  serial : Nat
  transport : Transport

/-- What has been built: the instances by their names, and the order of the names apart from
them. -/
structure Loaded where
  entries : List (String × Instance) := []
  /-- The names in the order of their first load. -/
  keys : List String := []
  /-- The names for which a transport was built, in order. -/
  built : List String := []

namespace Loaded

def find? (l : Loaded) (key : String) : Option Instance := l.entries.lookup key

/-- The instances in the order of their first load. -/
def instances (l : Loaded) : List Instance := l.keys.filterMap l.find?

def size (l : Loaded) : Nat := l.entries.length

def build (l : Loaded) (key : String) (transport : Transport) : Instance × Loaded :=
  let made : Instance := { key, serial := l.built.length, transport }
  (made, {
    entries := (key, made) :: l.entries
    keys := l.keys ++ [key]
    built := l.built ++ [key] })

/-- The instance for a name, built if need be; names outside the catalog have none. -/
def load (catalog : Catalog) (l : Loaded) (key : String) : Option Instance × Loaded :=
  match l.find? key with
  | some found => (some found, l)
  | none =>
    match catalog.find? key with
    | none => (none, l)
    | some transport =>
      let (made, l) := l.build key transport
      (some made, l)

/-- What is loaded after all of some names. -/
def ofNames (catalog : Catalog) (names : List String) : Loaded :=
  names.foldl (fun l name => (load catalog l name).2) {}

end Loaded
end OperationTree
