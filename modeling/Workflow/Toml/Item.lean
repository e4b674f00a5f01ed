/-!
# Items of a TOML document

A document is a table of items.  A table may be written in pieces: under
headers, by dotted keys, and as the parent of other tables.  How it came about
decides what may still be added to it, so every table that is not closed
remembers its origin.
-/

namespace Workflow.Toml

/-- How a table came about: it has a header of its own, it is a parent in
somebody else's header, or dotted keys lead into it. -/
inductive Origin where
  | header
  | parent
  | dotted
  deriving DecidableEq, Repr

/-- An item. Of floats, truth values and dates nothing is kept; inline tables
are closed. -/
inductive Item where
  | string (text : String)
  | integer (value : Int)
  | float
  | boolean
  | datetime
  | array (items : List Item)
  | inline (entries : List (String × Item))
  | table (origin : Origin) (entries : List (String × Item))
  | tables (items : List (List (String × Item)))
  deriving Repr

abbrev Entries := List (String × Item)

structure Table where
  origin : Origin
  entries : Entries

namespace Entries

/-- Sets the item of a key: in place when the key is there, at the end
otherwise. -/
def set (entries : Entries) (key : String) (item : Item) : Entries :=
  match entries with
  | [] => [(key, item)]
  | (other, old) :: rest =>
      if other = key then (key, item) :: rest
      else (other, old) :: set rest key item

end Entries

namespace Table

def empty (origin : Origin) : Table :=
  ⟨origin, []⟩

/-- Changes the table that a path leads to. Tables that are missing on the way
are made; an array of tables is entered at its last table. Dotted keys do not
lead into a table with a header. -/
def modifyAt? (dotted : Bool) (change : Table → Option Table) :
    List String → Table → Option Table
  | [], table => change table
  | key :: path, table =>
      match table.entries.lookup key with
      | none => do
          let made ← modifyAt? dotted change path
            (empty (if dotted then .dotted else .parent))
          return { table with
            entries :=
              table.entries.set key (.table made.origin made.entries) }
      | some (.table origin entries) =>
          if dotted && origin == .header then none
          else do
            let inner ← modifyAt? dotted change path ⟨origin, entries⟩
            return { table with
              entries :=
                table.entries.set key (.table inner.origin inner.entries) }
      | some (.tables items) =>
          match items.reverse with
          | [] => none
          | last :: earlier => do
              let inner ← modifyAt? dotted change path ⟨.header, last⟩
              return { table with
                entries :=
                  table.entries.set key
                    (.tables (inner.entries :: earlier).reverse) }
      | some _ => none

/-- Adds an entry, whose key must be new. Only dotted keys add to a table made
by dotted keys, and they add to no other. -/
def add? (dotted : Bool) (key : String) (item : Item) (table : Table) :
    Option Table :=
  if dotted != (table.origin == .dotted) || (table.entries.lookup key).isSome
    then none
  else some { table with entries := table.entries.set key item }

/-- Adds an entry under a dotted key, given as the path to its last part and
that part. -/
def addAt? (path : List String) (key : String) (item : Item) (table : Table) :
    Option Table :=
  table.modifyAt? true (add? (!path.isEmpty) key item) path

/-- Meets the header of a table, which may only be known as a parent so far. -/
def declare? (key : String) (table : Table) : Option Table :=
  match table.entries.lookup key with
  | none =>
      some { table with entries := table.entries.set key (.table .header []) }
  | some (.table .parent entries) =>
      some { table with
        entries := table.entries.set key (.table .header entries) }
  | some _ => none

/-- Meets the header of one more table of an array of tables. -/
def extend? (key : String) (table : Table) : Option Table :=
  match table.entries.lookup key with
  | none => some { table with entries := table.entries.set key (.tables [[]]) }
  | some (.tables items) =>
      some { table with
        entries := table.entries.set key (.tables (items ++ [[]])) }
  | some _ => none

end Table

end Workflow.Toml
