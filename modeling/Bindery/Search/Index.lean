import Bindery.Search.Record

/-!
# Indexes

An index is a snapshot of modules by their dotted names. The first record of a name counts, and
the order of the names is kept.
-/

namespace Bindery

structure Index where
  records : List Record
  deriving DecidableEq, Repr

namespace Index

def get? (i : Index) (name : String) : Option Record := i.records.find? (·.dotted = name)

def add (i : Index) (m : Record) : Index :=
  if (i.get? m.dotted).isSome then i else ⟨i.records ++ [m]⟩

def ofRecords (records : List Record) : Index := records.foldl add ⟨[]⟩

def size (i : Index) : Nat := i.records.length

/-- The modules that answer a query; an exact one looks up its dotted name. -/
def find (i : Index) (front back : Logical) (exact : Bool) : List Record :=
  if exact then (i.get? (Logical.dotted (front ++ back))).toList
  else i.records.filter fun m => m.logical.answers front back false

end Index

end Bindery
