import Bindery.Search.Record

/-!
# Scanning directories

A scan registers a directory and all directories below it, each before those in it. It stops at
the first directory that cannot be listed and at the first child that is neither file nor
directory; what it has registered by then stays registered.
-/

namespace Bindery

/-- The entries that a scan has registered, and what stopped it. -/
structure Scan where
  entries : List Entry
  stopped : Option Error

namespace Scan

/-- Scans the directories among the children of an entry. -/
def children (st : Storage) (scan : Entry → Scan) (e : Entry) : List String → Scan
  | [] => ⟨[], none⟩
  | name :: r =>
    match st.isDirectory e.volume (e.child name).physical with
    | .error err => ⟨[], some err⟩
    | .ok false => children st scan e r
    | .ok true =>
      match scan (e.child name) with
      | ⟨entries, some err⟩ => ⟨entries, some err⟩
      | ⟨entries, none⟩ =>
        let rest := children st scan e r
        ⟨entries ++ rest.entries, rest.stopped⟩

/-- Scans a directory through at most so many levels. -/
def levels (st : Storage) : Nat → Entry → Scan
  | 0, _ => ⟨[], some (.storage .endless)⟩
  | depth + 1, e =>
    let e := e.normal
    match st.list e.volume e.physical with
    | .error err => ⟨[], some err⟩
    | .ok names =>
      let below := children st (levels st depth) e names
      ⟨e :: below.entries, below.stopped⟩

end Scan

/-- Scans the directory of an entry. -/
def Entry.scan (st : Storage) (e : Entry) : Scan := Scan.levels st (st.depth e.volume) e

end Bindery
