import Bindery.Json.Double
import Bindery.Table

/-!
# JSON values

An object lists its fields in increasing order of their keys, each key once; `ofFields` builds
one from fields in any order, of which the last with a key counts, and `Sorted` says that a value
is built that way throughout.
-/

namespace Bindery

/-- A number: whole when it was written so and fits 64 bits, otherwise a double. -/
inductive Json.Number where
  | whole (n : Int)
  | double (d : Json.Double)
  deriving DecidableEq, Repr

inductive Json where
  | null
  | bool (b : Bool)
  | num (n : Json.Number)
  | str (s : String)
  | arr (items : List Json)
  | obj (fields : List (String × Json))
  deriving Repr, Inhabited

namespace Json

/-! ## Equality -/

mutual

def decEq : (a b : Json) → Decidable (a = b)
  | .null, .null => isTrue rfl
  | .bool a, .bool b => decidable_of_iff (a = b) (by simp)
  | .num a, .num b => decidable_of_iff (a = b) (by simp)
  | .str a, .str b => decidable_of_iff (a = b) (by simp)
  | .arr a, .arr b => let := decEqItems a b; decidable_of_iff (a = b) (by simp)
  | .obj a, .obj b => let := decEqFields a b; decidable_of_iff (a = b) (by simp)
  | .null, .bool _ | .null, .num _ | .null, .str _ | .null, .arr _ | .null, .obj _
  | .bool _, .null | .bool _, .num _ | .bool _, .str _ | .bool _, .arr _ | .bool _, .obj _
  | .num _, .null | .num _, .bool _ | .num _, .str _ | .num _, .arr _ | .num _, .obj _
  | .str _, .null | .str _, .bool _ | .str _, .num _ | .str _, .arr _ | .str _, .obj _
  | .arr _, .null | .arr _, .bool _ | .arr _, .num _ | .arr _, .str _ | .arr _, .obj _
  | .obj _, .null | .obj _, .bool _ | .obj _, .num _ | .obj _, .str _ | .obj _, .arr _ =>
    isFalse (by simp)

def decEqItems : (a b : List Json) → Decidable (a = b)
  | [], [] => isTrue rfl
  | [], _ :: _ | _ :: _, [] => isFalse (by simp)
  | a :: as, b :: bs =>
    let := decEq a b
    let := decEqItems as bs
    decidable_of_iff (a = b ∧ as = bs) (by simp)

def decEqFields : (a b : List (String × Json)) → Decidable (a = b)
  | [], [] => isTrue rfl
  | [], _ :: _ | _ :: _, [] => isFalse (by simp)
  | (k, a) :: as, (l, b) :: bs =>
    let := decEq a b
    let := decEqFields as bs
    decidable_of_iff ((k = l ∧ a = b) ∧ as = bs) (by simp)

end

instance : DecidableEq Json := decEq

/-! ## Objects -/

/-- The object with these fields; of fields with one key the last counts. -/
def ofFields (fields : List (String × Json)) : Json :=
  .obj (fields.foldl (fun acc f => Table.put f.1 f.2 acc) [])

mutual

/-- Every object in the value has its keys in increasing order, each once. -/
def Sorted : Json → Prop
  | .arr items => SortedItems items
  | .obj fields => Table.Increasing fields ∧ SortedFields fields
  | _ => True

def SortedItems : List Json → Prop
  | [] => True
  | v :: r => Sorted v ∧ SortedItems r

def SortedFields : List (String × Json) → Prop
  | [] => True
  | (_, v) :: r => Sorted v ∧ SortedFields r

end

/-! ## Looking inside -/

def field? (key : String) : Json → Option Json
  | .obj fields => (fields.find? (·.1 = key)).map (·.2)
  | _ => none

def str? : Json → Option String
  | .str s => some s
  | _ => none

def arr? : Json → Option (List Json)
  | .arr items => some items
  | _ => none

/-- A whole number that is not negative. -/
def nat? : Json → Option Nat
  | .num (.whole n) => if 0 ≤ n then some n.toNat else none
  | _ => none

def bool? : Json → Option Bool
  | .bool b => some b
  | _ => none

/-- The array of these texts. -/
def ofStrings (texts : List String) : Json := .arr (texts.map .str)

def ofNat (n : Nat) : Json := .num (.whole n)

end Json

end Bindery
