/-
JSON values.

Members of an object keep the order in which their names were first given, integers are exact and
numbers with a fraction or an exponent are floating-point numbers.

* `Json.Value.same_iff` — equality of values is decided by going through both.
-/
import RegexAutomata.Number.Binary64

namespace RegexAutomata.Json

inductive Value where
  | null
  | bool (b : Bool)
  | integer (n : Int)
  | real (x : Binary64)
  | string (t : Text)
  | array (items : List Value)
  | object (members : List (Text × Value))

namespace Value

instance : Inhabited Value := ⟨.null⟩

mutual

/-- Whether two values are the same. -/
def same : Value → Value → Bool
  | null, null => true
  | bool b, bool c => b = c
  | integer n, integer m => n = m
  | real x, real y => x = y
  | string t, string u => t = u
  | array items, array others => sameItems items others
  | object members, object others => sameMembers members others
  | _, _ => false

def sameItems : List Value → List Value → Bool
  | [], [] => true
  | u :: us, v :: vs => same u v && sameItems us vs
  | _, _ => false

def sameMembers : List (Text × Value) → List (Text × Value) → Bool
  | [], [] => true
  | (name, u) :: us, (name', v) :: vs => name = name' && same u v && sameMembers us vs
  | _, _ => false

end

mutual

theorem same_iff : (u v : Value) → (same u v = true ↔ u = v)
  | null, v => by cases v <;> simp [same]
  | bool b, v => by cases v <;> simp [same]
  | integer n, v => by cases v <;> simp [same]
  | real x, v => by cases v <;> simp [same]
  | string t, v => by cases v <;> simp [same]
  | array items, v => by cases v <;> simp [same, sameItems_iff items]
  | object members, v => by cases v <;> simp [same, sameMembers_iff members]

theorem sameItems_iff : (us vs : List Value) → (sameItems us vs = true ↔ us = vs)
  | [], vs => by cases vs <;> simp [sameItems]
  | u :: us, vs => by cases vs <;> simp [sameItems, same_iff u, sameItems_iff us]

theorem sameMembers_iff : (us vs : List (Text × Value)) → (sameMembers us vs = true ↔ us = vs)
  | [], vs => by cases vs <;> simp [sameMembers]
  | (name, u) :: us, vs => by
    cases vs <;> simp [sameMembers, same_iff u, sameMembers_iff us, Prod.ext_iff]

end

instance : DecidableEq Value := fun u v => decidable_of_iff (same u v = true) (same_iff u v)

def member? (name : Text) : Value → Option Value
  | object members => members.lookup name
  | _ => none

end Value

end RegexAutomata.Json
