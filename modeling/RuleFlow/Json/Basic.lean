import RuleFlow.Double.Basic

/-! # JSON values

Numbers keep the distinction between integers and doubles that their spelling makes. The members of
an object are a list: records are written in the order of their fields, and free-form objects hold
each key once, in the order of the keys (`Json.insert`). -/

namespace RuleFlow

namespace Json

/-- A number spelled as an integer, or any other number. -/
inductive Number where
  | integer (value : Int)
  | real (value : Double)
deriving DecidableEq, Repr

/-- The double nearest to a number. -/
def Number.toDouble : Number → Double
  | .integer i => .ofInt i
  | .real x => x

end Json

inductive Json where
  | null
  | bool (value : Bool)
  | number (value : Json.Number)
  | string (value : String)
  | array (items : List Json)
  | object (members : List (String × Json))
deriving Repr, Inhabited

namespace Json

/-- A double; what is not finite has no number in JSON and becomes null. -/
def ofDouble (x : Double) : Json := if x.isFinite then .number (.real x) else .null

def ofInt (i : Int) : Json := .number (.integer i)

def ofNat (n : Nat) : Json := ofInt n

/-- A value that may be missing, written as null. -/
def ofOption (write : α → Json) : Option α → Json
  | none => .null
  | some a => write a

def string? : Json → Option String
  | .string s => some s
  | _ => none

def array? : Json → Option (List Json)
  | .array xs => some xs
  | _ => none

def isNull : Json → Bool
  | .null => true
  | _ => false

/-- The value of a key. -/
def member? (members : List (String × Json)) (key : String) : Option Json := members.lookup key

/-- The values of a record's fields, from an object that has them or an array of just them. -/
def fields? (names : List String) : Json → Option (List Json)
  | .object members => names.mapM (member? members)
  | .array items => if items.length = names.length then some items else none
  | _ => none

/-- Puts a member at its place in the order of keys; a later value of a key replaces the earlier. -/
def insert (key : String) (value : Json) : List (String × Json) → List (String × Json)
  | [] => [(key, value)]
  | (k, v) :: rest =>
    if key < k then (key, value) :: (k, v) :: rest
    else if key = k then (key, value) :: rest
    else (k, v) :: insert key value rest

/-! ## Equality -/

mutual

/-- Decides whether two values are the same, doubles compared by their bits. -/
def decEq : (a b : Json) → Decidable (a = b)
  | .null, .null => .isTrue rfl
  | .bool a, .bool b => decidable_of_iff (a = b) (by simp)
  | .number a, .number b => decidable_of_iff (a = b) (by simp)
  | .string a, .string b => decidable_of_iff (a = b) (by simp)
  | .array xs, .array ys =>
    have := decEqItems xs ys
    decidable_of_iff (xs = ys) (by simp)
  | .object ms, .object ns =>
    have := decEqMembers ms ns
    decidable_of_iff (ms = ns) (by simp)
  | .null, .bool _ | .null, .number _ | .null, .string _ | .null, .array _ | .null, .object _
  | .bool _, .null | .bool _, .number _ | .bool _, .string _ | .bool _, .array _
  | .bool _, .object _ | .number _, .null | .number _, .bool _ | .number _, .string _
  | .number _, .array _ | .number _, .object _ | .string _, .null | .string _, .bool _
  | .string _, .number _ | .string _, .array _ | .string _, .object _ | .array _, .null
  | .array _, .bool _ | .array _, .number _ | .array _, .string _ | .array _, .object _
  | .object _, .null | .object _, .bool _ | .object _, .number _ | .object _, .string _
  | .object _, .array _ => .isFalse nofun

/-- Decides whether two lists of items are the same. -/
def decEqItems : (xs ys : List Json) → Decidable (xs = ys)
  | [], [] => .isTrue rfl
  | x :: xs, y :: ys =>
    have := decEq x y
    have := decEqItems xs ys
    decidable_of_iff (x = y ∧ xs = ys) (by simp)
  | [], _ :: _ => .isFalse nofun
  | _ :: _, [] => .isFalse nofun

/-- Decides whether two lists of members are the same. -/
def decEqMembers : (ms ns : List (String × Json)) → Decidable (ms = ns)
  | [], [] => .isTrue rfl
  | (k, x) :: ms, (l, y) :: ns =>
    have := decEq x y
    have := decEqMembers ms ns
    decidable_of_iff ((k = l ∧ x = y) ∧ ms = ns) (by simp)
  | [], _ :: _ => .isFalse nofun
  | _ :: _, [] => .isFalse nofun

end

instance : DecidableEq Json := decEq

end Json

end RuleFlow
