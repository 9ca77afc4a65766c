import NumericActions.Number
import NumericActions.Text.Quoted

/-!
# Values

A value is what a host passes to an action and what it gets back. Numbers, lists and
tuples are the terms an action computes with; all other values are foreign to it.

* `Value.size`: a measure in which the items of a sequence are smaller than the sequence.
* `Value.number?`, `Value.items?`: the two ways of being a term.
* `Value.literal`: the written form of a value, as messages show it.
-/

namespace NumericActions

inductive Value where
  | number (value : Number)
  | bool (value : Bool)
  | null
  | text (value : String)
  | bytes (value : List UInt8)
  | list (items : List Value)
  | tuple (items : List Value)
  | dict (entries : List (String × Value))

namespace Value

def int (n : Int) : Value := .number (.int n)

def float (x : Binary64) : Value := .number (.float x)

/-! ## Terms -/

/-- The number that a leaf holds. A truth value is not a number. -/
def number? : Value → Option Number
  | .number n => some n
  | _ => none

def items? : Value → Option (List Value)
  | .list items => some items
  | .tuple items => some items
  | _ => none

mutual

/-- A count of the value and everything in its sequences. -/
def size : Value → Nat
  | .list items => 2 + sizes items
  | .tuple items => 2 + sizes items
  | _ => 1

def sizes : List Value → Nat
  | [] => 0
  | v :: vs => v.size + sizes vs

end

theorem size_pos (v : Value) : 0 < v.size := by
  cases v <;> unfold size <;> omega

theorem sizes_lt_of_items {v : Value} {items : List Value} (h : v.items? = some items) :
    sizes items + 1 < v.size := by
  cases v <;> simp [items?] at h <;> subst h <;> simp [size] <;> omega

/-! ## Written form -/

def typeName : Value → String
  | .number (.int _) => "int"
  | .number (.float _) => "float"
  | .bool _ => "bool"
  | .null => "NoneType"
  | .text _ => "str"
  | .bytes _ => "bytes"
  | .list _ => "list"
  | .tuple _ => "tuple"
  | .dict _ => "dict"

mutual

/-- The written form of a value. A tuple of one item keeps a comma. -/
def literal : Value → String
  | .number n => n.text
  | .bool b => if b then "True" else "False"
  | .null => "None"
  | .text s => Text.quoted s
  | .bytes b => Text.quotedBytes b
  | .list items => "[" ++ ", ".intercalate (literals items) ++ "]"
  | .tuple [item] => "(" ++ item.literal ++ ",)"
  | .tuple items => "(" ++ ", ".intercalate (literals items) ++ ")"
  | .dict entries => "\x7b" ++ ", ".intercalate (entryLiterals entries) ++ "\x7d"

def literals : List Value → List String
  | [] => []
  | v :: vs => v.literal :: literals vs

def entryLiterals : List (String × Value) → List String
  | [] => []
  | (key, v) :: rest => (Text.quoted key ++ ": " ++ v.literal) :: entryLiterals rest

end

end Value

end NumericActions
