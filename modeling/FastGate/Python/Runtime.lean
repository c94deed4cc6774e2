/-
# FastGate.Python.Runtime — what the interpreter provides

The parts of CPython that the checker's results depend on and that are not its own code: how a string
is quoted in a message, where a syntax error is located, how deep the JSON parser recurses, which
number literals `Decimal` takes exactly, and the hash.  Everything is proved for any of them.
-/
import FastGate.Python.Value
import FastGate.Text.Utf8

namespace FastGate.Python

/-- What the checkers are given from outside of their own code. -/
structure Runtime where
  /-- `repr(s)` -/
  repr : Str → Str
  /-- `lineno` and `colno` of the `JSONDecodeError` for a text that is no JSON; none if `json.loads` stops at
  `NaN`, `Infinity` or `-Infinity` and calls `parse_constant`. -/
  errorPosition : List Char → Option (Nat × Nat)
  /-- The number of nested containers `json.loads` can enter. -/
  recursionLimit : Nat
  /-- `Decimal(value)` neither raises `InvalidOperation` nor returns an infinity. -/
  exactRange : FastGate.Json.Number → Bool
  /-- `hashlib.sha256(data).hexdigest()` -/
  sha256 : Utf8.Bytes → Str

instance : Inhabited Runtime := ⟨⟨id, fun _ => some (1, 1), 1000, fun _ => true, fun _ => []⟩⟩

end FastGate.Python
