import LispShell.Value.Error

set_option autoImplicit false

/-!
# Taking lists apart

The empty list is its own head and tail, so walking down a list never fails at its end.
-/

namespace LispShell.Value

/-- The head of a pair, and `null` of the empty list. -/
def head : Value → Except ValueError Value
  | .null => .ok .null
  | .pair _ head _ => .ok head
  | a => .error (.notAList a.kind)

/-- The tail of a pair, and `null` of the empty list. -/
def tail : Value → Except ValueError Value
  | .null => .ok .null
  | .pair _ _ tail => .ok tail
  | a => .error (.notAList a.kind)

/-- The items along the tails of a value, and the last tail, which is `null` for a proper list. -/
def items : Value → List Value × Value
  | .pair _ head tail => (head :: tail.items.1, tail.items.2)
  | a => ([], a)

/-- Exactly the lists have a head. -/
theorem head_isOk_iff (a : Value) : (∃ h, a.head = .ok h) ↔ a.isList = true := by
  cases a <;> simp [head, isList, kind]

end LispShell.Value
