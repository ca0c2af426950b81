import TwinTrees.CommandError

/-!
# Arguments that name entries of one side

A test compares two trees, the left and the right side. An argument such as `lhs=a b c` names
entries of one side.
-/

namespace TwinTrees

/-- The side with this name. -/
def Side.ofString? (keyword : String) : Except CommandError Side :=
  if keyword = "lhs" then .ok .lhs
  else if keyword = "rhs" then .ok .rhs
  else .error (.invalidArgument (.unknownSide keyword))

/-- The side and the names, at least one, of an argument. -/
def readSided (argument : String) : Except CommandError (Side × List String) :=
  match Text.splitFirst? '=' argument.toList with
  | none => .error (.invalidArgument (.notSided argument))
  | some (key, names) => do
    let side ← Side.ofString? (String.ofList key)
    match Text.blankSeparated names with
    | [] => .error (.invalidArgument (.noNames side))
    | names => .ok (side, names.map String.ofList)

end TwinTrees
