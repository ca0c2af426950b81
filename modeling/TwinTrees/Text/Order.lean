/-!
# Dictionary order

Lists are ordered as in a dictionary: the first place where two lists differ decides, and a list
comes before those that continue it. For texts this is the order of their UTF-8 bytes as well.
-/

namespace TwinTrees.Text

/-- The dictionary order of lists over an order of their members. -/
def dictionaryLe {α : Type} [DecidableEq α] (le : α → α → Bool) : List α → List α → Bool
  | [], _ => true
  | _ :: _, [] => false
  | a :: as, b :: bs => if a = b then dictionaryLe le as bs else le a b

/-- The order of texts. -/
def le (s t : List Char) : Bool := dictionaryLe (fun a b => decide (a ≤ b)) s t

end TwinTrees.Text
