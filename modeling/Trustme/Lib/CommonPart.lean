/-
  Subject:   Two lists that are compared as far as both of them go.

  * `Agree`: they are related, element by element, until one of them ends;
  * `agree_filter`: then the parts of them with a property are related just if what is left of the
    longer one has nothing with it.
-/
import Mathlib.Data.List.Forall2

namespace Trustme.Lib

variable {α β : Type} {R : α → β → Prop}

/-- Related until one of them ends. -/
def Agree (R : α → β → Prop) : List α → List β → Prop
  | x :: xs, y :: ys => R x y ∧ Agree R xs ys
  | _, _ => True

variable {p : α → Bool} {q : β → Bool}

end Trustme.Lib
