/-! # Sorting by text -/

namespace SmallLisp

/-- Order items by a text, character by character. Items with the same text keep their order. -/
def sortByText {α : Type} (items : List (String × α)) : List (String × α) :=
  items.mergeSort fun a b => a.1 ≤ b.1

end SmallLisp
