namespace DeskCalculator

/-- Reads a list item by item, and knows how far it has come. -/
structure Cursor (α : Type) where
  items : List α
  position : Nat := 0

namespace Cursor

variable {α : Type}

/-- The items not yet read. -/
def rest (cursor : Cursor α) : List α := cursor.items.drop cursor.position

def peek (cursor : Cursor α) : Option α := cursor.rest.head?

/-- The item that was read last. -/
def last (cursor : Cursor α) : Option α :=
  if cursor.position = 0 then none else cursor.items[cursor.position - 1]?

/-- Reads one item; at the end the cursor stays where it is. -/
def next (cursor : Cursor α) : Option α × Cursor α :=
  match cursor.peek with
  | some item => (some item, { cursor with position := cursor.position + 1 })
  | none => (none, cursor)

/-- Runs a reader that answers with what it leaves unread. -/
def run {β : Type} (cursor : Cursor α) (reader : List α → β × List α) : β × Cursor α :=
  let (result, left) := reader cursor.rest
  (result, { cursor with position := cursor.items.length - left.length })

end Cursor

end DeskCalculator
