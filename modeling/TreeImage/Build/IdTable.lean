import Std.Data.HashMap
import TreeImage.Bytes.Word
import TreeImage.Error.Basic

namespace TreeImage.Build

/-- Distinct values in the order of their first use, and the place of each. -/
structure IdTable where
  values : Array UInt32
  places : Std.HashMap UInt32 UInt16

namespace IdTable

/-- How many values a table can hold: their number must fit a 16-bit word. -/
def maxSize : Nat := 65535

def empty : IdTable := ⟨#[], ∅⟩

/-- Gives the place of a value, which is added if it is new.  A full table takes no new value and
stays as it is. -/
def index (id : UInt32) : Action IdTable UInt16
  | ⟨values, places⟩ =>
      match places[id]? with
      | some place => (.ok place, ⟨values, places⟩)
      | none =>
          if maxSize ≤ values.size then
            (.error (.unsupported (.distinctIds maxSize)), ⟨values, places⟩)
          else
            let place := UInt16.ofNat values.size
            (.ok place, ⟨values.push id, places.insert id place⟩)

/-- The place of a value, and the table that has it there. -/
def place (id : UInt32) (table : IdTable) : Except Error (UInt16 × IdTable) :=
  match index id table with
  | (.ok place, table) => .ok (place, table)
  | (.error error, _) => .error error

def check (table : IdTable) : Except Error Unit :=
  if maxSize < table.values.size then .error (.unsupported .idTable) else .ok ()

def encode (table : IdTable) : Bytes := table.values.toList.flatMap word32

end IdTable

end TreeImage.Build
