import TreeImage.Bytes.Word
import TreeImage.Error.Basic

/-!
Arithmetic on 64-bit words, and looks into bytes and tables, that give an error where there is no
result.  Steps that are known to have one need a reason for it.
-/

namespace TreeImage

/-- The number of 64-bit words, which is also the number of addresses. -/
def addressSpace : Nat := 0x10000000000000000

namespace Trapping

def add (a b : Nat) : Except Error Nat :=
  if a + b < addressSpace then .ok (a + b) else .error (.trap .sum)

def sub (a b : Nat) : Except Error Nat :=
  if b ≤ a then .ok (a - b) else .error (.trap .difference)

def mul (a b : Nat) : Except Error Nat :=
  if a * b < addressSpace then .ok (a * b) else .error (.trap .product)

def div (a b : Nat) : Except Error Nat :=
  if b = 0 then .error (.trap .quotient) else .ok (a / b)

def slice (bytes : Bytes) (start stop : Nat) : Except Error Bytes :=
  if start ≤ stop ∧ stop ≤ bytes.length then .ok ((bytes.drop start).take (stop - start))
  else .error (.trap .outside)

def entry {α : Type} (table : Array α) (index : Nat) : Except Error α :=
  match table[index]? with
  | some value => .ok value
  | none => .error (.trap .outside)

theorem add_eq_ok {a b : Nat} (hfits : a + b < addressSpace) : add a b = .ok (a + b) :=
  if_pos hfits

theorem eq_of_add_eq_ok {a b sum : Nat} (hadd : add a b = .ok sum) :
    a + b < addressSpace ∧ sum = a + b := by
  unfold add at hadd
  split at hadd
  · cases hadd
    exact ⟨by assumption, rfl⟩
  · cases hadd

theorem sub_eq_ok {a b : Nat} (hle : b ≤ a) : sub a b = .ok (a - b) := if_pos hle

theorem eq_of_sub_eq_ok {a b difference : Nat} (hsub : sub a b = .ok difference) :
    b ≤ a ∧ difference = a - b := by
  unfold sub at hsub
  split at hsub
  · cases hsub
    exact ⟨by assumption, rfl⟩
  · cases hsub

theorem mul_eq_ok {a b : Nat} (hfits : a * b < addressSpace) : mul a b = .ok (a * b) :=
  if_pos hfits

theorem eq_of_mul_eq_ok {a b product : Nat} (hmul : mul a b = .ok product) :
    a * b < addressSpace ∧ product = a * b := by
  unfold mul at hmul
  split at hmul
  · cases hmul
    exact ⟨by assumption, rfl⟩
  · cases hmul

theorem div_eq_ok {a b : Nat} (hb : b ≠ 0) : div a b = .ok (a / b) := if_neg hb

theorem slice_eq_ok {bytes : Bytes} {start stop : Nat} (hle : start ≤ stop)
    (hstop : stop ≤ bytes.length) :
    slice bytes start stop = .ok ((bytes.drop start).take (stop - start)) :=
  if_pos ⟨hle, hstop⟩

theorem eq_of_slice_eq_ok {bytes part : Bytes} {start stop : Nat}
    (hslice : slice bytes start stop = .ok part) :
    (start ≤ stop ∧ stop ≤ bytes.length) ∧ part = (bytes.drop start).take (stop - start) := by
  unfold slice at hslice
  split at hslice
  · cases hslice
    exact ⟨by assumption, rfl⟩
  · cases hslice

theorem entry_eq_ok {α : Type} {table : Array α} {index : Nat} (hindex : index < table.size) :
    entry table index = .ok table[index] := by
  simp [entry, hindex]

end Trapping

end TreeImage
