/-!
# Checked 32-bit addition

Line numbers and counts are 32-bit words. A sum that does not fit has no value,
and a sum that fits is the sum of the numbers.
-/

set_option autoImplicit false

namespace SourceDelta

def add? (a b : UInt32) : Option UInt32 :=
  if a.toNat + b.toNat < UInt32.size then some (a + b) else none

theorem add?_eq_some {a b c : UInt32} :
    add? a b = some c ↔ a.toNat + b.toNat = c.toNat := by
  have hc := c.toNat_lt
  constructor
  · intro h
    simp only [add?] at h
    split at h
    next hlt =>
      cases h
      rw [UInt32.toNat_add, Nat.mod_eq_of_lt hlt]
    next => cases h
  · intro h
    have hlt : a.toNat + b.toNat < UInt32.size := Nat.lt_of_le_of_lt (Nat.le_of_eq h) hc
    simp only [add?, if_pos hlt, Option.some.injEq]
    apply UInt32.toNat_inj.mp
    rw [UInt32.toNat_add, Nat.mod_eq_of_lt hlt, h]

theorem add?_eq_none {a b : UInt32} : add? a b = none ↔ UInt32.size ≤ a.toNat + b.toNat := by
  simp only [add?]
  split <;> simp <;> omega

/-- Sums from the left; the first partial sum that does not fit ends it. -/
def sum? (ws : List UInt32) : Option UInt32 := ws.foldlM add? 0

end SourceDelta
