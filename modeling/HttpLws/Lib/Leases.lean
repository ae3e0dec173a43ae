import Mathlib.Logic.Function.Basic

/-!
# Leases on reusable addresses

An address has at most one occupant at a time and may be given to another one
later. A lease remembers an address together with the occupant it was made for,
and whether that occupancy has ended since. A valid lease has not ended exactly
when its address still leads to its occupant.
-/

/-- A remembered address. -/
structure Lease (A T : Type*) where
  /-- The address. -/
  addr : A
  /-- The occupant that the lease was made for. -/
  occupant : T
  /-- The occupancy has ended. -/
  ended : Bool

namespace Lease

variable {A T : Type*} {at' : A → Option T}

/-- The mark tells whether the address leads to the occupant. -/
def Valid (at' : A → Option T) (l : Lease A T) : Prop :=
  l.ended = false ↔ at' l.addr = some l.occupant

/-- A lease that is made for the current occupant is valid. -/
theorem valid_new {a : A} {t : T} (h : at' a = some t) : Valid at' ⟨a, t, false⟩ :=
  iff_of_true rfl h

variable [DecidableEq A]

/-- End the lease if it is one of the address `a`. -/
def endAt (a : A) (l : Lease A T) : Lease A T := { l with ended := l.ended || l.addr == a }

/-- Ending the leases of an address whose occupant changes keeps leases valid. -/
theorem Valid.endAt_update {l : Lease A T} (h : l.Valid at') {a : A} {t : Option T}
    (hnew : l.addr = a → t ≠ some l.occupant) :
    (l.endAt a).Valid (Function.update at' a t) := by
  by_cases haddr : l.addr = a
  · simp only [Valid, endAt, haddr, Function.update_self, beq_self_eq_true, Bool.or_true,
      Bool.true_eq_false, false_iff]
    exact hnew haddr
  · simp only [Valid, endAt, Function.update_of_ne haddr, beq_eq_false_iff_ne.mpr haddr,
      Bool.or_false]
    exact h

end Lease
