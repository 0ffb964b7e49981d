import Typestate.Fraction.Ledger
import Typestate.Proofs.Fraction.Renaming
import Typestate.Proofs.Work

set_option autoImplicit false

/-!
Work that draws fresh fractions does the same wherever the supply stands: if the supply is moved up,
so are the fractions drawn, and nothing else changes.
-/

namespace Typestate

/-- The second supply is ahead of the first, which is past the start. -/
structure Supply.Moved (start amount : Nat) (a b : Supply) : Prop where
  past : start ≤ a.next
  ahead : b.next = a.next + amount

/-- The second ledger says what the first one does about fractions that are moved up. -/
structure Ledger.Moved (start amount : Nat) (a b : Ledger) : Prop where
  constraints : b.constraints = a.constraints.rename (.shift start amount)
  supply : a.supply.Moved start amount b.supply

namespace Ledger

variable {start amount : Nat}

theorem nextId_moved :
    Coupled (Moved start amount) (fun i j => j = (Renaming.shift start amount).apply i)
      nextId nextId := by
  intro a b moved
  have past := moved.supply.past
  have ahead := moved.supply.ahead
  refine ⟨?_, moved.constraints, ⟨?_, ?_⟩⟩
  · change b.supply.next =
      if a.supply.next < start then a.supply.next else a.supply.next + amount
    rw [if_neg (by omega), ahead]
  · change start ≤ a.supply.next + 1
    omega
  · change b.supply.next + 1 = a.supply.next + 1 + amount
    omega

theorem freshOf_moved (named : Bool) :
    Coupled (Moved start amount) (fun f g => g = f.rename (.shift start amount))
      (freshOf named) (freshOf named) := by
  refine nextId_moved.bind fun i j same => .pure ?_
  rw [same]
  cases named <;> rfl

theorem fresh_moved :
    Coupled (Moved start amount) (fun f g => g = f.rename (.shift start amount)) fresh fresh :=
  freshOf_moved false

theorem demand_moved {change other : Constraints → Constraints}
    (natural : ∀ cs : Constraints,
      other (cs.rename (.shift start amount)) = (change cs).rename (.shift start amount)) :
    Coupled (Moved start amount) (fun _ _ => True) (demand change) (demand other) := by
  intro a b moved
  refine ⟨trivial, ?_, moved.supply⟩
  change other b.constraints = _
  rw [moved.constraints, natural]
  rfl

theorem solution_moved :
    Coupled (Moved start amount) (fun s t => t = s.rename (.shift start amount))
      solution solution := by
  intro a b moved
  refine ⟨?_, moved⟩
  change b.constraints.solution = _
  rw [moved.constraints, Constraints.solution_rename]
  rfl

theorem within_moved {α β : Type} {results : α → β → Prop} {work : LedgerM α}
    {other : LedgerM β} (coupled : Coupled (Moved start amount) results work other)
    (cs : Constraints) :
    Coupled (Supply.Moved start amount)
      (fun a b => results a.1 b.1 ∧ b.2 = a.2.rename (.shift start amount))
      (within cs work) (within (cs.rename (.shift start amount)) other) := by
  intro a b moved
  obtain ⟨related, ended⟩ := coupled ⟨cs, a⟩ ⟨_, b⟩ ⟨rfl, moved⟩
  exact ⟨⟨related, ended.constraints⟩, ended.supply⟩

end Ledger

end Typestate
