import Typestate.Proofs.Fraction.Assignment
import Typestate.Proofs.Work

set_option autoImplicit false

/-!
Two ways to follow work on a ledger. Backwards: what an assignment that meets the demands at the end
shows about the results. Forwards: what can be carried along while fractions are drawn, such as an
assignment that meets the demands and gives values to what is drawn on the way.
-/

namespace Typestate

variable {V σ α β : Type}

/-- An assignment that meets the demands at the end met them at the start, and shows a fact about
the result. -/
def Reveals (value : Term → V) (work : LedgerM α) (shown : α → Prop) : Prop :=
  ∀ l : Ledger, (work.run l).2.constraints.MetBy value →
    l.constraints.MetBy value ∧ shown (work.run l).1

namespace Reveals

variable {value : Term → V}

theorem pure {shown : α → Prop} {a : α} (holds : shown a) :
    Reveals value (pure a : LedgerM α) shown := fun _ met => ⟨met, holds⟩

/-- The second part has to be followed only from results that the first part can have. -/
theorem bindYields {possible between : α → Prop} {shown : β → Prop} {work : LedgerM α}
    {next : α → LedgerM β} (first : Reveals value work between) (yields : Yields work possible)
    (second : ∀ a, possible a → Reveals value (next a) fun b => between a → shown b) :
    Reveals value (work >>= next) shown := by
  intro l met
  obtain ⟨middle, shows⟩ := second _ (yields l) _ met
  obtain ⟨start, known⟩ := first l middle
  exact ⟨start, shows known⟩

/-- What the first part shows is known only once the second is followed back. -/
theorem bind {between : α → Prop} {shown : β → Prop} {work : LedgerM α} {next : α → LedgerM β}
    (first : Reveals value work between)
    (second : ∀ a, Reveals value (next a) fun b => between a → shown b) :
    Reveals value (work >>= next) shown := by
  have always : Yields work fun _ => True := fun _ => trivial
  exact first.bindYields always fun a _ => second a

theorem mono {shown weaker : α → Prop} {work : LedgerM α} (reveals : Reveals value work shown)
    (weaken : ∀ a, shown a → weaker a) : Reveals value work weaker :=
  fun l met => (reveals l met).imp id (weaken _)

theorem ite {condition : Prop} [Decidable condition] {work other : LedgerM α} {shown : α → Prop}
    (holds : condition → Reveals value work shown)
    (fails : ¬condition → Reveals value other shown) :
    Reveals value (if condition then work else other) shown := by
  split
  · next decided => exact holds decided
  · next decided => exact fails decided

theorem demand {change : Constraints → Constraints} {fact : Prop}
    (met : ∀ cs : Constraints, (change cs).MetBy value → cs.MetBy value ∧ fact) :
    Reveals value (Ledger.demand change) fun _ => fact := fun l => met l.constraints

theorem fresh {shown : α → Prop} {next : Fraction → LedgerM α}
    (second : ∀ id, Reveals value (next (.unknown id)) shown) :
    Reveals value (Ledger.fresh >>= next) shown :=
  fun l => second l.supply.next ⟨l.constraints, ⟨l.supply.next + 1⟩⟩

theorem mapM {step : α → LedgerM β} {shown : α → β → Prop} (xs : List α)
    (each : ∀ a ∈ xs, Reveals value (step a) (shown a)) :
    Reveals value (xs.mapM step) fun ys => List.Forall₂ shown xs ys := by
  induction xs with
  | nil => exact pure .nil
  | cons a rest ih =>
      rw [List.mapM_cons]
      refine bind (each a List.mem_cons_self) fun b => ?_
      refine bind (ih fun a' later => each a' (List.mem_cons_of_mem _ later)) fun ys => ?_
      exact pure fun others first => .cons first others

end Reveals

/-- Something that fits a ledger and may change as more is drawn, but not in what it says about what
was drawn before. -/
structure Cargo (σ : Type) where
  fits : Ledger → σ → Prop
  agree : Nat → σ → σ → Prop
  refl : ∀ n a, agree n a a
  trans : ∀ {n m : Nat} {a b c : σ}, agree n a b → n ≤ m → agree m b c → agree n a c

/-- The cargo can be carried along. Facts are about it and about how much has been drawn. -/
def Carries (cargo : Cargo σ) (before : Nat → σ → Prop) (work : LedgerM α)
    (after : α → Nat → σ → Prop) : Prop :=
  ∀ (l : Ledger) (a : σ), cargo.fits l a → before l.supply.next a →
    ∃ b, cargo.agree l.supply.next a b ∧ l.supply.next ≤ (work.run l).2.supply.next ∧
      cargo.fits (work.run l).2 b ∧ after (work.run l).1 (work.run l).2.supply.next b

/-- A fact that stays when more is drawn. -/
def Cargo.Keeps (cargo : Cargo σ) (fact : Nat → σ → Prop) : Prop :=
  ∀ {n m : Nat} {a b : σ}, n ≤ m → cargo.agree n a b → fact n a → fact m b

namespace Carries

variable {cargo : Cargo σ} {before : Nat → σ → Prop}

theorem pure {after : α → Nat → σ → Prop} {a : α} (holds : ∀ n c, before n c → after a n c) :
    Carries cargo before (pure a : LedgerM α) after :=
  fun _ c fits start => ⟨c, cargo.refl _ c, Nat.le_refl _, fits, holds _ c start⟩

theorem bindYields {possible : α → Prop} {between : α → Nat → σ → Prop}
    {after : β → Nat → σ → Prop} {work : LedgerM α} {next : α → LedgerM β}
    (first : Carries cargo before work between) (yields : Yields work possible)
    (second : ∀ a, possible a → Carries cargo (between a) (next a) after) :
    Carries cargo before (work >>= next) after := by
  intro l c fits start
  obtain ⟨middle, agree, more, fits, known⟩ := first l c fits start
  obtain ⟨last, agree', more', fits, final⟩ := second _ (yields l) _ middle fits known
  exact ⟨last, cargo.trans agree more agree', more.trans more', fits, final⟩

theorem bind {between : α → Nat → σ → Prop} {after : β → Nat → σ → Prop} {work : LedgerM α}
    {next : α → LedgerM β} (first : Carries cargo before work between)
    (second : ∀ a, Carries cargo (between a) (next a) after) :
    Carries cargo before (work >>= next) after := by
  have always : Yields work fun _ => True := fun _ => trivial
  exact first.bindYields always fun a _ => second a

theorem frame {after : α → Nat → σ → Prop} {kept : Nat → σ → Prop} {work : LedgerM α}
    (carries : Carries cargo before work after) (lasting : cargo.Keeps kept) :
    Carries cargo (fun n c => before n c ∧ kept n c) work
      fun a n c => after a n c ∧ kept n c := by
  intro l c fits start
  obtain ⟨other, agree, more, fits, known⟩ := carries l c fits start.1
  exact ⟨other, agree, more, fits, known, lasting more agree start.2⟩

theorem mono {stronger : Nat → σ → Prop} {after weaker : α → Nat → σ → Prop} {work : LedgerM α}
    (carries : Carries cargo before work after)
    (strengthen : ∀ n c, stronger n c → before n c)
    (weaken : ∀ a n c, after a n c → weaker a n c) : Carries cargo stronger work weaker := by
  intro l c fits start
  obtain ⟨other, agree, more, fits, known⟩ := carries l c fits (strengthen _ c start)
  exact ⟨other, agree, more, fits, weaken _ _ other known⟩

theorem keeping {known : Nat → σ → Prop} {after : α → Nat → σ → Prop} {work : LedgerM α}
    (carries : Carries cargo before work after) (lasting : cargo.Keeps known)
    (enough : ∀ n c, known n c → before n c) :
    Carries cargo known work fun a n c => after a n c ∧ known n c :=
  (carries.frame lasting).mono (fun n c start => ⟨enough n c start, start⟩) fun _ _ _ => id

theorem results {after : α → Nat → σ → Prop} {fact : α → Prop} {work : LedgerM α}
    (carries : Carries cargo before work after)
    (always : ∀ (l : Ledger) c, before l.supply.next c → fact (work.run l).1) :
    Carries cargo before work fun a n c => after a n c ∧ fact a := by
  intro l c fits start
  obtain ⟨other, agree, more, fits, known⟩ := carries l c fits start
  exact ⟨other, agree, more, fits, known, always l c start⟩

theorem ite {condition : Prop} [Decidable condition] {work other : LedgerM α}
    {after : α → Nat → σ → Prop} (holds : condition → Carries cargo before work after)
    (fails : ¬condition → Carries cargo before other after) :
    Carries cargo before (if condition then work else other) after := by
  split
  · next decided => exact holds decided
  · next decided => exact fails decided

theorem mapM {step : α → LedgerM β} {after : α → β → Nat → σ → Prop}
    (lasting : cargo.Keeps before) (kept : ∀ a b, cargo.Keeps (after a b)) (xs : List α)
    (each : ∀ a ∈ xs, Carries cargo before (step a) (after a)) :
    Carries cargo before (xs.mapM step) fun ys n c =>
      List.Forall₂ (fun a b => after a b n c) xs ys := by
  induction xs with
  | nil => exact pure fun _ _ _ => .nil
  | cons a rest ih =>
      rw [List.mapM_cons]
      refine bind ((each a List.mem_cons_self).keeping lasting fun _ _ => id) fun b => ?_
      have others := ih fun a' later => each a' (List.mem_cons_of_mem _ later)
      have known : cargo.Keeps fun n c => after a b n c ∧ before n c :=
        fun more agree both => ⟨kept a b more agree both.1, lasting more agree both.2⟩
      refine bind (others.keeping known fun _ _ => And.right) fun ys => ?_
      exact pure fun _ _ all => .cons all.2.1 all.1

end Carries

/-- The demands so far are met and speak of nothing that is yet to be drawn. -/
def Ledger.MetBy (l : Ledger) (value : Term → V) : Prop :=
  l.constraints.MetBy value ∧ l.constraints.IsDrawn l.supply.next

/-- Assignments that meet the demands. -/
abbrev Cargo.assignments (V : Type) : Cargo (Term → V) :=
  ⟨Ledger.MetBy, Agree, Agree.refl, Agree.trans⟩

/-- An assignment can be carried along. -/
abbrev Admits (before : Nat → (Term → V) → Prop) (work : LedgerM α)
    (after : α → Nat → (Term → V) → Prop) : Prop := Carries (.assignments V) before work after

abbrev Lasting (fact : Nat → (Term → V) → Prop) : Prop := (Cargo.assignments V).Keeps fact

end Typestate
