import Typestate.Holding.Transfer
import Typestate.Proofs.Permission.Growth
import Typestate.Proofs.Permission.Renaming
import Typestate.Specification.Predicate

set_option autoImplicit false

/-!
Whether requests can be met by what is held does not depend on where the supply of fresh fractions
stands, as long as it is past all fractions in use.
-/

namespace Typestate

theorem Predicate.combineClauses_moved {start amount : Nat} (named : Bool) (set : RequestSet)
    (clauses : List Clause) :
    Coupled (Supply.Moved start amount)
      (fun a b => b = (a.map (·.rename (.shift start amount))).mapError
        (·.rename (.shift start amount)))
      (combineClauses named set clauses)
      (combineClauses named (set.rename (.shift start amount)) clauses) := by
  induction clauses generalizing set with
  | nil => exact .pure rfl
  | cons c rest ih =>
      refine (RequestSet.ofSpec_moved c.space c.spec named).bind fun a b same => ?_
      rw [same, RequestSet.combine_rename]
      cases set.combine a with
      | error overlap => exact .pure rfl
      | ok both => exact ih both

theorem Predicate.requests_moved {start amount : Nat} (p : Predicate) (target : Target)
    (named : Bool) :
    Coupled (Supply.Moved start amount)
      (fun a b => b = (a.map (·.map (·.rename (.shift start amount)))).mapError
        (·.rename (.shift start amount)))
      (p.requests target named) (p.requests target named) := by
  unfold requests
  cases p.partsFor target with
  | nil => exact .pure rfl
  | cons c rest =>
      refine (RequestSet.ofSpec_moved c.space c.spec named).bind fun a b same => ?_
      rw [same]
      refine (combineClauses_moved named a rest).bind fun c d both => .pure ?_
      rw [both]
      cases c <;> rfl

section Renaming

variable (ρ : Renaming)

def Held.rename (h : Held) : Held :=
  ⟨h.virtuals.rename ρ, h.frames.rename ρ, h.unpacked.map (·.rename ρ), h.constraints.rename ρ⟩

def Holding.rename (x : Holding) : Holding := x.map (·.rename ρ)

theorem Holding.isUnsatisfiable_rename (x : Holding) :
    (x.rename ρ).isUnsatisfiable = x.isUnsatisfiable := by
  cases x with
  | bottom => rfl
  | held h => exact Constraints.isUnsatisfiable_rename ρ h.constraints

end Renaming

namespace Holding

variable {start amount : Nat}

theorem rework_moved (x : Holding) {work other : Held → LedgerM Held}
    (coupled : ∀ h, Coupled (Ledger.Moved start amount)
      (fun a b => b = a.rename (.shift start amount)) (work h)
      (other (h.rename (.shift start amount)))) :
    Coupled (Supply.Moved start amount) (fun a b => b = a.rename (.shift start amount))
      (x.rework work) ((x.rename (.shift start amount)).rework other) := by
  cases x with
  | bottom => exact .pure rfl
  | held h =>
      refine (Ledger.within_moved (coupled h) h.constraints).bind fun a b same => .pure ?_
      obtain ⟨worked, demanded⟩ := same
      rw [worked, demanded]
      rfl

theorem split_moved (x : Holding) (r : RequestSet) :
    Coupled (Supply.Moved start amount) (fun a b => b = a.rename (.shift start amount))
      (x.split r)
      ((x.rename (.shift start amount)).split (r.rename (.shift start amount))) := by
  refine x.rework_moved fun h => (Ledger.demand_moved fun cs => ?_).bind fun _ _ _ =>
    Ledger.solution_moved.bind fun s s' solved => ?_
  · exact Constraints.append_rename _ cs r.constraints
  · rw [solved]
    refine (Pool.split_moved s h.virtuals r.virtuals).bind fun a b first =>
      (Pool.split_moved s h.frames r.frames).bind fun c d second => .pure ?_
    rw [first, second]
    rfl

end Holding

namespace Fraction

/-- Fractions that a supply at the given number has drawn already, or that need not be drawn. -/
def IsBelow (n : Nat) : Fraction → Prop
  | .zero | .one => True
  | .named id | .unknown id => id < n

theorem IsBelow.rename_shift {n start : Nat} {f : Fraction} (below : f.IsBelow n)
    (past : n ≤ start) (amount : Nat) : f.rename (.shift start amount) = f := by
  have fixed (id : Nat) (less : id < n) : (Renaming.shift start amount).apply id = id :=
    if_pos (Nat.lt_of_lt_of_le less past)
  cases f with
  | zero | one => rfl
  | named id => exact congrArg Fraction.named (fixed id below)
  | unknown id => exact congrArg Fraction.unknown (fixed id below)

end Fraction

theorem map_eq_self {α : Type} {f : α → α} {xs : List α} (fixed : ∀ x ∈ xs, f x = x) :
    xs.map f = xs :=
  (List.map_congr_left fixed).trans (List.map_id xs)

theorem Constraint.rename_eq_self {ρ : Renaming} {c : Constraint}
    (fixed : ∀ f ∈ c.terms.flatMap Term.fractions, f.rename ρ = f) : c.rename ρ = c := by
  have term (t : Term) (member : t ∈ c.terms) : t.rename ρ = t := by
    have inside (f : Fraction) (among : f ∈ t.fractions) : f.rename ρ = f :=
      fixed f (List.mem_flatMap.mpr ⟨t, member, among⟩)
    cases t with
    | single f => exact congrArg Term.single (inside f (by simp [Term.fractions]))
    | sum fs => exact congrArg Term.sum (map_eq_self inside)
  cases c with
  | equal ts => exact congrArg Constraint.equal (map_eq_self term)
  | nonZero t => exact congrArg Constraint.nonZero (term t (by simp [terms]))
  | atMost a b | less a b =>
      simp only [rename, term a (by simp [terms]), term b (by simp [terms])]

theorem Permission.rename_eq_self {ρ : Renaming} {p : Permission}
    (fixed : ∀ f ∈ p.shares.fractions, f.rename ρ = f) : p.rename ρ = p := by
  have values : p.shares.values.map (Shares.renameEntry ρ) = p.shares.values := by
    refine map_eq_self fun entry member => ?_
    have inside : entry.2 ∈ p.shares.fractions :=
      List.mem_append_left _ (List.mem_map_of_mem member)
    exact congrArg (Prod.mk entry.1) (fixed entry.2 inside)
  have below := fixed p.shares.below (by simp [Shares.fractions])
  simp only [rename, Shares.rename, values, below]

namespace Holding

def permissions : Holding → List Permission
  | .bottom => []
  | .held h => h.virtuals ++ h.frames ++ h.unpacked.toList

theorem pool_held (h : Held) (inFrame : Bool) : (held h).pool inFrame = h.pool inFrame := by
  cases inFrame <;> rfl

theorem mem_permissions_of_pool {h : Held} {inFrame : Bool} {p : Permission}
    (member : p ∈ h.pool inFrame) : p ∈ (held h).permissions := by
  cases inFrame with
  | false => exact List.mem_append_left _ (List.mem_append_left _ member)
  | true => exact List.mem_append_left _ (List.mem_append_right _ member)

theorem mem_permissions_of_unpacked {h : Held} {p : Permission} (member : h.unpacked = some p) :
    p ∈ (held h).permissions := by
  refine List.mem_append_right _ ?_
  simp [member]

def fractions (x : Holding) : List Fraction :=
  (x.permissions.flatMap fun p => p.shares.fractions) ++
    (x.constraints.items.flatMap fun c => c.terms.flatMap Term.fractions)

theorem rename_eq_self {ρ : Renaming} {x : Holding}
    (fixed : ∀ f ∈ x.fractions, f.rename ρ = f) : x.rename ρ = x := by
  cases x with
  | bottom => rfl
  | held h =>
      have permission (p : Permission) (member : p ∈ permissions (.held h)) : p.rename ρ = p :=
        Permission.rename_eq_self fun f inside =>
          fixed f (List.mem_append_left _ (List.mem_flatMap.mpr ⟨p, member, inside⟩))
      have virtuals : h.virtuals.rename ρ = h.virtuals :=
        map_eq_self fun p member => permission p (by simp [permissions, member])
      have frames : h.frames.rename ρ = h.frames :=
        map_eq_self fun p member => permission p (by simp [permissions, member])
      have unpacked : h.unpacked.map (·.rename ρ) = h.unpacked := by
        cases held : h.unpacked with
        | none => rfl
        | some u => exact congrArg some (permission u (by simp [permissions, held]))
      have items : h.constraints.items.map (·.rename ρ) = h.constraints.items :=
        map_eq_self fun c member => Constraint.rename_eq_self fun f inside =>
          fixed f (List.mem_append_right _ (List.mem_flatMap.mpr ⟨c, member, inside⟩))
      simp only [rename, Holding.map, Held.rename, virtuals, frames, unpacked, Constraints.rename,
        items]

/-- Nothing that is held has a fraction a supply at the given number has yet to draw. -/
def IsBelow (n : Nat) (x : Holding) : Prop := ∀ f ∈ x.fractions, f.IsBelow n

theorem IsBelow.rename_shift {n start : Nat} {x : Holding} (below : x.IsBelow n)
    (past : n ≤ start) (amount : Nat) : x.rename (.shift start amount) = x :=
  rename_eq_self fun f member => (below f member).rename_shift past amount

end Holding

section Growth

variable {n : Nat}

theorem Predicate.combineClauses_keeps (named : Bool) (set : RequestSet) (clauses : List Clause) :
    Keeps (Supply.Reached n) (combineClauses named set clauses) := by
  induction clauses generalizing set with
  | nil => exact .pure _
  | cons c rest ih =>
      refine (RequestSet.ofSpec_keeps _ _ _).bind fun next => ?_
      cases set.combine next with
      | ok both => exact ih both
      | error overlap => exact .pure _

theorem Predicate.requests_keeps (p : Predicate) (target : Target) (named : Bool) :
    Keeps (Supply.Reached n) (p.requests target named) := by
  unfold requests
  cases p.partsFor target with
  | nil => exact .pure _
  | cons c rest =>
      exact (RequestSet.ofSpec_keeps _ _ _).bind fun _ =>
        (combineClauses_keeps _ _ _).bind fun _ => .pure _

theorem Holding.rework_keeps (x : Holding) {work : Held → LedgerM Held}
    (keeps : ∀ h, Keeps (Ledger.Reached n) (work h)) :
    Keeps (Supply.Reached n) (x.rework work) := by
  cases x with
  | bottom => exact .pure _
  | held h => exact (Ledger.within_keeps (keeps h) _).bind fun _ => .pure _

theorem Holding.split_keeps (x : Holding) (r : RequestSet) :
    Keeps (Supply.Reached n) (x.split r) := by
  have stable := Ledger.reached_stable n
  exact x.rework_keeps fun _ => (stable.demands fun cs => .append cs _).bind fun _ =>
    Ledger.solution_keeps.bind fun _ => (Pool.split_keeps stable _ _ _).bind fun _ =>
      (Pool.split_keeps stable _ _ _).bind fun _ => .pure _

theorem Holding.exists_mergeWork (r : RequestSet) :
    ∃ work : Held → LedgerM Held, (∀ x : Holding, x.merge r = x.rework work) ∧
      ∀ {property : Ledger → Prop}, Ledger.Stable property → ∀ h, Keeps property (work h) :=
  ⟨_, fun _ => rfl, fun stable _ => (stable.demands fun cs => .append cs _).bind fun _ =>
    Ledger.solution_keeps.bind fun _ => (Keeps.foldlM (Pool.merge_keeps stable _) _ _).bind fun _ =>
      (Keeps.foldlM (Pool.merge_keeps stable _) _ _).bind fun _ => .pure _⟩

theorem Holding.merge_keeps (x : Holding) (r : RequestSet) :
    Keeps (Supply.Reached n) (x.merge r) := by
  obtain ⟨work, same, keeps⟩ := exists_mergeWork r
  rw [same]
  exact x.rework_keeps (keeps (Ledger.reached_stable n))

theorem Holding.merge_within (x : Holding) (r : RequestSet) :
    Yields (x.merge r) fun y => x.constraints.Within y.constraints := by
  obtain ⟨work, same, keeps⟩ := exists_mergeWork r
  rw [same]
  cases x with
  | bottom => exact .pure (.refl _)
  | held h =>
    intro supply
    exact keeps (Ledger.demanded_stable h.constraints) h ⟨h.constraints, supply⟩ (.refl _)

end Growth

end Typestate
