import Typestate.Flow.Call
import Typestate.Flow.Check
import Typestate.Proofs.Holding.Drawing
import Typestate.Proofs.Tuple.Packing

set_option autoImplicit false

/-!
Checking a precondition and taking its permissions away come to the same decision about every
target, wherever the supply stands.
-/

namespace Typestate

namespace Flow

/-- Whether what is held for a target is in the required states and its permissions are enough. -/
def meets (p : Predicate) (target : Target) (x : Holding) : SupplyM Bool := do
  if !x.isInStates (p.requiredStates target false) false ||
      !x.isInStates (p.requiredStates target true) true then
    return false
  else
    match ← p.requests target false with
    | .error _ => return false
    | .ok none => return true
    | .ok (some request) => return !(← x.split request).isUnsatisfiable

theorem meets_keeps {n : Nat} (p : Predicate) (target : Target) (x : Holding) :
    Keeps (Supply.Reached n) (meets p target x) := by
  refine .ite (.pure _) ((p.requests_keeps target false).bind fun requested => ?_)
  match requested with
  | .error _ => exact .pure _
  | .ok none => exact .pure _
  | .ok (some request) => exact (x.split_keeps request).bind fun _ => .pure _

theorem meets_moved {n start : Nat} (amount : Nat) (p : Predicate) (target : Target) {x : Holding}
    (below : x.IsBelow n) (past : n ≤ start) :
    Coupled (Supply.Moved start amount) Eq (meets p target x) (meets p target x) := by
  refine .ite (fun _ => .pure rfl) fun _ => (p.requests_moved target false).bind fun a b same => ?_
  rw [same]
  match a with
  | .error _ => exact .pure rfl
  | .ok none => exact .pure rfl
  | .ok (some request) =>
      have split : Coupled (Supply.Moved start amount) _ _ _ := x.split_moved request
      rw [below.rename_shift past amount] at split
      refine split.bind fun c d left => .pure ?_
      rw [left, Holding.isUnsatisfiable_rename]

theorem meets_stable {n : Nat} (p : Predicate) (target : Target) {x : Holding}
    (below : x.IsBelow n) {a b : Supply} (first : a.Reached n) (second : b.Reached n) :
    ((meets p target x).run a).1 = ((meets p target x).run b).1 := by
  -- The supply that is ahead draws the same fractions with higher numbers.
  have ahead {a b : Supply} (first : a.Reached n) (less : a.next ≤ b.next) :
      ((meets p target x).run a).1 = ((meets p target x).run b).1 :=
    (meets_moved (b.next - a.next) p target below first a b
      ⟨Nat.le_refl _, by omega⟩).1
  rcases Nat.le_total a.next b.next with less | less
  · exact ahead first less
  · exact (ahead second less).symm

theorem checkTargetStates_isOk (p : Predicate) (target : Target) (returning : Bool) (span : Span)
    (x : Holding) :
    (checkTargetStates p target returning span x).isOk =
      !(!x.isInStates (p.requiredStates target false) false ||
        !x.isInStates (p.requiredStates target true) true) := by
  simp only [checkTargetStates]
  cases x.isInStates (p.requiredStates target false) false <;>
    cases x.isInStates (p.requiredStates target true) true <;> rfl

theorem checkTarget_decides (p : Predicate) (target : Target) (returning : Bool) (span : Span)
    (x : Holding) :
    Coupled Eq (fun result met => result.isOk = met) (checkTarget p target returning span x)
      (meets p target x) := by
  have states := checkTargetStates_isOk p target returning span x
  simp only [checkTarget, meets]
  -- Both tests of the states are made at once, whatever the message is.
  generalize (!x.isInStates (p.requiredStates target false) false ||
    !x.isInStates (p.requiredStates target true) true) = refused at states ⊢
  cases checked : checkTargetStates p target returning span x with
  | error d =>
      have wrong : refused = true := by simpa [checked, Except.isOk, Except.toBool] using states
      rw [if_pos wrong]
      exact .pure rfl
  | ok done =>
      have right : ¬refused = true := by simpa [checked, Except.isOk, Except.toBool] using states
      rw [if_neg right]
      refine (Coupled.refl _).bind fun a b same => ?_
      rw [← same]
      rcases a with _ | (_ | request)
      · exact .pure rfl
      · exact .pure rfl
      · refine (Coupled.refl _).bind fun c d left => ?_
        rw [← left]
        cases unsatisfiable : c.isUnsatisfiable with
        | true => exact .pure rfl
        | false => exact .pure rfl

theorem requireTarget_decides (call : Call) (case : MethodCase) (t : Tuple) {target : Target}
    {l : Location} (resolved : call.resolve target = some l) :
    Coupled Eq
      (fun result met => result.isSome = met ∧
        ∀ next, result = some next → ∀ other, other ≠ l → next.get other = t.get other)
      (requireTarget call case t target) (meets case.pre target (t.get l)) := by
  simp only [requireTarget, meets, resolved]
  refine .ite (fun _ => .pure ⟨rfl, by simp⟩) fun _ => (Coupled.refl _).bind fun a b same => ?_
  rw [← same]
  rcases a with _ | (_ | request)
  · exact .pure ⟨rfl, by simp⟩
  · exact .pure ⟨rfl, by simp⟩
  · refine (Coupled.refl _).bind fun c d left => ?_
    rw [← left]
    cases unsatisfiable : c.isUnsatisfiable with
    | true => exact .pure ⟨rfl, by simp⟩
    | false =>
      refine .pure ⟨rfl, fun next taken other apart => ?_⟩
      rw [← Option.some.inj taken]
      exact t.get_set_of_ne _ apart

/-- The decision about one target, by a supply that has just reached the given number. -/
def isMet (n : Nat) (p : Predicate) (target : Target) (x : Holding) : Bool :=
  ((meets p target x).run ⟨n⟩).1

theorem ensures_of_decides {n : Nat} {α : Type} {decides : α → Bool → Prop} {work : SupplyM α}
    {p : Predicate} {target : Target} {x : Holding} (below : x.IsBelow n)
    (coupled : Coupled Eq decides work (meets p target x)) :
    Ensures (Supply.Reached n) work
      fun a s => decides a (isMet n p target x) ∧ s.Reached n := by
  intro s reached
  obtain ⟨decided, ended⟩ := coupled s s rfl
  rw [meets_stable p target below reached (Nat.le_refl n)] at decided
  refine ⟨decided, ?_⟩
  rw [ended]
  exact meets_keeps p target x s reached

end Flow

/-- A predicate that can hold, and whose permissions for each target can be held together. -/
structure Predicate.Coherent (p : Predicate) : Prop where
  notVoid : p.isVoid = false
  requests : ∀ target supply, ((p.requests target false).run supply).1.isOk = true

theorem Predicate.Coherent.requested {p : Predicate} (coherent : p.Coherent) (target : Target)
    (supply : Supply) :
    ∃ request next, (p.requests target false).run supply = (.ok request, next) := by
  have ok := coherent.requests target supply
  generalize (p.requests target false).run supply = result at ok
  obtain ⟨requested, next⟩ := result
  cases requested with
  | ok request => exact ⟨request, next, rfl⟩
  | error overlap => cases ok

/-- A tuple without fractions that a supply at the given number has yet to draw. -/
def Tuple.IsBelow (n : Nat) (t : Tuple) : Prop := ∀ l, (t.get l).IsBelow n

namespace Flow

theorem meets_bottom (p : Predicate) (target : Target) (supply : Supply) :
    ((meets p target .bottom).run supply).1 =
      ((p.requests target false).run supply).1.isOk := by
  have states (needed : List String) (inFrame : Bool) :
      Holding.bottom.isInStates needed inFrame = true := by
    simp [Holding.isInStates, Holding.isInState, Holding.isBottom]
  simp only [meets, states, Bool.not_true, Bool.or_self, Bool.false_eq_true, if_false,
    StateT.run_bind]
  generalize (p.requests target false).run supply = result
  match result with
  | (.error _, _) => rfl
  | (.ok none, _) => rfl
  | (.ok (some _), _) => rfl

theorem isMet_bottom (n : Nat) {p : Predicate} (coherent : p.Coherent) (target : Target) :
    isMet n p target .bottom = true := by
  rw [isMet, meets_bottom, coherent.requests]

def allMet (n : Nat) (p : Predicate) (resolve : Target → Option Location) (t : Tuple)
    (targets : List Target) : Bool :=
  targets.all fun target => (resolve target).all fun l => isMet n p target (t.get l)

variable {n : Nat}

theorem checkTargets_clears (p : Predicate) (resolve : Target → Option Location)
    (returning : Bool) (span : Span) {t : Tuple} (below : t.IsBelow n) (targets : List Target) :
    Ensures (Supply.Reached n) (checkTargets p resolve returning span t targets)
      fun result s => result.isOk = (targets.all fun target => (resolve target).all fun l =>
        (t.get l).isBottom || isMet n p target (t.get l)) ∧ s.Reached n := by
  induction targets with
  | nil => exact .pure fun s reached => ⟨rfl, reached⟩
  | cons target rest ih =>
      simp only [List.all_cons]
      unfold checkTargets
      cases resolve target with
      | none => simpa using ih
      | some l =>
          simp only [Option.all_some]
          split
          · next unreached => simpa [unreached] using ih
          · next reachable =>
              simp only [reachable, Bool.false_or]
              refine (ensures_of_decides (below l)
                (checkTarget_decides p target returning span (t.get l))).bind fun result => ?_
              cases result with
              | ok done =>
                  intro s decided
                  rw [← decided.1]
                  exact ih s decided.2
              | error d =>
                  intro s decided
                  rw [← decided.1]
                  exact ⟨rfl, decided.2⟩

theorem checkTargets_decides {p : Predicate} (coherent : p.Coherent)
    (resolve : Target → Option Location) (returning : Bool) (span : Span) {t : Tuple}
    (below : t.IsBelow n) (targets : List Target) :
    Ensures (Supply.Reached n) (checkTargets p resolve returning span t targets)
      fun result s => result.isOk = allMet n p resolve t targets ∧ s.Reached n := by
  have met (target : Target) (l : Location) :
      ((t.get l).isBottom || isMet n p target (t.get l)) = isMet n p target (t.get l) := by
    cases t.get l with
    | bottom => rw [isMet_bottom n coherent target, Bool.or_true]
    | held h => rfl
  have cleared := checkTargets_clears p resolve returning span below targets
  simp only [met] at cleared
  exact cleared

theorem requireTargets_decides (call : Call) (case : MethodCase) {t : Tuple}
    (below : t.IsBelow n) (targets : List Target)
    (distinct : (targets.filterMap call.resolve).Nodup) {taken : Tuple}
    (same : ∀ l ∈ targets.filterMap call.resolve, taken.get l = t.get l) :
    Ensures (Supply.Reached n) (requireTargets call case taken targets)
      fun result s => result.isSome = allMet n case.pre call.resolve t targets ∧ s.Reached n := by
  induction targets generalizing taken with
  | nil => exact .pure fun s reached => ⟨rfl, reached⟩
  | cons target rest ih =>
      simp only [allMet, List.all_cons] at ih ⊢
      unfold requireTargets
      cases resolved : call.resolve target with
      | none =>
          have skipped : requireTarget call case taken target = pure (some taken) := by
            simp [requireTarget, resolved]
          rw [List.filterMap_cons_none resolved] at distinct same
          simpa [skipped] using ih distinct same
      | some l =>
          rw [List.filterMap_cons_some resolved] at distinct same
          have here := same l (by simp)
          have decides := requireTarget_decides call case taken resolved
          rw [here] at decides
          refine (ensures_of_decides (below l) decides).bind fun result => ?_
          simp only [Option.all_some]
          cases result with
          | none =>
              intro s decided
              rw [← decided.1.1]
              exact ⟨rfl, decided.2⟩
          | some next =>
              intro s decided
              rw [← decided.1.1]
              refine ih (List.nodup_cons.mp distinct).2 (fun other member => ?_) s decided.2
              -- Later targets have other locations, so what is held there is still what `t` holds.
              have apart : other ≠ l := fun equal =>
                (List.nodup_cons.mp distinct).1 (equal ▸ member)
              rw [decided.1.2 next rfl other apart]
              exact same other (List.mem_cons_of_mem _ member)

theorem ensureTargets_succeeds (call : Call) {case : MethodCase} (coherent : case.post.Coherent)
    (t : Tuple) (targets : List Target) :
    Ensures (Supply.Reached n) (ensureTargets call case t targets)
      fun result s => result.isSome = true ∧ s.Reached n := by
  induction targets generalizing t with
  | nil => exact .pure fun s reached => ⟨rfl, reached⟩
  | cons target rest ih =>
      have one : Ensures (Supply.Reached n) (ensureTarget call case t target)
          fun result s => result.isSome = true ∧ s.Reached n := by
        unfold ensureTarget
        cases call.resolve target with
        | none => exact .pure fun s reached => ⟨rfl, reached⟩
        | some l =>
            intro s reached
            obtain ⟨request, next, requested⟩ := coherent.requested target s
            have kept := case.post.requests_keeps target false s reached
            rw [requested] at kept
            simp only [StateT.run_bind, requested]
            cases request with
            | none => exact ⟨rfl, kept⟩
            | some request => exact ⟨rfl, (t.get l).merge_keeps request next kept⟩
      refine one.bind fun result => ?_
      cases result with
      | none => exact fun s impossible => by simp at impossible
      | some next => exact fun s given => ih next s given.2

end Flow

end Typestate
