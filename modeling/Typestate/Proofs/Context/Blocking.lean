import Typestate.Proofs.Context.Reachability
import Typestate.Proofs.Permission.Growth

set_option autoImplicit false

/-!
Contexts some of whose tensors a check refuses. A choice passes the check if one of its elements
does, but there is no way on from it if one of its elements is never reached.
-/

namespace Typestate

namespace Context

mutual

/-- Whether a check passes that decides each tensor by the given test. -/
def passes (accepts : Tuple → Bool) : Context → Bool
  | .stuck _ | .packFailed _ _ => false
  | .unreachable _ => true
  | .tensor t _ => accepts t
  | .choice es => anyPasses accepts es
  | .all es => allPass accepts es

def anyPasses (accepts : Tuple → Bool) : List Context → Bool
  | [] => false
  | e :: es => e.passes accepts || anyPasses accepts es

def allPass (accepts : Tuple → Bool) : List Context → Bool
  | [] => true
  | e :: es => e.passes accepts && allPass accepts es

end

mutual

/-- Whether a point is never reached if no tensor is that the given test refuses. -/
def blocked (accepts : Tuple → Bool) : Context → Bool
  | .stuck _ | .packFailed _ _ => false
  | .unreachable _ => true
  | .tensor t _ => !accepts t
  | .choice es => anyBlocked accepts es
  | .all es => allBlocked accepts es

def anyBlocked (accepts : Tuple → Bool) : List Context → Bool
  | [] => false
  | e :: es => e.blocked accepts || anyBlocked accepts es

def allBlocked (accepts : Tuple → Bool) : List Context → Bool
  | [] => true
  | e :: es => e.blocked accepts && allBlocked accepts es

end

mutual

def everyChoice (property : Context → Bool) : Context → Bool
  | .choice es => es.all property && everyChoiceIn property es
  | .all es => everyChoiceIn property es
  | _ => true

def everyChoiceIn (property : Context → Bool) : List Context → Bool
  | [] => true
  | e :: es => e.everyChoice property && everyChoiceIn property es

end

mutual

def tuples : Context → List Tuple
  | .tensor t _ => [t]
  | .choice es | .all es => tuplesIn es
  | _ => []

def tuplesIn : List Context → List Tuple
  | [] => []
  | e :: es => e.tuples ++ tuplesIn es

end

theorem mem_tuplesIn {es : List Context} {e : Context} (member : e ∈ es) {t : Tuple}
    (among : t ∈ e.tuples) : t ∈ tuplesIn es := by
  induction member with
  | head => exact List.mem_append_left _ among
  | tail _ _ ih => exact List.mem_append_right _ ih

section Choices

variable {good : Tuple → Prop} {property other : Context → Bool}

mutual

theorem everyChoice_mono
    (implies : ∀ e : Context, (∀ t ∈ e.tuples, good t) → property e = true → other e = true) :
    ∀ c : Context, (∀ t ∈ c.tuples, good t) → c.everyChoice property = true →
      c.everyChoice other = true
  | .stuck _, _, _ | .packFailed _ _, _, _ | .unreachable _, _, _ | .tensor _ _, _, _ => rfl
  | .choice es, inside, holds => by
      rw [everyChoice, Bool.and_eq_true, List.all_eq_true] at holds ⊢
      refine ⟨fun e member => implies e (fun t among => inside t ?_) (holds.1 e member),
        everyChoiceIn_mono implies es inside holds.2⟩
      exact mem_tuplesIn member among
  | .all es, inside, holds => everyChoiceIn_mono implies es inside holds

theorem everyChoiceIn_mono
    (implies : ∀ e : Context, (∀ t ∈ e.tuples, good t) → property e = true → other e = true) :
    ∀ es : List Context, (∀ t ∈ tuplesIn es, good t) → everyChoiceIn property es = true →
      everyChoiceIn other es = true
  | [], _, _ => rfl
  | e :: es, inside, holds => by
      rw [everyChoiceIn, Bool.and_eq_true] at holds ⊢
      exact ⟨everyChoice_mono implies e (fun t member => inside t (List.mem_append_left _ member))
          holds.1,
        everyChoiceIn_mono implies es (fun t member => inside t (List.mem_append_right _ member))
          holds.2⟩

end

end Choices

section Blocking

variable {accepts : Tuple → Bool}

mutual

theorem blocked_eq_false_of_passes : ∀ c : Context, c.passes accepts = true →
    c.everyChoice (passes accepts) = true → c.isUnreachable = false → c.blocked accepts = false
  | .stuck _, passed, _, _ | .packFailed _ _, passed, _, _ => by simp [passes] at passed
  | .unreachable _, _, _, possible => by simp [isUnreachable] at possible
  | .tensor t _, passed, _, _ => by simpa [passes, blocked] using passed
  | .choice es, _, uniform, possible => by
      rw [everyChoice, Bool.and_eq_true, List.all_eq_true] at uniform
      exact anyBlocked_eq_false_of_passes es uniform.1 uniform.2 possible
  | .all es, passed, uniform, possible =>
      allBlocked_eq_false_of_passes es passed uniform possible

theorem anyBlocked_eq_false_of_passes : ∀ es : List Context,
    (∀ e ∈ es, e.passes accepts = true) → everyChoiceIn (passes accepts) es = true →
      anyUnreachable es = false → anyBlocked accepts es = false
  | [], _, _, _ => rfl
  | e :: es, passed, uniform, possible => by
      rw [everyChoiceIn, Bool.and_eq_true] at uniform
      rw [anyUnreachable, Bool.or_eq_false_iff] at possible
      rw [anyBlocked, Bool.or_eq_false_iff]
      exact ⟨blocked_eq_false_of_passes e (passed e (by simp)) uniform.1 possible.1,
        anyBlocked_eq_false_of_passes es
          (fun other member => passed other (List.mem_cons_of_mem _ member)) uniform.2 possible.2⟩

theorem allBlocked_eq_false_of_passes : ∀ es : List Context, allPass accepts es = true →
    everyChoiceIn (passes accepts) es = true → allUnreachable es = false →
      allBlocked accepts es = false
  | [], _, _, possible => by simp [allUnreachable] at possible
  | e :: es, passed, uniform, possible => by
      rw [allPass, Bool.and_eq_true] at passed
      rw [everyChoiceIn, Bool.and_eq_true] at uniform
      rw [allUnreachable, Bool.and_eq_false_iff] at possible
      rw [allBlocked, Bool.and_eq_false_iff]
      rcases possible with possible | possible
      · exact .inl (blocked_eq_false_of_passes e passed.1 uniform.1 possible)
      · exact .inr (allBlocked_eq_false_of_passes es passed.2 uniform.2 possible)

end

end Blocking

section Checking

variable {n : Nat} {accepts : Tuple → Bool} {f : Tuple → Branch → SupplyM CheckResult}

/-- A check of one tensor that decides it by a test. -/
def DecidesBy (n : Nat) (accepts : Tuple → Bool) (f : Tuple → Branch → SupplyM CheckResult)
    (t : Tuple) : Prop :=
  ∀ b, Ensures (Supply.Reached n) (f t b) fun result s => result.isOk = accepts t ∧ s.Reached n

mutual

theorem check_decides : ∀ c : Context, (∀ t ∈ c.tuples, DecidesBy n accepts f t) →
    Ensures (Supply.Reached n) (c.check f)
      fun result s => result.isOk = c.passes accepts ∧ s.Reached n
  | .stuck _, _ | .packFailed _ _, _ | .unreachable _, _ => fun _ reached => ⟨rfl, reached⟩
  | .tensor t b, each => each t (by simp [tuples]) b
  | .choice es, each => by
      refine (checkAny_decides es each).bind fun result => ?_
      intro s decided
      match result with
      | none => exact ⟨decided.1, decided.2⟩
      | some [] => exact ⟨decided.1, decided.2⟩
      | some (_ :: _) => exact ⟨decided.1, decided.2⟩
  | .all es, each => by
      refine (checkAll_decides es each).bind fun result => ?_
      intro s decided
      match result with
      | [] => exact ⟨decided.1, decided.2⟩
      | _ :: _ => exact ⟨decided.1, decided.2⟩

theorem checkAny_decides : ∀ es : List Context, (∀ t ∈ tuplesIn es, DecidesBy n accepts f t) →
    Ensures (Supply.Reached n) (checkAny f es)
      fun result s => result.isNone = anyPasses accepts es ∧ s.Reached n
  | [], _ => fun _ reached => ⟨rfl, reached⟩
  | e :: es, each => by
      refine (check_decides e fun t member => each t (List.mem_append_left _ member)).bind
        fun result => ?_
      intro s decided
      rw [anyPasses, ← decided.1]
      cases result with
      | ok done => exact ⟨rfl, decided.2⟩
      | error d =>
          -- A refused element leaves the decision to the others, with the supply moved on.
          have rest := checkAny_decides es (fun t member => each t (List.mem_append_right _ member))
            s decided.2
          refine ⟨?_, rest.2⟩
          rw [← rest.1]
          exact Option.isNone_map

theorem checkAll_decides : ∀ es : List Context, (∀ t ∈ tuplesIn es, DecidesBy n accepts f t) →
    Ensures (Supply.Reached n) (checkAll f es)
      fun result s => result.isEmpty = allPass accepts es ∧ s.Reached n
  | [], _ => fun _ reached => ⟨rfl, reached⟩
  | e :: es, each => by
      refine (check_decides e fun t member => each t (List.mem_append_left _ member)).bind
        fun result => ?_
      intro s decided
      have rest := checkAll_decides es (fun t member => each t (List.mem_append_right _ member))
        s decided.2
      rw [allPass, ← decided.1]
      cases result with
      | ok done => exact rest
      | error d => exact ⟨rfl, rest.2⟩

end

end Checking

end Context

end Typestate
