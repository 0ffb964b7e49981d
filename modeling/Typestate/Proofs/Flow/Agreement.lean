import Typestate.Proofs.Flow.CallReachability

set_option autoImplicit false

/-!
Checking a call against making it. The check looks at each target of the precondition by itself, in
the tuple as it was; the call takes the permissions of one target after the other away. So the two
agree if no two targets stand for one location, and otherwise the check can pass a call that has to
give one permission away twice.
-/

namespace Typestate

namespace Flow

variable {n : Nat} {call : Call} {case : MethodCase} {t : Tuple}

section Single

theorem checkCall_single (single : call.method.otherCases = []) (t : Tuple) (b : Branch)
    (supply : Supply) :
    ((checkCall call (.tensor t b)).run supply).1.isOk =
      ((checkPredicate call.method.firstCase.pre call.resolve false call.span t).run
        supply).1.isOk := by
  have cases : call.method.cases = [call.method.firstCase] := by
    rw [Method.cases, single]
  simp only [checkCall, Context.check, cases, checkCases, StateT.run_bind]
  generalize (checkPredicate call.method.firstCase.pre call.resolve false call.span t).run supply =
    result
  obtain ⟨verdict, rest⟩ := result
  cases verdict <;> rfl

theorem applyCase_isStuck (possible : case.pre.isVoid = false) (post : case.post.Coherent)
    (t : Tuple) (b : Branch) (supply : Supply) :
    ((applyCase call case t b).run supply).1.isStuck =
      ((requireTargets call case t case.pre.targets).run supply).1.isNone := by
  simp only [applyCase, possible, post.notVoid, Bool.false_eq_true, if_false, StateT.run_bind]
  generalize (requireTargets call case t case.pre.targets).run supply = result
  obtain ⟨taken, middle⟩ := result
  cases taken with
  | none => rfl
  | some taken => exact (ensured_goes_on call post taken b middle (Nat.zero_le _)).1

end Single

section Taking

theorem requireTargets_cons (call : Call) (case : MethodCase) (t : Tuple) (target : Target)
    (rest : List Target) (supply : Supply) :
    (requireTargets call case t (target :: rest)).run supply =
      match (requireTarget call case t target).run supply with
      | (some next, middle) => (requireTargets call case next rest).run middle
      | (none, middle) => (none, middle) := by
  simp only [requireTargets, StateT.run_bind]
  generalize (requireTarget call case t target).run supply = result
  obtain ⟨next, middle⟩ := result
  cases next <;> rfl

theorem requireTarget_of_none {target : Target} (free : call.resolve target = none)
    (case : MethodCase) (t : Tuple) : requireTarget call case t target = pure (some t) := by
  simp [requireTarget, free]

theorem requireTarget_keeps (call : Call) (case : MethodCase) (t : Tuple) (target : Target) :
    Keeps (Supply.Reached n) (requireTarget call case t target) := by
  cases resolved : call.resolve target with
  | none =>
      rw [requireTarget_of_none resolved]
      exact .pure _
  | some l =>
      intro s reached
      rw [(requireTarget_decides call case t resolved s s rfl).2]
      exact meets_keeps case.pre target (t.get l) s reached

theorem requireTargets_keeps (call : Call) (case : MethodCase) (t : Tuple)
    (targets : List Target) : Keeps (Supply.Reached n) (requireTargets call case t targets) := by
  induction targets generalizing t with
  | nil => exact .pure _
  | cons target rest ih =>
      refine (requireTarget_keeps call case t target).bind fun next => ?_
      cases next with
      | none => exact .pure _
      | some next => exact ih next

theorem requireTarget_frame {target : Target} {supply middle : Supply} {next : Tuple}
    (taken : (requireTarget call case t target).run supply = (some next, middle)) {l : Location}
    (apart : call.resolve target ≠ some l) : next.get l = t.get l := by
  cases resolved : call.resolve target with
  | none =>
      rw [requireTarget_of_none resolved] at taken
      rw [Option.some.inj (congrArg Prod.fst taken)]
  | some own =>
      have decides := (requireTarget_decides call case t resolved supply supply rfl).1
      rw [taken] at decides
      exact decides.2 next rfl l fun same => apart (by rw [resolved, same])

theorem requireTargets_frame {targets : List Target} {supply last : Supply} {taken : Tuple}
    (ran : (requireTargets call case t targets).run supply = (some taken, last)) {l : Location}
    (apart : ∀ target ∈ targets, call.resolve target ≠ some l) : taken.get l = t.get l := by
  induction targets generalizing t supply with
  | nil => rw [Option.some.inj (congrArg Prod.fst ran)]
  | cons target rest ih =>
      rw [requireTargets_cons] at ran
      cases first : (requireTarget call case t target).run supply with
      | mk next middle =>
          rw [first] at ran
          cases next with
          | none => cases congrArg Prod.fst ran
          | some next =>
              rw [ih ran fun other member => apart other (List.mem_cons_of_mem _ member)]
              exact requireTarget_frame first (apart target List.mem_cons_self)

/-- The targets before this one can be served, and what they leave at its location is too little
for it. -/
structure Unserved (call : Call) (case : MethodCase) (t : Tuple) (supply : Supply)
    (before : List Target) (target : Target) (l : Location) : Prop where
  stands : call.resolve target = some l
  refused : ∃ taken next, (requireTargets call case t before).run supply = (some taken, next) ∧
    ((meets case.pre target (taken.get l)).run next).1 = false

theorem requireTarget_eq_none_iff (call : Call) (case : MethodCase) (t : Tuple) (target : Target)
    (supply : Supply) :
    ((requireTarget call case t target).run supply).1 = none ↔
      ∃ l, Unserved call case t supply [] target l := by
  cases resolved : call.resolve target with
  | none =>
      rw [requireTarget_of_none resolved]
      refine ⟨nofun, fun ⟨l, unserved⟩ => ?_⟩
      rw [unserved.stands] at resolved
      cases resolved
  | some l =>
      have decides := (requireTarget_decides call case t resolved supply supply rfl).1.1
      constructor
      · intro failed
        rw [failed] at decides
        exact ⟨l, resolved, t, supply, rfl, decides.symm⟩
      · rintro ⟨own, stands, taken, next, ran, refused⟩
        obtain ⟨same, start⟩ := Prod.mk.inj ran
        rw [resolved] at stands
        rw [← Option.some.inj stands, ← Option.some.inj same, ← start] at refused
        rw [refused] at decides
        simpa using decides

theorem requireTargets_eq_none_iff (call : Call) (case : MethodCase) (t : Tuple)
    (targets : List Target) (supply : Supply) :
    ((requireTargets call case t targets).run supply).1 = none ↔
      ∃ before target after l, targets = before ++ target :: after ∧
        Unserved call case t supply before target l := by
  induction targets generalizing t supply with
  | nil =>
      refine ⟨nofun, fun ⟨before, target, after, l, shape, _⟩ => ?_⟩
      simp at shape
  | cons target rest ih =>
      rw [requireTargets_cons]
      cases first : (requireTarget call case t target).run supply with
      | mk next middle =>
      cases next with
      | none =>
          have failed : ((requireTarget call case t target).run supply).1 = none := by rw [first]
          obtain ⟨l, unserved⟩ := (requireTarget_eq_none_iff call case t target supply).mp failed
          exact ⟨fun _ => ⟨[], target, rest, l, rfl, unserved⟩, fun _ => rfl⟩
      | some next =>
          -- The first target is served, so one that is not comes later, and sees what is left.
          rw [ih]
          constructor
          · rintro ⟨before, failing, after, l, shape, unserved⟩
            refine ⟨target :: before, failing, after, l, by rw [shape]; rfl, unserved.stands, ?_⟩
            rw [requireTargets_cons, first]
            exact unserved.refused
          · rintro ⟨before, failing, after, l, shape, unserved⟩
            cases before with
            | nil =>
                obtain ⟨rfl, -⟩ := List.cons.inj shape
                have failed := (requireTarget_eq_none_iff call case t target supply).mpr
                  ⟨l, unserved⟩
                rw [first] at failed
                cases failed
            | cons head before =>
                obtain ⟨rfl, tail⟩ := List.cons.inj shape
                have refused := unserved.refused
                rw [requireTargets_cons, first] at refused
                exact ⟨before, failing, after, l, tail, unserved.stands, refused⟩

end Taking

section Comparison

/-- What the check has to see to for a target that it passes: that nothing can be held at its
location, or that what is held there is enough. -/
theorem cleared_of_check (single : call.method.otherCases = []) (below : t.IsBelow n) {b : Branch}
    {supply : Supply} (reached : supply.Reached n)
    (passed : ((checkCall call (.tensor t b)).run supply).1.isOk = true) {target : Target}
    (member : target ∈ call.method.firstCase.pre.targets) {l : Location}
    (stands : call.resolve target = some l) :
    (t.get l).isBottom = true ∨ isMet n call.method.firstCase.pre target (t.get l) = true := by
  rw [checkCall_single single, checkPredicate,
    (checkTargets_clears call.method.firstCase.pre call.resolve false call.span below
      call.method.firstCase.pre.targets supply reached).1, List.all_eq_true] at passed
  have cleared := passed target member
  rw [stands, Option.all_some, Bool.or_eq_true] at cleared
  exact cleared

theorem unserved_of_refused (single : call.method.otherCases = []) (below : t.IsBelow n)
    {b : Branch} {checking applying : Supply} (checked : checking.Reached n)
    (applied : applying.Reached n)
    (passed : ((checkCall call (.tensor t b)).run checking).1.isOk = true)
    {before after : List Target} {target : Target} {l : Location}
    (shape : call.method.firstCase.pre.targets = before ++ target :: after)
    (unserved : Unserved call call.method.firstCase t applying before target l) :
    (∃ earlier ∈ before, call.resolve earlier = some l) ∨
      (t.get l).isBottom = true ∧ ∃ supply,
        ((call.method.firstCase.pre.requests target false).run supply).1.isOk = false := by
  obtain ⟨stands, taken, next, ran, refused⟩ := unserved
  by_cases shared : ∃ earlier ∈ before, call.resolve earlier = some l
  · exact .inl shared
  · right
    have same : taken.get l = t.get l := requireTargets_frame ran fun earlier member equal =>
      shared ⟨earlier, member, equal⟩
    have reached : next.Reached n := by
      have kept := requireTargets_keeps call call.method.firstCase t before applying applied
      rw [ran] at kept
      exact kept
    rw [same] at refused
    rcases cleared_of_check single below checked passed (by simp [shape]) stands with
      unreached | met
    · refine ⟨unreached, next, ?_⟩
      cases held : t.get l with
      | held h => simp [held, Holding.isBottom] at unreached
      | bottom => rw [← meets_bottom, ← held, refused]
    · -- The check decided from another supply, but alike.
      rw [meets_stable _ target (below l) reached (Nat.le_refl n)] at refused
      rw [isMet, refused] at met
      cases met

theorem requireTargets_isSome_eq_check (single : call.method.otherCases = [])
    (pre : call.method.firstCase.pre.Coherent)
    (distinct : (call.method.firstCase.pre.targets.filterMap call.resolve).Nodup)
    (below : t.IsBelow n) (b : Branch) {checking applying : Supply}
    (checked : checking.Reached n) (applied : applying.Reached n) :
    ((requireTargets call call.method.firstCase t call.method.firstCase.pre.targets).run
        applying).1.isSome =
      ((checkCall call (.tensor t b)).run checking).1.isOk := by
  -- Both come to the decision that a supply right behind the tuple's fractions would lead to.
  rw [(requireTargets_decides call call.method.firstCase below
      call.method.firstCase.pre.targets distinct (fun _ _ => rfl) applying applied).1,
    checkCall_single single, checkPredicate,
    (checkTargets_decides pre call.resolve false call.span below
      call.method.firstCase.pre.targets checking checked).1]

/-- Check and call agree: a call without shared locations is refused exactly if its check fails,
wherever the two supplies stand. -/
theorem applyCase_isStuck_iff_check_fails (single : call.method.otherCases = [])
    (pre : call.method.firstCase.pre.Coherent) (post : call.method.firstCase.post.Coherent)
    (distinct : (call.method.firstCase.pre.targets.filterMap call.resolve).Nodup)
    (below : t.IsBelow n) (b : Branch) {checking applying : Supply}
    (checked : checking.Reached n) (applied : applying.Reached n) :
    ((applyCase call call.method.firstCase t b).run applying).1.isStuck = true ↔
      ((checkCall call (.tensor t b)).run checking).1.isOk = false := by
  rw [applyCase_isStuck pre.notVoid post,
    ← requireTargets_isSome_eq_check single pre distinct below b checked applied,
    Option.isSome_eq_false_iff]

/-- A call that passes its check is refused all the same exactly if its precondition never holds or
a target goes unserved; such a target shares its location with an earlier one, or it asks for
permissions that cannot be held together where nothing is held. -/
theorem refused_despite_check_iff (single : call.method.otherCases = [])
    (post : call.method.firstCase.post.Coherent) (below : t.IsBelow n) (b : Branch)
    {checking applying : Supply} (checked : checking.Reached n) (applied : applying.Reached n)
    (passed : ((checkCall call (.tensor t b)).run checking).1.isOk = true) :
    let case := call.method.firstCase
    let stuck := ((applyCase call case t b).run applying).1.isStuck
    (stuck = true ↔ case.pre.isVoid = true ∨
      ∃ before target after l, case.pre.targets = before ++ target :: after ∧
        Unserved call case t applying before target l ∧
        ((∃ earlier ∈ before, call.resolve earlier = some l) ∨
          (t.get l).isBottom = true ∧ ∃ supply,
            ((case.pre.requests target false).run supply).1.isOk = false)) ∧
    (case.pre.Coherent → (case.pre.targets.filterMap call.resolve).Nodup → stuck = false) := by
  intro case stuck
  constructor
  · cases void : case.pre.isVoid with
    | true =>
        have refused : stuck = true := by
          simp only [stuck, applyCase, void, if_true]
          rfl
        simp only [refused, true_or]
    | false =>
        rw [show stuck = _ from applyCase_isStuck void post t b applying, Option.isNone_iff_eq_none,
          requireTargets_eq_none_iff]
        simp only [Bool.false_eq_true, false_or]
        refine exists_congr fun before => exists_congr fun target => exists_congr fun after =>
          exists_congr fun l => and_congr_right fun shape => ?_
        exact ⟨fun unserved => ⟨unserved, unserved_of_refused single below checked applied passed
          shape unserved⟩, And.left⟩
  · intro pre distinct
    have served := requireTargets_isSome_eq_check single pre distinct below b checked applied
    rw [passed] at served
    rw [show stuck = _ from applyCase_isStuck pre.notVoid post t b applying,
      Option.isNone_eq_false_iff]
    exact served

end Comparison

end Flow

namespace Flow.Socket

def asking (kind : Kind) (i : Nat) : Clause := ⟨Target.argument i, space, ⟨kind, alive, [], false⟩⟩

/-- A method that gives nothing back, called with the given arguments. -/
def taking (pre : Predicate) (arguments : List Location) : Call :=
  { (default : Call) with
    method := ⟨"take", ⟨pre, .trivial, false⟩, []⟩
    arguments }

/-- Two objects, each held whole. -/
def pair : Tuple := owned.set ⟨1⟩ (owned.get ⟨0⟩)

theorem pair_below : pair.IsBelow 0 := by
  intro l
  by_cases second : l = ⟨1⟩
  · have same : pair.get ⟨1⟩ = owned.get ⟨0⟩ := rfl
    rw [second, same]
    exact owned_below ⟨0⟩
  · rw [pair, Tuple.get_set_of_ne _ _ second]
    exact owned_below l

theorem trivial_coherent : Predicate.trivial.Coherent :=
  Predicate.coherent_of_distinct List.nodup_nil

end Flow.Socket

namespace Flow

open Socket

/-- Two objects are there for the taking, but not three: the call and its check see both. -/
theorem take_two_but_not_three :
    let two := taking (.clauses [asking .unique 0, asking .full 1]) [⟨0⟩, ⟨1⟩]
    let three := taking (.clauses [asking .unique 0, asking .full 1, asking .pure 2])
      [⟨0⟩, ⟨1⟩, ⟨2⟩]
    ((applyCase two two.method.firstCase pair .root).run ⟨0⟩).1.isStuck = false ∧
      ((applyCase three three.method.firstCase pair .root).run ⟨0⟩).1.isStuck = true := by
  intro two three
  have passed : ((checkCall two (.tensor pair .root)).run ⟨5⟩).1.isOk = true := by decide +kernel
  have failed : ((checkCall three (.tensor pair .root)).run ⟨5⟩).1.isOk = false := by
    decide +kernel
  constructor
  · rw [← Bool.not_eq_true, applyCase_isStuck_iff_check_fails rfl
      (Predicate.coherent_of_distinct (by decide)) trivial_coherent (by decide) pair_below .root
      (Nat.zero_le 5) (Nat.zero_le 0), passed]
    decide
  · exact (applyCase_isStuck_iff_check_fails rfl (Predicate.coherent_of_distinct (by decide))
      trivial_coherent (by decide) pair_below .root (Nat.zero_le 5) (Nat.zero_le 0)).mpr failed

/-- The check passes a precondition that never holds, one unique permission asked for twice, and two
overlapping permissions for what cannot be reached. -/
theorem check_passes_refused_calls :
    let lapses (pre : Predicate) (t : Tuple) : Prop :=
      let call := taking pre [⟨0⟩, ⟨0⟩]
      ((checkCall call (.tensor t .root)).run ⟨0⟩).1.isOk = true ∧
        ((applyCase call call.method.firstCase t .root).run ⟨0⟩).1.isStuck = true
    Predicate.trivial.Coherent ∧
      lapses .void owned ∧
      lapses (.clauses [asking .unique 0, asking .unique 1]) owned ∧
      lapses (.clauses [asking .unique 0, asking .unique 0]) (Tuple.empty.set ⟨0⟩ .bottom) :=
  ⟨trivial_coherent, ⟨by decide +kernel, by decide +kernel⟩,
    ⟨by decide +kernel, by decide +kernel⟩, by decide +kernel, by decide +kernel⟩

/-- The second argument is the first one again, and goes unserved. -/
theorem second_argument_unserved :
    let call := taking (.clauses [asking .unique 0, asking .unique 1]) [⟨0⟩, ⟨0⟩]
    let case := call.method.firstCase
    ((checkCall call (.tensor owned .root)).run ⟨3⟩).1.isOk = true ∧
      ∃ before target after l, case.pre.targets = before ++ target :: after ∧
        Unserved call case owned ⟨0⟩ before target l ∧
        ((∃ earlier ∈ before, call.resolve earlier = some l) ∨
          (owned.get l).isBottom = true ∧ ∃ supply,
            ((case.pre.requests target false).run supply).1.isOk = false) := by
  intro call case
  have passed : ((checkCall call (.tensor owned .root)).run ⟨3⟩).1.isOk = true := by
    decide +kernel
  have refused : ((applyCase call case owned .root).run ⟨0⟩).1.isStuck = true := by
    decide +kernel
  have unserved := (refused_despite_check_iff rfl trivial_coherent owned_below .root
    (Nat.zero_le 3) (Nat.zero_le 0) passed).1.mp refused
  exact ⟨passed, unserved.resolve_left (by decide)⟩

end Flow

end Typestate
