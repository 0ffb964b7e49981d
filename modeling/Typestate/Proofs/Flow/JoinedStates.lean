import Typestate.Flow.Check
import Typestate.Proofs.Context.Verdict
import Typestate.Proofs.Flow.Runs
import Typestate.Proofs.Holding.JoinedStates

set_option autoImplicit false

/-!
Joins of contexts invent no knowledge of states: a check of states that a join passes was passed on
both of the ways that meet in it.
-/

namespace Typestate

open Analysis

namespace Tuple

variable {S : Space} {a b : Tuple} {point : MergePoint}

theorem works_paired {ls : List Location} {works : List (Location × SupplyM Holding)}
    (ran : (ls.mapM fun l => do return (l, ← (a.get l).join (b.get l) point)) = .ok works) :
    List.Forall₂ (fun l entry => entry.1 = l ∧ (a.get l).join (b.get l) point = .ok entry.2)
      ls works := by
  induction ls generalizing works with
  | nil =>
    cases ran
    exact .nil
  | cons l rest ih =>
    rw [List.mapM_cons] at ran
    cases done : (a.get l).join (b.get l) point with
    | error fault => simp [done, bind, Except.bind] at ran
    | ok work =>
      cases others : rest.mapM (fun l => do return (l, ← (a.get l).join (b.get l) point)) with
      | error fault =>
        rw [done, others] at ran
        cases ran
      | ok later =>
        rw [done, others] at ran
        cases ran
        exact .cons ⟨rfl, done⟩ (ih others)

theorem fill_covers (works : List (Location × SupplyM Holding)) :
    Yields (fill works) fun m => ∀ entry ∈ works, m.get? entry.1 ≠ none := by
  induction works with
  | nil => exact .pure nofun
  | cons entry rest ih =>
    refine .after fun x => ih.bind fun m covered => .pure fun e member => ?_
    by_cases same : e.1 = entry.1
    · rw [same, SortedMap.get?_insert_self]
      exact nofun
    · rw [SortedMap.get?_insert_of_ne m x same]
      rcases List.mem_cons.mp member with rfl | later
      · exact absurd rfl same
      · exact covered e later

theorem get_of_not_listed {t : Tuple} {l : Location} (absent : l ∉ t.locations) :
    t.get l = .empty := by
  cases found : t.holdings.get? l with
  | none => rw [get, found, Option.getD_none]
  | some x => exact absurd (List.mem_map_of_mem (SortedMap.mem_of_get? found)) absent

theorem join_eq_ok {work : SupplyM Tuple} (done : a.join b point = .ok work) :
    ∃ works, ((allLocations a b).mapM fun l => do
        return (l, ← (a.get l).join (b.get l) point)) = .ok works ∧
      work = do
        let holdings ← fill works
        return ⟨holdings, a.receiver.or b.receiver, a.fields.union b.fields⟩ := by
  unfold Tuple.join at done
  cases ran : (allLocations a b).mapM
      (fun l => do return (l, ← (a.get l).join (b.get l) point)) with
  | error fault =>
    rw [ran] at done
    cases done
  | ok works =>
    rw [ran] at done
    cases done
    exact ⟨works, rfl, rfl⟩

theorem join_keeps_names {work : SupplyM Tuple} (done : a.join b point = .ok work) :
    Yields work fun u => u.receiver = a.receiver.or b.receiver ∧
      u.fields = a.fields.union b.fields := by
  obtain ⟨works, -, rfl⟩ := join_eq_ok done
  exact .after fun holdings => .pure ⟨rfl, rfl⟩

theorem join_get {work : SupplyM Tuple} (done : a.join b point = .ok work) (l : Location) :
    Yields work fun u => ∃ piece supply, (a.get l).join (b.get l) point = .ok piece ∧
      u.get l = (piece.run supply).1 := by
  obtain ⟨works, ran, rfl⟩ := join_eq_ok done
  have paired := works_paired ran
  have filled : Yields (fill works) fun m =>
      (∀ entry ∈ m.entries, ∃ piece supply,
        (a.get entry.1).join (b.get entry.1) point = .ok piece ∧
          entry.2 = (piece.run supply).1) ∧ ∀ entry ∈ works, m.get? entry.1 ≠ none := by
    intro supply
    refine ⟨fill_yields works (fun entry member supply => ?_) supply, fill_covers works supply⟩
    obtain ⟨_, -, rfl, piece⟩ := exists_left_of_forall₂ paired member
    exact ⟨entry.2, supply, piece, rfl⟩
  refine filled.bind fun holdings known => .pure ?_
  have held : Tuple.get ⟨holdings, a.receiver.or b.receiver, a.fields.union b.fields⟩ l =
      (holdings.get? l).getD .empty := rfl
  rw [held]
  cases found : holdings.get? l with
  | some x => exact known.1 (l, x) (SortedMap.mem_of_get? found)
  | none =>
    -- A location that neither side lists is held by the join as by both sides: not at all.
    have absent : l ∉ allLocations a b := by
      intro member
      obtain ⟨entry, listed, rfl, -⟩ := exists_right_of_forall₂ paired member
      exact known.2 entry listed found
    simp only [allLocations, List.mem_append, List.mem_filter, not_or, not_and] at absent
    have second : l ∉ b.locations := fun member =>
      absent.2 member (by simpa using absent.1)
    rw [get_of_not_listed absent.1, get_of_not_listed second]
    exact ⟨pure .empty, default, rfl, rfl⟩

theorem join_states (grown : S.Grown) {l : Location} (left : (a.get l).Live S)
    (right : (b.get l).Live S) {work : SupplyM Tuple} (done : a.join b point = .ok work) :
    Yields work fun u => (u.get l).KnowsAtMost (a.get l) ∧ (u.get l).KnowsAtMost (b.get l) := by
  intro supply
  obtain ⟨piece, start, joined, same⟩ := join_get done l supply
  rw [same]
  exact Holding.join_states grown left right joined start

end Tuple

namespace Context

mutual

/-- Whether there is an obligation to nothing, which every check passes. -/
def hasEmptyAll : Context → Bool
  | .choice es => anyEmptyAll es
  | .all es => es.isEmpty || anyEmptyAll es
  | _ => false

def anyEmptyAll : List Context → Bool
  | [] => false
  | e :: es => e.hasEmptyAll || anyEmptyAll es

end

theorem hasEmptyAll_node (j : Junction) (es : List Context) :
    (j.node es).hasEmptyAll = false ↔
      (j = .all → es ≠ []) ∧ ∀ e ∈ es, e.hasEmptyAll = false := by
  have inside : anyEmptyAll es = false ↔ ∀ e ∈ es, e.hasEmptyAll = false := by
    induction es with
    | nil => simp [anyEmptyAll]
    | cons e rest ih => simp [anyEmptyAll, ih]
  cases j with
  | choice => simpa [Junction.node, hasEmptyAll] using inside
  | all => simp [Junction.node, hasEmptyAll, inside]

/-- If each element that passes shows that one of another node passes, and something else besides,
then so does the whole node. -/
theorem accepted_of_paired {f : Tuple → Branch → CheckResult} {j : Junction}
    {es ds : List Context} {aside : Prop} (some : j = .all → es ≠ [])
    (paired : List.Forall₂ (fun e d => d.accepted f = true → e.accepted f = true ∧ aside) es ds)
    (passed : (j.node ds).accepted f = true) : (j.node es).accepted f = true ∧ aside := by
  cases j with
  | choice =>
    rw [Junction.node, accepted_choice, List.any_eq_true] at passed ⊢
    obtain ⟨d, member, passed⟩ := passed
    obtain ⟨e, inside, shows⟩ := exists_left_of_forall₂ paired member
    exact ⟨⟨e, inside, (shows passed).1⟩, (shows passed).2⟩
  | all =>
    rw [Junction.node, accepted_all, List.all_eq_true] at passed ⊢
    have each (e : Context) (member : e ∈ es) : e.accepted f = true ∧ aside := by
      obtain ⟨d, inside, shows⟩ := exists_right_of_forall₂ paired member
      exact shows (passed d inside)
    obtain ⟨e, member⟩ := List.exists_mem_of_ne_nil es (some rfl)
    exact ⟨fun e member => (each e member).1, (each e member).2⟩

theorem joinBranch_grows {tree : BranchTree} (a b : Branch) :
    Grows tree (joinBranch a b) fun _ _ => True := by
  refine .ite (fun _ => .pure fun _ _ => trivial) fun _ => ?_
  exact Grows.get.bind fun _ _ _ _ => (Grows.mint _ _).bind fun _ _ _ _ => .pure fun _ _ => trivial

section Joining

variable {tree : BranchTree} {point : MergePoint} {P : Tuple → Prop} {test : Tuple → CheckResult}
  (weakens : ∀ t u, P t → P u → ∀ work, t.join u point = .ok work →
    Yields work fun w => (test w).isOk = true → (test t).isOk = true ∧ (test u).isOk = true)

include weakens

theorem joinTensor_weakens {t : Tuple} (holds : P t) (b : Branch) {c : Context} (every : c.Every P)
    (obliged : c.hasEmptyAll = false) :
    Grows tree (joinTensor point t b c) fun _ d => d.accepted (fun t _ => test t) = true →
      c.accepted (fun t _ => test t) = true ∧ (test t).isOk = true := by
  induction c using leaf_induction generalizing tree with
  | stuck | packFailed => exact .pure fun _ _ => nofun
  | unreachable => exact .pure fun _ _ passed => ⟨rfl, passed⟩
  | tensor u d =>
    refine Grows.bind (.liftGuarded (weakens t u holds (every u List.mem_cons_self)))
      fun _ joined _ known => ?_
    exact (joinBranch_grows b d).bind fun _ branch _ _ =>
      .pure fun _ _ passed => (known passed).symm
  | node j es ih =>
    rw [every_node] at every
    obtain ⟨some, obliged⟩ := (hasEmptyAll_node j es).mp obliged
    rw [joinTensor_node]
    refine (Grows.mapM (fun _ => id) es fun e member =>
      ih e member (every e member) (obliged e member)).bind fun _ ds _ paired => ?_
    exact .pure fun _ _ => accepted_of_paired some paired

theorem join_weakens {c d : Context} (first : c.Every P) (second : d.Every P)
    (obligedC : c.hasEmptyAll = false) (obligedD : d.hasEmptyAll = false) :
    Grows tree (c.join point d) fun _ e => e.accepted (fun t _ => test t) = true →
      c.accepted (fun t _ => test t) = true ∧ d.accepted (fun t _ => test t) = true := by
  induction c using leaf_induction generalizing tree with
  | stuck | packFailed => exact .pure fun _ _ => nofun
  | unreachable => exact .pure fun _ _ passed => ⟨rfl, passed⟩
  | tensor t b =>
    exact (joinTensor_weakens weakens (first t List.mem_cons_self) b second obligedD).imp
      fun _ _ _ known passed => (known passed).symm
  | node j es ih =>
    rw [every_node] at first
    obtain ⟨some, obligedC⟩ := (hasEmptyAll_node j es).mp obligedC
    rw [join_node]
    split
    · exact .pure fun _ _ => nofun
    · exact .pure fun _ _ => nofun
    · exact .pure fun _ _ passed => ⟨passed, rfl⟩
    · refine (Grows.mapM (fun _ => id) es fun e member =>
        ih e member (first e member) (obligedC e member)).bind fun _ ds _ paired => ?_
      exact .pure fun _ _ => accepted_of_paired some paired

end Joining

end Context

theorem CheckResult.eq_ok_iff (r : CheckResult) : r = .ok () ↔ r.isOk = true := by
  cases r with
  | error d => exact ⟨nofun, nofun⟩
  | ok done => exact ⟨fun _ => rfl, fun _ => rfl⟩

namespace Flow

/-- The check of states for one tuple. -/
def testStates (l : Location) (states : List String) (inFrame : Bool) (span : Span) (t : Tuple) :
    CheckResult :=
  if (t.get l).isInStates states inFrame then .ok ()
  else .error (stateReport l.text "be in" states ((t.get l).stateInfo inFrame) span)

variable {l : Location} {states : List String} {inFrame : Bool} {span : Span}

theorem testStates_isOk (t : Tuple) :
    (testStates l states inFrame span t).isOk = (t.get l).isInStates states inFrame := by
  unfold testStates
  cases (t.get l).isInStates states inFrame <;> rfl

theorem checkStates_eq_ok_iff (c : Context) :
    checkStates l states inFrame span c = .ok () ↔
      c.accepted (fun t _ => testStates l states inFrame span t) = true := by
  have shape : checkStates l states inFrame span c =
      Id.run (c.check fun t _ => testStates l states inFrame span t) := by
    unfold checkStates testStates
    rfl
  rw [shape]
  exact CheckResult.eq_ok_iff _

/-- Whatever states a join is found to be in at a location, both of the contexts that it joins are
in them, as long as what they hold there can be met and is for one space. -/
theorem checkStates_of_join {S : Space} (built : S.Built) {c d joined : Context}
    (obligedC : c.hasEmptyAll = false) (obligedD : d.hasEmptyAll = false)
    (liveC : ∀ t ∈ c.tuples, (t.get l).Live S) (liveD : ∀ t ∈ d.tuples, (t.get l).Live S)
    {point : MergePoint} {session next : Session}
    (ran : (c.join point d).run.run session = (.ok joined, next))
    (passed : checkStates l states inFrame span joined = .ok ()) :
    checkStates l states inFrame span c = .ok () ∧
      checkStates l states inFrame span d = .ok () := by
  have weakens (t u : Tuple) (left : (t.get l).Live S) (right : (u.get l).Live S)
      (work : SupplyM Tuple) (done : t.join u point = .ok work) :
      Yields work fun w => (testStates l states inFrame span w).isOk = true →
        (testStates l states inFrame span t).isOk = true ∧
          (testStates l states inFrame span u).isOk = true := by
    intro supply
    obtain ⟨first, second⟩ := Tuple.join_states built.grown left right done supply
    simp only [testStates_isOk, Holding.isInStates, List.all_eq_true]
    exact fun known => ⟨fun s member => first s inFrame (known s member),
      fun s member => second s inFrame (known s member)⟩
  have grows : Grows session.branches (c.join point d) _ :=
    Context.join_weakens weakens liveC liveD obligedC obligedD
  rw [checkStates_eq_ok_iff] at passed ⊢
  rw [checkStates_eq_ok_iff]
  exact (grows.ran ran).2 joined rfl passed

def streamIn (state : String) : Tuple :=
  Tuple.empty.set ⟨0⟩
    (.held ⟨[.make (.constant Context.streams alive .one) false false [state]], [], none, .empty⟩)

theorem streamIn_live (state : String) :
    ((streamIn state).get ⟨0⟩).Live Context.streams := by
  rw [streamIn, Tuple.get_set_self]
  have possible : Constraints.empty.isUnsatisfiable = false := by decide +kernel
  refine ⟨possible, fun inFrame p member => ?_⟩
  cases inFrame with
  | false =>
    rw [List.mem_singleton.mp member]
    rfl
  | true => cases member

/-- A stream that is read on one way and idle on the other is open after both, and no longer known
to be read. -/
theorem checkStates_of_join_open :
    let c : Context := .all [.tensor (streamIn "reading") .root, .tensor (streamIn "reading") .root]
    let d : Context := .choice [.stuck .root, .tensor (streamIn "idle") .root]
    ∃ joined next, (c.join .branch d).run.run Session.new = (.ok joined, next) ∧
      checkStates ⟨0⟩ ["reading"] false default joined ≠ .ok () ∧
      checkStates ⟨0⟩ ["reading"] false default c = .ok () ∧
      checkStates ⟨0⟩ ["open"] false default joined = .ok () ∧
      checkStates ⟨0⟩ ["open"] false default c = .ok () ∧
      checkStates ⟨0⟩ ["open"] false default d = .ok () := by
  intro c d
  have runs : leadsTo (c.join .branch d) Session.new (fun joined _ =>
      !(checkStates ⟨0⟩ ["reading"] false default joined).isOk &&
        (checkStates ⟨0⟩ ["reading"] false default c).isOk &&
          (checkStates ⟨0⟩ ["open"] false default joined).isOk) = true := by
    decide +kernel
  obtain ⟨joined, next, ran, shows⟩ := exists_of_leadsTo runs
  simp only [Bool.and_eq_true, Bool.not_eq_true', ← CheckResult.eq_ok_iff] at shows
  obtain ⟨⟨unread, read⟩, opened⟩ := shows
  have built : Context.streams.Built :=
    ⟨_, .addDimension (.addDimension (.new _) _ _ _ _) _ _ _ _, rfl⟩
  have liveC : ∀ t ∈ c.tuples, (t.get ⟨0⟩).Live Context.streams := by
    intro t member
    simp only [c, Context.tuples, Context.tuplesIn, List.append_nil, List.singleton_append,
      List.mem_cons, List.not_mem_nil, or_false, or_self] at member
    exact member ▸ streamIn_live "reading"
  have liveD : ∀ t ∈ d.tuples, (t.get ⟨0⟩).Live Context.streams := by
    intro t member
    simp only [d, Context.tuples, Context.tuplesIn, List.append_nil, List.nil_append,
      List.mem_singleton] at member
    exact member ▸ streamIn_live "idle"
  refine ⟨joined, next, ran, fun passed => ?_, read, opened,
    checkStates_of_join built (by decide) (by decide) liveC liveD ran opened⟩
  rw [passed] at unread
  cases unread

end Flow

end Typestate
