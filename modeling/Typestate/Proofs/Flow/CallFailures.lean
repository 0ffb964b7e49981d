import Typestate.Proofs.Flow.CallReachability
import Typestate.Proofs.Tuple.Reaching

set_option autoImplicit false

/-!
Failures and calls. Getting a receiver ready may fail, and so may every case of a method, but a call
ends in a failure only where there was one before it: a tensor from which it cannot go through is
unreachable afterwards.
-/

namespace Typestate

open Analysis

namespace Context

theorem mapTensors_isStuck {f : Tuple → Branch → AnalysisM Context}
    (each : ∀ t b, Delivers (f t b) fun d => d.isStuck = false) (c : Context) :
    Delivers (c.mapTensors f) fun d => d.isStuck = c.isStuck := by
  induction c using leaf_induction with
  | stuck | packFailed | unreachable => exact .pure rfl
  | tensor t b => exact each t b
  | node j es ih =>
    rw [mapTensors_node]
    refine (Delivers.mapM_paired es ih).bind fun ds paired => .pure ?_
    exact isStuck_node_congr j paired

theorem mapTensors_returns {f : Tuple → Branch → AnalysisM Context}
    (each : ∀ t b, Delivers (f t b) fun _ => True) (c : Context) :
    Delivers (c.mapTensors f) fun _ => True := by
  have every : Delivers (c.mapTensors f) (Every fun _ => True) :=
    mapTensors_delivers (P := fun _ => True)
      (fun t b _ => (each t b).imp fun _ _ _ _ => trivial) fun _ _ => trivial
  exact every.imp fun _ _ => trivial

end Context

namespace Tuple

variable {t : Tuple} {r : Location} (c : ClassDecl) (b : Branch)

theorem Stands.unpackToReach_returns (stands : t.Stands r false) (root : String)
    (keepPacked : Bool) : Delivers (t.unpackToReach c b root keepPacked) fun _ => True := by
  cases reached : (t.get r).isBottom with
  | true =>
    unfold Tuple.unpackToReach
    rw [stands.receiver]
    simp only [reached, if_true]
    exact .pure trivial
  | false =>
    rw [stands.unpackToReach_eq c b reached]
    refine (Delivers.mapM_paired _ fun n _ => stands.unpackReceiver c n).bind fun tuples _ => ?_
    exact (Context.ofTuples_delivers (P := fun _ => True) b "unpack" fun _ _ => trivial).imp
      fun _ _ => trivial

theorem wrangle_returns (receiver : t.receiver = some r) (needed : List String)
    (needNotPack : Bool) : Delivers (t.wrangle c b needed needNotPack) fun _ => True := by
  by_cases asked : needed = []
  · rw [asked]
    exact (wrangle_nothing c b receiver needNotPack).imp fun _ _ => trivial
  · exact (wrangle_ready c b receiver asked needNotPack).imp fun _ _ => trivial

end Tuple

namespace Flow

theorem prepareReceiver_returns (c : Option ClassDecl) (call : Call) (t : Tuple) (b : Branch) :
    Delivers (prepareReceiver c call t b) fun _ => True := by
  unfold prepareReceiver
  split
  · next c r receiver =>
    refine .ite (fun _ => .ite (fun _ => .pure trivial) fun packed => ?_) fun _ => ?_
    · -- Unpacking breaks a contract only if the receiver is unpacked already.
      have stands : t.Stands r false := by
        refine ⟨receiver, ?_⟩
        simpa [Tuple.isReceiverUnpacked, Tuple.unpacked?, receiver, Holding.isUnpacked] using packed
      exact stands.unpackToReach_returns c b alive true
    · split
      · exact .pure trivial
      · refine Delivers.options.bind fun _ _ => .ite (fun _ => .pure trivial) fun _ => ?_
        exact Tuple.wrangle_returns c b receiver _ false
  · exact .pure trivial

theorem applyCases_returns (call : Call) (t : Tuple) (b : Branch) :
    Delivers (applyCases call t b) fun _ => True := by
  have one (case : MethodCase) : Delivers (do
      let branch ← freshBranch b "case"
      liftSupply (applyCase call case t branch)) fun _ => True :=
    (Delivers.freshBranch b "case").bind fun _ _ => .liftSupply (.any _)
  unfold applyCases
  split
  · exact .liftSupply (.any _)
  · exact (Delivers.mapM _ fun case _ => one case).bind fun _ _ => .pure trivial

theorem finishCall_delivers {work : AnalysisM Context} (b : Branch)
    (returns : Delivers work fun _ => True) :
    Delivers (do return finishCall b (← work)) fun d => d.isStuck = false :=
  returns.bind fun c _ => .pure (finishCall_agrees b c).2

theorem compact_delivers {work : AnalysisM Context} {c : Context}
    (delivers : Delivers work fun d => d.isStuck = c.isStuck) :
    Delivers (do return (← work).compact false) fun d => d.isStuck = c.isStuck :=
  delivers.bind fun d same => .pure (d.compact_agrees.1.trans same)

theorem methodCall_delivers (cls : Option ClassDecl) (call : Call) (c : Context) :
    Delivers (methodCall cls call c) fun d => d.isStuck = c.isStuck := by
  have each (t : Tuple) (b : Branch) : Delivers (do
      let prepared ← prepareReceiver cls call t b
      return finishCall b (← prepared.mapTensors (applyCases call))) fun d => d.isStuck = false :=
    (prepareReceiver_returns cls call t b).bind fun prepared _ =>
      finishCall_delivers b (prepared.mapTensors_returns (applyCases_returns call))
  exact (Delivers.log _).bind fun _ _ => compact_delivers (.indented (c.mapTensors_isStuck each))

theorem newObject_delivers (call : Call) (c : Context) :
    Delivers (newObject call c) fun d => d.isStuck = c.isStuck := by
  refine (Delivers.log _).bind fun _ _ => compact_delivers (c.mapTensors_isStuck fun t b => ?_)
  exact finishCall_delivers b (applyCases_returns _ t b)

theorem constructorCall_delivers (call : Call) (c : Context) :
    Delivers (constructorCall call c) fun d => d.isStuck = c.isStuck := by
  refine (Delivers.log _).bind fun _ _ => compact_delivers (c.mapTensors_isStuck fun t b => ?_)
  exact finishCall_delivers b (applyCases_returns _ t b)

/-- After a call of any kind a context is stuck exactly if it was stuck before. There is a result in
every session that keeps no log; with a log, only a text that is no atom stands in its way. -/
theorem call_stuck_iff (cls : Option ClassDecl) (call : Call) (c : Context) (session : Session) :
    ∀ work ∈ [methodCall cls call c, newObject call c, constructorCall call c],
      (∀ d next, work.run.run session = (.ok d, next) →
        (d.isStuck = true ↔ c.isStuck = true)) ∧
      (session.logging = false → ∃ d next, work.run.run session = (.ok d, next)) ∧
      ∀ fault next, work.run.run session = (.error fault, next) →
        ∃ text, fault = .invalidAtom text := by
  intro work member
  have delivers : Delivers work fun d => d.isStuck = c.isStuck := by
    simp only [List.mem_cons, List.not_mem_nil, or_false] at member
    rcases member with rfl | rfl | rfl
    · exact methodCall_delivers cls call c
    · exact newObject_delivers call c
    · exact constructorCall_delivers call c
  refine ⟨fun d next ran => ?_, fun quiet => ?_, fun fault next ran => delivers.fails ran⟩
  · rw [delivers.result ran]
  · obtain ⟨d, next, ran, -⟩ := delivers.returns quiet
    exact ⟨d, next, ran⟩

section Chains

open Tuple.Link

/-- The next link is missing, so the receiver cannot be packed for the call; what was stuck for
another reason stays so. -/
theorem call_stuck_iff_of_link :
    let call : Call := { (default : Call) with
      method := ⟨"use", ⟨.clauses [], .clauses [], false⟩, []⟩
      receiver := some ⟨0⟩ }
    let broken := Context.tensor (chain ⟨4⟩ ⟨2⟩) ⟨0, 2⟩
    let running : Context := .choice [.stuck ⟨0, 1⟩, broken]
    let failed : Context := .all [.stuck ⟨0, 1⟩, broken]
    leadsTo (prepareReceiver (some link) call (chain ⟨4⟩ ⟨2⟩) ⟨0, 2⟩) Session.new
        (fun prepared _ => prepared.isStuck) = true ∧
      (∃ d next, (methodCall (some link) call running).run.run Session.new = (.ok d, next) ∧
        d.isStuck = false) ∧
      ∃ d next, (methodCall (some link) call failed).run.run Session.new = (.ok d, next) ∧
        d.isStuck = true := by
  intro call broken running failed
  have decided (c : Context) := call_stuck_iff (some link) call c Session.new
    (methodCall (some link) call c) List.mem_cons_self
  refine ⟨by decide +kernel, ?_, ?_⟩
  · obtain ⟨d, next, ran⟩ := (decided running).2.1 rfl
    refine ⟨d, next, ran, ?_⟩
    rw [← Bool.not_eq_true, (decided running).1 d next ran]
    decide
  · obtain ⟨d, next, ran⟩ := (decided failed).2.1 rfl
    refine ⟨d, next, ran, ?_⟩
    rw [(decided failed).1 d next ran]
    decide

end Chains

end Flow

end Typestate
