import Typestate.Flow.State
import Typestate.Proofs.Flow.Packing
import Typestate.Space.Draft

set_option autoImplicit false

/-!
Whole runs of an analysis. Starting where a method or a constructor begins, no sequence of
operations unpacks anything but the receiver or breaks a contract. Only joining two ways on which
the receiver is unpacked differently is refused.
-/

namespace Typestate

open Analysis

namespace Tuple

variable {own : Option Location}

theorem fill_yields {P : Location × Holding → Prop} (works : List (Location × SupplyM Holding))
    (each : ∀ entry ∈ works, Yields entry.2 fun x => P (entry.1, x)) :
    Yields (fill works) fun m => ∀ entry ∈ m.entries, P entry := by
  induction works with
  | nil => exact .pure nofun
  | cons entry rest ih =>
      refine (each entry List.mem_cons_self).bind fun x first =>
        (ih fun e later => each e (List.mem_cons_of_mem _ later)).bind fun m others => .pure ?_
      intro e member
      rcases SortedMap.mem_insert member with rfl | old
      · exact first
      · exact others e old

theorem Sealed.joinEach {a b : Tuple} (first : a.Sealed own) (second : b.Sealed own)
    (point : MergePoint) (ls : List Location) :
    let joins : Except Fault (List (Location × SupplyM Holding)) :=
      ls.mapM fun l => do return (l, ← (a.get l).join (b.get l) point)
    joins = .error .joiningDifferentUnpacked ∨
      ∃ works, joins = .ok works ∧ ∀ entry ∈ works, Yields entry.2 fun x =>
        x.Laid ∧ (x.isUnpacked = true → own = some entry.1) := by
  induction ls with
  | nil => exact .inr ⟨[], rfl, nofun⟩
  | cons l rest ih =>
      obtain ⟨laidA, onlyA⟩ := first.get l
      obtain ⟨laidB, onlyB⟩ := second.get l
      dsimp only
      rw [List.mapM_cons]
      rcases laidA.join laidB point with different | ⟨work, done, honours⟩
      · exact .inl (by rw [different]; rfl)
      · rw [done]
        rcases ih with different | ⟨works, ran, known⟩
        · exact .inl (by rw [different]; rfl)
        · rw [ran]
          refine .inr ⟨(l, work) :: works, rfl, List.forall_mem_cons.mpr ⟨?_, known⟩⟩
          -- Both sides have one receiver, so it does not matter on which of them this is unpacked.
          exact fun supply => (honours.yields supply).imp_right fun opened unpacked =>
            (opened unpacked).elim onlyA onlyB

/-- A join of tuples is refused only where the unpacked permissions differ. -/
theorem Sealed.join {a b : Tuple} (first : a.Sealed own) (second : b.Sealed own)
    (point : MergePoint) :
    a.join b point = .error .joiningDifferentUnpacked ∨
      ∃ work, a.join b point = .ok work ∧ Yields work (Sealed own) := by
  unfold Tuple.join
  rcases first.joinEach second point (allLocations a b) with different | ⟨works, ran, known⟩
  · exact .inl (by rw [different]; rfl)
  · rw [ran]
    refine .inr ⟨_, rfl, (fill_yields works known).bind fun m entries => .pure ⟨?_, entries⟩⟩
    rw [first.receiver, second.receiver, Option.or_self]

end Tuple

namespace Context

variable {own : Option Location} {c d : Context} (point : MergePoint)

theorem joinTensor_node (t : Tuple) (b : Branch) (j : Junction) (es : List Context) :
    joinTensor point t b (j.node es) = do return j.node (← es.mapM (joinTensor point t b)) := by
  have list (es : List Context) : joinTensorList point t b es = es.mapM (joinTensor point t b) := by
    induction es with
    | nil => rfl
    | cons e rest ih => rw [joinTensorList, ih, List.mapM_cons]
  cases j <;> rw [Junction.node, joinTensor, list]

theorem join_node (j : Junction) (es : List Context) (other : Context) :
    (j.node es).join point other = match other with
      | .stuck _ | .packFailed _ _ => return other
      | .unreachable _ => return j.node es
      | _ => do return j.node (← es.mapM fun e => e.join point other) := by
  have list (es : List Context) (other : Context) :
      joinList point es other = es.mapM fun e => e.join point other := by
    induction es with
    | nil => rfl
    | cons e rest ih => rw [joinList, ih, List.mapM_cons]
  cases j <;> cases other <;> simp only [Junction.node, join, list]

theorem joinBranch_ends {allowed : Fault → Prop} (a b : Branch) :
    Ends allowed (joinBranch a b) fun _ => True := by
  unfold joinBranch
  split
  · exact .pure trivial
  · exact Ends.get.bind fun _ _ => (Ends.mint _ _).bind fun _ _ => .pure trivial

theorem Every.joinTensor {t : Tuple} (closed : t.Sealed own) (b : Branch)
    (every : c.Every (Tuple.Sealed own)) :
    Ends (· = .joiningDifferentUnpacked) (joinTensor point t b c)
      (Every (Tuple.Sealed own)) := by
  induction c using leaf_induction with
  | stuck | packFailed => exact .pure nofun
  | unreachable => exact .pure (every_tensor closed)
  | tensor u d =>
      rcases closed.join (every u List.mem_cons_self) point with different | ⟨work, done, known⟩
      · exact Ends.bind (.liftGuarded_error different rfl)
          (fun _ impossible => (impossible : False).elim)
      · exact (Ends.liftGuarded done known).bind fun joined closed =>
          (joinBranch_ends b d).bind fun _ _ => .pure (every_tensor closed)
  | node j es ih =>
      rw [every_node] at every
      rw [joinTensor_node]
      exact (Ends.mapM es fun e member => ih e member (every e member)).bind fun ds known =>
        .pure ((every_node j ds).mpr known)

theorem Every.join (first : c.Every (Tuple.Sealed own)) (second : d.Every (Tuple.Sealed own)) :
    Ends (· = .joiningDifferentUnpacked) (c.join point d) (Every (Tuple.Sealed own)) := by
  induction c using leaf_induction with
  | stuck | packFailed => exact .pure nofun
  | unreachable => exact .pure second
  | tensor t b => exact second.joinTensor point (first t List.mem_cons_self) b
  | node j es ih =>
      rw [join_node]
      split
      · exact .pure nofun
      · exact .pure nofun
      · exact .pure first
      · rw [every_node] at first
        exact (Ends.mapM es fun e member => ih e member (first e member)).bind fun ds known =>
          .pure ((every_node j ds).mpr known)

end Context

namespace FlowState

variable {allowed : Fault → Prop} {P : Tuple → Prop}

/-- What holds of all tuples where the program was reached. -/
def Every (P : Tuple → Prop) (x : FlowState) : Prop := ∀ c, x.context? = some c → c.Every P

theorem every_reached {c : Context} (every : c.Every P) : (reached c).Every P :=
  fun _ same => Option.some.inj same ▸ every

theorem logResult_ends (c : Context) : Ends allowed (logResult c) fun _ => True := by
  refine Ends.options.bind fun _ _ => ?_
  split
  · exact .log _
  · exact .pure trivial

theorem Every.apply {x : FlowState} (every : x.Every P) {step : Context → AnalysisM Context}
    (each : ∀ c : Context, c.Every P → Ends allowed (step c) (Context.Every P)) :
    Ends allowed (x.apply step) (Every P) := by
  cases x with
  | bottom => exact .pure nofun
  | reached c =>
      exact (each c (every c rfl)).bind fun result known =>
        (logResult_ends result).bind fun _ _ => .pure (every_reached known)

theorem Every.join {own : Option Location} {x y : FlowState} (first : x.Every (Tuple.Sealed own))
    (second : y.Every (Tuple.Sealed own)) (point : MergePoint) :
    Ends (· = .joiningDifferentUnpacked) (x.join y point) (Every (Tuple.Sealed own)) := by
  match x, y with
  | .bottom, y => exact .pure second
  | .reached c, .bottom => exact .pure first
  | .reached c, .reached d =>
      exact (Ends.log _).bind fun _ _ =>
        ((first c rfl).join point (second d rfl)).bind fun joined known =>
          (logResult_ends _).bind fun _ _ => .pure (every_reached (known.compact true))

/-- What an analysis does at one point of a program. -/
inductive Operation where
  | methodCall (call : Call)
  | newObject (call : Call)
  | constructorCall (call : Call)
  | fieldRead (access : FieldAccess)
  | fieldWrite (access : FieldAccess)
  | forgetShared
  | freeze
  | checkCall (call : Call)
  | checkReturn (span : Span)
  | checkStates (l : Location) (states : List String) (inFrame : Bool) (span : Span)

/-- A check leaves what is known as it is, whether it succeeds or not. -/
def Operation.run (env : MethodEnv) (x : FlowState) : Operation → AnalysisM FlowState
  | .methodCall call => x.methodCall env call
  | .newObject call => x.newObject call
  | .constructorCall call => x.constructorCall call
  | .fieldRead access => x.fieldRead env access
  | .fieldWrite access => x.fieldWrite env access
  | .forgetShared => x.forgetShared
  | .freeze => return x.freeze
  | .checkCall call => do
      let _ ← x.checkCall call
      return x
  | .checkReturn span => do
      let _ ← x.checkReturn env span
      return x
  | .checkStates l states inFrame span =>
      match x.checkStates l states inFrame span with
      | .ok () | .error _ => return x

/-- What is known at some point of some run through a method or constructor, without a log. -/
inductive Reached (env : MethodEnv) : FlowState → Prop
  | unreached : Reached env .bottom
  | method {c : Context} {session next : Session} (quiet : session.logging = false)
      (ran : (Flow.methodEntry env).run.run session = (.ok (.ok c), next)) :
      Reached env (.reached c)
  | constructor {c : Context} {session next : Session} (quiet : session.logging = false)
      (ran : (Flow.constructorEntry env).run.run session = (.ok (.ok c), next)) :
      Reached env (.reached c)
  | step {x y : FlowState} {session next : Session} (before : Reached env x) (op : Operation)
      (quiet : session.logging = false) (ran : (op.run env x).run.run session = (.ok y, next)) :
      Reached env y
  | join {x y z : FlowState} {session next : Session} (first : Reached env x)
      (second : Reached env y) (point : MergePoint) (quiet : session.logging = false)
      (ran : (x.join y point).run.run session = (.ok z, next)) : Reached env z

section Runs

variable {env : MethodEnv} {x y : FlowState}

/-- One operation keeps everything but the receiver packed. -/
theorem Every.run (every : x.Every (Tuple.Sealed env.receiver)) (op : Operation) :
    Ends allowed (op.run env x) (Every (Tuple.Sealed env.receiver)) := by
  cases op with
  | methodCall call => exact every.apply fun c closed => Flow.methodCall_sealed call closed _
  | newObject call => exact every.apply fun c closed => Flow.newObject_sealed call closed
  | constructorCall call =>
      exact every.apply fun c closed => Flow.constructorCall_sealed call closed
  | fieldRead access => exact every.apply fun c closed => Flow.fieldAccess_sealed access _ _ closed
  | fieldWrite access => exact every.apply fun c closed => Flow.fieldAccess_sealed access _ _ closed
  | forgetShared =>
      refine every.apply fun c closed => closed.mapTensors fun t b closed => .pure ?_
      exact Context.every_tensor closed.forgetShared
  | freeze =>
      refine .pure ?_
      cases x with
      | bottom => exact nofun
      | reached c => exact every_reached ((every c rfl).compact true)
  | checkCall call =>
      -- Checks give back the state they were given.
      refine Ends.bind (?_ : Ends allowed _ fun _ => True) fun _ _ => .pure every
      cases x with
      | bottom => exact .pure trivial
      | reached c => exact .liftSupply (.any _)
  | checkReturn span =>
      refine Ends.bind (?_ : Ends allowed _ fun _ => True) fun _ _ => .pure every
      cases x with
      | bottom => exact .pure trivial
      | reached c => exact Flow.checkReturn_ends env span (every c rfl)
  | checkStates l states inFrame span =>
      rcases judged : x.checkStates l states inFrame span with d | ⟨⟩ <;>
        rw [Operation.run, judged] <;> exact .pure every

theorem Reached.every (reached : Reached env x) : x.Every (Tuple.Sealed env.receiver) := by
  -- Each step may start from any session, so nothing is needed of those that came before.
  induction reached with
  | unreached => exact nofun
  | method quiet ran =>
      have enters : Ends (fun _ => False) _ _ := Flow.methodEntry_enters env
      exact every_reached (enters.result quiet ran _ rfl)
  | constructor quiet ran =>
      have enters : Ends (fun _ => False) _ _ := Flow.constructorEntry_enters env
      exact every_reached (enters.result quiet ran _ rfl)
  | step before op quiet ran ih =>
      have ends : Ends (fun _ => False) _ _ := ih.run op
      exact ends.result quiet ran
  | join first second point quiet ran left right => exact (left.join right point).result quiet ran

/-- A whole run keeps to the protocol. In every state that is reached only the receiver can be
unpacked, every operation goes through, and a join is refused only where the receiver is unpacked in
different ways. All that is held has complete shares, and with these no contract of the operations
on permissions is broken. -/
theorem reached_keeps_protocol (env : MethodEnv) :
    Ends (fun _ => False) (Flow.methodEntry env) (fun _ => True) ∧
      Ends (fun _ => False) (Flow.constructorEntry env) (fun _ => True) ∧
      (∀ x, Reached env x →
        (∀ c, x.context? = some c → ∀ t ∈ c.tuples, t.receiver = env.receiver ∧
          ∀ l, (t.get l).Laid ∧ ((t.get l).isUnpacked = true → t.receiver = some l)) ∧
        (∀ op : Operation, Ends (fun _ => False) (op.run env x) fun _ => True) ∧
        ∀ y, Reached env y → ∀ point,
          Ends (· = .joiningDifferentUnpacked) (x.join y point) fun _ => True) ∧
      (∀ x : Holding, x.Laid → x.KeepsContracts) ∧
      ∀ (p : Predicate) target named, Yields (p.requests target named) fun result =>
        ∀ r, result = .ok (some r) → r.Laid := by
  refine ⟨(Flow.methodEntry_enters env).imp fun _ _ => trivial,
    (Flow.constructorEntry_enters env).imp fun _ _ => trivial, fun x reached => ⟨?_, ?_, ?_⟩,
    fun x laid => laid.keepsContracts, RequestSet.requests_laid⟩
  · intro c here t member
    have closed := reached.every c here t member
    exact ⟨closed.receiver, fun l => closed.receiver ▸ closed.get l⟩
  · exact fun op => (reached.every.run op).imp fun _ _ => trivial
  · exact fun y other point => (reached.every.join other.every point).imp fun _ _ => trivial

end Runs

namespace Buffered

/-- A protocol with a field that belongs to all of the object. -/
def space : Space :=
  let draft :=
    ((Space.Draft.new "Buffered").addDimension (some "use") alive ["open", "shut"] false).1
  { draft.space with fieldNodes := draft.space.fieldNodes.insert "size" alive }

/-- A method that starts with a full permission for the frame of its receiver. -/
def env : MethodEnv :=
  { (default : MethodEnv) with
    classDecl := some ⟨"Buffered", space, []⟩
    receiver := some ⟨0⟩
    pre := .clauses [⟨Target.receiver, space, ⟨.full, alive, [], true⟩⟩] }

def write : Operation := .fieldWrite ⟨⟨0⟩, "size", none⟩

def isUnpacked (x : FlowState) : Bool :=
  (x.context?.map Context.tuples).any fun ts => ts.any fun t => (t.get ⟨0⟩).isUnpacked

end Buffered

/-- Writing to a field unpacks the receiver, and the way with the write cannot be joined with one
without it. Whatever comes after the write goes through. -/
theorem reached_keeps_protocol_after_write :
    ∃ c y, Reached Buffered.env (.reached c) ∧ Reached Buffered.env y ∧
      Buffered.isUnpacked y = true ∧
      (((reached c).join y .branch).run.run Session.new).1.toOption.isNone = true ∧
      (∀ op : Operation, Ends (fun _ => False) (op.run Buffered.env y) fun _ => True) ∧
      Ends (· = .joiningDifferentUnpacked) ((reached c).join y .branch) fun _ => True := by
  have runs : ((((Flow.methodEntry Buffered.env).run.run Session.new).1.toOption.bind
      Except.toOption).any fun c =>
        (((Buffered.write.run Buffered.env (.reached c)).run.run
          Session.new).1.toOption.any fun y => Buffered.isUnpacked y &&
            (((reached c).join y .branch).run.run Session.new).1.toOption.isNone)) = true := by
    decide +kernel
  generalize entered : (Flow.methodEntry Buffered.env).run.run Session.new = entry at runs
  obtain ⟨_ | _ | c, next⟩ := entry
  · cases runs
  · cases runs
  · replace runs : (((Buffered.write.run Buffered.env (.reached c)).run.run
        Session.new).1.toOption.any fun y => Buffered.isUnpacked y &&
          (((reached c).join y .branch).run.run Session.new).1.toOption.isNone) = true := runs
    generalize wrote : (Buffered.write.run Buffered.env (.reached c)).run.run Session.new = after
      at runs
    obtain ⟨_ | y, last⟩ := after
    · cases runs
    · have facts := Bool.and_eq_true_iff.mp runs
      have first : Reached Buffered.env (.reached c) := .method rfl entered
      have second : Reached Buffered.env y := .step first Buffered.write rfl wrote
      obtain ⟨-, -, safe, -⟩ := reached_keeps_protocol Buffered.env
      exact ⟨c, y, first, second, facts.1, facts.2, (safe y second).2.1,
        (safe _ first).2.2 y second .branch⟩

end FlowState

end Typestate
