import Typestate.Proofs.Flow.Footprint
import Typestate.Proofs.Flow.Runs

set_option autoImplicit false

/-!
Branches over whole sessions. However the operations of an analysis follow each other, every leaf of
every context is on the root branch, or its branch is one that the session's tree has recorded.
-/

namespace Typestate

open Analysis BranchTree Context

/-- All leaves are on branches that the tree has recorded. -/
abbrev Context.Recorded : BranchTree → Context → Prop := Bears Records fun _ => True

variable {tree : BranchTree} {b : Branch} {context : Context}

theorem BranchTree.Records.tensor (records : tree.Records b) (t : Tuple) :
    Grows tree (pure (.tensor t b)) Recorded :=
  (Bears.tensor records trivial).stays records_inherited

theorem BranchTree.Records.stuck (records : tree.Records b) :
    Grows tree (pure (.stuck b)) Recorded := (Bears.stuck records).stays records_inherited

namespace Context.Recorded

theorem mapTensors (recorded : Recorded tree context) {f : Tuple → Branch → AnalysisM Context}
    (each : ∀ t b, tree.Records b → Grows tree (f t b) Recorded) :
    Grows tree (context.mapTensors f) Recorded :=
  Bears.mapTensors records_inherited recorded fun t b _ records => each t b records

theorem stays (recorded : Recorded tree context) : Grows tree (pure context) Recorded :=
  Bears.stays records_inherited recorded

end Context.Recorded

namespace Flow

theorem applyCases_recorded (call : Call) (t : Tuple) (records : tree.Records b) :
    Grows tree (applyCases call t b) Recorded :=
  applyCases_bears records_inherited .any (fun _ _ => trivial) trivial records

theorem methodCall_recorded (c : Option ClassDecl) (call : Call)
    (recorded : Recorded tree context) : Grows tree (methodCall c call context) Recorded :=
  methodCall_bears records_inherited recorded c fun _ _ _ records =>
    callTensor_bears records_inherited .any (fun _ _ => trivial) c trivial records

/-- Creations of objects and calls of other constructors, whose receiver may depend on the
tuple. -/
theorem applied_recorded (call : Call) (given : Tuple → Call) (recorded : Recorded tree context) :
    Grows tree (do
      logCall call
      let result ← context.mapTensors fun t b => return finishCall b (← applyCases (given t) t b)
      return result.compact false) Recorded := by
  have applied : Grows tree
      (context.mapTensors fun t b => do return finishCall b (← applyCases (given t) t b))
      Recorded := by
    refine recorded.mapTensors fun t b records => ?_
    refine (applyCases_recorded (given t) t records).bind fun _ result grown known => ?_
    exact Recorded.stays (finishCall_bears known (records.mono grown))
  exact (Grows.log _).bind fun _ _ grown _ => (applied.later grown).bind fun _ result _ known =>
    Recorded.stays (known.compact false)

theorem newObject_recorded (call : Call) (recorded : Recorded tree context) :
    Grows tree (newObject call context) Recorded := applied_recorded _ (fun _ => _) recorded

theorem constructorCall_recorded (call : Call) (recorded : Recorded tree context) :
    Grows tree (constructorCall call context) Recorded :=
  applied_recorded call (fun t => { call with receiver := t.receiver }) recorded

section Fields

variable (c : ClassDecl) (access : FieldAccess) (write : Bool) (node : String) (t : Tuple)

theorem accessUnpacked_recorded (records : tree.Records b) :
    Grows tree (accessUnpacked c access write node t b) Recorded := by
  refine .ite (fun _ => ?_) fun _ => ?_
  · unfold writeUnpacked
    split
    · exact records.stuck
    · refine .ite (fun _ => records.stuck) fun _ => ?_
      exact Grows.bind (.liftGuarded fun work _ => .any work) fun _ _ grown _ =>
        (records.mono grown).tensor _
  · unfold readUnpacked
    split
    · exact records.stuck
    · split
      · exact records.stuck
      · split
        · exact records.tensor _
        · exact records.tensor t

theorem accessTuple_recorded (records : tree.Records b) :
    Grows tree (accessTuple c access write node t b) Recorded := by
  refine .ite (fun _ => ?_) fun _ => .ite (fun _ => records.tensor t) fun _ =>
    .ite (fun _ => accessUnpacked_recorded c access write node t records) fun _ => ?_
  · exact (Grows.remark _).bind fun _ _ grown _ => (records.mono grown).tensor t
  · refine (Tuple.Footprint.any.unpackToReach c records_inherited trivial records node false).bind
      fun _ reached _ known => Recorded.mapTensors known fun t b records => ?_
    exact accessUnpacked_recorded c access write node t records

theorem fieldAccess_recorded (c : Option ClassDecl) (recorded : Recorded tree context) :
    Grows tree (fieldAccess c access write context) Recorded := by
  refine (Grows.log _).bind fun _ _ grown _ => ?_
  have recorded : Recorded _ context := recorded.later records_inherited grown
  split
  · exact recorded.stays
  · next c =>
    split
    · exact recorded.stays
    · next node _ =>
      refine Grows.bind (recorded.mapTensors fun t b records =>
        accessTuple_recorded c access write node t records) fun _ result _ known => ?_
      exact Recorded.stays (known.compact false)

end Fields

theorem checkReturn_grows (env : MethodEnv) (span : Span) (recorded : Recorded tree context) :
    Grows tree (checkReturn env span context) fun _ _ => True := by
  unfold checkReturn
  split
  case' h_1 c _ =>
    refine Grows.bind (recorded.mapTensors fun t b records =>
      Tuple.Footprint.any.wrangle c records_inherited trivial records _ false) fun _ _ _ _ => ?_
  case' h_2 => rw [pure_bind]
  -- What is left is to check the context, wrangled or not.
  all_goals
    refine Grows.bind (.liftSupply (.any _)) fun _ result _ _ => ?_
    split
    · exact .pure fun _ _ => trivial
    · exact .ite (fun _ => .pure fun _ _ => trivial) fun _ => .pure fun _ _ => trivial

section Entry

variable (env : MethodEnv)

/-- A body begins on a branch that the tree has recorded. -/
def Begun (tree : BranchTree) (entered : Except RequestOverlap Context) : Prop :=
  ∀ c, entered = .ok c → Recorded tree c

theorem records_root (rooted : tree.Rooted 0) : tree.Records .root := ⟨rooted, .inl rfl⟩

theorem entered_begun (rooted : tree.Rooted 0) (t : Tuple) : Grows tree (entered t) Begun := by
  refine (Grows.log _).bind fun _ _ grown _ => .pure fun _ further => ?_
  rintro _ ⟨⟩
  exact .tensor (records_root (rooted.mono (grown.trans further))) trivial

theorem entryTuple_grows : Grows tree (entryTuple env) fun _ _ => True :=
  Grows.options.bind fun _ _ _ _ => .liftSupply (.any _)

theorem voidEntry_begun (rooted : tree.Rooted 0) (purpose : String) :
    Grows tree (do return .ok (.unreachable (← freshBranch .root purpose))) Begun := by
  refine (Grows.freshBranch records_inherited (records_root rooted) purpose).bind
    fun _ branch _ records => .pure fun _ further => ?_
  rintro _ ⟨⟩
  exact .unreachable (records.mono further)

theorem methodEntry_begun (rooted : tree.Rooted 0) : Grows tree (methodEntry env) Begun := by
  refine .ite (fun _ => voidEntry_begun rooted _) fun _ => ?_
  refine (entryTuple_grows env).bind fun _ granted grown _ => ?_
  cases granted with
  | error overlap => exact .pure fun _ _ => nofun
  | ok t => exact entered_begun (rooted.mono grown) t

theorem constructorEntry_begun (rooted : tree.Rooted 0) :
    Grows tree (constructorEntry env) Begun := by
  refine .ite (fun _ => voidEntry_begun rooted _) fun _ => ?_
  refine (entryTuple_grows env).bind fun _ granted grown _ => ?_
  have rooted := rooted.mono grown
  cases granted with
  | error overlap => exact .pure fun _ _ => nofun
  | ok t =>
    dsimp only
    split
    · refine Grows.bind (.liftSupply (.any _)) fun _ x grown _ => ?_
      refine (Tuple.Footprint.any.unpackReceiver _ trivial alive).bind fun _ opened further _ => ?_
      exact entered_begun (rooted.mono (grown.trans further)) opened
    · exact entered_begun rooted t

end Entry

end Flow

namespace Context

variable (point : MergePoint)

theorem joinBranch_records {a b : Branch} (first : tree.Records a) (second : tree.Records b) :
    Grows tree (joinBranch a b) Records := by
  refine .ite (fun _ => .pure fun _ grown => first.mono grown) fun _ => ?_
  refine Grows.get.bind fun now session grown same => ?_
  -- Both choices were made in the tree, so their common ancestor was as well.
  have rooted : now.Rooted (session.branches.commonAncestor a.choice b.choice) := by
    rw [same]
    exact (second.rooted.mono grown).commonAncestor a.choice
  refine (Grows.mint _ "join").bind fun _ choice _ minted => .pure fun _ further => ?_
  obtain ⟨before, later, made⟩ := minted
  have records := (rooted.mono later).records_mint "join"
  rw [made] at records
  exact records.mono further

theorem Recorded.joinTensor (recorded : Recorded tree context) (t : Tuple)
    (records : tree.Records b) : Grows tree (joinTensor point t b context) Recorded := by
  induction context using leaf_induction with
  | stuck | packFailed => exact recorded.stays
  | unreachable => exact records.tensor t
  | tensor u d =>
    have other : tree.Records d := recorded.marked _ List.mem_cons_self d rfl
    refine Grows.bind (.liftGuarded fun work _ => .any work) fun _ joined grown _ => ?_
    exact (joinBranch_records (records.mono grown) (other.mono grown)).bind
      fun _ branch _ made => made.tensor joined
  | node j es ih =>
    rw [joinTensor_node]
    exact Bears.node records_inherited j fun e member =>
      ih e member ((bears_node j es).mp recorded e member)

theorem Recorded.join {other : Context} (first : Recorded tree context)
    (second : Recorded tree other) : Grows tree (context.join point other) Recorded := by
  induction context using leaf_induction with
  | stuck | packFailed => exact first.stays
  | unreachable => exact second.stays
  | tensor t b => exact second.joinTensor point t (first.marked _ List.mem_cons_self b rfl)
  | node j es ih =>
    rw [join_node]
    split
    · exact second.stays
    · exact second.stays
    · exact first.stays
    · exact Bears.node records_inherited j fun e member =>
        ih e member ((bears_node j es).mp first e member)

end Context

namespace FlowState

/-- What is known, if anything, is on branches that the tree has recorded. -/
def Recorded (tree : BranchTree) (x : FlowState) : Prop :=
  ∀ c, x.context? = some c → Context.Recorded tree c

namespace Recorded

variable {x y : FlowState}

theorem later {last : BranchTree} (recorded : x.Recorded tree) (grown : tree ≤ last) :
    x.Recorded last := fun c found => Bears.later records_inherited (recorded c found) grown

theorem reached {c : Context} (recorded : Context.Recorded tree c) :
    Recorded tree (.reached c) := fun _ same => Option.some.inj same ▸ recorded

theorem logged {c : Context} (recorded : Context.Recorded tree c) :
    Grows tree (do logResult c; return .reached c) Recorded := by
  have log : Grows tree (logResult c) fun _ _ => True :=
    Grows.options.bind fun _ _ _ _ =>
      .ite (fun _ => Grows.log _) fun _ => .pure fun _ _ => trivial
  exact log.bind fun _ _ grown _ => .pure fun _ further =>
    reached (Bears.later records_inherited recorded (grown.trans further))

theorem apply (recorded : x.Recorded tree) {step : Context → AnalysisM Context}
    (each : ∀ c, Context.Recorded tree c → Grows tree (step c) Context.Recorded) :
    Grows tree (x.apply step) Recorded := by
  cases x with
  | bottom => exact .pure fun _ _ => nofun
  | reached c => exact (each c (recorded c rfl)).bind fun _ result _ known => logged known

theorem join (first : x.Recorded tree) (second : y.Recorded tree) (point : MergePoint) :
    Grows tree (x.join y point) Recorded := by
  match x, y with
  | .bottom, y => exact .pure fun _ grown => second.later grown
  | .reached c, .bottom => exact .pure fun _ grown => first.later grown
  | .reached c, .reached d =>
    refine (Grows.log _).bind fun _ _ grown _ => ?_
    refine (Context.Recorded.join point (first.later grown c rfl) (second.later grown d rfl)).bind
      fun _ joined _ known => ?_
    exact logged (known.compact true)

/-- One operation keeps every leaf on a recorded branch. -/
theorem run (recorded : x.Recorded tree) (env : MethodEnv) (op : Operation) :
    Grows tree (op.run env x) Recorded := by
  -- A check leaves `x` as it is, but it may open branches.
  have checked {check : AnalysisM CheckResult} (grows : Grows tree check fun _ _ => True) :
      Grows tree (do let _ ← check; return x) Recorded :=
    grows.bind fun _ _ grown _ => .pure fun _ further => recorded.later (grown.trans further)
  cases op with
  | methodCall call => exact recorded.apply fun c known => Flow.methodCall_recorded _ call known
  | newObject call => exact recorded.apply fun c known => Flow.newObject_recorded call known
  | constructorCall call =>
    exact recorded.apply fun c known => Flow.constructorCall_recorded call known
  | fieldRead access =>
    exact recorded.apply fun c known => Flow.fieldAccess_recorded access _ _ known
  | fieldWrite access =>
    exact recorded.apply fun c known => Flow.fieldAccess_recorded access _ _ known
  | forgetShared =>
    exact recorded.apply fun c known => known.mapTensors fun t b records => records.tensor _
  | freeze =>
    refine .pure fun _ grown => ?_
    cases x with
    | bottom => exact nofun
    | reached c => exact reached ((recorded.later grown c rfl).compact true)
  | checkCall call =>
    refine checked ?_
    cases x with
    | bottom => exact .pure fun _ _ => trivial
    | reached c => exact .liftSupply (.any _)
  | checkReturn span =>
    refine checked ?_
    cases x with
    | bottom => exact .pure fun _ _ => trivial
    | reached c => exact Flow.checkReturn_grows env span (recorded c rfl)
  | checkStates l states inFrame span =>
    rcases judged : x.checkStates l states inFrame span with d | ⟨⟩ <;>
      rw [Operation.run, judged] <;> exact .pure fun _ grown => recorded.later grown

end Recorded

/-- A session that began with nothing but the root, and what was known at some time during it.
Methods of many classes may be analysed in one session, and also those steps count that end in a
broken contract. -/
inductive Explored : Session → List FlowState → Prop
  | start {session : Session} (new : session.branches = .new) : Explored session [.bottom]
  | adjust {session next : Session} {xs : List FlowState} (before : Explored session xs)
      (same : next.branches = session.branches) : Explored next xs
  | method {session next : Session} {xs : List FlowState} (before : Explored session xs)
      (env : MethodEnv) {result : Except Fault (Except RequestOverlap Context)}
      (ran : (Flow.methodEntry env).run.run session = (result, next)) :
      Explored next ((result.toOption.bind Except.toOption).toList.map .reached ++ xs)
  | constructor {session next : Session} {xs : List FlowState} (before : Explored session xs)
      (env : MethodEnv) {result : Except Fault (Except RequestOverlap Context)}
      (ran : (Flow.constructorEntry env).run.run session = (result, next)) :
      Explored next ((result.toOption.bind Except.toOption).toList.map .reached ++ xs)
  | step {session next : Session} {xs : List FlowState} (before : Explored session xs)
      {x : FlowState} (known : x ∈ xs) (env : MethodEnv) (op : Operation)
      {result : Except Fault FlowState}
      (ran : (op.run env x).run.run session = (result, next)) :
      Explored next (result.toOption.toList ++ xs)
  | join {session next : Session} {xs : List FlowState} (before : Explored session xs)
      {x y : FlowState} (first : x ∈ xs) (second : y ∈ xs) (point : MergePoint)
      {result : Except Fault FlowState}
      (ran : (x.join y point).run.run session = (result, next)) :
      Explored next (result.toOption.toList ++ xs)

namespace Explored

variable {session : Session} {xs : List FlowState}

/-- The root is always there, and all that was known at any time is recorded in the tree as it is
now. -/
structure Sound (session : Session) (xs : List FlowState) : Prop where
  rooted : session.branches.Rooted 0
  recorded : ∀ x ∈ xs, x.Recorded session.branches

theorem Sound.extend {next : Session} (sound : Sound session xs)
    (grown : session.branches ≤ next.branches) {ys : List FlowState}
    (new : ∀ y ∈ ys, y.Recorded next.branches) : Sound next (ys ++ xs) :=
  ⟨sound.rooted.mono grown, List.forall_mem_append.mpr
    ⟨new, fun x member => (sound.recorded x member).later grown⟩⟩

theorem Sound.enter {next : Session} {entry : AnalysisM (Except RequestOverlap Context)}
    {result : Except Fault (Except RequestOverlap Context)} (sound : Sound session xs)
    (grows : Grows session.branches entry Flow.Begun)
    (ran : entry.run.run session = (result, next)) :
    Sound next ((result.toOption.bind Except.toOption).toList.map .reached ++ xs) := by
  obtain ⟨grown, begun⟩ := grows.ran ran
  refine sound.extend grown ?_
  match result, begun with
  | .error _, _ => exact nofun
  | .ok (.error _), _ => exact nofun
  | .ok (.ok c), begun => exact List.forall_mem_singleton.mpr (.reached (begun _ rfl c rfl))

theorem Sound.work {next : Session} {work : AnalysisM FlowState} {result : Except Fault FlowState}
    (sound : Sound session xs) (grows : Grows session.branches work FlowState.Recorded)
    (ran : work.run.run session = (result, next)) :
    Sound next (result.toOption.toList ++ xs) := by
  obtain ⟨grown, known⟩ := grows.ran ran
  refine sound.extend grown ?_
  cases result with
  | error _ => exact nofun
  | ok x => exact List.forall_mem_singleton.mpr (known x rfl)

theorem sound (explored : Explored session xs) : Sound session xs := by
  induction explored with
  | start new => exact ⟨new ▸ .new, List.forall_mem_singleton.mpr nofun⟩
  | adjust before same ih => exact ⟨same ▸ ih.rooted, same ▸ ih.recorded⟩
  | method before env ran ih => exact ih.enter (Flow.methodEntry_begun env ih.rooted) ran
  | constructor before env ran ih =>
    exact ih.enter (Flow.constructorEntry_begun env ih.rooted) ran
  | step before known env op ran ih => exact ih.work ((ih.recorded _ known).run env op) ran
  | join before first second point ran ih =>
    exact ih.work ((ih.recorded _ first).join (ih.recorded _ second) point) ran

end Explored

end FlowState

end Typestate
