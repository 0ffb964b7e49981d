import Typestate.Flow.Call
import Typestate.Flow.Entry
import Typestate.Proofs.Flow.Requirement
import Typestate.Proofs.Tuple.Footprint
import Typestate.Space.Draft

set_option autoImplicit false

/-!
What calls touch. Every tensor after a call stems from one before it, and differs from it at the
receiver, at the places of the fields and at the locations that the call is given, but nowhere else.
-/

namespace Typestate

open Analysis BranchTree Context

/-- The locations that the specification of the method speaks of. -/
def Call.named (call : Call) : List Location :=
  call.method.cases.flatMap fun case =>
    (case.pre.targets ++ case.post.targets).filterMap call.resolve

theorem Call.mem_named {call : Call} {case : MethodCase} (among : case ∈ call.method.cases)
    {target : Target} (spoken : target ∈ case.pre.targets ∨ target ∈ case.post.targets)
    {l : Location} (found : call.resolve target = some l) : l ∈ call.named :=
  List.mem_flatMap.mpr ⟨case, among,
    List.mem_filterMap.mpr ⟨target, List.mem_append.mpr spoken, found⟩⟩

namespace Flow

variable {places : Location → Prop} {P Q : Tuple → Prop} {t : Tuple} {call : Call}

section Cases

variable {case : MethodCase}

theorem requireTarget_within (area : Tuple.Footprint places P) (holds : P t) {target : Target}
    (inside : ∀ l, call.resolve target = some l → places l) :
    Yields (requireTarget call case t target) fun taken => ∀ u, taken = some u → P u := by
  unfold requireTarget
  split
  · exact .pure (by simpa using holds)
  · next l found =>
    refine .ite (fun _ => .pure nofun) fun _ => .after fun requested => ?_
    match requested with
    | .error _ => exact .pure nofun
    | .ok none => exact .pure (by simpa using holds)
    | .ok (some request) =>
      refine .after fun rest => .ite (fun _ => .pure nofun) fun _ => .pure ?_
      rintro _ ⟨⟩
      exact area.set holds (inside l found) _

theorem ensureTarget_within (area : Tuple.Footprint places P) (holds : P t) {target : Target}
    (inside : ∀ l, call.resolve target = some l → places l) :
    Yields (ensureTarget call case t target) fun given => ∀ u, given = some u → P u := by
  unfold ensureTarget
  split
  · exact .pure (by simpa using holds)
  · next l found =>
    refine .after fun requested => ?_
    match requested with
    | .error _ => exact .pure nofun
    | .ok none => exact .pure (by simpa using holds)
    | .ok (some request) =>
      refine .after fun x => .pure ?_
      rintro _ ⟨⟩
      exact area.set holds (inside l found) x

end Cases

variable {mark : BranchTree → Branch → Prop} {tree : BranchTree} {b : Branch}

theorem applyCase_bears (area : Tuple.Footprint places P) (named : ∀ l ∈ call.named, places l)
    {case : MethodCase} (among : case ∈ call.method.cases) (holds : P t) (marked : mark tree b) :
    Yields (applyCase call case t b) (Bears mark P tree) := by
  have taking (t : Tuple) (holds : P t) : Yields (requireTargets call case t case.pre.targets)
      fun taken => ∀ u, taken = some u → P u :=
    Tuple.loop_yields (fun _ => rfl) (fun _ _ _ => rfl) (fun target spoken _ holds =>
      requireTarget_within area holds fun l found =>
        named l (Call.mem_named among (.inl spoken) found)) holds
  have giving (t : Tuple) (holds : P t) : Yields (ensureTargets call case t case.post.targets)
      fun given => ∀ u, given = some u → P u :=
    Tuple.loop_yields (fun _ => rfl) (fun _ _ _ => rfl) (fun target spoken _ holds =>
      ensureTarget_within area holds fun l found =>
        named l (Call.mem_named among (.inr spoken) found)) holds
  refine .ite (fun _ => .pure (.stuck marked)) fun _ => ?_
  refine (taking t holds).bind fun taken known => ?_
  cases taken with
  | none => exact .pure (.stuck marked)
  | some next =>
    refine .ite (fun _ => .pure (.unreachable marked)) fun _ => ?_
    refine (giving next (known next rfl)).bind fun given known => ?_
    cases given with
    | none => exact .pure (.stuck marked)
    | some last => exact .pure (.tensor marked (known last rfl))

variable (lasting : Inherited mark)
include lasting

theorem liftSupply_bears {work : SupplyM Context} (yields : Yields work (Bears mark P tree)) :
    Grows tree (liftSupply work) (Bears mark P) := by
  intro session grown
  refine ⟨le_rfl, ?_⟩
  rintro _ ⟨⟩
  exact (yields session.supply).later lasting grown

theorem applyCases_bears (area : Tuple.Footprint places P) (named : ∀ l ∈ call.named, places l)
    (holds : P t) (marked : mark tree b) :
    Grows tree (applyCases call t b) (Bears mark P) := by
  unfold applyCases
  split
  · exact liftSupply_bears lasting
      (applyCase_bears area named List.mem_cons_self holds marked)
  · refine Bears.node lasting .choice fun case among => ?_
    exact (Grows.freshBranch lasting marked "case").bind fun _ branch _ opened =>
      liftSupply_bears lasting (applyCase_bears area named among holds opened)

theorem prepareReceiver_bears (area : Tuple.Footprint places P) (c : Option ClassDecl)
    (holds : P t) (marked : mark tree b) :
    Grows tree (prepareReceiver c call t b) (Bears mark P) := by
  have stays {tree : BranchTree} (marked : mark tree b) :
      Grows tree (pure (Context.tensor t b)) (Bears mark P) :=
    (Bears.tensor marked holds).stays lasting
  unfold prepareReceiver
  split
  · next c r _ =>
    refine .ite (fun _ => ?_) fun _ => ?_
    · exact .ite (fun _ => stays marked) fun _ =>
        area.unpackToReach c lasting holds marked alive true
    · split
      · exact stays marked
      · refine Grows.options.bind fun _ options grown _ => ?_
        have marked := lasting.grows grown marked
        exact .ite (fun _ => stays marked) fun _ => area.wrangle c lasting holds marked _ false
  · exact stays marked

omit lasting in
theorem finishCall_bears {c : Context} (bears : Bears mark P tree c) (marked : mark tree b) :
    Bears mark P tree (finishCall b c) := by
  unfold finishCall
  dsimp only
  split
  · exact .unreachable marked
  · exact bears.compact false

theorem callTensor_bears (area : Tuple.Footprint places P) (named : ∀ l ∈ call.named, places l)
    (c : Option ClassDecl) (holds : P t) (marked : mark tree b) :
    Grows tree (do
      let prepared ← prepareReceiver c call t b
      return finishCall b (← prepared.mapTensors (applyCases call))) (Bears mark P) := by
  refine (prepareReceiver_bears lasting area c holds marked).bind fun _ prepared grown bears => ?_
  refine (bears.mapTensors lasting fun t b holds marked =>
    applyCases_bears lasting area named holds marked).bind fun _ result further known => ?_
  have marked := lasting.grows (grown.trans further) marked
  exact (finishCall_bears known marked).stays lasting

theorem methodCall_bears {context : Context} (bears : Bears mark P tree context)
    (c : Option ClassDecl) (each : ∀ t b, P t → mark tree b → Grows tree (do
      let prepared ← prepareReceiver c call t b
      return finishCall b (← prepared.mapTensors (applyCases call))) (Bears mark Q)) :
    Grows tree (methodCall c call context) (Bears mark Q) := by
  refine (Grows.log _).bind fun _ _ grown _ => ?_
  have called := ((bears.mapTensors lasting each).indented
    fun grown bears => bears.later lasting grown).later grown
  exact called.bind fun _ result _ known => (known.compact false).stays lasting

end Flow

/-- The second tuple stems from the first, and is the same outside the given places. -/
structure Tuple.Frames (places : Location → Prop) (t u : Tuple) : Prop where
  receiver : u.receiver = t.receiver
  fields : u.fields = t.fields
  get : ∀ l, ¬places l → u.get l = t.get l

theorem Tuple.Frames.footprint {places : Location → Prop} {t : Tuple}
    (own : ∀ l, t.Own l → places l) : Footprint places (Frames places t) := by
  refine ⟨fun {u} frames l belongs => own l ?_, fun {u} frames l place x => ?_⟩
  · simpa only [Own, fieldLocation?, frames.receiver, frames.fields] using belongs
  · refine ⟨frames.receiver, frames.fields, fun other outside => ?_⟩
    have apart : other ≠ l := fun same => outside (same ▸ place)
    rw [get_set_of_ne u x apart, frames.get other outside]

namespace Flow

/-- A call touches only the receiver of the method under analysis, the places of its fields and
what the call is given. -/
theorem methodCall_touches_only (c : Option ClassDecl) (call : Call) {context result : Context}
    {session next : Session}
    (ran : (methodCall c call context).run.run session = (.ok result, next)) :
    ∀ u ∈ result.tuples, ∃ t ∈ context.tuples, u.receiver = t.receiver ∧ u.fields = t.fields ∧
      ∀ l, t.receiver ≠ some l → (∀ field, t.fieldLocation? field ≠ some l) → l ∉ call.named →
        u.get l = t.get l := by
  let places (t : Tuple) (l : Location) : Prop := t.Own l ∨ l ∈ call.named
  have lasting : Inherited fun _ _ => True := ⟨fun _ _ => trivial, fun _ _ => trivial⟩
  have before : Bears (fun _ _ => True) (· ∈ context.tuples) session.branches context :=
    ⟨fun _ _ _ _ => trivial, fun _ member => member⟩
  have area (t : Tuple) : Tuple.Footprint (places t) (t.Frames (places t)) :=
    Tuple.Frames.footprint fun _ => .inl
  have called : Grows session.branches (methodCall c call context)
      (Bears (fun _ _ => True) fun u => ∃ t ∈ context.tuples, t.Frames (places t) u) := by
    refine methodCall_bears lasting before c fun t b member marked => ?_
    -- Each tensor is framed by itself, so the places are those of its own tuple.
    refine (callTensor_bears lasting (area t) (fun _ => .inr) c ⟨rfl, rfl, fun _ _ => rfl⟩
      marked).imp fun _ _ _ bears => ?_
    exact bears.imp fun u frames => ⟨t, member, frames⟩
  have after := (called.ran ran).2 result rfl
  intro u member
  obtain ⟨t, among, frames⟩ := after.every u member
  refine ⟨t, among, frames.receiver, frames.fields, fun l receiver fields named => ?_⟩
  refine frames.get l ?_
  rintro ((own | ⟨field, own⟩) | given)
  · exact receiver own
  · exact fields field own
  · exact named given

namespace Relay

def space : Space :=
  ((Space.Draft.new "Relay").addDimension (some "use") alive ["open", "shut"] false).1.space

def clause (target : Target) (kind : Kind) (states : List String) (frame : Bool) : Clause :=
  ⟨target, space, ⟨kind, alive, states, frame⟩⟩

/-- Objects that always have a full permission for what they pass things on to. -/
def relay : ClassDecl := ⟨"Relay", space, [(alive, .clauses [clause "inner" .full [] false])]⟩

def env : MethodEnv :=
  { (default : MethodEnv) with
    classDecl := some relay
    receiver := some ⟨0⟩
    params := [⟨2⟩, ⟨3⟩]
    fields := [("inner", ⟨1⟩)]
    pre := .clauses [clause Target.receiver .full [] true,
      clause (Target.argument 0) .full ["open"] false, clause (Target.argument 1) .share [] false] }

/-- A method that gives part of its argument back, or keeps all that it takes. -/
def pass : Method :=
  ⟨"pass",
    ⟨.clauses [clause (Target.argument 0) .full ["open"] false],
      .clauses [clause (Target.argument 0) .share [] false], false⟩,
    [⟨.clauses [clause (Target.argument 0) .share [] false], .trivial, false⟩]⟩

def call : Call :=
  { (default : Call) with
    method := pass
    receiver := some ⟨0⟩
    arguments := [⟨2⟩]
    isSuper := true }

end Relay

/-- A call to the superclass may unpack the receiver or not, and each of the two cases may apply, so
there are four ways on. In two of them there is a permission for the field, where there was none.
What the second parameter stands for stays as it was. -/
theorem methodCall_touches_only_for_super :
    ∃ c d middle last, (methodEntry Relay.env).run.run Session.new = (.ok (.ok c), middle) ∧
      (methodCall (some Relay.relay) Relay.call c).run.run middle = (.ok d, last) ∧
      d.tuples.map (fun u => (u.get ⟨1⟩).virtuals.length) = [0, 0, 1, 1] ∧
      ∀ u ∈ d.tuples, ∃ t ∈ c.tuples, u.get ⟨3⟩ = t.get ⟨3⟩ ∧ (t.get ⟨3⟩).virtuals ≠ [] := by
  have runs : leadsTo (methodEntry Relay.env) Session.new (fun entered middle =>
      entered.toOption.any fun c => c.tuples.all (fun t => t.receiver == some ⟨0⟩ &&
        t.fields.entries == [("inner", ⟨1⟩)] && !(t.get ⟨3⟩).virtuals.isEmpty) &&
          leadsTo (methodCall (some Relay.relay) Relay.call c) middle fun d _ =>
            d.tuples.map (fun u => (u.get ⟨1⟩).virtuals.length) == [0, 0, 1, 1]) = true := by
    decide +kernel
  obtain ⟨_ | c, middle, began, runs⟩ := exists_of_leadsTo runs
  · cases runs
  · simp only [Except.toOption, Option.any_some, Bool.and_eq_true, List.all_eq_true] at runs
    obtain ⟨start, runs⟩ := runs
    obtain ⟨d, last, ran, shape⟩ := exists_of_leadsTo runs
    refine ⟨c, d, middle, last, began, ran, by simpa using shape, fun u member => ?_⟩
    obtain ⟨t, among, -, -, same⟩ :=
      methodCall_touches_only (some Relay.relay) Relay.call ran u member
    obtain ⟨⟨receiver, fields⟩, holds⟩ := start t among
    have apart (field : String) : t.fieldLocation? field ≠ some ⟨3⟩ := by
      intro found
      have entry := SortedMap.mem_of_get? found
      simp [eq_of_beq fields] at entry
    refine ⟨t, among, same ⟨3⟩ ?_ apart (by decide), by simpa using holds⟩
    simp [eq_of_beq receiver]

end Flow

end Typestate
