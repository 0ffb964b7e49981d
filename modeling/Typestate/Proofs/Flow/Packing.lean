import Typestate.Flow.Call
import Typestate.Flow.Check
import Typestate.Flow.Entry
import Typestate.Flow.Field
import Typestate.Proofs.Tuple.Packing

set_option autoImplicit false

/-!
Calls, field accesses and checks on contexts in which nothing but the receiver is unpacked, and the
contexts that bodies begin with.
-/

namespace Typestate

open Analysis

namespace Flow

variable {receiver : Option Location} {t : Tuple} {allowed : Fault → Prop} (call : Call)
  (case : MethodCase)

theorem requireTarget_sealed (closed : t.Sealed receiver) (target : Target) :
    Yields (requireTarget call case t target)
      fun taken => ∀ u, taken = some u → u.Sealed receiver := by
  unfold requireTarget
  split
  · exact .pure closed.only
  · next l _ =>
      refine .ite (fun _ => .pure nofun) fun _ => .after fun requested => ?_
      match requested with
      | .error _ => exact .pure nofun
      | .ok none => exact .pure closed.only
      | .ok (some request) =>
          refine ((closed.get l).1.split request).yields.bind fun rest kept =>
            .ite (fun _ => .pure nofun) fun _ => .pure ?_
          refine (closed.update ?_).only
          split
          · exact kept
          · exact ⟨kept.1.forget.1, kept.1.forget.2.trans kept.2⟩

theorem requireTargets_sealed (closed : t.Sealed receiver) (targets : List Target) :
    Yields (requireTargets call case t targets)
      fun taken => ∀ u, taken = some u → u.Sealed receiver := by
  induction targets generalizing t with
  | nil => exact .pure closed.only
  | cons target rest ih =>
      unfold requireTargets
      refine (requireTarget_sealed call case closed target).bind fun taken known => ?_
      cases taken with
      | none => exact .pure nofun
      | some next => exact ih (known next rfl)

theorem ensureTarget_sealed (closed : t.Sealed receiver) (target : Target) :
    Yields (ensureTarget call case t target)
      fun given => ∀ u, given = some u → u.Sealed receiver := by
  unfold ensureTarget
  split
  · exact .pure closed.only
  · next l _ =>
      refine (RequestSet.requests_laid case.post target false).bind fun requested laid => ?_
      match requested, laid with
      | .error _, _ => exact .pure nofun
      | .ok none, _ => exact .pure closed.only
      -- Merging into an unpacked receiver leaves it unpacked, and anything else packed.
      | .ok (some request), laid =>
          exact ((closed.get l).1.merge (laid request rfl)).yields.bind fun x kept =>
            .pure (closed.update kept).only

theorem ensureTargets_sealed (closed : t.Sealed receiver) (targets : List Target) :
    Yields (ensureTargets call case t targets)
      fun given => ∀ u, given = some u → u.Sealed receiver := by
  induction targets generalizing t with
  | nil => exact .pure closed.only
  | cons target rest ih =>
      unfold ensureTargets
      refine (ensureTarget_sealed call case closed target).bind fun given known => ?_
      cases given with
      | none => exact .pure nofun
      | some next => exact ih (known next rfl)

theorem applyCase_sealed (closed : t.Sealed receiver) (b : Branch) :
    Yields (applyCase call case t b) (Context.Every (Tuple.Sealed receiver)) := by
  refine .ite (fun _ => .pure nofun) fun _ => ?_
  refine (requireTargets_sealed call case closed _).bind fun taken known => ?_
  cases taken with
  | none => exact .pure nofun
  | some next =>
      refine .ite (fun _ => .pure nofun) fun _ => ?_
      refine (ensureTargets_sealed call case (known next rfl) _).bind fun given known => ?_
      cases given with
      | none => exact .pure nofun
      | some last => exact .pure (Context.every_tensor (known last rfl))

theorem applyCases_sealed (closed : t.Sealed receiver) (b : Branch) :
    Ends allowed (applyCases call t b) (Context.Every (Tuple.Sealed receiver)) := by
  unfold applyCases
  split
  · exact .liftSupply (applyCase_sealed call _ closed b)
  · refine (Ends.mapM _ fun case _ => ?_).bind fun es known =>
      .pure ((Context.every_node .choice es).mpr known)
    exact (Ends.freshBranch b "case").bind fun branch _ =>
      .liftSupply (applyCase_sealed call case closed branch)

theorem prepareReceiver_sealed (c : Option ClassDecl) (closed : t.Sealed receiver) (b : Branch) :
    Ends allowed (prepareReceiver c call t b) (Context.Every (Tuple.Sealed receiver)) := by
  have stays : Ends allowed (pure (.tensor t b)) (Context.Every (Tuple.Sealed receiver)) :=
    .pure (Context.every_tensor closed)
  unfold prepareReceiver
  split
  · next c r _ =>
      split
      · split
        · exact stays
        · exact closed.unpackToReach c b alive true
      · split
        · exact stays
        · next target _ =>
            refine Ends.options.bind fun options _ => ?_
            split
            · exact stays
            · exact closed.wrangle c b _ false
  · exact stays

theorem finishCall_every {P : Tuple → Prop} {c : Context} (every : c.Every P) (b : Branch) :
    (finishCall b c).Every P := by
  unfold finishCall
  dsimp only
  split
  · exact nofun
  · exact every.compact false

section Contexts

variable {context : Context}

theorem methodCall_sealed (every : context.Every (Tuple.Sealed receiver)) (c : Option ClassDecl) :
    Ends allowed (methodCall c call context) (Context.Every (Tuple.Sealed receiver)) := by
  have called : Ends allowed (context.mapTensors fun t b => do
      let prepared ← prepareReceiver c call t b
      return finishCall b (← prepared.mapTensors (applyCases call)))
      (Context.Every (Tuple.Sealed receiver)) := by
    refine every.mapTensors fun t b closed => ?_
    refine (prepareReceiver_sealed call c closed b).bind fun prepared ready => ?_
    refine (ready.mapTensors fun t b closed => ?_).bind fun result known =>
      .pure (finishCall_every known b)
    exact applyCases_sealed call closed b
  exact (Ends.log _).bind fun _ _ => called.indented.bind fun result known =>
    .pure (known.compact false)

theorem applied_sealed (every : context.Every (Tuple.Sealed receiver)) (given : Tuple → Call) :
    Ends allowed (do
      logCall call
      let result ← context.mapTensors fun t b => return finishCall b (← applyCases (given t) t b)
      return result.compact false) (Context.Every (Tuple.Sealed receiver)) := by
  have applied : Ends allowed
      (context.mapTensors fun t b => do return finishCall b (← applyCases (given t) t b))
      (Context.Every (Tuple.Sealed receiver)) := by
    refine every.mapTensors fun t b closed => ?_
    exact (applyCases_sealed (given t) closed b).bind fun result known =>
      .pure (finishCall_every known b)
  exact (Ends.log _).bind fun _ _ => applied.bind fun result known => .pure (known.compact false)

theorem newObject_sealed (every : context.Every (Tuple.Sealed receiver)) :
    Ends allowed (newObject call context) (Context.Every (Tuple.Sealed receiver)) :=
  applied_sealed _ every fun _ => _

theorem constructorCall_sealed (every : context.Every (Tuple.Sealed receiver)) :
    Ends allowed (constructorCall call context) (Context.Every (Tuple.Sealed receiver)) :=
  applied_sealed call every fun t => { call with receiver := t.receiver }

end Contexts

section Fields

variable (c : ClassDecl) (access : FieldAccess) (write : Bool) (node : String) (b : Branch)

theorem writeUnpacked_sealed (closed : t.Sealed (some access.object)) :
    Ends allowed (writeUnpacked c access node t b)
      (Context.Every (Tuple.Sealed (some access.object))) := by
  unfold writeUnpacked
  cases held : (t.get access.object).unpacked with
  | none => exact .pure nofun
  | some u =>
      obtain ⟨work, done, laid⟩ := (closed.get access.object).1.makeUnpackedModifiable
        (Holding.isUnpacked_of_some held)
      dsimp only
      split
      · exact .pure nofun
      · refine (Ends.liftGuarded done laid).bind fun x known => .pure (Context.every_tensor ?_)
        have written := closed.set (l := access.object) known fun _ => rfl
        cases access.source with
        | none => exact written
        | some source => exact written.mapField access.field source

theorem readUnpacked_sealed (closed : t.Sealed receiver) :
    (readUnpacked c access node t b).Every (Tuple.Sealed receiver) := by
  unfold readUnpacked
  split
  · exact nofun
  · split
    · exact nofun
    · split
      · exact Context.every_tensor (closed.mapField _ _)
      · exact Context.every_tensor closed

theorem accessUnpacked_sealed (closed : t.Sealed (some access.object)) :
    Ends allowed (accessUnpacked c access write node t b)
      (Context.Every (Tuple.Sealed (some access.object))) := by
  unfold accessUnpacked
  split
  · exact writeUnpacked_sealed c access node b closed
  · exact .pure (readUnpacked_sealed c access node b closed)

theorem accessTuple_sealed (closed : t.Sealed receiver) :
    Ends allowed (accessTuple c access write node t b) (Context.Every (Tuple.Sealed receiver)) := by
  have stays : Ends allowed (pure (.tensor t b)) (Context.Every (Tuple.Sealed receiver)) :=
    .pure (Context.every_tensor closed)
  unfold accessTuple
  split
  · exact (Ends.remark _).bind fun _ _ => stays
  · next same =>
      -- Only fields of the receiver are reached, so it is the receiver that becomes writable.
      have own : receiver = some access.object := by rw [← closed.receiver, not_not.mp same]
      subst own
      split
      · exact stays
      · split
        · exact accessUnpacked_sealed c access write node b closed
        · refine (closed.unpackToReach c b node false).bind fun reached every =>
            every.mapTensors fun t b closed => ?_
          exact accessUnpacked_sealed c access write node b closed

theorem fieldAccess_sealed (c : Option ClassDecl) {context : Context}
    (every : context.Every (Tuple.Sealed receiver)) :
    Ends allowed (fieldAccess c access write context) (Context.Every (Tuple.Sealed receiver)) := by
  refine (Ends.log _).bind fun _ _ => ?_
  split
  · exact .pure every
  · next c =>
      split
      · exact .pure every
      · next node _ =>
          refine Ends.bind (every.mapTensors fun t b closed => ?_) fun result known =>
            .pure (known.compact false)
          exact accessTuple_sealed c access write node b closed

end Fields

theorem checkReturn_ends (env : MethodEnv) (span : Span) {context : Context}
    (every : context.Every (Tuple.Sealed receiver)) :
    Ends allowed (checkReturn env span context) fun _ => True := by
  unfold checkReturn
  split
  case' h_1 =>
    refine Ends.bind (every.mapTensors fun t b closed => closed.wrangle _ b _ false) fun _ _ => ?_
  case' h_2 => rw [pure_bind]
  -- What is left is to check the context, wrangled or not.
  all_goals
    refine Ends.bind (Ends.liftSupply (.any _)) fun result _ => ?_
    split
    · exact .pure trivial
    · split <;> exact .pure trivial

section Entry

variable (env : MethodEnv)

/-- Nothing at all is unpacked where a body begins. -/
def AtEntry (env : MethodEnv) (t : Tuple) : Prop := t.receiver = env.receiver ∧ t.OpenAt none

theorem emptyEntry_atEntry : AtEntry env (emptyEntry env) := by
  have withNothing {t : Tuple} (l : Location) (entry : AtEntry env t) :
      AtEntry env (t.set l .empty) := by
    refine ⟨entry.1, entry.2.set ⟨?_, ?_, ?_⟩ ?_⟩
    · rintro _ ⟨⟩
    · rintro _ ⟨⟩
    · rintro _ ⟨⟩
    · rintro ⟨⟩
  refine List.foldlRecOn _ _ ?_ fun t entry field _ => ⟨entry.1, entry.2⟩
  refine List.foldlRecOn _ _ ?_ fun t entry l _ => withNothing l entry
  cases own : env.receiver with
  | none =>
    refine ⟨own.symm, ?_⟩
    rintro _ ⟨⟩
  | some l =>
    refine withNothing l ⟨own.symm, ?_⟩
    rintro _ ⟨⟩

theorem grantTargets_atEntry (named : Bool) {t : Tuple} (entry : AtEntry env t)
    (targets : List Target) :
    Yields (grantTargets env named t targets) fun granted =>
      ∀ u, granted = .ok u → AtEntry env u := by
  induction targets generalizing t with
  | nil =>
      refine .pure ?_
      rintro _ ⟨⟩
      exact entry
  | cons target rest ih =>
      unfold grantTargets
      split
      · exact ih entry
      · next l _ =>
          refine (RequestSet.requests_laid env.pre target named).bind fun requested laid => ?_
          match requested, laid with
          | .error _, _ => exact .pure nofun
          | .ok none, _ => exact ih entry
          | .ok (some request), laid =>
              exact ((entry.2.get l).1.merge (laid request rfl)).yields.bind fun x kept =>
                ih ⟨entry.1, entry.2.update kept⟩

theorem entryTuple_atEntry :
    Ends allowed (entryTuple env) fun granted => ∀ t, granted = .ok t → AtEntry env t :=
  Ends.options.bind fun _ _ => .liftSupply (grantTargets_atEntry env _ (emptyEntry_atEntry env) _)

theorem AtEntry.sealed {t : Tuple} (entry : AtEntry env t) : t.Sealed env.receiver :=
  ⟨entry.1, fun e member => (entry.2 e member).imp_right fun only unpacked =>
    nomatch only unpacked⟩

/-- The context a body begins with, unless its specification contradicts itself. -/
def Enters (entered : Except RequestOverlap Context) : Prop :=
  ∀ c, entered = .ok c → c.Every (Tuple.Sealed env.receiver)

theorem entered_enters {t : Tuple} (closed : t.Sealed env.receiver) :
    Ends allowed (entered t) (Enters env) := by
  refine (Ends.log _).bind fun _ _ => .pure ?_
  rintro _ ⟨⟩
  exact Context.every_tensor closed

theorem methodEntry_enters : Ends allowed (methodEntry env) (Enters env) := by
  unfold methodEntry
  split
  · refine (Ends.freshBranch .root _).bind fun b _ => .pure ?_
    rintro _ ⟨⟩
    exact nofun
  · refine (entryTuple_atEntry env).bind fun granted known => ?_
    cases granted with
    | error overlap => exact .pure nofun
    | ok t => exact entered_enters env (known t rfl).sealed

theorem constructorEntry_enters : Ends allowed (constructorEntry env) (Enters env) := by
  unfold constructorEntry
  split
  · refine (Ends.freshBranch .root _).bind fun b _ => .pure ?_
    rintro _ ⟨⟩
    exact nofun
  · refine (entryTuple_atEntry env).bind fun granted known => ?_
    cases granted with
    | error overlap => exact .pure nofun
    | ok t =>
        have entry := known t rfl
        dsimp only
        split
        · next r c own _ =>
            have orphan : (RequestSet.ofRequest c.space (.orphan c.space alive true [])).Laid :=
              ⟨nofun, List.forall_mem_singleton.mpr (RequestSet.constant_laid c.space alive .one)⟩
            refine Ends.bind (.liftSupply ((entry.2.get r).1.merge orphan).yields) fun x kept => ?_
            -- A merge unpacks nothing, so the receiver is still to be unpacked.
            have packed : (t.set r x).Packed r := by
              refine ⟨own ▸ entry.sealed.update kept, ?_⟩
              rw [Tuple.get_set_self, kept.isUnpacked, Bool.eq_false_iff]
              exact fun unpacked => nomatch (entry.2.get r).2 unpacked
            refine (packed.unpackReceiver c alive).bind fun opened closed => ?_
            exact entered_enters env (own ▸ closed)
        · exact entered_enters env entry.sealed

end Entry

end Flow

end Typestate
