import Typestate.Proofs.Holding.Unpacking
import Typestate.Proofs.Tuple.Taking

set_option autoImplicit false

/-!
Bringing the receiver into states. However it is packed, unpacked and packed again on the way, and
however many ways there are, it is packed in the needed states wherever there is a way on.
-/

namespace Typestate

open Analysis

namespace Context

variable {P Q : Tuple → Prop}

theorem mapTensors_delivers {f : Tuple → Branch → AnalysisM Context}
    (each : ∀ t b, P t → Delivers (f t b) (Every Q)) {c : Context} (every : c.Every P) :
    Delivers (c.mapTensors f) (Every Q) := by
  induction c using leaf_induction with
  | stuck | packFailed | unreachable => exact .pure nofun
  | tensor t b => exact each t b (every t List.mem_cons_self)
  | node j es ih =>
    rw [every_node] at every
    rw [mapTensors_node]
    have inside := Delivers.mapM es fun e member => ih e member (every e member)
    exact inside.bind fun ds known => .pure ((every_node j ds).mpr known)

theorem ofTuples_delivers (b : Branch) (purpose : String) {ts : List Tuple}
    (each : ∀ t ∈ ts, P t) : Delivers (ofTuples b purpose ts) (Every P) := by
  have branched : Delivers (do
      return Context.choice (← ts.mapM fun t => do return .tensor t (← freshBranch b purpose)))
      (Every P) := by
    refine (Delivers.mapM ts fun t member => ?_).bind fun es known =>
      .pure ((every_node .choice es).mpr known)
    exact (Delivers.freshBranch b purpose).bind fun _ _ => .pure (every_tensor (each t member))
  match ts, each, branched with
  | [], _, branched => exact branched
  | [t], each, _ => exact .pure (every_tensor (each t List.mem_cons_self))
  | _ :: _ :: _, _, branched => exact branched

end Context

namespace Holding

variable {x : Holding}

theorem isInStates_iff (needed : List String) (inFrame : Bool) :
    x.isInStates needed inFrame = true ↔ ∀ s ∈ needed, x.isInState s inFrame = true :=
  List.all_eq_true

theorem isInStates_of_isBottom (bottom : x.isBottom = true) (needed : List String)
    (inFrame : Bool) : x.isInStates needed inFrame = true :=
  (isInStates_iff needed inFrame).mpr fun s _ => by simp [isInState, bottom]

theorem isUnpacked_of_isBottom (bottom : x.isBottom = true) : x.isUnpacked = false := by
  cases x with
  | bottom => rfl
  | held h => cases bottom

end Holding

namespace Tuple

/-- The receiver is at the given place, unpacked or not. -/
structure Stands (r : Location) (unpacked : Bool) (t : Tuple) : Prop where
  receiver : t.receiver = some r
  isUnpacked : (t.get r).isUnpacked = unpacked

/-- The receiver is packed in the needed states. -/
structure Ready (r : Location) (needed : List String) (t : Tuple) : Prop
    extends Stands r false t where
  isInStates : (t.get r).isInStates needed true = true

/-- The receiver is at the given place and unpacked at a root. -/
structure Unfolded (r : Location) (root : String) (t : Tuple) : Prop where
  receiver : t.receiver = some r
  opens : ∃ p, (t.get r).OpenAt root p

variable {t : Tuple} {r : Location} {root : String} (c : ClassDecl) (b : Branch)

theorem Stands.unpacked_eq_none (stands : t.Stands r false) : (t.get r).unpacked = none :=
  Option.isSome_eq_false_iff.mp stands.isUnpacked |> Option.isNone_iff_eq_none.mp

theorem Stands.exists_unpacked (stands : t.Stands r true) : ∃ u, (t.get r).unpacked = some u :=
  Option.isSome_iff_exists.mp stands.isUnpacked

theorem Unfolded.stands (opened : t.Unfolded r root) : t.Stands r true := by
  obtain ⟨p, opens⟩ := opened.opens
  exact ⟨opened.receiver, Holding.isUnpacked_of_some opens.unpacked⟩

theorem Unfolded.grant (opened : t.Unfolded r root) (clause : Clause) :
    Yields (t.grant clause) (Unfolded r root) := by
  obtain ⟨p, opens⟩ := opened.opens
  unfold Tuple.grant
  split
  · exact .pure opened
  · next l _ =>
    refine .after fun request => ?_
    by_cases here : r = l
    · subst here
      refine (opens.merge request).bind fun x still => .pure ⟨opened.receiver, p, ?_⟩
      rw [get_set_self]
      exact still
    · refine .after fun x => .pure ⟨opened.receiver, p, ?_⟩
      rw [get_set_of_ne t x here]
      exact opens

/-- Unpacking hands permissions out. The receiver may get some as well, but it stays unpacked. -/
theorem Stands.unpackReceiver (stands : t.Stands r false) (root : String) :
    Delivers (t.unpackReceiver c root) (Unfolded r root) := by
  obtain ⟨work, done, opens⟩ := Holding.exists_unpack stands.isUnpacked c.space root
  unfold Tuple.unpackReceiver
  rw [receiverOrFault_of_some stands.receiver]
  simp only [liftFault, pure_bind]
  refine (Delivers.liftGuarded done opens).bind fun x opened => (Delivers.log _).bind fun _ _ => ?_
  refine .liftSupply
    (.foldlM _ (fun u clause _ opened => opened.grant clause) ⟨stands.receiver, ?_⟩)
  rw [get_set_self]
  exact opened

theorem Stands.packReceiver (stands : t.Stands r true) (states : List String) :
    Delivers (t.packReceiver c states) fun result =>
      ∀ packed, result = .ok packed → packed.Stands r false := by
  obtain ⟨u, unpacked⟩ := stands.exists_unpacked
  have delivers : Delivers (t.packReceiver c states) _ :=
    packReceiver_delivers stands.receiver unpacked
  refine delivers.imp fun result ⟨_, packs⟩ packed ended => ?_
  obtain ⟨staged, x, leaves, shut, rfl⟩ := packs packed ended
  refine ⟨leaves.receiver.trans stands.receiver, ?_⟩
  rw [get_set_self]
  exact Holding.isUnpacked_of_none shut

theorem Stands.unpackPacked (stands : t.Stands r false) (root : String) :
    Delivers (t.unpackPacked c r b root false) (Context.Every fun u =>
      ∃ n ∈ unpackCandidates c.space (t.get r).frameRoots root, u.Unfolded r n) := by
  refine (Delivers.mapM _ fun n member => ?_).bind fun tuples known =>
    Context.ofTuples_delivers b "unpack" known
  exact (stands.unpackReceiver c n).imp fun u opened => ⟨n, member, opened⟩

section Guessing

-- Whatever state a pack goes to, what it leads to has the property.
variable {P : Tuple → Prop} (packs : ∀ states, Delivers (t.packReceiver c states) fun result =>
  ∀ packed, result = .ok packed → P packed)

include packs

theorem packToEach_delivers (failure : Option FailedPack) (states : List String) :
    Delivers (t.packToEach c failure states) fun result => ∀ u ∈ result.1, P u := by
  induction states generalizing failure with
  | nil => exact .pure nofun
  | cons state rest ih =>
    unfold Tuple.packToEach
    refine (packs [state]).bind fun result known => ?_
    cases result with
    | error failed => exact ih _
    | ok packed =>
      exact (ih failure).bind fun others later =>
        .pure (List.forall_mem_cons.mpr ⟨known packed rfl, later⟩)

theorem packToGuesses_delivers (u : Permission) (failure : Option FailedPack) :
    Delivers (t.packToGuesses c u failure b) (Context.Every P) := by
  refine (packToEach_delivers c packs failure _).bind fun (tuples, failure) known => ?_
  refine .ite (fun _ => ?_) fun _ => Context.ofTuples_delivers b "pack" known
  refine (packs []).bind fun result packed => ?_
  cases result with
  | error failed => exact .pure nofun
  | ok toRoot => exact .pure (Context.every_tensor (packed toRoot rfl))

theorem packToBestGuess_delivers_packed (receiver : t.receiver = some r) {u : Permission}
    (unpacked : (t.get r).unpacked = some u) :
    Delivers (t.packToBestGuess c b) (Context.Every P) := by
  have shape : t.unpacked? = some u := by rw [unpacked?, receiver, ← unpacked]; rfl
  unfold Tuple.packToBestGuess
  rw [shape]
  refine .ite (fun _ => packToGuesses_delivers c b packs u none) fun _ => ?_
  refine (packs u.states).bind fun result known => ?_
  cases result with
  | error failed => exact packToGuesses_delivers c b packs u (some failed)
  | ok packed => exact .pure (Context.every_tensor (known packed rfl))

end Guessing

theorem packToBestGuess_delivers (receiver : t.receiver = some r) :
    Delivers (t.packToBestGuess c b) (Context.Every (Stands r false)) := by
  cases held : (t.get r).unpacked with
  | none =>
    have shape : t.unpacked? = none := by rw [unpacked?, receiver, ← held]; rfl
    unfold Tuple.packToBestGuess
    rw [shape]
    exact .pure (Context.every_tensor ⟨receiver, Holding.isUnpacked_of_none held⟩)
  | some u =>
    have stands : t.Stands r true := ⟨receiver, Holding.isUnpacked_of_some held⟩
    exact packToBestGuess_delivers_packed c b (stands.packReceiver c) receiver held

theorem Stands.repack (stands : t.Stands r true) (needed : List String) :
    Delivers (t.repack c r needed b) (Context.Every (Ready r needed)) := by
  obtain ⟨u, unpacked⟩ := stands.exists_unpacked
  unfold Tuple.repack
  rw [unpacked]
  refine (stands.packReceiver c _).bind fun result known => ?_
  cases result with
  | error failed => exact .pure nofun
  | ok packed =>
    refine .ite (fun met => .pure (Context.every_tensor ?_)) fun _ => .pure nofun
    exact ⟨known packed rfl, met⟩

theorem Stands.unpackToReach_eq (stands : t.Stands r false) (reached : (t.get r).isBottom = false)
    (root : String) (keepPacked : Bool) :
    t.unpackToReach c b root keepPacked = t.unpackPacked c r b root keepPacked := by
  unfold Tuple.unpackToReach
  simp [stands.receiver, reached, stands.unpacked_eq_none]

theorem Stands.wranglePacked (stands : t.Stands r false) (needed : List String) :
    Delivers (t.wranglePacked c r b needed) (Context.Every (Ready r needed)) := by
  have missing_iff : (needed.filter fun s => !(t.get r).isInState s true).isEmpty = true ↔
      (t.get r).isInStates needed true = true := by
    simp [Holding.isInStates_iff]
  unfold Tuple.wranglePacked
  refine .ite (fun nothing => .pure (Context.every_tensor ⟨stands, missing_iff.mp nothing⟩))
    fun missing => ?_
  -- Nothing is missing before the receiver is reached.
  have reached : (t.get r).isBottom = false := by
    refine Bool.eq_false_iff.mpr fun bottom => missing (missing_iff.mpr ?_)
    exact Holding.isInStates_of_isBottom bottom needed true
  have tried (root : String) : Delivers (do
      (← t.unpackToReach c b root false).mapTensors fun t b => t.repack c r needed b)
      (Context.Every (Ready r needed)) := by
    rw [stands.unpackToReach_eq c b reached]
    refine (stands.unpackPacked c b root).bind fun unpacked every => ?_
    refine Context.mapTensors_delivers (fun t b found => ?_) every
    obtain ⟨n, -, opened⟩ := found
    exact opened.stands.repack c b needed
  split
  · exact .pure nofun
  · exact tried _
  · exact tried _

theorem wrangle_ready (receiver : t.receiver = some r) {needed : List String}
    (asked : needed ≠ []) (needNotPack : Bool) :
    Delivers (t.wrangle c b needed needNotPack) (Context.Every (Ready r needed)) := by
  unfold Tuple.wrangle
  rw [receiver]
  refine .ite (fun bottom => .pure (Context.every_tensor ?_)) fun _ =>
    .ite (fun nothing => ?_) fun _ => ?_
  · exact ⟨⟨receiver, Holding.isUnpacked_of_isBottom bottom⟩,
      Holding.isInStates_of_isBottom bottom needed true⟩
  · exact absurd (List.isEmpty_iff.mp nothing) asked
  · cases held : (t.get r).unpacked with
    | none =>
      have stands : t.Stands r false := ⟨receiver, Holding.isUnpacked_of_none held⟩
      exact stands.wranglePacked c b needed
    | some u =>
      have stands : t.Stands r true := ⟨receiver, Holding.isUnpacked_of_some held⟩
      refine (stands.packReceiver c _).bind fun result known => ?_
      cases result with
      | error failed => exact .pure nofun
      | ok packed => exact (known packed rfl).wranglePacked c b needed

theorem wrangle_nothing (receiver : t.receiver = some r) (needNotPack : Bool) :
    Delivers (t.wrangle c b [] needNotPack)
      (Context.Every fun u => u.receiver = some r ∧
        (needNotPack = false → (u.get r).isUnpacked = false)) := by
  unfold Tuple.wrangle
  rw [receiver]
  refine .ite (fun bottom => .pure (Context.every_tensor ?_)) fun _ =>
    .ite (fun _ => .ite (fun stays => .pure (Context.every_tensor ?_)) fun _ => ?_) fun some => ?_
  · exact ⟨receiver, fun _ => Holding.isUnpacked_of_isBottom bottom⟩
  · refine ⟨receiver, fun must => ?_⟩
    simpa [must] using stays
  · refine (packToBestGuess_delivers c b receiver).imp fun _ every u member => ?_
    exact ⟨(every u member).receiver, fun _ => (every u member).isUnpacked⟩
  · exact absurd rfl some

/-- Wrangling comes to an end, and every tensor that it leads to has the receiver packed and in the
needed states. If none is needed it is packed there all the same, unless it need not be. -/
theorem wrangle_delivers_states (receiver : t.receiver = some r) (needed : List String)
    (needNotPack : Bool) (session : Session) :
    (session.logging = false →
      ∃ context next, (t.wrangle c b needed needNotPack).run.run session = (.ok context, next)) ∧
    ∀ context next, (t.wrangle c b needed needNotPack).run.run session = (.ok context, next) →
      ∀ u ∈ context.tuples, u.receiver = some r ∧
        (needed ≠ [] → (u.get r).isUnpacked = false ∧ (u.get r).isInStates needed true = true) ∧
        (needed = [] → needNotPack = false → (u.get r).isUnpacked = false) := by
  have delivers : Delivers (t.wrangle c b needed needNotPack) (Context.Every fun u =>
      u.receiver = some r ∧
        (needed ≠ [] → (u.get r).isUnpacked = false ∧ (u.get r).isInStates needed true = true) ∧
        (needed = [] → needNotPack = false → (u.get r).isUnpacked = false)) := by
    by_cases asked : needed = []
    · subst asked
      refine (wrangle_nothing c b receiver needNotPack).imp fun _ every u member => ?_
      exact ⟨(every u member).1, absurd rfl, fun _ => (every u member).2⟩
    · refine (wrangle_ready c b receiver asked needNotPack).imp fun _ every u member => ?_
      obtain ⟨⟨stays, packed⟩, met⟩ := every u member
      exact ⟨stays, fun _ => ⟨packed, met⟩, fun none => absurd none asked⟩
  refine ⟨fun quiet => ?_, fun context next ran => delivers.result ran⟩
  obtain ⟨context, next, ran, -⟩ := delivers.returns quiet
  exact ⟨context, next, ran⟩

section Chains

open Link

/-- A link that is shut is unpacked, and packed again as an open one. -/
theorem wrangle_delivers_states_of_link :
    let shut := (chain ⟨4⟩ ⟨2⟩).set ⟨0⟩
      (.held ⟨[], [(whole true).withStates ["shut"]], none, .empty⟩)
    (shut.get ⟨0⟩).isInStates ["open"] true = false ∧
      ∃ context next, (shut.wrangle link .root ["open"] false).run.run Session.new =
        (.ok context, next) ∧ context.tuples.length = 1 ∧
        ∀ u ∈ context.tuples, u.receiver = some ⟨0⟩ ∧ (u.get ⟨0⟩).isUnpacked = false ∧
          (u.get ⟨0⟩).isInStates ["open"] true = true := by
  intro shut
  have runs : leadsTo (shut.wrangle link .root ["open"] false) Session.new
      (fun context _ => context.tuples.length == 1) = true := by
    decide +kernel
  obtain ⟨context, next, ran, single⟩ := exists_of_leadsTo runs
  have receiver : shut.receiver = some ⟨0⟩ := rfl
  have states := (wrangle_delivers_states link .root receiver ["open"] false Session.new).2
  refine ⟨by decide +kernel, context, next, ran, by simpa using single, fun u member => ?_⟩
  obtain ⟨same, ready, -⟩ := states context next ran u member
  exact ⟨same, ready (by decide)⟩

end Chains

end Tuple

end Typestate
