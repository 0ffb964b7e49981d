import Typestate.Proofs.Context.Leaves
import Typestate.Tuple.Packing

set_option autoImplicit false

/-!
What packing and unpacking touch. A tuple changes at its receiver and at the places of its fields
only, and every tensor that results is on the branch it started from or on one opened under it.
-/

namespace Typestate

open Analysis BranchTree Context

namespace Tuple

/-- The locations that packing and unpacking have to do with. -/
def Own (t : Tuple) (l : Location) : Prop :=
  t.receiver = some l ∨ ∃ field, t.fieldLocation? field = some l

/-- A property that tuples keep whatever is put at the given places, their own among them. -/
structure Footprint (places : Location → Prop) (P : Tuple → Prop) : Prop where
  own : ∀ {t : Tuple}, P t → ∀ {l : Location}, t.Own l → places l
  set : ∀ {t : Tuple}, P t → ∀ {l : Location}, places l → ∀ x : Holding, P (t.set l x)

/-- Nothing is asked of tuples. -/
theorem Footprint.any : Footprint (fun _ => True) fun _ => True :=
  ⟨fun _ _ _ => trivial, fun _ _ _ _ => trivial⟩

variable {places : Location → Prop} {P : Tuple → Prop} {t : Tuple}

theorem loop_yields {α : Type} {step : Tuple → α → SupplyM (Option Tuple)}
    {loop : Tuple → List α → SupplyM (Option Tuple)} (nil : ∀ t, loop t [] = return some t)
    (cons : ∀ t x rest, loop t (x :: rest) = do
      match ← step t x with
      | some next => loop next rest
      | none => return none) {xs : List α}
    (each : ∀ x ∈ xs, ∀ t, P t → Yields (step t x) fun left => ∀ u, left = some u → P u)
    (holds : P t) : Yields (loop t xs) fun left => ∀ u, left = some u → P u := by
  induction xs generalizing t with
  | nil =>
    rw [nil]
    exact .pure (by simpa using holds)
  | cons x rest ih =>
    rw [cons]
    refine (each x List.mem_cons_self t holds).bind fun left known => ?_
    cases left with
    | none => exact .pure nofun
    | some next => exact ih (fun y later => each y (List.mem_cons_of_mem x later)) (known next rfl)

namespace Footprint

theorem grant (area : Footprint places P) (holds : P t) (c : Clause) : Yields (t.grant c) P := by
  unfold Tuple.grant
  split
  · exact .pure holds
  · next l found =>
    refine .after fun request => .after fun x => .pure (area.set holds ?_ x)
    exact area.own holds (.inr ⟨c.target, found⟩)

theorem takeClause (area : Footprint places P) (holds : P t) (c : Clause) :
    Yields (t.takeClause c) fun taken => ∀ u, taken = some u → P u := by
  unfold Tuple.takeClause
  split
  · exact .pure nofun
  · next l found =>
    refine .after fun request => .ite (fun _ => .pure nofun) fun _ =>
      .after fun rest => .ite (fun _ => .pure nofun) fun _ => .pure ?_
    rintro _ ⟨⟩
    exact area.set holds (area.own holds (.inr ⟨c.target, found⟩)) rest

theorem takeClauses (area : Footprint places P) (holds : P t) (cs : List Clause) :
    Yields (t.takeClauses cs) fun taken => ∀ u, taken = some u → P u :=
  loop_yields (fun _ => rfl) (fun _ _ _ => rfl) (fun c _ _ holds => area.takeClause holds c) holds

theorem takeInvariants (area : Footprint places P) (holds : P t)
    (invs : List (String × Predicate)) :
    Yields (t.takeInvariants invs) fun taken => ∀ u, taken = .ok u → P u := by
  induction invs generalizing t with
  | nil =>
    refine .pure ?_
    rintro _ ⟨⟩
    exact holds
  | cons inv rest ih =>
    have one : Yields (t.takeInvariant inv.2) fun taken => ∀ u, taken = some u → P u := by
      cases inv.2 with
      | void => exact .pure nofun
      | clauses cs => exact area.takeClauses holds cs
    unfold Tuple.takeInvariants
    refine one.bind fun taken known => ?_
    cases taken with
    | none => exact .pure nofun
    | some next => exact ih (known next rfl)

variable {start : BranchTree} (c : ClassDecl)

theorem receiverOrFault (t : Tuple) :
    Grows start (liftFault t.receiverOrFault) fun _ l => t.receiver = some l := by
  refine .liftFault fun l found => ?_
  unfold Tuple.receiverOrFault at found
  split at found
  · next r own =>
    cases found
    exact own
  · cases found

theorem unpackReceiver (area : Footprint places P) (holds : P t) (root : String) :
    Grows start (t.unpackReceiver c root) fun _ => P := by
  refine (receiverOrFault t).bind fun _ l _ own => ?_
  refine Grows.bind (.liftGuarded fun work _ => .any work) fun _ x _ _ =>
    (Grows.log _).bind fun _ _ _ _ => .liftSupply ?_
  exact .foldlM _ (fun u clause _ known => area.grant known clause)
    (area.set holds (area.own holds (.inl own)) x)

theorem packReceiver (area : Footprint places P) (holds : P t) (states : List String) :
    Grows start (t.packReceiver c states) fun _ result => ∀ u, result = .ok u → P u := by
  refine (receiverOrFault t).bind fun _ l _ own => ?_
  split
  · exact .still (fun _ => rfl) nofun
  · refine Grows.bind (.liftSupply (area.takeInvariants holds _)) fun _ taken _ known => ?_
    cases taken with
    | error failed => exact (Grows.log _).bind fun _ _ _ _ => .pure fun _ _ => nofun
    | ok next =>
      refine Grows.bind (.liftGuarded fun work _ => .any work) fun _ x _ _ =>
        (Grows.log _).bind fun _ _ _ _ => .pure fun _ _ => ?_
      rintro _ ⟨⟩
      -- The receiver is that of the tuple before the invariants were taken.
      exact area.set (known next rfl) (area.own holds (.inl own)) x

section Branches

variable {mark : BranchTree → Branch → Prop} {b : Branch}

theorem ofTuples (lasting : Inherited mark) (marked : mark start b) (purpose : String)
    {ts : List Tuple} (each : ∀ t ∈ ts, P t) :
    Grows start (Context.ofTuples b purpose ts) (Bears mark P) := by
  have branched : Grows start (do
      return Context.choice (← ts.mapM fun t => do return .tensor t (← freshBranch b purpose)))
      (Bears mark P) := by
    refine Bears.node lasting .choice fun t member => ?_
    exact (Grows.freshBranch lasting marked purpose).bind fun _ _ _ opened =>
      (Bears.tensor opened (each t member)).stays lasting
  match ts, each, branched with
  | [], _, branched => exact branched
  | [t], each, _ => exact (Bears.tensor marked (each t List.mem_cons_self)).stays lasting
  | _ :: _ :: _, _, branched => exact branched

theorem unpackPacked (area : Footprint places P) (lasting : Inherited mark) (holds : P t)
    (marked : mark start b) (receiver : Location) (root : String) (keepPacked : Bool) :
    Grows start (t.unpackPacked c receiver b root keepPacked)
      (Bears mark P) := by
  refine (Grows.mapM (fun _ => id) _ fun root _ => area.unpackReceiver c holds root).bind
    fun _ unpacked grown paired => ofTuples lasting (lasting.grows grown marked) "unpack"
      (List.forall_mem_append.mpr ⟨?_, fun u member => ?_⟩)
  · split
    · exact List.forall_mem_singleton.mpr holds
    · exact nofun
  · obtain ⟨_, -, known⟩ := exists_left_of_forall₂ paired member
    exact known

theorem packToEach (area : Footprint places P) (holds : P t) (failure : Option FailedPack)
    (states : List String) :
    Grows start (t.packToEach c failure states) fun _ result => ∀ u ∈ result.1, P u := by
  induction states generalizing failure start with
  | nil => exact .pure fun _ _ => nofun
  | cons state rest ih =>
    unfold Tuple.packToEach
    refine (area.packReceiver c holds [state]).bind fun _ result _ known => ?_
    cases result with
    | error failed => exact ih _
    | ok packed =>
      exact (ih failure).bind fun _ others _ later =>
        .pure fun _ _ => List.forall_mem_cons.mpr ⟨known packed rfl, later⟩

theorem packToGuesses (area : Footprint places P) (lasting : Inherited mark) (holds : P t)
    (marked : mark start b) (u : Permission) (failure : Option FailedPack) :
    Grows start (t.packToGuesses c u failure b) (Bears mark P) := by
  refine (area.packToEach c holds failure _).bind fun tree (tuples, failure) grown known => ?_
  have stays := lasting.grows grown marked
  dsimp only
  split
  · refine (area.packReceiver c holds []).bind fun _ result further packed => ?_
    have stays := lasting.grows further stays
    cases result with
    | error failed => exact (Bears.packFailed stays).stays lasting
    | ok toRoot => exact (Bears.tensor stays (packed toRoot rfl)).stays lasting
  · exact ofTuples lasting stays "pack" known

theorem packToBestGuess (area : Footprint places P) (lasting : Inherited mark) (holds : P t)
    (marked : mark start b) :
    Grows start (t.packToBestGuess c b) (Bears mark P) := by
  unfold Tuple.packToBestGuess
  split
  · exact (Bears.tensor marked holds).stays lasting
  · next u _ =>
    refine .ite (fun _ => area.packToGuesses c lasting holds marked u none) fun _ => ?_
    refine (area.packReceiver c holds u.states).bind fun _ result grown known => ?_
    have stays := lasting.grows grown marked
    cases result with
    | error failed => exact area.packToGuesses c lasting holds stays u _
    | ok packed => exact (Bears.tensor stays (known packed rfl)).stays lasting

theorem unpackToReach (area : Footprint places P) (lasting : Inherited mark) (holds : P t)
    (marked : mark start b) (root : String) (keepPacked : Bool) :
    Grows start (t.unpackToReach c b root keepPacked) (Bears mark P) := by
  have stays : Grows start (pure (.tensor t b)) (Bears mark P) :=
    (Bears.tensor marked holds).stays lasting
  unfold Tuple.unpackToReach
  split
  · exact stays
  · next receiver _ =>
    refine .ite (fun _ => stays) fun _ => ?_
    split
    · exact area.unpackPacked c lasting holds marked receiver root keepPacked
    · refine .ite (fun _ => stays) fun _ => ?_
      exact (area.packToBestGuess c lasting holds marked).bind fun _ packed _ bears =>
        bears.mapTensors lasting fun t b holds marked =>
          area.unpackPacked c lasting holds marked receiver root keepPacked

theorem repack (area : Footprint places P) (lasting : Inherited mark) (holds : P t)
    (marked : mark start b) (receiver : Location) (needed : List String) :
    Grows start (t.repack c receiver needed b) (Bears mark P) := by
  unfold Tuple.repack
  split
  · exact (Bears.tensor marked holds).stays lasting
  · refine (area.packReceiver c holds _).bind fun _ result grown known => ?_
    have stays := lasting.grows grown marked
    cases result with
    | error failed => exact (Bears.packFailed stays).stays lasting
    | ok packed =>
      exact .ite (fun _ => (Bears.tensor stays (known packed rfl)).stays lasting)
        fun _ => (Bears.stuck stays).stays lasting

theorem wranglePacked (area : Footprint places P) (lasting : Inherited mark) (holds : P t)
    (marked : mark start b) (receiver : Location) (needed : List String) :
    Grows start (t.wranglePacked c receiver b needed) (Bears mark P) := by
  have reached (root : String) : Grows start (do
      (← t.unpackToReach c b root false).mapTensors fun t b => t.repack c receiver needed b)
      (Bears mark P) :=
    (area.unpackToReach c lasting holds marked root false).bind fun _ unpacked _ bears =>
      bears.mapTensors lasting fun t b holds marked =>
        area.repack c lasting holds marked receiver needed
  unfold Tuple.wranglePacked
  refine .ite (fun _ => (Bears.tensor marked holds).stays lasting)
    fun _ => ?_
  split
  · exact (Bears.stuck marked).stays lasting
  · exact reached _
  · exact reached _

theorem wrangle (area : Footprint places P) (lasting : Inherited mark) (holds : P t)
    (marked : mark start b) (needed : List String) (needNotPack : Bool) :
    Grows start (t.wrangle c b needed needNotPack) (Bears mark P) := by
  have stays : Grows start (pure (.tensor t b)) (Bears mark P) :=
    (Bears.tensor marked holds).stays lasting
  unfold Tuple.wrangle
  split
  · exact stays
  · next receiver _ =>
    refine .ite (fun _ => stays) fun _ => .ite (fun _ => ?_) fun _ => ?_
    · exact .ite (fun _ => stays) fun _ => area.packToBestGuess c lasting holds marked
    · split
      · exact area.wranglePacked c lasting holds marked receiver needed
      · refine (area.packReceiver c holds _).bind fun _ result grown known => ?_
        have still := lasting.grows grown marked
        cases result with
        | error failed => exact (Bears.packFailed still).stays lasting
        | ok packed =>
          exact area.wranglePacked c lasting (known packed rfl) still receiver needed

end Branches

end Footprint

end Tuple

end Typestate
