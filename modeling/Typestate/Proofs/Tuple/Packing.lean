import Typestate.Proofs.Context.Leaves
import Typestate.Proofs.Holding.Contracts
import Typestate.Proofs.Session
import Typestate.Proofs.SortedMap
import Typestate.Tuple.Packing

set_option autoImplicit false

/-!
The protocol of packing and unpacking. Nothing but the receiver is ever unpacked, a receiver is
unpacked only while it is packed, and packed only while it is not.
-/

namespace Typestate

open Analysis

namespace Context

variable {P Q : Tuple → Prop}

theorem Every.mapTensors {allowed : Fault → Prop} {f : Tuple → Branch → AnalysisM Context}
    (each : ∀ t b, P t → Ends allowed (f t b) (Every Q)) {c : Context} (every : c.Every P) :
    Ends allowed (c.mapTensors f) (Every Q) := by
  induction c using leaf_induction with
  | stuck | packFailed | unreachable => exact .pure nofun
  | tensor t b => exact each t b (every t List.mem_cons_self)
  | node j es ih =>
      rw [every_node] at every
      rw [mapTensors_node]
      exact (Ends.mapM es fun e member => ih e member (every e member)).bind fun ds known =>
        .pure ((every_node j ds).mpr known)

end Context

namespace Tuple

/-- All shares are complete, and nothing is unpacked except, perhaps, at the given location. -/
def OpenAt (place : Option Location) (t : Tuple) : Prop :=
  ∀ entry ∈ t.holdings.entries, entry.2.Laid ∧ (entry.2.isUnpacked = true → place = some entry.1)

/-- The receiver is as given, and nothing else is unpacked. -/
structure Sealed (own : Option Location) (t : Tuple) : Prop where
  receiver : t.receiver = own
  holdings : t.OpenAt own

/-- Not even the receiver is unpacked. -/
structure Packed (own : Location) (t : Tuple) : Prop extends Sealed (some own) t where
  packed : (t.get own).isUnpacked = false

variable {receiver place : Option Location} {r l : Location} {t : Tuple}

theorem get_set_self (t : Tuple) (l : Location) (x : Holding) : (t.set l x).get l = x := by
  simp [get, set, SortedMap.get?_insert_self]

theorem get_set_of_ne (t : Tuple) {l other : Location} (x : Holding) (apart : other ≠ l) :
    (t.set l x).get other = t.get other := by
  simp only [get, set, SortedMap.get?_insert_of_ne t.holdings x apart]

namespace OpenAt

theorem get (only : t.OpenAt place) (l : Location) :
    (t.get l).Laid ∧ ((t.get l).isUnpacked = true → place = some l) := by
  unfold Tuple.get
  cases found : t.holdings.get? l with
  | none => exact ⟨⟨nofun, nofun, nofun⟩, nofun⟩
  | some x => exact only (l, x) (SortedMap.mem_of_get? found)

theorem set (only : t.OpenAt place) {x : Holding} (laid : x.Laid)
    (unpacked : x.isUnpacked = true → place = some l) : (t.set l x).OpenAt place := by
  intro entry member
  rcases SortedMap.mem_insert member with rfl | old
  · exact ⟨laid, unpacked⟩
  · exact only entry old

theorem update (only : t.OpenAt place) {x : Holding} (kept : (t.get l).Kept x) :
    (t.set l x).OpenAt place :=
  only.set kept.1 fun unpacked => (only.get l).2 (kept.isUnpacked ▸ unpacked)

end OpenAt

theorem Sealed.get (closed : t.Sealed receiver) (l : Location) :
    (t.get l).Laid ∧ ((t.get l).isUnpacked = true → receiver = some l) := closed.holdings.get l

theorem Sealed.set (closed : t.Sealed receiver) {x : Holding} (laid : x.Laid)
    (only : x.isUnpacked = true → receiver = some l) : (t.set l x).Sealed receiver :=
  ⟨closed.receiver, closed.holdings.set laid only⟩

theorem Sealed.update (closed : t.Sealed receiver) {x : Holding} (kept : (t.get l).Kept x) :
    (t.set l x).Sealed receiver := ⟨closed.receiver, closed.holdings.update kept⟩

theorem Sealed.only (closed : t.Sealed receiver) :
    ∀ u, some t = some u → u.Sealed receiver := fun _ same => Option.some.inj same ▸ closed

theorem Sealed.mapField (closed : t.Sealed receiver) (field : String) (l : Location) :
    (t.mapField field l).Sealed receiver := ⟨closed.receiver, closed.holdings⟩

theorem Sealed.forgetShared (closed : t.Sealed receiver) : t.forgetShared.Sealed receiver := by
  refine ⟨closed.receiver, List.forall_mem_map.mpr fun entry member => ?_⟩
  obtain ⟨laid, only⟩ := closed.holdings entry member
  have kept := laid.forgetShared
  exact ⟨kept.1, fun unpacked => only (kept.isUnpacked ▸ unpacked)⟩

theorem Sealed.grant (closed : t.Sealed receiver) (c : Clause) :
    Yields (t.grant c) (Sealed receiver) := by
  unfold Tuple.grant
  split
  · exact .pure closed
  · next l _ =>
      exact (RequestSet.ofSpec_laid c.space c.spec false).bind fun request requested =>
        ((closed.get l).1.merge requested).yields.bind fun x kept => .pure (closed.update kept)

theorem Sealed.takeClause (closed : t.Sealed receiver) (c : Clause) :
    Yields (t.takeClause c) fun taken => ∀ u, taken = some u → u.Sealed receiver := by
  unfold Tuple.takeClause
  split
  · exact .pure nofun
  · next l _ =>
      refine .after fun request => .ite (fun _ => .pure nofun) fun _ => ?_
      refine ((closed.get l).1.split request).yields.bind fun rest kept =>
        .ite (fun _ => .pure nofun) fun _ => .pure ?_
      rintro _ ⟨⟩
      exact closed.update kept

theorem Sealed.takeClauses (closed : t.Sealed receiver) (cs : List Clause) :
    Yields (t.takeClauses cs) fun taken => ∀ u, taken = some u → u.Sealed receiver := by
  induction cs generalizing t with
  | nil => exact .pure closed.only
  | cons c rest ih =>
      unfold Tuple.takeClauses
      refine (closed.takeClause c).bind fun taken known => ?_
      cases taken with
      | none => exact .pure nofun
      | some next => exact ih (known next rfl)

theorem Sealed.takeInvariants (closed : t.Sealed receiver) (invs : List (String × Predicate)) :
    Yields (t.takeInvariants invs) fun taken => ∀ u, taken = .ok u → u.Sealed receiver := by
  induction invs generalizing t with
  | nil =>
      refine .pure ?_
      rintro _ ⟨⟩
      exact closed
  | cons inv rest ih =>
      have one : Yields (t.takeInvariant inv.2) fun taken =>
          ∀ u, taken = some u → u.Sealed receiver := by
        cases inv.2 with
        | void => exact .pure nofun
        | clauses cs => exact closed.takeClauses cs
      unfold Tuple.takeInvariants
      refine one.bind fun taken known => ?_
      cases taken with
      | none => exact .pure nofun
      | some next => exact ih (known next rfl)

section Protocol

variable {allowed : Fault → Prop} (c : ClassDecl) (b : Branch)

theorem receiverOrFault_eq (closed : t.Sealed (some r)) : t.receiverOrFault = .ok r := by
  rw [receiverOrFault, closed.receiver]

theorem Packed.unpackReceiver (packed : t.Packed r) (root : String) :
    Ends allowed (t.unpackReceiver c root) (Sealed (some r)) := by
  obtain ⟨work, done, laid⟩ := (packed.get r).1.unpack packed.packed c.space root
  unfold Tuple.unpackReceiver
  rw [receiverOrFault_eq packed.toSealed]
  refine Ends.bind (.pure rfl : Ends allowed (pure r) (· = r)) fun l same => ?_
  subst same
  refine (Ends.liftGuarded done laid).bind fun x known => (Ends.log _).bind fun _ _ =>
    .liftSupply (.foldlM _ (fun u clause _ closed => closed.grant clause) ?_)
  exact packed.set known fun _ => rfl

theorem Sealed.packReceiver (closed : t.Sealed (some r)) (unpacked : (t.get r).isUnpacked = true)
    (states : List String) :
    Ends allowed (t.packReceiver c states) fun result => ∀ u, result = .ok u → u.Packed r := by
  unfold Tuple.packReceiver
  rw [receiverOrFault_eq closed]
  refine Ends.bind (.pure rfl : Ends allowed (pure r) (· = r)) fun l same => ?_
  subst same
  cases held : (t.get l).unpacked with
  | none =>
      rw [Holding.isUnpacked, held] at unpacked
      cases unpacked
  | some u =>
      refine (Ends.liftSupply (closed.takeInvariants _)).bind fun taken known => ?_
      cases taken with
      | error failed => exact (Ends.log _).bind fun _ _ => .pure nofun
      | ok next =>
          obtain ⟨work, done, honours⟩ :=
            (closed.get l).1.pack unpacked (c.statesUnder u.root states)
          refine (Ends.liftGuarded done honours.yields).bind fun x packed =>
            (Ends.log _).bind fun _ _ => .pure ?_
          rintro _ ⟨⟩
          -- What was taken for the invariants may be anything, since the receiver is set last.
          refine ⟨(known next rfl).set packed.1 fun _ => rfl, ?_⟩
          rw [get_set_self]
          exact packed.2

theorem ofTuples_every {P : Tuple → Prop} (purpose : String) {ts : List Tuple}
    (each : ∀ t ∈ ts, P t) : Ends allowed (Context.ofTuples b purpose ts) (Context.Every P) := by
  have branched : Ends allowed (do
      return Context.choice (← ts.mapM fun t => do return .tensor t (← freshBranch b purpose)))
      (Context.Every P) := by
    refine (Ends.mapM ts fun t member => ?_).bind fun es known =>
      .pure ((Context.every_node .choice es).mpr known)
    exact (Ends.freshBranch b purpose).bind fun _ _ => .pure (Context.every_tensor (each t member))
  match ts, each, branched with
  | [], _, branched => exact branched
  | [t], each, _ => exact .pure (Context.every_tensor (each t List.mem_cons_self))
  | _ :: _ :: _, _, branched => exact branched

theorem Packed.unpackPacked (packed : t.Packed r) (root : String) (keepPacked : Bool) :
    Ends allowed (t.unpackPacked c r b root keepPacked) (Context.Every (Sealed (some r))) := by
  refine (Ends.mapM _ fun root _ => packed.unpackReceiver c root).bind fun unpacked known =>
    ofTuples_every b "unpack" (List.forall_mem_append.mpr ⟨?_, known⟩)
  split
  · exact List.forall_mem_singleton.mpr packed.toSealed
  · exact nofun

theorem Sealed.packToEach (closed : t.Sealed (some r)) (unpacked : (t.get r).isUnpacked = true)
    (failure : Option FailedPack) (states : List String) :
    Ends allowed (t.packToEach c failure states) fun result => ∀ u ∈ result.1, u.Packed r := by
  induction states generalizing failure with
  | nil => exact .pure nofun
  | cons state rest ih =>
      unfold Tuple.packToEach
      refine (closed.packReceiver c unpacked [state]).bind fun result known => ?_
      cases result with
      | error failed => exact ih _
      | ok packed =>
          exact (ih failure).bind fun others later =>
            .pure (List.forall_mem_cons.mpr ⟨known packed rfl, later⟩)

theorem Sealed.packToGuesses (closed : t.Sealed (some r)) (unpacked : (t.get r).isUnpacked = true)
    (u : Permission) (failure : Option FailedPack) :
    Ends allowed (t.packToGuesses c u failure b) (Context.Every (Packed r)) := by
  refine (closed.packToEach c unpacked failure _).bind fun (tuples, failure) known => ?_
  dsimp only
  split
  · refine (closed.packReceiver c unpacked []).bind fun result packed => ?_
    cases result with
    | error failed => exact .pure nofun
    | ok toRoot => exact .pure (Context.every_tensor (packed toRoot rfl))
  · exact ofTuples_every b "pack" known

theorem Sealed.packToBestGuess (closed : t.Sealed (some r)) :
    Ends allowed (t.packToBestGuess c b) (Context.Every (Packed r)) := by
  have shape : t.unpacked? = (t.get r).unpacked := by rw [unpacked?, closed.receiver]; rfl
  unfold Tuple.packToBestGuess
  rw [shape]
  cases held : (t.get r).unpacked with
  | none => exact .pure (Context.every_tensor ⟨closed, Holding.isUnpacked_of_none held⟩)
  | some u =>
      have unpacked : (t.get r).isUnpacked = true := Holding.isUnpacked_of_some held
      dsimp only
      split
      · exact closed.packToGuesses c b unpacked u none
      · refine (closed.packReceiver c unpacked u.states).bind fun result known => ?_
        cases result with
        -- A pack that failed changed nothing, so the guesses start from the same tuple.
        | error failed => exact closed.packToGuesses c b unpacked u _
        | ok packed => exact .pure (Context.every_tensor (known packed rfl))

theorem Sealed.unpackToReach (closed : t.Sealed receiver) (root : String) (keepPacked : Bool) :
    Ends allowed (t.unpackToReach c b root keepPacked) (Context.Every (Sealed receiver)) := by
  have stays : Ends allowed (pure (.tensor t b)) (Context.Every (Sealed receiver)) :=
    .pure (Context.every_tensor closed)
  unfold Tuple.unpackToReach
  rw [closed.receiver]
  cases receiver with
  | none => exact stays
  | some r =>
      dsimp only
      split
      · exact stays
      · cases held : (t.get r).unpacked with
        | none =>
            have packed : t.Packed r := ⟨closed, Holding.isUnpacked_of_none held⟩
            exact packed.unpackPacked c b root keepPacked
        | some u =>
            dsimp only
            split
            · exact stays
            -- Another root is reached only by packing, so that each tuple is unpacked once.
            · exact (closed.packToBestGuess c b).bind fun packed every =>
                every.mapTensors fun t b packed => packed.unpackPacked c b root keepPacked

theorem Sealed.repack (closed : t.Sealed (some r)) (needed : List String) :
    Ends allowed (t.repack c r needed b) (Context.Every (Sealed (some r))) := by
  unfold Tuple.repack
  cases held : (t.get r).unpacked with
  | none => exact .pure (Context.every_tensor closed)
  | some u =>
      have unpacked : (t.get r).isUnpacked = true := Holding.isUnpacked_of_some held
      refine (closed.packReceiver c unpacked _).bind fun result known => ?_
      cases result with
      | error failed => exact .pure nofun
      | ok packed =>
          dsimp only
          split
          · exact .pure (Context.every_tensor (known packed rfl).toSealed)
          · exact .pure nofun

theorem Packed.wranglePacked (packed : t.Packed r) (needed : List String) :
    Ends allowed (t.wranglePacked c r b needed) (Context.Every (Sealed (some r))) := by
  have reached (root : String) : Ends allowed (do
      (← t.unpackToReach c b root false).mapTensors fun t b => t.repack c r needed b)
      (Context.Every (Sealed (some r))) :=
    (packed.toSealed.unpackToReach c b root false).bind fun unpacked every =>
      every.mapTensors fun t b closed => closed.repack c b needed
  unfold Tuple.wranglePacked
  dsimp only
  split
  · exact .pure (Context.every_tensor packed.toSealed)
  · split
    · exact .pure nofun
    · exact reached _
    · exact reached _

theorem Sealed.wrangle (closed : t.Sealed receiver) (needed : List String) (needNotPack : Bool) :
    Ends allowed (t.wrangle c b needed needNotPack) (Context.Every (Sealed receiver)) := by
  have stays : Ends allowed (pure (.tensor t b)) (Context.Every (Sealed receiver)) :=
    .pure (Context.every_tensor closed)
  unfold Tuple.wrangle
  rw [closed.receiver]
  cases receiver with
  | none => exact stays
  | some r =>
      have guessed : Ends allowed (t.packToBestGuess c b) (Context.Every (Sealed (some r))) :=
        (closed.packToBestGuess c b).imp fun _ every t member => (every t member).toSealed
      dsimp only
      split
      · exact stays
      · split
        · split
          · exact stays
          · exact guessed
        -- States are brought about on a packed receiver, so it may have to be packed first.
        · cases held : (t.get r).unpacked with
          | none =>
              have packed : t.Packed r := ⟨closed, Holding.isUnpacked_of_none held⟩
              exact packed.wranglePacked c b needed
          | some u =>
              have unpacked : (t.get r).isUnpacked = true := Holding.isUnpacked_of_some held
              refine (closed.packReceiver c unpacked _).bind fun result known => ?_
              cases result with
              | error failed => exact .pure nofun
              | ok packed => exact (known packed rfl).wranglePacked c b needed

end Protocol

end Tuple

end Typestate
