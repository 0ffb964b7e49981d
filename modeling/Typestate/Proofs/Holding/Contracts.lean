import Typestate.Proofs.Holding.Drawing
import Typestate.Proofs.Holding.Roots
import Typestate.Proofs.Permission.Contracts

set_option autoImplicit false

/-!
The contracts of the operations on what is held. The operations that split, merge or join
permissions have twins that check the contracts of these, and what is held with complete shares
never breaks one.
-/

namespace Typestate

variable {α : Type}

def Ledger.withinGuarded (constraints : Constraints) (work : ExceptT Fault LedgerM α) :
    ExceptT Fault SupplyM (α × Constraints) :=
  ExceptT.mk do
    let (result, constraints) ← Ledger.within constraints work.run
    return result.map fun a => (a, constraints)

/-- Both lists and the unpacked permission have complete shares. -/
structure Held.Laid (h : Held) : Prop where
  virtuals : h.virtuals.Laid
  frames : h.frames.Laid
  unpacked : ∀ u, h.unpacked = some u → u.shares.Laid

structure RequestSet.Laid (r : RequestSet) : Prop where
  virtuals : ∀ q ∈ r.virtuals, q.permission.shares.Laid
  frames : ∀ q ∈ r.frames, q.permission.shares.Laid

namespace RequestSet

theorem Laid.combine {a b both : RequestSet} (first : a.Laid) (second : b.Laid)
    (combined : a.combine b = .ok both) : both.Laid := by
  unfold RequestSet.combine at combined
  split at combined
  · cases combined
  · rw [← Except.ok.inj combined]
    exact ⟨List.forall_mem_append.mpr ⟨first.virtuals, second.virtuals⟩,
      List.forall_mem_append.mpr ⟨first.frames, second.frames⟩⟩

theorem constant_laid (space : Space) (root : String) (f : Fraction) :
    (Shares.constant space root f).Laid := by
  simp [Shares.Laid, Shares.constant, Function.comp_def]

theorem ofSpec_laid (space : Space) (spec : Spec) (named : Bool) :
    Yields (ofSpec space spec named) Laid := by
  have created : Yields (Request.create space spec named) fun q => q.permission.shares.Laid :=
    Request.create_yields Shares.Laid (constant_laid space spec.root .one)
      fun above below => Pool.tabulate_laid space spec.root above below
  intro supply
  obtain ⟨virtuals, frames⟩ := ofSpec_yields created supply
  exact ⟨fun q member => (virtuals q member).1, fun q member => (frames q member).1⟩

theorem requests_laid (p : Predicate) (target : Target) (named : Bool) :
    Yields (p.requests target named) fun result => ∀ r, result = .ok (some r) → r.Laid :=
  p.requests_yields Laid.combine target named fun c _ => ofSpec_laid c.space c.spec named

end RequestSet

namespace Holding

def Laid : Holding → Prop
  | .bottom => True
  | .held h => h.Laid

def reworkGuarded (x : Holding) (work : Held → ExceptT Fault LedgerM Held) :
    ExceptT Fault SupplyM Holding := do
  match x with
  | .bottom => return .bottom
  | .held h =>
      let (next, constraints) ← Ledger.withinGuarded h.constraints (work h)
      return .held { next with constraints }

def splitGuarded (x : Holding) (r : RequestSet) : ExceptT Fault SupplyM Holding :=
  x.reworkGuarded fun h => do
    ExceptT.lift (Ledger.demand (· ++ r.constraints))
    let s ← ExceptT.lift Ledger.solution
    let virtuals ← h.virtuals.splitGuarded s r.virtuals
    let frames ← h.frames.splitGuarded s r.frames
    return { h with virtuals, frames }

def mergeGuarded (x : Holding) (r : RequestSet) : ExceptT Fault SupplyM Holding :=
  x.reworkGuarded fun h => do
    ExceptT.lift (Ledger.demand (· ++ r.constraints))
    let s ← ExceptT.lift Ledger.solution
    let virtuals ← (r.virtuals.map Request.permission).foldlM (Pool.mergeGuarded s) h.virtuals
    let frames ← (r.frames.map Request.permission).foldlM (Pool.mergeGuarded s) h.frames
    return { h with virtuals, frames }

def packGuarded (x : Holding) (states : List String) : ExceptT Fault SupplyM Holding :=
  if !x.isUnpacked then throw .packingWhilePacked
  else x.reworkGuarded fun h => do
    match h.unpacked with
    | none => return h
    | some u =>
        let s ← ExceptT.lift Ledger.solution
        let frames ← h.frames.mergeGuarded s (u.withStates states)
        return { h with frames, unpacked := none }

end Holding

namespace Held

def joinOnGuarded (base other : Held) (s : Solution) (constraints : Constraints)
    (symmetric : Bool) : ExceptT Fault SupplyM Held := do
  let (joined, constraints) ← Ledger.withinGuarded constraints do
    let virtuals ← base.virtuals.joinGuarded other.virtuals s symmetric
    let frames ← base.frames.joinGuarded other.frames s symmetric
    let unpacked ← match base.unpacked, other.unpacked with
      | some u, some v => some <$> u.joinGuarded v s symmetric
      | _, _ => pure none
    return Held.mk virtuals frames unpacked .empty
  return { joined with constraints }

def joinGuarded (a b : Held) (point : MergePoint) (s : Solution) : ExceptT Fault SupplyM Held :=
  if point = .loop && b.constraints.atLeastAsPrecise a.constraints then
    a.joinOnGuarded b s a.constraints false
  else if point = .loop && a.constraints.atLeastAsPrecise b.constraints then
    b.joinOnGuarded a s b.constraints false
  else a.joinOnGuarded b s (a.constraints ++ b.constraints) true

end Held

namespace Holding

def joinGuarded (x y : Holding) (point : MergePoint) : ExceptT Fault SupplyM Holding :=
  match x, y with
  | .bottom, _ => return y
  | _, .bottom => return x
  | .held a, .held b =>
      if x == y || a.isUnsatisfiable then return x
      else if b.isUnsatisfiable then return y
      else
        let s := (a.constraints ++ b.constraints).solution
        if a.sameUnpacked b s then .held <$> a.joinGuarded b point s
        else throw .joiningDifferentUnpacked

end Holding

namespace Honours

theorem map {β σ : Type} {guarded : ExceptT Fault (StateM σ) α} {work : StateM σ α}
    {shown : α → Prop} (honours : Honours guarded work shown) (f : α → β) :
    Honours (f <$> guarded) (f <$> work) fun b => ∃ a, b = f a ∧ shown a := by
  intro s
  obtain ⟨ran, holds⟩ := honours s
  refine ⟨?_, _, rfl, holds⟩
  rw [ExceptT.run_map, StateT.run_map, ran]
  rfl

theorem within {guarded : ExceptT Fault LedgerM α} {work : LedgerM α} {shown : α → Prop}
    (honours : Honours guarded work shown) (constraints : Constraints) :
    Honours (Ledger.withinGuarded constraints guarded) (Ledger.within constraints work)
      fun result => shown result.1 := by
  intro supply
  obtain ⟨ran, holds⟩ := honours ⟨constraints, supply⟩
  refine ⟨?_, holds⟩
  change (((guarded.run.run ⟨constraints, supply⟩).1.map fun a =>
    (a, (guarded.run.run ⟨constraints, supply⟩).2.constraints)),
      (guarded.run.run ⟨constraints, supply⟩).2.supply) = _
  rw [ran]
  rfl

theorem rework {x : Holding} {guarded : Held → ExceptT Fault LedgerM Held}
    {work : Held → LedgerM Held} {shown : Holding → Prop} (bottom : x = .bottom → shown .bottom)
    (each : ∀ h, x = .held h → Honours (guarded h) (work h)
      fun next => ∀ constraints, shown (.held { next with constraints })) :
    Honours (x.reworkGuarded guarded) (x.rework work) shown := by
  cases x with
  | bottom => exact .pure (bottom rfl)
  | held h => exact ((each h rfl).within h.constraints).bind fun result known => .pure (known _)

end Honours

namespace Holding

theorem Laid.held {h : Held} (laid : h.Laid) (constraints : Constraints) :
    Laid (.held { h with constraints }) := ⟨laid.virtuals, laid.frames, laid.unpacked⟩

/-- What is left has complete shares, and the object is packed or unpacked as before. -/
def Kept (x y : Holding) : Prop := y.Laid ∧ y.unpacked = x.unpacked

section Operations

variable {x y : Holding}

theorem Kept.isUnpacked (kept : x.Kept y) : y.isUnpacked = x.isUnpacked :=
  congrArg Option.isSome kept.2

theorem isUnpacked_of_none (packed : x.unpacked = none) : x.isUnpacked = false :=
  congrArg Option.isSome packed

theorem isUnpacked_of_some {u : Permission} (unpacked : x.unpacked = some u) :
    x.isUnpacked = true := congrArg Option.isSome unpacked

theorem Laid.split (laid : x.Laid) (r : RequestSet) :
    Honours (x.splitGuarded r) (x.split r) x.Kept := by
  refine .rework (fun same => ⟨trivial, by rw [same]⟩) fun h same => ?_
  subst same
  refine (Honours.lift (.any _)).bind fun _ _ => (Honours.lift (.any _)).bind fun s _ => ?_
  refine (laid.virtuals.split s r.virtuals).bind fun virtuals first =>
    (laid.frames.split s r.frames).bind fun frames second => .pure fun _ => ?_
  exact ⟨⟨first, second, laid.unpacked⟩, rfl⟩

theorem Laid.merge (laid : x.Laid) {r : RequestSet} (requested : r.Laid) :
    Honours (x.mergeGuarded r) (x.merge r) x.Kept := by
  have added (requests : List Request) (s : Solution)
      (each : ∀ q ∈ requests, q.permission.shares.Laid) {pool : Pool} (laid : pool.Laid) :
      Honours ((requests.map Request.permission).foldlM (Pool.mergeGuarded s) pool)
        ((requests.map Request.permission).foldlM (Pool.merge s) pool) Pool.Laid := by
    refine .foldlM _ (fun pool p member laid => ?_) laid
    obtain ⟨q, inside, rfl⟩ := List.mem_map.mp member
    exact laid.merge s (each q inside)
  refine .rework (fun same => ⟨trivial, by rw [same]⟩) fun h same => ?_
  subst same
  refine (Honours.lift (.any _)).bind fun _ _ => (Honours.lift (.any _)).bind fun s _ => ?_
  refine (added r.virtuals s requested.virtuals laid.virtuals).bind fun virtuals first =>
    (added r.frames s requested.frames laid.frames).bind fun frames second => .pure fun _ => ?_
  exact ⟨⟨first, second, laid.unpacked⟩, rfl⟩

theorem Laid.pack (laid : x.Laid) (unpacked : x.isUnpacked = true) (states : List String) :
    ∃ work, x.pack states = .ok work ∧
      Honours (x.packGuarded states) work fun y => y.Laid ∧ y.isUnpacked = false := by
  rw [packGuarded, Holding.pack, unpacked]
  -- Nothing that is packed comes to the work, so the other two cases contradict the guard.
  refine ⟨_, rfl, .rework (fun same => ?_) fun h same => ?_⟩
  · subst same
    cases unpacked
  · subst same
    cases held : h.unpacked with
    | none =>
        have packed : h.unpacked.isSome = true := unpacked
        rw [held] at packed
        cases packed
    | some u =>
        refine (Honours.lift (.any _)).bind fun s _ => ?_
        have known : (u.withStates states).shares.Laid := laid.unpacked u held
        refine (laid.frames.merge s known).bind fun frames merged => .pure fun _ => ?_
        exact ⟨⟨laid.virtuals, merged, nofun⟩, rfl⟩

theorem Laid.rework (laid : x.Laid) {work : Held → LedgerM Held}
    (each : ∀ h : Held, h.Laid → Yields (work h) Held.Laid) : Yields (x.rework work) Laid := by
  intro supply
  cases x with
  | bottom => trivial
  | held h => exact Laid.held (each h laid ⟨h.constraints, supply⟩) _

theorem makeModifiable_laid {p : Permission} (laid : p.shares.Laid) :
    Yields p.makeModifiable fun q => q.shares.Laid :=
  .after fun _ => .after fun _ => .ite (fun _ => .after fun _ => .pure laid) fun _ => .pure laid

theorem Laid.makeUnpackedModifiable (laid : x.Laid) (unpacked : x.isUnpacked = true) :
    ∃ work, x.makeUnpackedModifiable = .ok work ∧ Yields work Laid := by
  rw [Holding.makeUnpackedModifiable, unpacked]
  refine ⟨_, rfl, laid.rework fun h laid => ?_⟩
  split
  · exact .pure laid
  · next u held =>
      have modified := makeModifiable_laid (laid.unpacked u held)
      refine .ite (fun _ => modified.bind fun v known => .pure ?_) fun _ => .pure laid
      refine ⟨laid.virtuals, laid.frames, ?_⟩
      rintro _ ⟨⟩
      exact known

theorem Laid.unpack (laid : x.Laid) (packed : x.isUnpacked = false) (space : Space)
    (root : String) : ∃ work, x.unpack space root = .ok work ∧ Yields work Laid := by
  have reached : Laid (if x.isBottom then empty else x) := by
    split
    · exact ⟨nofun, nofun, nofun⟩
    · exact laid
  rw [Holding.unpack, packed]
  refine ⟨_, rfl, reached.rework fun h laid => ?_⟩
  split
  · next p others taken =>
      obtain ⟨known, rest⟩ := laid.frames.take? taken
      refine .after fun _ => .pure ⟨laid.virtuals, rest, ?_⟩
      rintro _ ⟨⟩
      exact known
  · refine .after fun _ => (Pool.tabulate_laid _ _ _ _).bind fun shares known => .pure ?_
    refine ⟨laid.virtuals, laid.frames, ?_⟩
    rintro _ ⟨⟩
    exact known

theorem Laid.forget (laid : x.Laid) : x.Kept x.forget := by
  cases x with
  | bottom => exact ⟨trivial, rfl⟩
  | held h =>
      exact ⟨⟨List.forall_mem_map.mpr laid.virtuals, List.forall_mem_map.mpr laid.frames,
        laid.unpacked⟩, rfl⟩

theorem Laid.forgetShared (laid : x.Laid) : x.Kept x.forgetShared := by
  have forgotten (s : Solution) {pool : Pool} (laid : pool.Laid) :
      Pool.Laid (pool.forgetShared s) := by
    refine List.forall_mem_map.mpr fun p member => ?_
    split <;> exact laid p member
  cases x with
  | bottom => exact ⟨trivial, rfl⟩
  | held h =>
      exact ⟨⟨forgotten _ laid.virtuals, forgotten _ laid.frames, laid.unpacked⟩, rfl⟩

end Operations

end Holding

namespace Held

/-- The shares of a join are complete, and it is unpacked only if both sides are. -/
def Joined (a b h : Held) : Prop :=
  h.Laid ∧ (h.unpacked.isSome = true → a.unpacked.isSome = true ∧ b.unpacked.isSome = true)

theorem Laid.joinOn {a : Held} (laid : a.Laid) (b : Held) (s : Solution)
    (constraints : Constraints) (symmetric : Bool) :
    Honours (a.joinOnGuarded b s constraints symmetric) (a.joinOn b s constraints symmetric)
      (Joined a b) := by
  refine (Honours.within (?_ : Honours _ _ (Joined a b)) constraints).bind
    fun result known => .pure ⟨⟨known.1.virtuals, known.1.frames, known.1.unpacked⟩, known.2⟩
  refine (laid.virtuals.join b.virtuals s symmetric).bind fun virtuals first =>
    (laid.frames.join b.frames s symmetric).bind fun frames second => ?_
  cases left : a.unpacked with
  | none => exact .pure ⟨⟨first, second, nofun⟩, nofun⟩
  | some u =>
      cases right : b.unpacked with
      | none => exact .pure ⟨⟨first, second, nofun⟩, nofun⟩
      | some v =>
          have joined := (u.join_honours (laid.unpacked u left) v s symmetric).map some
          refine joined.bind fun unpacked known => .pure ⟨⟨first, second, ?_⟩, fun _ => ?_⟩
          · obtain ⟨w, same, laidW⟩ := known
            rintro _ rfl
            exact Option.some.inj same ▸ laidW
          · rw [left, right]
            exact ⟨rfl, rfl⟩

theorem Joined.symm {a b h : Held} (joined : Joined a b h) : Joined b a h :=
  ⟨joined.1, fun unpacked => (joined.2 unpacked).symm⟩

theorem Laid.join {a b : Held} (first : a.Laid) (second : b.Laid) (point : MergePoint)
    (s : Solution) : Honours (a.joinGuarded b point s) (a.join b point s) (Joined a b) := by
  unfold joinGuarded Held.join
  split
  · exact first.joinOn b s _ false
  · split
    -- The sides are exchanged here, and what is known of the result does not depend on it.
    · exact fun supply => ((second.joinOn a s _ false) supply).imp_right Joined.symm
    · exact first.joinOn b s _ true

end Held

/-- A join gives a result unless the unpacked permissions differ, and what it gives is unpacked only
if one of the sides is. -/
theorem Holding.Laid.join {x y : Holding} (first : x.Laid) (second : y.Laid)
    (point : MergePoint) :
    x.join y point = .error .joiningDifferentUnpacked ∨
      ∃ work, x.join y point = .ok work ∧ Honours (x.joinGuarded y point) work fun z =>
        z.Laid ∧ (z.isUnpacked = true → x.isUnpacked = true ∨ y.isUnpacked = true) := by
  match x, y with
  | .bottom, y => exact .inr ⟨_, rfl, .pure ⟨second, .inr⟩⟩
  | .held a, .bottom => exact .inr ⟨_, rfl, .pure ⟨first, .inl⟩⟩
  | .held a, .held b =>
      unfold Holding.joinGuarded Holding.join
      dsimp only
      split
      · exact .inr ⟨_, rfl, .pure ⟨first, .inl⟩⟩
      · split
        · exact .inr ⟨_, rfl, .pure ⟨second, .inr⟩⟩
        · split
          · refine .inr ⟨_, rfl, fun supply => ?_⟩
            have joined := (Held.Laid.join first second point
              (a.constraints ++ b.constraints).solution).map Holding.held supply
            obtain ⟨ran, h, same, laid, unpacked⟩ := joined
            -- Only here permissions are made anew; before, one of the sides was the result.
            refine ⟨ran, ?_⟩
            rw [same]
            exact ⟨laid, fun opened => .inl (unpacked opened).1⟩
          · exact .inl rfl

/-- Whatever is done with the permissions, no contract is broken, and the shares stay complete. -/
structure Holding.KeepsContracts (x : Holding) : Prop where
  listed : ∀ p ∈ x.permissions, p.shares.values ≠ []
  forget : x.forget.Laid ∧ x.forgetShared.Laid
  unpack : ∀ space root work, x.unpack space root = .ok work → Yields work Laid
  modify : ∀ work, x.makeUnpackedModifiable = .ok work → Yields work Laid
  split : ∀ r, Honours (x.splitGuarded r) (x.split r) Laid
  merge : ∀ r : RequestSet, r.Laid → Honours (x.mergeGuarded r) (x.merge r) Laid
  pack : ∀ states work, x.pack states = .ok work → Honours (x.packGuarded states) work Laid
  join : ∀ y point work, y.Laid → x.join y point = .ok work →
    Honours (x.joinGuarded y point) work Laid

theorem Honours.imp {σ ε : Type} {guarded : ExceptT ε (StateM σ) α} {work : StateM σ α}
    {shown other : α → Prop} (honours : Honours guarded work shown)
    (implies : ∀ a, shown a → other a) : Honours guarded work other :=
  fun s => (honours s).imp_right (implies _)

theorem Holding.Laid.keepsContracts {x : Holding} (laid : x.Laid) : x.KeepsContracts where
  listed := by
    cases x with
    | bottom => exact nofun
    | held h =>
        intro p member
        simp only [permissions, List.mem_append, Option.mem_toList] at member
        rcases member with (virtual | frame) | unpacked
        · exact (laid.virtuals p virtual).values_ne_nil
        · exact (laid.frames p frame).values_ne_nil
        · exact (laid.unpacked p unpacked).values_ne_nil
  forget := ⟨laid.forget.1, laid.forgetShared.1⟩
  unpack space root work done := by
    cases packed : x.isUnpacked with
    | true => simp [Holding.unpack, packed] at done
    | false =>
        obtain ⟨other, same, yields⟩ := laid.unpack packed space root
        rw [done] at same
        exact Except.ok.inj same ▸ yields
  modify work done := by
    cases unpacked : x.isUnpacked with
    | false => simp [Holding.makeUnpackedModifiable, unpacked] at done
    | true =>
        obtain ⟨other, same, yields⟩ := laid.makeUnpackedModifiable unpacked
        rw [done] at same
        exact Except.ok.inj same ▸ yields
  split r := (laid.split r).imp fun _ => And.left
  merge _ requested := (laid.merge requested).imp fun _ => And.left
  pack states work done := by
    cases unpacked : x.isUnpacked with
    | false => simp [Holding.pack, unpacked] at done
    | true =>
        obtain ⟨other, same, honours⟩ := laid.pack unpacked states
        rw [done] at same
        exact Except.ok.inj same ▸ honours.imp fun _ => And.left
  join y point work second done := by
    rcases laid.join second point with different | ⟨other, same, honours⟩
    · rw [done] at different
      cases different
    · rw [done] at same
      exact Except.ok.inj same ▸ honours.imp fun _ => And.left

end Typestate
