import Typestate.Proofs.Fraction.Cohesion
import Typestate.Proofs.Holding.Dealing
import Typestate.Proofs.Permission.Bookkeeping
import Typestate.Proofs.Permission.StateInfo

set_option autoImplicit false

/-!
Giving back what was granted. Two requests that are made from one specification have different
fractions, but each of them can be split off what the other one grants.
-/

namespace Typestate

open Permission

variable {S : Space}

theorem RequestSet.Fresh.metBy_id {first last : Nat} {r : RequestSet}
    (fresh : r.Fresh S first last) :
    r.constraints.MetBy (id : Term → Term) := by
  refine ⟨fresh.possible, ⟨fun f g _ _ same => Term.single.inj same, fun zero => zero rfl, ?_⟩,
    fun c member t among => ?_, fun c member => ?_⟩
  · rintro f positive same
    cases Term.single.inj same
    cases positive
  · obtain ⟨id, rfl, -⟩ := fresh.demands c member
    rw [List.mem_singleton.mp among]
    trivial
  · obtain ⟨id, rfl, -⟩ := fresh.demands c member
    exact nofun

namespace Request.Made

variable (grown : S.Grown) {p q : Request} (granted : p.Made S) (asked : q.Made S)

include grown granted asked

theorem fitsIn (kind : q.kind = p.kind) (root : q.root = p.root) :
    q.FitsIn (Fits (id : Term → Term)) (p.permission.shares.reroot q.root) := by
  obtain ⟨-, _, _, first⟩ := granted.started
  obtain ⟨-, _, _, second⟩ := asked.started
  rw [kind] at second
  refine fitsIn_reroot_iff.mpr ⟨fun n node => ?_, fun zero => ?_, fun one => ?_⟩
  · have above : S.Above n q.root := by
      have space : p.permission.shares.space = S := first.space
      rwa [space] at node
    have held : (n, _) ∈ p.permission.shares.values :=
      mem_values grown first.space first.laid (show S.Above n p.root from root ▸ above)
    have wanted : (n, _) ∈ q.permission.shares.values :=
      mem_values grown second.space second.laid above
    -- Something is held of every node, and all of one is asked for only where all of it is held.
    refine ⟨fun zero => absurd (Term.single.inj zero) (first.live _ held), fun one => ?_⟩
    by_cases whole : p.kind = .unique
    · have all := first.whole whole _ (Shares.mem_fractions_of_mem held)
      exact congrArg Term.single all
    · exact absurd (Term.single.inj one) (second.proper whole _ wanted)
  · by_cases looks : p.kind = .pure
    · exact congrArg Term.single (second.looks looks)
    · exact absurd (Term.single.inj zero) (first.reads looks)
  · exact congrArg Term.single (first.owns.mpr (second.owns.mp (Term.single.inj one)))

omit asked in
theorem kind_eq {cs : Constraints} (met : cs.MetBy (id : Term → Term)) :
    p.permission.kind cs.solution = p.kind := by
  obtain ⟨readOnly, _, _, started⟩ := granted.started
  obtain ⟨entry, inside, rootValue⟩ :=
    Shares.exists_rootValue (started.space ▸ grown) started.laid
  have orderly := Solution.solve_orderly cs.items
  have zero : cs.solution.isZero (.single .zero) = true :=
    (orderly.isZero_iff orderly.zero).mpr rfl
  have one : cs.solution.isOne (.single .one) = true := (orderly.isOne_iff orderly.one).mpr rfl
  -- No fraction is zero or one but the literals, so the kind can be read off the request.
  have isZero (f : Fraction) (live : f ≠ .zero) : cs.solution.isZero (.single f) = false :=
    Bool.eq_false_iff.mpr fun nothing =>
      live (Term.single.inj (met.sound.isZero (t := .single f) trivial nothing))
  have isOne (f : Fraction) (proper : f ≠ .one) : cs.solution.isOne (.single f) = false :=
    Bool.eq_false_iff.mpr fun all =>
      proper (Term.single.inj (met.sound.isOne (t := .single f) trivial all))
  cases kind : p.kind with
  | unique =>
    have below : p.permission.shares.below = .one := started.owns.mpr (.inr kind)
    have whole := started.whole kind _ (Shares.mem_fractions_of_mem inside)
    have root : p.permission.shares.rootValue = .one := rootValue.trans whole
    simp [Permission.kind, readOnly, kind, Kind.isReadOnly, below, root, one]
  | full =>
    have below : p.permission.shares.below = .one := started.owns.mpr (.inl kind)
    have root := isOne _ (started.proper (by rw [kind]; decide) entry inside)
    rw [← rootValue] at root
    simp [Permission.kind, readOnly, kind, Kind.isReadOnly, below, root, one]
  | share =>
    have below := isOne p.permission.shares.below fun whole => by
      simpa [kind] using started.owns.mp whole
    simp [Permission.kind, readOnly, kind, Kind.isReadOnly, below]
  | immutable =>
    have below := isZero p.permission.shares.below (started.reads (by rw [kind]; decide))
    simp [Permission.kind, readOnly, kind, Kind.isReadOnly, below]
  | pure =>
    have below : p.permission.shares.below = .zero := started.looks kind
    simp [Permission.kind, readOnly, kind, Kind.isReadOnly, below, zero]

omit asked in
theorem split_kind {cs : Constraints} (met : cs.MetBy (id : Term → Term)) :
    (p.permission.kind cs.solution).split p.kind ≠ .impossible := by
  rw [kind_eq grown granted met]
  cases p.kind <;> decide

end Request.Made

theorem RequestSet.mem_all_of_mem_list {r : RequestSet} {inFrame : Bool} {q : Request}
    (member : q ∈ r.list inFrame) : q ∈ r.all := by
  cases inFrame with
  | false => exact List.mem_append_left _ member
  | true => exact List.mem_append_right _ member

/-- The request that is made from a specification when the supply stands at a number. -/
def Spec.request (spec : Spec) (S : Space) (n : Nat) : Request :=
  ((Request.create S spec false).run ⟨.empty, ⟨n⟩⟩).1

/-- What is held once the specification was granted for an object without permissions. -/
def Spec.granted (spec : Spec) (S : Space) (n : Nat) : Held :=
  let r := ((RequestSet.ofSpec S spec false).run ⟨n⟩).1
  ⟨r.virtuals.map Request.permission, r.frames.map Request.permission, none,
    .empty ++ r.constraints⟩

theorem Pool.merge_nil (s : Solution) (p : Permission) : Pool.merge s [] p = pure [p] := rfl

theorem Pool.foldlM_merge_nil (s : Solution) {pool : Pool} (single : pool.length ≤ 1) :
    pool.foldlM (Pool.merge s) [] = pure pool := by
  match pool, single with
  | [], _ => rfl
  | [p], _ => rw [List.foldlM_cons, merge_nil, pure_bind, List.foldlM_nil]

theorem Holding.merge_empty {r : RequestSet} (virtuals : r.virtuals.length ≤ 1)
    (frames : r.frames.length ≤ 1) (supply : Supply) :
    (empty.merge r).run supply =
      (.held ⟨r.virtuals.map Request.permission, r.frames.map Request.permission, none,
        .empty ++ r.constraints⟩, supply) := by
  have alone (s : Solution) {requests : List Request} (single : requests.length ≤ 1) :
      (requests.map Request.permission).foldlM (Pool.merge s) [] =
        pure (requests.map Request.permission) :=
    Pool.foldlM_merge_nil s (by rwa [List.length_map])
  simp only [Holding.merge, Holding.empty, Holding.rework, Held.empty, alone _ virtuals,
    alone _ frames, pure_bind]
  rfl

section Twice

variable (spec : Spec)

theorem Spec.request_eq (n : Nat) :
    spec.request S n =
      ⟨.make ((Request.shares S spec.root false spec.kind).run ⟨.empty, ⟨n⟩⟩).1 spec.kind.isReadOnly
        spec.frame spec.states, spec.kind⟩ := by
  rw [request, Request.create_run]

theorem Spec.request_made (n : Nat) : (spec.request S n).Made S := .create spec false _

theorem Spec.request_root (n : Nat) : (spec.request S n).root = spec.root := by
  rw [request_eq]
  cases spec.kind <;> rfl

theorem Spec.request_kind (n : Nat) : (spec.request S n).kind = spec.kind := by
  rw [request_eq]

theorem Spec.request_frame (n : Nat) : (spec.request S n).permission.frame = spec.frame := by
  rw [request_eq]
  rfl

theorem Spec.list_ofSpec (n : Nat) (inFrame : Bool) :
    ((RequestSet.ofSpec S spec false).run ⟨n⟩).1.list inFrame =
      if spec.frame = inFrame then [spec.request S n] else [] := by
  have alone : ((RequestSet.ofSpec S spec false).run ⟨n⟩).1.list inFrame =
      (RequestSet.ofRequest S (spec.request S n)).list inFrame := rfl
  rw [alone, RequestSet.ofRequest, Request.isFrame, spec.request_frame]
  cases spec.frame <;> cases inFrame <;> rfl

theorem Spec.merge_empty (n : Nat) (supply : Supply) :
    (Holding.empty.merge ((RequestSet.ofSpec S spec false).run ⟨n⟩).1).run supply =
      (.held (spec.granted S n), supply) := by
  have single (inFrame : Bool) :
      (((RequestSet.ofSpec S spec false).run ⟨n⟩).1.list inFrame).length ≤ 1 := by
    rw [spec.list_ofSpec]
    split <;> simp
  exact Holding.merge_empty (single false) (single true) supply

theorem Spec.orderly_ofSpec (n : Nat) (inFrame : Bool) :
    Pool.Orderly S inFrame
      ((((RequestSet.ofSpec S spec false).run ⟨n⟩).1.list inFrame).map Request.permission) := by
  obtain ⟨-, _, _, started⟩ := (spec.request_made (S := S) n).started
  rw [spec.list_ofSpec]
  split
  · next same =>
    refine ⟨⟨?_, ?_, List.pairwise_singleton _ _⟩, ?_⟩
    · exact List.forall_mem_singleton.mpr started.space
    · exact List.forall_mem_singleton.mpr ((spec.request_frame n).trans same)
    · exact List.forall_mem_singleton.mpr started.laid
  · exact ⟨.nil, nofun⟩

variable (grown : S.Grown)

include grown

theorem Spec.request_isDrawn (n : Nat) :
    (spec.request S n).permission.shares.IsDrawn
      ((RequestSet.ofSpec S spec false).run ⟨n⟩).2.next := by
  have own : spec.request S n ∈ ((RequestSet.ofSpec S spec false).run ⟨n⟩).1.list spec.frame := by
    rw [spec.list_ofSpec, if_pos rfl]
    exact List.mem_cons_self
  have fresh := (ofSpec_fresh grown spec false n).requests _ (RequestSet.mem_all_of_mem_list own)
  intro f inside
  cases f with
  | unknown id => exact (fresh.drawn id inside).2
  | zero | one | named id => trivial

theorem Spec.request_grants {first second m : Nat} {cs : Constraints}
    (met : cs.MetBy (id : Term → Term))
    (granted : (spec.request S first).permission.shares.IsDrawn m)
    (asked : (spec.request S second).permission.shares.IsDrawn m) {pool : Pool}
    (member : (spec.request S first).permission ∈ pool) :
    pool.Grants S (Fitting · · m (id : Term → Term)) cs.solution (spec.request S second) := by
  let p := spec.request S first
  let q := spec.request S second
  have root : q.root = p.root := (spec.request_root second).trans (spec.request_root first).symm
  have kind : q.kind = p.kind := (spec.request_kind second).trans (spec.request_kind first).symm
  obtain ⟨-, _, _, started⟩ := (spec.request_made (S := S) first).started
  have same : p.permission.shares.reroot q.root = p.permission.shares := by
    rw [root]
    exact Shares.reroot_self (started.space ▸ grown) started.laid
  have fits := (spec.request_made first).fitsIn grown (spec.request_made second) kind root
  -- The permission of the one request gives what the other one asks for.
  refine .held p.permission member ?_ ?_ ?_
  · rw [root]
    exact grown.above_refl _
  · rw [kind, kind_congr (p := p.permission.reroot q.root) (q := p.permission) rfl same]
    exact (spec.request_made first).split_kind grown met
  · rw [Request.fitsIn_reroot_iff] at fits ⊢
    exact ⟨fun n node => ⟨asked.get n, granted.get n, fits.1 n node⟩, asked.below, granted.below,
      fits.2⟩

/-- What a specification grants can be taken for the same specification. -/
theorem Spec.split_granted {first second : Nat}
    (later : ((RequestSet.ofSpec S spec false).run ⟨first⟩).2.next ≤ second) :
    let asked := (RequestSet.ofSpec S spec false).run ⟨second⟩
    (((Holding.held (spec.granted S first)).split asked.1).run
      asked.2).1.isUnsatisfiable = false := by
  intro asked
  let granted := (RequestSet.ofSpec S spec false).run ⟨first⟩
  have fresh : granted.1.Fresh S first granted.2.next := ofSpec_fresh grown spec false first
  have other : asked.1.Fresh S second asked.2.next := ofSpec_fresh grown spec false second
  have past : granted.2.next ≤ asked.2.next := later.trans other.order
  let cs := spec.granted S first |>.constraints
  -- If no fraction is any other, the constraints of both requests are met.
  have met : (cs ++ asked.1.constraints).MetBy (id : Term → Term) := by
    have empty : Constraints.empty.MetBy (id : Term → Term) :=
      ⟨rfl, fresh.metBy_id.2.lawful, nofun, nofun⟩
    exact Constraints.metBy_append.mpr
      ⟨Constraints.metBy_append.mpr ⟨empty, fresh.metBy_id⟩, other.metBy_id⟩
  have drawn : (cs ++ asked.1.constraints).IsDrawn asked.2.next := by
    have empty : Constraints.empty.IsDrawn asked.2.next := nofun
    exact (empty.append (fresh.isDrawn.mono past)).append other.isDrawn
  have grants (inFrame : Bool) : ∀ q ∈ asked.1.list inFrame,
      Pool.Grants S (Fitting · · asked.2.next (id : Term → Term))
        (cs ++ asked.1.constraints).solution
        ((granted.1.list inFrame).map Request.permission) q := by
    intro q member
    rw [spec.list_ofSpec] at member
    split at member
    · next same =>
      have given : spec.request S first ∈ granted.1.list inFrame := by
        rw [spec.list_ofSpec, if_pos same]
        exact List.mem_cons_self
      rw [List.mem_singleton.mp member]
      refine spec.request_grants grown met (fun f inside => ?_) (spec.request_isDrawn grown second)
        (List.mem_map_of_mem given)
      exact (spec.request_isDrawn grown first f inside).mono past
    · cases member
  exact Held.split_admits grown (spec.orderly_ofSpec first false) (spec.orderly_ofSpec first true)
    other met drawn (grants false) (grants true)

theorem Spec.isInStates_granted (plain : ∀ s ∈ spec.states, S.isDimension s = false) (n : Nat) :
    (Holding.held (spec.granted S n)).isInStates spec.states spec.frame = true := by
  have pool : (Holding.held (spec.granted S n)).pool spec.frame =
      [(spec.request S n).permission] := by
    have listed := congrArg (List.map Request.permission) (spec.list_ofSpec (S := S) n spec.frame)
    rw [if_pos rfl] at listed
    rw [← List.map_singleton, ← listed]
    cases spec.frame <;> rfl
  let bare : Permission :=
    ⟨((Request.shares S spec.root false spec.kind).run ⟨.empty, ⟨n⟩⟩).1, spec.kind.isReadOnly,
      spec.frame, []⟩
  have space : bare.space = S := (shares_startedWith S spec.root false spec.kind _).space
  have shape : (spec.request S n).permission = bare.withStates spec.states := by
    rw [spec.request_eq]
    rfl
  -- States that are no dimensions do not rule each other out.
  have sole : ∀ s ∈ spec.states, ¬bare.space.Rivalled spec.states s := fun s =>
    Space.not_rivalled_of_plain (space ▸ plain)
  refine List.all_eq_true.mpr fun s member => ?_
  have implied : (spec.request S n).permission.impliesState s = true := by
    rw [shape, withStates_impliesState_iff (space ▸ grown) sole]
    exact .inr ⟨s, member, (space ▸ grown : bare.space.Grown).implies_self s⟩
  simp [Holding.isInState, pool, implied]

end Twice

namespace Holding

variable {h : Held} {p : Permission}

theorem unpack_sole (packed : h.unpacked = none) (frames : h.frames = [p]) (space : Space) :
    ∃ work, (held h).unpack space p.root = .ok work ∧ ∀ supply, work.run supply =
      (.held { h with
        frames := []
        unpacked := some p
        constraints := h.constraints.addNonZero p.shares.rootValue }, supply) := by
  have shut : (held h).isUnpacked = false := by
    simp [isUnpacked, unpacked, packed]
  have taken : h.frames.take? p.root false = some (p, []) := by
    simp [frames, Pool.take?, Pool.extract?]
  rw [unpack, shut]
  refine ⟨_, rfl, fun supply => ?_⟩
  simp only [isBottom, rework, Bool.false_eq_true, if_false, taken]
  rfl

theorem pack_sole (unpacked : h.unpacked = some p) (frames : h.frames = []) (states : List String) :
    ∃ work, (held h).pack states = .ok work ∧ ∀ supply, work.run supply =
      (.held { h with frames := [p.withStates states], unpacked := none }, supply) := by
  have opened : (held h).isUnpacked = true := by
    simp [isUnpacked, Holding.unpacked, unpacked]
  rw [pack, opened]
  refine ⟨_, rfl, fun supply => ?_⟩
  simp only [rework, unpacked, frames, Pool.merge_nil]
  rfl

end Holding

end Typestate
