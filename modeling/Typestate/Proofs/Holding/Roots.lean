import Typestate.Holding.Join
import Typestate.Holding.Transfer
import Typestate.Proofs.Permission.Roots
import Typestate.Specification.Predicate

set_option autoImplicit false

/-!
Whatever is done to what is held over one space, the roots of each list stay orthogonal and no
permission gets into the other list.
-/

namespace Typestate

/-- The requests are over one space, and each is in the list it says. -/
structure RequestSet.Tidy (S : Space) (r : RequestSet) : Prop where
  virtuals : ∀ q ∈ r.virtuals, q.permission.space = S ∧ q.permission.frame = false
  frames : ∀ q ∈ r.frames, q.permission.space = S ∧ q.permission.frame = true

/-- The requests that a predicate makes for one target, all of whose clauses are over one space. -/
def RequestSet.Produced (S : Space) (r : RequestSet) : Prop :=
  ∃ (p : Predicate) (target : Target) (named : Bool) (supply next : Supply),
    (∀ c ∈ p.partsFor target, c.space = S) ∧
      (p.requests target named).run supply = (.ok (some r), next)

theorem Request.create_yields (made : Shares → Prop) {S : Space} {spec : Spec} {named : Bool}
    (constant : made (.constant S spec.root .one))
    (tabulated : ∀ above below, Yields (Shares.tabulate S spec.root above below) made) :
    Yields (Request.create S spec named) fun q => made q.permission.shares := by
  have shares (kind : Kind) : Yields (Request.shares S spec.root named kind) made := by
    cases kind with
    | unique => exact .pure constant
    | full | share | immutable | pure => exact tabulated _ _
  exact (shares spec.kind).bind fun r known => .after fun _ =>
    .ite (fun _ => .after fun _ => .pure known) fun _ => .pure known

theorem RequestSet.ofSpec_yields {made : Request → Prop} {S : Space} {spec : Spec} {named : Bool}
    (created : Yields (Request.create S spec named) made) :
    Yields (ofSpec S spec named) fun r =>
      (∀ q ∈ r.virtuals, made q ∧ q.isFrame = false) ∧
        ∀ q ∈ r.frames, made q ∧ q.isFrame = true := by
  intro supply
  have known := created ⟨.empty, supply⟩
  change (∀ q ∈ (ofRequest S ((Request.create S spec named).run ⟨.empty, supply⟩).1).virtuals, _) ∧
    ∀ q ∈ (ofRequest S ((Request.create S spec named).run ⟨.empty, supply⟩).1).frames, _
  generalize ((Request.create S spec named).run ⟨.empty, supply⟩).1 = q at known
  unfold ofRequest
  split
  · next framed => exact ⟨by simp [RequestSet.empty], by simpa using ⟨known, framed⟩⟩
  · next virtual =>
      exact ⟨by simpa using ⟨known, by simpa using virtual⟩, by simp [RequestSet.empty]⟩

namespace Predicate

variable {made : RequestSet → Prop}
  (both : ∀ {a b whole}, made a → made b → a.combine b = .ok whole → made whole)

include both

theorem combineClauses_yields (named : Bool) {set : RequestSet} (known : made set)
    (clauses : List Clause)
    (each : ∀ c ∈ clauses, Yields (RequestSet.ofSpec c.space c.spec named) made) :
    Yields (combineClauses named set clauses) fun result => ∀ r, result = .ok r → made r := by
  induction clauses generalizing set with
  | nil =>
      refine .pure fun r same => ?_
      rw [← Except.ok.inj same]
      exact known
  | cons c rest ih =>
      unfold combineClauses
      refine (each c List.mem_cons_self).bind fun next added => ?_
      cases combined : set.combine next with
      | error overlap => exact .pure nofun
      | ok whole =>
          exact ih (both known added combined) fun d later => each d (List.mem_cons_of_mem _ later)

theorem requests_yields (p : Predicate) (target : Target) (named : Bool)
    (each : ∀ c ∈ p.partsFor target, Yields (RequestSet.ofSpec c.space c.spec named) made) :
    Yields (p.requests target named) fun result => ∀ r, result = .ok (some r) → made r := by
  unfold requests
  cases parts : p.partsFor target with
  | nil => exact .pure nofun
  | cons c rest =>
      rw [parts] at each
      refine (each c List.mem_cons_self).bind fun first started =>
        (combineClauses_yields both named started rest
          fun d later => each d (List.mem_cons_of_mem _ later)).bind fun result known => .pure ?_
      intro r same
      cases result with
      | error overlap => cases same
      | ok whole =>
          cases same
          exact known r rfl

end Predicate

namespace RequestSet

variable {S : Space}

theorem Tidy.combine {a b both : RequestSet} (first : a.Tidy S) (second : b.Tidy S)
    (combined : a.combine b = .ok both) : both.Tidy S := by
  unfold RequestSet.combine at combined
  split at combined
  · simp at combined
  · rw [← Except.ok.inj combined]
    exact ⟨List.forall_mem_append.mpr ⟨first.virtuals, second.virtuals⟩,
      List.forall_mem_append.mpr ⟨first.frames, second.frames⟩⟩

theorem ofSpec_tidy (spec : Spec) (named : Bool) : Yields (ofSpec S spec named) (Tidy S) := by
  have created : Yields (Request.create S spec named) fun q => q.permission.shares.space = S :=
    Request.create_yields (fun s => s.space = S) rfl
      fun above below s => (Shares.tabulate_yields S spec.root above below s).1
  exact fun supply => ⟨(ofSpec_yields created supply).1, (ofSpec_yields created supply).2⟩

theorem Produced.tidy {r : RequestSet} (produced : r.Produced S) : r.Tidy S := by
  obtain ⟨p, target, named, supply, next, atop, made⟩ := produced
  have each (c : Clause) (member : c ∈ p.partsFor target) :
      Yields (ofSpec c.space c.spec named) (Tidy S) := by
    rw [atop c member]
    exact ofSpec_tidy c.spec named
  exact p.requests_yields Tidy.combine target named each supply r (by rw [made])

end RequestSet

/-- Permissions over one space, each in the list it says, whose roots are orthogonal. -/
structure Held.Tidy (S : Space) (h : Held) : Prop where
  pool : ∀ inFrame, Pool.Tidy S inFrame (h.pool inFrame)
  unpacked : ∀ u, h.unpacked = some u → u.space = S ∧ u.frame = true

namespace Held

variable {S : Space} {h : Held}

theorem Tidy.virtuals (tidy : h.Tidy S) : Pool.Tidy S false h.virtuals := tidy.pool false

theorem Tidy.frames (tidy : h.Tidy S) : Pool.Tidy S true h.frames := tidy.pool true

theorem Tidy.of_pools {virtuals frames : Pool} {unpacked : Option Permission}
    (first : Pool.Tidy S false virtuals) (second : Pool.Tidy S true frames)
    (third : ∀ u, unpacked = some u → u.space = S ∧ u.frame = true) (constraints : Constraints) :
    Tidy S ⟨virtuals, frames, unpacked, constraints⟩ := by
  refine ⟨fun inFrame => ?_, third⟩
  cases inFrame with
  | false => exact first
  | true => exact second

theorem Tidy.withPool (tidy : h.Tidy S) {inFrame : Bool} {pool : Pool}
    (added : Pool.Tidy S inFrame pool) : (h.withPool inFrame pool).Tidy S := by
  cases inFrame with
  | false => exact .of_pools added tidy.frames tidy.unpacked _
  | true => exact .of_pools tidy.virtuals added tidy.unpacked _

theorem Tidy.joinOn {a : Held} (tidy : a.Tidy S) (b : Held) (s : Solution)
    (constraints : Constraints) (symmetric : Bool) :
    Yields (a.joinOn b s constraints symmetric) (Tidy S) := by
  refine Yields.bind (Pool.within_yields (?_ : Yields _ (Tidy S)) constraints) fun joined kept =>
    .pure (.of_pools kept.virtuals kept.frames kept.unpacked _)
  refine (tidy.virtuals.join _ s symmetric).bind fun virtuals first =>
    (tidy.frames.join _ s symmetric).bind fun frames second => ?_
  split
  · next u v held _ =>
      obtain ⟨space, framed⟩ := tidy.unpacked u held
      have third : Yields (some <$> u.join v s symmetric) fun unpacked =>
          ∀ w, unpacked = some w → w.space = S ∧ w.frame = true := by
        rintro ledger _ ⟨⟩
        have alike := Pool.join_yields u v s symmetric ledger
        exact ⟨alike.space.trans space, alike.frame.trans framed⟩
      exact third.bind fun unpacked third => .pure (.of_pools first second third _)
  · exact .pure (.of_pools first second (by simp) _)

theorem Tidy.join {a b : Held} (first : a.Tidy S) (second : b.Tidy S) (point : MergePoint)
    (s : Solution) : Yields (a.join b point s) (Tidy S) :=
  .ite (fun _ => first.joinOn b s _ false) fun _ => .ite (fun _ => second.joinOn a s _ false)
    fun _ => first.joinOn b s _ true

end Held

def Holding.Tidy (S : Space) : Holding → Prop
  | .bottom => True
  | .held h => h.Tidy S

namespace Holding

variable {S : Space}

/-- One operation on what is held over a space, as far as it ends without a fault. -/
inductive Step (S : Space) : Holding → Holding → Prop
  | split (x : Holding) (r : RequestSet) (supply : Supply) :
      Step S x ((x.split r).run supply).1
  | merge (x : Holding) {r : RequestSet} (produced : r.Produced S) (supply : Supply) :
      Step S x ((x.merge r).run supply).1
  | makeModifiable (x : Holding) (root : String) (inFrame : Bool) (supply : Supply) :
      Step S x ((x.makeModifiable root inFrame).run supply).1
  | makeUnpackedModifiable {x : Holding} {work : SupplyM Holding}
      (done : x.makeUnpackedModifiable = .ok work) (supply : Supply) :
      Step S x (work.run supply).1
  | unpack {x : Holding} {root : String} {work : SupplyM Holding}
      (done : x.unpack S root = .ok work) (supply : Supply) : Step S x (work.run supply).1
  | pack {x : Holding} {states : List String} {work : SupplyM Holding}
      (done : x.pack states = .ok work) (supply : Supply) : Step S x (work.run supply).1
  | invalidPack (x : Holding) : Step S x x.invalidPack
  | learn (x : Holding) (state : String) (inFrame : Bool) : Step S x (x.learn state inFrame)
  | replaceStates {x y : Holding} {states : List String} {inFrame : Bool}
      (done : x.replaceStates states inFrame = .ok y) : Step S x y
  | forget (x : Holding) : Step S x x.forget
  | forgetShared (x : Holding) : Step S x x.forgetShared

/-- What comes from nothing by operations over one space and by joins where ways meet. -/
inductive Obtained (S : Space) : Holding → Prop
  | bottom : Obtained S .bottom
  | empty : Obtained S .empty
  | step {x y : Holding} (obtained : Obtained S x) (step : Step S x y) : Obtained S y
  | join {x y : Holding} (first : Obtained S x) (second : Obtained S y) {point : MergePoint}
      {work : SupplyM Holding} (done : x.join y point = .ok work) (supply : Supply) :
      Obtained S (work.run supply).1

theorem Tidy.map {x : Holding} (tidy : x.Tidy S) {change : Held → Held}
    (kept : ∀ h, h.Tidy S → (change h).Tidy S) : (x.map change).Tidy S := by
  cases x with
  | bottom => trivial
  | held h => exact kept h tidy

theorem Tidy.rework {x : Holding} (tidy : x.Tidy S) {work : Held → LedgerM Held}
    (kept : ∀ h, h.Tidy S → Yields (work h) (Held.Tidy S)) : Yields (x.rework work) (Tidy S) := by
  intro supply
  cases x with
  | bottom => trivial
  | held h =>
      have next := kept h tidy ⟨h.constraints, supply⟩
      exact .of_pools next.virtuals next.frames next.unpacked _

theorem Tidy.split (grown : S.Grown) {x : Holding} (tidy : x.Tidy S) (r : RequestSet) :
    Yields (x.split r) (Tidy S) :=
  tidy.rework fun _ tidy => .after fun _ => .after fun s =>
    (tidy.virtuals.split grown s r.virtuals).bind fun _ first =>
      (tidy.frames.split grown s r.frames).bind fun _ second =>
        .pure (.of_pools first second tidy.unpacked _)

theorem Tidy.merge (grown : S.Grown) {x : Holding} (tidy : x.Tidy S) {r : RequestSet}
    (requested : r.Tidy S) : Yields (x.merge r) (Tidy S) := by
  have added {inFrame : Bool} (requests : List Request) (s : Solution)
      (atop : ∀ q ∈ requests, q.permission.space = S ∧ q.permission.frame = inFrame) {pool : Pool}
      (tidy : Pool.Tidy S inFrame pool) :
      Yields ((requests.map Request.permission).foldlM (Pool.merge s) pool)
        (Pool.Tidy S inFrame) := by
    refine .foldlM _ (fun pool p member tidy => ?_) tidy
    obtain ⟨q, inside, rfl⟩ := List.mem_map.mp member
    exact tidy.merge grown s (atop q inside).1 (atop q inside).2
  exact tidy.rework fun _ tidy => .after fun _ => .after fun s =>
    (added r.virtuals s requested.virtuals tidy.virtuals).bind fun _ first =>
      (added r.frames s requested.frames tidy.frames).bind fun _ second =>
        .pure (.of_pools first second tidy.unpacked _)

theorem makeModifiable_yields (p : Permission) : Yields p.makeModifiable (Pool.Alike p) :=
  .after fun _ => .after fun _ => .ite (fun _ => .after fun _ => .pure ⟨rfl, rfl, rfl⟩)
    fun _ => .pure ⟨rfl, rfl, rfl⟩

theorem Tidy.makeModifiable (grown : S.Grown) {x : Holding} (tidy : x.Tidy S) (root : String)
    (inFrame : Bool) : Yields (x.makeModifiable root inFrame) (Tidy S) := by
  refine tidy.rework fun h tidy => ?_
  split
  · exact .after fun _ => .pure tidy
  · next p others taken =>
      have beside := (tidy.pool inFrame).take? grown taken
      refine (makeModifiable_yields p).bind fun q alike => .pure (tidy.withPool ?_)
      exact (beside.replace alike).perm (List.perm_append_singleton q others).symm

theorem Tidy.makeUnpackedModifiable {x : Holding} (tidy : x.Tidy S) {work : SupplyM Holding}
    (done : x.makeUnpackedModifiable = .ok work) : Yields work (Tidy S) := by
  unfold Holding.makeUnpackedModifiable at done
  split at done
  · cases done
  · cases done
    refine tidy.rework fun h tidy => ?_
    split
    · exact .pure tidy
    · next u held =>
        refine .ite (fun _ => (makeModifiable_yields u).bind fun v alike => .pure ?_)
          fun _ => .pure tidy
        refine .of_pools tidy.virtuals tidy.frames ?_ _
        rintro _ ⟨⟩
        obtain ⟨space, framed⟩ := tidy.unpacked u held
        exact ⟨alike.space.trans space, alike.frame.trans framed⟩

theorem Tidy.unpack (grown : S.Grown) {x : Holding} (tidy : x.Tidy S) {root : String}
    {work : SupplyM Holding} (done : x.unpack S root = .ok work) : Yields work (Tidy S) := by
  -- Where nothing is known yet, unpacking starts from nothing held.
  have reached : Tidy S (if x.isBottom then empty else x) := by
    split
    · exact .of_pools .nil .nil (by simp) _
    · exact tidy
  unfold Holding.unpack at done
  split at done
  · cases done
  · cases done
    refine reached.rework fun h tidy => ?_
    split
    · next p others taken =>
        obtain ⟨space, framed, -, rest⟩ := Pool.tidy_cons.mp (tidy.frames.take? grown taken)
        refine .after fun _ => .pure (.of_pools tidy.virtuals rest ?_ _)
        rintro _ ⟨⟩
        exact ⟨space, framed⟩
    · refine .after fun _ => (Shares.tabulate_yields S root _ _).bind fun shares made => .pure ?_
      refine .of_pools tidy.virtuals tidy.frames ?_ _
      rintro _ ⟨⟩
      exact ⟨made.1, rfl⟩

theorem Tidy.pack (grown : S.Grown) {x : Holding} (tidy : x.Tidy S) {states : List String}
    {work : SupplyM Holding} (done : x.pack states = .ok work) : Yields work (Tidy S) := by
  unfold Holding.pack at done
  split at done
  · cases done
  · cases done
    refine tidy.rework fun h tidy => ?_
    split
    · exact .pure tidy
    · next u held =>
        obtain ⟨space, framed⟩ := tidy.unpacked u held
        have packed (s : Solution) : Yields (h.frames.merge s (u.withStates states))
            (Pool.Tidy S true) := tidy.frames.merge grown s space framed
        exact .after fun s => (packed s).bind fun _ frames =>
          .pure (.of_pools tidy.virtuals frames (by simp) _)

theorem Tidy.changeStates {x : Holding} (tidy : x.Tidy S) (inFrame : Bool)
    {change : Permission → Permission} (alike : ∀ p, Pool.Alike p (change p)) :
    (x.map fun h => h.withPool inFrame ((h.pool inFrame).map change)).Tidy S :=
  tidy.map fun _ tidy => tidy.withPool ((tidy.pool inFrame).map alike)

theorem Tidy.step (grown : S.Grown) {x y : Holding} (tidy : x.Tidy S) (step : Step S x y) :
    y.Tidy S := by
  cases step with
  | split r supply => exact tidy.split grown r supply
  | merge produced supply => exact tidy.merge grown produced.tidy supply
  | makeModifiable root inFrame supply => exact tidy.makeModifiable grown root inFrame supply
  | makeUnpackedModifiable done supply => exact tidy.makeUnpackedModifiable done supply
  | unpack done supply => exact tidy.unpack grown done supply
  | pack done supply => exact tidy.pack grown done supply
  | invalidPack =>
      exact tidy.map fun _ tidy => .of_pools tidy.virtuals tidy.frames (by simp) _
  | learn state inFrame =>
      refine tidy.changeStates inFrame fun p => ?_
      split <;> exact ⟨rfl, rfl, rfl⟩
  | replaceStates done =>
      unfold Holding.replaceStates at done
      split at done
      · cases done
      · cases done
        exact tidy.changeStates _ fun _ => ⟨rfl, rfl, rfl⟩
  | forget =>
      have forgotten {inFrame : Bool} {pool : Pool} (tidy : Pool.Tidy S inFrame pool) :
          Pool.Tidy S inFrame (pool.map Permission.forget) := tidy.map fun _ => ⟨rfl, rfl, rfl⟩
      exact tidy.map fun _ tidy =>
        .of_pools (forgotten tidy.virtuals) (forgotten tidy.frames) tidy.unpacked _
  | forgetShared =>
      have forgotten {inFrame : Bool} {pool : Pool} (tidy : Pool.Tidy S inFrame pool)
          (s : Solution) : Pool.Tidy S inFrame (pool.forgetShared s) := by
        refine tidy.map fun p => ?_
        split <;> exact ⟨rfl, rfl, rfl⟩
      exact tidy.map fun _ tidy =>
        .of_pools (forgotten tidy.virtuals _) (forgotten tidy.frames _) tidy.unpacked _

theorem Tidy.join {x y : Holding} (first : x.Tidy S) (second : y.Tidy S) {point : MergePoint}
    {work : SupplyM Holding} (done : x.join y point = .ok work) : Yields work (Tidy S) := by
  -- One side is kept where the other one is bottom or cannot be met; else both are joined.
  unfold Holding.join at done
  split at done
  · cases done
    exact .pure second
  · cases done
    exact .pure first
  · split at done
    · cases done
      exact .pure first
    · split at done
      · cases done
        exact .pure second
      · dsimp only at done
        split at done
        · cases done
          exact (Held.Tidy.join first second point _).bind fun _ tidy => .pure tidy
        · cases done

theorem Obtained.tidy (grown : S.Grown) {x : Holding} (obtained : Obtained S x) : x.Tidy S := by
  induction obtained with
  | bottom => trivial
  | empty => exact .of_pools .nil .nil (by simp) _
  | step _ step ih => exact ih.step grown step
  | join _ _ done supply first second => exact first.join second done supply

/-- Whatever is done, the roots in each list are orthogonal and no permission is in the wrong
list. -/
theorem roots_orthogonal_of_obtained (built : S.Built) {x : Holding} (obtained : Obtained S x) :
    (∀ inFrame, (x.pool inFrame).Pairwise fun p q => S.orthogonal p.root q.root = true) ∧
      (∀ inFrame, ∀ p ∈ x.pool inFrame, p.frame = inFrame) ∧
      ∀ u, x.unpacked = some u → u.frame = true := by
  have grown := built.grown
  have tidy := obtained.tidy grown
  have pools : ∀ inFrame, Pool.Tidy S inFrame (x.pool inFrame) := by
    intro inFrame
    cases x with
    | bottom => cases inFrame <;> exact .nil
    | held h => exact tidy.pool inFrame
  refine ⟨fun inFrame => ?_, fun inFrame => (pools inFrame).frame, fun u held => ?_⟩
  · exact (pools inFrame).apart.imp fun {p q} parted => (grown.orthogonal_iff _ _).mpr parted
  · cases x with
    | bottom => cases held
    | held h => exact (tidy.unpacked u held).2

namespace Pair

def space : Space :=
  (((Space.Draft.new "Pair").addDimension (some "a") alive ["x", "y"] false).1.addDimension
    (some "b") alive ["p", "q"] false).1.space

theorem built : space.Built :=
  ⟨_, .addDimension (.addDimension (.new "Pair") (some "a") alive ["x", "y"] false)
    (some "b") alive ["p", "q"] false, rfl⟩

/-- All of an object, its fields included. -/
def whole : Predicate :=
  .clauses [⟨Target.receiver, space, ⟨.unique, alive, [], false⟩⟩,
    ⟨Target.receiver, space, ⟨.unique, alive, [], true⟩⟩]

def requests : RequestSet :=
  (((whole.requests Target.receiver false).run ⟨0⟩).1.toOption.bind id).getD (.empty space)

theorem requests_produced : requests.Produced space :=
  ⟨whole, Target.receiver, false, ⟨0⟩, _, by simp [whole, Predicate.partsFor, Predicate.parts],
    by rfl⟩

/-- The object whole, and a full permission for one state split off it. -/
def divided : Holding :=
  ((((Holding.empty.merge requests).run ⟨9⟩).1.split
    ((RequestSet.ofSpec space ⟨.full, "x", [], false⟩ false).run ⟨9⟩).1).run ⟨20⟩).1

/-- The permission for the frame's other dimension is unpacked. -/
def opened : Holding :=
  ((divided.unpack space "b").toOption.map fun work => (work.run ⟨30⟩).1).getD .bottom

theorem opened_obtained : Obtained space opened := by
  have merged := Obtained.empty.step (.merge .empty requests_produced ⟨9⟩)
  have split : Obtained space divided := merged.step (.split _ _ ⟨20⟩)
  exact split.step (.unpack (by rfl) ⟨30⟩)

end Pair

theorem roots_orthogonal_when_divided :
    Obtained Pair.space Pair.opened ∧ Pair.opened.virtuals.map Permission.root = ["b", "x"] ∧
      Pair.opened.frames.map Permission.root = ["a"] ∧
      (∀ inFrame, (Pair.opened.pool inFrame).Pairwise fun p q =>
        Pair.space.orthogonal p.root q.root = true) ∧
      (∀ inFrame, ∀ p ∈ Pair.opened.pool inFrame, p.frame = inFrame) ∧
      ∀ u, Pair.opened.unpacked = some u → u.frame = true := by
  have virtuals : Pair.opened.virtuals.map Permission.root = ["b", "x"] := by decide +kernel
  have frames : Pair.opened.frames.map Permission.root = ["a"] := by decide +kernel
  exact ⟨Pair.opened_obtained, virtuals, frames,
    roots_orthogonal_of_obtained Pair.built Pair.opened_obtained⟩

end Holding

end Typestate
