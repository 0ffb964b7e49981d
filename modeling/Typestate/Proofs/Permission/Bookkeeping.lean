import Typestate.Proofs.Permission.Exclusion
import Typestate.Proofs.Permission.Joining

set_option autoImplicit false

/-!
What splitting and merging write down. At every node the result is known at once, or it is a fresh
fraction with one equation for it.
-/

namespace Typestate

open Permission

namespace Constraints

variable {cs other : Constraints} {p q r : Fraction}

/-- What is left of a fraction when a part is taken, as far as it is written down. -/
inductive Leaves (cs : Constraints) (p q : Fraction) : Fraction → Prop
  | all (nothing : q = .zero) : Leaves cs p q p
  | nothing (all : p = q) : Leaves cs p q .zero
  | rest (id : Nat) (some : q ≠ .zero)
      (written : .equal [.single p, .ofSum [q, .unknown id]] ∈ cs.items) :
      Leaves cs p q (.unknown id)

/-- What two fractions come to, as far as it is written down. -/
inductive Gathers (cs : Constraints) (p q : Fraction) : Fraction → Prop
  | first (nothing : q = .zero) : Gathers cs p q p
  | second (nothing : p = .zero) : Gathers cs p q q
  | total (id : Nat) (left : p ≠ .zero) (right : q ≠ .zero)
      (written : .equal [.single (.unknown id), .ofSum [p, q]] ∈ cs.items) :
      Gathers cs p q (.unknown id)

theorem Leaves.mono (inside : cs.items ⊆ other.items) (leaves : cs.Leaves p q r) :
    other.Leaves p q r := by
  cases leaves with
  | all nothing => exact .all nothing
  | nothing all => exact .nothing all
  | rest id some written => exact .rest id some (inside written)

theorem Gathers.mono (inside : cs.items ⊆ other.items) (gathers : cs.Gathers p q r) :
    other.Gathers p q r := by
  cases gathers with
  | first nothing => exact .first nothing
  | second nothing => exact .second nothing
  | total id left right written => exact .total id left right (inside written)

theorem written_addEqual (cs : Constraints) {f g h : Fraction} (left : g ≠ .zero)
    (right : h ≠ .zero) :
    cs.items ⊆ (cs.addEqual f (.ofSum [g, h])).items ∧
      .equal [.single f, .ofSum [g, h]] ∈ (cs.addEqual f (.ofSum [g, h])).items := by
  obtain ⟨gs, sum, -⟩ := Term.ofSum_pair left right
  have different : Term.single f ≠ .sum gs := nofun
  rw [sum, addEqual, if_neg different]
  exact ⟨fun c old => mem_add.mpr (.inl old), mem_add.mpr (.inr rfl)⟩

end Constraints

/-- The constraints themselves, of which none gets lost. -/
abbrev Cargo.records : Cargo Constraints where
  fits l cs := l.constraints = cs
  agree _ cs other := cs.items ⊆ other.items
  refl _ _ := List.Subset.refl _
  trans first _ second := List.Subset.trans first second

namespace Permission

theorem splitFraction_leaves (p q : Fraction) :
    Carries .records (fun _ _ => True) (splitFraction p q) fun r _ cs => cs.Leaves p q r := by
  refine .ite (fun nothing => .pure fun _ _ _ => .all nothing) fun some =>
    .ite (fun all => .pure fun _ _ _ => .nothing all) fun _ => ?_
  rintro l cs rfl -
  obtain ⟨kept, written⟩ := l.constraints.written_addEqual (f := p) some
    (nofun : Fraction.unknown l.supply.next ≠ .zero)
  exact ⟨_, kept, Nat.le_succ _, rfl, .rest _ some written⟩

theorem mergeFraction_gathers (p q : Fraction) :
    Carries .records (fun _ _ => True) (mergeFraction p q) fun r _ cs => cs.Gathers p q r := by
  refine .ite (fun nothing => .pure fun _ _ _ => .first nothing) fun right =>
    .ite (fun nothing => .pure fun _ _ _ => .second nothing) fun left => ?_
  rintro l cs rfl -
  obtain ⟨kept, written⟩ :=
    l.constraints.written_addEqual (f := .unknown l.supply.next) left right
  exact ⟨_, kept, Nat.le_succ _, rfl, .total _ left right written⟩

end Permission

namespace Shares

/-- The nodes from the root up, and all that is below the root. -/
def spots (s : Shares) : List (Option String) := (s.space.ancestors s.root).map some ++ [none]

variable {s t r : Shares}

theorem mem_spots {spot : Option String} :
    spot ∈ s.spots ↔ (∃ n ∈ s.space.ancestors s.root, some n = spot) ∨ spot = none := by
  rw [spots, List.mem_append, List.mem_map, List.mem_singleton]

theorem some_mem_spots {n : String} (node : n ∈ s.space.ancestors s.root) : some n ∈ s.spots :=
  mem_spots.mpr (.inl ⟨n, node, rfl⟩)

theorem none_mem_spots (s : Shares) : none ∈ s.spots := mem_spots.mpr (.inr rfl)

theorem fractionAt_mem (grown : s.space.Grown) (laid : s.Laid) {spot : Option String}
    (among : spot ∈ s.spots) : s.fractionAt spot ∈ s.fractions := by
  rcases mem_spots.mp among with ⟨n, node, rfl⟩ | rfl
  · obtain ⟨entry, member, rfl⟩ := List.mem_map.mp (laid ▸ node)
    rw [fractionAt, get_of_mem grown laid member]
    exact mem_fractions_of_mem member
  · exact s.below_mem_fractions

theorem IsDrawn.fractionAt {n : Nat} (drawn : s.IsDrawn n) (spot : Option String) :
    (s.fractionAt spot).IsDrawn n := by
  cases spot with
  | none => exact drawn.below
  | some node => exact drawn.get node

theorem Combined.spots_eq {t r : Shares} {holds : Fraction → Fraction → Fraction → Prop}
    (combined : Combined s t holds r) : r.spots = s.spots := by
  rw [spots, spots, combined.space, combined.root]

theorem Combined.spot {holds : Fraction → Fraction → Fraction → Prop}
    (combined : Combined s t holds r) (grown : s.space.Grown) (laid : s.Laid)
    {spot : Option String} (among : spot ∈ s.spots) :
    holds (s.fractionAt spot) (t.fractionAt spot) (r.fractionAt spot) := by
  rcases mem_spots.mp among with ⟨n, node, rfl⟩ | rfl
  · exact combined.get grown laid node
  · exact combined.below

theorem forall_entries (holds : Fraction → Fraction → Prop) (grown : s.space.Grown) (laid : s.Laid)
    (each : ∀ spot ∈ s.spots, holds (s.fractionAt spot) (t.fractionAt spot)) :
    (∀ entry ∈ s.values, holds entry.2 (t.get entry.1)) ∧ holds s.below t.below := by
  refine ⟨fun entry member => ?_, each none s.none_mem_spots⟩
  have node : entry.1 ∈ s.space.ancestors s.root := laid ▸ List.mem_map_of_mem member
  have here := each (some entry.1) (some_mem_spots node)
  rwa [fractionAt, get_of_mem grown laid member] at here

theorem forall_spots (holds : Fraction → Fraction → Prop) (grown : s.space.Grown) (laid : s.Laid)
    (values : ∀ entry ∈ s.values, holds entry.2 (t.get entry.1)) (below : holds s.below t.below) :
    ∀ spot ∈ s.spots, holds (s.fractionAt spot) (t.fractionAt spot) := by
  intro spot among
  rcases mem_spots.mp among with ⟨n, node, rfl⟩ | rfl
  · obtain ⟨entry, inside, rfl⟩ := List.mem_map.mp (laid ▸ node)
    rw [fractionAt, get_of_mem grown laid inside]
    exact values entry inside
  · exact below

theorem combine_written (written : Constraints → Fraction → Fraction → Fraction → Prop)
    {both : Fraction → Fraction → LedgerM Fraction}
    (mono : ∀ {cs other : Constraints} {f g h : Fraction}, cs.items ⊆ other.items →
      written cs f g h → written other f g h)
    (each : ∀ f g, Carries .records (fun _ _ => True) (both f g) fun h _ cs => written cs f g h)
    (s t : Shares) (l : Ledger) :
    let out := (s.combine t both).run l
    l.constraints.items ⊆ out.2.constraints.items ∧
      Combined s t (written out.2.constraints) out.1 := by
  have kept (f g h : Fraction) : Cargo.records.Keeps fun _ cs => written cs f g h :=
    fun _ inside here => mono inside here
  obtain ⟨_, inside, -, rfl, combined⟩ := combine_carries s t (fun _ _ _ _ _ _ _ _ => id) kept
    each l _ rfl ⟨fun _ _ => trivial, trivial⟩
  exact ⟨inside, combined⟩

theorem combine_leaves (s t : Shares) (l : Ledger) :
    let out := (s.combine t splitFraction).run l
    l.constraints.items ⊆ out.2.constraints.items ∧ Combined s t out.2.constraints.Leaves out.1 :=
  combine_written Constraints.Leaves Constraints.Leaves.mono splitFraction_leaves s t l

theorem combine_gathers (s t : Shares) (l : Ledger) :
    let out := (s.combine t mergeFraction).run l
    l.constraints.items ⊆ out.2.constraints.items ∧
      Combined s t out.2.constraints.Gathers out.1 :=
  combine_written Constraints.Gathers Constraints.Gathers.mono mergeFraction_gathers s t l

end Shares

/-- The permission with these shares that an outcome leaves of another one. -/
def Remainder.leave (outcome : Remainder) (p : Permission) (rest : Shares) : Option Permission :=
  match outcome with
  | .kind k => some { p with shares := rest, readOnly := k.isReadOnly }
  | _ => none

namespace Permission

theorem split_eq {p : Permission} {q : Request} {s : Solution}
    (allowed : (p.kind s).split q.kind ≠ .impossible) :
    p.split q s = (do
      let rest ← p.shares.combine q.permission.shares splitFraction
      return ((p.kind s).split q.kind).leave p rest) := by
  unfold split
  cases outcome : (p.kind s).split q.kind with
  | impossible => exact absurd outcome allowed
  | nothing => rfl
  | kind k => rfl

end Permission

namespace Request

/-- Requests as they are made: from a specification, or for an object that nobody has seen yet. -/
inductive Made (S : Space) : Request → Prop
  | create (spec : Spec) (named : Bool) (l : Ledger) : Made S ((create S spec named).run l).1
  | orphan (root : String) (frame : Bool) (states : List String) :
      Made S (.orphan S root frame states)

theorem Made.started {S : Space} {q : Request} (made : q.Made S) :
    q.permission.readOnly = q.kind.isReadOnly ∧
      ∃ l last, StartedWith S q.kind l (q.permission.shares, last) := by
  cases made with
  | create spec named l =>
      rw [create_run]
      exact ⟨rfl, l, _, shares_startedWith S spec.root named spec.kind l⟩
  | orphan root frame states =>
      exact ⟨rfl, default, default, constant_one_startedWith S root default⟩

theorem Made.spots_eq {q : Request} {p : Permission} (made : q.Made p.space)
    (root : q.root = p.root) : q.permission.shares.spots = p.shares.spots := by
  obtain ⟨-, l, last, started⟩ := made.started
  have space : q.permission.shares.space = p.shares.space := started.space
  have same : q.permission.shares.root = p.shares.root := root
  rw [Shares.spots, Shares.spots, space, same]

theorem Made.fractionAt_eq_one {q : Request} {p : Permission} (grown : p.space.Grown)
    (made : q.Made p.space) (root : q.root = p.root) (unique : q.kind = .unique)
    {spot : Option String} (among : spot ∈ p.shares.spots) :
    q.permission.shares.fractionAt spot = .one := by
  obtain ⟨-, l, last, started⟩ := made.started
  have space : q.permission.shares.space = p.space := started.space
  refine started.whole unique _ (Shares.fractionAt_mem (space ▸ grown) started.laid ?_)
  rw [made.spots_eq root]
  exact among

end Request

section Deciding

instance (n : Nat) : DecidablePred (Fraction.IsDrawn n)
  | .zero | .one | .named _ => inferInstanceAs (Decidable True)
  | .unknown id => inferInstanceAs (Decidable (id < n))

instance (n : Nat) : DecidablePred (Term.IsDrawn n) :=
  fun t => inferInstanceAs (Decidable (∀ f ∈ t.fractions, f.IsDrawn n))

instance (n : Nat) : DecidablePred (Constraints.IsDrawn n) :=
  fun cs => inferInstanceAs (Decidable (∀ c ∈ cs.items, ∀ t ∈ c.terms, t.IsDrawn n))

instance (n : Nat) : DecidablePred (Shares.IsDrawn n) :=
  fun s => inferInstanceAs (Decidable (∀ f ∈ s.fractions, f.IsDrawn n))

instance : DecidablePred Shares.Laid :=
  fun s => inferInstanceAs (Decidable (s.values.map Prod.fst = s.space.ancestors s.root))

end Deciding

namespace Door

/-- A door that is open or closed. -/
def space : Space :=
  ((Space.Draft.new "Door").addDimension (some "position") alive ["open", "closed"] false).1.space

theorem built : space.Built :=
  ⟨_, .addDimension (.new "Door") (some "position") alive ["open", "closed"] false, rfl⟩

/-- A permission for an open door, with the fractions of the three nodes and the one below. -/
def permission (here position all below : Fraction) (readOnly : Bool) : Permission :=
  ⟨⟨space, "open", [("open", here), ("position", position), (alive, all)], below⟩, readOnly, false,
    []⟩

/-- A request for an open door. -/
def request (kind : Kind) (named : Bool) : LedgerM Request :=
  Request.create space ⟨kind, "open", [], false⟩ named

end Door

end Typestate
