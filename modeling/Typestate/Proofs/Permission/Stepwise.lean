import Typestate.Proofs.Permission.Granting

set_option autoImplicit false

/-!
What splitting requests off demands. The demands come one after the other, and each of them fixes
one new fraction: as the rest of what was held, or as a common part of several.
-/

namespace Typestate

open Permission

/-- What can be held after some splits: all or nothing, or a fraction that was drawn but not for a
request. -/
def Fraction.IsHeld (asked : Nat → Prop) (n : Nat) : Fraction → Prop
  | .zero | .one => True
  | .named _ => False
  | .unknown id => id < n ∧ ¬asked id

def Fraction.IsAsked (asked : Nat → Prop) (n : Nat) : Fraction → Prop
  | .unknown id => id < n ∧ asked id
  | _ => True

variable {asked : Nat → Prop} {n m : Nat}

theorem Fraction.IsHeld.mono {f : Fraction} (held : f.IsHeld asked n) (more : n ≤ m) :
    f.IsHeld asked m := by
  cases f with
  | zero | one => trivial
  | named id => exact held
  | unknown id => exact ⟨Nat.lt_of_lt_of_le held.1 more, held.2⟩

theorem Fraction.IsHeld.congr {f : Fraction} {other : Nat → Prop} (held : f.IsHeld asked n)
    (same : ∀ id, f = .unknown id → (asked id ↔ other id)) : f.IsHeld other n := by
  cases f with
  | zero | one => trivial
  | named id => exact held
  | unknown id => exact ⟨held.1, fun request => held.2 ((same id rfl).mpr request)⟩

theorem Fraction.IsHeld.isDrawn {f : Fraction} (held : f.IsHeld asked n) : f.IsDrawn n := by
  cases f with
  | zero | one | named id => trivial
  | unknown id => exact held.1

theorem Fraction.IsAsked.mono {f : Fraction} {other : Nat → Prop} (request : f.IsAsked asked n)
    (more : n ≤ m) (wider : ∀ id, f = .unknown id → asked id → other id) : f.IsAsked other m := by
  cases f with
  | zero | one | named id => trivial
  | unknown id => exact ⟨Nat.lt_of_lt_of_le request.1 more, wider id rfl request.2⟩

theorem Fraction.IsAsked.isDrawn {f : Fraction} (request : f.IsAsked asked n) : f.IsDrawn n := by
  cases f with
  | zero | one | named id => trivial
  | unknown id => exact request.1

/-- Constraints that demand something for requests, and of what is drawn besides only that it is the
rest of a split or is at most each of some fractions that are held. -/
inductive Constraints.Stepwise (asked : Nat → Prop) : Nat → Constraints → Prop
  | empty (n : Nat) : Stepwise asked n .empty
  | later {n m : Nat} {cs : Constraints} (made : Stepwise asked n cs) (more : n ≤ m) :
      Stepwise asked m cs
  | ask {n id : Nat} {cs : Constraints} (made : Stepwise asked n cs) (drawn : id < n)
      (request : asked id) : Stepwise asked n (cs.add (.nonZero (.single (.unknown id))))
  | rest {n : Nat} {cs : Constraints} {p q : Fraction} (made : Stepwise asked n cs)
      (new : ¬asked n) (held : p.IsHeld asked n) (request : q.IsAsked asked n)
      (live : q ≠ .zero) :
      Stepwise asked (n + 1) (cs.addEqual p (.ofSum [q, .unknown n]))
  | common {n : Nat} {cs : Constraints} {fs : List Fraction} (made : Stepwise asked n cs)
      (new : ¬asked n) (held : ∀ f ∈ fs, f.IsHeld asked n) (some : fs ≠ []) :
      Stepwise asked (n + 1)
        (fs.foldl (fun cs (f : Fraction) => cs.addAtMost (Fraction.unknown n) f) cs)

namespace Constraints.Stepwise

variable {cs : Constraints}

theorem isDrawn (made : cs.Stepwise asked n) : cs.IsDrawn n := by
  induction made with
  | empty n => exact nofun
  | later _ more ih => exact ih.mono more
  | ask _ drawn _ ih =>
      refine ih.add fun t member f inside => ?_
      rw [List.mem_singleton.mp member] at inside
      rw [List.mem_singleton.mp inside]
      exact drawn
  | @rest n cs p q _ _ held request live ih =>
      have more : n ≤ n + 1 := Nat.le_succ n
      have new : (Fraction.unknown n).IsDrawn (n + 1) := Nat.lt_succ_self n
      exact (ih.mono more).addEqual (Term.isDrawn_single.mpr (held.isDrawn.mono more))
        (Term.isDrawn_ofSum_pair live nofun (request.isDrawn.mono more) new)
  | @common n cs fs _ _ held _ ih =>
      have more : n ≤ n + 1 := Nat.le_succ n
      have new : (Fraction.unknown n).IsDrawn (n + 1) := Nat.lt_succ_self n
      exact Permission.isDrawn_addAtMosts (ih.mono more) new
        fun f member => (held f member).isDrawn.mono more

end Constraints.Stepwise

def Constraints.Mentions (cs : Constraints) (id : Nat) : Prop :=
  ∃ c ∈ cs.items, ∃ t ∈ c.terms, .unknown id ∈ t.fractions

theorem Constraints.Mentions.mono {cs other : Constraints} {id : Nat} (mentions : cs.Mentions id)
    (inside : ∀ c ∈ cs.items, c ∈ other.items) : other.Mentions id := by
  obtain ⟨c, member, known⟩ := mentions
  exact ⟨c, inside c member, known⟩

theorem Constraints.mem_addAtMosts {cs : Constraints} {w : Fraction} {fs : List Fraction}
    {d : Constraint} (live : w ≠ .zero) :
    d ∈ (fs.foldl (fun cs (f : Fraction) => cs.addAtMost w f) cs).items ↔
      d ∈ cs.items ∨ ∃ f ∈ fs, f ≠ w ∧ d = .atMost (.single w) (.single f) := by
  induction fs generalizing cs with
  | nil => simp
  | cons f rest ih =>
      have step : d ∈ (cs.addAtMost w f).items ↔
          d ∈ cs.items ∨ f ≠ w ∧ d = .atMost (.single w) (.single f) := by
        unfold addAtMost
        by_cases same : w = f
        · simp [same]
        · simp [same, live, mem_add, Ne.symm same]
      rw [List.foldl_cons, ih, step, or_assoc]
      simp

theorem Constraints.Stepwise.congr {cs : Constraints} {other : Nat → Prop}
    (made : cs.Stepwise asked n) (same : ∀ id, cs.Mentions id → (asked id ↔ other id)) :
    cs.Stepwise other n := by
  induction made with
  | empty n => exact .empty n
  | later _ more ih => exact (ih same).later more
  | @ask n id cs _ drawn request ih =>
      have mentioned : (cs.add (.nonZero (.single (.unknown id)))).Mentions id :=
        ⟨_, mem_add.mpr (.inr rfl), _, List.mem_singleton_self _, List.mem_singleton_self _⟩
      refine (ih fun id' known => same id' (known.mono fun c old => ?_)).ask drawn
        ((same id mentioned).mp request)
      exact mem_add.mpr (.inl old)
  | @rest n cs p q _ new held request live ih =>
      obtain ⟨gs, sum, shape⟩ := Term.ofSum_pair live (nofun : Fraction.unknown n ≠ .zero)
      have different : Term.single p ≠ .sum gs := nofun
      have added : cs.addEqual p (.ofSum [q, .unknown n]) = cs.add (.equal [.single p, .sum gs]) := by
        rw [sum, addEqual, if_neg different]
      rw [added] at same
      -- All that the step looks at occurs in the constraint that it adds.
      have mentioned {f : Fraction} (among : f = p ∨ f ∈ gs) (id : Nat) (unknown : f = .unknown id) :
          asked id ↔ other id := by
        refine same id ⟨_, mem_add.mpr (.inr rfl), ?_⟩
        rcases among with rfl | inside
        · exact ⟨.single f, by simp [Constraint.terms], by simp [Term.fractions, unknown]⟩
        · exact ⟨.sum gs, by simp [Constraint.terms], unknown ▸ inside⟩
      have summands : q ∈ gs ∧ .unknown n ∈ gs := by rcases shape with rfl | rfl <;> simp
      refine .rest (ih fun id known => same id (known.mono fun c old => mem_add.mpr (.inl old)))
        (fun asks => new ((mentioned (.inr summands.2) n rfl).mpr asks))
        (held.congr (mentioned (.inl rfl))) ?_ live
      exact request.mono (Nat.le_refl n) fun id unknown =>
        (mentioned (.inr summands.1) id unknown).mp
  | @common n cs fs _ new held some ih =>
      have live : Fraction.unknown n ≠ .zero := nofun
      have apart {f : Fraction} (member : f ∈ fs) : f ≠ .unknown n := fun same =>
        not_isDrawn_unknown n (same ▸ (held f member).isDrawn)
      have mentioned {f : Fraction} (member : f ∈ fs) {id : Nat}
          (among : .unknown id = f ∨ id = n) : asked id ↔ other id := by
        refine same id ⟨_, (mem_addAtMosts live).mpr (.inr ⟨f, member, apart member, rfl⟩), ?_⟩
        rcases among with unknown | new
        · exact ⟨.single f, by simp [Constraint.terms], by simp [Term.fractions, unknown]⟩
        · exact ⟨.single (.unknown n), by simp [Constraint.terms], by simp [Term.fractions, new]⟩
      obtain ⟨f, member⟩ := List.exists_mem_of_ne_nil fs some
      refine .common
        (ih fun id known => same id (known.mono fun c old => (mem_addAtMosts live).mpr (.inl old)))
        (fun asks => new ((mentioned member (.inr rfl)).mpr asks)) (fun g among => ?_) some
      exact (held g among).congr fun id unknown => mentioned among (.inl unknown.symm)

namespace Constraints

variable {cs : Constraints}

theorem impossible_addAtMosts {w : Fraction} {fs : List Fraction} :
    (fs.foldl (fun cs (f : Fraction) => cs.addAtMost w f) cs).impossible = cs.impossible := by
  induction fs generalizing cs with
  | nil => rfl
  | cons f rest ih =>
      rw [List.foldl_cons, ih]
      unfold addAtMost
      split
      · rfl
      · exact impossible_add

end Constraints

/-- A ledger whose demands came one after the other, unless they were declared impossible. -/
structure Ledger.Stepwise (asked : Nat → Prop) (l : Ledger) : Prop where
  made : l.constraints.impossible = none → l.constraints.Stepwise asked l.supply.next
  drawn : ∀ id, asked id → id < l.supply.next

def Cargo.steps (asked : Nat → Prop) : Cargo Unit :=
  ⟨fun l _ => l.Stepwise asked, fun _ _ _ => True, fun _ _ => trivial, fun _ _ _ => trivial⟩

/-- Work that goes on step by step, on what has the first property to what has the second. -/
abbrev Proceeds {α : Type} (asked : Nat → Prop) (before : Nat → Prop) (work : LedgerM α)
    (after : α → Nat → Prop) : Prop :=
  Carries (.steps asked) (fun n _ => before n) work fun a n _ => after a n

def Permission.IsHeld (asked : Nat → Prop) (n : Nat) (p : Permission) : Prop :=
  ∀ f ∈ p.shares.fractions, f.IsHeld asked n

def Request.IsAsked (asked : Nat → Prop) (n : Nat) (q : Request) : Prop :=
  ∀ f ∈ q.permission.shares.fractions, f.IsAsked asked n

section Steps

theorem Proceeds.impossible {α : Type} {before : Nat → Prop} {after : α → Nat → Prop}
    {reason : String} {a : α} (holds : ∀ n, before n → after a n) :
    Proceeds asked before (do Ledger.demand (·.declareImpossible reason); return a) after := by
  intro l _ steps start
  refine ⟨(), trivial, Nat.le_refl _, ⟨fun possible => ?_, steps.drawn⟩, holds _ start⟩
  change (l.constraints.impossible.or (some reason)) = none at possible
  simp at possible

theorem Permission.splitFraction_proceeds (p q : Fraction) :
    Proceeds asked (fun n => p.IsHeld asked n ∧ q.IsAsked asked n) (splitFraction p q)
      fun r n => r.IsHeld asked n := by
  refine .ite (fun _ => .pure fun _ _ known => known.1) fun live =>
    .ite (fun _ => .pure fun _ _ _ => trivial) fun _ => ?_
  rintro l _ steps ⟨held, request⟩
  -- The rest is drawn now, after all that was asked for.
  have new : ¬asked l.supply.next := fun asks => Nat.lt_irrefl _ (steps.drawn _ asks)
  refine ⟨(), trivial, Nat.le_succ _, ⟨fun possible => ?_, fun id asks => ?_⟩, Nat.lt_succ_self _,
    new⟩
  · exact .rest (steps.made (Constraints.impossible_addEqual.symm.trans possible)) new held request
      live
  · exact Nat.lt_succ_of_lt (steps.drawn id asks)

theorem Permission.weaken_proceeds (first : Fraction) (rest : List Fraction) :
    Proceeds asked (fun n => ∀ f ∈ first :: rest, f.IsHeld asked n) (weaken first rest)
      fun w n => w.IsHeld asked n := by
  rw [weaken_eq]
  refine .ite (fun _ => .pure fun _ _ held => held first List.mem_cons_self) fun _ => ?_
  intro l _ steps held
  have new : ¬asked l.supply.next := fun asks => Nat.lt_irrefl _ (steps.drawn _ asks)
  refine ⟨(), trivial, Nat.le_succ _, ⟨fun possible => ?_, fun id asks => ?_⟩, Nat.lt_succ_self _,
    new⟩
  · exact .common (steps.made (Constraints.impossible_addAtMosts.symm.trans possible)) new held
      (List.cons_ne_nil _ _)
  · exact Nat.lt_succ_of_lt (steps.drawn id asks)

theorem Fraction.isHeld_lasting (f : Fraction) :
    (Cargo.steps asked).Keeps fun n _ => f.IsHeld asked n := fun more _ held => held.mono more

theorem Permission.IsHeld.get {p : Permission} (held : p.IsHeld asked n) (node : String) :
    (p.shares.get node).IsHeld asked n := by
  rcases p.shares.get_mem node with member | zero
  · exact held _ member
  · rw [zero]
    trivial

theorem Request.IsAsked.get {q : Request} (request : q.IsAsked asked n) (node : String) :
    (q.permission.shares.get node).IsAsked asked n := by
  rcases q.permission.shares.get_mem node with member | zero
  · exact request _ member
  · rw [zero]
    trivial

theorem Permission.IsPartOf.isHeld {S : Space} {part whole : Permission}
    (isPart : part.IsPartOf S whole) (held : whole.IsHeld asked n) : part.IsHeld asked n := by
  intro f member
  rw [isPart.shares] at member
  rcases Shares.mem_fractions_reroot member with old | zero
  · exact held f old
  · rw [zero]
    trivial

theorem Permission.combineUp_proceeds (root : String) (parts : List Permission) :
    Proceeds asked (fun n => ∀ p ∈ parts, p.IsHeld asked n) (combineUp root parts)
      fun whole n => ∀ w, whole = some w → w.IsHeld asked n := by
  cases parts with
  | nil => exact .pure nofun
  | cons first rest =>
      refine .ite (fun _ => .pure nofun) fun _ => ?_
      have weakened (change : Permission → Fraction) :
          Proceeds asked (fun n => ∀ p ∈ first :: rest, (change p).IsHeld asked n)
            (weaken (change first) (rest.map change)) fun f n => f.IsHeld asked n := by
        refine (weaken_proceeds _ _).mono (fun n _ held f member => ?_) fun _ _ _ => id
        obtain ⟨p, among, rfl⟩ := List.mem_map.mp (List.map_cons (f := change) ▸ member)
        exact held p among
      have lasting (change : Permission → Fraction) :
          (Cargo.steps asked).Keeps fun n _ => ∀ p ∈ first :: rest, (change p).IsHeld asked n :=
        fun more _ held p member => (held p member).mono more
      refine ((Shares.tabulate_carries _ _ (fun n => lasting (·.shares.get n))
        (lasting (·.shares.below)) (fun _ f => f.isHeld_lasting)
        (fun n => weakened (·.shares.get n)) (weakened (·.shares.below))).mono
        (fun n _ held => ⟨fun node _ p member => (held p member).get node,
          fun p member => held p member _ (Shares.below_mem_fractions _)⟩)
        fun _ _ _ => id).bind fun shares => .pure ?_
      rintro n _ made w ⟨⟩ f member
      rcases Shares.mem_fractions.mp member with ⟨entry, inside, rfl⟩ | rfl
      · exact made.values entry inside
      · exact made.below

theorem Permission.split_proceeds (p : Permission) (q : Request) (s : Solution) :
    Proceeds asked (fun n => p.IsHeld asked n ∧ q.IsAsked asked n) (p.split q s)
      fun remainder n => ∀ r, remainder = some r → r.IsHeld asked n := by
  have taken (f g : Fraction) : (Cargo.steps asked).Keeps fun n _ =>
      f.IsHeld asked n ∧ g.IsAsked asked n :=
    fun more _ both => ⟨both.1.mono more, both.2.mono more fun _ _ => id⟩
  have parts : Proceeds asked (fun n => p.IsHeld asked n ∧ q.IsAsked asked n)
      (p.shares.combine q.permission.shares splitFraction)
      fun rest n => ∀ f ∈ rest.fractions, f.IsHeld asked n := by
    refine (p.shares.combine_carries q.permission.shares taken (fun _ _ h => h.isHeld_lasting)
      splitFraction_proceeds).mono (fun n _ start => ⟨fun entry member => ?_, ?_⟩)
      fun rest n _ combined f member => ?_
    · exact ⟨start.1 _ (Shares.mem_fractions_of_mem member), start.2.get _⟩
    · exact ⟨start.1 _ (Shares.below_mem_fractions _), start.2 _ (Shares.below_mem_fractions _)⟩
    · rcases Shares.mem_fractions.mp member with ⟨entry, inside, rfl⟩ | rfl
      · obtain ⟨-, -, -, held⟩ := exists_left_of_forall₂ combined.values inside
        exact held
      · exact combined.below
  unfold split
  cases (p.kind s).split q.kind with
  | impossible =>
      refine .impossible fun n start r same => ?_
      cases same
      exact start.1
  | nothing =>
      refine parts.bind fun _ => .pure fun n _ _ r same => ?_
      cases same
  | kind k =>
      refine parts.bind fun rest => .pure fun n _ held r same => ?_
      cases same
      exact held

def Pool.IsHeld (asked : Nat → Prop) (n : Nat) (pool : Pool) : Prop := ∀ p ∈ pool, p.IsHeld asked n

end Steps

namespace Pool

variable {S : Space} {frame : Bool}

theorem IsHeld.lasting (pool : Pool) : (Cargo.steps asked).Keeps fun n _ => pool.IsHeld asked n :=
  fun more _ held p member f inside => (held p member f inside).mono more

theorem splitFound_proceeds (s : Solution) (q : Request) (p : Permission) (others : Pool) :
    Proceeds asked (fun n => IsHeld asked n (p :: others) ∧ q.IsAsked asked n)
      (splitFound s q p others) fun next n => next.IsHeld asked n := by
  refine (((p.split_proceeds q s).frame (IsHeld.lasting others)).mono (fun n _ start => ?_)
    fun _ _ _ => id).bind fun remainder => ?_
  · exact ⟨⟨start.1 p List.mem_cons_self, start.2⟩,
      fun o member => start.1 o (List.mem_cons_of_mem _ member)⟩
  · cases remainder with
    | none => exact .pure fun n _ known => known.2
    | some r =>
        refine .pure fun n _ known o member => ?_
        rcases List.mem_append.mp member with other | last
        · exact known.2 o other
        · rw [List.mem_singleton.mp last]
          exact known.1 r rfl

variable (grown : S.Grown) {pool : Pool} (orderly : pool.Orderly S frame)

include orderly

theorem Orderly.splitCombined_proceeds (s : Solution) (q : Request) :
    Proceeds asked (fun n => pool.IsHeld asked n ∧ q.IsAsked asked n) (splitCombined s q pool)
      fun next n => next.IsHeld asked n := by
  by_cases holds : pool.HoldsDimensions S q.root
  · have kept : (Cargo.steps asked).Keeps fun n _ =>
        IsHeld asked n (pool.remaining S q.root) ∧ q.IsAsked asked n :=
      fun more agree both => ⟨IsHeld.lasting _ more agree both.1,
        fun f member => (both.2 f member).mono more fun _ _ => id⟩
    rw [orderly.splitCombined_of_holds s q holds]
    refine (((combineUp_proceeds q.root (pool.parts S q.root)).frame kept).mono
      (fun n _ start => ?_) fun _ _ _ => id).bind fun whole => ?_
    · exact ⟨fun p part => start.1 p (mem_parts_iff.mp part).1,
        fun p member => start.1 p (List.mem_filter.mp member).1, start.2⟩
    · cases whole with
      | none => exact Proceeds.impossible fun n known => known.2.1
      | some w =>
          refine (splitFound_proceeds s q w _).mono (fun n _ known => ⟨fun p member => ?_,
            known.2.2⟩) fun _ _ _ => id
          rcases List.mem_cons.mp member with rfl | other
          · exact known.1 p rfl
          · exact known.2.1 p other
  · rw [orderly.splitCombined_of_not_holds s q holds]
    exact .impossible fun n start => start.1

include grown

theorem Orderly.splitOne_proceeds (s : Solution) (q : Request) :
    Proceeds asked (fun n => pool.IsHeld asked n ∧ q.IsAsked asked n) (pool.splitOne s q)
      fun next n => next.IsHeld asked n := by
  cases taken : pool.take? q.root q.toleratesSmallerRoot with
  | none =>
      rw [splitOne_of_take?_none taken]
      exact orderly.splitCombined_proceeds s q
  | some found =>
      obtain ⟨p, others⟩ := found
      rw [splitOne_of_take? taken]
      refine (splitFound_proceeds s q p others).mono (fun n _ start => ⟨fun part member => ?_,
        start.2⟩) fun _ _ _ => id
      obtain ⟨whole, inside, isPart⟩ := (orderly.take?_parts grown taken).2 part member
      exact isPart.isHeld (start.1 whole inside)

theorem Orderly.split_proceeds (s : Solution) (requests : List Request) :
    Proceeds asked (fun n => pool.IsHeld asked n ∧ ∀ q ∈ requests, q.IsAsked asked n)
      (pool.split s requests) fun next n => next.IsHeld asked n := by
  induction requests generalizing pool with
  | nil => exact .pure fun n _ start => start.1
  | cons q rest ih =>
      have kept : (Cargo.steps asked).Keeps fun n _ => ∀ q' ∈ rest, q'.IsAsked asked n :=
        fun more _ all q' member f inside => (all q' member f inside).mono more fun _ _ => id
      unfold Pool.split
      rw [List.foldlM_cons]
      refine (((orderly.splitOne_proceeds grown s q).frame kept).mono (fun n _ start => ?_)
        fun _ _ _ => id).bindYields (orderly.splitOne grown s q) fun next possible => ?_
      · exact ⟨⟨start.1, start.2 q List.mem_cons_self⟩,
          fun q' later => start.2 q' (List.mem_cons_of_mem _ later)⟩
      · exact ih possible.1

end Pool

end Typestate
