import Typestate.Proofs.Permission.Granting

set_option autoImplicit false

/-!
What a joined pool has in common with the pools it was joined from: each of its permissions is one
of either side with fractions that fit into the old ones.
-/

namespace Typestate

variable {V : Type} {S : Space} {frame : Bool}

/-- A permission for the same root with fractions that fit into those of another one. -/
structure Permission.IsWeaker (S : Space) (fits : Fraction → Fraction → Prop)
    (j p : Permission) : Prop where
  root : j.root = p.root
  writable : j.readOnly = false → p.readOnly = false
  above : ∀ n ∈ S.ancestors p.root, fits (j.shares.get n) (p.shares.get n)
  below : fits j.shares.below p.shares.below

/-- A permission that is weaker than two others and can be written with if both can. -/
structure Permission.IsJoin (S : Space) (fits : Fraction → Fraction → Prop)
    (p q j : Permission) : Prop where
  left : j.IsWeaker S fits p
  right : j.IsWeaker S fits q
  readOnly : j.readOnly = (p.readOnly || q.readOnly)

/-- Every permission of a pool is a join of permissions of two others. -/
def Pool.IsJoin (S : Space) (fits : Fraction → Fraction → Prop) (a b pool : Pool) : Prop :=
  ∀ j ∈ pool, ∃ p ∈ a, ∃ q ∈ b, p.IsJoin S fits q j

theorem Permission.IsWeaker.imp {fits other : Fraction → Fraction → Prop} {j p : Permission}
    (weaken : ∀ f g, fits f g → other f g) (weaker : j.IsWeaker S fits p) : j.IsWeaker S other p :=
  ⟨weaker.root, weaker.writable, fun n node => weaken _ _ (weaker.above n node),
    weaken _ _ weaker.below⟩

theorem Pool.IsJoin.imp {fits other : Fraction → Fraction → Prop} {a b pool : Pool}
    (weaken : ∀ f g, fits f g → other f g) (isJoin : Pool.IsJoin S fits a b pool) :
    Pool.IsJoin S other a b pool := by
  intro j member
  obtain ⟨p, left, q, right, join⟩ := isJoin j member
  exact ⟨p, left, q, right, join.left.imp weaken, join.right.imp weaken, join.readOnly⟩

theorem Pool.IsJoin.symm {fits : Fraction → Fraction → Prop} {a b pool : Pool}
    (isJoin : Pool.IsJoin S fits a b pool) : Pool.IsJoin S fits b a pool := by
  intro j member
  obtain ⟨p, left, q, right, join⟩ := isJoin j member
  exact ⟨q, right, p, left, join.right, join.left, join.readOnly.trans (Bool.or_comm _ _)⟩

theorem Pool.Orderly.eq_of_root (grown : S.Grown) {pool : Pool} (orderly : pool.Orderly S frame)
    {p q : Permission} (left : p ∈ pool) (right : q ∈ pool) (root : q.root = p.root) : q = p :=
  orderly.eq_of_above grown right left (root ▸ grown.above_refl _) (grown.above_refl _)

theorem Pool.Orderly.find?_root (grown : S.Grown) {pool : Pool} (orderly : pool.Orderly S frame)
    {root : String} {q : Permission} (member : q ∈ pool) (same : q.root = root) :
    pool.find? (fun q => q.root == root) = some q := by
  cases found : pool.find? fun q => q.root == root with
  | none => exact absurd (by simpa using same) (List.find?_eq_none.mp found q member)
  | some other =>
      have atRoot : other.root = root := by simpa using List.find?_some found
      rw [orderly.eq_of_root grown member (List.mem_of_find?_eq_some found)
        (atRoot.trans same.symm)]

/-- In orderly pools the permissions that another one was joined from are determined by the root. -/
theorem Pool.IsJoin.and (grown : S.Grown) {fits other : Fraction → Fraction → Prop}
    {a b pool : Pool} (orderlyA : a.Orderly S frame) (orderlyB : b.Orderly S frame)
    (isJoin : Pool.IsJoin S fits a b pool) (also : Pool.IsJoin S other a b pool) :
    Pool.IsJoin S (fun f g => fits f g ∧ other f g) a b pool := by
  have combine {j p : Permission} (first : j.IsWeaker S fits p) (second : j.IsWeaker S other p) :
      j.IsWeaker S (fun f g => fits f g ∧ other f g) p :=
    ⟨first.root, first.writable, fun n node => ⟨first.above n node, second.above n node⟩,
      first.below, second.below⟩
  intro j member
  obtain ⟨p, left, q, right, join⟩ := isJoin j member
  obtain ⟨p', left', q', right', join'⟩ := also j member
  have sameP := orderlyA.eq_of_root grown left left' (join'.left.root.symm.trans join.left.root)
  have sameQ := orderlyB.eq_of_root grown right right' (join'.right.root.symm.trans join.right.root)
  rw [sameP, sameQ] at join'
  exact ⟨p, left, q, right, combine join.left join'.left, combine join.right join'.right,
    join.readOnly⟩

theorem Shares.Combined.get {s t r : Shares} {holds : Fraction → Fraction → Fraction → Prop}
    (combined : Combined s t holds r) (grown : s.space.Grown) (laid : s.Laid) {n : String}
    (node : n ∈ s.space.ancestors s.root) : holds (s.get n) (t.get n) (r.get n) := by
  have grownR : r.space.Grown := combined.space ▸ grown
  obtain ⟨old, member, rfl⟩ := List.mem_map.mp (laid ▸ node)
  obtain ⟨new, inside, same, known⟩ := exists_right_of_forall₂ combined.values member
  have value := get_of_mem grownR (combined.laid laid) inside
  rw [same] at value
  rw [get_of_mem grown laid member, value]
  exact known

namespace Permission

variable {p q : Permission}

theorem isJoin_of_combined {fits : Fraction → Fraction → Prop} {r : Shares} (grown : S.Grown)
    (space : p.space = S) (laid : p.shares.Laid) (root : q.root = p.root)
    (combined : Shares.Combined p.shares q.shares (fun f g h => fits h f ∧ fits h g) r)
    (states : List String) :
    p.IsJoin S fits q (make r (p.readOnly || q.readOnly) p.frame states) := by
  subst space
  have each {n : String} (node : n ∈ p.space.ancestors p.root) := combined.get grown laid node
  refine ⟨⟨combined.root, fun writable => ?_, fun n node => (each node).1, combined.below.1⟩,
    ⟨combined.root.trans root.symm, fun writable => ?_, fun n node => ?_, combined.below.2⟩, rfl⟩
  · exact (Bool.or_eq_false_iff.mp writable).1
  · exact (Bool.or_eq_false_iff.mp writable).2
  · exact (each (root ▸ node)).2

theorem join_reveals {value : Term → V} (distinct : value (.single .zero) ≠ value (.single .one))
    (s : Solution) (grown : S.Grown) (space : p.space = S) (laid : p.shares.Laid)
    (root : q.root = p.root) :
    Reveals value (p.join q s true)
      (p.IsJoin S (fun f g => s.Sound (Reading.filled value) → Fits value f g) q) := by
  refine (p.shares.combine_reveals q.shares (joinFraction_reveals distinct)).bind
    fun r => .pure fun combined => ?_
  exact isJoin_of_combined grown space laid root combined _

/-- An assignment bears out what a solution says about the fractions of two permissions. -/
def Joins (s : Solution) (p q : Permission) (n : Nat) (value : Term → V) : Prop :=
  (∀ entry ∈ p.shares.values, Joinable s entry.2 (q.shares.get entry.1) n value) ∧
    Joinable s p.shares.below q.shares.below n value

theorem Joins.lasting (s : Solution) (p q : Permission) : Lasting (Joins s p q (V := V)) :=
  fun more agree joins =>
    ⟨fun entry member => Joinable.lasting _ _ _ more agree (joins.1 entry member),
      Joinable.lasting _ _ _ more agree joins.2⟩

theorem join_admits (s : Solution) (grown : S.Grown) (space : p.space = S) (laid : p.shares.Laid)
    (root : q.root = p.root) :
    Admits (Joins s p q (V := V)) (p.join q s true)
      fun j n value => p.IsJoin S (Fitting · · n value) q j := by
  have kept (f g h : Fraction) : Lasting fun n (value : Term → V) =>
      Fitting h f n value ∧ Fitting h g n value := fun more agree both =>
    ⟨Fitting.lasting _ _ more agree both.1, Fitting.lasting _ _ more agree both.2⟩
  refine (p.shares.combine_carries q.shares (Joinable.lasting s) kept joinFraction_admits).bind
    fun r => .pure fun n value combined => ?_
  exact isJoin_of_combined grown space laid root combined _

end Permission

/-- Every permission of a pool was joined from one of each side, and whatever has its root on both
sides was joined. -/
structure Pool.JoinedBy (joins : Permission → Permission → Permission → Prop) (a b pool : Pool) :
    Prop where
  sources : ∀ j ∈ pool, ∃ p ∈ a, ∃ q ∈ b, q.root = p.root ∧ joins p q j
  matched : ∀ p ∈ a, ∀ q, b.find? (fun q => q.root == p.root) = some q → ∃ j ∈ pool, joins p q j

theorem Pool.JoinedBy.imp {joins others : Permission → Permission → Permission → Prop}
    {a b pool : Pool} (joined : Pool.JoinedBy joins a b pool)
    (weaken : ∀ p q j, joins p q j → others p q j) : Pool.JoinedBy others a b pool := by
  constructor
  · intro j member
    obtain ⟨p, left, q, right, root, join⟩ := joined.sources j member
    exact ⟨p, left, q, right, root, weaken p q j join⟩
  · intro p member q found
    obtain ⟨j, inside, join⟩ := joined.matched p member q found
    exact ⟨j, inside, weaken p q j join⟩

theorem Pool.join_carries {σ : Type} {cargo : Cargo σ} {before : Nat → σ → Prop}
    {joins : Permission → Permission → Permission → Nat → σ → Prop} (lasting : cargo.Keeps before)
    (kept : ∀ p q j, cargo.Keeps (joins p q j)) {a b : Pool} {s : Solution} {symmetric : Bool}
    (each : ∀ p ∈ a, ∀ q ∈ b, q.root = p.root →
      Carries cargo before (p.join q s symmetric) (joins p q)) :
    Carries cargo before (a.join b s symmetric) fun pool n c =>
      Pool.JoinedBy (fun p q j => joins p q j n c) a b pool := by
  let sources (p : Permission) (list : List Permission) (n : Nat) (c : σ) : Prop :=
    (∀ j ∈ list, ∃ q ∈ b, q.root = p.root ∧ joins p q j n c) ∧
      ∀ q, b.find? (fun q => q.root == p.root) = some q → ∃ j ∈ list, joins p q j n c
  have stays (p : Permission) (list : List Permission) : cargo.Keeps (sources p list) := by
    intro n m c d more agree start
    constructor
    · intro j member
      obtain ⟨q, among, root, join⟩ := start.1 j member
      exact ⟨q, among, root, kept p q j more agree join⟩
    · intro q found
      obtain ⟨j, member, join⟩ := start.2 q found
      exact ⟨j, member, kept p q j more agree join⟩
  -- Every permission of the first pool gives a list of at most one; the goal is about these.
  refine (Carries.mapM lasting stays a fun p member => ?_).bind fun lists =>
    .pure fun n c paired => ?_
  · dsimp only [sources]
    cases found : b.find? fun q => q.root == p.root with
    | none => exact .pure fun _ _ _ => ⟨nofun, nofun⟩
    | some q =>
        have root : q.root = p.root := by simpa using List.find?_some found
        have inside : q ∈ b := List.mem_of_find?_eq_some found
        refine (each p member q inside root).bind fun j => .pure fun n c join => ?_
        constructor
        · intro j' only
          rw [List.mem_singleton.mp only]
          exact ⟨q, inside, root, join⟩
        · rintro q' ⟨⟩
          exact ⟨j, List.mem_singleton_self j, join⟩
  · constructor
    · intro j among
      obtain ⟨list, inside, here⟩ := List.mem_flatten.mp among
      obtain ⟨p, member, known⟩ := exists_left_of_forall₂ paired inside
      exact ⟨p, member, known.1 j here⟩
    · intro p member q found
      obtain ⟨list, inside, known⟩ := exists_right_of_forall₂ paired member
      obtain ⟨j, here, join⟩ := known.2 q found
      exact ⟨j, List.mem_flatten.mpr ⟨list, inside, here⟩, join⟩

namespace Pool

variable (grown : S.Grown) {a : Pool} (orderly : a.Orderly S frame) (b : Pool)

include grown orderly

theorem Orderly.join_reveals {value : Term → V}
    (distinct : value (.single .zero) ≠ value (.single .one)) (s : Solution) :
    Reveals value (a.join b s true)
      (IsJoin S (fun f g => s.Sound (Reading.filled value) → Fits value f g) a b) := by
  let fits (f g : Fraction) : Prop := s.Sound (Reading.filled value) → Fits value f g
  let sources (p : Permission) (list : List Permission) : Prop :=
    ∀ j ∈ list, ∃ q ∈ b, p.IsJoin S fits q j
  -- Every permission of the first pool gives a list of at most one; the goal is about these.
  refine (Reveals.mapM a fun p member => (?_ : Reveals value _ (sources p))).bind fun lists =>
    .pure fun paired j among => ?_
  · cases found : b.find? fun q => q.root == p.root with
    | none => exact .pure nofun
    | some q =>
        have root : q.root = p.root := by simpa using List.find?_some found
        refine (Permission.join_reveals distinct s grown (orderly.space p member)
          (orderly.laid p member) root).bind fun j => .pure fun join j' only => ?_
        rw [List.mem_singleton.mp only]
        exact ⟨q, List.mem_of_find?_eq_some found, join⟩
  · obtain ⟨list, inside, here⟩ := List.mem_flatten.mp among
    obtain ⟨p, member, known⟩ := exists_left_of_forall₂ paired inside
    exact ⟨p, member, known j here⟩

theorem Orderly.join_admits (s : Solution) :
    Admits (fun n (value : Term → V) => ∀ p ∈ a, ∀ q ∈ b, q.root = p.root →
        Permission.Joins s p q n value) (a.join b s true)
      fun pool n value => IsJoin S (Fitting · · n value) a b pool := by
  let ready (n : Nat) (value : Term → V) : Prop :=
    ∀ p ∈ a, ∀ q ∈ b, q.root = p.root → Permission.Joins s p q n value
  have lasting : Lasting ready := fun more agree all p left q right root =>
    Permission.Joins.lasting s p q more agree (all p left q right root)
  have kept (p q j : Permission) : Lasting fun n (value : Term → V) =>
      p.IsJoin S (Fitting · · n value) q j := by
    intro n m value other more agree join
    have weaken (f g : Fraction) := Fitting.lasting f g more agree
    exact ⟨join.left.imp weaken, join.right.imp weaken, join.readOnly⟩
  refine (join_carries lasting kept fun p member q inside root => ?_).mono (fun _ _ => id)
    fun pool n value joined j among => ?_
  · exact (Permission.join_admits s grown (orderly.space p member) (orderly.laid p member)
      root).mono (fun n value all => all p member q inside root) fun _ _ _ => id
  · obtain ⟨p, member, q, inside, -, join⟩ := joined.sources j among
    exact ⟨p, member, q, inside, join⟩

omit grown in
theorem Orderly.join (s : Solution) (symmetric : Bool) :
    Yields (a.join b s symmetric) (Orderly S frame) := by
  have laid : Yields (a.join b s symmetric) fun pool => ∀ j ∈ pool, j.shares.Laid := by
    let allLaid (_ : Permission) (list : List Permission) : Prop := ∀ j ∈ list, j.shares.Laid
    refine (Yields.mapM a fun p member => (?_ : Yields _ (allLaid p))).bind fun lists paired =>
      .pure fun j among => ?_
    · cases b.find? fun q => q.root == p.root with
      | none => exact .pure nofun
      | some q =>
          have shares := combine_laid (orderly.laid p member) q.shares
            (Permission.joinFraction s symmetric)
          have joined : Yields (p.join q s symmetric) fun j => j.shares.Laid :=
            shares.bind fun r known => .pure known
          exact joined.bind fun j known => .pure (by simpa [allLaid] using known)
    · obtain ⟨list, inside, here⟩ := List.mem_flatten.mp among
      obtain ⟨p, _, known⟩ := exists_left_of_forall₂ paired inside
      exact known j here
  exact fun l => ⟨orderly.toTidy.join b s symmetric l, laid l⟩

end Pool

end Typestate
