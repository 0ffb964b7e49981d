import Typestate.Holding.Join
import Typestate.Holding.Transfer
import Typestate.Proofs.Fraction.Monotonicity
import Typestate.Proofs.Permission.Comparing
import Typestate.Proofs.Permission.Precision

set_option autoImplicit false

/-!
Splitting requests off what is held, and joining what is held on two ways, seen through assignments
that meet the constraints.
-/

namespace Typestate

variable {V : Type} {S : Space}

/-- Both lists in order, and no constraint twice. -/
structure Held.Orderly (S : Space) (h : Held) : Prop where
  virtuals : Pool.Orderly S false h.virtuals
  frames : Pool.Orderly S true h.frames
  distinct : h.constraints.items.Nodup

structure Held.IsDrawn (n : Nat) (h : Held) : Prop where
  constraints : h.constraints.IsDrawn n
  virtuals : ∀ p ∈ h.virtuals, p.shares.IsDrawn n
  frames : ∀ p ∈ h.frames, p.shares.IsDrawn n

theorem Holding.IsBelow.isDrawn {n : Nat} {h : Held} (below : (Holding.held h).IsBelow n) :
    h.IsDrawn n := by
  have permission (p : Permission) (member : p ∈ (Holding.held h).permissions) :
      p.shares.IsDrawn n := fun f inside =>
    (below f (List.mem_append_left _ (List.mem_flatMap.mpr ⟨p, member, inside⟩))).isDrawn
  refine ⟨fun c member t among f inside => ?_, fun p member => permission p ?_,
    fun p member => permission p ?_⟩
  · refine (below f (List.mem_append_right _ (List.mem_flatMap.mpr ⟨c, member, ?_⟩))).isDrawn
    exact List.mem_flatMap.mpr ⟨t, among, inside⟩
  · simp [permissions, member]
  · simp [permissions, member]

section Splitting

variable (h : Held) (r : RequestSet)

/-- What splitting does once the constraints of the requests are in. -/
def Held.splitWork : LedgerM (Pool × Pool) := do
  let s := (h.constraints ++ r.constraints).solution
  let virtuals ← h.virtuals.split s r.virtuals
  let frames ← h.frames.split s r.frames
  return (virtuals, frames)

theorem Holding.split_run (supply : Supply) :
    ((Holding.held h).split r).run supply =
      let out := (h.splitWork r).run ⟨h.constraints ++ r.constraints, supply⟩
      (.held { h with virtuals := out.1.1, frames := out.1.2, constraints := out.2.constraints },
        out.2.supply) := rfl

theorem Holding.split_constraints (supply : Nat) :
    (((Holding.held h).split r).run ⟨supply⟩).1.constraints =
      ((h.splitWork r).run ⟨h.constraints ++ r.constraints, ⟨supply⟩⟩).2.constraints := rfl

variable {h r}

/-- An assignment that meets the constraints after a split met them before, and shows why each of
the requests was granted. -/
theorem Held.split_reveals (grown : S.Grown) {value : Term → V}
    (virtuals : Pool.Orderly S false h.virtuals) (frames : Pool.Orderly S true h.frames)
    {first last : Nat} (fresh : r.Fresh S first last) {supply : Nat}
    (met : (((Holding.held h).split r).run ⟨supply⟩).1.constraints.MetBy value) :
    (h.constraints ++ r.constraints).MetBy value ∧
      (∀ q ∈ r.virtuals,
        h.virtuals.Fulfils S (Fits value) (h.constraints ++ r.constraints).solution q) ∧
      ∀ q ∈ r.frames,
        h.frames.Fulfils S (Fits value) (h.constraints ++ r.constraints).solution q := by
  rw [Holding.split_constraints] at met
  have distinct := met.zero_ne_one
  have work : Reveals value (h.splitWork r) fun _ => _ :=
    (virtuals.split_reveals grown distinct _ r.virtuals fresh.virtuals).bind fun _ =>
      (frames.split_reveals grown distinct _ r.frames fresh.frames).bind fun _ =>
        .pure fun second first => And.intro first second
  exact work _ met

/-- An assignment under which the requests are granted can be carried through the split. -/
theorem Held.split_admits (grown : S.Grown) {value : Term → V}
    (virtuals : Pool.Orderly S false h.virtuals) (frames : Pool.Orderly S true h.frames)
    {first last m : Nat} (fresh : r.Fresh S first last)
    (met : (h.constraints ++ r.constraints).MetBy value)
    (drawn : (h.constraints ++ r.constraints).IsDrawn m)
    (grantsVirtuals : ∀ q ∈ r.virtuals,
      h.virtuals.Grants S (Fitting · · m value) (h.constraints ++ r.constraints).solution q)
    (grantsFrames : ∀ q ∈ r.frames,
      h.frames.Grants S (Fitting · · m value) (h.constraints ++ r.constraints).solution q) :
    (((Holding.held h).split r).run ⟨m⟩).1.isUnsatisfiable = false := by
  let s := (h.constraints ++ r.constraints).solution
  have later : Lasting fun n (value : Term → V) =>
      s.Silent n ∧ ∀ q ∈ r.frames, h.frames.Grants S (Fitting · · n value) s q :=
    fun more agree start => ⟨start.1.mono more,
      fun q member => Pool.Grants.lasting s h.frames q more agree (start.2 q member)⟩
  have work : Admits (fun n (value : Term → V) =>
      (s.Silent n ∧ ∀ q ∈ r.virtuals, h.virtuals.Grants S (Fitting · · n value) s q) ∧
        s.Silent n ∧ ∀ q ∈ r.frames, h.frames.Grants S (Fitting · · n value) s q)
      (h.splitWork r) fun _ _ _ => True := by
    refine ((virtuals.split_admits grown s r.virtuals fresh.virtuals).frame later).bind fun _ => ?_
    refine ((frames.split_admits grown s r.frames fresh.frames).mono
      (fun _ _ both => both.2) fun _ _ _ => id).bind fun _ => .pure fun _ _ _ => trivial
  have silent : s.Silent m := met.silent drawn
  obtain ⟨other, -, -, final, -⟩ := work ⟨_, ⟨m⟩⟩ value ⟨met, drawn⟩
    ⟨⟨silent, grantsVirtuals⟩, silent, grantsFrames⟩
  exact Constraints.isUnsatisfiable_eq_false_iff.mpr ⟨V, other, final.1⟩

end Splitting

/-- What is held after a join, seen with the constraints of requests: assignments that meet its
constraints meet those of both sides and bear out that its permissions are joined from theirs, and
there is one that finds no more to be one than both sides' constraints do. -/
structure Held.IsJoin (S : Space) (n : Nat) (requested : Constraints) (x y h : Held) : Prop where
  virtuals : Pool.Orderly S false h.virtuals
  frames : Pool.Orderly S true h.frames
  reveals : ∀ {V : Type} {value : Term → V}, h.constraints.MetBy value →
    (x.constraints ++ y.constraints).MetBy value ∧
      Pool.IsJoin S (Fits value) x.virtuals y.virtuals h.virtuals ∧
        Pool.IsJoin S (Fits value) x.frames y.frames h.frames
  admits : ∀ {V : Type} {value : Term → V}, (x.constraints ++ y.constraints).Generic value →
    ∃ (W : Type) (other : Term → W), (h.constraints ++ requested).MetBy other ∧
      Pool.IsJoin S (Fits other) x.virtuals y.virtuals h.virtuals ∧
      Pool.IsJoin S (Fits other) x.frames y.frames h.frames ∧
      ∀ f : Fraction, f.IsDrawn n → other f = other (.single .one) → value f = value (.single .one)

section Same

theorem Held.parts_of_beq {x y : Held} (same : (Holding.held x == .held y) = true) :
    (∀ inFrame, (x.pool inFrame == y.pool inFrame) = true) ∧ (x.unpacked == y.unpacked) = true ∧
      x.constraints.same y.constraints = true := by
  have parts : (x.virtuals == y.virtuals && (x.frames == y.frames &&
      (x.unpacked == y.unpacked && x.constraints.same y.constraints))) = true := same
  simp only [Bool.and_eq_true] at parts
  obtain ⟨virtuals, frames, unpacked, constraints⟩ := parts
  refine ⟨fun inFrame => ?_, unpacked, constraints⟩
  cases inFrame with
  | false => exact virtuals
  | true => exact frames

theorem Constraints.MetBy.congr {a b : Constraints} {value : Term → V} (met : a.MetBy value)
    (possible : a.impossible = b.impossible) (inside : ∀ c, c ∈ a.items ↔ c ∈ b.items) :
    b.MetBy value :=
  ⟨possible ▸ met.1, met.2.lawful, fun c member => met.2.covers c ((inside c).mpr member),
    fun c member => met.2.satisfies c ((inside c).mpr member)⟩

theorem Pool.isJoin_self {fits : Fraction → Fraction → Prop} (refl : ∀ f, fits f f) (pool : Pool) :
    Pool.IsJoin S fits pool pool pool := by
  intro p member
  have weaker : p.IsWeaker S fits p := ⟨rfl, id, fun n _ => refl _, refl _⟩
  exact ⟨p, member, p, member, weaker, weaker, (Bool.or_self _).symm⟩

end Same

theorem Holding.join_held {x y : Held} (satisfiableX : x.isUnsatisfiable = false)
    (satisfiableY : y.isUnsatisfiable = false) (point : MergePoint) :
    (Holding.held x).join (.held y) point =
      if (Holding.held x == .held y) = true then .ok (return .held x)
      else if x.sameUnpacked y (x.constraints ++ y.constraints).solution = true then
        .ok (.held <$> x.join y point (x.constraints ++ y.constraints).solution)
      else .error .joiningDifferentUnpacked := by
  unfold Holding.join
  simp only [satisfiableX, satisfiableY, Bool.or_false, Bool.false_eq_true, if_false]

theorem Holding.join_held_cases {x y : Held} {point : MergePoint} {work : SupplyM Holding}
    (done : (Holding.held x).join (.held y) point = .ok work) :
    (((Holding.held x == .held y) = true ∨ x.isUnsatisfiable = true) ∧ work = pure (.held x)) ∨
    (y.isUnsatisfiable = true ∧ work = pure (.held y)) ∨
    let s := (x.constraints ++ y.constraints).solution
    x.sameUnpacked y s = true ∧ work = Holding.held <$> x.join y point s := by
  unfold Holding.join at done
  dsimp only at done
  split at done
  · next chosen =>
    cases done
    exact .inl ⟨Bool.or_eq_true_iff.mp chosen, rfl⟩
  · split at done
    · next never =>
      cases done
      exact .inr (.inl ⟨never, rfl⟩)
    · split at done
      · next same =>
        cases done
        exact .inr (.inr ⟨same, rfl⟩)
      · cases done

section Running

variable (grown : S.Grown) {n first last : Nat} {r : RequestSet} (fresh : r.Fresh S first last)
  (later : n ≤ first) {x y : Held} (orderlyX : x.Orderly S) (orderlyY : y.Orderly S)
  (drawnX : x.IsDrawn n) (drawnY : y.IsDrawn n)

include fresh later orderlyX orderlyY drawnX in
theorem Held.isJoin_self (same : (Holding.held x == .held y) = true) :
    Held.IsJoin S n r.constraints x y x := by
  obtain ⟨pools, -, constraints⟩ := Held.parts_of_beq same
  have sameVirtuals := Pool.eq_of_beq orderlyX.virtuals.space orderlyY.virtuals.space (pools false)
  have sameFrames := Pool.eq_of_beq orderlyX.frames.space orderlyY.frames.space (pools true)
  obtain ⟨possible, inside⟩ := Constraints.mem_iff_of_same orderlyX.distinct constraints
  refine ⟨orderlyX.virtuals, orderlyX.frames, fun {V value} met => ?_, fun {V value} generic => ?_⟩
  · rw [← sameVirtuals, ← sameFrames]
    exact ⟨Constraints.metBy_append.mpr ⟨met, met.congr possible inside⟩,
      Pool.isJoin_self (Fits.refl value) _, Pool.isJoin_self (Fits.refl value) _⟩
  · obtain ⟨other, met, agree⟩ := fresh.exists_met (Constraints.metBy_append.mp generic.met).1
      (drawnX.constraints.mono later)
    rw [← sameVirtuals, ← sameFrames]
    refine ⟨_, other, met, Pool.isJoin_self (Fits.refl other) _,
      Pool.isJoin_self (Fits.refl other) _, fun f drawn one => ?_⟩
    rw [agree.fraction (drawn.mono later), agree.one] at one
    exact Option.some.inj one

/-- What joining does on top of both sides' constraints. -/
def Held.joinWork (x y : Held) : LedgerM (Pool × Pool) := do
  let s := (x.constraints ++ y.constraints).solution
  let virtuals ← x.virtuals.join y.virtuals s true
  let frames ← x.frames.join y.frames s true
  return (virtuals, frames)

theorem Held.joinOn_run (packedX : x.unpacked = none) (start : Nat) :
    (x.joinOn y (x.constraints ++ y.constraints).solution (x.constraints ++ y.constraints)
        true).run ⟨start⟩ =
      let out := (x.joinWork y).run ⟨x.constraints ++ y.constraints, ⟨start⟩⟩
      (⟨out.1.1, out.1.2, none, out.2.constraints⟩, out.2.supply) := by
  simp only [Held.joinOn, packedX]
  rfl

section Work

include orderlyX

theorem Held.joinWork_yields :
    Yields (x.joinWork y) fun out =>
      Pool.Orderly S false out.1 ∧ Pool.Orderly S true out.2 := by
  refine (orderlyX.virtuals.join y.virtuals _ true).bind fun virtuals first => ?_
  refine (orderlyX.frames.join y.frames _ true).bind fun frames second => ?_
  exact .pure ⟨first, second⟩

include grown

theorem Held.joinWork_reveals {value : Term → V} (l : Ledger)
    (base : l.constraints = x.constraints ++ y.constraints)
    (met : ((x.joinWork y).run l).2.constraints.MetBy value) :
    (x.constraints ++ y.constraints).MetBy value ∧
      Pool.IsJoin S (Fits value) x.virtuals y.virtuals ((x.joinWork y).run l).1.1 ∧
        Pool.IsJoin S (Fits value) x.frames y.frames ((x.joinWork y).run l).1.2 := by
  let s := (x.constraints ++ y.constraints).solution
  let fits (f g : Fraction) : Prop := s.Sound (Reading.filled value) → Fits value f g
  have distinct := met.zero_ne_one
  have work : Reveals value (x.joinWork y) fun out =>
      Pool.IsJoin S fits x.virtuals y.virtuals out.1 ∧
        Pool.IsJoin S fits x.frames y.frames out.2 :=
    (orderlyX.virtuals.join_reveals grown y.virtuals distinct s).bind fun _ =>
      (orderlyX.frames.join_reveals grown y.frames distinct s).bind fun _ =>
        .pure fun second first => ⟨first, second⟩
  obtain ⟨start, virtuals, frames⟩ := work l met
  rw [base] at start
  have known (f g : Fraction) (implied : fits f g) : Fits value f g := implied start.sound
  exact ⟨start, virtuals.imp known, frames.imp known⟩

/-- The assignment bears out what both sides' constraints say about permissions with one root. -/
def Held.Ready (x y : Held) (n : Nat) (value : Term → V) : Prop :=
  let s := (x.constraints ++ y.constraints).solution
  (∀ p ∈ x.virtuals, ∀ q ∈ y.virtuals, q.root = p.root → Permission.Joins s p q n value) ∧
    ∀ p ∈ x.frames, ∀ q ∈ y.frames, q.root = p.root → Permission.Joins s p q n value

theorem Held.joinWork_admits :
    Admits (Held.Ready x y (V := V)) (x.joinWork y) fun out n value =>
      Pool.IsJoin S (Fitting · · n value) x.virtuals y.virtuals out.1 ∧
        Pool.IsJoin S (Fitting · · n value) x.frames y.frames out.2 := by
  let s := (x.constraints ++ y.constraints).solution
  -- The frames are joined after the virtual ones, so what is known of them has to last.
  have later : Lasting fun n (value : Term → V) =>
      ∀ p ∈ x.frames, ∀ q ∈ y.frames, q.root = p.root → Permission.Joins s p q n value :=
    fun more agree all p left q right root =>
      Permission.Joins.lasting s p q more agree (all p left q right root)
  have kept (pool : Pool) : Lasting fun n (value : Term → V) =>
      Pool.IsJoin S (Fitting · · n value) x.virtuals y.virtuals pool :=
    fun more agree isJoin => isJoin.imp fun f g => Fitting.lasting f g more agree
  refine ((orderlyX.virtuals.join_admits grown y.virtuals s).frame later).bind fun virtuals => ?_
  refine (((orderlyX.frames.join_admits grown y.frames s).frame (kept virtuals)).mono
    (fun _ _ both => ⟨both.2, both.1⟩) fun _ _ _ => id).bind fun frames => ?_
  exact .pure fun _ _ both => ⟨both.2, both.1⟩

end Work

include drawnX drawnY in
theorem Held.ready_of_generic {value : Term → V}
    (generic : (x.constraints ++ y.constraints).Generic value) : Held.Ready x y n value := by
  have joinable {f g : Fraction} (left : f.IsDrawn n) (right : g.IsDrawn n) :
      Permission.Joinable (x.constraints ++ y.constraints).solution f g n value := by
    refine ⟨left, right, generic.met.zero_ne_one,
      fun same => generic.met.sound.areEqual trivial trivial same, fun live zero => ?_,
      fun live zero => ?_⟩
    · exact Bool.false_ne_true (live.symm.trans (generic.zero _ zero))
    · exact Bool.false_ne_true (live.symm.trans (generic.zero _ zero))
  have joins {p q : Permission} (left : p.shares.IsDrawn n) (right : q.shares.IsDrawn n) :
      Permission.Joins (x.constraints ++ y.constraints).solution p q n value := by
    exact ⟨fun entry member => joinable (left _ (Shares.mem_fractions_of_mem member)) (right.get _),
      joinable left.below right.below⟩
  exact ⟨fun p left q right _ => joins (drawnX.virtuals p left) (drawnY.virtuals q right),
    fun p left q right _ => joins (drawnX.frames p left) (drawnY.frames q right)⟩

theorem Held.Ready.lasting (x y : Held) : Lasting (Held.Ready x y (V := V)) :=
  fun more agree ready =>
    ⟨fun p left q right root => Permission.Joins.lasting _ p q more agree
        (ready.1 p left q right root),
      fun p left q right root => Permission.Joins.lasting _ p q more agree
        (ready.2 p left q right root)⟩

include grown fresh later orderlyX drawnX drawnY in
/-- Joining on top of both sides' constraints, before or after the fractions of the requests are
drawn. -/
theorem Held.isJoin_joinWork {start : Nat} (past : n ≤ start) {out : (Pool × Pool) × Ledger}
    (run : (x.joinWork y).run ⟨x.constraints ++ y.constraints, ⟨start⟩⟩ = out)
    (apart : out.2.supply.next ≤ first ∨ last ≤ start) :
    Held.IsJoin S n r.constraints x y ⟨out.1.1, out.1.2, none, out.2.constraints⟩ := by
  let l : Ledger := ⟨x.constraints ++ y.constraints, ⟨start⟩⟩
  have drawn : (x.constraints ++ y.constraints).IsDrawn n := by
    intro c member
    rcases Constraints.mem_append.mp member with left | right
    · exact drawnX.constraints c left
    · exact drawnY.constraints c right
  obtain ⟨virtuals, frames⟩ := Held.joinWork_yields orderlyX l
  have work {W : Type} := Held.joinWork_admits (V := W) (y := y) grown orderlyX
  subst run
  refine ⟨virtuals, frames, fun met => Held.joinWork_reveals grown orderlyX l rfl met,
    fun {V value} generic => ?_⟩
  rcases apart with before | after
  · -- The requests come after the join, so an assignment is extended to them in the end.
    obtain ⟨joined, agree, -, met, firsts, seconds⟩ := work l value ⟨generic.met, drawn.mono past⟩
      (Held.Ready.lasting x y past (.refl n value) (Held.ready_of_generic drawnX drawnY generic))
    obtain ⟨other, final, same⟩ := fresh.exists_met met.1 (met.2.mono before)
    have fits (f g : Fraction)
        (fitting : Fitting f g ((x.joinWork y).run l).2.supply.next joined) : Fits other f g :=
      (fitting.2.2.map fun _ _ => Option.some.inj).agree same (fitting.1.mono before)
        (fitting.2.1.mono before)
    refine ⟨_, other, final, firsts.imp fits, seconds.imp fits, fun f known one => ?_⟩
    rw [same.fraction (known.mono later), same.one] at one
    rw [← agree.fraction (known.mono past), ← agree.one]
    exact Option.some.inj one
  · -- The requests come before the join, which keeps what an assignment makes of them.
    obtain ⟨asked, met, same⟩ := fresh.exists_met generic.met (drawn.mono later)
    obtain ⟨base, requested⟩ := Constraints.metBy_append.mp met
    have some : (x.constraints ++ y.constraints).Generic fun t => some (value t) :=
      generic.map fun _ _ => Option.some.inj
    have near : Agree n (fun t => Option.some (value t)) asked :=
      fun t inside => same t fun f member => (inside f member).mono later
    obtain ⟨other, agree, -, final, firsts, seconds⟩ := work l asked ⟨base, drawn.mono past⟩
      (Held.Ready.lasting x y past near (Held.ready_of_generic drawnX drawnY some))
    have kept : r.constraints.MetBy other := requested.agree (fresh.isDrawn.mono after) agree
    have fits (f g : Fraction)
        (fitting : Fitting f g ((x.joinWork y).run l).2.supply.next other) : Fits other f g :=
      fitting.2.2
    refine ⟨_, other, Constraints.metBy_append.mpr ⟨final.1, kept⟩, firsts.imp fits,
      seconds.imp fits, fun f known one => ?_⟩
    rw [agree.fraction (known.mono past), agree.one, near.fraction known, near.one] at one
    exact Option.some.inj one

end Running

end Typestate
