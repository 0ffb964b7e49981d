import Typestate.Proofs.Permission.Locality

set_option autoImplicit false

/-!
When a pool grants requests: what it holds above the root of a request is enough, or what it holds
below it is. Requests with orthogonal roots are granted together if each of them is alone.
-/

namespace Typestate

open Permission

variable {V : Type} {S : Space}

section Nodes

variable (grown : S.Grown) {p : Permission} (space : p.space = S) (laid : p.shares.Laid)

include grown space laid

theorem Permission.get_of_below {n : String} (atop : S.Above p.root n) (apart : n ≠ p.root) :
    p.shares.get n = p.shares.below := by
  subst space
  exact Shares.get_of_below grown laid atop apart

omit grown in
theorem Permission.get_of_beside {n : String} (higher : ¬S.Above n p.root)
    (lower : ¬S.Above p.root n) : p.shares.get n = .zero := by
  subst space
  refine (Shares.get_of_not_above laid higher).trans (if_neg fun covers => lower ?_)
  exact (p.space.covers_iff p.root n).mp covers

theorem Permission.get_root : p.shares.get p.root = p.shares.rootValue := by
  subst space
  have self : p.shares.reroot p.root = p.shares := Shares.reroot_self grown laid
  rw [← Shares.rootValue_reroot grown p.root, self]

theorem Permission.of_mem_values {entry : String × Fraction} (member : entry ∈ p.shares.values) :
    S.Above entry.1 p.root ∧ p.shares.get entry.1 = entry.2 := by
  subst space
  have nodes : p.shares.values.map Prod.fst = p.space.ancestors p.root := laid
  refine ⟨?_, Shares.get_of_mem grown laid member⟩
  rw [Space.Above, ← nodes]
  exact List.mem_map_of_mem member

theorem Permission.mem_values {n : String} (atop : S.Above n p.root) :
    (n, p.shares.get n) ∈ p.shares.values := by
  subst space
  have nodes : p.shares.values.map Prod.fst = p.space.ancestors p.root := laid
  rw [Space.Above, ← nodes] at atop
  obtain ⟨entry, member, rfl⟩ := List.mem_map.mp atop
  rwa [Shares.get_of_mem grown laid member]

end Nodes

theorem Permission.kind_congr {p q : Permission} (readOnly : p.readOnly = q.readOnly)
    (shares : p.shares = q.shares) (s : Solution) : p.kind s = q.kind s := by
  simp only [kind, readOnly, shares]

theorem Kind.split_pure (k : Kind) : k.split .pure ≠ .impossible := by
  cases k <;> decide

theorem Kind.split_share_iff (k : Kind) : k.split .share ≠ .impossible ↔ k.isReadOnly = false := by
  cases k <;> decide

theorem Permission.isReadOnly_kind (p : Permission) (s : Solution) :
    (p.kind s).isReadOnly = p.readOnly := by
  unfold kind
  cases p.readOnly with
  | true => cases s.isZero p.shares.below <;> rfl
  | false => cases s.isOne p.shares.below <;> cases s.isOne p.shares.rootValue <;> rfl

/-- Of what is drawn to put parts together a solution cannot tell that it is zero or one. -/
theorem Permission.IsCombined.kind (grown : S.Grown) {s : Solution} {root : String}
    {parts : List Permission} {w : Permission} (combined : IsCombined s S root parts w) :
    w.kind s = combinedKind s root parts := by
  have rootValue :
      s.isOne w.shares.rootValue = tells (s.isOne ·) (parts.map (·.shares.get root)) := by
    have entry := w.mem_values grown combined.space combined.laid (grown.above_refl w.root)
    rw [← w.get_root grown combined.space combined.laid, combined.root] at *
    exact (combined.values _ entry).one
  simp only [Permission.kind, combinedKind, combined.readOnly, combined.below.zero,
    combined.below.one, rootValue]

namespace Pool

def HoldsDimensions (S : Space) (pool : Pool) (state : String) : Prop :=
  S.dimensions state ≠ [] ∧ ∀ d ∈ S.dimensions state, ∃ p ∈ pool, p.root = d

def parts (S : Space) (state : String) (pool : Pool) : Pool :=
  pool.filter fun p => (S.dimensions state).contains p.root

/-- What is left when the parts are put together. -/
def remaining (S : Space) (state : String) (pool : Pool) : Pool :=
  pool.filter fun p => !(S.dimensions state).contains p.root

theorem mem_parts_iff {pool : Pool} {state : String} {p : Permission} :
    p ∈ pool.parts S state ↔ p ∈ pool ∧ p.root ∈ S.dimensions state := by
  simp [parts]

/-- A request fits into permissions for all the dimensions of its root. -/
structure Combines (S : Space) (fits : Fraction → Fraction → Prop) (pool : Pool) (q : Request) :
    Prop where
  holds : pool.HoldsDimensions S q.root
  writable : q.kind = .share → ∀ p ∈ pool.parts S q.root, p.readOnly = false
  above : ∀ n ∈ S.ancestors q.root, ∀ p ∈ pool.parts S q.root,
    fits (q.permission.shares.get n) (p.shares.get n)
  below : ∀ p ∈ pool.parts S q.root, fits q.permission.shares.below p.shares.below

/-- A request is granted by a permission that covers its root, to look on also by the first one for
something below, and otherwise also by permissions for all the dimensions. -/
inductive Grants (S : Space) (fits : Fraction → Fraction → Prop) (s : Solution) (pool : Pool)
    (q : Request) : Prop
  | held (p : Permission) (member : p ∈ pool) (atop : S.Above p.root q.root)
      (allowed : ((p.reroot q.root).kind s).split q.kind ≠ .impossible)
      (inside : q.FitsIn fits (p.shares.reroot q.root))
  | lower (looks : q.kind = .pure) (p : Permission)
      (first : (pool.under S q.root).head? = some p) (inside : q.FitsIn fits p.shares)
  | combined (other : q.kind ≠ .pure) (combines : pool.Combines S fits q)
      (allowed : (combinedKind s q.root (pool.parts S q.root)).split q.kind ≠ .impossible)

/-- What can be said of a request once it was split off, whatever the kind of a permission that was
put together for it. -/
def Fulfils (S : Space) (fits : Fraction → Fraction → Prop) (s : Solution) (pool : Pool)
    (q : Request) : Prop :=
  pool.Grants S fits s q ∨ q.kind ≠ .pure ∧ pool.Combines S fits q

variable {frame : Bool}

theorem Combines.imp {fits other : Fraction → Fraction → Prop} {pool : Pool} {q : Request}
    (weaken : ∀ f g, fits f g → other f g) (combines : pool.Combines S fits q) :
    pool.Combines S other q :=
  ⟨combines.holds, combines.writable,
    fun n node p part => weaken _ _ (combines.above n node p part),
    fun p part => weaken _ _ (combines.below p part)⟩

theorem Grants.imp {fits other : Fraction → Fraction → Prop} {s : Solution} {pool : Pool}
    {q : Request} (weaken : ∀ f g, fits f g → other f g) (grants : pool.Grants S fits s q) :
    pool.Grants S other s q := by
  cases grants with
  | held p member atop allowed inside => exact .held p member atop allowed (inside.imp weaken)
  | lower looks p first inside => exact .lower looks p first (inside.imp weaken)
  | combined other combines allowed => exact .combined other (combines.imp weaken) allowed

theorem Grants.lasting (s : Solution) (pool : Pool) (q : Request) :
    Lasting fun n (value : Term → V) => pool.Grants S (Fitting · · n value) s q :=
  fun more agree grants => grants.imp fun f g => Fitting.lasting f g more agree

theorem extract?_fst (test : Permission → Bool) (pool : Pool) :
    (pool.extract? test).map Prod.fst = (pool.filter test).head? := by
  induction pool with
  | nil => rfl
  | cons p rest ih =>
      unfold extract?
      split
      · next passes => simp [passes]
      · next fails => simp [fails, ← ih, Function.comp_def]

section Taking

variable (grown : S.Grown) {pool : Pool} (orderly : pool.Orderly S frame)

include grown orderly

theorem Orderly.eq_of_above {p q : Permission} {n : String} (left : p ∈ pool) (right : q ∈ pool)
    (overP : S.Above p.root n) (overQ : S.Above q.root n) : p = q := by
  by_contra different
  have parted := orderly.parted_of_mem left right different
  rcases grown.above_total overP overQ with higher | higher
  · exact grown.not_above_of_parted parted higher
  · exact grown.not_above_of_parted parted.symm higher

theorem Orderly.not_above_of_under {p q : Permission} {n : String} (under : q ∈ pool.under S n)
    (member : p ∈ pool) : ¬S.Above p.root n := by
  intro atop
  obtain ⟨right, lower, strict⟩ := mem_under_iff.mp under
  have same : p = q := orderly.eq_of_above grown member right (grown.above_trans atop lower)
    (grown.above_refl q.root)
  rw [same] at atop
  exact strict (grown.above_antisymm atop lower)

omit orderly in
theorem HoldsDimensions.exists_under {state : String} (holds : pool.HoldsDimensions S state) :
    ∃ p, p ∈ pool.under S state := by
  obtain ⟨d, dimension⟩ := List.exists_mem_of_ne_nil _ holds.1
  obtain ⟨p, member, rfl⟩ := holds.2 d dimension
  exact ⟨p, mem_under_iff.mpr ⟨member, grown.lower_of_mem_dimensions dimension⟩⟩

theorem Orderly.take?_cases (q : Request) :
    (∃ whole ∈ pool, S.Above whole.root q.root ∧ ∃ p others,
        pool.take? q.root q.toleratesSmallerRoot = some (p, others) ∧
          p.readOnly = whole.readOnly ∧ p.shares = whole.shares.reroot q.root) ∨
      (∀ p ∈ pool, ¬S.Above p.root q.root) ∧
        ((q.kind = .pure ∧ ∃ p others,
            pool.take? q.root q.toleratesSmallerRoot = some (p, others) ∧
              (pool.under S q.root).head? = some p) ∨
          pool.take? q.root q.toleratesSmallerRoot = none ∧
            (q.kind = .pure → pool.under S q.root = [])) := by
  unfold Pool.take?
  split
  · next taken found =>
      obtain ⟨p, others⟩ := taken
      obtain ⟨perm, root⟩ := extract?_perm found
      have member : p ∈ pool := perm.mem_iff.mpr List.mem_cons_self
      rw [beq_iff_eq] at root
      refine .inl ⟨p, member, root ▸ grown.above_refl p.root, p, others, rfl, rfl, ?_⟩
      rw [← root]
      exact (orderly.isPartOf_self grown member).shares
  · next missing =>
      split
      · next whole rest found =>
          obtain ⟨perm, covers⟩ := extract?_perm found
          have member : whole ∈ pool := perm.mem_iff.mpr List.mem_cons_self
          have atop := (Permission.covers_iff (orderly.space whole member)).mp covers
          exact .inl ⟨whole, member, atop, _, _, rfl, rfl, rfl⟩
      · next uncovered =>
          have none : ∀ p ∈ pool, ¬S.Above p.root q.root := by
            intro p member
            rw [← Permission.covers_iff (orderly.space p member), Bool.not_eq_true]
            exact extract?_eq_none uncovered p member
          -- Nothing is held at the root itself, so what the root covers lies strictly below it.
          have lower :
              pool.filter (fun p => p.space.covers q.root p.root) = pool.under S q.root := by
            refine List.filter_congr fun p member => ?_
            have different : p.root ≠ q.root :=
              fun same => none p member (same ▸ grown.above_refl p.root)
            simp [orderly.space p member, different]
          have first := extract?_fst (fun p => p.space.covers q.root p.root) pool
          rw [lower] at first
          refine .inr ⟨none, ?_⟩
          by_cases looks : q.kind = .pure
          · rw [if_pos (by simpa [Request.toleratesSmallerRoot] using looks)]
            cases found : pool.extract? fun p => p.space.covers q.root p.root with
            | none =>
                rw [found] at first
                exact .inr ⟨rfl, fun _ => List.head?_eq_none_iff.mp first.symm⟩
            | some taken =>
                rw [found] at first
                exact .inl ⟨looks, taken.1, taken.2, rfl, first.symm⟩
          · -- Only to look on is less tolerated, so nothing is said of what lies below.
            rw [if_neg (by simpa [Request.toleratesSmallerRoot] using looks)]
            exact .inr ⟨rfl, fun pure => absurd pure looks⟩

end Taking

section Steps

variable (grown : S.Grown) {pool : Pool} (orderly : pool.Orderly S frame)

/-- The last step of a split, from the permission that was found. -/
def splitFound (s : Solution) (q : Request) (p : Permission) (others : Pool) : LedgerM Pool := do
  match ← p.split q s with
  | some remainder => return others ++ [remainder]
  | none => return others

theorem splitFound_reveals {value : Term → V}
    (distinct : value (.single .zero) ≠ value (.single .one)) (s : Solution) (q : Request)
    (p : Permission) (others : Pool) :
    Reveals value (splitFound s q p others) fun _ =>
      (p.kind s).split q.kind ≠ .impossible ∧ q.FitsIn (Fits value) p.shares := by
  refine (p.split_reveals distinct q s).bind fun remainder => ?_
  cases remainder with
  | none => exact .pure id
  | some r => exact .pure id

theorem splitFound_admits (s : Solution) (q : Request) (p : Permission) (others : Pool)
    (allowed : (p.kind s).split q.kind ≠ .impossible) :
    Admits (fun n (value : Term → V) => q.FitsIn (Fitting · · n value) p.shares)
      (splitFound s q p others) fun _ _ _ => True := by
  refine (p.split_admits q s allowed).bind fun remainder => ?_
  cases remainder with
  | none => exact .pure fun _ _ => id
  | some r => exact .pure fun _ _ => id

theorem splitOne_of_take? {s : Solution} {q : Request} {p : Permission} {others : Pool}
    (taken : pool.take? q.root q.toleratesSmallerRoot = some (p, others)) :
    pool.splitOne s q = splitFound s q p others := by
  rw [splitOne_eq, claim, taken]
  rfl

/-- Refuses a request. -/
def turnDown (q : Request) (others : Pool) : LedgerM Pool := do
  Ledger.demand (·.declareImpossible ("No permission available to split off " ++ q.text))
  return others

/-- Without a permission to take, the parts are put together or the request is refused. -/
def splitCombined (s : Solution) (q : Request) (pool : Pool) : LedgerM Pool := do
  let (taken, others) ← pool.takeCombined q.root
  match taken with
  | none => turnDown q others
  | some p => splitFound s q p others

theorem splitOne_of_take?_none {s : Solution} {q : Request}
    (missing : pool.take? q.root q.toleratesSmallerRoot = none) :
    pool.splitOne s q = splitCombined s q pool := by
  rw [splitOne_eq, claim, missing]
  rfl

theorem turnDown_reveals {value : Term → V} (q : Request) (others : Pool) (shown : Pool → Prop) :
    Reveals value (turnDown q others) shown := by
  have never : Reveals value
      (Ledger.demand (·.declareImpossible ("No permission available to split off " ++ q.text)))
      fun _ => False :=
    .demand fun cs met => absurd met (Constraints.not_metBy_declareImpossible _)
  exact never.bind fun _ => .pure False.elim

section Combined

variable (s : Solution) (q : Request)

include orderly

theorem Orderly.splitCombined_of_holds (holds : pool.HoldsDimensions S q.root) :
    splitCombined s q pool = (do
      match ← combineUp q.root (pool.parts S q.root) with
      | none => turnDown q (pool.remaining S q.root)
      | some w => splitFound s q w (pool.remaining S q.root)) := by
  obtain ⟨d, dimension⟩ := List.exists_mem_of_ne_nil _ holds.1
  obtain ⟨p, member, -⟩ := holds.2 d dimension
  obtain ⟨front, head⟩ : ∃ front, pool.head? = some front :=
    Option.ne_none_iff_exists'.mp fun none => by
      rw [List.head?_eq_none_iff.mp none] at member
      cases member
  have guard : ¬((S.dimensions q.root).isEmpty ||
      !(S.dimensions q.root).all fun d => pool.any fun p => p.root == d) = true := by
    simpa [HoldsDimensions, List.isEmpty_iff] using holds
  unfold splitCombined
  rw [takeCombined_eq, head]
  dsimp only
  rw [orderly.space front (List.mem_of_head? head), if_neg guard, bind_assoc]
  refine bind_congr fun whole => ?_
  rw [pure_bind]
  rfl

theorem Orderly.splitCombined_of_not_holds (lacks : ¬pool.HoldsDimensions S q.root) :
    splitCombined s q pool = turnDown q pool := by
  unfold splitCombined
  rw [takeCombined_eq]
  cases head : pool.head? with
  | none => rfl
  | some first =>
      have guard : ((S.dimensions q.root).isEmpty ||
          !(S.dimensions q.root).all fun d => pool.any fun p => p.root == d) = true := by
        by_contra holds
        exact lacks (by simpa [HoldsDimensions, List.isEmpty_iff] using holds)
      dsimp only
      rw [orderly.space first (List.mem_of_head? head), if_pos guard]
      rfl

end Combined

theorem combines_of_isWhole {value : Term → V} {s : Solution} {q : Request} {w : Permission}
    (holds : pool.HoldsDimensions S q.root)
    (shape : w.shares.values.map Prod.fst = S.ancestors q.root)
    (made : IsWhole value q.root (pool.parts S q.root) w)
    (known : (w.kind s).split q.kind ≠ .impossible ∧ q.FitsIn (Fits value) w.shares) :
    pool.Combines S (Fits value) q := by
  refine ⟨holds, fun writes p part => ?_, fun n node p part => ?_,
    fun p part => known.2.2.trans (made.below p part)⟩
  · have writable : w.readOnly = false := by
      rw [← isReadOnly_kind w s, ← Kind.split_share_iff, ← writes]
      exact known.1
    rw [made.readOnly, List.any_eq_false] at writable
    simpa using writable p part
  · obtain ⟨entry, inside, rfl⟩ := List.mem_map.mp (shape ▸ node)
    exact (known.2.1 entry inside).trans (made.values entry inside p part)

include orderly in
theorem Orderly.splitCombined_reveals {value : Term → V}
    (distinct : value (.single .zero) ≠ value (.single .one)) (s : Solution) (q : Request) :
    Reveals value (splitCombined s q pool) fun _ => pool.Combines S (Fits value) q := by
  by_cases holds : pool.HoldsDimensions S q.root
  · rw [orderly.splitCombined_of_holds s q holds]
    refine (combineUp_reveals q.root (pool.parts S q.root)).bindYields
      (combineUp_yields q.root (pool.parts S q.root)) fun whole possible => ?_
    cases whole with
    | none => exact turnDown_reveals q _ _
    | some w =>
        refine (splitFound_reveals distinct s q w _).mono fun _ known made => ?_
        obtain ⟨p, part, spaceW, -, -⟩ := possible w rfl
        have shape : w.shares.values.map Prod.fst = S.ancestors q.root := by
          rw [(made w rfl).laid, ← (made w rfl).root,
            ← orderly.space p (mem_parts_iff.mp part).1]
          exact congrArg (·.ancestors w.root) spaceW
        exact combines_of_isWhole holds shape (made w rfl) known
  · rw [orderly.splitCombined_of_not_holds s q holds]
    exact turnDown_reveals q pool _

include grown orderly in
theorem Orderly.length_dimensions {state : String} (holds : pool.HoldsDimensions S state) :
    (S.dimensions state).length = (pool.parts S state).length := by
  have distinct : ((pool.parts S state).map Permission.root).Nodup := by
    refine List.pairwise_map.mpr ((orderly.apart.sublist List.filter_sublist).imp ?_)
    intro p q parted same
    rw [same] at parted
    exact grown.not_parted_self _ parted
  have perm : (S.dimensions state).Perm ((pool.parts S state).map Permission.root) := by
    refine (List.perm_ext_iff_of_nodup (grown.dimensions_nodup state) distinct).mpr fun d => ?_
    constructor
    · intro dimension
      obtain ⟨p, member, rfl⟩ := holds.2 d dimension
      exact List.mem_map_of_mem (mem_parts_iff.mpr ⟨member, dimension⟩)
    · intro root
      obtain ⟨p, part, rfl⟩ := List.mem_map.mp root
      exact (mem_parts_iff.mp part).2
  rw [perm.length_eq, List.length_map]

include grown orderly in
theorem Orderly.exists_parts_eq {state : String} (holds : pool.HoldsDimensions S state) :
    ∃ first rest, pool.parts S state = first :: rest ∧ first.space = S ∧
      (S.dimensions state).length = (first :: rest).length ∧
      ∀ d ∈ S.dimensions state, ∃ p ∈ first :: rest, p.root = d := by
  have count := orderly.length_dimensions grown holds
  cases shape : pool.parts S state with
  | nil =>
      rw [shape] at count
      exact absurd (List.eq_nil_of_length_eq_zero count) holds.1
  | cons first rest =>
      have part : first ∈ pool.parts S state := shape ▸ List.mem_cons_self
      refine ⟨first, rest, rfl, orderly.space first (mem_parts_iff.mp part).1, shape ▸ count,
        fun d dimension => ?_⟩
      obtain ⟨p, member, rfl⟩ := holds.2 d dimension
      exact ⟨p, shape ▸ mem_parts_iff.mpr ⟨member, dimension⟩, rfl⟩

include grown orderly in
theorem Orderly.cons_combined {state : String} (holds : pool.HoldsDimensions S state)
    {w p : Permission} (member : p ∈ pool) (space : w.space = p.space) (root : w.root = state)
    (framed : w.frame = p.frame) (laid : w.shares.Laid) :
    Orderly S frame (w :: pool.remaining S state) := by
  have rest := orderly.toTidy.sublist
    (List.filter_sublist (p := fun p => !(S.dimensions state).contains p.root))
  refine ⟨tidy_cons.mpr ⟨space.trans (orderly.space p member),
    framed.trans (orderly.frame p member), fun o inside => ?_, rest⟩, fun o inside => ?_⟩
  · obtain ⟨among, outside⟩ := List.mem_filter.mp inside
    rw [root]
    exact orderly.toTidy.parted_of_dimensions grown holds.1 holds.2 among (by simpa using outside)
  · rcases List.mem_cons.mp inside with rfl | other
    · exact laid
    · exact orderly.laid o (List.mem_filter.mp other).1

include grown orderly in
theorem Orderly.splitCombined_admits (s : Solution) (q : Request)
    (holds : pool.HoldsDimensions S q.root)
    (allowed : (combinedKind s q.root (pool.parts S q.root)).split q.kind ≠ .impossible) :
    Admits (fun n (value : Term → V) => s.Silent n ∧ pool.Combines S (Fitting · · n value) q)
      (splitCombined s q pool) fun _ _ _ => True := by
  obtain ⟨first, rest, shape, rfl, count, all⟩ := orderly.exists_parts_eq grown holds
  have whole := combineUp_admits (V := V) s q.root q holds.1 count all
  rw [orderly.splitCombined_of_holds s q holds]
  rw [shape] at allowed ⊢
  refine (whole.mono ?_ fun _ _ _ => id).bind fun taken => ?_
  · rintro n value ⟨silent, combines⟩
    have above := combines.above
    have below := combines.below
    rw [shape] at above below
    exact ⟨fun m node => ⟨silent, above m node⟩, silent, below⟩
  · rintro l value met ⟨w, rfl, combined, inside⟩
    rw [← combined.kind grown] at allowed
    exact splitFound_admits s q w _ allowed l value met inside

include grown orderly in
theorem Orderly.splitOne_reveals {value : Term → V}
    (distinct : value (.single .zero) ≠ value (.single .one)) (s : Solution) (q : Request) :
    Reveals value (pool.splitOne s q) fun _ => pool.Fulfils S (Fits value) s q := by
  rcases orderly.take?_cases grown q with
    ⟨whole, member, atop, p, others, taken, readOnly, shares⟩ |
    ⟨-, ⟨looks, p, others, taken, first⟩ | ⟨missing, nothing⟩⟩
  · rw [splitOne_of_take? taken]
    refine (splitFound_reveals distinct s q p others).mono fun _ known => .inl ?_
    refine .held whole member atop ?_ (shares ▸ known.2)
    rw [← kind_congr (p := p) (q := whole.reroot q.root) readOnly shares s]
    exact known.1
  · rw [splitOne_of_take? taken]
    exact (splitFound_reveals distinct s q p others).mono fun _ known =>
      .inl (.lower looks p first known.2)
  · rw [splitOne_of_take?_none missing]
    refine (orderly.splitCombined_reveals distinct s q).mono fun _ combines => .inr ⟨?_, combines⟩
    -- One who only looks on would have been given one of the parts.
    intro looks
    obtain ⟨p, under⟩ := combines.holds.exists_under grown
    rw [nothing looks] at under
    cases under

include grown orderly in
theorem Orderly.splitOne_admits (s : Solution) (q : Request) :
    Admits (fun n (value : Term → V) => s.Silent n ∧ pool.Grants S (Fitting · · n value) s q)
      (pool.splitOne s q) fun _ _ _ => True := by
  rintro l value met ⟨silent, grants⟩
  cases grants with
  | held p member atop allowed inside =>
      -- Only one permission of the pool is above the root, so it is the one that is taken.
      rcases orderly.take?_cases grown q with
        ⟨whole, among, above, part, others, taken, readOnly, shares⟩ | ⟨uncovered, -⟩
      · have same := orderly.eq_of_above grown among member above atop
        rw [same] at readOnly shares
        rw [← kind_congr (p := part) (q := p.reroot q.root) readOnly shares s] at allowed
        rw [← shares] at inside
        rw [splitOne_of_take? taken]
        exact splitFound_admits s q part others allowed l value met inside
      · exact absurd atop (uncovered p member)
  | lower looks p first inside =>
      rcases orderly.take?_cases grown q with ⟨whole, among, above, -⟩ |
        ⟨-, ⟨-, part, others, taken, found⟩ | ⟨-, nothing⟩⟩
      · exact absurd above (orderly.not_above_of_under grown (List.mem_of_head? first) among)
      · have same : part = p := Option.some.inj (found.symm.trans first)
        rw [splitOne_of_take? taken, same]
        have allowed : (p.kind s).split q.kind ≠ .impossible := looks ▸ Kind.split_pure _
        exact splitFound_admits s q p others allowed l value met inside
      · simp [nothing looks] at first
  | combined other combines allowed =>
      rcases orderly.take?_cases grown q with ⟨whole, among, atop, -⟩ |
        ⟨-, ⟨looks, -⟩ | ⟨missing, -⟩⟩
      · obtain ⟨p, under⟩ := combines.holds.exists_under grown
        exact absurd atop (orderly.not_above_of_under grown under among)
      · exact absurd looks other
      · rw [splitOne_of_take?_none missing]
        exact orderly.splitCombined_admits grown s q combines.holds allowed l value met
          ⟨silent, combines⟩

end Steps

section Runs

variable (grown : S.Grown) {pool next : Pool} (orderly : pool.Orderly S frame)

include grown orderly

theorem Orderly.isPartOf_reroot {p part : Permission} (member : p ∈ pool)
    (isPart : part.IsPartOf S p) {n : String} (atop : S.Above part.root n) (s : Solution) :
    part.shares.reroot n = p.shares.reroot n ∧
      (part.reroot n).kind s = (p.reroot n).kind s := by
  have shares : part.shares.reroot n = p.shares.reroot n := by
    have space := orderly.space p member
    subst space
    rw [isPart.shares]
    exact Shares.reroot_reroot grown (orderly.laid p member) isPart.atop atop
  exact ⟨shares, kind_congr (p := part.reroot n) (q := p.reroot n) isPart.readOnly shares s⟩

omit orderly in
theorem parts_eq {n : String} (under : next.under S n = pool.under S n) :
    next.parts S n = pool.parts S n := by
  have inside (pool : Pool) : (pool.under S n).parts S n = pool.parts S n := by
    unfold parts Pool.under
    rw [List.filter_filter]
    refine List.filter_congr fun p _ => ?_
    rw [Bool.and_eq_left_iff_imp]
    intro dimension
    obtain ⟨lower, strict⟩ := grown.lower_of_mem_dimensions (List.contains_iff_mem.mp dimension)
    simpa [S.covers_iff] using ⟨lower, strict⟩
  rw [← inside next, under, inside pool]

omit grown orderly in
theorem holdsDimensions_iff {n : String} (same : next.parts S n = pool.parts S n) :
    next.HoldsDimensions S n ↔ pool.HoldsDimensions S n := by
  have held (pool : Pool) {d : String} (dimension : d ∈ S.dimensions n) :
      (∃ p ∈ pool, p.root = d) ↔ ∃ p ∈ pool.parts S n, p.root = d := by
    refine exists_congr fun p => and_congr_left ?_
    rintro rfl
    rw [mem_parts_iff, and_iff_left dimension]
  refine and_congr_right fun _ => forall₂_congr fun d dimension => ?_
  rw [held next dimension, same, held pool dimension]

omit grown orderly in
theorem combines_iff {q : Request} {fits : Fraction → Fraction → Prop}
    (same : next.parts S q.root = pool.parts S q.root) :
    next.Combines S fits q ↔ pool.Combines S fits q := by
  constructor
  · rintro ⟨holds, writable, above, below⟩
    rw [same] at writable above below
    exact ⟨(holdsDimensions_iff same).mp holds, writable, above, below⟩
  · rintro ⟨holds, writable, above, below⟩
    rw [← same] at writable above below
    exact ⟨(holdsDimensions_iff same).mpr holds, writable, above, below⟩

omit orderly in
theorem Grants.transfer {q : Request} {fits : Fraction → Fraction → Prop} {s : Solution}
    (covering : ∀ p ∈ pool, S.Above p.root q.root → ∃ p' ∈ next, S.Above p'.root q.root ∧
      p'.shares.reroot q.root = p.shares.reroot q.root ∧
        (p'.reroot q.root).kind s = (p.reroot q.root).kind s)
    (under : next.under S q.root = pool.under S q.root) (grants : pool.Grants S fits s q) :
    next.Grants S fits s q := by
  cases grants with
  | held p member atop allowed fitsIn =>
      obtain ⟨p', inside, above, shares, kind⟩ := covering p member atop
      exact .held p' inside above (kind ▸ allowed) (shares ▸ fitsIn)
  | lower looks p first inside => exact .lower looks p (under ▸ first) inside
  | combined other combines allowed =>
      have same := parts_eq grown under
      exact .combined other ((combines_iff same).mpr combines) (same ▸ allowed)

theorem Orderly.grants_iff {q : Request} (same : SameAt S q.root pool next)
    {fits : Fraction → Fraction → Prop} {s : Solution} :
    next.Grants S fits s q ↔ pool.Grants S fits s q := by
  constructor
  · refine Grants.transfer grown (fun part inside atop => ?_) same.under.symm
    obtain ⟨p, member, above, isPart⟩ := same.only part inside atop
    obtain ⟨shares, kind⟩ := orderly.isPartOf_reroot grown member isPart atop s
    exact ⟨p, member, above, shares.symm, kind.symm⟩
  · refine Grants.transfer grown (fun p member atop => ?_) same.under
    obtain ⟨part, inside, above, isPart⟩ := same.kept p member atop
    exact ⟨part, inside, above, orderly.isPartOf_reroot grown member isPart above s⟩

theorem Orderly.split_reveals {value : Term → V}
    (distinct : value (.single .zero) ≠ value (.single .one)) (s : Solution)
    (requests : List Request) (apart : requests.Pairwise fun q r => S.Parted q.root r.root) :
    Reveals value (pool.split s requests) fun _ =>
      ∀ q ∈ requests, pool.Fulfils S (Fits value) s q := by
  induction requests generalizing pool with
  | nil => exact .pure nofun
  | cons q rest ih =>
      obtain ⟨beside, apart⟩ := List.pairwise_cons.mp apart
      rw [Pool.split, List.foldlM_cons]
      refine (orderly.splitOne_reveals grown distinct s q).bindYields (orderly.splitOne grown s q)
        fun next kept => (ih kept.1 apart).mono fun _ others first => ?_
      rw [List.forall_mem_cons]
      -- The other requests were looked at in a later pool, which is the same where their roots are.
      refine ⟨first, fun r later => ?_⟩
      have same := kept.2 r.root (beside r later)
      rw [Fulfils, ← orderly.grants_iff grown same, ← combines_iff (parts_eq grown same.under)]
      exact others r later

theorem Orderly.split_admits (s : Solution) (requests : List Request)
    (apart : requests.Pairwise fun q r => S.Parted q.root r.root) :
    Admits (fun n (value : Term → V) =>
        s.Silent n ∧ ∀ q ∈ requests, pool.Grants S (Fitting · · n value) s q)
      (pool.split s requests) fun _ _ _ => True := by
  induction requests generalizing pool with
  | nil => exact .pure fun _ _ _ => trivial
  | cons q rest ih =>
      obtain ⟨beside, apart⟩ := List.pairwise_cons.mp apart
      rw [Pool.split, List.foldlM_cons]
      -- What the pool grants the other requests has to outlast the split of the first one.
      have later : Lasting fun n (value : Term → V) =>
          s.Silent n ∧ ∀ r ∈ rest, pool.Grants S (Fitting · · n value) s r :=
        fun more agree start => ⟨start.1.mono more,
          fun r member => Grants.lasting s pool r more agree (start.2 r member)⟩
      have first := (orderly.splitOne_admits (V := V) grown s q).frame later
      refine (first.mono (fun n value start => ?_) fun _ _ _ => id).bindYields
        (orderly.splitOne grown s q) fun next kept => ?_
      · obtain ⟨here, others⟩ := List.forall_mem_cons.mp start.2
        exact ⟨⟨start.1, here⟩, start.1, others⟩
      · refine (ih kept.1 apart).mono (fun n value all => ⟨all.2.1, fun r member => ?_⟩)
          fun _ _ _ => id
        rw [orderly.grants_iff grown (kept.2 r.root (beside r member))]
        exact all.2.2 r member

end Runs

end Pool

end Typestate
