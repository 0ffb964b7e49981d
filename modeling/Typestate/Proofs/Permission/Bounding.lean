import Typestate.Proofs.Permission.Exactness

set_option autoImplicit false

/-!
What joining and combining write down. At every node the result is known at once, or it is a fresh
fraction, and then nothing is demanded but bounds for it.
-/

namespace Typestate

open Permission

/-- An unknown fraction whose number is in a range. -/
def Fraction.DrawnIn (first last : Nat) (f : Fraction) : Prop :=
  ∃ id, f = .unknown id ∧ first ≤ id ∧ id < last

/-- The bounds of a fraction from a range: at most one of the caps, or more than nothing. -/
inductive Constraint.Bounds (caps : Fraction → Prop) (first last : Nat) : Constraint → Prop
  | atMost {w f : Fraction} (fresh : w.DrawnIn first last) (cap : caps f) :
      Bounds caps first last (.atMost (.single w) (.single f))
  | nonZero {w : Fraction} (fresh : w.DrawnIn first last) :
      Bounds caps first last (.nonZero (.single w))

theorem Fraction.DrawnIn.mono {first last later : Nat} {f : Fraction} (drawn : f.DrawnIn first last)
    (more : last ≤ later) : f.DrawnIn first later := by
  obtain ⟨id, same, lower, upper⟩ := drawn
  exact ⟨id, same, lower, by omega⟩

theorem Constraint.Bounds.mono {caps : Fraction → Prop} {first last later : Nat} {c : Constraint}
    (bounds : c.Bounds caps first last) (more : last ≤ later) : c.Bounds caps first later := by
  cases bounds with
  | atMost fresh cap => exact .atMost (fresh.mono more) cap
  | nonZero fresh => exact .nonZero (fresh.mono more)

namespace Constraints

/-- One fraction is at most another by what is written down. -/
def AtMost (cs : Constraints) (f g : Fraction) : Prop :=
  g = f ∨ .atMost (.single f) (.single g) ∈ cs.items

theorem AtMost.mono {cs other : Constraints} {f g : Fraction} (atMost : cs.AtMost f g)
    (inside : cs.items ⊆ other.items) : other.AtMost f g := atMost.imp id fun written => inside written

def addBounds (cs : Constraints) (w : Fraction) (fs : List Fraction) (positive : Bool) :
    Constraints :=
  let bounded := fs.foldl (fun cs (f : Fraction) => cs.addAtMost w f) cs
  if positive then bounded.addNonZero w else bounded

theorem mem_addBounds {cs : Constraints} {id : Nat} {fs : List Fraction} {positive : Bool}
    {d : Constraint} :
    d ∈ (cs.addBounds (.unknown id) fs positive).items ↔
      (d ∈ cs.items ∨ ∃ f ∈ fs, f ≠ .unknown id ∧ d = .atMost (.single (.unknown id)) (.single f)) ∨
        positive = true ∧ d = .nonZero (.single (.unknown id)) := by
  rw [← mem_addAtMosts (w := .unknown id) nofun]
  cases positive with
  | false => simp [addBounds]
  | true => simp [addBounds, addNonZero, Term.fraction?, Fraction.isPositive, mem_add]

theorem impossible_addBounds (cs : Constraints) (w : Fraction) (fs : List Fraction)
    (positive : Bool) : (cs.addBounds w fs positive).impossible = cs.impossible := by
  have bounded : (fs.foldl (fun cs (f : Fraction) => cs.addAtMost w f) cs).impossible =
      cs.impossible := by
    refine List.foldlRecOn (motive := fun other : Constraints => other.impossible = cs.impossible)
      fs _ rfl fun other same f _ => ?_
    unfold addAtMost
    split
    · exact same
    · rw [impossible_add, same]
  unfold addBounds addNonZero
  dsimp only
  split
  · split
    · exact bounded
    · rw [impossible_add, bounded]
  · exact bounded

end Constraints

/-- From one state of a ledger to a later one nothing was written down but bounds. -/
structure Ledger.Bounded (caps : Fraction → Prop) (first : Nat) (l next : Ledger) : Prop where
  drawn : l.supply.next ≤ next.supply.next
  kept : l.constraints.items ⊆ next.constraints.items
  impossible : next.constraints.impossible = l.constraints.impossible
  added : ∀ c ∈ next.constraints.items,
    c ∈ l.constraints.items ∨ c.Bounds caps first next.supply.next

namespace Ledger

variable {caps : Fraction → Prop} {first : Nat}

theorem Bounded.refl (l : Ledger) : Bounded caps first l l :=
  ⟨Nat.le_refl _, List.Subset.refl _, rfl, fun _ => .inl⟩

theorem Bounded.trans {l middle next : Ledger} (before : Bounded caps first l middle)
    (after : Bounded caps first middle next) : Bounded caps first l next := by
  refine ⟨before.drawn.trans after.drawn, List.Subset.trans before.kept after.kept,
    after.impossible.trans before.impossible, fun c member => ?_⟩
  rcases after.added c member with old | bounds
  · exact (before.added c old).imp_right fun bounds => bounds.mono after.drawn
  · exact .inr bounds

end Ledger

/-- The ledger itself, in which nothing is written down but bounds. -/
abbrev Cargo.bounds (caps : Fraction → Prop) (first : Nat) : Cargo Ledger where
  fits l next := l = next
  agree _ := Ledger.Bounded caps first
  refl _ := .refl
  trans before _ after := before.trans after

section Drawing

variable {caps : Fraction → Prop} {first : Nat}

theorem keeps_atMost (f g : Fraction) :
    (Cargo.bounds caps first).Keeps fun _ l => l.constraints.AtMost f g :=
  fun _ bounded atMost => atMost.mono bounded.kept

/-- A fresh fraction that is at most each of the given ones. -/
def drawBelow (fs : List Fraction) (positive : Bool) : LedgerM Fraction := do
  let w ← Ledger.fresh
  Ledger.demand (·.addBounds w fs positive)
  return w

theorem drawBelow_carries {fs : List Fraction} (positive : Bool) (allowed : ∀ f ∈ fs, caps f) :
    Carries (.bounds caps first) (fun n _ => first ≤ n) (drawBelow fs positive) fun w n l =>
      w.DrawnIn first n ∧ ∀ f ∈ fs, l.constraints.AtMost w f := by
  rintro l _ rfl start
  have fresh : (Fraction.unknown l.supply.next).DrawnIn first (l.supply.next + 1) :=
    ⟨_, rfl, start, Nat.lt_succ_self _⟩
  refine ⟨_, ?_, Nat.le_succ _, rfl, fresh, fun f member => ?_⟩
  · refine ⟨Nat.le_succ _, fun c old => Constraints.mem_addBounds.mpr (.inl (.inl old)),
      Constraints.impossible_addBounds .., fun c member => ?_⟩
    rcases Constraints.mem_addBounds.mp member with (old | ⟨f, among, -, rfl⟩) | ⟨-, rfl⟩
    · exact .inl old
    · exact .inr (.atMost fresh (allowed f among))
    · exact .inr (.nonZero fresh)
  · by_cases same : f = .unknown l.supply.next
    · exact .inl same
    · exact .inr (Constraints.mem_addBounds.mpr (.inl (.inr ⟨f, member, same, rfl⟩)))

end Drawing

/-- The fractions that bound what two fractions are joined to. -/
def Fraction.joinCaps (symmetric : Bool) (p q : Fraction) : List Fraction :=
  if symmetric then [p, q] else [p]

/-- What two fractions are joined to, by what a solution says of them and what is written down. -/
inductive Fraction.Joined (s : Solution) (symmetric : Bool) (cs : Constraints) (first last : Nat)
    (p q : Fraction) : Fraction → Prop
  | same (equal : s.areEqual p q = true) : Joined s symmetric cs first last p q p
  | nothing (different : s.areEqual p q = false) (zero : s.isZero p = true ∨ s.isZero q = true) :
      Joined s symmetric cs first last p q .zero
  | bounded {w : Fraction} (different : s.areEqual p q = false) (left : s.isZero p = false)
      (right : s.isZero q = false) (fresh : w.DrawnIn first last)
      (atMost : ∀ f ∈ joinCaps symmetric p q, cs.AtMost w f) :
      Joined s symmetric cs first last p q w

namespace Permission

variable {caps : Fraction → Prop} {first : Nat} {s : Solution} {symmetric : Bool}

theorem joinFraction_eq (s : Solution) (symmetric : Bool) (p q : Fraction) :
    joinFraction s symmetric p q =
      if s.areEqual p q then pure p
      else if s.isZero p || s.isZero q then pure .zero
      else drawBelow (Fraction.joinCaps symmetric p q) (s.isNonZero p && s.isNonZero q) := by
  unfold joinFraction drawBelow
  congr 2
  cases symmetric <;> cases s.isNonZero p && s.isNonZero q <;> rfl

theorem weaken_eq_drawBelow (f : Fraction) (rest : List Fraction) :
    weaken f rest = if rest.all (· == f) then pure f else drawBelow (f :: rest) false :=
  weaken_eq f rest

theorem keeps_joined (p q j : Fraction) : (Cargo.bounds caps first).Keeps fun n l =>
    Fraction.Joined s symmetric l.constraints first n p q j := by
  intro n m l next more bounded joined
  cases joined with
  | same equal => exact .same equal
  | nothing different zero => exact .nothing different zero
  | bounded different left right fresh atMost =>
      exact .bounded different left right (fresh.mono more)
        fun f member => (atMost f member).mono bounded.kept

theorem joinFraction_carries {p q : Fraction}
    (allowed : ∀ f ∈ Fraction.joinCaps symmetric p q, s.isZero f = false → caps f) :
    Carries (.bounds caps first) (fun n _ => first ≤ n) (joinFraction s symmetric p q) fun j n l =>
      Fraction.Joined s symmetric l.constraints first n p q j := by
  rw [joinFraction_eq]
  refine .ite (fun equal => .pure fun _ _ _ => .same equal) fun different =>
    .ite (fun zero => .pure fun _ _ _ => .nothing (by simpa using different) (by simpa using zero))
      fun live => ?_
  simp only [Bool.or_eq_true, not_or, Bool.not_eq_true] at live different
  have free : ∀ f ∈ Fraction.joinCaps symmetric p q, caps f := by
    intro f member
    refine allowed f member ?_
    cases symmetric with
    | true =>
        rcases List.mem_pair.mp member with rfl | rfl
        · exact live.1
        · exact live.2
    | false => exact List.mem_singleton.mp member ▸ live.1
  exact (drawBelow_carries _ free).mono (fun _ _ => id) fun w n l drawn =>
    .bounded different live.1 live.2 drawn.1 drawn.2

theorem weaken_carries (f : Fraction) (rest : List Fraction) :
    Carries (.bounds (fun _ => True) first) (fun n _ => first ≤ n) (weaken f rest) fun w _ l =>
      ∀ g ∈ f :: rest, l.constraints.AtMost w g := by
  rw [weaken_eq_drawBelow]
  refine .ite (fun same => .pure fun _ _ _ g member => ?_) fun _ =>
    (drawBelow_carries false fun _ _ => trivial).mono (fun _ _ => id) fun _ _ _ => And.right
  rcases List.mem_cons.mp member with rfl | later
  · exact .inl rfl
  · exact .inl (by simpa using List.all_eq_true.mp same g later)

/-- What two permissions are joined to, by what holds of the fractions at each node. -/
structure JoinedBy (holds : Fraction → Fraction → Fraction → Prop) (p q j : Permission) : Prop where
  shares : Shares.Combined p.shares q.shares holds j.shares
  readOnly : j.readOnly = (p.readOnly || q.readOnly)
  frame : j.frame = p.frame
  states : j.states = j.space.cleanStates (commonStates p.space p.root p.states q.states)

theorem keeps_joinedBy (p q j : Permission) : (Cargo.bounds caps first).Keeps fun n l =>
    p.JoinedBy (Fraction.Joined s symmetric l.constraints first n) q j := by
  intro n m l next more bounded joined
  obtain ⟨⟨space, root, values, below⟩, readOnly, frame, states⟩ := joined
  have kept {f g h : Fraction} : Fraction.Joined s symmetric l.constraints first n f g h →
      Fraction.Joined s symmetric next.constraints first m f g h := keeps_joined f g h more bounded
  exact ⟨⟨space, root, values.imp fun _ _ both => ⟨both.1, kept both.2⟩, kept below⟩, readOnly,
    frame, states⟩

theorem join_carries {p q : Permission}
    (wide : symmetric = true → ∀ f : Fraction, s.isZero f = false → caps f)
    (own : ∀ f ∈ p.shares.fractions, s.isZero f = false → caps f) :
    Carries (.bounds caps first) (fun n _ => first ≤ n) (p.join q s symmetric) fun j n l =>
      p.JoinedBy (Fraction.Joined s symmetric l.constraints first n) q j := by
  let before (f _ : Fraction) (n : Nat) (_ : Ledger) : Prop := first ≤ n ∧ f ∈ p.shares.fractions
  have lasts (f g : Fraction) : (Cargo.bounds caps first).Keeps (before f g) :=
    fun more _ start => ⟨start.1.trans more, start.2⟩
  have each (f g : Fraction) : Carries (.bounds caps first) (before f g)
      (joinFraction s symmetric f g) fun j n l =>
        Fraction.Joined s symmetric l.constraints first n f g j := by
    intro l c fits start
    refine joinFraction_carries (fun h member live => ?_) l c fits start.1
    -- Unless the join is symmetric, only the first fraction is a bound.
    cases symmetric with
    | true => exact wide rfl h live
    | false =>
        rw [List.mem_singleton.mp member] at live ⊢
        exact own f start.2 live
  refine ((p.shares.combine_carries q.shares lasts (fun f g j => keeps_joined f g j) each).mono
    (fun n l start => ?_) fun _ _ _ => id).bind fun shares => .pure fun n l combined =>
      ⟨combined, rfl, rfl, rfl⟩
  exact ⟨fun entry member => ⟨start, Shares.mem_fractions_of_mem member⟩, start,
    Shares.below_mem_fractions _⟩

end Permission

namespace Valuation

variable {v : Valuation} {cs : Constraints}

theorem Meets.atMost (meets : v.Meets cs) {f g : Fraction} (atMost : cs.AtMost f g) :
    v.number f ≤ v.number g := by
  rcases atMost with rfl | written
  · exact le_refl _
  · exact meets.satisfies _ written

/-- In a valuation that bears out the solution, a symmetric join is at most both fractions. -/
theorem Meets.joined (meets : v.Meets cs) {s : Solution} (sound : s.Sound v.reading)
    {first last : Nat} {p q j : Fraction} (joined : Fraction.Joined s true cs first last p q j) :
    v.number j ≤ v.number p ∧ v.number j ≤ v.number q := by
  cases joined with
  | same equal =>
      have same : v.number p = v.number q :=
        sound.areEqual (a := .single p) (b := .single q) trivial trivial equal
      exact ⟨le_refl _, same.le⟩
  | nothing _ _ =>
      rw [v.zero]
      exact ⟨v.nonneg p, v.nonneg q⟩
  | bounded _ _ _ _ atMost =>
      exact ⟨meets.atMost (atMost p (by simp [Fraction.joinCaps])),
        meets.atMost (atMost q (by simp [Fraction.joinCaps]))⟩

end Valuation

/-- A permission for the same root that holds no more than another one at any spot. -/
structure Permission.GrantsAtMost (v : Valuation) (r p : Permission) : Prop where
  root : r.root = p.root
  shares : ∀ spot ∈ r.shares.spots,
    v.number (r.shares.fractionAt spot) ≤ v.number (p.shares.fractionAt spot)

namespace Permission

variable {v : Valuation}

theorem GrantsAtMost.refl (p : Permission) : p.GrantsAtMost v p := ⟨rfl, fun _ _ => le_refl _⟩

theorem JoinedBy.grantsAtMost {cs : Constraints} (meets : v.Meets cs) {s : Solution}
    (sound : s.Sound v.reading) {first last : Nat} {p q j : Permission} (grown : p.space.Grown)
    (laid : p.shares.Laid) (root : q.root = p.root)
    (joined : p.JoinedBy (Fraction.Joined s true cs first last) q j) :
    j.GrantsAtMost v p ∧ j.GrantsAtMost v q := by
  have each (spot : Option String) (among : spot ∈ j.shares.spots) :=
    meets.joined sound (joined.shares.spot grown laid (joined.shares.spots_eq ▸ among))
  exact ⟨⟨joined.shares.root, fun spot among => (each spot among).1⟩,
    joined.shares.root.trans root.symm, fun spot among => (each spot among).2⟩

/-- What several permissions are combined to, by what is written down. -/
def CombinedFrom (root : String) (parts : List Permission) (cs : Constraints) (whole : Permission) :
    Prop :=
  ∃ S, (∃ p ∈ parts, p.space = S) ∧
    Shares.Tabulated S root (fun n f => ∀ p ∈ parts, cs.AtMost f (p.shares.get n))
      (fun f => ∀ p ∈ parts, cs.AtMost f p.shares.below) whole.shares

theorem combineUp_carries (root : String) (parts : List Permission) :
    Carries (.bounds (fun _ => True) 0) (fun _ _ => True) (combineUp root parts) fun whole _ l =>
      ∀ w, whole = some w → CombinedFrom root parts l.constraints w := by
  cases parts with
  | nil => exact .pure fun _ _ _ => nofun
  | cons first rest =>
      have each (get : Permission → Fraction) : Carries (.bounds (fun _ => True) 0)
          (fun _ _ => True) (weaken (get first) (rest.map get)) fun f _ l =>
            ∀ p ∈ first :: rest, l.constraints.AtMost f (get p) := by
        refine (weaken_carries _ _).mono (fun n _ _ => Nat.zero_le n) fun f _ l bound p member => ?_
        exact bound (get p) (List.mem_map_of_mem (l := first :: rest) member)
      have stays (get : Permission → Fraction) (f : Fraction) :
          (Cargo.bounds (fun _ => True) 0).Keeps fun _ l =>
            ∀ p ∈ first :: rest, l.constraints.AtMost f (get p) :=
        fun more bounded all p member => keeps_atMost f (get p) more bounded (all p member)
      have always : (Cargo.bounds (fun _ => True) 0).Keeps fun _ _ => True := fun _ _ => id
      refine .ite (fun _ => .pure fun _ _ _ => nofun) fun _ => ?_
      refine ((Shares.tabulate_carries first.space root (fun _ => always) always
        (fun n f => stays (·.shares.get n) f) (fun n => each (·.shares.get n))
        (each (·.shares.below))).mono (fun _ _ _ => ⟨fun _ _ => trivial, trivial⟩)
          fun _ _ _ => id).bind fun shares => .pure fun _ l tabulated => ?_
      rintro w ⟨⟩
      exact ⟨first.space, ⟨first, List.mem_cons_self, rfl⟩, tabulated⟩

theorem combineUp_le {root : String} {parts : List Permission}
    (grown : ∀ p ∈ parts, p.space.Grown) {l next : Ledger} {whole : Permission}
    (run : (combineUp root parts).run l = (some whole, next)) (meets : v.Meets next.constraints) :
    ∀ p ∈ parts, ∀ spot ∈ whole.shares.spots,
      v.number (whole.shares.fractionAt spot) ≤ v.number (p.shares.fractionAt spot) := by
  obtain ⟨_, -, -, rfl, combined⟩ := combineUp_carries root parts l l rfl trivial
  rw [run] at combined
  obtain ⟨S, ⟨q, among, rfl⟩, tabulated⟩ := combined whole rfl
  have grownWhole : whole.shares.space.Grown := tabulated.space ▸ grown q among
  intro p member spot spotted
  rcases Shares.mem_spots.mp spotted with ⟨n, node, rfl⟩ | rfl
  · obtain ⟨entry, inside, rfl⟩ := List.mem_map.mp (tabulated.laid ▸ node)
    rw [Shares.fractionAt, Shares.get_of_mem grownWhole tabulated.laid inside]
    exact meets.atMost (tabulated.values entry inside p member)
  · exact meets.atMost (tabulated.below p member)

end Permission

end Typestate
