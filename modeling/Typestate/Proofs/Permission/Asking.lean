import Typestate.Proofs.Permission.Locality

set_option autoImplicit false

/-!
Sets of requests with fractions of their own. Such requests ask for little: their fractions have to
be positive where they say so, and otherwise may be as small as one likes.
-/

namespace Typestate

variable {V : Type}

/-- Whether a fraction has to be more than nothing, by itself or by a demand. -/
def Constraints.asks (cs : Constraints) (f : Fraction) : Bool :=
  f.isPositive || cs.contains (.nonZero (.single f))

/-- Sets of requests as they are made, with the numbers of the first fraction that is drawn for them
and of the first after them. -/
inductive RequestSet.Asked (S : Space) : Nat → Nat → RequestSet → Prop
  | empty (first : Nat) : Asked S first first (.empty S)
  | ofSpec (spec : Spec) (named : Bool) (first : Nat) :
      Asked S first ((RequestSet.ofSpec S spec named).run ⟨first⟩).2.next
        ((RequestSet.ofSpec S spec named).run ⟨first⟩).1
  | orphan (root : String) (frame : Bool) (states : List String) (first : Nat) :
      Asked S first first (.ofRequest S (.orphan S root frame states))
  | combine {first last start stop : Nat} {r t both : RequestSet} (left : Asked S first last r)
      (right : Asked S start stop t) (order : last ≤ start) (combined : r.combine t = .ok both) :
      Asked S first stop both

/-- A request whose unknown fractions are numbered within bounds. -/
structure Request.Fresh (S : Space) (first last : Nat) (cs : Constraints) (q : Request) :
    Prop where
  space : q.permission.space = S
  laid : q.permission.shares.Laid
  drawn : ∀ id, .unknown id ∈ q.permission.shares.fractions → first ≤ id ∧ id < last
  looks : q.kind = .pure → q.permission.shares.below = .zero
  reads : q.kind ≠ .pure → q.kind ≠ .share → cs.asks q.permission.shares.below = true
  used : cs.asks q.permission.shares.rootValue = true
  owns : q.permission.shares.below = .one → q.kind = .full ∨ q.kind = .unique
  proper : q.kind ≠ .unique → ∀ entry ∈ q.permission.shares.values, entry.2 ≠ .one
  whole : q.kind = .unique → ∀ f ∈ q.permission.shares.fractions, f = .one

/-- Requests for orthogonal roots and with fractions within bounds, of which nothing is demanded but
that some are positive. -/
structure RequestSet.Fresh (S : Space) (first last : Nat) (r : RequestSet) : Prop where
  order : first ≤ last
  space : r.space = S
  virtuals : r.virtuals.Pairwise fun p q => S.Parted p.root q.root
  frames : r.frames.Pairwise fun p q => S.Parted p.root q.root
  requests : ∀ q ∈ r.all, q.Fresh S first last r.constraints
  possible : r.constraints.impossible = none
  demands : ∀ c ∈ r.constraints.items,
    ∃ id, c = .nonZero (.single (.unknown id)) ∧ first ≤ id ∧ id < last

section Drawing

/-- Fractions that were drawn on the way from one state of the ledger to another. -/
structure DrawnBetween (l next : Ledger) (f : Fraction) : Prop where
  live : f ≠ .zero
  proper : f ≠ .one
  bounds : ∀ id, f = .unknown id → l.supply.next ≤ id ∧ id < next.supply.next

theorem freshOf_run (named : Bool) (l : Ledger) :
    (Ledger.freshOf named).run l =
      (if named then .named l.supply.next else .unknown l.supply.next,
        ⟨l.constraints, ⟨l.supply.next + 1⟩⟩) := rfl

theorem freshOf_drawnBetween (named : Bool) (l : Ledger) :
    DrawnBetween l ((Ledger.freshOf named).run l).2 ((Ledger.freshOf named).run l).1 := by
  rw [freshOf_run]
  cases named with
  | true => exact ⟨nofun, nofun, nofun⟩
  | false =>
      refine ⟨nofun, nofun, ?_⟩
      rintro id ⟨⟩
      exact ⟨Nat.le_refl _, Nat.lt_succ_self _⟩

theorem DrawnBetween.mono {l next start stop : Ledger} {f : Fraction}
    (drawn : DrawnBetween l next f) (lower : start.supply.next ≤ l.supply.next)
    (upper : next.supply.next ≤ stop.supply.next) : DrawnBetween start stop f := by
  refine ⟨drawn.live, drawn.proper, fun id same => ?_⟩
  have bounds := drawn.bounds id same
  omega

theorem mapM_freshOf (named : Bool) (nodes : List String) (l : Ledger) :
    let drawn := (nodes.mapM fun n => do return (n, ← Ledger.freshOf named) :
      LedgerM (List (String × Fraction))).run l
    drawn.2.constraints = l.constraints ∧ l.supply.next ≤ drawn.2.supply.next ∧
      ∀ entry ∈ drawn.1, DrawnBetween l drawn.2 entry.2 := by
  induction nodes generalizing l with
  | nil => exact ⟨rfl, Nat.le_refl _, nofun⟩
  | cons n rest ih =>
      let middle : Ledger := ⟨l.constraints, ⟨l.supply.next + 1⟩⟩
      obtain ⟨constraints, more, others⟩ := ih middle
      have step : l.supply.next ≤ middle.supply.next := Nat.le_succ _
      rw [List.mapM_cons]
      refine ⟨constraints, step.trans more, fun entry member => ?_⟩
      rcases List.mem_cons.mp member with rfl | later
      · exact (freshOf_drawnBetween named l).mono (Nat.le_refl _) more
      · exact (others entry later).mono step (Nat.le_refl _)

/-- The fractions a request starts with. -/
structure StartedWith (S : Space) (kind : Kind) (l : Ledger) (made : Shares × Ledger) : Prop where
  constraints : made.2.constraints = l.constraints
  more : l.supply.next ≤ made.2.supply.next
  space : made.1.space = S
  laid : made.1.Laid
  drawn : ∀ id, .unknown id ∈ made.1.fractions → l.supply.next ≤ id ∧ id < made.2.supply.next
  live : ∀ entry ∈ made.1.values, entry.2 ≠ .zero
  looks : kind = .pure → made.1.below = .zero
  reads : kind ≠ .pure → made.1.below ≠ .zero
  owns : made.1.below = .one ↔ kind = .full ∨ kind = .unique
  proper : kind ≠ .unique → ∀ entry ∈ made.1.values, entry.2 ≠ .one
  whole : kind = .unique → ∀ f ∈ made.1.fractions, f = .one

theorem Shares.eq_of_mem_constant {S : Space} {root : String} {f g : Fraction}
    (member : g ∈ (Shares.constant S root f).fractions) : g = f := by
  simp only [Shares.fractions, Shares.constant, List.map_map, List.mem_append, List.mem_map,
    List.mem_singleton] at member
  rcases member with ⟨_, -, same⟩ | same
  · exact same.symm
  · exact same

variable (S : Space) (root : String) (named : Bool)

theorem freshAbove_startedWith {kind : Kind} {below : Fraction} (literal : below.isLiteral = true)
    (looks : kind = .pure → below = .zero) (reads : kind ≠ .pure → below ≠ .zero)
    (owns : below = .one ↔ kind = .full ∨ kind = .unique) (some : kind ≠ .unique) (l : Ledger) :
    StartedWith S kind l ((Shares.freshAbove S root named below).run l) := by
  obtain ⟨constraints, more, drawn⟩ := mapM_freshOf named (S.ancestors root) l
  refine ⟨constraints, more, rfl, Pool.tabulate_laid _ _ _ _ l, fun id member => ?_,
    fun entry member => (drawn entry member).live, looks, reads,
    owns, fun _ entry member => (drawn entry member).proper, fun unique => absurd unique some⟩
  rcases Shares.mem_fractions.mp member with ⟨entry, inside, same⟩ | same
  · exact (drawn entry inside).bounds id same
  · change .unknown id = below at same
    rw [← same] at literal
    cases literal

theorem freshAll_startedWith {kind : Kind} (other : kind ≠ .pure) (reads : kind ≠ .full)
    (some : kind ≠ .unique) (l : Ledger) :
    StartedWith S kind l ((Shares.freshAll S root named).run l) := by
  obtain ⟨constraints, more, drawn⟩ := mapM_freshOf named (S.ancestors root) l
  let middle := ((S.ancestors root).mapM fun n => do return (n, ← Ledger.freshOf named) :
    LedgerM (List (String × Fraction))).run l |>.2
  have lowest := freshOf_drawnBetween named middle
  have step : middle.supply.next ≤ ((Ledger.freshOf named).run middle).2.supply.next :=
    Nat.le_succ _
  refine ⟨constraints, more.trans step, rfl, Pool.tabulate_laid _ _ _ _ l, fun id member => ?_,
    fun entry member => (drawn entry member).live, fun pure => absurd pure other,
    fun _ => lowest.live, ⟨fun one => absurd one lowest.proper, fun owns => by simp_all⟩,
    fun _ entry member => (drawn entry member).proper, fun unique => absurd unique some⟩
  rcases Shares.mem_fractions.mp member with ⟨entry, inside, same⟩ | same
  · exact ((drawn entry inside).mono (Nat.le_refl _) step).bounds id same
  · exact (lowest.mono more (Nat.le_refl _)).bounds id same.symm

theorem constant_one_startedWith (l : Ledger) :
    StartedWith S .unique l (.constant S root .one, l) := by
  have whole : ∀ f ∈ (Shares.constant S root .one).fractions, f = .one :=
    fun _ member => Shares.eq_of_mem_constant member
  refine ⟨rfl, Nat.le_refl _, rfl, by simp [Shares.Laid, Shares.constant, Function.comp_def],
    fun id member => ?_, fun entry member => ?_, ?_, ?_,
    ⟨fun _ => .inr rfl, fun _ => rfl⟩, fun some => absurd rfl some, fun _ => whole⟩
  · cases whole _ member
  · rw [whole _ (Shares.mem_fractions_of_mem member)]
    rintro ⟨⟩
  · rintro ⟨⟩
  · rintro - ⟨⟩

theorem shares_startedWith (kind : Kind) (l : Ledger) :
    StartedWith S kind l ((Request.shares S root named kind).run l) := by
  cases kind with
  | unique => exact constant_one_startedWith S root l
  | full =>
      exact freshAbove_startedWith S root named rfl (by decide) (by decide) (by decide)
        (by decide) l
  | share | immutable =>
      exact freshAll_startedWith S root named (by decide) (by decide) (by decide) l
  | pure =>
      exact freshAbove_startedWith S root named rfl (fun _ => rfl) (by decide) (by decide)
        (by decide) l

end Drawing

namespace Constraints

variable {cs : Constraints}

theorem asks_addNonZero (cs : Constraints) (f : Fraction) : (cs.addNonZero f).asks f = true := by
  unfold asks
  by_cases positive : f.isPositive = true
  · simp [positive]
  · have member : Constraint.nonZero (.single f) ∈ (cs.addNonZero f).items := by
      simp only [addNonZero, Term.fraction?, Option.map_some, Option.getD_some, positive]
      exact mem_add.mpr (.inr rfl)
    simp [contains, member]

theorem mem_addNonZero_of_mem {f : Fraction} {c : Constraint} (member : c ∈ cs.items) :
    c ∈ (cs.addNonZero f).items := by
  unfold addNonZero
  split
  · exact member
  · exact mem_add.mpr (.inl member)

theorem asks_mono {other : Constraints} (inside : ∀ c ∈ cs.items, c ∈ other.items) {f : Fraction}
    (asks : cs.asks f = true) : other.asks f = true := by
  simp only [Constraints.asks, Bool.or_eq_true, contains, List.contains_eq_mem,
    decide_eq_true_eq] at asks ⊢
  exact asks.imp id (inside _)

theorem mem_addNonZero {f : Fraction} (live : f ≠ .zero) {c : Constraint}
    (member : c ∈ (cs.addNonZero f).items) :
    c ∈ cs.items ∨ ∃ id, f = .unknown id ∧ c = .nonZero (.single (.unknown id)) := by
  cases f with
  | zero => exact absurd rfl live
  | one | named id => exact .inl member
  | unknown id => exact (mem_add.mp member).imp_right fun same => ⟨id, rfl, same⟩

theorem MetBy.ne_zero {value : Term → V} (met : cs.MetBy value) {f : Fraction}
    (asks : cs.asks f = true) : value f ≠ value (.single .zero) := by
  simp only [Constraints.asks, Bool.or_eq_true, contains, List.contains_eq_mem,
    decide_eq_true_eq] at asks
  rcases asks with positive | demanded
  · exact met.2.lawful.literal_positive f positive
  · exact met.2.satisfies _ demanded

end Constraints

section Making

variable {S : Space} (grown : S.Grown)

theorem Shares.exists_rootValue {s : Shares} (grown : s.space.Grown) (laid : s.Laid) :
    ∃ entry ∈ s.values, s.rootValue = entry.2 := by
  have head := grown.head_ancestors s.root
  rw [← laid, List.head?_map, Option.map_eq_some_iff] at head
  obtain ⟨entry, first, -⟩ := head
  exact ⟨entry, List.mem_of_head? first, by simp [rootValue, first]⟩

/-- What is demanded of the fractions that a request starts with. -/
def Request.demanded (kind : Kind) (made : Shares × Ledger) : Constraints :=
  let used := made.2.constraints.addNonZero made.1.rootValue
  if kind = .immutable then used.addNonZero made.1.below else used

theorem Request.create_run (spec : Spec) (named : Bool) (l : Ledger) :
    (Request.create S spec named).run l =
      let made := (Request.shares S spec.root named spec.kind).run l
      (⟨.make made.1 spec.kind.isReadOnly spec.frame spec.states, spec.kind⟩,
        ⟨Request.demanded spec.kind made, made.2.supply⟩) := by
  unfold Request.create Request.demanded
  by_cases reads : spec.kind = .immutable
  · simp only [reads, if_true]
    rfl
  · simp only [reads, if_false]
    rfl

theorem StartedWith.asks_below {kind : Kind} {l : Ledger} {made : Shares × Ledger}
    (started : StartedWith S kind l made) (looks : kind ≠ .pure) (shares : kind ≠ .share) :
    (Request.demanded kind made).asks made.1.below = true := by
  have literal (one : made.1.below = .one) :
      (Request.demanded kind made).asks made.1.below = true := by
    simp [Constraints.asks, one, Fraction.isPositive]
  cases kind with
  | unique => exact literal (started.owns.mpr (.inr rfl))
  | full => exact literal (started.owns.mpr (.inl rfl))
  | immutable => exact Constraints.asks_addNonZero _ _
  | share => exact absurd rfl shares
  | pure => exact absurd rfl looks

theorem Request.demanded_asks_rootValue (kind : Kind) (made : Shares × Ledger) :
    (Request.demanded kind made).asks made.1.rootValue = true := by
  have used := Constraints.asks_addNonZero made.2.constraints made.1.rootValue
  unfold Request.demanded
  split
  · exact Constraints.asks_mono (fun _ old => Constraints.mem_addNonZero_of_mem old) used
  · exact used

include grown

theorem StartedWith.demanded {kind : Kind} {l : Ledger} {made : Shares × Ledger}
    (started : StartedWith S kind l made) {c : Constraint}
    (member : c ∈ (Request.demanded kind made).items) :
    c ∈ l.constraints.items ∨ ∃ id, c = .nonZero (.single (.unknown id)) ∧
      l.supply.next ≤ id ∧ id < made.2.supply.next := by
  obtain ⟨entry, inside, rootValue⟩ :=
    Shares.exists_rootValue (started.space ▸ grown) started.laid
  have above : entry.2 ∈ made.1.fractions := Shares.mem_fractions_of_mem inside
  have lowest : made.1.below ∈ made.1.fractions := List.mem_append_right _ (by simp)
  -- A demand is made of a fraction that was just drawn, or it says nothing about a literal.
  have asked {cs : Constraints} {f : Fraction} (live : f ≠ .zero) (among : f ∈ made.1.fractions)
      (new : c ∈ (cs.addNonZero f).items) :
      c ∈ cs.items ∨ ∃ id, c = .nonZero (.single (.unknown id)) ∧
        l.supply.next ≤ id ∧ id < made.2.supply.next := by
    refine (Constraints.mem_addNonZero live new).imp_right ?_
    rintro ⟨id, rfl, same⟩
    exact ⟨id, same, started.drawn id among⟩
  have used (new : c ∈ (made.2.constraints.addNonZero made.1.rootValue).items) := by
    rw [started.constraints, rootValue] at new
    exact asked (started.live entry inside) above new
  unfold Request.demanded at member
  split at member
  · next reads =>
      have live := started.reads (by rw [reads]; decide)
      exact (asked live lowest member).elim used .inr
  · exact used member

omit grown in
theorem ofRequest_fresh {first last : Nat} (order : first ≤ last) {q : Request} {cs : Constraints}
    (fresh : q.Fresh S first last cs) (possible : cs.impossible = none)
    (demands : ∀ c ∈ cs.items,
      ∃ id, c = .nonZero (.single (.unknown id)) ∧ first ≤ id ∧ id < last) :
    RequestSet.Fresh S first last { RequestSet.ofRequest S q with constraints := cs } := by
  unfold RequestSet.ofRequest
  split
  · refine ⟨order, rfl, .nil, List.pairwise_singleton _ _, fun p member => ?_, possible, demands⟩
    simp only [RequestSet.all, RequestSet.empty, List.nil_append, List.mem_singleton] at member
    exact member ▸ fresh
  · refine ⟨order, rfl, List.pairwise_singleton _ _, .nil, fun p member => ?_, possible, demands⟩
    simp only [RequestSet.all, RequestSet.empty, List.append_nil, List.mem_singleton] at member
    exact member ▸ fresh

theorem ofSpec_fresh (spec : Spec) (named : Bool) (first : Nat) :
    RequestSet.Fresh S first ((RequestSet.ofSpec S spec named).run ⟨first⟩).2.next
      ((RequestSet.ofSpec S spec named).run ⟨first⟩).1 := by
  let made := (Request.shares S spec.root named spec.kind).run ⟨.empty, ⟨first⟩⟩
  have started : StartedWith S spec.kind ⟨.empty, ⟨first⟩⟩ made :=
    shares_startedWith S spec.root named spec.kind _
  have run : (RequestSet.ofSpec S spec named).run ⟨first⟩ =
      ({ RequestSet.ofRequest S
          ⟨.make made.1 spec.kind.isReadOnly spec.frame spec.states, spec.kind⟩ with
        constraints := Request.demanded spec.kind made }, made.2.supply) := by
    change (fun created : Request × Ledger => ({ RequestSet.ofRequest S created.1 with
      constraints := created.2.constraints }, created.2.supply))
        ((Request.create S spec named).run ⟨.empty, ⟨first⟩⟩) = _
    rw [Request.create_run]
  rw [run]
  refine ofRequest_fresh started.more
    ⟨started.space, started.laid, started.drawn, started.looks, started.asks_below,
      Request.demanded_asks_rootValue _ _, started.owns.mp, started.proper, started.whole⟩ ?_
    fun c member => (started.demanded grown member).resolve_left nofun
  · have kept (cs : Constraints) (f : Fraction) :
        (cs.addNonZero f).impossible = cs.impossible := by
      unfold Constraints.addNonZero
      split
      · rfl
      · exact Constraints.impossible_add
    unfold Request.demanded
    split
    · rw [kept, kept, started.constraints]
      rfl
    · rw [kept, started.constraints]
      rfl

theorem orphan_fresh (root : String) (frame : Bool) (states : List String) (first : Nat) :
    RequestSet.Fresh S first first (.ofRequest S (.orphan S root frame states)) := by
  have started : StartedWith S .unique ⟨.empty, ⟨first⟩⟩
      (.constant S root .one, ⟨.empty, ⟨first⟩⟩) := constant_one_startedWith S root _
  have used : (Shares.constant S root .one).rootValue = .one := by
    obtain ⟨entry, inside, same⟩ := Shares.exists_rootValue grown started.laid
    rw [same]
    exact started.whole rfl _ (Shares.mem_fractions_of_mem inside)
  have one : Request.Fresh S first first .empty (.orphan S root frame states) :=
    ⟨started.space, started.laid, started.drawn, started.looks, fun _ _ => rfl,
      by simp [Constraints.asks, Request.orphan, Permission.make, used, Fraction.isPositive],
      started.owns.mp, started.proper, started.whole⟩
  have constraints :
      (RequestSet.ofRequest S (.orphan S root frame states)).constraints = .empty := by
    unfold RequestSet.ofRequest
    split <;> rfl
  have fresh := ofRequest_fresh (Nat.le_refl first) one rfl (by rintro c ⟨⟩)
  rw [← constraints] at fresh
  exact fresh

theorem overlap?_eq_none {left right : List Request}
    (none : RequestSet.overlap? S left right = none)
    (first : left.Pairwise fun p q => S.Parted p.root q.root)
    (second : right.Pairwise fun p q => S.Parted p.root q.root) :
    (left ++ right).Pairwise fun p q => S.Parted p.root q.root := by
  refine List.pairwise_append.mpr ⟨first, second, fun p member q among => ?_⟩
  rw [← grown.orthogonal_iff]
  simp only [RequestSet.overlap?, List.find?_eq_none, List.mem_flatMap, List.mem_map,
    Bool.not_eq_true', Bool.not_eq_false] at none
  exact none ⟨p, q, S⟩ ⟨p, member, q, among, rfl⟩

omit grown in
theorem Request.Fresh.mono {first last start stop : Nat} {cs other : Constraints} {q : Request}
    (fresh : q.Fresh S first last cs) (lower : start ≤ first) (upper : last ≤ stop)
    (inside : ∀ c ∈ cs.items, c ∈ other.items) : q.Fresh S start stop other := by
  refine ⟨fresh.space, fresh.laid, fun id member => ?_, fresh.looks,
    fun looks shares => Constraints.asks_mono inside (fresh.reads looks shares),
    Constraints.asks_mono inside fresh.used, fresh.owns, fresh.proper, fresh.whole⟩
  have bounds := fresh.drawn id member
  omega

theorem RequestSet.Fresh.combine {first last start stop : Nat} {r t both : RequestSet}
    (left : r.Fresh S first last) (right : t.Fresh S start stop) (order : last ≤ start)
    (combined : r.combine t = .ok both) : both.Fresh S first stop := by
  have lower : first ≤ start := left.order.trans order
  have upper : last ≤ stop := order.trans right.order
  unfold RequestSet.combine at combined
  split at combined
  · cases combined
  · next apart =>
      rw [left.space, Option.or_eq_none_iff] at apart
      rw [← Except.ok.inj combined]
      -- The numbers of the two sets lie in intervals one behind the other.
      refine ⟨lower.trans right.order, left.space,
        overlap?_eq_none grown apart.1 left.virtuals right.virtuals,
        overlap?_eq_none grown apart.2 left.frames right.frames, fun q member => ?_, ?_,
        fun c member => ?_⟩
      · have sides : q ∈ r.all ∨ q ∈ t.all := by
          simp only [RequestSet.all, List.mem_append] at member ⊢
          tauto
        rcases sides with inside | inside
        · exact (left.requests q inside).mono (Nat.le_refl _) upper
            fun c old => Constraints.mem_append.mpr (.inl old)
        · exact (right.requests q inside).mono lower (Nat.le_refl _)
            fun c old => Constraints.mem_append.mpr (.inr old)
      · rw [Constraints.impossible_append, left.possible, right.possible]
        rfl
      · rcases Constraints.mem_append.mp member with old | old
        · obtain ⟨id, same, bounds⟩ := left.demands c old
          exact ⟨id, same, bounds.1, by omega⟩
        · obtain ⟨id, same, bounds⟩ := right.demands c old
          exact ⟨id, same, by omega, bounds.2⟩

theorem RequestSet.Asked.fresh {first last : Nat} {r : RequestSet} (asked : r.Asked S first last) :
    r.Fresh S first last := by
  induction asked with
  | empty first =>
      exact ⟨Nat.le_refl _, rfl, .nil, .nil, nofun, rfl, nofun⟩
  | ofSpec spec named first => exact ofSpec_fresh grown spec named first
  | orphan root frame states first => exact orphan_fresh grown root frame states first
  | combine _ _ order combined first second => exact first.combine grown second order combined

end Making

section Frugal

/-- The unknown fractions within bounds get as little as the constraints allow: something besides
the old values where they ask for it, and nothing elsewhere. -/
def frugal (cs : Constraints) (first last : Nat) (value : Term → V) : Term → Option V
  | .single (.unknown id) =>
      if first ≤ id ∧ id < last then
        if cs.asks (.unknown id) then none else some (value (.single .zero))
      else some (value (.single (.unknown id)))
  | t => some (value t)

variable {S : Space} {cs other : Constraints} {first last : Nat} {value : Term → V}

theorem frugal_of_outside {f : Fraction}
    (outside : ∀ id, f = .unknown id → ¬(first ≤ id ∧ id < last)) :
    frugal cs first last value f = some (value f) := by
  cases f with
  | zero | one | named id => rfl
  | unknown id => exact if_neg (outside id rfl)

theorem frugal_of_inside {id : Nat} (inside : first ≤ id ∧ id < last) :
    frugal cs first last value (.single (.unknown id)) =
      if cs.asks (.unknown id) then none else some (value (.single .zero)) := if_pos inside

theorem Fraction.IsDrawn.outside {f : Fraction} (drawn : f.IsDrawn first) :
    ∀ id, f = .unknown id → ¬(first ≤ id ∧ id < last) := by
  rintro id rfl ⟨from', -⟩
  exact Nat.not_lt_of_le from' drawn

theorem agree_frugal (cs : Constraints) (first last : Nat) (value : Term → V) :
    Agree first (fun t => some (value t)) (frugal cs first last value) := by
  intro t inside
  match t with
  | .single f => exact frugal_of_outside (inside f (by simp [Term.fractions])).outside
  | .sum fs => rfl

theorem Constraints.MetBy.toFrugal (met : other.MetBy value) (drawn : other.IsDrawn first) :
    other.MetBy (frugal cs first last value) :=
  (met.map fun _ _ => Option.some.inj).agree drawn (agree_frugal cs first last value)

theorem RequestSet.Fresh.metBy_frugal {r : RequestSet} (fresh : r.Fresh S first last)
    (met : other.MetBy value) : r.constraints.MetBy (frugal r.constraints first last value) := by
  have empty : Constraints.empty.MetBy value := ⟨rfl, met.2.lawful, nofun, nofun⟩
  refine ⟨fresh.possible, (empty.toFrugal nofun).2.lawful, fun c member t among => ?_,
    fun c member => ?_⟩
  · obtain ⟨id, rfl, -⟩ := fresh.demands c member
    rw [List.mem_singleton.mp among]
    trivial
  · obtain ⟨id, rfl, bounds⟩ := fresh.demands c member
    have asked : r.constraints.asks (.unknown id) = true := by
      simp [Constraints.asks, Constraints.contains, member]
    -- What is asked for gets a value that none of the old ones is, zero in particular.
    intro same
    change frugal r.constraints first last value (.single (.unknown id)) =
      some (value (.single .zero)) at same
    rw [frugal_of_inside bounds, if_pos asked] at same
    cases same

theorem RequestSet.Fresh.isDrawn {r : RequestSet} (fresh : r.Fresh S first last) :
    r.constraints.IsDrawn last := by
  intro c member t among f inside
  obtain ⟨id, rfl, bounds⟩ := fresh.demands c member
  rw [List.mem_singleton.mp among] at inside
  rw [List.mem_singleton.mp inside]
  exact bounds.2

theorem RequestSet.Fresh.exists_met {r : RequestSet} (fresh : r.Fresh S first last)
    (met : other.MetBy value) (drawn : other.IsDrawn first) :
    ∃ extended : Term → Option V, (other ++ r.constraints).MetBy extended ∧
      Agree first (fun t => some (value t)) extended :=
  ⟨frugal r.constraints first last value,
    Constraints.metBy_append.mpr ⟨met.toFrugal drawn, fresh.metBy_frugal met⟩,
    agree_frugal r.constraints first last value⟩

theorem Fits.toFrugal {f g : Fraction} (fits : Fits value f g) (met : cs.MetBy value)
    (drawn : g.IsDrawn first) : Fits (frugal cs first last value) f g := by
  have right : frugal cs first last value g = some (value g) := frugal_of_outside drawn.outside
  -- Only what was asked for can get less; what is held was there before and keeps its value.
  by_cases inside : ∃ id, f = .unknown id ∧ first ≤ id ∧ id < last
  · obtain ⟨id, rfl, bounds⟩ := inside
    unfold Fits
    rw [frugal_of_inside bounds, right]
    by_cases asked : cs.asks (.unknown id) = true
    · rw [if_pos asked]
      exact ⟨fun zero => absurd (fits.1 (Option.some.inj zero)) (met.ne_zero asked), nofun⟩
    · rw [if_neg asked]
      exact ⟨fun _ => rfl, fun one => absurd (Option.some.inj one) met.zero_ne_one⟩
  · have left : frugal cs first last value f = some (value f) :=
      frugal_of_outside fun id same bounds => inside ⟨id, same, bounds⟩
    unfold Fits
    rw [left, right]
    exact ⟨fun zero => congrArg some (fits.1 (Option.some.inj zero)),
      fun one => congrArg some (fits.2 (Option.some.inj one))⟩

theorem fits_frugal_of_asks {f g : Fraction} (met : other.MetBy value) (proper : f ≠ .one)
    (bounds : ∀ id, f = .unknown id → first ≤ id ∧ id < last)
    (live : cs.asks f = true → value g ≠ value (.single .zero)) (drawn : g.IsDrawn first) :
    Fits (frugal cs first last value) f g := by
  have right : frugal cs first last value g = some (value g) := frugal_of_outside drawn.outside
  cases f with
  | zero => exact ⟨fun _ => rfl, fun one => absurd (Option.some.inj one) met.zero_ne_one⟩
  | one => exact absurd rfl proper
  | named id =>
      refine ⟨fun zero => absurd (Option.some.inj (right.symm.trans zero)) (live rfl),
        fun one => ?_⟩
      have same := met.2.lawful.apart (.named id) .one rfl rfl (Option.some.inj one)
      cases same
  | unknown id =>
      unfold Fits
      rw [frugal_of_inside (bounds id rfl), right]
      by_cases asked : cs.asks (.unknown id) = true
      · rw [if_pos asked]
        exact ⟨fun zero => absurd (Option.some.inj zero) (live asked), nofun⟩
      · rw [if_neg asked]
        exact ⟨fun _ => rfl, fun one => absurd (Option.some.inj one) met.zero_ne_one⟩

end Frugal

end Typestate
