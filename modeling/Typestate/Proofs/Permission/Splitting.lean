import Typestate.Proofs.Permission.Fitting
import Typestate.Proofs.Permission.Roots

set_option autoImplicit false

/-!
A request can be split off a permission exactly if the kinds allow it and each of its fractions fits
into what is held at the node.
-/

namespace Typestate

variable {V : Type}

namespace Shares

/-- The nodes with a fraction of their own are those from the root up. -/
def Laid (s : Shares) : Prop := s.values.map Prod.fst = s.space.ancestors s.root

def IsDrawn (n : Nat) (s : Shares) : Prop := ∀ f ∈ s.fractions, f.IsDrawn n

theorem mem_fractions {s : Shares} {f : Fraction} :
    f ∈ s.fractions ↔ (∃ entry ∈ s.values, entry.2 = f) ∨ f = s.below := by
  rw [fractions, List.mem_append, List.mem_map, List.mem_singleton]

theorem mem_fractions_of_mem {s : Shares} {entry : String × Fraction} (member : entry ∈ s.values) :
    entry.2 ∈ s.fractions :=
  mem_fractions.mpr (.inl ⟨entry, member, rfl⟩)

theorem below_mem_fractions (s : Shares) : s.below ∈ s.fractions :=
  mem_fractions.mpr (.inr rfl)

theorem find?_of_nodup {entries : List (String × Fraction)}
    (distinct : (entries.map Prod.fst).Nodup) {entry : String × Fraction}
    (member : entry ∈ entries) : entries.find? (fun e => e.1 = entry.1) = some entry := by
  induction entries with
  | nil => cases member
  | cons first rest ih =>
      rw [List.map_cons, List.nodup_cons] at distinct
      rcases List.mem_cons.mp member with rfl | later
      · simp
      · have apart : first.1 ≠ entry.1 :=
          fun same => distinct.1 (same ▸ List.mem_map_of_mem later)
        rw [List.find?_cons_of_neg (by simpa using apart), ih distinct.2 later]

theorem reroot_laid (s : Shares) (root : String) : (s.reroot root).Laid := by
  simp [Laid, reroot, Function.comp_def]

theorem get_mem (s : Shares) (n : String) : s.get n ∈ s.fractions ∨ s.get n = .zero := by
  unfold Shares.get
  split
  · next entry found =>
      exact .inl (mem_fractions_of_mem (List.mem_of_find?_eq_some found))
  · split
    · exact .inl s.below_mem_fractions
    · exact .inr rfl

theorem IsDrawn.below {n : Nat} {s : Shares} (drawn : s.IsDrawn n) : s.below.IsDrawn n :=
  drawn _ s.below_mem_fractions

theorem IsDrawn.get {n : Nat} {s : Shares} (drawn : s.IsDrawn n) (node : String) :
    (s.get node).IsDrawn n := by
  rcases s.get_mem node with member | zero
  · exact drawn _ member
  · rw [zero]
    trivial

theorem mem_fractions_reroot {s : Shares} {root : String} {f : Fraction}
    (member : f ∈ (s.reroot root).fractions) : f ∈ s.fractions ∨ f = .zero := by
  simp only [fractions, Shares.reroot, List.map_map, List.mem_append, List.mem_map,
    Function.comp_apply, List.mem_singleton] at member
  rcases member with ⟨node, -, rfl⟩ | rfl
  · exact s.get_mem node
  · exact .inl s.below_mem_fractions

theorem IsDrawn.reroot {n : Nat} {s : Shares} (drawn : s.IsDrawn n) (root : String) :
    (s.reroot root).IsDrawn n := by
  intro f member
  rcases mem_fractions_reroot member with old | zero
  · exact drawn f old
  · rw [zero]
    trivial

section Nodes

variable {s : Shares} (grown : s.space.Grown)

include grown

theorem get_of_mem (laid : s.Laid) {entry : String × Fraction} (member : entry ∈ s.values) :
    s.get entry.1 = entry.2 := by
  have distinct : (s.values.map Prod.fst).Nodup := by
    rw [laid]
    exact (grown.ancestors_pairwise s.root).imp And.right
  simp [get, find?_of_nodup distinct member]

omit grown in
theorem get_of_not_above (laid : s.Laid) {n : String} (apart : ¬s.space.Above n s.root) :
    s.get n = if s.space.covers s.root n then s.below else .zero := by
  have missing : s.values.find? (fun e => e.1 = n) = none := by
    rw [List.find?_eq_none]
    intro entry member same
    refine apart ?_
    rw [Space.Above, ← laid, ← decide_eq_true_eq.mp same]
    exact List.mem_map_of_mem member
  simp only [get, missing]

theorem get_of_below (laid : s.Laid) {n : String} (atop : s.space.Above s.root n)
    (apart : n ≠ s.root) : s.get n = s.below := by
  rw [get_of_not_above laid fun higher => apart (grown.above_antisymm higher atop),
    if_pos ((s.space.covers_iff s.root n).mpr atop)]

theorem reroot_self (laid : s.Laid) : s.reroot s.root = s := by
  have values : (s.space.ancestors s.root).map (fun n => (n, s.get n)) = s.values := by
    rw [← laid, List.map_map]
    exact map_eq_self fun entry member => by
      simp only [Function.comp_apply, get_of_mem grown laid member]
  simp only [reroot, values]

theorem get_reroot {a m : String} (laid : s.Laid) (atop : s.space.Above s.root a)
    (among : s.space.Above m a ∨ s.space.Above a m) : (s.reroot a).get m = s.get m := by
  by_cases higher : s.space.Above m a
  · have member : (m, s.get m) ∈ (s.reroot a).values := List.mem_map_of_mem higher
    exact get_of_mem (s := s.reroot a) grown (s.reroot_laid a) member
  · -- Below the new root, and so below the old one: both have one fraction for all of that.
    have lower := among.resolve_left higher
    have apart : m ≠ a := fun same => higher (same ▸ grown.above_refl a)
    have strict : m ≠ s.root := by
      intro same
      rw [same] at lower higher
      exact higher atop
    rw [get_of_below (s := s.reroot a) grown (s.reroot_laid a) lower apart,
      get_of_below grown laid (grown.above_trans atop lower) strict]
    rfl

theorem reroot_reroot {a b : String} (laid : s.Laid) (atop : s.space.Above s.root a)
    (further : s.space.Above a b) : (s.reroot a).reroot b = s.reroot b := by
  have values : (s.space.ancestors b).map (fun n => (n, (s.reroot a).get n)) =
      (s.space.ancestors b).map fun n => (n, s.get n) := by
    refine List.map_congr_left fun m member => ?_
    rw [get_reroot grown laid atop (grown.above_total member further)]
  change
    Shares.mk s.space b ((s.space.ancestors b).map fun n => (n, (s.reroot a).get n)) s.below = _
  rw [values]
  rfl

theorem rootValue_reroot (n : String) : (s.reroot n).rootValue = s.get n := by
  simp [rootValue, reroot, List.head?_map, grown.head_ancestors]

end Nodes

section Combining

variable (s t : Shares) {both : Fraction → Fraction → LedgerM Fraction}

/-- What holds of the fractions that two shares were combined from and of the outcome. -/
structure Combined (s t : Shares) (holds : Fraction → Fraction → Fraction → Prop) (r : Shares) :
    Prop where
  space : r.space = s.space
  root : r.root = s.root
  values : List.Forall₂ (fun old new => new.1 = old.1 ∧ holds old.2 (t.get old.1) new.2) s.values
    r.values
  below : holds s.below t.below r.below

theorem combine_reveals {value : Term → V} {holds : Fraction → Fraction → Fraction → Prop}
    (reveals : ∀ f g, Reveals value (both f g) (holds f g)) :
    Reveals value (s.combine t both) (Combined s t holds) := by
  unfold combine
  refine (Reveals.mapM s.values fun entry _ => ?_).bind fun values =>
    (reveals _ _).bind fun below => .pure fun lowest others => ⟨rfl, rfl, others, lowest⟩
  exact (reveals _ _).bind fun f => .pure fun known => ⟨rfl, known⟩

theorem combine_carries {σ : Type} {cargo : Cargo σ}
    {before : Fraction → Fraction → Nat → σ → Prop}
    {after : Fraction → Fraction → Fraction → Nat → σ → Prop}
    (first : ∀ f g, cargo.Keeps (before f g)) (second : ∀ f g h, cargo.Keeps (after f g h))
    (carries : ∀ f g, Carries cargo (before f g) (both f g) (after f g)) :
    Carries cargo (fun n c => (∀ entry ∈ s.values, before entry.2 (t.get entry.1) n c) ∧
        before s.below t.below n c)
      (s.combine t both) fun r n c => Combined s t (fun f g h => after f g h n c) r := by
  let ready (n : Nat) (c : σ) : Prop := ∀ entry ∈ s.values, before entry.2 (t.get entry.1) n c
  have lasting : cargo.Keeps ready := fun more agree all entry member =>
    first _ _ more agree (all entry member)
  have kept (old new : String × Fraction) : cargo.Keeps fun n c =>
      new.1 = old.1 ∧ after old.2 (t.get old.1) new.2 n c :=
    fun more agree both => ⟨both.1, second _ _ _ more agree both.2⟩
  have each : Carries cargo ready (s.values.mapM fun entry => do
      return (entry.1, ← both entry.2 (t.get entry.1))) fun values n c =>
        List.Forall₂ (fun old new => new.1 = old.1 ∧ after old.2 (t.get old.1) new.2 n c)
          s.values values := by
    refine .mapM lasting kept s.values fun entry member => ?_
    refine ((carries _ _).mono (fun n c all => all entry member) fun _ _ _ => id).bind
      fun f => ?_
    exact .pure fun n c known => ⟨rfl, known⟩
  -- The fraction below comes last, so what was found for the nodes has to last that long.
  refine (each.frame (first s.below t.below)).bind fun values => ?_
  have others : cargo.Keeps fun n c =>
      List.Forall₂ (fun old new => new.1 = old.1 ∧ after old.2 (t.get old.1) new.2 n c)
        s.values values :=
    fun more agree all => all.imp fun old new => kept old new more agree
  refine (((carries s.below t.below).frame others).mono (fun n c both => ⟨both.2, both.1⟩)
    fun _ _ _ => id).bind fun below => ?_
  exact .pure fun n c both => ⟨rfl, rfl, both.2, both.1⟩

theorem Combined.laid {s t r : Shares} {holds : Fraction → Fraction → Fraction → Prop}
    (combined : Combined s t holds r) (laid : s.Laid) : r.Laid := by
  have nodes : r.values.map Prod.fst = s.values.map Prod.fst :=
    map_eq_of_forall₂ Prod.fst Prod.fst (combined.values.imp fun _ _ both => both.1)
  rw [Laid, nodes, combined.space, combined.root]
  exact laid

end Combining

section Tabulating

variable (space : Space) (root : String) {above : String → LedgerM Fraction}
  {below : LedgerM Fraction}

/-- What holds of the fractions that were worked out for the nodes. -/
structure Tabulated (space : Space) (root : String) (holds : String → Fraction → Prop)
    (lowest : Fraction → Prop) (r : Shares) : Prop where
  space : r.space = space
  root : r.root = root
  laid : r.Laid
  values : ∀ entry ∈ r.values, holds entry.1 entry.2
  below : lowest r.below

theorem tabulated_of_forall₂ {holds : String → Fraction → Prop} {lowest : Fraction → Prop}
    {values : List (String × Fraction)} {f : Fraction}
    (paired : List.Forall₂ (fun n entry => entry.1 = n ∧ holds n entry.2) (space.ancestors root)
      values) (last : lowest f) : Tabulated space root holds lowest ⟨space, root, values, f⟩ := by
  have both : values.map Prod.fst = space.ancestors root ∧
      ∀ entry ∈ values, holds entry.1 entry.2 := by
    generalize space.ancestors root = nodes at paired
    induction paired with
    | nil => exact ⟨rfl, nofun⟩
    | @cons n entry _ _ here _ ih =>
        refine ⟨by rw [List.map_cons, here.1, ih.1], fun other member => ?_⟩
        rcases List.mem_cons.mp member with rfl | later
        · exact here.1 ▸ here.2
        · exact ih.2 other later
  exact ⟨rfl, rfl, both.1, both.2, last⟩

theorem tabulate_reveals {value : Term → V} {holds : String → Fraction → Prop}
    {lowest : Fraction → Prop} (each : ∀ n, Reveals value (above n) (holds n))
    (last : Reveals value below lowest) :
    Reveals value (tabulate space root above below) (Tabulated space root holds lowest) := by
  unfold tabulate
  refine (Reveals.mapM (space.ancestors root) fun n _ => ?_).bind fun values => last.bind fun f =>
    .pure fun known paired => tabulated_of_forall₂ space root paired known
  exact (each n).bind fun f => .pure fun known => ⟨rfl, known⟩

theorem tabulate_carries {σ : Type} {cargo : Cargo σ} {before : String → Nat → σ → Prop}
    {start : Nat → σ → Prop} {after : String → Fraction → Nat → σ → Prop}
    {lowest : Fraction → Nat → σ → Prop} (first : ∀ n, cargo.Keeps (before n))
    (lasts : cargo.Keeps start) (second : ∀ n f, cargo.Keeps (after n f))
    (each : ∀ n, Carries cargo (before n) (above n) (after n))
    (last : Carries cargo start below lowest) :
    Carries cargo (fun m c => (∀ n ∈ space.ancestors root, before n m c) ∧ start m c)
      (tabulate space root above below) fun r m c =>
        Tabulated space root (fun n f => after n f m c) (fun f => lowest f m c) r := by
  let ready (m : Nat) (c : σ) : Prop := ∀ n ∈ space.ancestors root, before n m c
  have lasting : cargo.Keeps ready :=
    fun more agree all n member => first n more agree (all n member)
  have kept (n : String) (entry : String × Fraction) : cargo.Keeps fun m c =>
      entry.1 = n ∧ after n entry.2 m c :=
    fun more agree both => ⟨both.1, second _ _ more agree both.2⟩
  have values : Carries cargo ready ((space.ancestors root).mapM fun n => do return (n, ← above n))
      fun values m c => List.Forall₂ (fun n entry => entry.1 = n ∧ after n entry.2 m c)
        (space.ancestors root) values := by
    refine .mapM lasting kept _ fun n member => ?_
    refine ((each n).mono (fun m c all => all n member) fun _ _ _ => id).bind fun f => ?_
    exact .pure fun m c known => ⟨rfl, known⟩
  -- What is known of the nodes outlives the drawing of the last fraction.
  refine (values.frame lasts).bind fun values => ?_
  have others : cargo.Keeps fun m c =>
      List.Forall₂ (fun n entry => entry.1 = n ∧ after n entry.2 m c) (space.ancestors root)
        values :=
    fun more agree all => all.imp fun n entry => kept n entry more agree
  refine ((last.frame others).mono (fun m c both => ⟨both.2, both.1⟩) fun _ _ _ => id).bind
    fun f => ?_
  exact .pure fun m c both => tabulated_of_forall₂ space root both.2 both.1

end Tabulating

end Shares

/-- Every fraction of a request fits into the one held at its node, in the sense given. -/
def Request.FitsIn (fits : Fraction → Fraction → Prop) (q : Request) (s : Shares) : Prop :=
  (∀ entry ∈ s.values, fits (q.permission.shares.get entry.1) entry.2) ∧
    fits q.permission.shares.below s.below

theorem Request.FitsIn.imp {fits other : Fraction → Fraction → Prop} {q : Request} {s : Shares}
    (weaken : ∀ f g, fits f g → other f g) (inside : q.FitsIn fits s) : q.FitsIn other s :=
  ⟨fun entry member => weaken _ _ (inside.1 entry member), weaken _ _ inside.2⟩

namespace Permission

theorem split_divides {value : Term → V} (distinct : value (.single .zero) ≠ value (.single .one))
    (p : Permission) (q : Request) (s : Solution) :
    Reveals value (p.split q s) fun remainder => (p.kind s).split q.kind ≠ .impossible ∧
      ∃ rest, Shares.Combined p.shares q.permission.shares (Divided value) rest ∧
        ∀ r, remainder = some r → r.shares = rest := by
  have parts := p.shares.combine_reveals q.permission.shares (splitFraction_divides distinct)
  unfold split
  cases (p.kind s).split q.kind with
  | impossible =>
      refine (Reveals.demand fun cs met => ?_).bind fun _ => .pure id
      exact absurd met (Constraints.not_metBy_declareImpossible _)
  | nothing => exact parts.bind fun rest => .pure fun divided => ⟨nofun, rest, divided, nofun⟩
  | kind k =>
      refine parts.bind fun rest => .pure fun divided => ⟨nofun, rest, divided, ?_⟩
      rintro r ⟨⟩
      rfl

theorem split_reveals {value : Term → V} (distinct : value (.single .zero) ≠ value (.single .one))
    (p : Permission) (q : Request) (s : Solution) :
    Reveals value (p.split q s) fun _ =>
      (p.kind s).split q.kind ≠ .impossible ∧ q.FitsIn (Fits value) p.shares := by
  refine (p.split_divides distinct q s).mono ?_
  rintro _ ⟨allowed, rest, divided, -⟩
  refine ⟨allowed, fun entry member => ?_, divided.below.taken⟩
  obtain ⟨_, -, -, parts⟩ := exists_right_of_forall₂ divided.values member
  exact parts.taken

theorem combine_admits (p : Permission) (q : Request) :
    Admits (fun n (value : Term → V) => q.FitsIn (Fitting · · n value) p.shares)
      (p.shares.combine q.permission.shares splitFraction) fun rest n value =>
        Shares.Combined p.shares q.permission.shares (Rests · · · n value) rest :=
  p.shares.combine_carries _ (fun f g => Fitting.lasting g f) Rests.lasting splitFraction_admits

theorem split_admits (p : Permission) (q : Request) (s : Solution)
    (allowed : (p.kind s).split q.kind ≠ .impossible) :
    Admits (fun n (value : Term → V) => q.FitsIn (Fitting · · n value) p.shares) (p.split q s)
      fun _ _ _ => True := by
  have parts := p.combine_admits q (V := V)
  unfold split
  cases outcome : (p.kind s).split q.kind with
  | impossible => exact absurd outcome allowed
  | nothing => exact parts.bind fun _ => .pure fun _ _ _ => trivial
  | kind k => exact parts.bind fun _ => .pure fun _ _ _ => trivial

/-- A whole fits into all the parts it was put together from. -/
structure IsWhole (value : Term → V) (root : String) (parts : List Permission) (w : Permission) :
    Prop where
  root : w.root = root
  laid : w.shares.Laid
  readOnly : w.readOnly = parts.any Permission.readOnly
  values : ∀ entry ∈ w.shares.values, ∀ p ∈ parts, Fits value entry.2 (p.shares.get entry.1)
  below : ∀ p ∈ parts, Fits value w.shares.below p.shares.below

theorem combineUp_reveals {value : Term → V} (root : String) (parts : List Permission) :
    Reveals value (combineUp root parts) fun whole =>
      ∀ w, whole = some w → IsWhole value root parts w := by
  cases parts with
  | nil => exact .pure nofun
  | cons first rest =>
      refine .ite (fun _ => .pure nofun) fun _ => ?_
      have weakened (change : Permission → Fraction) :
          Reveals value (weaken (change first) (rest.map change)) fun f =>
            ∀ p ∈ first :: rest, Fits value f (change p) := by
        refine (weaken_reveals _ _).mono fun f fits p member => ?_
        exact fits _ (by simpa using List.mem_map_of_mem (f := change) member)
      refine (Shares.tabulate_reveals _ _ (fun n => weakened (·.shares.get n))
        (weakened (·.shares.below))).bind fun shares => .pure ?_
      rintro made w ⟨⟩
      exact ⟨made.root, made.laid, rfl, made.values, made.below⟩

/-- The kind of what parts are put together to, as far as a solution can tell. -/
def combinedKind (s : Solution) (root : String) (parts : List Permission) : Kind :=
  if parts.any readOnly then
    if tells (s.isZero ·) (parts.map (·.shares.below)) then .pure else .immutable
  else if tells (s.isOne ·) (parts.map (·.shares.below)) then
    if tells (s.isOne ·) (parts.map (·.shares.get root)) then .unique else .full
  else .share

theorem isReadOnly_combinedKind (s : Solution) (root : String) (parts : List Permission) :
    (combinedKind s root parts).isReadOnly = parts.any readOnly := by
  unfold combinedKind
  split
  · next readOnly =>
      rw [readOnly]
      split <;> rfl
  · next writable =>
      rw [Bool.not_eq_true] at writable
      rw [writable]
      split
      · split <;> rfl
      · rfl

/-- A whole of which a solution can tell as much as of the parts together. -/
structure IsCombined (s : Solution) (space : Space) (root : String) (parts : List Permission)
    (w : Permission) : Prop where
  space : w.space = space
  root : w.root = root
  laid : w.shares.Laid
  readOnly : w.readOnly = parts.any Permission.readOnly
  values : ∀ entry ∈ w.shares.values, StandsFor s (parts.map (·.shares.get entry.1)) entry.2
  below : StandsFor s (parts.map (·.shares.below)) w.shares.below

theorem combineUp_tabulates {σ : Type} {cargo : Cargo σ} (root : String) {first : Permission}
    {rest : Pool} {before : String → Nat → σ → Prop} {start : Nat → σ → Prop}
    {after : String → Fraction → Nat → σ → Prop} {lowest : Fraction → Nat → σ → Prop}
    (ready : ∀ n, cargo.Keeps (before n)) (lasts : cargo.Keeps start)
    (kept : ∀ n f, cargo.Keeps (after n f))
    (each : ∀ n, Carries cargo (before n)
      (weaken (first.shares.get n) (rest.map (·.shares.get n))) (after n))
    (last : Carries cargo start (weaken first.shares.below (rest.map (·.shares.below))) lowest)
    (some : first.space.dimensions root ≠ [])
    (count : (first.space.dimensions root).length = (first :: rest).length)
    (all : ∀ d ∈ first.space.dimensions root, ∃ p ∈ first :: rest, p.root = d) :
    Carries cargo (fun m c => (∀ n ∈ first.space.ancestors root, before n m c) ∧ start m c)
      (combineUp root (first :: rest)) fun whole m c => ∃ shares,
        Shares.Tabulated first.space root (fun n f => after n f m c) (fun f => lowest f m c)
          shares ∧
        whole = .some (make shares ((first :: rest).any readOnly) first.frame
          ((first :: rest).flatMap states)) := by
  -- The parts are exactly the dimensions, so none of the ways to refuse applies.
  have guard : ¬((first.space.dimensions root).isEmpty ||
      (first.space.dimensions root).length != (first :: rest).length ||
      !(first.space.dimensions root).all fun d => (first :: rest).any fun p => p.root == d) =
        true := by
    simp only [Bool.or_eq_true, not_or, List.isEmpty_iff, bne_iff_ne, Bool.not_eq_true',
      Bool.not_eq_false, List.all_eq_true, List.any_eq_true, beq_iff_eq]
    exact ⟨⟨some, fun different => different count⟩, all⟩
  simp only [combineUp, if_neg guard]
  refine (Shares.tabulate_carries _ _ ready lasts kept each last).bind fun shares => ?_
  exact .pure fun m c made => ⟨shares, made, rfl⟩

theorem combineUp_admits (s : Solution) (root : String) (q : Request) {first : Permission}
    {rest : Pool} (some : first.space.dimensions root ≠ [])
    (count : (first.space.dimensions root).length = (first :: rest).length)
    (all : ∀ d ∈ first.space.dimensions root, ∃ p ∈ first :: rest, p.root = d) :
    Admits (fun m (value : Term → V) =>
        (∀ n ∈ first.space.ancestors root, s.Silent m ∧ ∀ p ∈ first :: rest,
          Fitting (q.permission.shares.get n) (p.shares.get n) m value) ∧ s.Silent m ∧
        ∀ p ∈ first :: rest, Fitting q.permission.shares.below p.shares.below m value)
      (combineUp root (first :: rest)) fun whole m value =>
        ∃ w, whole = .some w ∧ IsCombined s first.space root (first :: rest) w ∧
          q.FitsIn (Fitting · · m value) w.shares := by
  have weakened (f : Fraction) (change : Permission → Fraction) :
      Admits (fun m (value : Term → V) =>
          s.Silent m ∧ ∀ p ∈ first :: rest, Fitting f (change p) m value)
        (weaken (change first) (rest.map change)) fun w m value =>
          Fitting f w m value ∧ StandsFor s ((first :: rest).map change) w := by
    refine ((weaken_admits f _ _).mono (fun m value start g member => ?_) fun _ _ _ => id).results
      fun l value start => weaken_standsFor start.1 _ _
    obtain ⟨p, among, rfl⟩ := List.mem_map.mp (List.map_cons (f := change) ▸ member)
    exact start.2 p among
  have lasting (f : Fraction) (change : Permission → Fraction) :
      Lasting fun m (value : Term → V) =>
        s.Silent m ∧ ∀ p ∈ first :: rest, Fitting f (change p) m value :=
    fun more agree start => ⟨start.1.mono more,
      fun p member => Fitting.lasting _ _ more agree (start.2 p member)⟩
  have kept (f w : Fraction) (change : Permission → Fraction) :
      Lasting fun m (value : Term → V) =>
        Fitting f w m value ∧ StandsFor s ((first :: rest).map change) w :=
    fun more agree known => ⟨Fitting.lasting f w more agree known.1, known.2⟩
  let asked := q.permission.shares
  refine (combineUp_tabulates root (fun n => lasting (asked.get n) (·.shares.get n))
    (lasting asked.below (·.shares.below)) (fun n f => kept (asked.get n) f (·.shares.get n))
    (fun n => weakened (asked.get n) (·.shares.get n))
    (weakened asked.below (·.shares.below)) some count all).mono (fun _ _ => id) ?_
  rintro _ m value ⟨shares, made, rfl⟩
  exact ⟨_, rfl, ⟨made.space, made.root, made.laid, rfl,
      fun entry member => (made.values entry member).2, made.below.2⟩,
    fun entry member => (made.values entry member).1, made.below.1⟩

end Permission

end Typestate
