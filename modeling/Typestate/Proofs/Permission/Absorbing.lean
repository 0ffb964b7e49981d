import Typestate.Proofs.Permission.Dividing
import Typestate.Proofs.Permission.Growth
import Typestate.Proofs.Space.Relations

set_option autoImplicit false

/-!
Adding a permission to a pool. It is divided as long as old permissions lie below it, which ends at
the bottom of the space. What the old ones were for and what the new one is for beside them is
covered afterwards. A permission for a state that excludes an old one is left out, but never
silently.
-/

namespace Typestate

open Permission

namespace Space

variable {s : Space}

/-- The nodes are on one way up, or an object can be in both. -/
def Compatible (s : Space) (a b : String) : Prop := s.Related a b ∨ s.orthogonal a b = true

instance (s : Space) (a b : String) : Decidable (s.Compatible a b) :=
  inferInstanceAs
    (Decidable ((s.covers a b = true ∨ s.covers b a = true) ∨ s.orthogonal a b = true))

/-- Every one of the nodes lies below the given one or beside it. -/
def Clear (s : Space) (n : String) (nodes : List String) : Prop :=
  ∀ o ∈ nodes, s.Above n o ∨ s.Parted n o

/-- Orthogonal nodes that have come from old ones by adding what lies below some new ones. -/
structure Absorbs (s : Space) (old new next : List String) : Prop where
  apart : next.Pairwise s.Parted
  kept : old ⊆ next
  only : ∀ r ∈ next, r ∈ old ∨ ∃ n ∈ new, s.Above n r
  reached : ∀ n ∈ new, ∀ m, s.Above n m → (∀ o ∈ old, s.Compatible o m) →
    ∃ r ∈ next, s.Related r m

theorem Absorbs.nil {old : List String} (apart : old.Pairwise s.Parted) : s.Absorbs old [] old :=
  ⟨apart, List.Subset.refl _, fun _ member => .inl member, fun _ none => by cases none⟩

theorem Absorbs.of_mem {old : List String} (apart : old.Pairwise s.Parted) {n : String}
    (member : n ∈ old) : s.Absorbs old [n] old := by
  refine ⟨apart, List.Subset.refl _, fun _ inside => .inl inside, fun n' among m below _ => ?_⟩
  rw [List.mem_singleton.mp among] at below
  exact ⟨n, member, .inl ((s.covers_iff n m).mpr below)⟩

theorem Absorbs.perm {old old' new next next' : List String} (absorbs : s.Absorbs old new next)
    (before : old.Perm old') (after : next.Perm next') : s.Absorbs old' new next' := by
  refine ⟨absorbs.apart.perm after Parted.symm, fun o member => ?_, fun r member => ?_,
    fun n among m below fits => ?_⟩
  · exact after.mem_iff.mp (absorbs.kept (before.mem_iff.mpr member))
  · rw [← before.mem_iff]
    exact absorbs.only r (after.mem_iff.mpr member)
  · obtain ⟨r, member, related⟩ := absorbs.reached n among m below
      fun o member => fits o (before.mem_iff.mp member)
    exact ⟨r, after.mem_iff.mp member, related⟩

theorem parted_of_mem {nodes : List String} (apart : nodes.Pairwise s.Parted) {a b : String}
    (first : a ∈ nodes) (second : b ∈ nodes) (different : a ≠ b) : s.Parted a b := by
  have symmetric : Std.Symm s.Parted := ⟨fun _ _ => Parted.symm⟩
  exact apart.forall first second different

theorem length_ancestors_le (s : Space) (n : String) :
    (s.ancestors n).length ≤ s.added.length + 2 := by
  unfold ancestors
  induction s.added generalizing n with
  | nil =>
      unfold ancestorsAmong
      split <;> simp
  | cons e earlier ih =>
      unfold ancestorsAmong
      split
      · simpa using ih e.parent
      · exact Nat.le_succ_of_le (ih n)

section Absorbing

variable (grown : s.Grown)

include grown

theorem Grown.length_ancestors_lt {upper n : String} (atop : s.Above upper n) (apart : upper ≠ n) :
    (s.ancestors upper).length < (s.ancestors n).length := by
  by_contra longer
  exact apart (grown.eq_of_above_of_length_le atop (Nat.le_of_not_lt longer))

theorem Grown.compatible_iff {a b : String} :
    s.Compatible a b ↔ s.Above a b ∨ s.Above b a ∨ s.Parted a b := by
  rw [Compatible, Related, covers_iff, covers_iff, grown.orthogonal_iff, or_assoc]

theorem Grown.clear_of_above {nodes : List String} (apart : nodes.Pairwise s.Parted)
    {a n : String} (member : a ∈ nodes) (atop : s.Above n a) : s.Clear n nodes := by
  intro o other
  by_cases same : a = o
  · exact .inl (same ▸ atop)
  · exact (grown.above_or_parted (parted_of_mem apart member other same) atop).imp_right
      Parted.symm

theorem Grown.compatible_of_clear {nodes : List String} {n o : String} (clear : s.Clear n nodes)
    (member : o ∈ nodes) : s.Compatible o n := by
  rw [grown.compatible_iff]
  exact .inr ((clear o member).imp_right Parted.symm)

theorem Grown.compatible_of_below {nodes : List String} (apart : nodes.Pairwise s.Parted)
    {a n o : String} (member : a ∈ nodes) (atop : s.Above a n) (other : o ∈ nodes) :
    s.Compatible o n := by
  rw [grown.compatible_iff]
  by_cases same : a = o
  · exact .inl (same ▸ atop)
  · exact .inr (.inr (grown.parted_mono (parted_of_mem apart member other same) atop
      (grown.above_refl o)).symm)

theorem Grown.above_or_parted_sibling {a b c d : String} (parted : s.Parted a b)
    (atop : s.Above c a) (sibling : d ∈ siblings s c) : s.Above d b ∨ s.Parted d b := by
  obtain ⟨dimC, dimD, parent, apart⟩ := grown.mem_siblings_iff.mp sibling
  rcases grown.above_or_parted parted atop with below | ⟨y, x, dimY, dimX, parents, apartX, overB,
    overC⟩
  · exact .inr ⟨d, c, dimD, dimC, parent, apart, grown.above_refl d, below⟩
  · rcases (grown.above_iff_of_ne (grown.ne_alive_of_isDimension dimC)).mp overC with rfl | higher
    · -- The ways part at siblings, of which this may be the other one.
      by_cases same : d = y
      · exact .inl (same ▸ overB)
      · exact .inr ⟨d, y, dimD, dimY, parent.trans parents.symm, same, grown.above_refl d, overB⟩
    · rw [← parent] at higher
      exact .inr ⟨x, y, dimX, dimY, parents.symm, apartX.symm,
        grown.above_trans higher (grown.above_parentOf d), overB⟩

theorem Grown.clear_sibling {nodes : List String} (apart : nodes.Pairwise s.Parted)
    {a upper d : String} (member : a ∈ nodes) {way : List String}
    (shape : s.ancestors a = way ++ s.ancestors upper) (sibling : d ∈ way.flatMap (siblings s)) :
    s.Clear d nodes := by
  intro o other
  by_cases same : a = o
  · rw [← same]
    exact .inr ((grown.siblings_parted shape).2 d sibling).1.symm
  · obtain ⟨c, onWay, beside⟩ := List.mem_flatMap.mp sibling
    have atop : s.Above c a := by
      rw [Above, shape]
      exact List.mem_append_left _ onWay
    exact grown.above_or_parted_sibling (parted_of_mem apart member other same) atop beside

theorem Grown.absorbs_new {old : List String} (apart : old.Pairwise s.Parted) {n : String}
    (beside : ∀ o ∈ old, s.Parted n o) : s.Absorbs old [n] (n :: old) := by
  refine ⟨List.pairwise_cons.mpr ⟨beside, apart⟩, List.subset_cons_self n old, fun r member => ?_,
    fun n' among m below _ => ?_⟩
  · rcases List.mem_cons.mp member with rfl | inside
    · exact .inr ⟨r, List.mem_singleton_self r, grown.above_refl r⟩
    · exact .inl inside
  · rw [List.mem_singleton.mp among] at below
    exact ⟨n, List.mem_cons_self, .inl ((s.covers_iff n m).mpr below)⟩

theorem Absorbs.clear {old next : List String} {d n : String} (absorbs : s.Absorbs old [d] next)
    (clear : s.Clear n old) (parted : s.Parted d n) : s.Clear n next := by
  intro r member
  rcases absorbs.only r member with inside | ⟨d', among, below⟩
  · exact clear r inside
  · rw [List.mem_singleton.mp among] at below
    exact .inr (grown.parted_mono parted below (grown.above_refl n)).symm

theorem Absorbs.cons {old middle next new : List String} {d : String}
    (first : s.Absorbs old [d] middle) (others : s.Absorbs middle new next)
    (beside : ∀ n ∈ new, s.Parted d n) : s.Absorbs old (d :: new) next := by
  refine ⟨others.apart, List.Subset.trans first.kept others.kept, fun r member => ?_,
    fun n among m below fits => ?_⟩
  · rcases others.only r member with inside | ⟨n, among, below⟩
    · rcases first.only r inside with old | ⟨n, among, below⟩
      · exact .inl old
      · exact .inr ⟨n, List.mem_cons.mpr (.inl (List.mem_singleton.mp among)), below⟩
    · exact .inr ⟨n, List.mem_cons_of_mem _ among, below⟩
  · rcases List.mem_cons.mp among with rfl | later
    · obtain ⟨r, member, related⟩ := first.reached n (List.mem_singleton_self n) m below fits
      exact ⟨r, others.kept member, related⟩
    · -- The nodes that came from the first one are orthogonal to all that is below the others.
      refine others.reached n later m below fun r member => ?_
      rcases first.only r member with old | ⟨d', among, lower⟩
      · exact fits r old
      · rw [List.mem_singleton.mp among] at lower
        have parted := grown.parted_mono (beside n later) lower below
        exact grown.compatible_iff.mpr (.inr (.inr parted))

/-- A node is added by adding the siblings along the way to an old node below it. -/
theorem Grown.absorbs_siblings {old next : List String} {a n : String} (member : a ∈ old)
    {way : List String} (shape : s.ancestors a = way ++ s.ancestors n)
    (absorbs : s.Absorbs old (way.flatMap (siblings s)) next) : s.Absorbs old [n] next := by
  refine ⟨absorbs.apart, absorbs.kept, fun r inside => ?_, fun n' among m below fits => ?_⟩
  · rcases absorbs.only r inside with old | ⟨d, sibling, lower⟩
    · exact .inl old
    · have higher := ((grown.siblings_parted shape).2 d sibling).2
      exact .inr ⟨n, List.mem_singleton_self n, grown.above_trans higher lower⟩
  · rw [List.mem_singleton.mp among] at below
    rcases fits a member with related | orthogonal
    · exact ⟨a, absorbs.kept member, related⟩
    · have parted := (grown.orthogonal_iff a m).mp orthogonal
      obtain ⟨d, sibling, overM⟩ := grown.exists_sibling_above shape parted below
      exact absorbs.reached d sibling m overM fits

end Absorbing

end Space

/-- Work that declares nothing impossible and whose result has a property. -/
def Quiet {α : Type} (work : LedgerM α) (property : α → Prop) : Prop :=
  ∀ l, property (work.run l).1 ∧ (work.run l).2.constraints.impossible = l.constraints.impossible

namespace Quiet

theorem pure {α : Type} {property : α → Prop} {a : α} (holds : property a) :
    Quiet (pure a) property := fun _ => ⟨holds, rfl⟩

theorem bind {α β : Type} {between : α → Prop} {after : β → Prop} {work : LedgerM α}
    {next : α → LedgerM β} (first : Quiet work between)
    (second : ∀ a, between a → Quiet (next a) after) : Quiet (work >>= next) after := by
  intro l
  obtain ⟨holds, same⟩ := first l
  obtain ⟨result, kept⟩ := second _ holds (work.run l).2
  exact ⟨result, kept.trans same⟩

theorem mono {α : Type} {first second : α → Prop} {work : LedgerM α} (quiet : Quiet work first)
    (weaker : ∀ a, first a → second a) : Quiet work second :=
  fun l => (quiet l).imp_left (weaker _)

end Quiet

theorem Permission.merge_quiet (p other : Permission) (s : Solution) :
    Quiet (p.merge other s) (Pool.Alike p) := by
  have fraction (reason : Option String) (f g : Fraction) :
      Keeps (fun l : Ledger => l.constraints.impossible = reason) (mergeFraction f g) := by
    refine .ite (.pure _) (.ite (.pure _) (.bind (fun _ same => same) fun _ =>
      .bind (fun l same => ?_) fun _ => .pure _))
    exact Constraints.impossible_addEqual.trans same
  intro l
  have keeps : Keeps (fun after => after.constraints.impossible = l.constraints.impossible)
      (p.merge other s) := (p.shares.combine_keeps other.shares (fraction _)).bind fun _ => .pure _
  exact ⟨Pool.merge_yields p other s l, keeps l rfl⟩

namespace Pool

/-- One level of adding a permission, where the given work adds what is left beside old ones. -/
def mergeStep (add : Pool → Permission → LedgerM Pool) (s : Solution) (pool : Pool)
    (p : Permission) : LedgerM Pool := do
  match pool.find? fun q => q.root == p.root with
  | some q => return pool.update (fun q => q.root == p.root) (← q.merge p s)
  | none =>
      match pool.extract? fun q => q.covers p.root with
      | some (q, others) =>
          let (part, rest) := q.moveDown p.root
          return others ++ rest ++ [← part.merge p s]
      | none =>
          match pool.extract? fun q => p.covers q.root with
          | some (q, others) =>
              let (part, rest) := p.moveDown q.root
              rest.foldlM add (others ++ [← q.merge part s])
          | none =>
              if pool.all fun q => p.space.orthogonal q.root p.root then return pool ++ [p]
              else pool.refuse p

theorem mergeWithin_succ (levels : Nat) (s : Solution) (pool : Pool) (p : Permission) :
    mergeWithin (levels + 1) s pool p = mergeStep (mergeWithin levels s) s pool p := rfl

end Pool

/-- One of the parts that are left when a permission is moved down. -/
def Permission.IsRestOf (part p : Permission) : Prop :=
  ∃ n, p.covers n = true ∧ n ≠ p.root ∧ part ∈ (p.moveDown n).2

namespace Pool

theorem mergeStep_congr {add other : Pool → Permission → LedgerM Pool} (s : Solution) (pool : Pool)
    {p : Permission} (same : ∀ part, part.IsRestOf p → ∀ pool, add pool part = other pool part) :
    mergeStep add s pool p = mergeStep other s pool p := by
  have fold (rest : List Permission) (parts : ∀ part ∈ rest, part.IsRestOf p) (pool : Pool) :
      rest.foldlM add pool = rest.foldlM other pool := by
    induction rest generalizing pool with
    | nil => rfl
    | cons part rest ih =>
        rw [List.foldlM_cons, List.foldlM_cons, same part (parts part List.mem_cons_self)]
        exact congrArg _ (funext (ih fun r later => parts r (List.mem_cons_of_mem _ later)))
  unfold mergeStep
  split
  · rfl
  · next missing =>
      split
      · rfl
      · split
        -- Only a permission above an old one is added in parts.
        · next q others found =>
            obtain ⟨held, atop⟩ := extract?_perm found
            have different : q.root ≠ p.root := by
              simpa using List.find?_eq_none.mp missing q (held.mem_iff.mpr List.mem_cons_self)
            have parts (part : Permission) (member : part ∈ (p.moveDown q.root).2) :
                part.IsRestOf p := ⟨q.root, atop, different, member⟩
            exact congrArg (q.merge (p.moveDown q.root).1 s >>= ·)
              (funext fun r => fold _ parts (others ++ [r]))
        · rfl

/-- Work that adds permissions over a space one level at a time, without a bound. -/
def Recurs (S : Space) (s : Solution) (add : Pool → Permission → LedgerM Pool) : Prop :=
  ∀ pool p, p.space = S → add pool p = mergeStep add s pool p

section Ending

variable {S : Space} (grown : S.Grown)

include grown

theorem deeper_of_isRestOf {part p : Permission} (space : p.space = S) (rest : part.IsRestOf p) :
    part.space = S ∧ (S.ancestors p.root).length < (S.ancestors part.root).length := by
  subst space
  obtain ⟨n, atop, apart, member⟩ := rest
  obtain ⟨below, parted⟩ := moveDown_rest grown atop apart member
  refine ⟨(moveDown_alike p n part member).1, grown.length_ancestors_lt below fun same => ?_⟩
  exact grown.not_above_of_parted (same ▸ parted) ((p.space.covers_iff p.root n).mp atop)

theorem acc_isRestOf {p : Permission} (space : p.space = S) : Acc Permission.IsRestOf p := by
  generalize room : S.added.length + 2 - (S.ancestors p.root).length = levels
  induction levels using Nat.strongRecOn generalizing p with
  | ind levels ih =>
      refine .intro p fun part rest => ?_
      obtain ⟨inside, deeper⟩ := deeper_of_isRestOf grown space rest
      have bound := S.length_ancestors_le part.root
      exact ih _ (by omega) inside rfl

/-- As many levels are enough as there can be below a node. -/
theorem mergeWithin_congr (s : Solution) {levels more : Nat} (pool : Pool) {p : Permission}
    (space : p.space = S) (enough : S.added.length + 3 ≤ levels + (S.ancestors p.root).length)
    (longer : levels ≤ more) : mergeWithin levels s pool p = mergeWithin more s pool p := by
  have bound := S.length_ancestors_le p.root
  induction levels generalizing more pool p with
  | zero => omega
  | succ levels ih =>
      cases more with
      | zero => omega
      | succ more =>
          rw [mergeWithin_succ, mergeWithin_succ]
          refine mergeStep_congr s pool fun part rest pool => ?_
          obtain ⟨inside, deeper⟩ := deeper_of_isRestOf grown space rest
          exact ih pool inside (by omega) (by omega) (S.length_ancestors_le part.root)

theorem merge_recurs (s : Solution) : Recurs S s (merge s) := by
  intro pool p space
  change mergeStep _ s pool p = _
  refine mergeStep_congr s pool fun part rest pool => ?_
  obtain ⟨inside, deeper⟩ := deeper_of_isRestOf grown space rest
  have start : 0 < (S.ancestors p.root).length := List.length_pos_of_mem (grown.above_refl p.root)
  rw [merge, inside, space]
  exact mergeWithin_congr grown s pool inside (by omega) (by omega)

theorem Recurs.eq {s : Solution} {add other : Pool → Permission → LedgerM Pool}
    (recurs : Recurs S s add) (others : Recurs S s other) {p : Permission} (space : p.space = S)
    (pool : Pool) : add pool p = other pool p := by
  induction acc_isRestOf grown space generalizing pool with
  | intro p _ ih =>
      rw [recurs pool p space, others pool p space]
      refine mergeStep_congr s pool fun part rest pool => ?_
      exact ih part rest (deeper_of_isRestOf grown space rest).1 pool

theorem recurs_iff {s : Solution} {add : Pool → Permission → LedgerM Pool} :
    Recurs S s add ↔ ∀ pool p, p.space = S → add pool p = merge s pool p := by
  constructor
  · intro recurs pool p space
    exact recurs.eq grown (merge_recurs grown s) space pool
  · intro same pool p space
    rw [same pool p space, merge_recurs grown s pool p space]
    refine mergeStep_congr s pool fun part rest pool => (same pool part ?_).symm
    exact (deeper_of_isRestOf grown space rest).1

end Ending

section Covering

variable {S : Space}

/-- Permissions over one space whose roots are orthogonal. -/
structure Separate (S : Space) (pool : Pool) : Prop where
  space : ∀ q ∈ pool, q.space = S
  apart : (pool.map Permission.root).Pairwise S.Parted

/-- A pool that has come from another one by adding permissions for some nodes. -/
structure Takes (S : Space) (pool : Pool) (new : List String) (next : Pool) : Prop where
  space : ∀ q ∈ next, q.space = S
  absorbs : S.Absorbs (pool.map Permission.root) new (next.map Permission.root)

theorem Takes.separate {pool next : Pool} {new : List String} (takes : Takes S pool new next) :
    Separate S next := ⟨takes.space, takes.absorbs.apart⟩

theorem root_mem {pool others : Pool} {q : Permission} (held : pool.Perm (q :: others)) :
    q.root ∈ pool.map Permission.root :=
  List.mem_map_of_mem (held.mem_iff.mpr List.mem_cons_self)

theorem Separate.replace {pool others next : Pool} {q r : Permission} (separate : Separate S pool)
    (held : pool.Perm (q :: others)) (alike : Alike q r) (after : next.Perm (r :: others)) :
    Separate S next ∧ (pool.map Permission.root).Perm (next.map Permission.root) := by
  have roots : (pool.map Permission.root).Perm (next.map Permission.root) := by
    have same : (q :: others).map Permission.root = (r :: others).map Permission.root := by
      rw [List.map_cons, List.map_cons, alike.root]
    exact (held.map _).trans (same ▸ (after.map _).symm)
  refine ⟨⟨fun p member => ?_, separate.apart.perm roots Space.Parted.symm⟩, roots⟩
  rcases List.mem_cons.mp (after.mem_iff.mp member) with rfl | other
  · exact alike.space.trans (separate.space q (held.mem_iff.mpr List.mem_cons_self))
  · exact separate.space p (held.mem_iff.mpr (List.mem_cons_of_mem _ other))

/-- The ways to add a permission to such a pool. -/
inductive MergeWay (S : Space) (add : Pool → Permission → LedgerM Pool) (s : Solution)
    (pool : Pool) (p : Permission) : LedgerM Pool → Prop
  | same {q : Permission} {put : Permission → Pool} (root : q.root = p.root)
      (placed : ∀ r, ∃ others, pool.Perm (q :: others) ∧ (put r).Perm (r :: others)) :
      MergeWay S add s pool p (q.merge p s >>= fun r => pure (put r))
  | under {q : Permission} {others : Pool} (held : pool.Perm (q :: others))
      (atop : S.Above q.root p.root) (apart : q.root ≠ p.root) :
      MergeWay S add s pool p ((q.moveDown p.root).1.merge p s >>= fun r =>
        pure (others ++ (q.moveDown p.root).2 ++ [r]))
  | above {q : Permission} {others : Pool} (held : pool.Perm (q :: others))
      (atop : S.Above p.root q.root) (apart : q.root ≠ p.root) :
      MergeWay S add s pool p (q.merge (p.moveDown q.root).1 s >>= fun r =>
        (p.moveDown q.root).2.foldlM add (others ++ [r]))
  | beside (parted : ∀ o ∈ pool.map Permission.root, S.Parted p.root o) :
      MergeWay S add s pool p (pure (pool ++ [p]))
  | refused {q : Permission} (member : q ∈ pool) (clash : ¬S.Compatible q.root p.root) :
      MergeWay S add s pool p (pool.refuse p)

variable (grown : S.Grown)

include grown

theorem Separate.mergeStep_way {pool : Pool} (separate : Separate S pool) {p : Permission}
    (space : p.space = S) (add : Pool → Permission → LedgerM Pool) (s : Solution) :
    MergeWay S add s pool p (mergeStep add s pool p) := by
  have covered (q : Permission) (member : q ∈ pool) :
      q.covers p.root = true ↔ S.Above q.root p.root := Permission.covers_iff (separate.space q member)
  have covers (q : Permission) : p.covers q.root = true ↔ S.Above p.root q.root :=
    Permission.covers_iff space
  unfold mergeStep
  split
  · next q found => exact .same (by simpa using List.find?_some found) (update_perm found)
  · next missing =>
      have different (q : Permission) (member : q ∈ pool) : q.root ≠ p.root := by
        simpa using List.find?_eq_none.mp missing q member
      split
      · next q others found =>
          obtain ⟨held, atop⟩ := extract?_perm found
          have member := held.mem_iff.mpr List.mem_cons_self
          exact .under held ((covered q member).mp atop) (different q member)
      · next lower =>
          split
          · next q others found =>
              obtain ⟨held, atop⟩ := extract?_perm found
              exact .above held ((covers q).mp atop)
                (different q (held.mem_iff.mpr List.mem_cons_self))
          · next higher =>
              rw [space]
              split
              · next orthogonal =>
                  refine .beside fun o among => ?_
                  obtain ⟨q, member, rfl⟩ := List.mem_map.mp among
                  have parted := List.all_eq_true.mp orthogonal q member
                  exact ((grown.orthogonal_iff _ _).mp parted).symm
              -- The permission is neither above nor below nor beside `q`.
              · next clash =>
                  simp only [List.all_eq_true, not_forall, Bool.not_eq_true] at clash
                  obtain ⟨q, member, apart⟩ := clash
                  refine .refused member ?_
                  rw [grown.compatible_iff, ← covered q member, ← covers q,
                    ← grown.orthogonal_iff, extract?_eq_none lower q member,
                    extract?_eq_none higher q member, apart]
                  simp

theorem foldlM_takes {add : Pool → Permission → LedgerM Pool} {rest : List Permission}
    (each : ∀ part ∈ rest, ∀ pool : Pool, Separate S pool →
      S.Clear part.root (pool.map Permission.root) →
      Quiet (add pool part) (Takes S pool [part.root]))
    (beside : (rest.map Permission.root).Pairwise S.Parted) {pool : Pool}
    (separate : Separate S pool)
    (clear : ∀ n ∈ rest.map Permission.root, S.Clear n (pool.map Permission.root)) :
    Quiet (rest.foldlM add pool) (Takes S pool (rest.map Permission.root)) := by
  induction rest generalizing pool with
  | nil => exact .pure ⟨separate.space, .nil separate.apart⟩
  | cons part rest ih =>
      rw [List.map_cons] at beside clear
      obtain ⟨first, later⟩ := List.pairwise_cons.mp beside
      rw [List.foldlM_cons]
      refine (each part List.mem_cons_self pool separate (clear _ List.mem_cons_self)).bind
        fun middle takes => ?_
      have others := ih (fun r member => each r (List.mem_cons_of_mem _ member)) later
        takes.separate fun n member =>
          takes.absorbs.clear grown (clear n (List.mem_cons_of_mem _ member)) (first n member)
      exact others.mono fun next taken =>
        ⟨taken.space, takes.absorbs.cons grown taken.absorbs first⟩

/-- A permission that no old one is above is added, if its parts are. -/
theorem mergeStep_takes {add : Pool → Permission → LedgerM Pool} (s : Solution) {pool : Pool}
    (separate : Separate S pool) {p : Permission} (space : p.space = S)
    (clear : S.Clear p.root (pool.map Permission.root))
    (each : ∀ part, part.IsRestOf p → ∀ pool : Pool, Separate S pool →
      S.Clear part.root (pool.map Permission.root) →
      Quiet (add pool part) (Takes S pool [part.root])) :
    Quiet (mergeStep add s pool p) (Takes S pool [p.root]) := by
  have way := separate.mergeStep_way grown space add s
  generalize mergeStep add s pool p = work at way ⊢
  cases way with
  | @same q put same placed =>
      refine (merge_quiet q p s).bind fun r alike => .pure ?_
      obtain ⟨others, held, after⟩ := placed r
      obtain ⟨next, roots⟩ := separate.replace held alike after
      have member := root_mem held
      rw [same] at member
      exact ⟨next.space, (Space.Absorbs.of_mem separate.apart member).perm (.refl _) roots⟩
  | @under q others held atop apart =>
      rcases clear q.root (root_mem held) with below | beside
      · exact absurd (grown.above_antisymm atop below) apart
      · exact absurd atop (grown.not_above_of_parted beside.symm)
  | @above q others held atop apart =>
      refine (merge_quiet q (p.moveDown q.root).1 s).bind fun r alike => ?_
      obtain ⟨next, roots⟩ := separate.replace held alike (List.perm_append_singleton r others)
      obtain ⟨way, beside, shape⟩ := Permission.beside_eq grown space atop apart.symm
      have parts : (p.moveDown q.root).2.map Permission.root = way.flatMap (siblings S) := by
        rw [← beside, moveDown, List.map_map]
        exact List.map_id _
      have lower : p.covers q.root = true := (Permission.covers_iff space).mpr atop
      have member := roots.mem_iff.mp (root_mem held)
      -- No old root is above a sibling of the way down to the one that was found.
      have fold : Quiet ((p.moveDown q.root).2.foldlM add (others ++ [r]))
          (Takes S (others ++ [r]) ((p.moveDown q.root).2.map Permission.root)) :=
        foldlM_takes grown (fun part inside => each part ⟨q.root, lower, apart, inside⟩)
          (parts ▸ (grown.siblings_parted shape).1) next
          fun d sibling => grown.clear_sibling next.apart member shape (parts ▸ sibling)
      refine fold.mono fun after takes => ⟨takes.space, ?_⟩
      have absorbs := takes.absorbs
      rw [parts] at absorbs
      exact (grown.absorbs_siblings member shape absorbs).perm roots.symm (.refl _)
  | beside parted =>
      refine .pure ⟨fun q member => ?_, ?_⟩
      · rcases List.mem_append.mp member with old | last
        · exact separate.space q old
        · rw [List.mem_singleton.mp last, space]
      · rw [List.map_append]
        exact (grown.absorbs_new separate.apart parted).perm (.refl _)
          (List.perm_append_singleton p.root _).symm
  | refused member clash =>
      exact absurd (grown.compatible_of_clear clear (List.mem_map_of_mem member)) clash

theorem merge_takes (s : Solution) {pool : Pool} (separate : Separate S pool) {p : Permission}
    (space : p.space = S) (clear : S.Clear p.root (pool.map Permission.root)) :
    Quiet (merge s pool p) (Takes S pool [p.root]) := by
  -- The pool changes with every part that is added, so it varies in the induction.
  induction acc_isRestOf grown space generalizing pool with
  | intro p _ ih =>
      rw [merge_recurs grown s pool p space]
      refine mergeStep_takes grown s separate space clear fun part rest pool known free => ?_
      exact ih part rest known (deeper_of_isRestOf grown space rest).1 free

/-- What a pool is for after a permission was added to it. -/
structure Covers (S : Space) (pool : Pool) (p : Permission) (next : Pool) : Prop where
  kept : ∀ q ∈ pool, q.root ∈ next.map Permission.root ∨
    q.covers p.root = true ∧ q.root ≠ p.root ∧
      ∀ part ∈ (q.moveDown p.root).1 :: (q.moveDown p.root).2,
        part.root ∈ next.map Permission.root
  covered : ∀ n, p.covers n = true → (∀ q ∈ pool, S.Compatible q.root n) →
    ∃ r ∈ next, r.space = S ∧ S.Related r.root n

omit grown in
theorem Takes.covers {pool next : Pool} {p : Permission} (space : p.space = S)
    (takes : Takes S pool [p.root] next) : Covers S pool p next := by
  refine ⟨fun q member => .inl (takes.absorbs.kept (List.mem_map_of_mem member)),
    fun n below fits => ?_⟩
  rw [Permission.covers_iff space] at below
  obtain ⟨root, among, related⟩ := takes.absorbs.reached p.root (List.mem_singleton_self _) n below
    fun o member => by
      obtain ⟨q, inside, rfl⟩ := List.mem_map.mp member
      exact fits q inside
  obtain ⟨r, member, rfl⟩ := List.mem_map.mp among
  exact ⟨r, member, takes.space r member, related⟩

theorem Separate.merge_cases (s : Solution) {pool : Pool} (separate : Separate S pool)
    {p : Permission} (space : p.space = S) :
    S.Clear p.root (pool.map Permission.root) ∨
      (∃ q others, pool.Perm (q :: others) ∧ S.Above q.root p.root ∧ q.root ≠ p.root ∧
        merge s pool p = (q.moveDown p.root).1.merge p s >>= fun r =>
          pure (others ++ (q.moveDown p.root).2 ++ [r])) ∨
      (∃ q ∈ pool, ¬S.Compatible q.root p.root) ∧ merge s pool p = pool.refuse p := by
  rw [merge_recurs grown s pool p space]
  have way := separate.mergeStep_way grown space (merge s) s
  generalize mergeStep (merge s) s pool p = work at way ⊢
  cases way with
  | same same placed =>
      obtain ⟨others, held, -⟩ := placed p
      exact .inl (grown.clear_of_above separate.apart (root_mem held)
        (same ▸ grown.above_refl p.root))
  | under held atop apart => exact .inr (.inl ⟨_, _, held, atop, apart, rfl⟩)
  | above held atop apart =>
      exact .inl (grown.clear_of_above separate.apart (root_mem held) atop)
  | beside parted => exact .inl fun o among => .inr (parted o among)
  | refused member clash => exact .inr (.inr ⟨⟨_, member, clash⟩, rfl⟩)

theorem merge_covers (s : Solution) {pool : Pool} (separate : Separate S pool) {p : Permission}
    (space : p.space = S) (fits : ∀ q ∈ pool, S.Compatible q.root p.root) :
    Quiet (merge s pool p) (Covers S pool p) := by
  rcases separate.merge_cases grown s space with clear | ⟨q, others, held, atop, apart, work⟩ |
    ⟨⟨q, member, clash⟩, -⟩
  · exact (merge_takes grown s separate space clear).mono fun next takes => takes.covers space
  · have member := held.mem_iff.mpr List.mem_cons_self
    have lower : q.covers p.root = true := (Permission.covers_iff (separate.space q member)).mpr atop
    rw [work]
    refine (merge_quiet (q.moveDown p.root).1 p s).bind fun r alike => .pure ?_
    have last : r ∈ others ++ (q.moveDown p.root).2 ++ [r] := by simp
    refine ⟨fun o inside => ?_, fun n below _ =>
      ⟨r, last, alike.space.trans (separate.space q member), .inl ?_⟩⟩
    -- All the parts of `q` are there, and `r` stands for the one with the new root.
    · rcases List.mem_cons.mp (held.mem_iff.mp inside) with rfl | other
      · refine .inr ⟨lower, apart, fun part among => ?_⟩
        rcases List.mem_cons.mp among with rfl | rest
        · exact List.mem_map.mpr ⟨r, last, alike.root⟩
        · exact List.mem_map_of_mem (by simp [rest])
      · exact .inl (List.mem_map_of_mem (by simp [other]))
    · rw [Permission.covers, space] at below
      exact alike.root.symm ▸ below
  · exact absurd (fits q member) clash

theorem merge_refuses (s : Solution) {pool : Pool} (separate : Separate S pool) {p : Permission}
    (space : p.space = S) {q : Permission} (member : q ∈ pool)
    (clash : ¬S.Compatible q.root p.root) : merge s pool p = pool.refuse p := by
  have among : q.root ∈ pool.map Permission.root := List.mem_map_of_mem member
  rcases separate.merge_cases grown s space with clear | ⟨above, others, held, atop, -, -⟩ |
    ⟨-, refused⟩
  · exact absurd (grown.compatible_of_clear clear among) clash
  · exact absurd (grown.compatible_of_below separate.apart (root_mem held) atop among) clash
  · exact refused

end Covering

/-- Adding a permission to a pool with orthogonal roots ends, and nothing else solves its recursion.
If the new root is compatible with all the old ones, nothing is declared impossible, every old root
stays or is moved down, and all that is below the new root and compatible with the old ones is
covered. Otherwise the pool stays as it is, and the conflict is declared. -/
theorem merge_ends_and_covers {S : Space} (built : S.Built) (s : Solution) {pool : Pool}
    (spaces : ∀ q ∈ pool, q.space = S)
    (orthogonal : S.allOrthogonal (pool.map Permission.root) = true) {p : Permission}
    (space : p.space = S) :
    Acc Permission.IsRestOf p ∧
    (∀ add, Recurs S s add ↔ ∀ pool p, p.space = S → add pool p = merge s pool p) ∧
    ∀ ledger next later, (merge s pool p).run ledger = (next, later) →
      ((∀ q ∈ pool, S.Compatible q.root p.root) →
        later.constraints.impossible = ledger.constraints.impossible ∧ Covers S pool p next) ∧
      ((∃ q ∈ pool, ¬S.Compatible q.root p.root) →
        later.constraints.impossible =
          ledger.constraints.impossible.or (some (pool.conflictReason p)) ∧ next = pool) := by
  have grown := built.grown
  have separate : Separate S pool := ⟨spaces, (grown.allOrthogonal_iff _).mp orthogonal⟩
  refine ⟨acc_isRestOf grown space, fun add => recurs_iff grown, fun ledger next later ran =>
    ⟨fun fits => ?_, ?_⟩⟩
  · obtain ⟨covers, kept⟩ := merge_covers grown s separate space fits ledger
    rw [ran] at covers kept
    exact ⟨kept, covers⟩
  · rintro ⟨q, member, clash⟩
    rw [merge_refuses grown s separate space member clash] at ran
    cases ran
    exact ⟨rfl, rfl⟩

end Pool

namespace Recorder

/-- Of the second gear and of a blank tape. -/
def pool : Pool := ["second", "blank"].map permission.reroot

/-- The power is divided at the gear and the rest of it at the tape, so the noise is left. A slow
recorder has no gears. -/
theorem merge_ends_and_covers_of_power :
    Acc Permission.IsRestOf permission ∧
      (∀ ledger next later,
        (pool.merge Constraints.empty.solution permission).run ledger = (next, later) →
          later.constraints.impossible = ledger.constraints.impossible ∧
            ∃ r ∈ next, r.space = draft.space ∧ draft.space.Related r.root "loud") ∧
      ∀ ledger next later,
        (pool.merge Constraints.empty.solution (permission.reroot "slow")).run ledger =
          (next, later) →
          later.constraints.impossible = ledger.constraints.impossible.or
            (some "permission for slow conflicts with existing permissions for second,blank") := by
  have spaces : ∀ q ∈ pool, q.space = draft.space := by
    intro q member
    obtain ⟨n, -, rfl⟩ := List.mem_map.mp member
    rfl
  obtain ⟨ends, -, covers⟩ := Pool.merge_ends_and_covers built Constraints.empty.solution spaces
    (by decide +kernel) (p := permission) rfl
  obtain ⟨-, -, refuses⟩ := Pool.merge_ends_and_covers built Constraints.empty.solution spaces
    (by decide +kernel) (p := permission.reroot "slow") rfl
  refine ⟨ends, fun ledger next later ran => ?_, fun ledger next later ran => ?_⟩
  · obtain ⟨quiet, held⟩ := (covers ledger next later ran).1 (by decide +kernel)
    exact ⟨quiet, held.covered "loud" (by decide +kernel) (by decide +kernel)⟩
  · exact ((refuses ledger next later ran).2 (by decide +kernel)).1

end Recorder

end Typestate
