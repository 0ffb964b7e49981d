import Typestate.Proofs.Permission.Splitting

set_option autoImplicit false

/-!
Splitting a request off a pool changes nothing for nodes that are orthogonal to the root of the
request: what is held above such a node still is, if only by a part of the old permission, and what
is held below it stays as it is.
-/

namespace Typestate

open Permission

namespace Space

variable {s : Space} (grown : s.Grown) {upper n other : String} {way : List String}
  (shape : s.ancestors n = way ++ s.ancestors upper) (parted : s.Parted n other)

include grown shape parted

/-- Of two orthogonal nodes below one node, the way down to one passes beside the other. -/
theorem Grown.exists_sibling_above (atop : s.Above upper other) :
    ∃ d ∈ way.flatMap (siblings s), s.Above d other := by
  obtain ⟨x, y, dimX, dimY, parents, apart, overN, overOther⟩ := parted
  rw [Above, shape, List.mem_append] at overN
  rcases overN with onWay | higher
  · exact ⟨y, List.mem_flatMap.mpr ⟨x, onWay,
      grown.mem_siblings_iff.mpr ⟨dimX, dimY, parents.symm, apart.symm⟩⟩, overOther⟩
  · -- Otherwise two dimensions of one state would lie above one node.
    exact absurd (grown.eq_of_parentOf_eq (grown.ne_alive_of_isDimension dimX)
      (grown.ne_alive_of_isDimension dimY) parents (grown.above_trans higher atop) overOther) apart

theorem Grown.not_above_sibling {d : String} (member : d ∈ way.flatMap (siblings s))
    (apart : other ≠ d) : ¬s.Above other d := by
  intro atop
  obtain ⟨c, onWay, sibling⟩ := List.mem_flatMap.mp member
  obtain ⟨-, dimD, parent, -⟩ := grown.mem_siblings_iff.mp sibling
  have higher := ((grown.above_iff_of_ne (grown.ne_alive_of_isDimension dimD)).mp atop).resolve_left
    apart
  rw [parent] at higher
  have overN : s.Above c n := by
    rw [Above, shape]
    exact List.mem_append_left _ onWay
  have reached := grown.above_trans (grown.above_trans higher (grown.above_parentOf c)) overN
  exact grown.not_above_of_parted parted.symm reached

end Space

/-- A permission that holds what another one holds from a lower root on. -/
structure Permission.IsPartOf (S : Space) (part p : Permission) : Prop where
  atop : S.Above p.root part.root
  readOnly : part.readOnly = p.readOnly
  shares : part.shares = p.shares.reroot part.root

/-- Permissions whose roots are orthogonal and that have a fraction for each node above them. -/
structure Pool.Orderly (S : Space) (frame : Bool) (pool : Pool) : Prop extends
    Pool.Tidy S frame pool where
  laid : ∀ p ∈ pool, p.shares.Laid

namespace Pool

variable {S : Space} {frame : Bool}

/-- The permissions for what lies strictly below a node. -/
def under (S : Space) (n : String) (pool : Pool) : Pool :=
  pool.filter fun p => S.covers n p.root && p.root != n

/-- Two pools that hold the same at a node and below it. -/
structure SameAt (S : Space) (n : String) (pool next : Pool) : Prop where
  kept : ∀ p ∈ pool, S.Above p.root n → ∃ part ∈ next, S.Above part.root n ∧ part.IsPartOf S p
  only : ∀ part ∈ next, S.Above part.root n → ∃ p ∈ pool, S.Above p.root n ∧ part.IsPartOf S p
  under : next.under S n = pool.under S n

theorem mem_under_iff {pool : Pool} {n : String} {p : Permission} :
    p ∈ pool.under S n ↔ p ∈ pool ∧ S.Above n p.root ∧ p.root ≠ n := by
  simp [Pool.under, Space.covers_iff]

theorem extract?_filter {test keep : Permission → Bool} {pool others : Pool} {p : Permission}
    (found : pool.extract? test = some (p, others)) (drops : keep p = false) :
    others.filter keep = pool.filter keep := by
  induction pool generalizing others with
  | nil => simp [extract?] at found
  | cons q rest ih =>
      unfold extract? at found
      split at found
      · cases found
        simp [drops]
      · obtain ⟨⟨p', others'⟩, inside, same⟩ := Option.map_eq_some_iff.mp found
        cases same
        rw [List.filter_cons, List.filter_cons, ih inside]

section SameAt

variable (grown : S.Grown) {pool : Pool} (orderly : pool.Orderly S frame) {n : String}

include grown

theorem not_under_of_parted {p : Permission} (parted : S.Parted p.root n) :
    (S.covers n p.root && p.root != n) = false := by
  have notOver := grown.not_above_of_parted parted.symm
  rw [← S.covers_iff] at notOver
  simp [notOver]

include orderly

theorem Orderly.isPartOf_self {p : Permission} (member : p ∈ pool) : p.IsPartOf S p := by
  have space : p.shares.space.Grown := by
    rw [← orderly.space p member] at grown
    exact grown
  exact ⟨grown.above_refl _, rfl, (Shares.reroot_self space (orderly.laid p member)).symm⟩

theorem Orderly.sameAt_refl (n : String) : SameAt S n pool pool :=
  ⟨fun p member atop => ⟨p, member, atop, orderly.isPartOf_self grown member⟩,
    fun p member atop => ⟨p, member, atop, orderly.isPartOf_self grown member⟩, rfl⟩

theorem Orderly.sameAt_extract? {test : Permission → Bool} {p : Permission} {others : Pool}
    (found : pool.extract? test = some (p, others)) (parted : S.Parted p.root n) :
    SameAt S n pool others := by
  obtain ⟨perm, -⟩ := extract?_perm found
  refine ⟨fun q member atop => ?_, fun q member atop => ?_, ?_⟩
  · rcases List.mem_cons.mp (perm.mem_iff.mp member) with rfl | inside
    · exact absurd atop (grown.not_above_of_parted parted)
    · exact ⟨q, inside, atop, orderly.isPartOf_self grown member⟩
  · have inside : q ∈ pool := perm.mem_iff.mpr (List.mem_cons_of_mem _ member)
    exact ⟨q, inside, atop, orderly.isPartOf_self grown inside⟩
  · exact extract?_filter found (not_under_of_parted grown parted)

theorem Orderly.sameAt_filter {keep : Permission → Bool}
    (parted : ∀ p ∈ pool, keep p = false → S.Parted p.root n) :
    SameAt S n pool (pool.filter keep) := by
  refine ⟨fun p member atop => ?_, fun p member atop => ?_, ?_⟩
  · refine ⟨p, List.mem_filter.mpr ⟨member, ?_⟩, atop, orderly.isPartOf_self grown member⟩
    by_contra dropped
    exact grown.not_above_of_parted (parted p member (by simpa using dropped)) atop
  · have inside := (List.mem_filter.mp member).1
    exact ⟨p, inside, atop, orderly.isPartOf_self grown inside⟩
  · unfold Pool.under
    rw [List.filter_filter]
    refine List.filter_congr fun p member => ?_
    by_cases kept : keep p = true
    · simp [kept]
    · simp [kept, not_under_of_parted grown (parted p member (by simpa using kept))]

theorem Orderly.sameAt_moveDown {test : Permission → Bool} {p : Permission} {others : Pool}
    (found : pool.extract? test = some (p, others)) {lower : String}
    (atop : S.Above p.root lower) (apart : p.root ≠ lower) (parted : S.Parted lower n) :
    SameAt S n pool (others ++ (p.moveDown lower).2) := by
  obtain ⟨perm, -⟩ := extract?_perm found
  have member : p ∈ pool := perm.mem_iff.mpr List.mem_cons_self
  obtain ⟨way, beside, shape⟩ := Permission.beside_eq grown (orderly.space p member) atop apart
  have parts : (p.moveDown lower).2 = (way.flatMap (siblings S)).map p.reroot := by
    rw [Permission.moveDown, beside]
  have below (d : String) (sibling : d ∈ way.flatMap (siblings S)) : S.Above p.root d :=
    ((grown.siblings_parted shape).2 d sibling).2
  rw [parts]
  -- The node hangs below one of the siblings beside the way, and below none of the others.
  refine ⟨fun q inside overN => ?_, fun q inside overN => ?_, ?_⟩
  · rcases List.mem_cons.mp (perm.mem_iff.mp inside) with rfl | other
    · obtain ⟨d, sibling, overD⟩ := grown.exists_sibling_above shape parted overN
      exact ⟨q.reroot d, List.mem_append_right _ (List.mem_map_of_mem sibling), overD,
        below d sibling, rfl, rfl⟩
    · exact ⟨q, List.mem_append_left _ other, overN, orderly.isPartOf_self grown inside⟩
  · rcases List.mem_append.mp inside with other | part
    · have old : q ∈ pool := perm.mem_iff.mpr (List.mem_cons_of_mem _ other)
      exact ⟨q, old, overN, orderly.isPartOf_self grown old⟩
    · obtain ⟨d, sibling, rfl⟩ := List.mem_map.mp part
      exact ⟨p, member, grown.above_trans (below d sibling) overN, below d sibling, rfl, rfl⟩
  · have whole : (S.covers n p.root && p.root != n) = false := by
      rw [Bool.and_eq_false_iff, Bool.eq_false_iff, Ne, S.covers_iff]
      exact .inl fun higher =>
        grown.not_above_of_parted parted.symm (grown.above_trans higher atop)
    have none : ((way.flatMap (siblings S)).map p.reroot).filter
        (fun p => S.covers n p.root && p.root != n) = [] := by
      rw [List.filter_eq_nil_iff]
      intro q part
      obtain ⟨d, sibling, rfl⟩ := List.mem_map.mp part
      simp only [Bool.and_eq_true, S.covers_iff, bne_iff_ne, not_and]
      exact fun higher different =>
        grown.not_above_sibling shape parted sibling (Ne.symm different) higher
    rw [Pool.under, List.filter_append, none, List.append_nil]
    exact extract?_filter found whole

omit orderly in
theorem SameAt.append {next : Pool} (same : SameAt S n pool next) {p : Permission}
    (parted : S.Parted p.root n) : SameAt S n pool (next ++ [p]) := by
  refine ⟨fun q member atop => ?_, fun q member atop => ?_, ?_⟩
  · obtain ⟨part, inside, known⟩ := same.kept q member atop
    exact ⟨part, List.mem_append_left _ inside, known⟩
  · rcases List.mem_append.mp member with inside | last
    · exact same.only q inside atop
    · rw [List.mem_singleton.mp last] at atop
      exact absurd atop (grown.not_above_of_parted parted)
  · rw [Pool.under, List.filter_append, List.filter_cons, not_under_of_parted grown parted,
      if_neg Bool.false_ne_true, List.filter_nil, List.append_nil]
    exact same.under

end SameAt

section Laying

theorem tabulate_laid (space : Space) (root : String) (above : String → LedgerM Fraction)
    (below : LedgerM Fraction) : Yields (Shares.tabulate space root above below) Shares.Laid := by
  have nodes : Yields ((space.ancestors root).mapM fun n => do return (n, ← above n))
      fun values => List.Forall₂ (fun n entry => entry.1 = n) (space.ancestors root) values :=
    .mapM _ fun n _ => .after fun _ => .pure rfl
  refine nodes.bind fun values paired => .after fun _ => .pure ?_
  exact (map_eq_of_forall₂ id Prod.fst paired).trans (List.map_id _)

theorem combine_laid {s : Shares} (laid : s.Laid) (t : Shares)
    (both : Fraction → Fraction → LedgerM Fraction) : Yields (s.combine t both) Shares.Laid := by
  have nodes : Yields (s.values.mapM fun entry => do
      return (entry.1, ← both entry.2 (t.get entry.1)))
      fun values => List.Forall₂ (fun old new => new.1 = old.1) s.values values :=
    .mapM _ fun entry _ => .after fun _ => .pure rfl
  refine nodes.bind fun values paired => .after fun _ => .pure ?_
  exact (map_eq_of_forall₂ Prod.fst Prod.fst paired).trans laid

theorem combineUp_laid (root : String) (parts : List Permission) :
    Yields (combineUp root parts) fun whole => ∀ w, whole = some w → w.shares.Laid := by
  cases parts with
  | nil => exact .pure nofun
  | cons first rest =>
      refine .ite (fun _ => .pure nofun) fun _ => (tabulate_laid _ _ _ _).bind
        fun shares laid => .pure ?_
      rintro w ⟨⟩
      exact laid

theorem split_laid {p : Permission} (laid : p.shares.Laid) (q : Request) (s : Solution) :
    Yields (p.split q s) fun remainder => ∀ r, remainder = some r → r.shares.Laid :=
  split_leaves laid fun l _ => combine_laid laid _ _ l

end Laying

section Claims

variable (grown : S.Grown) {pool : Pool} (orderly : pool.Orderly S frame)

/-- What is claimed for a request lies beside every node that is orthogonal to it. -/
structure Claimed (S : Space) (pool : Pool) (q : Request) (claimed : Option Permission × Pool) :
    Prop where
  laid : ∀ p, claimed.1 = some p ∨ p ∈ claimed.2 → p.shares.Laid
  parted : ∀ n, S.Parted q.root n → ∀ p, claimed.1 = some p → S.Parted p.root n
  same : ∀ n, S.Parted q.root n → SameAt S n pool claimed.2

include grown orderly

theorem Orderly.take?_parts {needed : String} {tolerateSmaller : Bool} {p : Permission}
    {others : Pool} (taken : pool.take? needed tolerateSmaller = some (p, others)) :
    Orderly S frame (p :: others) ∧
      ∀ part ∈ p :: others, ∃ whole ∈ pool, part.IsPartOf S whole := by
  have same {test : Permission → Bool} {found : Permission} {rest : Pool}
      (extracted : pool.extract? test = some (found, rest)) :
      ∀ part ∈ found :: rest, ∃ whole ∈ pool, part.IsPartOf S whole := by
    intro part member
    have inside := (extract?_perm extracted).1.mem_iff.mpr member
    exact ⟨part, inside, orderly.isPartOf_self grown inside⟩
  have parts : ∀ part ∈ p :: others, ∃ whole ∈ pool, part.IsPartOf S whole := by
    -- Only what is taken from above the node is divided.
    cases taking_of_take? taken with
    | here found => exact same found
    | below _ found => exact same found
    | @above whole rest found member covers apart =>
        have atop := (Permission.covers_iff (orderly.space whole member)).mp covers
        obtain ⟨way, beside, shape⟩ :=
          Permission.beside_eq grown (orderly.space whole member) atop apart
        intro part inside
        rcases List.mem_cons.mp inside with rfl | later
        · exact ⟨whole, member, atop, rfl, rfl⟩
        · rcases List.mem_append.mp later with other | moved
          · exact same found part (List.mem_cons_of_mem _ other)
          · obtain ⟨d, among, rfl⟩ := List.mem_map.mp moved
            rw [beside] at among
            exact ⟨whole, member, ((grown.siblings_parted shape).2 d among).2, rfl, rfl⟩
  refine ⟨⟨orderly.toTidy.take? grown taken, fun part member => ?_⟩, parts⟩
  obtain ⟨whole, -, isPart⟩ := parts part member
  rw [isPart.shares]
  exact whole.shares.reroot_laid _

theorem Orderly.claimed_take? {q : Request} {p : Permission} {others : Pool}
    (taken : pool.take? q.root q.toleratesSmallerRoot = some (p, others)) :
    Claimed S pool q (some p, others) := by
  have laid (p' : Permission) (member : some p = some p' ∨ p' ∈ others) : p'.shares.Laid := by
    refine (orderly.take?_parts grown taken).1.laid p' (List.mem_cons.mpr ?_)
    exact member.imp (fun same => (Option.some.inj same).symm) id
  cases taking_of_take? taken with
  | here found root =>
      refine ⟨laid, ?_, fun n beside => orderly.sameAt_extract? grown found (root ▸ beside)⟩
      rintro n beside p' ⟨⟩
      exact root ▸ beside
  | above found member covers apart =>
      have atop := (Permission.covers_iff (orderly.space _ member)).mp covers
      refine ⟨laid, ?_, fun n beside => orderly.sameAt_moveDown grown found atop apart beside⟩
      rintro n beside p' ⟨⟩
      exact beside
  | below _ found member covers =>
      have atop : S.Above q.root p.root := by
        rw [← S.covers_iff, ← orderly.space p member]
        exact covers
      -- What is beside the root of the request is beside what lies below it.
      have lower (n : String) (beside : S.Parted q.root n) : S.Parted p.root n :=
        grown.parted_mono beside atop (grown.above_refl n)
      refine ⟨laid, ?_, fun n beside => orderly.sameAt_extract? grown found (lower n beside)⟩
      rintro n beside p' ⟨⟩
      exact lower n beside

theorem Orderly.claimed_none (q : Request) : Claimed S pool q (none, pool) :=
  ⟨fun p member => orderly.laid p (member.resolve_left nofun), fun _ _ _ => nofun,
    fun n _ => orderly.sameAt_refl grown n⟩

theorem Orderly.takeCombined_claimed (q : Request) :
    Yields (pool.takeCombined q.root) (Claimed S pool q) := by
  rw [takeCombined_eq]
  cases first : pool.head? with
  | none => exact .pure (orderly.claimed_none grown q)
  | some p =>
      have space : p.space = S := orderly.space p (List.mem_of_head? first)
      dsimp only
      rw [space]
      refine .ite (fun _ => .pure (orderly.claimed_none grown q)) fun _ => ?_
      -- What is orthogonal to a state is orthogonal to its dimensions.
      have lower (n : String) (beside : S.Parted q.root n) (p : Permission)
          (dimension : p.root ∈ S.dimensions q.root) : S.Parted p.root n := by
        have parent := (grown.mem_dimensions_iff.mp dimension).2
        exact grown.parted_mono beside (parent ▸ grown.above_parentOf p.root) (grown.above_refl n)
      have whole : Yields (combineUp q.root
          (pool.filter fun p => (S.dimensions q.root).contains p.root)) fun whole =>
            ∀ w, whole = some w → w.root = q.root ∧ w.shares.Laid := by
        intro l w made
        obtain ⟨-, -, -, root, -⟩ := combineUp_yields q.root _ l w made
        exact ⟨root, combineUp_laid q.root _ l w made⟩
      refine whole.bind fun made known => .pure ⟨?_, ?_, fun n beside => ?_⟩
      · rintro p' (same | inside)
        · exact (known p' same).2
        · exact orderly.laid p' (List.mem_filter.mp inside).1
      · intro n beside p' same
        rw [(known p' same).1]
        exact beside
      · refine orderly.sameAt_filter grown fun p' _ dropped => lower n beside p' ?_
        simpa using dropped

theorem Orderly.claim_claimed (q : Request) : Yields (pool.claim q) (Claimed S pool q) := by
  unfold claim
  cases taken : pool.take? q.root q.toleratesSmallerRoot with
  | none => exact orderly.takeCombined_claimed grown q
  | some found => exact .pure (orderly.claimed_take? grown taken)

/-- Splitting keeps a pool in order and changes nothing for orthogonal nodes. -/
theorem Orderly.splitOne (s : Solution) (q : Request) :
    Yields (pool.splitOne s q) fun next =>
      next.Orderly S frame ∧ ∀ n, S.Parted q.root n → SameAt S n pool next := by
  have spread : Yields (pool.splitOne s q) fun next =>
      (∀ p ∈ next, p.shares.Laid) ∧ ∀ n, S.Parted q.root n → SameAt S n pool next := by
    rw [splitOne_eq]
    refine (orderly.claim_claimed grown q).bind fun (taken, others) claimed => ?_
    have kept : ∀ p ∈ others, p.shares.Laid := fun p member => claimed.laid p (.inr member)
    cases taken with
    | none => exact .after fun _ => .pure ⟨kept, claimed.same⟩
    | some p =>
        have remains : Yields (p.split q s) fun remainder => ∀ r, remainder = some r →
            r.root = p.root ∧ r.shares.Laid := fun l r rest =>
          ⟨(split_yields p q s l r rest).root, split_laid (claimed.laid p (.inl rfl)) q s l r rest⟩
        refine remains.bind fun remainder known => ?_
        cases remainder with
        | none => exact .pure ⟨kept, claimed.same⟩
        | some r =>
            obtain ⟨root, laid⟩ := known r rfl
            refine .pure ⟨fun p' member => ?_,
              fun n beside => (claimed.same n beside).append grown ?_⟩
            · rcases List.mem_append.mp member with old | last
              · exact kept p' old
              · rw [List.mem_singleton.mp last]
                exact laid
            · rw [root]
              exact claimed.parted n beside p rfl
  exact fun l => ⟨⟨orderly.toTidy.splitOne grown s q l, (spread l).1⟩, (spread l).2⟩

end Claims

end Pool

end Typestate
