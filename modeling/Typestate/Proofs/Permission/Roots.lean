import Mathlib.Data.List.Pairwise
import Typestate.Proofs.Permission.Equations
import Typestate.Proofs.Space.Orthogonality
import Typestate.Proofs.Work

set_option autoImplicit false

/-!
The roots of the permissions of a pool stay orthogonal whatever is taken out, put in or joined.
-/

namespace Typestate

open Permission

namespace Space

variable {s : Space} (grown : s.Grown)

include grown

theorem Grown.mem_siblings_iff {n d : String} :
    d ∈ siblings s n ↔ s.isDimension n = true ∧ s.isDimension d = true ∧
      s.parentOf d = s.parentOf n ∧ d ≠ n := by
  unfold siblings
  by_cases dimension : s.isDimension n = true
  · have parent : s.parent? n = some (s.parentOf n) := by
      simp [parentOf, parent?, grown.ne_alive_of_isDimension dimension]
    rw [if_pos dimension, parent]
    simp [grown.mem_dimensions_iff, dimension, and_assoc]
  · simp [dimension]

theorem Grown.siblings_nodup (n : String) : (siblings s n).Nodup := by
  unfold siblings
  split
  · split
    · exact (grown.dimensions_nodup _).filter _
    · exact List.nodup_nil
  · exact List.nodup_nil

/-- The siblings along the way down to a node lie below the start of the way, beside the node and
beside each other. -/
theorem Grown.siblings_parted {upper n : String} {way : List String}
    (shape : s.ancestors n = way ++ s.ancestors upper) :
    (way.flatMap (siblings s)).Pairwise s.Parted ∧
      ∀ d ∈ way.flatMap (siblings s), s.Parted n d ∧ s.Above upper d := by
  have order := grown.ancestors_pairwise n
  rw [shape, List.pairwise_append] at order
  constructor
  · rw [List.pairwise_flatMap]
    constructor
    · intro n' _
      refine (grown.siblings_nodup n').imp_of_mem fun {x y} first second apart => ?_
      obtain ⟨-, dimX, parentX, -⟩ := grown.mem_siblings_iff.mp first
      obtain ⟨-, dimY, parentY, -⟩ := grown.mem_siblings_iff.mp second
      exact ⟨x, y, dimX, dimY, parentX.trans parentY.symm, apart, grown.above_refl x,
        grown.above_refl y⟩
    · -- The higher of two nodes on the way lies above the siblings of the lower one.
      refine order.1.imp fun {lower higher} atop x first y second => ?_
      obtain ⟨dimLower, dimX, parentX, -⟩ := grown.mem_siblings_iff.mp first
      obtain ⟨dimHigher, dimY, parentY, apartY⟩ := grown.mem_siblings_iff.mp second
      have strict := ((grown.above_iff_of_ne (grown.ne_alive_of_isDimension dimLower)).mp
        atop.1).resolve_left (Ne.symm atop.2)
      refine ⟨higher, y, dimHigher, dimY, parentY.symm, apartY.symm, ?_, grown.above_refl y⟩
      exact grown.above_trans strict (parentX ▸ grown.above_parentOf x)
  · intro d member
    obtain ⟨n', onWay, sibling⟩ := List.mem_flatMap.mp member
    obtain ⟨dimension, dimD, parent, apart⟩ := grown.mem_siblings_iff.mp sibling
    have aboveN : s.Above n' n := by
      rw [Above, shape]
      exact List.mem_append_left _ onWay
    refine ⟨⟨n', d, dimension, dimD, parent.symm, apart.symm, aboveN, grown.above_refl d⟩, ?_⟩
    have atop := order.2.2 n' onWay upper (grown.above_refl upper)
    have strict := ((grown.above_iff_of_ne (grown.ne_alive_of_isDimension dimension)).mp
      atop.1).resolve_left (Ne.symm atop.2)
    exact grown.above_trans strict (parent ▸ grown.above_parentOf d)

end Space

theorem Permission.covers_iff {S : Space} {p : Permission} (space : p.space = S) {n : String} :
    p.covers n = true ↔ S.Above p.root n := by
  rw [Permission.covers, space, S.covers_iff]

theorem Permission.beside_eq {S : Space} (grown : S.Grown) {p : Permission} (space : p.space = S)
    {n : String} (atop : S.Above p.root n) (apart : p.root ≠ n) :
    ∃ way, p.beside n = way.flatMap (siblings S) ∧ S.ancestors n = way ++ S.ancestors p.root := by
  obtain ⟨way, child, path, -, -, shape⟩ := grown.path_eq atop apart
  have order := grown.ancestors_pairwise n
  rw [shape, List.append_cons, List.pairwise_append] at order
  have kept : ∀ m ∈ way ++ [child], (m != p.root) = true := by
    intro m member
    simpa using (order.2.2 m member p.root (grown.above_refl p.root)).2
  refine ⟨way ++ [child], ?_, by rw [shape, List.append_cons]⟩
  rw [beside, space, path, List.append_cons, List.takeWhile_append_of_pos kept]
  simp

/-- Permissions over one space, all for the frame or all not, whose roots are orthogonal. -/
structure Pool.Tidy (S : Space) (frame : Bool) (pool : Pool) : Prop where
  space : ∀ p ∈ pool, p.space = S
  frame : ∀ p ∈ pool, p.frame = frame
  apart : pool.Pairwise fun p q => S.Parted p.root q.root

namespace Pool

variable {S : Space} {frame : Bool}

theorem Tidy.nil : Tidy S frame [] := ⟨by simp, by simp, List.Pairwise.nil⟩

theorem Tidy.perm {pool other : Pool} (tidy : Tidy S frame pool) (same : pool.Perm other) :
    Tidy S frame other :=
  ⟨fun p member => tidy.space p (same.mem_iff.mpr member),
    fun p member => tidy.frame p (same.mem_iff.mpr member),
    tidy.apart.perm same Space.Parted.symm⟩

theorem Tidy.sublist {pool other : Pool} (tidy : Tidy S frame pool) (inside : other.Sublist pool) :
    Tidy S frame other :=
  ⟨fun p member => tidy.space p (inside.subset member),
    fun p member => tidy.frame p (inside.subset member), tidy.apart.sublist inside⟩

theorem tidy_cons {p : Permission} {pool : Pool} :
    Tidy S frame (p :: pool) ↔
      p.space = S ∧ p.frame = frame ∧ (∀ q ∈ pool, S.Parted p.root q.root) ∧ Tidy S frame pool := by
  constructor
  · intro tidy
    obtain ⟨first, rest⟩ := List.pairwise_cons.mp tidy.apart
    exact ⟨tidy.space p List.mem_cons_self, tidy.frame p List.mem_cons_self, first,
      tidy.sublist (List.sublist_cons_self p pool)⟩
  · rintro ⟨space, framed, first, tidy⟩
    refine ⟨?_, ?_, List.pairwise_cons.mpr ⟨first, tidy.apart⟩⟩
    · intro q member
      rcases List.mem_cons.mp member with rfl | later
      · exact space
      · exact tidy.space q later
    · intro q member
      rcases List.mem_cons.mp member with rfl | later
      · exact framed
      · exact tidy.frame q later

theorem Tidy.parted_of_mem {pool : Pool} (tidy : Tidy S frame pool) {p q : Permission}
    (first : p ∈ pool) (second : q ∈ pool) (different : p ≠ q) : S.Parted p.root q.root := by
  have symmetric : Std.Symm fun p q : Permission => S.Parted p.root q.root :=
    ⟨fun _ _ => Space.Parted.symm⟩
  exact tidy.apart.forall first second different

structure Alike (p q : Permission) : Prop where
  space : q.space = p.space
  root : q.root = p.root
  frame : q.frame = p.frame

theorem Tidy.replace {p q : Permission} {pool : Pool} (tidy : Tidy S frame (p :: pool))
    (alike : Alike p q) : Tidy S frame (q :: pool) := by
  rw [tidy_cons] at tidy ⊢
  rwa [alike.space, alike.root, alike.frame]

theorem Tidy.map {pool : Pool} (tidy : Tidy S frame pool) {change : Permission → Permission}
    (alike : ∀ p, Alike p (change p)) : Tidy S frame (pool.map change) := by
  induction pool with
  | nil => exact .nil
  | cons p rest ih =>
      rw [tidy_cons] at tidy
      rw [List.map_cons, tidy_cons, (alike p).space, (alike p).root, (alike p).frame]
      refine ⟨tidy.1, tidy.2.1, ?_, ih tidy.2.2.2⟩
      intro q member
      obtain ⟨q', inside, rfl⟩ := List.mem_map.mp member
      rw [(alike q').root]
      exact tidy.2.2.1 q' inside

theorem extract?_perm {test : Permission → Bool} {pool others : Pool} {p : Permission}
    (found : pool.extract? test = some (p, others)) :
    pool.Perm (p :: others) ∧ test p = true := by
  induction pool generalizing others with
  | nil => simp [extract?] at found
  | cons q rest ih =>
      unfold extract? at found
      split at found
      · next passes =>
          cases found
          exact ⟨List.Perm.refl _, passes⟩
      · obtain ⟨⟨p', others'⟩, inside, same⟩ := Option.map_eq_some_iff.mp found
        cases same
        obtain ⟨perm, passes⟩ := ih inside
        exact ⟨(perm.cons q).trans (List.Perm.swap p q others'), passes⟩

theorem extract?_eq_none {test : Permission → Bool} {pool : Pool}
    (missing : pool.extract? test = none) : ∀ p ∈ pool, test p = false := by
  induction pool with
  | nil => simp
  | cons q rest ih =>
      unfold extract? at missing
      split at missing
      · simp at missing
      · next fails =>
          rw [Option.map_eq_none_iff] at missing
          intro p member
          rcases List.mem_cons.mp member with rfl | later
          · simpa using fails
          · exact ih missing p later

theorem Tidy.moveDown (grown : S.Grown) {p : Permission} {others : Pool}
    (tidy : Tidy S frame (p :: others)) {n : String} (atop : p.covers n = true)
    (apart : p.root ≠ n) :
    Tidy S frame ((p.moveDown n).1 :: (others ++ (p.moveDown n).2)) := by
  obtain ⟨space, framed, first, tidy⟩ := tidy_cons.mp tidy
  have above : S.Above p.root n := by
    rw [← S.covers_iff, ← space]
    exact atop
  obtain ⟨way, beside, shape⟩ := Permission.beside_eq grown space above apart
  obtain ⟨pairwise, each⟩ := grown.siblings_parted shape
  rw [← beside] at pairwise each
  have below (q : Permission) (member : q ∈ (p.moveDown n).2) :
      q.space = S ∧ q.frame = frame ∧ S.Parted n q.root ∧ S.Above p.root q.root := by
    obtain ⟨d, sibling, rfl⟩ := List.mem_map.mp member
    exact ⟨space, framed, each d sibling⟩
  -- What stays lay beside the whole, so it lies beside all the parts of it.
  rw [tidy_cons]
  refine ⟨space, framed, ?_, ?_, ?_, ?_⟩
  · intro q member
    rcases List.mem_append.mp member with other | rest
    · exact grown.parted_mono (first q other) above (grown.above_refl q.root)
    · exact (below q rest).2.2.1
  · intro q member
    rcases List.mem_append.mp member with other | rest
    · exact tidy.space q other
    · exact (below q rest).1
  · intro q member
    rcases List.mem_append.mp member with other | rest
    · exact tidy.frame q other
    · exact (below q rest).2.1
  · rw [List.pairwise_append]
    refine ⟨tidy.apart, List.pairwise_map.mpr pairwise, fun q other d rest => ?_⟩
    exact grown.parted_mono (first q other).symm (grown.above_refl q.root) (below d rest).2.2.2

/-- The ways to take a permission for a node out of a pool: the one for the node itself, a part of one
for a node above, or, if that is tolerated, one for a node below. -/
inductive Taking (pool : Pool) (needed : String) (tolerates : Bool) : Permission → Pool → Prop where
  | here {p : Permission} {others : Pool}
      (found : pool.extract? (fun p => p.root == needed) = some (p, others))
      (root : p.root = needed) : Taking pool needed tolerates p others
  | above {whole : Permission} {others : Pool}
      (found : pool.extract? (fun p => p.covers needed) = some (whole, others))
      (member : whole ∈ pool) (atop : whole.covers needed = true) (apart : whole.root ≠ needed) :
      Taking pool needed tolerates (whole.moveDown needed).1 (others ++ (whole.moveDown needed).2)
  | below {p : Permission} {others : Pool} (tolerated : tolerates = true)
      (found : pool.extract? (fun p => p.space.covers needed p.root) = some (p, others))
      (member : p ∈ pool) (lower : p.space.covers needed p.root = true) :
      Taking pool needed tolerates p others

theorem taking_of_take? {pool others : Pool} {needed : String} {tolerates : Bool} {p : Permission}
    (taken : pool.take? needed tolerates = some (p, others)) :
    Taking pool needed tolerates p others := by
  unfold Pool.take? at taken
  split at taken
  · next found =>
      cases taken
      exact .here found (beq_iff_eq.mp (extract?_perm found).2)
  · next missing =>
      split at taken
      · next whole rest found =>
          obtain ⟨perm, atop⟩ := extract?_perm found
          have member : whole ∈ pool := perm.mem_iff.mpr List.mem_cons_self
          cases taken
          exact .above found member atop (by simpa using extract?_eq_none missing whole member)
      · split at taken
        · next tolerated =>
            obtain ⟨perm, lower⟩ := extract?_perm taken
            exact .below tolerated taken (perm.mem_iff.mpr List.mem_cons_self) lower
        · cases taken

theorem Taking.mem_or_reroot {pool others : Pool} {needed : String} {tolerates : Bool}
    {p : Permission} (taking : Taking pool needed tolerates p others) :
    ∀ o ∈ p :: others, o ∈ pool ∨ ∃ whole ∈ pool, ∃ n, o = whole.reroot n := by
  intro o member
  cases taking with
  | here found => exact .inl ((extract?_perm found).1.mem_iff.mpr member)
  | below _ found => exact .inl ((extract?_perm found).1.mem_iff.mpr member)
  | @above whole rest found inside =>
      rcases List.mem_cons.mp member with rfl | later
      · exact .inr ⟨whole, inside, needed, rfl⟩
      · rcases List.mem_append.mp later with other | moved
        · exact .inl ((extract?_perm found).1.mem_iff.mpr (List.mem_cons_of_mem _ other))
        · obtain ⟨n, -, rfl⟩ := List.mem_map.mp moved
          exact .inr ⟨whole, inside, n, rfl⟩

theorem Tidy.take? (grown : S.Grown) {pool others : Pool} {p : Permission}
    (tidy : Tidy S frame pool) {needed : String} {tolerateSmaller : Bool}
    (taken : pool.take? needed tolerateSmaller = some (p, others)) :
    Tidy S frame (p :: others) := by
  cases taking_of_take? taken with
  | here found => exact tidy.perm (extract?_perm found).1
  | above found _ atop apart => exact (tidy.perm (extract?_perm found).1).moveDown grown atop apart
  | below _ found => exact tidy.perm (extract?_perm found).1

theorem Tidy.parted_of_dimensions (grown : S.Grown) {pool : Pool} (tidy : Tidy S frame pool)
    {state : String} (some : S.dimensions state ≠ [])
    (held : ∀ d ∈ S.dimensions state, ∃ p ∈ pool, p.root = d) {q : Permission} (member : q ∈ pool)
    (outside : q.root ∉ S.dimensions state) : S.Parted state q.root := by
  have beside (p : Permission) (inside : p ∈ pool) (root : p.root ∈ S.dimensions state) :
      S.Parted p.root q.root := by
    exact tidy.parted_of_mem inside member fun same => outside (same ▸ root)
  obtain ⟨d, first⟩ := List.exists_mem_of_ne_nil _ some
  obtain ⟨p, inside, rfl⟩ := held d first
  obtain ⟨dimP, parentP⟩ := grown.mem_dimensions_iff.mp first
  obtain ⟨x, y, dimX, dimY, parents, apart, overP, overQ⟩ := beside p inside first
  rcases (grown.above_iff_of_ne (grown.ne_alive_of_isDimension dimP)).mp overP with same | higher
  · -- The ways part right below the state, so the other way leads through a dimension that is held.
    have second : y ∈ S.dimensions state :=
      grown.mem_dimensions_iff.mpr ⟨dimY, by rw [← parents, same, parentP]⟩
    obtain ⟨p', inside', root⟩ := held y second
    have parted := beside p' inside' (root ▸ second)
    exact absurd (root ▸ overQ) (grown.not_above_of_parted parted)
  · exact ⟨x, y, dimX, dimY, parents, apart, parentP ▸ higher, overQ⟩

end Pool

namespace Shares

theorem combine_yields (s t : Shares) (both : Fraction → Fraction → LedgerM Fraction) :
    Yields (s.combine t both) fun r => r.space = s.space ∧ r.root = s.root :=
  .after fun _ => .after fun _ => .pure ⟨rfl, rfl⟩

theorem tabulate_yields (space : Space) (root : String) (above : String → LedgerM Fraction)
    (below : LedgerM Fraction) :
    Yields (tabulate space root above below) fun r => r.space = space ∧ r.root = root :=
  .after fun _ => .after fun _ => .pure ⟨rfl, rfl⟩

end Shares

namespace Pool

variable {S : Space} {frame : Bool}

theorem combineUp_yields (root : String) (parts : List Permission) :
    Yields (combineUp root parts) fun whole => ∀ w, whole = some w →
      ∃ p ∈ parts, w.space = p.space ∧ w.root = root ∧ w.frame = p.frame := by
  cases parts with
  | nil => exact .pure nofun
  | cons first rest =>
      refine .ite (fun _ => .pure nofun) fun _ => (Shares.tabulate_yields _ _ _ _).bind
        fun shares made => .pure ?_
      intro w whole
      cases whole
      exact ⟨first, List.mem_cons_self, made.1, made.2, rfl⟩

/-- What is claimed from a pool, and what stays in it. -/
def TidyClaim (S : Space) (frame : Bool) (claimed : Option Permission × Pool) : Prop :=
  match claimed with
  | (some p, others) => Tidy S frame (p :: others)
  | (none, others) => Tidy S frame others

theorem Tidy.takeCombined (grown : S.Grown) {pool : Pool} (tidy : Tidy S frame pool)
    (root : String) : Yields (pool.takeCombined root) (TidyClaim S frame) := by
  rw [takeCombined_eq]
  cases pool with
  | nil => exact .pure tidy
  | cons first rest =>
      have space := tidy.space first List.mem_cons_self
      simp only [List.head?_cons, space]
      refine .ite (fun _ => .pure tidy) fun guard => (combineUp_yields root _).bind
        fun whole made => .pure ?_
      have others : Tidy S frame
          ((first :: rest).filter fun p => !(S.dimensions root).contains p.root) :=
        tidy.sublist List.filter_sublist
      cases whole with
      | none => exact others
      | some w =>
          obtain ⟨p, among, spaceW, rootW, frameW⟩ := made w rfl
          have member := (List.mem_filter.mp among).1
          simp only [Bool.or_eq_true, not_or, List.isEmpty_iff, Bool.not_eq_true',
            Bool.not_eq_false, List.all_eq_true, List.any_eq_true, beq_iff_eq] at guard
          refine tidy_cons.mpr ⟨spaceW.trans (tidy.space p member),
            frameW.trans (tidy.frame p member), fun q inside => ?_, others⟩
          obtain ⟨inPool, outside⟩ := List.mem_filter.mp inside
          rw [rootW]
          -- The whole covers more than its parts did, but nothing that another permission is for.
          exact tidy.parted_of_dimensions grown guard.1 guard.2 inPool (by simpa using outside)

theorem split_leaves {holds : Permission → Prop} {p : Permission} {q : Request} {s : Solution}
    (stays : holds p)
    (left : Yields (p.shares.combine q.permission.shares Permission.splitFraction)
      fun shares => ∀ readOnly, holds { p with shares, readOnly }) :
    Yields (p.split q s) fun remainder => ∀ r, remainder = some r → holds r := by
  unfold Permission.split
  cases (p.kind s).split q.kind with
  | impossible =>
      refine .after fun _ => .pure ?_
      rintro r ⟨⟩
      exact stays
  | nothing => exact .after fun _ => .pure nofun
  | kind k =>
      refine left.bind fun shares known => .pure ?_
      rintro r ⟨⟩
      exact known k.isReadOnly

theorem split_yields (p : Permission) (q : Request) (s : Solution) :
    Yields (p.split q s) fun remainder => ∀ r, remainder = some r → Alike p r :=
  split_leaves ⟨rfl, rfl, rfl⟩ fun l _ =>
    have made := p.shares.combine_yields q.permission.shares Permission.splitFraction l
    ⟨made.1, made.2, rfl⟩

theorem Tidy.splitOne (grown : S.Grown) {pool : Pool} (tidy : Tidy S frame pool) (s : Solution)
    (q : Request) : Yields (pool.splitOne s q) (Tidy S frame) := by
  have claimed : Yields (pool.claim q) (TidyClaim S frame) := by
    unfold claim
    cases taken : pool.take? q.root q.toleratesSmallerRoot with
    | none => exact tidy.takeCombined grown q.root
    | some found => exact .pure (tidy.take? grown taken)
  rw [splitOne_eq]
  refine claimed.bind fun (taken, others) beside => ?_
  cases taken with
  | none => exact .after fun _ => .pure beside
  | some p =>
      refine (split_yields p q s).bind fun remainder alike => ?_
      cases remainder with
      | none => exact .pure (tidy_cons.mp beside).2.2.2
      | some r =>
          exact .pure
            ((beside.replace (alike r rfl)).perm (List.perm_append_singleton r others).symm)

theorem Tidy.split (grown : S.Grown) {pool : Pool} (tidy : Tidy S frame pool) (s : Solution)
    (requests : List Request) : Yields (pool.split s requests) (Tidy S frame) :=
  .foldlM requests (fun _ q _ tidy => tidy.splitOne grown s q) tidy

theorem merge_yields (p other : Permission) (s : Solution) : Yields (p.merge other s) (Alike p) :=
  (Shares.combine_yields _ _ _).bind fun _ made => .pure ⟨made.1, made.2, rfl⟩

theorem update_perm {test : Permission → Bool} {pool : Pool} {q : Permission}
    (found : pool.find? test = some q) (r : Permission) :
    ∃ others : Pool, pool.Perm (q :: others) ∧ (pool.update test r).Perm (r :: others) := by
  induction pool with
  | nil => simp at found
  | cons p rest ih =>
      unfold update
      by_cases passes : test p = true
      · rw [List.find?_cons_of_pos passes] at found
        cases found
        exact ⟨rest, .refl _, by rw [if_pos passes]⟩
      · rw [List.find?_cons_of_neg passes] at found
        obtain ⟨others, perm, updated⟩ := ih found
        rw [if_neg passes]
        exact ⟨p :: others, (perm.cons p).trans (.swap q p others),
          (updated.cons p).trans (.swap r p others)⟩

theorem moveDown_alike (p : Permission) (n : String) :
    ∀ q ∈ (p.moveDown n).2, q.space = p.space ∧ q.frame = p.frame := by
  intro q member
  obtain ⟨d, -, rfl⟩ := List.mem_map.mp member
  exact ⟨rfl, rfl⟩

theorem Tidy.mergeWithin (grown : S.Grown) (levels : Nat) (s : Solution) {pool : Pool}
    (tidy : Tidy S frame pool) {p : Permission} (space : p.space = S) (framed : p.frame = frame) :
    Yields (Pool.mergeWithin levels s pool p) (Tidy S frame) := by
  have refused {pool : Pool} (tidy : Tidy S frame pool) (p : Permission) :
      Yields (pool.refuse p) (Tidy S frame) := .after fun _ => .pure tidy
  -- Every level adds the parts of one permission, so the pool and the permission both vary.
  induction levels generalizing pool p with
  | zero => exact refused tidy p
  | succ levels ih =>
      unfold Pool.mergeWithin
      split
      · next q found =>
          refine (merge_yields q p s).bind fun merged alike => .pure ?_
          obtain ⟨others, perm, updated⟩ := update_perm found merged
          exact ((tidy.perm perm).replace alike).perm updated.symm
      · next missing =>
          have different (q : Permission) (member : q ∈ pool) : q.root ≠ p.root := by
            simpa using List.find?_eq_none.mp missing q member
          split
          · next q others found =>
              obtain ⟨perm, atop⟩ := extract?_perm found
              have apart := different q (perm.mem_iff.mpr List.mem_cons_self)
              have moved := (tidy.perm perm).moveDown grown atop apart
              refine (merge_yields (q.moveDown p.root).1 p s).bind fun merged alike => .pure ?_
              exact (moved.replace alike).perm (List.perm_append_singleton merged _).symm
          · split
            · next q others found =>
                -- The parts of the new permission beside the way to the old one come in one by one.
                obtain ⟨perm, -⟩ := extract?_perm found
                refine (merge_yields q (p.moveDown q.root).1 s).bind fun merged alike => ?_
                have started := ((tidy.perm perm).replace alike).perm
                  (List.perm_append_singleton merged others).symm
                refine .foldlM _ (fun pool part member tidy => ?_) started
                obtain ⟨partSpace, partFrame⟩ := moveDown_alike p q.root part member
                exact ih tidy (partSpace.trans space) (partFrame.trans framed)
            · refine .ite (fun orthogonal => .pure ?_) fun _ => refused tidy p
              have beside (q : Permission) (member : q ∈ pool) : S.Parted p.root q.root := by
                have parted := List.all_eq_true.mp orthogonal q member
                rw [space] at parted
                exact ((grown.orthogonal_iff _ _).mp parted).symm
              exact (tidy_cons.mpr ⟨space, framed, beside, tidy⟩).perm
                (List.perm_append_singleton p pool).symm

theorem Tidy.merge (grown : S.Grown) (s : Solution) {pool : Pool} (tidy : Tidy S frame pool)
    {p : Permission} (space : p.space = S) (framed : p.frame = frame) :
    Yields (Pool.merge s pool p) (Tidy S frame) :=
  tidy.mergeWithin grown _ s space framed

theorem within_yields {α : Type} {property : α → Prop} {work : LedgerM α}
    (yields : Yields work property) (constraints : Constraints) :
    Yields (Ledger.within constraints work) fun result => property result.1 :=
  fun supply => yields ⟨constraints, supply⟩

theorem join_yields (p q : Permission) (s : Solution) (symmetric : Bool) :
    Yields (p.join q s symmetric) (Alike p) :=
  (Shares.combine_yields _ _ _).bind fun _ made => .pure ⟨made.1, made.2, rfl⟩

theorem Tidy.join {a : Pool} (tidy : Tidy S frame a) (b : Pool) (s : Solution)
    (symmetric : Bool) : Yields (a.join b s symmetric) (Tidy S frame) := by
  unfold Pool.join
  refine Yields.bind (.mapM a fun p _ =>
    (?_ : Yields _ fun list => list = [] ∨ ∃ r, list = [r] ∧ Alike p r)) fun lists paired => .pure ?_
  · cases b.find? fun q => q.root == p.root with
    | none => exact .pure (.inl rfl)
    | some q =>
      exact (join_yields p q s symmetric).bind fun r alike => .pure (.inr ⟨r, rfl, alike⟩)
  -- The induction also needs that roots come from the first pool, to keep them apart.
  have joined : Tidy S frame lists.flatten ∧ ∀ r ∈ lists.flatten, ∃ p ∈ a, r.root = p.root := by
    induction paired with
    | nil => exact ⟨.nil, by simp⟩
    | @cons p list rest lists shape _ ih =>
      obtain ⟨space, framed, beside, others⟩ := tidy_cons.mp tidy
      have kept := ih others
      have later (r : Permission) (member : r ∈ lists.flatten) :
          ∃ q ∈ p :: rest, r.root = q.root := by
        obtain ⟨q, inside, same⟩ := kept.2 r member
        exact ⟨q, List.mem_cons_of_mem _ inside, same⟩
      rcases shape with rfl | ⟨r, rfl, alike⟩
      · exact ⟨kept.1, later⟩
      · refine ⟨tidy_cons.mpr ⟨alike.space.trans space, alike.frame.trans framed, ?_, kept.1⟩, ?_⟩
        · intro q member
          obtain ⟨q', inside, same⟩ := kept.2 q member
          rw [same, alike.root]
          exact beside q' inside
        · intro q member
          rcases List.mem_cons.mp member with rfl | inside
          · exact ⟨p, List.mem_cons_self, alike.root⟩
          · exact later q inside
  exact joined.1

end Pool

end Typestate
