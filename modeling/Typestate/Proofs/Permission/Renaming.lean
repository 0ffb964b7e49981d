import Typestate.Permission.RequestSet
import Typestate.Proofs.Fraction.Drawing
import Typestate.Proofs.Permission.Equations

set_option autoImplicit false

/-!
Permissions whose fractions are renamed are split, moved and combined as before.
-/

namespace Typestate

section Renaming

variable (ρ : Renaming)

namespace Shares

def renameEntry (entry : String × Fraction) : String × Fraction :=
  (entry.1, entry.2.rename ρ)

def rename (s : Shares) : Shares :=
  ⟨s.space, s.root, s.values.map (renameEntry ρ), s.below.rename ρ⟩

@[simp] theorem rename_space (s : Shares) : (s.rename ρ).space = s.space := rfl

@[simp] theorem rename_root (s : Shares) : (s.rename ρ).root = s.root := rfl

@[simp] theorem rename_below (s : Shares) : (s.rename ρ).below = s.below.rename ρ := rfl

@[simp] theorem rootValue_rename (s : Shares) :
    (s.rename ρ).rootValue = s.rootValue.rename ρ := by
  cases values : s.values <;> simp [rootValue, rename, renameEntry, values]

@[simp] theorem get_rename (s : Shares) (n : String) : (s.rename ρ).get n = (s.get n).rename ρ := by
  have found : (s.rename ρ).values.find? (fun entry => entry.1 = n) =
      (s.values.find? fun entry => entry.1 = n).map (renameEntry ρ) := by
    rw [rename, List.find?_map]
    rfl
  unfold get
  rw [found]
  cases s.values.find? fun entry => entry.1 = n with
  | some entry => rfl
  | none => by_cases inside : s.space.covers s.root n = true <;> simp [inside]

theorem constant_rename (space : Space) (root : String) (f : Fraction) :
    (constant space root f).rename ρ = constant space root (f.rename ρ) := by
  simp [constant, rename, renameEntry]

theorem reroot_rename (s : Shares) (root : String) :
    (s.rename ρ).reroot root = (s.reroot root).rename ρ := by
  simp only [reroot, get_rename]
  simp [rename, renameEntry]

end Shares

namespace Permission

def rename (p : Permission) : Permission := { p with shares := p.shares.rename ρ }

@[simp] theorem rename_root (p : Permission) : (p.rename ρ).root = p.root := rfl

@[simp] theorem rename_space (p : Permission) : (p.rename ρ).space = p.space := rfl

@[simp] theorem rename_shares (p : Permission) : (p.rename ρ).shares = p.shares.rename ρ := rfl

theorem make_rename (shares : Shares) (readOnly frame : Bool) (states : List String) :
    make (shares.rename ρ) readOnly frame states =
      (make shares readOnly frame states).rename ρ := rfl

@[simp] theorem kind_rename (p : Permission) (s : Solution) :
    (p.rename ρ).kind (s.rename ρ) = p.kind s := by
  have zero := Solution.isZero_rename ρ s (.single p.shares.below)
  have below := Solution.isOne_rename ρ s (.single p.shares.below)
  have root := Solution.isOne_rename ρ s (.single p.shares.rootValue)
  simp only [Term.rename] at zero below root
  simp only [kind, rename_shares, Shares.rename_below, Shares.rootValue_rename, zero, below, root]
  rfl

theorem reroot_rename (p : Permission) (root : String) :
    (p.rename ρ).reroot root = (p.reroot root).rename ρ := by
  simp only [reroot, rename_shares, Shares.reroot_rename]
  rfl

theorem moveDown_rename (p : Permission) (n : String) :
    (p.rename ρ).moveDown n = ((p.moveDown n).1.rename ρ, (p.moveDown n).2.map (·.rename ρ)) := by
  have beside : (p.rename ρ).beside n = p.beside n := rfl
  simp [moveDown, beside, reroot_rename]

end Permission

namespace Request

def rename (q : Request) : Request := { q with permission := q.permission.rename ρ }

end Request

namespace Pool

def rename (pool : Pool) : Pool := pool.map fun p => p.rename ρ

theorem extract?_rename (test : Permission → Bool)
    (blind : ∀ p : Permission, test (p.rename ρ) = test p) (pool : Pool) :
    extract? test (rename ρ pool) =
      (pool.extract? test).map fun (p, others) => (p.rename ρ, rename ρ others) := by
  induction pool with
  | nil => rfl
  | cons p rest ih =>
      simp only [rename, List.map_cons, extract?, blind] at ih ⊢
      rw [ih]
      split
      · rfl
      · cases extract? test rest <;> rfl

theorem take?_rename (pool : Pool) (needed : String) (tolerateSmaller : Bool) :
    take? (rename ρ pool) needed tolerateSmaller =
      (pool.take? needed tolerateSmaller).map
        fun (p, others) => (p.rename ρ, rename ρ others) := by
  simp only [take?]
  rw [extract?_rename ρ (fun p => p.root == needed) (fun _ => rfl),
    extract?_rename ρ (fun p => p.covers needed) (fun _ => rfl),
    extract?_rename ρ (fun p => p.space.covers needed p.root) (fun _ => rfl)]
  cases pool.extract? fun p => p.root == needed with
  | some found => rfl
  | none =>
      cases pool.extract? fun p => p.covers needed with
      | some found =>
          simp only [Option.map_some, Option.map_none, Permission.moveDown_rename, rename,
            List.map_append]
      | none => cases tolerateSmaller <;> rfl

end Pool

namespace RequestSet

def rename (r : RequestSet) : RequestSet :=
  ⟨r.space, r.virtuals.map (·.rename ρ), r.frames.map (·.rename ρ), r.constraints.rename ρ⟩

end RequestSet

namespace RequestOverlap

def rename (o : RequestOverlap) : RequestOverlap :=
  ⟨o.first.rename ρ, o.second.rename ρ, o.space⟩

end RequestOverlap

namespace RequestSet

theorem overlap?_rename (space : Space) (a b : List Request) :
    overlap? space (a.map (·.rename ρ)) (b.map (·.rename ρ)) =
      (overlap? space a b).map (·.rename ρ) := by
  have pairs : ((a.map (·.rename ρ)).flatMap fun p =>
        (b.map (·.rename ρ)).map fun q => RequestOverlap.mk p q space) =
      (a.flatMap fun p => b.map fun q => RequestOverlap.mk p q space).map (·.rename ρ) := by
    simp [List.flatMap_map, List.map_flatMap, Function.comp_def, RequestOverlap.rename]
  simp only [overlap?, pairs, List.find?_map]
  rfl

theorem combine_rename (a b : RequestSet) :
    (a.rename ρ).combine (b.rename ρ) =
      ((a.combine b).map (·.rename ρ)).mapError (·.rename ρ) := by
  simp only [combine]
  simp only [rename, overlap?_rename, Constraints.append_rename, ← List.map_append]
  cases overlap? a.space a.virtuals b.virtuals with
  | some overlap => rfl
  | none => cases overlap? a.space a.frames b.frames <;> rfl

end RequestSet

end Renaming

section Moving

variable {start amount : Nat}

open Ledger

theorem Shares.tabulate_moved (space : Space) (root : String)
    {above other : String → LedgerM Fraction} {below otherBelow : LedgerM Fraction}
    (values : ∀ n, Coupled (Moved start amount)
      (fun f g => g = f.rename (.shift start amount)) (above n) (other n))
    (lowest : Coupled (Moved start amount)
      (fun f g => g = f.rename (.shift start amount)) below otherBelow) :
    Coupled (Moved start amount) (fun a b => b = a.rename (.shift start amount))
      (tabulate space root above below) (tabulate space root other otherBelow) := by
  have entries : Coupled (Moved start amount)
      (fun xs ys => ys = xs.map (renameEntry (.shift start amount)))
      ((space.ancestors root).mapM fun n => do return (n, ← above n))
      (((space.ancestors root).map id).mapM fun n => do return (n, ← other n)) :=
    Coupled.mapM id _ (fun n => (values n).bind fun f g same => .pure (by rw [same]; rfl)) _
  rw [List.map_id] at entries
  refine entries.bind fun xs ys listed => lowest.bind fun f g same => .pure ?_
  rw [listed, same]
  rfl

theorem Shares.combine_moved (s t : Shares) {both : Fraction → Fraction → LedgerM Fraction}
    (coupled : ∀ f g, Coupled (Moved start amount)
      (fun a b => b = a.rename (.shift start amount)) (both f g)
      (both (f.rename (.shift start amount)) (g.rename (.shift start amount)))) :
    Coupled (Moved start amount) (fun a b => b = a.rename (.shift start amount))
      (s.combine t both)
      ((s.rename (.shift start amount)).combine (t.rename (.shift start amount)) both) := by
  refine (Coupled.mapM (renameEntry (.shift start amount)) (renameEntry (.shift start amount))
    (fun e => ?_) s.values).bind
    fun xs ys listed => (coupled s.below t.below).bind fun f g same => .pure ?_
  · obtain ⟨n, f⟩ := e
    simp only [renameEntry, get_rename]
    exact (coupled f (t.get n)).bind fun f g same => .pure (by rw [same])
  · rw [listed, same]
    rfl

namespace Permission

theorem splitFraction_moved (p q : Fraction) :
    Coupled (Moved start amount) (fun a b => b = a.rename (.shift start amount))
      (splitFraction p q)
      (splitFraction (p.rename (.shift start amount)) (q.rename (.shift start amount))) := by
  simp only [splitFraction, Fraction.rename_eq_zero, Fraction.rename_inj]
  split
  · exact .pure rfl
  · split
    · exact .pure rfl
    · refine fresh_moved.bind fun r r' drawn =>
        (demand_moved fun cs => ?_).bind fun _ _ _ => .pure drawn
      have sum := Term.ofSum_rename (.shift start amount) [q, r]
      simp only [List.map_cons, List.map_nil] at sum
      rw [drawn, sum]
      exact Constraints.addEqual_rename _ cs p _

theorem split_moved (p : Permission) (q : Request) (s : Solution) :
    Coupled (Moved start amount) (fun a b => b = a.map (·.rename (.shift start amount)))
      (p.split q s)
      ((p.rename (.shift start amount)).split (q.rename (.shift start amount))
        (s.rename (.shift start amount))) := by
  have shares : Coupled (Moved start amount) _ _ _ :=
    p.shares.combine_moved q.permission.shares splitFraction_moved
  have kind : (q.rename (.shift start amount)).kind = q.kind := rfl
  simp only [split, kind_rename, kind]
  cases (p.kind s).split q.kind with
  | impossible =>
      refine (demand_moved fun cs => ?_).bind fun _ _ _ => .pure ?_
      · rfl
      · rfl
  | nothing => exact shares.bind fun _ _ _ => .pure rfl
  | kind k => exact shares.bind fun a b same => .pure (by rw [same]; rfl)

theorem weaken_moved (first : Fraction) (rest : List Fraction) :
    Coupled (Moved start amount) (fun a b => b = a.rename (.shift start amount))
      (weaken first rest)
      (weaken (first.rename (.shift start amount))
        (rest.map (·.rename (.shift start amount)))) := by
  have bounds (w : Fraction) (fs : List Fraction) (cs : Constraints) :
      (fs.map (·.rename (.shift start amount))).foldl
          (fun cs f => cs.addAtMost (w.rename (.shift start amount)) f)
          (cs.rename (.shift start amount)) =
        (fs.foldl (fun cs (f : Fraction) => cs.addAtMost w f) cs).rename
          (.shift start amount) := by
    induction fs generalizing cs with
    | nil => rfl
    | cons f rest ih =>
        have bound := Constraints.addAtMost_rename (.shift start amount) cs (.single w) (.single f)
        simp only [Term.rename] at bound
        simp only [List.map_cons, List.foldl_cons, bound, ih]
  simp only [weaken_eq, List.all_map, Function.comp_def, Fraction.beq_rename]
  split
  · exact .pure rfl
  · refine fresh_moved.bind fun w w' drawn => (demand_moved fun cs => ?_).bind
      fun _ _ _ => .pure drawn
    rw [drawn]
    exact bounds w (first :: rest) cs

theorem combineUp_moved (root : String) (parts : List Permission) :
    Coupled (Moved start amount) (fun a b => b = a.map (·.rename (.shift start amount)))
      (combineUp root parts)
      (combineUp root (parts.map (·.rename (.shift start amount)))) := by
  cases parts with
  | nil => exact .pure rfl
  | cons first rest =>
      have values (n : String) : Coupled (Moved start amount) _ _ _ :=
        weaken_moved (first.shares.get n) (rest.map (·.shares.get n))
      have lowest : Coupled (Moved start amount) _ _ _ :=
        weaken_moved first.shares.below (rest.map (·.shares.below))
      have shares := Shares.tabulate_moved first.space root values lowest
      simp only [List.map_map, Function.comp_def] at shares
      simp only [List.map_cons, combineUp, rename_space, List.length_cons, List.length_map,
        List.any_cons, List.any_map, Function.comp_def, rename_root, rename_shares,
        Shares.get_rename, Shares.rename_below, List.map_map]
      refine .ite (fun _ => .pure rfl) fun _ => shares.bind fun a b same => .pure ?_
      rw [same]
      simp [make_rename, List.flatMap_map, rename]

end Permission

namespace Pool

theorem takeCombined_moved (pool : Pool) (root : String) :
    Coupled (Moved start amount)
      (fun a b => b = (a.1.map (·.rename (.shift start amount)),
        rename (.shift start amount) a.2))
      (pool.takeCombined root)
      (takeCombined (rename (.shift start amount) pool) root) := by
  cases pool with
  | nil => exact .pure rfl
  | cons first rest =>
      have parts : Coupled (Moved start amount) _ _ _ := Permission.combineUp_moved root
        ((first :: rest).filter fun p => (first.space.dimensions root).contains p.root)
      have head : (rename (.shift start amount) (first :: rest)).head? =
        some (first.rename (.shift start amount)) := rfl
      simp only [takeCombined_eq, head, List.head?_cons]
      simp only [rename, List.any_map, Function.comp_def, List.filter_map, Permission.rename_root,
        Permission.rename_space]
      exact .ite (fun _ => .pure rfl) fun _ => parts.bind fun a b same => .pure (by rw [same])

theorem claim_moved (pool : Pool) (q : Request) :
    Coupled (Moved start amount)
      (fun a b => b = (a.1.map (·.rename (.shift start amount)),
        rename (.shift start amount) a.2))
      (pool.claim q)
      (claim (rename (.shift start amount) pool) (q.rename (.shift start amount))) := by
  have root : (q.rename (.shift start amount)).root = q.root := rfl
  have tolerates : (q.rename (.shift start amount)).toleratesSmallerRoot =
    q.toleratesSmallerRoot := rfl
  simp only [claim, root, tolerates, take?_rename]
  cases pool.take? q.root q.toleratesSmallerRoot with
  | some found => exact .pure rfl
  | none => exact takeCombined_moved pool q.root

theorem splitOne_moved (s : Solution) (pool : Pool) (q : Request) :
    Coupled (Moved start amount) (fun a b => b = rename (.shift start amount) a)
      (pool.splitOne s q)
      (splitOne (s.rename (.shift start amount)) (rename (.shift start amount) pool)
        (q.rename (.shift start amount))) := by
  simp only [splitOne_eq]
  refine (claim_moved pool q).bind fun a b same => ?_
  rw [same]
  obtain ⟨taken, others⟩ := a
  cases taken with
  | none =>
      refine (demand_moved fun cs => ?_).bind fun _ _ _ => .pure ?_
      · rfl
      · rfl
  | some p =>
      refine (Permission.split_moved p q s).bind fun c d left => ?_
      rw [left]
      cases c with
      | none => exact .pure rfl
      | some remainder => exact .pure (by simp [rename])

theorem split_moved (s : Solution) (pool : Pool) (requests : List Request) :
    Coupled (Moved start amount) (fun a b => b = rename (.shift start amount) a)
      (pool.split s requests)
      (split (s.rename (.shift start amount)) (rename (.shift start amount) pool)
        (requests.map (·.rename (.shift start amount)))) :=
  Coupled.foldlM _ _ (splitOne_moved s) requests pool

end Pool

theorem Request.shares_moved (space : Space) (root : String) (named : Bool) (kind : Kind) :
    Coupled (Moved start amount) (fun a b => b = a.rename (.shift start amount))
      (shares space root named kind) (shares space root named kind) := by
  have above (below : Fraction) (fixed : below.rename (.shift start amount) = below) :
      Coupled (Moved start amount) (fun a b => b = a.rename (.shift start amount))
        (Shares.freshAbove space root named below) (Shares.freshAbove space root named below) :=
    Shares.tabulate_moved space root (fun _ => freshOf_moved named) (.pure fixed.symm)
  have everywhere : Coupled (Moved start amount)
      (fun a b => b = a.rename (.shift start amount))
      (Shares.freshAll space root named) (Shares.freshAll space root named) :=
    Shares.tabulate_moved space root (fun _ => freshOf_moved named) (freshOf_moved named)
  cases kind with
  | unique => exact .pure (Shares.constant_rename _ space root .one).symm
  | full => exact above .one rfl
  | share | immutable => exact everywhere
  | pure => exact above .zero rfl

theorem demandNonZero_moved (f : Fraction) :
    Coupled (Moved start amount) (fun _ _ => True) (demand (·.addNonZero f))
      (demand (·.addNonZero (f.rename (.shift start amount)))) :=
  demand_moved fun cs => Constraints.addNonZero_rename _ cs (.single f)

theorem Permission.demandUsed_moved (p : Permission) :
    Coupled (Moved start amount) (fun _ _ => True) p.demandUsed
      (p.rename (.shift start amount)).demandUsed := by
  simp only [demandUsed, rename_shares, Shares.rootValue_rename]
  exact demandNonZero_moved p.shares.rootValue

theorem Request.create_moved (space : Space) (spec : Spec) (named : Bool) :
    Coupled (Moved start amount) (fun a b => b = a.rename (.shift start amount))
      (create space spec named) (create space spec named) := by
  refine (shares_moved space spec.root named spec.kind).bind fun a b same => ?_
  rw [same]
  refine (Permission.demandUsed_moved (.make a _ _ _)).bind fun _ _ _ => .ite (fun _ => ?_) ?_
  · exact (demandNonZero_moved a.below).bind fun _ _ _ => .pure rfl
  · exact fun _ => .pure rfl

theorem RequestSet.ofSpec_moved (space : Space) (spec : Spec) (named : Bool) :
    Coupled (Supply.Moved start amount) (fun a b => b = a.rename (.shift start amount))
      (ofSpec space spec named) (ofSpec space spec named) := by
  refine (within_moved (Request.create_moved space spec named) .empty).bind
    fun a b same => .pure ?_
  obtain ⟨request, demanded⟩ := same
  rw [request, demanded]
  have frame : (a.1.rename (.shift start amount)).isFrame = a.1.isFrame := rfl
  simp only [ofRequest, frame]
  split <;> rfl

end Moving

end Typestate
