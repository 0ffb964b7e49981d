import Typestate.Proofs.Permission.Locality

set_option autoImplicit false

/-!
The contracts of the operations on permissions: shares have a fraction for every node from their
root up, and only permissions with one root are merged. Each operation on pools has a twin here that
breaks off where a contract is broken. On pools whose shares are complete the twins do what the
operations do, and the shares stay complete.
-/

namespace Typestate

variable {σ ε α β : Type}

/-- Guarded work that breaks off nowhere, does what the other does, and has a result as
described. -/
def Honours (guarded : ExceptT ε (StateM σ) α) (work : StateM σ α) (shown : α → Prop) : Prop :=
  ∀ s, guarded.run.run s = (.ok (work.run s).1, (work.run s).2) ∧ shown (work.run s).1

namespace Honours

theorem yields {guarded : ExceptT ε (StateM σ) α} {work : StateM σ α} {shown : α → Prop}
    (honours : Honours guarded work shown) : Yields work shown := fun s => (honours s).2

theorem pure {shown : α → Prop} {a : α} (holds : shown a) :
    Honours (ε := ε) (σ := σ) (Pure.pure a) (Pure.pure a) shown := fun _ => ⟨rfl, holds⟩

theorem lift {work : StateM σ α} {shown : α → Prop} (yields : Yields work shown) :
    Honours (ExceptT.lift (ε := ε) work) work shown := fun s => ⟨rfl, yields s⟩

theorem bind {guarded : ExceptT ε (StateM σ) α} {work : StateM σ α} {between : α → Prop}
    {next : α → ExceptT ε (StateM σ) β} {following : α → StateM σ β} {shown : β → Prop}
    (first : Honours guarded work between)
    (second : ∀ a, between a → Honours (next a) (following a) shown) :
    Honours (guarded >>= next) (work >>= following) shown := by
  intro s
  obtain ⟨ran, holds⟩ := first s
  obtain ⟨ranNext, ended⟩ := second _ holds (work.run s).2
  refine ⟨?_, ended⟩
  rw [ExceptT.run_bind, StateT.run_bind, ran]
  exact ranNext

theorem foldlM {guarded : β → α → ExceptT ε (StateM σ) β} {step : β → α → StateM σ β}
    {shown : β → Prop} (xs : List α)
    (each : ∀ b, ∀ a ∈ xs, shown b → Honours (guarded b a) (step b a) shown) {b : β}
    (holds : shown b) : Honours (xs.foldlM guarded b) (xs.foldlM step b) shown := by
  induction xs generalizing b with
  | nil => exact pure holds
  | cons a rest ih =>
      rw [List.foldlM_cons, List.foldlM_cons]
      exact (each b a List.mem_cons_self holds).bind fun c kept =>
        ih (fun b' a' later => each b' a' (List.mem_cons_of_mem _ later)) kept

theorem mapM {guarded : α → ExceptT ε (StateM σ) β} {step : α → StateM σ β} {shown : β → Prop}
    (xs : List α) (each : ∀ a ∈ xs, Honours (guarded a) (step a) shown) :
    Honours (xs.mapM guarded) (xs.mapM step) fun ys => ∀ y ∈ ys, shown y := by
  induction xs with
  | nil => exact pure nofun
  | cons a rest ih =>
      rw [List.mapM_cons, List.mapM_cons]
      refine (each a List.mem_cons_self).bind fun y first =>
        (ih fun a' later => each a' (List.mem_cons_of_mem _ later)).bind fun ys others => ?_
      exact pure (List.forall_mem_cons.mpr ⟨first, others⟩)

end Honours

namespace Permission

/-- The permission with its shares built anew from their fractions. -/
def rebuild (p : Permission) : Except Fault Permission := do
  let shares ← Shares.ofValues p.space p.root (p.shares.values.map Prod.snd) p.shares.below
  return { p with shares }

def splitGuarded (p : Permission) (q : Request) (s : Solution) :
    ExceptT Fault LedgerM (Option Permission) := do
  match ← ExceptT.lift (p.split q s) with
  | none => return none
  | some rest => return some (← ExceptT.mk (pure rest.rebuild))

def mergeGuarded (p other : Permission) (s : Solution) : ExceptT Fault LedgerM Permission := do
  let work ← ExceptT.mk (pure (p.mergeChecked other s))
  ExceptT.mk (pure (← ExceptT.lift work).rebuild)

def joinGuarded (p other : Permission) (s : Solution) (symmetric : Bool) :
    ExceptT Fault LedgerM Permission := do
  ExceptT.mk (pure (← ExceptT.lift (p.join other s symmetric)).rebuild)

end Permission

namespace Pool

/-- Every permission has a fraction for each node from its root up. -/
def Laid (pool : Pool) : Prop := ∀ p ∈ pool, p.shares.Laid

def mergeWithinGuarded : Nat → Solution → Pool → Permission → ExceptT Fault LedgerM Pool
  | 0, _, pool, p => ExceptT.lift (pool.refuse p)
  | levels + 1, s, pool, p => do
      match pool.find? fun q => q.root == p.root with
      | some q => return pool.update (fun q => q.root == p.root) (← q.mergeGuarded p s)
      | none =>
          match pool.extract? fun q => q.covers p.root with
          | some (q, others) =>
              let (part, rest) := q.moveDown p.root
              return others ++ rest ++ [← part.mergeGuarded p s]
          | none =>
              match pool.extract? fun q => p.covers q.root with
              | some (q, others) =>
                  let (part, rest) := p.moveDown q.root
                  rest.foldlM (mergeWithinGuarded levels s) (others ++ [← q.mergeGuarded part s])
              | none =>
                  if pool.all fun q => p.space.orthogonal q.root p.root then return pool ++ [p]
                  else ExceptT.lift (pool.refuse p)

def mergeGuarded (s : Solution) (pool : Pool) (p : Permission) : ExceptT Fault LedgerM Pool :=
  mergeWithinGuarded (p.space.added.length + 2) s pool p

def splitOneGuarded (s : Solution) (pool : Pool) (q : Request) : ExceptT Fault LedgerM Pool := do
  let (taken, others) ← ExceptT.lift (pool.claim q)
  match taken with
  | none =>
      ExceptT.lift
        (Ledger.demand (·.declareImpossible ("No permission available to split off " ++ q.text)))
      return others
  | some p =>
      match ← p.splitGuarded q s with
      | some remainder => return others ++ [remainder]
      | none => return others

def splitGuarded (s : Solution) (pool : Pool) (requests : List Request) :
    ExceptT Fault LedgerM Pool :=
  requests.foldlM (splitOneGuarded s) pool

def joinGuarded (a b : Pool) (s : Solution) (symmetric : Bool) : ExceptT Fault LedgerM Pool := do
  let joined ← a.mapM fun p =>
    match b.find? fun q => q.root == p.root with
    | some q => return [← p.joinGuarded q s symmetric]
    | none => return []
  return joined.flatten

end Pool

theorem Shares.ofValues_of_laid {s : Shares} (laid : s.Laid) :
    Shares.ofValues s.space s.root (s.values.map Prod.snd) s.below = .ok s := by
  have size : (s.space.ancestors s.root).length = (s.values.map Prod.snd).length := by
    rw [← laid, List.length_map, List.length_map]
  have zipped : (s.values.map Prod.fst).zip (s.values.map Prod.snd) = s.values := by
    simpa [List.unzip_eq_map] using List.zip_unzip s.values
  rw [ofValues, if_pos size, ← laid, zipped]

theorem Shares.Laid.values_ne_nil {s : Shares} (laid : s.Laid) : s.values ≠ [] := by
  intro none
  rw [Laid, none, List.map_nil] at laid
  have some (n : String) (nodes : List SpaceNode) : Space.ancestorsAmong n nodes ≠ [] := by
    induction nodes generalizing n with
    | nil =>
        unfold Space.ancestorsAmong
        split <;> simp
    | cons e earlier ih =>
        unfold Space.ancestorsAmong
        split
        · simp
        · exact ih n
  exact some _ _ laid.symm

namespace Permission

theorem rebuild_of_laid {p : Permission} (laid : p.shares.Laid) : p.rebuild = .ok p := by
  have built := Shares.ofValues_of_laid laid
  simp only [rebuild, space, root, built]
  rfl

theorem rebuilt_honours {work : StateM σ Permission}
    (laid : Yields work fun r => r.shares.Laid) :
    Honours (do ExceptT.mk (pure (← ExceptT.lift work).rebuild)) work fun r => r.shares.Laid := by
  have built (r : Permission) (known : r.shares.Laid) :
      Honours (σ := σ) (ExceptT.mk (pure r.rebuild)) (pure r) fun r => r.shares.Laid := by
    rw [rebuild_of_laid known]
    exact .pure known
  have checked := (Honours.lift laid).bind built
  rwa [bind_pure] at checked

theorem split_honours {p : Permission} (laid : p.shares.Laid) (q : Request) (s : Solution) :
    Honours (p.splitGuarded q s) (p.split q s) fun rest => ∀ r, rest = some r → r.shares.Laid := by
  rw [← bind_pure (p.split q s)]
  refine (Honours.lift (Pool.split_laid laid q s)).bind fun rest known => ?_
  cases rest with
  | none => exact .pure known
  | some r =>
      simp only [rebuild_of_laid (known r rfl)]
      exact .pure known

theorem merge_honours {p other : Permission} (laid : p.shares.Laid) (root : p.root = other.root)
    (s : Solution) :
    Honours (p.mergeGuarded other s) (p.merge other s) fun r => r.shares.Laid := by
  have merged : Yields (p.merge other s) fun r => r.shares.Laid :=
    (Pool.combine_laid laid _ _).bind fun shares known => .pure known
  rw [mergeGuarded, mergeChecked, if_pos root]
  exact rebuilt_honours merged

theorem join_honours {p : Permission} (laid : p.shares.Laid) (other : Permission) (s : Solution)
    (symmetric : Bool) :
    Honours (p.joinGuarded other s symmetric) (p.join other s symmetric)
      fun r => r.shares.Laid :=
  rebuilt_honours ((Pool.combine_laid laid _ _).bind fun _ known => .pure known)

theorem moveDown_laid (p : Permission) (n : String) :
    (p.moveDown n).1.shares.Laid ∧ Pool.Laid (p.moveDown n).2 :=
  ⟨p.shares.reroot_laid n, List.forall_mem_map.mpr fun d _ => p.shares.reroot_laid d⟩

end Permission

namespace Pool

variable {pool others : Pool} {p : Permission}

theorem laid_append {a b : Pool} : Laid (a ++ b) ↔ a.Laid ∧ b.Laid := List.forall_mem_append

theorem Laid.add (laid : pool.Laid) (known : p.shares.Laid) : Laid (pool ++ [p]) :=
  laid_append.mpr ⟨laid, List.forall_mem_singleton.mpr known⟩

theorem Laid.extract? {test : Permission → Bool} (laid : pool.Laid)
    (found : pool.extract? test = some (p, others)) : p.shares.Laid ∧ others.Laid := by
  have perm := (extract?_perm found).1
  exact ⟨laid p (perm.mem_iff.mpr List.mem_cons_self),
    fun q member => laid q (perm.mem_iff.mpr (List.mem_cons_of_mem p member))⟩

theorem Laid.update {test : Permission → Bool} {q r : Permission} (laid : pool.Laid)
    (found : pool.find? test = some q) (known : r.shares.Laid) : Laid (pool.update test r) := by
  obtain ⟨others, perm, updated⟩ := update_perm found r
  intro x member
  rcases List.mem_cons.mp (updated.mem_iff.mp member) with rfl | rest
  · exact known
  · exact laid x (perm.mem_iff.mpr (List.mem_cons_of_mem q rest))

theorem Laid.take? (laid : pool.Laid) {needed : String} {tolerateSmaller : Bool}
    (taken : pool.take? needed tolerateSmaller = some (p, others)) :
    p.shares.Laid ∧ others.Laid := by
  have each : ∀ o ∈ p :: others, o.shares.Laid := by
    intro o member
    rcases (taking_of_take? taken).mem_or_reroot o member with inside | ⟨whole, -, n, rfl⟩
    · exact laid o inside
    · exact whole.shares.reroot_laid n
  exact List.forall_mem_cons.mp each

theorem Laid.claim (laid : pool.Laid) (q : Request) :
    Yields (pool.claim q) fun claimed =>
      (∀ p, claimed.1 = some p → p.shares.Laid) ∧ claimed.2.Laid := by
  unfold Pool.claim
  split
  · next p others taken =>
      obtain ⟨known, rest⟩ := laid.take? taken
      refine .pure ⟨?_, rest⟩
      rintro _ ⟨⟩
      exact known
  · rw [takeCombined_eq]
    split
    · exact .pure ⟨nofun, laid⟩
    · refine .ite (fun _ => .pure ⟨nofun, laid⟩) fun _ => (combineUp_laid _ _).bind
        fun whole known => .pure ⟨known, ?_⟩
      exact fun p member => laid p (List.mem_filter.mp member).1

theorem Laid.splitOne (laid : pool.Laid) (s : Solution) (q : Request) :
    Honours (pool.splitOneGuarded s q) (pool.splitOne s q) Laid := by
  rw [splitOne_eq]
  refine (Honours.lift (laid.claim q)).bind fun (taken, others) known => ?_
  cases taken with
  | none => exact (Honours.lift (.any _)).bind fun _ _ => .pure known.2
  | some p =>
      refine (p.split_honours (known.1 p rfl) q s).bind fun remainder rest => ?_
      cases remainder with
      | none => exact .pure known.2
      | some r => exact .pure (known.2.add (rest r rfl))

theorem Laid.split (laid : pool.Laid) (s : Solution) (requests : List Request) :
    Honours (pool.splitGuarded s requests) (pool.split s requests) Laid :=
  .foldlM requests (fun _ q _ laid => laid.splitOne s q) laid

theorem Laid.mergeWithin (levels : Nat) (s : Solution) (laid : pool.Laid)
    (known : p.shares.Laid) :
    Honours (mergeWithinGuarded levels s pool p) (mergeWithin levels s pool p) Laid := by
  have refused {pool : Pool} (laid : pool.Laid) (p : Permission) :
      Yields (pool.refuse p) Laid := .after fun _ => .pure laid
  induction levels generalizing pool p with
  | zero => exact .lift (refused laid p)
  | succ levels ih =>
      unfold mergeWithinGuarded Pool.mergeWithin
      cases found : pool.find? fun q => q.root == p.root with
      | some q =>
          have root : q.root = p.root := by simpa using List.find?_some found
          have same := laid q (List.mem_of_find?_eq_some found)
          exact (q.merge_honours same root s).bind fun r merged => .pure (laid.update found merged)
      | none =>
          cases higher : pool.extract? fun q => q.covers p.root with
          | some entry =>
              obtain ⟨q, others⟩ := entry
              obtain ⟨part, rest⟩ := q.moveDown_laid p.root
              -- What is higher is moved down to the root first, so the roots are the same.
              have root : (q.moveDown p.root).1.root = p.root := rfl
              refine (Permission.merge_honours part root s).bind fun r merged => .pure ?_
              exact (laid_append.mpr ⟨(laid.extract? higher).2, rest⟩).add merged
          | none =>
              cases lower : pool.extract? fun q => p.covers q.root with
              | some entry =>
                  obtain ⟨q, others⟩ := entry
                  obtain ⟨held, beside⟩ := laid.extract? lower
                  have root : q.root = (p.moveDown q.root).1.root := rfl
                  refine (Permission.merge_honours held root s).bind fun r merged => ?_
                  -- The parts beside the one that was merged go the same way, one level down.
                  exact .foldlM _ (fun pool part member laid => ih laid
                    ((p.moveDown_laid q.root).2 part member)) (beside.add merged)
              | none =>
                  dsimp only
                  split
                  · exact .pure (laid.add known)
                  · exact .lift (refused laid p)

theorem Laid.merge (laid : pool.Laid) (s : Solution) (known : p.shares.Laid) :
    Honours (pool.mergeGuarded s p) (pool.merge s p) Laid :=
  laid.mergeWithin _ s known

theorem Laid.join (laid : pool.Laid) (other : Pool) (s : Solution) (symmetric : Bool) :
    Honours (pool.joinGuarded other s symmetric) (pool.join other s symmetric) Laid := by
  have each (p : Permission) (member : p ∈ pool) :
      Honours (match other.find? fun q => q.root == p.root with
        | some q => return [← p.joinGuarded q s symmetric]
        | none => return [])
        (match other.find? fun q => q.root == p.root with
        | some q => return [← p.join q s symmetric]
        | none => return []) Laid := by
    split
    · next q _ =>
        exact (p.join_honours (laid p member) q s symmetric).bind fun r known =>
          .pure (List.forall_mem_singleton.mpr known)
    · exact .pure nofun
  refine (Honours.mapM pool each).bind fun lists known => .pure fun p member => ?_
  obtain ⟨list, inside, here⟩ := List.mem_flatten.mp member
  exact known list inside p here

end Pool

end Typestate
