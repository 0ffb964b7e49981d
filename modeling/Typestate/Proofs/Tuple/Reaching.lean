import Typestate.Proofs.Tuple.Wrangling

set_option autoImplicit false

/-!
Making a root accessible. A receiver that is unpacked elsewhere is packed first, in as many ways as
there are; after that it is packed everywhere, and unpacking it once more ends the search.
-/

namespace Typestate

open Analysis

theorem Analysis.Delivers.bind_congr {α β : Type} {work : AnalysisM α} {shown : α → Prop}
    (delivers : Delivers work shown) {step other : α → AnalysisM β}
    (same : ∀ a, shown a → step a = other a) : (work >>= step) = (work >>= other) := by
  apply ExceptT.ext
  apply StateT.ext
  intro session
  rw [ExceptT.run_bind, StateT.run_bind, ExceptT.run_bind, StateT.run_bind]
  rcases ran : work.run.run session with ⟨_ | a, middle⟩
  · rfl
  · change (step a).run.run middle = (other a).run.run middle
    rw [same a (delivers.result ran)]

namespace Context

theorem mapTensors_congr {P : Tuple → Prop} {f g : Tuple → Branch → AnalysisM Context}
    (same : ∀ t b, P t → f t b = g t b) {c : Context} (every : c.Every P) :
    c.mapTensors f = c.mapTensors g := by
  induction c using leaf_induction with
  | stuck | packFailed | unreachable => rfl
  | tensor t b => exact same t b (every t List.mem_cons_self)
  | node j es ih =>
    rw [every_node] at every
    have elements : es.mapM (mapTensors f) = es.mapM (mapTensors g) := by
      induction es with
      | nil => rfl
      | cons e rest again =>
        rw [List.forall_mem_cons] at ih every
        rw [List.mapM_cons, List.mapM_cons, ih.1 every.1, again ih.2 every.2]
    rw [mapTensors_node, mapTensors_node, elements]

theorem ofTuples_run (b : Branch) (purpose : String) (ts : List Tuple) (session : Session) :
    ∃ context next, (ofTuples b purpose ts).run.run session = (.ok context, next) ∧
      context.tuples = ts := by
  have branched (ts : List Tuple) (session : Session) : ∃ es next,
      (ts.mapM fun t => do return Context.tensor t (← freshBranch b purpose)).run.run session =
        (.ok es, next) ∧ tuplesIn es = ts := by
    induction ts generalizing session with
    | nil => exact ⟨[], session, rfl, rfl⟩
    | cons t rest ih =>
      obtain ⟨d, middle, drawn⟩ : ∃ d middle, (freshBranch b purpose).run.run session =
          (.ok d, middle) := ⟨_, _, rfl⟩
      obtain ⟨es, next, ran, same⟩ := ih middle
      refine ⟨.tensor t d :: es, next, ?_, by rw [tuplesIn, same]; rfl⟩
      rw [List.mapM_cons]
      refine run_bind_eq_ok.mpr ⟨_, middle, run_bind_eq_ok.mpr ⟨d, middle, drawn, rfl⟩, ?_⟩
      exact run_bind_eq_ok.mpr ⟨es, next, ran, rfl⟩
  obtain ⟨es, next, ran, same⟩ := branched ts session
  have chosen : (do
      return Context.choice (← ts.mapM fun t => do return .tensor t (← freshBranch b purpose)) :
        AnalysisM Context).run.run session = (.ok (.choice es), next) :=
    run_bind_eq_ok.mpr ⟨es, next, ran, rfl⟩
  -- A single tuple stays on the branch it was on.
  rcases ts with _ | ⟨t, _ | ⟨u, rest⟩⟩
  · exact ⟨_, _, chosen, same⟩
  · exact ⟨.tensor t b, session, rfl, rfl⟩
  · exact ⟨_, _, chosen, same⟩

end Context

namespace Tuple

variable {t : Tuple} {r : Location} {root : String} (c : ClassDecl) (b : Branch)

theorem unpackCandidates_related {space : Space} {frameRoots : List String} {n : String}
    (candidate : n ∈ unpackCandidates space frameRoots root) :
    n = root ∨ space.covers root n = true := by
  unfold unpackCandidates at candidate
  dsimp only at candidate
  split at candidate
  · exact .inl (List.mem_singleton.mp candidate)
  · obtain ⟨held, -, chosen⟩ := List.mem_filterMap.mp (List.mem_eraseDups.mp candidate)
    split at chosen
    · exact .inl (Option.some.inj chosen).symm
    · split at chosen
      · next below => exact .inr (Option.some.inj chosen ▸ below)
      · cases chosen

theorem Stands.reached (stands : t.Stands r true) : (t.get r).isBottom = false := by
  refine Bool.eq_false_iff.mpr fun bottom => ?_
  exact Bool.eq_false_iff.mp (Holding.isUnpacked_of_isBottom bottom) stands.isUnpacked

theorem Stands.packReceiver_reached (stands : t.Stands r true) (states : List String) :
    Delivers (t.packReceiver c states) fun result => ∀ packed, result = .ok packed →
      packed.Stands r false ∧ (packed.get r).isBottom = false := by
  obtain ⟨u, unpacked⟩ := stands.exists_unpacked
  obtain ⟨work, done, -⟩ := Holding.exists_pack unpacked (c.statesUnder u.root states)
  have delivers := stands.packReceiver c states
  refine ⟨?_, delivers.returns, delivers.fails⟩
  rintro session next _ ran packed rfl
  refine ⟨delivers.result ran packed rfl, ?_⟩
  obtain ⟨staged, supply, -, rfl⟩ := packReceiver_ok stands.receiver unpacked done ran
  rw [get_set_self]
  exact (Holding.isBottom_pack done supply).trans stands.reached

/-- One who packs first and then starts again from every tensor does no more than that: nothing is
packed twice. -/
theorem Stands.unpackToReach_again (stands : t.Stands r true) {u : Permission}
    (unpacked : (t.get r).unpacked = some u) (elsewhere : u.covers root = false)
    (keepPacked : Bool) :
    t.unpackToReach c b root keepPacked = (do
      let packed ← t.packToBestGuess c b
      packed.mapTensors fun t b => t.unpackToReach c b root keepPacked) := by
  have packs := packToBestGuess_delivers_packed c b (stands.packReceiver_reached c)
    stands.receiver unpacked
  have opened : t.unpackToReach c b root keepPacked = (do
      let packed ← t.packToBestGuess c b
      packed.mapTensors fun t b => t.unpackPacked c r b root keepPacked) := by
    unfold Tuple.unpackToReach
    simp [stands.receiver, stands.reached, unpacked, elsewhere]
  rw [opened]
  refine packs.bind_congr fun context every => Context.mapTensors_congr (fun t b packed => ?_) every
  exact (packed.1.unpackToReach_eq c b packed.2 root keepPacked).symm

theorem unpackPacked_keepPacked (session : Session) :
    ((t.unpackPacked c r b root true).run.run session).1.map Context.tuples =
      ((t.unpackPacked c r b root false).run.run session).1.map fun context =>
        t :: context.tuples := by
  have both (keepPacked : Bool) : (t.unpackPacked c r b root keepPacked).run.run session =
      ((unpackCandidates c.space (t.get r).frameRoots root).mapM (t.unpackReceiver c) >>= fun ts =>
        Context.ofTuples b "unpack" ((if keepPacked then [t] else []) ++ ts)).run.run session := rfl
  rw [both true, both false]
  simp only [ExceptT.run_bind, StateT.run_bind]
  rcases ((unpackCandidates c.space (t.get r).frameRoots root).mapM
    (t.unpackReceiver c)).run.run session with ⟨fault | ts, middle⟩
  · rfl
  · obtain ⟨kept, last, ran, all⟩ := Context.ofTuples_run b "unpack" (t :: ts) middle
    obtain ⟨context, next, ran', others⟩ := Context.ofTuples_run b "unpack" ts middle
    change ((Context.ofTuples b "unpack" (t :: ts)).run.run middle).1.map Context.tuples =
      ((Context.ofTuples b "unpack" ts).run.run middle).1.map fun context => t :: context.tuples
    rw [ran, ran']
    exact congrArg Except.ok (all.trans (congrArg (t :: ·) others.symm))

theorem Stands.unpackPacked_related (stands : t.Stands r false) (root : String) :
    Delivers (t.unpackPacked c r b root false) (Context.Every fun v =>
      ∃ n, (n = root ∨ c.space.covers root n = true) ∧ v.Unfolded r n) := by
  refine (stands.unpackPacked c b root).imp fun context every v member => ?_
  obtain ⟨n, candidate, unfolded⟩ := every v member
  exact ⟨n, unpackCandidates_related candidate, unfolded⟩

theorem unpackToReach_delivers (receiver : t.receiver = some r)
    (reached : (t.get r).isBottom = false) (root : String) :
    Delivers (t.unpackToReach c b root false) (Context.Every fun v =>
      (v = t ∧ ∃ u, (t.get r).unpacked = some u ∧ u.covers root = true) ∨
        ∃ n, (n = root ∨ c.space.covers root n = true) ∧ v.Unfolded r n) := by
  have anew {t : Tuple} (b : Branch) (stands : t.Stands r false)
      (reached : (t.get r).isBottom = false) :
      Delivers (t.unpackToReach c b root false) (Context.Every fun v =>
        ∃ n, (n = root ∨ c.space.covers root n = true) ∧ v.Unfolded r n) := by
    rw [stands.unpackToReach_eq c b reached]
    exact stands.unpackPacked_related c b root
  cases held : (t.get r).unpacked with
  | none =>
    refine (anew b ⟨receiver, Holding.isUnpacked_of_none held⟩ reached).imp ?_
    exact fun _ every v member => .inr (every v member)
  | some u =>
    cases there : u.covers root with
    | true =>
      have stays : t.unpackToReach c b root false = pure (.tensor t b) := by
        unfold Tuple.unpackToReach
        simp [receiver, reached, held, there]
      rw [stays]
      exact .pure (Context.every_tensor (.inl ⟨rfl, u, rfl, there⟩))
    | false =>
      have stands : t.Stands r true := ⟨receiver, Holding.isUnpacked_of_some held⟩
      -- Unpacked elsewhere: the receiver is packed first, and every outcome is unpacked anew.
      rw [stands.unpackToReach_again c b held there]
      have packs := packToBestGuess_delivers_packed c b (stands.packReceiver_reached c)
        receiver held
      refine packs.bind fun packed every => Context.mapTensors_delivers (fun t b found => ?_) every
      exact (anew b found.1 found.2).imp fun _ every v member => .inr (every v member)

/-- Making a root accessible comes to an end with the receiver unpacked at a node that is the root,
lies above it or lies below it, in every tensor. A receiver that is unpacked elsewhere is packed
once and never again, and one that is packed may stay so as exactly one more alternative. -/
theorem unpackToReach_ends_unpacked (receiver : t.receiver = some r)
    (reached : (t.get r).isBottom = false)
    (own : ∀ u, (t.get r).unpacked = some u → u.space = c.space) (root : String)
    (session : Session) :
    (session.logging = false →
      ∃ context next, (t.unpackToReach c b root false).run.run session = (.ok context, next)) ∧
    (∀ fault next, (t.unpackToReach c b root false).run.run session = (.error fault, next) →
      ∃ text, fault = .invalidAtom text) ∧
    (∀ context next, (t.unpackToReach c b root false).run.run session = (.ok context, next) →
      ∀ v ∈ context.tuples, v.receiver = some r ∧ ∃ p, (v.get r).unpacked = some p ∧
        (p.root = root ∨ c.space.covers p.root root = true ∨
          c.space.covers root p.root = true)) ∧
    (∀ u, (t.get r).unpacked = some u → u.covers root = false → ∀ keepPacked,
      t.unpackToReach c b root keepPacked = (do
        let packed ← t.packToBestGuess c b
        packed.mapTensors fun t b => t.unpackToReach c b root keepPacked)) ∧
    ((t.get r).isUnpacked = false →
      ((t.unpackToReach c b root true).run.run session).1.map Context.tuples =
        ((t.unpackToReach c b root false).run.run session).1.map fun context =>
          t :: context.tuples) := by
  have delivers := unpackToReach_delivers c b receiver reached root
  refine ⟨fun quiet => ?_, fun fault next ran => delivers.fails ran,
    fun context next ran v member => ?_, fun u unpacked elsewhere keepPacked => ?_,
    fun packed => ?_⟩
  · obtain ⟨context, next, ran, -⟩ := delivers.returns quiet
    exact ⟨context, next, ran⟩
  · rcases delivers.result ran v member with ⟨rfl, u, unpacked, there⟩ | ⟨n, related, unfolded⟩
    · refine ⟨receiver, u, unpacked, .inr (.inl ?_)⟩
      rw [← own u unpacked]
      exact there
    · obtain ⟨p, opens⟩ := unfolded.opens
      refine ⟨unfolded.receiver, p, opens.unpacked, ?_⟩
      rw [opens.root]
      exact related.imp_right .inr
  · have stands : t.Stands r true := ⟨receiver, Holding.isUnpacked_of_some unpacked⟩
    exact stands.unpackToReach_again c b unpacked elsewhere keepPacked
  · have stands : t.Stands r false := ⟨receiver, packed⟩
    rw [stands.unpackToReach_eq c b reached, stands.unpackToReach_eq c b reached]
    exact unpackPacked_keepPacked c b session

section Chains

open Link

/-- A link that is unpacked as an open one only is packed, and unpacked there again: that is below
the root that was asked for. -/
theorem unpackToReach_ends_unpacked_of_link :
    let held := (chain ⟨1⟩ ⟨2⟩).set ⟨0⟩
      (.held ⟨[], [], some ((whole true).reroot "open"), .empty⟩)
    ∃ context next, (held.unpackToReach link .root alive false).run.run Session.new =
      (.ok context, next) ∧ context.tuples.length = 1 ∧
      ∀ u ∈ context.tuples, u.receiver = some ⟨0⟩ ∧ ∃ p, (u.get ⟨0⟩).unpacked = some p ∧
        (p.root = alive ∨ link.space.covers p.root alive = true ∨
          link.space.covers alive p.root = true) := by
  intro held
  have runs : leadsTo (held.unpackToReach link .root alive false) Session.new
      (fun context _ => context.tuples.length == 1) = true := by
    decide +kernel
  obtain ⟨context, next, ran, single⟩ := exists_of_leadsTo runs
  have own : ∀ u, (held.get ⟨0⟩).unpacked = some u → u.space = link.space := by
    rintro _ ⟨⟩
    rfl
  have reaches := (unpackToReach_ends_unpacked link .root (t := held) (r := ⟨0⟩) rfl rfl own alive
    Session.new).2.2.1
  exact ⟨context, next, ran, by simpa using single, reaches context next ran⟩

end Chains

end Tuple

end Typestate
