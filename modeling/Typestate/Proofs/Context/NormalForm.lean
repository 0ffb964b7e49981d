import Typestate.Proofs.Context.Reachability

set_option autoImplicit false

/-!
The normal form of contexts. Making a context compact always ends in normal form, and a context in
normal form is left as it is, so doing it twice is the same as doing it once.
-/

namespace Typestate

namespace Context

mutual

/-- Contexts are leaves, or nodes of contexts. -/
@[elab_as_elim]
theorem tree_induction {motive : Context → Prop}
    (leaf : ∀ c : Context, c.branch?.isSome = true → motive c)
    (node : ∀ (j : Junction) (es : List Context), (∀ e ∈ es, motive e) → motive (j.node es)) :
    ∀ c : Context, motive c
  | .stuck _ | .packFailed _ _ | .unreachable _ | .tensor _ _ => leaf _ rfl
  | .choice es => node .choice es (tree_induction_of_mem leaf node es)
  | .all es => node .all es (tree_induction_of_mem leaf node es)

theorem tree_induction_of_mem {motive : Context → Prop}
    (leaf : ∀ c : Context, c.branch?.isSome = true → motive c)
    (node : ∀ (j : Junction) (es : List Context), (∀ e ∈ es, motive e) → motive (j.node es)) :
    ∀ es : List Context, ∀ e ∈ es, motive e
  | [] => nofun
  | first :: rest => List.forall_mem_cons.mpr
      ⟨tree_induction leaf node first, tree_induction_of_mem leaf node rest⟩

end

@[elab_as_elim]
theorem leaf_induction {motive : Context → Prop} (stuck : ∀ b, motive (.stuck b))
    (packFailed : ∀ failure b, motive (.packFailed failure b))
    (unreachable : ∀ b, motive (.unreachable b)) (tensor : ∀ t b, motive (.tensor t b))
    (node : ∀ (j : Junction) (es : List Context), (∀ e ∈ es, motive e) → motive (j.node es))
    (c : Context) : motive c := by
  induction c using tree_induction with
  | leaf c leaf =>
    cases c with
    | stuck b => exact stuck b
    | packFailed failure b => exact packFailed failure b
    | unreachable b => exact unreachable b
    | tensor t b => exact tensor t b
    | choice | all => cases leaf
  | node j es ih => exact node j es ih

/-- What tells the elements of a compact node apart: none is as good as the other in a frozen
context, and otherwise they are just not equal. -/
def Apart (freeze : Bool) (a b : Context) : Prop :=
  if freeze then a.atLeastAsPrecise b = false ∧ b.atLeastAsPrecise a = false
  else (b == a) = false

/-- There is a way on, and nothing is known to have failed. -/
def IsOpen (c : Context) : Prop := c.isStuck = false ∧ c.isUnreachable = false

inductive Normal (freeze : Bool) : Context → Prop
  | leaf {c : Context} (leaf : c.branch?.isSome = true) : Normal freeze c
  | empty (j : Junction) : Normal freeze (j.node [])
  | node (j : Junction) {es : List Context} (several : 2 ≤ es.length)
      (elements : ∀ e ∈ es, Normal freeze e) (opened : ∀ e ∈ es, e.IsOpen)
      (flat : ∀ e ∈ es, ∀ inner, e ≠ j.node inner) (apart : es.Pairwise (Apart freeze)) :
      Normal freeze (j.node es)

/-- Only tensors are leaves that can be reached and have not failed. -/
theorem Normal.open_induction {freeze : Bool} {motive : Context → Prop}
    (tensor : ∀ t b, motive (.tensor t b))
    (node : ∀ (j : Junction) (es : List Context), es ≠ [] → (∀ e ∈ es, motive e) →
      motive (j.node es))
    {c : Context} (normal : c.Normal freeze) (opened : c.IsOpen) : motive c := by
  induction normal with
  | @leaf c leaf =>
    cases c with
    | stuck | packFailed => cases opened.1
    | unreachable => cases opened.2
    | tensor t b => exact tensor t b
    | choice | all => cases leaf
  | empty j =>
    cases j with
    | choice => cases opened.1
    | all => cases opened.2
  | @node j es several _ live _ _ ih =>
    have some : es ≠ [] := by
      rintro rfl
      simp at several
    exact node j es some fun e member => ih e member (live e member)

end Context

namespace Junction

open Context

theorem isOpen_iff (j : Junction) (c : Context) :
    c.IsOpen ↔ j.absorbs c = false ∧ j.ignores c = false := by
  cases j with
  | choice => exact And.comm
  | all => exact Iff.rfl

theorem elements_node (j : Junction) (es : List Context) : j.elements (j.node es) = es := by
  cases j <;> rfl

theorem elements_cases (j : Junction) (c : Context) :
    (∃ inner, c = j.node inner) ∨ j.elements c = [c] := by
  cases j <;> cases c <;> simp [node, elements]

theorem elements_of_flat {j : Junction} {c : Context} (flat : ∀ inner, c ≠ j.node inner) :
    j.elements c = [c] := by
  rcases j.elements_cases c with ⟨inner, rfl⟩ | same
  · exact absurd rfl (flat inner)
  · exact same

theorem node_injective {i j : Junction} {es fs : List Context} (same : i.node es = j.node fs) :
    i = j ∧ es = fs := by
  cases i <;> cases j <;> cases same <;> exact ⟨rfl, rfl⟩

/-- What an element may be whose node is in normal form. -/
structure Fit (j : Junction) (freeze : Bool) (c : Context) : Prop where
  normal : c.Normal freeze
  opened : c.IsOpen
  flat : ∀ inner, c ≠ j.node inner

variable {j : Junction} {freeze : Bool} {es : List Context}

theorem fit_of_mem_elements {e c : Context} (normal : e.Normal freeze) (opened : e.IsOpen)
    (among : c ∈ j.elements e) : j.Fit freeze c := by
  rcases j.elements_cases e with ⟨inner, rfl⟩ | same
  · rw [elements_node] at among
    generalize shape : j.node inner = e at normal
    cases normal with
    | leaf leaf => cases j <;> cases shape <;> cases leaf
    | empty i =>
        obtain ⟨rfl, rfl⟩ := node_injective shape
        cases among
    | node i several elements live flat apart =>
        obtain ⟨rfl, rfl⟩ := node_injective shape
        exact ⟨elements c among, live c among, flat c among⟩
  · rw [same, List.mem_singleton] at among
    subst among
    refine ⟨normal, opened, fun inner shape => ?_⟩
    -- A node that is its own only element would be larger than itself.
    have size := congrArg sizeOf (same.symm.trans (shape ▸ j.elements_node inner))
    cases j <;> simp [shape, node] at size <;> omega

/-- How one more candidate is taken in. -/
def keep (j : Junction) (freeze : Bool) : List Context → Context → List Context :=
  if freeze then j.keepBest else keepNew

theorem apart_iff (j : Junction) (a b : Context) :
    Apart true a b ↔ j.prefers a b = false ∧ j.prefers b a = false := by
  cases j with
  | choice => exact Iff.rfl
  | all => exact And.comm

theorem mem_keep {survivors : List Context} {c s : Context}
    (member : s ∈ j.keep freeze survivors c) : s ∈ survivors ∨ s = c := by
  cases freeze with
  | false =>
      simp only [keep, keepNew, Bool.false_eq_true, if_false] at member
      split at member
      · exact .inl member
      · simpa using member
  | true =>
      simp only [keep, keepBest, if_true] at member
      split at member
      · exact .inl member
      · rcases List.mem_append.mp member with old | new
        · exact .inl (List.mem_filter.mp old).1
        · exact .inr (List.mem_singleton.mp new)

theorem keep_apart {survivors : List Context} (apart : survivors.Pairwise (Apart freeze))
    (c : Context) : (j.keep freeze survivors c).Pairwise (Apart freeze) := by
  cases freeze with
  | false =>
      -- Only repetitions are left out.
      simp only [keep, keepNew, Bool.false_eq_true, if_false]
      split
      · exact apart
      · next missing =>
          have new : ∀ s ∈ survivors, (c == s) = false := by
            simpa [List.contains_iff_exists_mem_beq] using missing
          exact List.pairwise_append.mpr ⟨apart, List.pairwise_singleton _ _,
            fun s member d last => List.mem_singleton.mp last ▸ new s member⟩
  | true =>
      -- The newcomer yields to what is preferred to it, and else it replaces what it is preferred
      -- to.
      simp only [keep, keepBest, if_true]
      split
      · exact apart
      · next best =>
          have unmatched : ∀ s ∈ survivors, j.prefers s c = false := by simpa using best
          refine List.pairwise_append.mpr ⟨apart.filter _, List.pairwise_singleton _ _,
            fun s member d last => ?_⟩
          obtain ⟨inside, kept⟩ := List.mem_filter.mp member
          rw [List.mem_singleton.mp last]
          exact (j.apart_iff s c).mpr ⟨unmatched s inside, by simpa using kept⟩

theorem keep_of_apart {survivors : List Context} {c : Context}
    (apart : ∀ s ∈ survivors, Apart freeze s c) :
    j.keep freeze survivors c = survivors ++ [c] := by
  cases freeze with
  | false =>
      have missing : survivors.contains c = false := by
        rw [Bool.eq_false_iff, ne_eq, List.contains_iff_exists_mem_beq]
        rintro ⟨s, member, same⟩
        exact absurd same (by simpa [Apart] using apart s member)
      simp [keep, keepNew, missing]
  | true =>
      have unmatched : (survivors.any fun s => j.prefers s c) = false := by
        rw [List.any_eq_false]
        exact fun s member => by simp [((j.apart_iff s c).mp (apart s member)).1]
      have kept : survivors.filter (fun s => !j.prefers c s) = survivors := by
        rw [List.filter_eq_self]
        exact fun s member => by simp [((j.apart_iff s c).mp (apart s member)).2]
      simp [keep, keepBest, unmatched, kept]

theorem keepAll_subset (candidates survivors : List Context) :
    ∀ s ∈ candidates.foldl (j.keep freeze) survivors, s ∈ survivors ∨ s ∈ candidates := by
  induction candidates generalizing survivors with
  | nil => exact fun s member => .inl member
  | cons c rest ih =>
      intro s member
      rcases ih _ s member with kept | later
      · rcases mem_keep kept with old | rfl
        · exact .inl old
        · exact .inr List.mem_cons_self
      · exact .inr (List.mem_cons_of_mem c later)

theorem keepAll_apart (j : Junction) (freeze : Bool) (candidates : List Context) :
    (candidates.foldl (j.keep freeze) []).Pairwise (Apart freeze) :=
  List.foldlRecOn candidates _ List.Pairwise.nil fun _ apart c _ => keep_apart apart c

theorem keepAll_of_apart {candidates survivors : List Context}
    (apart : (survivors ++ candidates).Pairwise (Apart freeze)) :
    candidates.foldl (j.keep freeze) survivors = survivors ++ candidates := by
  induction candidates generalizing survivors with
  | nil => simp
  | cons c rest ih =>
      have before := (List.pairwise_append.mp apart).2.2
      rw [List.foldl_cons, keep_of_apart fun s member => before s member c List.mem_cons_self,
        ih (by simpa using apart), List.append_assoc, List.singleton_append]

theorem candidates_open (absorbs : ∀ e ∈ es, j.absorbs e = false) {c : Context}
    (member : c ∈ (es.filter fun e => !j.ignores e).flatMap j.elements) :
    ∃ e ∈ es, e.IsOpen ∧ c ∈ j.elements e := by
  obtain ⟨e, kept, among⟩ := List.mem_flatMap.mp member
  obtain ⟨inside, needed⟩ := List.mem_filter.mp kept
  exact ⟨e, inside, (j.isOpen_iff e).mpr ⟨absorbs e inside, by simpa using needed⟩, among⟩

theorem compact_cases (j : Junction) (freeze : Bool) (es : List Context) :
    j.compact freeze es ∈ es ∨ ∃ survivors : List Context,
      j.compact freeze es = j.close none survivors ∧ survivors.Pairwise (Apart freeze) ∧
        ∀ s ∈ survivors, ∃ e ∈ es, e.IsOpen ∧ s ∈ j.elements e := by
  unfold compact
  cases found : es.find? j.absorbs with
  | some e => exact .inl (List.mem_of_find?_eq_some found)
  | none =>
      have absorbs : ∀ e ∈ es, j.absorbs e = false := by simpa using List.find?_eq_none.mp found
      have each (c : Context) := candidates_open absorbs (c := c)
      change j.close _ (List.foldl (j.keep freeze) [] _) ∈ es ∨ ∃ survivors : List Context,
        j.close _ (List.foldl (j.keep freeze) [] _) = _ ∧ _
      generalize (es.filter fun e => !j.ignores e).flatMap j.elements = candidates at each
      have apart := keepAll_apart j freeze candidates
      have kept (s : Context) (member : s ∈ candidates.foldl (j.keep freeze) []) :=
        each s ((keepAll_subset candidates [] s member).resolve_left nofun)
      match candidates.foldl (j.keep freeze) [], apart, kept with
      | [], apart, kept =>
          -- If no candidate is left, one of the ignored elements is the result.
          cases dropped : es.find? j.ignores with
          | none => exact .inr ⟨[], rfl, apart, kept⟩
          | some e => exact .inl (List.mem_of_find?_eq_some dropped)
      | [c], apart, kept => exact .inr ⟨[c], rfl, apart, kept⟩
      | c :: d :: rest, apart, kept => exact .inr ⟨c :: d :: rest, rfl, apart, kept⟩

theorem compact_normal (normal : ∀ e ∈ es, e.Normal freeze) :
    (j.compact freeze es).Normal freeze := by
  rcases j.compact_cases freeze es with element | ⟨survivors, same, apart, each⟩
  · exact normal _ element
  · have fit (s : Context) (member : s ∈ survivors) : j.Fit freeze s := by
      obtain ⟨e, inside, opened, among⟩ := each s member
      exact fit_of_mem_elements (normal e inside) opened among
    rw [same]
    match survivors, apart, fit with
    | [], _, _ => exact .empty j
    | [c], _, fit => exact (fit c List.mem_cons_self).normal
    | c :: d :: rest, apart, fit =>
        exact .node j (by simp) (fun s member => (fit s member).normal)
          (fun s member => (fit s member).opened) (fun s member => (fit s member).flat) apart

theorem compact_of_normal (several : 2 ≤ es.length) (opened : ∀ e ∈ es, e.IsOpen)
    (flat : ∀ e ∈ es, ∀ inner, e ≠ j.node inner) (apart : es.Pairwise (Apart freeze)) :
    j.compact freeze es = j.node es := by
  have decided : es.find? j.absorbs = none :=
    List.find?_eq_none.mpr fun e member => by simp [((j.isOpen_iff e).mp (opened e member)).1]
  have needed : (es.filter fun e => !j.ignores e) = es :=
    List.filter_eq_self.mpr fun e member => by simp [((j.isOpen_iff e).mp (opened e member)).2]
  have single : es.flatMap j.elements = es := by
    have each : es.map j.elements = es.map fun e => [e] :=
      List.map_congr_left fun e member => elements_of_flat (flat e member)
    rw [List.flatMap_def, each, ← List.flatMap_def, List.flatMap_singleton']
  have kept : es.foldl (j.keep freeze) [] = es := keepAll_of_apart (by simpa using apart)
  unfold compact
  rw [decided]
  change j.close _ (List.foldl (j.keep freeze) [] _) = _
  rw [needed, single, kept]
  match es, several with
  | c :: d :: rest, _ => rfl

end Junction

namespace Context

theorem compactList_eq (freeze : Bool) (es : List Context) :
    compactList freeze es = es.map (compact freeze) := by
  induction es with
  | nil => rfl
  | cons e rest ih => rw [compactList, ih, List.map_cons]

theorem compact_node (freeze : Bool) (j : Junction) (es : List Context) :
    (j.node es).compact freeze = j.compact freeze (es.map (compact freeze)) := by
  cases j <;> rw [Junction.node, compact, compactList_eq]

theorem compact_leaf (freeze : Bool) {c : Context} (leaf : c.branch?.isSome = true) :
    c.compact freeze = c := by
  cases c with
  | stuck | packFailed | unreachable | tensor => rfl
  | choice | all => cases leaf

theorem compact_normal (freeze : Bool) (c : Context) : (c.compact freeze).Normal freeze := by
  induction c using tree_induction with
  | leaf c leaf =>
      rw [compact_leaf freeze leaf]
      exact .leaf leaf
  | node j es ih =>
      rw [compact_node]
      exact Junction.compact_normal (List.forall_mem_map.mpr ih)

theorem Normal.compact_eq {freeze : Bool} {c : Context} (normal : c.Normal freeze) :
    c.compact freeze = c := by
  induction normal with
  | leaf leaf => exact compact_leaf freeze leaf
  | empty j => cases j <;> rfl
  | @node j es several _ opened flat apart ih =>
      have fixed : es.map (compact freeze) = es := (List.map_congr_left ih).trans es.map_id'
      rw [compact_node, fixed, Junction.compact_of_normal several opened flat apart]

/-- Compact contexts are in normal form, and making them compact again changes nothing. -/
theorem compact_idempotent_and_normal (freeze : Bool) (c : Context) :
    (c.compact freeze).compact freeze = c.compact freeze ∧ (c.compact freeze).Normal freeze :=
  ⟨(compact_normal freeze c).compact_eq, compact_normal freeze c⟩

end Context

end Typestate
