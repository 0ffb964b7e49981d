import Typestate.SortedMap

set_option autoImplicit false

/-!
What a sorted map holds after an insertion or a union, and that its keys stay in order.
-/

namespace Typestate

namespace SortedMap

variable {κ ν : Type} [DecidableEq κ] [LT κ] [DecidableLT κ]

theorem mem_insert {m : SortedMap κ ν} {key : κ} {value : ν} {entry : κ × ν}
    (member : entry ∈ (m.insert key value).entries) :
    entry = (key, value) ∨ entry ∈ m.entries := by
  have inside (es : List (κ × ν)) (member : entry ∈ insertInto key value es) :
      entry = (key, value) ∨ entry ∈ es := by
    induction es with
    | nil => exact .inl (List.mem_singleton.mp member)
    | cons e rest ih =>
        unfold insertInto at member
        split at member
        · exact (List.mem_cons.mp member).imp_right (List.mem_cons_of_mem e)
        · split at member
          · exact List.mem_cons.mp member
          · rcases List.mem_cons.mp member with rfl | later
            · exact .inr List.mem_cons_self
            · exact (ih later).imp_right (List.mem_cons_of_mem e)
  exact inside m.entries member

theorem get?_insert_self (m : SortedMap κ ν) (key : κ) (value : ν) :
    (m.insert key value).get? key = some value := by
  have found (es : List (κ × ν)) :
      (insertInto key value es).find? (fun e => e.1 = key) = some (key, value) := by
    induction es with
    | nil => simp [insertInto]
    | cons e rest ih =>
        unfold insertInto
        split
        · simp
        · next apart =>
            split
            · simp
            · rw [List.find?_cons_of_neg (by simpa using Ne.symm apart), ih]
  simp [get?, insert, found]

theorem get?_insert_of_ne (m : SortedMap κ ν) {key other : κ} (value : ν) (apart : other ≠ key) :
    (m.insert key value).get? other = m.get? other := by
  have entries (es : List (κ × ν)) :
      (insertInto key value es).find? (fun e => e.1 = other) = es.find? fun e => e.1 = other := by
    induction es with
    | nil => simp [insertInto, apart.symm]
    | cons e rest ih =>
        simp only [insertInto]
        split
        · next same => simp [← same, apart.symm]
        · split
          · simp [apart.symm]
          · simp only [List.find?_cons, ih]
  simp only [get?, insert, entries]

omit [LT κ] [DecidableLT κ] in
theorem mem_of_get? {m : SortedMap κ ν} {key : κ} {value : ν} (found : m.get? key = some value) :
    (key, value) ∈ m.entries := by
  obtain ⟨entry, first, rfl⟩ := Option.map_eq_some_iff.mp found
  have same : entry.1 = key := by simpa using List.find?_some first
  rw [← same]
  exact List.mem_of_find?_eq_some first

theorem mem_overlay {a b : SortedMap κ ν} {entry : κ × ν}
    (member : entry ∈ (a.overlay b).entries) : entry ∈ a.entries ∨ entry ∈ b.entries := by
  have inside (es : List (κ × ν)) (m : SortedMap κ ν)
      (member : entry ∈ (es.foldl (fun m e => m.insert e.1 e.2) m).entries) :
      entry ∈ m.entries ∨ entry ∈ es := by
    induction es generalizing m with
    | nil => exact .inl member
    | cons e rest ih =>
      rcases ih _ member with early | later
      · rcases mem_insert early with rfl | old
        · exact .inr List.mem_cons_self
        · exact .inl old
      · exact .inr (List.mem_cons_of_mem e later)
  exact inside b.entries a member

theorem mem_union {a b : SortedMap κ ν} {entry : κ × ν} (member : entry ∈ (a.union b).entries) :
    entry ∈ a.entries ∨ entry ∈ b.entries := by
  unfold union at member
  split at member
  · exact mem_overlay member
  · exact (mem_overlay member).symm

/-- The keys ascend, so none of them occurs twice. -/
def Ascending (m : SortedMap κ ν) : Prop := m.entries.Pairwise fun a b => a.1 < b.1

theorem Ascending.insert [Std.Trichotomous fun a b : κ => a < b]
    [Trans (fun a b : κ => a < b) (fun a b : κ => a < b) fun a b : κ => a < b]
    {m : SortedMap κ ν} (ascending : m.Ascending) (key : κ) (value : ν) :
    (m.insert key value).Ascending := by
  obtain ⟨entries⟩ := m
  unfold Ascending SortedMap.insert at *
  induction entries with
  | nil => exact List.pairwise_singleton _ _
  | cons e rest ih =>
    obtain ⟨first, later⟩ := List.pairwise_cons.mp ascending
    unfold insertInto
    split
    · next same => exact List.pairwise_cons.mpr ⟨same ▸ first, later⟩
    · next apart =>
      split
      · next less =>
        refine List.pairwise_cons.mpr ⟨?_, ascending⟩
        intro d member
        rcases List.mem_cons.mp member with rfl | inside
        · exact less
        · exact Std.lt_trans less (first d inside)
      · next notLess =>
        refine List.pairwise_cons.mpr ⟨?_, ih later⟩
        intro d member
        rcases mem_insert (m := ⟨rest⟩) member with rfl | inside
        · exact Decidable.byContradiction fun notGreater =>
            apart (Std.Trichotomous.trichotomous _ _ notLess notGreater)
        · exact first d inside

theorem insertInto_greatest [Std.Asymm fun a b : κ => a < b] {es : List (κ × ν)} {key : κ}
    (value : ν) (greatest : ∀ e ∈ es, e.1 < key) :
    insertInto key value es = es ++ [(key, value)] := by
  induction es with
  | nil => rfl
  | cons e rest ih =>
    obtain ⟨less, others⟩ := List.forall_mem_cons.mp greatest
    have apart : key ≠ e.1 := (Std.ne_of_lt less).symm
    rw [insertInto, if_neg apart, if_neg (Std.not_gt_of_lt less), ih others, List.cons_append]

end SortedMap

end Typestate
