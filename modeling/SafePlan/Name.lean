/-
# SafePlan.Name — names, and finite sets of them

Relations, variables and constants go by names: texts, compared code point by
code point. A finite set of names is the increasing list of its members, so
two sets with the same members are the same list (`NameSet.eq_of_mem_iff`);
every answer that lists names without an order of its own is such a set.
-/
set_option autoImplicit false

namespace SafePlan

abbrev Name := String

/-- The members in increasing order, each once. -/
abbrev NameSet := List Name

namespace NameSet

/-- Put a name at its place in an increasing list, unless it stands there. -/
def insert (name : Name) : NameSet → NameSet
  | [] => [name]
  | least :: others =>
    if name < least then name :: least :: others
    else if name = least then least :: others
    else least :: insert name others

/-- The set of the names in a list. -/
def ofList (names : List Name) : NameSet := names.foldr insert []

theorem mem_insert {name added : Name} {set : NameSet} :
    name ∈ insert added set ↔ name = added ∨ name ∈ set := by
  induction set with
  | nil => simp [insert]
  | cons least others ih =>
    rw [insert]
    split
    · simp
    · split <;> rename_i same
      · simp [same]
      · simp only [List.mem_cons, ih]
        grind

@[simp] theorem mem_ofList {name : Name} {names : List Name} :
    name ∈ ofList names ↔ name ∈ names := by
  induction names with
  | nil => simp [ofList]
  | cons head tail ih =>
    rw [ofList, List.foldr_cons, mem_insert, List.mem_cons]
    exact or_congr_right ih

/-- The members increase from left to right. -/
def Increasing (set : NameSet) : Prop := set.Pairwise (· < ·)

theorem increasing_insert {name : Name} {set : NameSet} (increasing : Increasing set) :
    Increasing (insert name set) := by
  induction set with
  | nil => simp [insert, Increasing]
  | cons least others ih =>
    have tail := List.pairwise_cons.1 increasing
    rw [insert]
    split <;> rename_i before
    · refine List.pairwise_cons.2 ⟨fun other listed => ?_, increasing⟩
      rcases List.mem_cons.1 listed with rfl | later
      · exact before
      · exact String.lt_trans before (tail.1 other later)
    · split <;> rename_i same
      · exact increasing
      · refine List.pairwise_cons.2 ⟨fun other listed => ?_, ih tail.2⟩
        rcases mem_insert.1 listed with rfl | later
        · exact Classical.byContradiction fun notAfter =>
            same (String.le_antisymm (String.not_lt.1 notAfter) (String.not_lt.1 before))
        · exact tail.1 other later

theorem increasing_ofList (names : List Name) : Increasing (ofList names) := by
  induction names with
  | nil => simp [ofList, Increasing]
  | cons head tail ih => exact increasing_insert ih

/-- **Extensionality.** Increasing lists with the same members are equal. -/
theorem eq_of_mem_iff : ∀ {left right : NameSet}, Increasing left → Increasing right →
    (∀ name, name ∈ left ↔ name ∈ right) → left = right
  | [], [], _, _, _ => rfl
  | [], least :: _, _, _, same => by simpa using (same least).2 (by simp)
  | least :: _, [], _, _, same => by simpa using (same least).1 (by simp)
  | x :: xs, y :: ys, leftIncreasing, rightIncreasing, same => by
    have above := List.pairwise_cons.1 leftIncreasing
    have above' := List.pairwise_cons.1 rightIncreasing
    have heads : x = y := by
      rcases List.mem_cons.1 ((same x).1 (by simp)) with here | later
      · exact here
      rcases List.mem_cons.1 ((same y).2 (by simp)) with here | later'
      · exact here.symm
      · exact absurd (String.lt_trans (above.1 y later') (above'.1 x later)) (String.lt_irrefl x)
    subst heads
    congr 1
    refine eq_of_mem_iff above.2 above'.2 fun name => ?_
    have here := same name
    simp only [List.mem_cons] at here
    constructor
    · intro listed
      rcases here.1 (.inr listed) with rfl | there
      · exact absurd (above.1 _ listed) (String.lt_irrefl _)
      · exact there
    · intro listed
      rcases here.2 (.inr listed) with rfl | there
      · exact absurd (above'.1 _ listed) (String.lt_irrefl _)
      · exact there

end NameSet

end SafePlan
