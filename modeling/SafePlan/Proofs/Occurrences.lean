/-
# SafePlan.Proofs.Occurrences — the check over numbered atoms

The check can be made with a set of numbers for each variable that occurs, those of
the atoms that mention it: two variables conflict when their sets overlap and neither
contains the other, and the least number in both leads to the relation. The numbers
have 32 bits. As long as there are at most `2 ^ 32` atoms each has its own, in the order
of the atoms, and this is the check by the atoms themselves (`checkNumbers_eq`). With
more atoms two of them would be taken for one.
-/
import SafePlan.Proofs.Hierarchical

set_option autoImplicit false

namespace SafePlan

/-- The numbers of the atoms that mention a variable. -/
def numbers (atoms : List Atom) (x : Name) : List UInt32 :=
  (occurrences atoms x).map UInt32.ofNat

/-- The relation of the atom with the least number in both sets, unless one contains the
other or they have none in common. -/
def overlap? (atoms : List Atom) (left right : List UInt32) : Option Name :=
  let common := left.filter (· ∈ right)
  if left ⊆ right ∨ right ⊆ left ∨ common = [] then none
  else some (((common.min?.bind fun n => atoms[n.toNat]?).map Atom.relation).getD "")

/-- The first two of the variables with sets that overlap so. -/
def firstOverlap? (atoms : List Atom) : List (Name × List UInt32) → Option Unsupported
  | [] => none
  | (x, left) :: later =>
    (later.findSome? fun other =>
      (overlap? atoms left other.2).map (.notHierarchical x other.1)).or (firstOverlap? atoms later)

def Query.checkNumbers (q : Query) : Except Unsupported Unit :=
  match firstOverlap? q.atoms (q.occurringVars.map fun x => (x, numbers q.atoms x)) with
  | some conflict => .error conflict
  | none => .ok ()

section Numbers

variable {atoms : List Atom} {x y : Name}

theorem mem_occurrences {i : Nat} :
    i ∈ occurrences atoms x ↔ ∃ a, atoms[i]? = some a ∧ x ∈ a.vars := by
  simp only [occurrences, List.mem_filterMap, Prod.exists, List.mem_zipIdx_iff_getElem?]
  constructor
  · rintro ⟨a, position, stands, found⟩
    split at found <;> rename_i mentioned
    · cases found
      exact ⟨a, stands, Atom.mentions_iff.1 mentioned⟩
    · cases found
  · rintro ⟨a, stands, occurs⟩
    exact ⟨a, i, stands, if_pos (Atom.mentions_iff.2 occurs)⟩

/-- A variable that does not occur is in no conflict. -/
theorem conflict?_of_absent (y : Name) (absent : atoms.any (·.mentions x) = false) :
    conflict? atoms x y = none ∧ conflict? atoms y x = none := by
  have nowhere : ∀ a ∈ atoms, x ∉ a.vars := by simpa [Atom.mentions] using absent
  have uncrossed : ¬ Crossing atoms x y := by
    intro crossing
    obtain ⟨a, listed, hasX, -⟩ := crossing.together
    exact nowhere a listed hasX
  exact ⟨conflict?_eq_none_iff.2 uncrossed,
    conflict?_eq_none_iff.2 fun crossing => uncrossed crossing.symm⟩

/-- So only those that occur are looked at. -/
theorem findSome?_occurring {α : Type} {f : Name → Option α}
    (absent : ∀ y, atoms.any (·.mentions y) = false → f y = none) (vars : List Name) :
    (Query.occurring vars atoms).findSome? f = vars.findSome? f := by
  induction vars with
  | nil => rfl
  | cons y later ih =>
    rw [Query.occurring, List.filter_cons, List.findSome?_cons, ← ih]
    split <;> rename_i occurs
    · rw [List.findSome?_cons, Query.occurring]
    · rw [absent y (Bool.eq_false_of_not_eq_true occurs), Query.occurring]

variable (few : atoms.length ≤ UInt32.size)

include few

theorem toNat_number {i : Nat} {a : Atom} (stands : atoms[i]? = some a) :
    (UInt32.ofNat i).toNat = i :=
  UInt32.toNat_ofNat_of_lt' (Nat.lt_of_lt_of_le (List.getElem?_eq_some_iff.1 stands).1 few)

theorem mem_numbers {n : UInt32} :
    n ∈ numbers atoms x ↔ ∃ a, atoms[n.toNat]? = some a ∧ x ∈ a.vars := by
  simp only [numbers, List.mem_map, mem_occurrences]
  constructor
  · rintro ⟨i, ⟨a, stands, occurs⟩, rfl⟩
    exact ⟨a, by rwa [toNat_number few stands], occurs⟩
  · rintro ⟨a, stands, occurs⟩
    exact ⟨n.toNat, ⟨a, stands, occurs⟩, UInt32.ofNat_toNat⟩

/-- Every atom has a number. -/
theorem exists_number {a : Atom} (listed : a ∈ atoms) : ∃ n : UInt32, atoms[n.toNat]? = some a := by
  obtain ⟨i, stands⟩ := List.mem_iff_getElem?.1 listed
  exact ⟨UInt32.ofNat i, by rwa [toNat_number few stands]⟩

/-- An atom's number is in the sets of its variables. -/
theorem number_mem_iff {n : UInt32} {a : Atom} (stands : atoms[n.toNat]? = some a) :
    n ∈ numbers atoms x ↔ x ∈ a.vars := by
  rw [mem_numbers few, stands]
  simp

theorem not_numbers_subset_iff :
    ¬ numbers atoms x ⊆ numbers atoms y ↔ ∃ a ∈ atoms, x ∈ a.vars ∧ y ∉ a.vars := by
  simp only [List.subset_def, not_forall]
  constructor
  · rintro ⟨n, inX, notInY⟩
    obtain ⟨a, stands, hasX⟩ := (mem_numbers few).1 inX
    exact ⟨a, List.mem_of_getElem? stands, hasX, mt (number_mem_iff few stands).2 notInY⟩
  · rintro ⟨a, listed, hasX, noY⟩
    obtain ⟨n, stands⟩ := exists_number few listed
    exact ⟨n, (number_mem_iff few stands).2 hasX, mt (number_mem_iff few stands).1 noY⟩

theorem numbers_meet_iff :
    (∃ n, n ∈ numbers atoms x ∧ n ∈ numbers atoms y) ↔ ∃ a ∈ atoms, x ∈ a.vars ∧ y ∈ a.vars := by
  constructor
  · rintro ⟨n, inX, inY⟩
    obtain ⟨a, stands, hasX⟩ := (mem_numbers few).1 inX
    exact ⟨a, List.mem_of_getElem? stands, hasX, (number_mem_iff few stands).1 inY⟩
  · rintro ⟨a, listed, hasX, hasY⟩
    obtain ⟨n, stands⟩ := exists_number few listed
    exact ⟨n, (number_mem_iff few stands).2 hasX, (number_mem_iff few stands).2 hasY⟩

theorem crossing_iff_numbers :
    Crossing atoms x y ↔ ¬ (numbers atoms x ⊆ numbers atoms y ∨ numbers atoms y ⊆ numbers atoms x ∨
      (numbers atoms x).filter (· ∈ numbers atoms y) = []) := by
  have meet : ¬ (numbers atoms x).filter (· ∈ numbers atoms y) = [] ↔
      ∃ n, n ∈ numbers atoms x ∧ n ∈ numbers atoms y := by
    simp [List.filter_eq_nil_iff]
  rw [not_or, not_or, meet, not_numbers_subset_iff few, not_numbers_subset_iff few,
    numbers_meet_iff few]
  constructor
  · rintro ⟨together, left, right⟩
    exact ⟨left, right, together⟩
  · rintro ⟨left, right, together⟩
    exact ⟨together, left, right⟩

/-- The least number in both sets is that of the first atom that mentions both variables. -/
theorem least_number {n : UInt32} {a : Atom} (stands : atoms[n.toNat]? = some a)
    (least : ((numbers atoms x).filter (· ∈ numbers atoms y)).min? = some n) :
    FirstShared atoms x y a.relation := by
  obtain ⟨inBoth, smallest⟩ := List.min?_eq_some_iff.1 least
  simp only [List.mem_filter, decide_eq_true_eq] at inBoth smallest
  obtain ⟨inside, atN⟩ := List.getElem?_eq_some_iff.1 stands
  refine ⟨atoms.take n.toNat, a, atoms.drop (n.toNat + 1), ?_, rfl,
    inBoth.imp (number_mem_iff few stands).1 (number_mem_iff few stands).1, ?_⟩
  · rw [← atN, List.getElem_cons_drop, List.take_append_drop]
  · -- an earlier atom with both would have a smaller number
    rintro b earlier ⟨hasX, hasY⟩
    obtain ⟨i, before, atI⟩ := List.mem_take_iff_getElem.1 earlier
    have standsB : atoms[i]? = some b := List.getElem?_eq_some_iff.2 ⟨by omega, atI⟩
    have number := toNat_number few standsB
    rw [← number] at standsB
    have := UInt32.le_iff_toNat_le.1 (smallest (UInt32.ofNat i)
      ⟨(number_mem_iff few standsB).2 hasX, (number_mem_iff few standsB).2 hasY⟩)
    omega

/-- **Conflicts by numbers.** -/
theorem overlap?_eq_conflict? :
    overlap? atoms (numbers atoms x) (numbers atoms y) = conflict? atoms x y := by
  unfold overlap?
  dsimp only
  split <;> rename_i apart
  · refine (conflict?_eq_none_iff.2 fun crossing => ?_).symm
    exact (crossing_iff_numbers few).1 crossing apart
  · have crossing := (crossing_iff_numbers few).2 apart
    obtain ⟨n, inX, inY⟩ := (numbers_meet_iff few).2 crossing.together
    obtain ⟨m, least⟩ : ∃ m, ((numbers atoms x).filter (· ∈ numbers atoms y)).min? = some m :=
      Option.isSome_iff_exists.1 (List.isSome_min?_of_mem
        (List.mem_filter.2 ⟨inX, decide_eq_true inY⟩))
    obtain ⟨a, stands, -⟩ := (mem_numbers few).1
      (List.mem_filter.1 (List.min?_eq_some_iff.1 least).1).1
    rw [conflict?_eq_some_iff.2 ⟨crossing, least_number few stands least⟩, least]
    simp [stands]

theorem firstOverlap?_eq_firstConflict? (vars : List Name) :
    firstOverlap? atoms ((Query.occurring vars atoms).map fun x => (x, numbers atoms x)) =
      firstConflict? atoms vars := by
  induction vars with
  | nil => rfl
  | cons x later ih =>
    rw [firstConflict?, ← ih, Query.occurring, List.filter_cons]
    split <;> rename_i occurs
    · rw [List.map_cons, firstOverlap?]
      simp only [List.findSome?_map, Function.comp_def, overlap?_eq_conflict? few]
      rw [← Query.occurring, findSome?_occurring fun y absent => ?_]
      rw [(conflict?_of_absent x absent).2, Option.map_none]
    · have none : later.findSome? (fun y =>
          (conflict? atoms x y).map (Unsupported.notHierarchical x y)) = none := by
        refine List.findSome?_eq_none_iff.2 fun y _ => ?_
        rw [(conflict?_of_absent y (Bool.eq_false_of_not_eq_true occurs)).1, Option.map_none]
      rw [none, Option.none_or, Query.occurring]

end Numbers

/-- **Sets of numbers suffice.** With at most `2 ^ 32` atoms the check over numbers is the
check by atoms. -/
theorem Query.checkNumbers_eq (q : Query) (few : q.atoms.length ≤ UInt32.size) :
    q.checkNumbers = q.checkHierarchical := by
  have same := firstOverlap?_eq_firstConflict? few q.vars
  cases found : firstConflict? q.atoms q.vars with
  | none => rw [checkNumbers, checkHierarchical, occurringVars, same, found]
  | some conflict => rw [checkNumbers, checkHierarchical, occurringVars, same, found]

end SafePlan
