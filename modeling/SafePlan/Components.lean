/-
# SafePlan.Components — atoms connected by variables

Two atoms are linked when they share a variable; which variables count is for
the caller to choose. `components` are the classes of atoms joined by chains
of links, each in the order of its atoms and the classes in the order of their
first atoms; an atom without a linking variable is a class of its own.

`weight` counts atoms and the occurrences of linking variables in them. Every
class of two or more weighs less than the whole (`weight_lt_of_mem_groups`),
which is why taking a list of atoms apart ends.
-/
import SafePlan.Atom
import SafePlan.DisjointSets

set_option autoImplicit false

namespace SafePlan

/-! ## Grouping by a key -/

section Grouping

variable {α κ : Type} [DecidableEq κ]

def withKey (key : α → κ) (k : κ) (elements : List α) : List α :=
  elements.filter fun a => key a = k

def withoutKey (key : α → κ) (k : κ) (elements : List α) : List α :=
  elements.filter fun a => key a ≠ k

theorem length_withoutKey_le (key : α → κ) (k : κ) (elements : List α) :
    (withoutKey key k elements).length ≤ elements.length :=
  List.length_filter_le _ _

/-- The elements with equal keys together, groups and elements in the order of
the list. -/
def groupOn (key : α → κ) : List α → List (List α)
  | [] => []
  | a :: rest => (a :: withKey key (key a) rest) :: groupOn key (withoutKey key (key a) rest)
termination_by elements => elements.length
decreasing_by
  exact Nat.lt_succ_of_le (length_withoutKey_le ..)

theorem flatten_groupOn_perm (key : α → κ) (elements : List α) :
    (groupOn key elements).flatten.Perm elements := by
  fun_induction groupOn key elements with
  | case1 => simp
  | case2 a rest ih =>
    rw [List.flatten_cons, List.cons_append]
    refine List.Perm.cons a ((List.Perm.append_left _ ih).trans ?_)
    simpa [withKey, withoutKey] using
      List.filter_append_perm (fun b => decide (key b = key a)) rest

theorem ne_nil_of_mem_groupOn {key : α → κ} {elements group : List α}
    (listed : group ∈ groupOn key elements) : group ≠ [] := by
  fun_induction groupOn key elements with
  | case1 => simp at listed
  | case2 a rest ih =>
    rcases List.mem_cons.1 listed with rfl | later
    · simp
    · exact ih later

end Grouping

/-! ## Components -/

/-- For each occurrence of a linking variable, the first atom that mentions it
and the atom it occurs in. -/
def sharings (linking : Name → Bool) (atoms : List Atom) :
    List (Fin atoms.length × Fin atoms.length) :=
  (List.finRange atoms.length).flatMap fun i =>
    (atoms[i].vars.filter linking).filterMap fun x =>
      (atoms.findFinIdx? (·.mentions x)).map fun first => (first, i)

/-- The classes, as positions in the list. -/
def components (linking : Name → Bool) (atoms : List Atom) : List (List (Fin atoms.length)) :=
  let sets := DisjointSets.ofPairs (sharings linking atoms)
  groupOn (fun i => (sets.find i).1) (List.finRange atoms.length)

/-- The classes, as atoms. -/
def groups (linking : Name → Bool) (atoms : List Atom) : List (List Atom) :=
  (components linking atoms).map fun group => group.map fun i => atoms[i]

theorem map_getElem_finRange (atoms : List Atom) :
    (List.finRange atoms.length).map (fun i => atoms[i]) = atoms := by
  apply List.ext_getElem <;> simp

/-- The groups hold the atoms, each once. -/
theorem flatten_groups_perm (linking : Name → Bool) (atoms : List Atom) :
    (groups linking atoms).flatten.Perm atoms := by
  have indices := flatten_groupOn_perm
    (fun i => ((DisjointSets.ofPairs (sharings linking atoms)).find i).1)
    (List.finRange atoms.length)
  have mapped := indices.map fun i => atoms[i]
  rwa [map_getElem_finRange, List.map_flatten] at mapped

theorem ne_nil_of_mem_groups {linking : Name → Bool} {atoms group : List Atom}
    (listed : group ∈ groups linking atoms) : group ≠ [] := by
  obtain ⟨indices, inComponents, rfl⟩ := List.mem_map.1 listed
  simpa using ne_nil_of_mem_groupOn inComponents

/-! ## Weight -/

/-- The number of atoms and of occurrences of linking variables in them. -/
def weight (linking : Name → Bool) : List Atom → Nat
  | [] => 0
  | a :: rest => 1 + a.vars.countP linking + weight linking rest

theorem weight_append (linking : Name → Bool) (left right : List Atom) :
    weight linking (left ++ right) = weight linking left + weight linking right := by
  induction left with
  | nil => simp [weight]
  | cons a rest ih =>
    rw [List.cons_append, weight, weight, ih]
    omega

theorem weight_perm {linking : Name → Bool} {left right : List Atom} (same : left.Perm right) :
    weight linking left = weight linking right := by
  induction same with
  | nil => rfl
  | cons a _ ih => rw [weight, weight, ih]
  | swap a b rest => simp only [weight]; omega
  | trans _ _ ih ih' => rw [ih, ih']

theorem weight_pos (linking : Name → Bool) {atoms : List Atom} (nonempty : atoms ≠ []) :
    0 < weight linking atoms := by
  cases atoms with
  | nil => exact absurd rfl nonempty
  | cons a rest =>
    rw [weight]
    omega

theorem countP_lt_countP {p q : Name → Bool} {names : List Name}
    (implies : ∀ y, q y = true → p y = true) {x : Name} (listed : x ∈ names)
    (holds : p x = true) (fails : q x = false) : names.countP q < names.countP p := by
  induction names with
  | nil => simp at listed
  | cons y rest ih =>
    have le : rest.countP q ≤ rest.countP p := List.countP_mono_left fun z _ => implies z
    rw [List.countP_cons, List.countP_cons]
    rcases List.mem_cons.1 listed with rfl | later
    · simp only [holds, fails, Bool.false_eq_true, if_false, if_true]
      omega
    · have lt := ih later
      by_cases here : q y = true
      · rw [if_pos here, if_pos (implies y here)]
        omega
      · rw [if_neg here]
        omega

/-- A list of atoms weighs less where each of its atoms has fewer occurrences. -/
theorem weight_lt_weight {linking linking' : Name → Bool} (change : Atom → Atom)
    {atoms : List Atom} (nonempty : atoms ≠ [])
    (fewer : ∀ a ∈ atoms, (change a).vars.countP linking' < a.vars.countP linking) :
    weight linking' (atoms.map change) < weight linking atoms := by
  induction atoms with
  | nil => exact absurd rfl nonempty
  | cons a rest ih =>
    have here := fewer a (by simp)
    rw [List.map_cons, weight, weight]
    cases rest with
    | nil =>
      simp only [List.map_nil, weight]
      omega
    | cons b bs =>
      have later := ih (by simp) fun c listed => fewer c (List.mem_cons_of_mem _ listed)
      omega

/-- Of two or more nonempty lists each weighs less than all together. -/
theorem weight_lt_flatten {linking : Name → Bool} {lists : List (List Atom)}
    (nonempty : ∀ list ∈ lists, list ≠ []) (several : 1 < lists.length) {list : List Atom}
    (listed : list ∈ lists) : weight linking list < weight linking lists.flatten := by
  obtain ⟨before, after, rfl⟩ := List.append_of_mem listed
  rw [List.flatten_append, List.flatten_cons, weight_append, weight_append]
  have others : before.flatten ≠ [] ∨ after.flatten ≠ [] := by
    cases before with
    | cons other _ => simp_all
    | nil =>
      cases after with
      | cons other _ => simp_all
      | nil => simp at several
  rcases others with some | some <;> have := weight_pos linking some <;> omega

/-- **Taking apart ends.** Each of several groups weighs less than the whole. -/
theorem weight_lt_of_mem_groups {linking : Name → Bool} {atoms group : List Atom}
    (several : (groups linking atoms).length ≠ 1) (listed : group ∈ groups linking atoms) :
    weight linking group < weight linking atoms := by
  rw [← weight_perm (flatten_groups_perm linking atoms)]
  refine weight_lt_flatten (fun _ => ne_nil_of_mem_groups) ?_ listed
  have := List.length_pos_of_mem listed
  omega

end SafePlan
