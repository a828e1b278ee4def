/-
# SafePlan.Proofs.Hierarchical — the check up front is enough

Two variables cross when one atom holds both and each occurs in an atom without
the other. The check reports the first crossing in the order of declaration
(`firstConflict?_eq_some`), and a query without crossings never fails later: not
where its plan is drawn, over any domain, and not where its formula is.

The reason is one combinatorial fact, `exists_root`: a variable that occurs in
as many atoms as any other occurs in all atoms that it is connected with. What
it needs is inherited. Groups have no crossings that the whole has not, and
substitution only takes a variable away (`Decomposable`).
-/
import SafePlan.Evaluation
import SafePlan.Proofs.Connection
import SafePlan.Proofs.Outcome
import Mathlib.Data.Finset.Max

set_option autoImplicit false

namespace SafePlan

/-- An atom holds both variables, and each occurs in an atom without the other. -/
structure Crossing (atoms : List Atom) (x y : Name) : Prop where
  together : ∃ a ∈ atoms, x ∈ a.vars ∧ y ∈ a.vars
  left : ∃ a ∈ atoms, x ∈ a.vars ∧ y ∉ a.vars
  right : ∃ a ∈ atoms, y ∈ a.vars ∧ x ∉ a.vars

/-- The relation belongs to the first atom that holds both variables. -/
def FirstShared (atoms : List Atom) (x y relation : Name) : Prop :=
  ∃ before a after, atoms = before ++ a :: after ∧ a.relation = relation ∧
    (x ∈ a.vars ∧ y ∈ a.vars) ∧ ∀ b ∈ before, ¬ (x ∈ b.vars ∧ y ∈ b.vars)

/-- The two names cross and no pair listed before them does: none with an
earlier first name, and none with the same first and an earlier second. -/
def FirstCrossing (atoms : List Atom) (vars : List Name) (left right : Name) : Prop :=
  ∃ i j : Nat, i < j ∧ vars[i]? = some left ∧ vars[j]? = some right ∧ Crossing atoms left right ∧
    ∀ (k l : Nat) (x y : Name), k < l → vars[k]? = some x → vars[l]? = some y → Crossing atoms x y →
      i < k ∨ i = k ∧ j ≤ l

section Crossings

variable {atoms : List Atom} {vars : List Name} {x y : Name}

theorem Crossing.symm (crossing : Crossing atoms x y) : Crossing atoms y x where
  together := by
    obtain ⟨a, listed, hasX, hasY⟩ := crossing.together
    exact ⟨a, listed, hasY, hasX⟩
  left := crossing.right
  right := crossing.left

theorem Crossing.mono {some : List Atom} (subset : some ⊆ atoms) (crossing : Crossing some x y) :
    Crossing atoms x y where
  together := crossing.together.imp fun _ => And.imp_left (subset ·)
  left := crossing.left.imp fun _ => And.imp_left (subset ·)
  right := crossing.right.imp fun _ => And.imp_left (subset ·)

/-- A crossing lies in one part: its atoms share its variables. -/
theorem Crossing.exists_part {linking : Name → Bool} {parts : List (List Atom)}
    (crossing : Crossing atoms x y) (parted : Parted linking atoms parts)
    (linksX : linking x = true) (linksY : linking y = true) :
    ∃ part ∈ parts, Crossing part x y := by
  obtain ⟨a, listedA, xInA, yInA⟩ := crossing.together
  obtain ⟨b, listedB, xInB, yNotB⟩ := crossing.left
  obtain ⟨c, listedC, yInC, xNotC⟩ := crossing.right
  obtain ⟨part, listed, memberA⟩ := List.mem_flatten.1 (parted.perm.mem_iff.2 listedA)
  have memberB : b ∈ part := parted.mem_of_shared listed linksX memberA xInA listedB xInB
  have memberC : c ∈ part := parted.mem_of_shared listed linksY memberA yInA listedC yInC
  exact ⟨part, listed, ⟨a, memberA, xInA, yInA⟩, ⟨b, memberB, xInB, yNotB⟩,
    ⟨c, memberC, yInC, xNotC⟩⟩

theorem Crossing.mem_left (crossing : Crossing atoms x y)
    (declared : ∀ a ∈ atoms, ∀ z ∈ a.vars, z ∈ vars) : x ∈ vars := by
  obtain ⟨a, listed, hasX, -⟩ := crossing.left
  exact declared a listed x hasX

/-! ## What the check finds -/

theorem conflict?_eq_some_iff {relation : Name} :
    conflict? atoms x y = some relation ↔
      Crossing atoms x y ∧ FirstShared atoms x y relation := by
  have crosses : (atoms.any (fun a => a.mentions x && !a.mentions y) &&
      atoms.any (fun a => a.mentions y && !a.mentions x)) = true ↔
      (∃ a ∈ atoms, x ∈ a.vars ∧ y ∉ a.vars) ∧ ∃ a ∈ atoms, y ∈ a.vars ∧ x ∉ a.vars := by
    simp [Atom.mentions]
  have shared : (atoms.find? fun a => a.mentions x && a.mentions y).map Atom.relation =
      some relation ↔ FirstShared atoms x y relation := by
    simp only [Option.map_eq_some_iff, List.find?_eq_some_iff_append, FirstShared]
    constructor
    · rintro ⟨a, ⟨both, before, after, rfl, earlier⟩, rfl⟩
      exact ⟨before, a, after, rfl, rfl, by simpa using both,
        by simpa [Atom.mentions, imp_iff_not_or] using earlier⟩
    · rintro ⟨before, a, after, rfl, rfl, both, earlier⟩
      exact ⟨a, ⟨by simpa using both, before, after, rfl,
        by simpa [Atom.mentions, imp_iff_not_or] using earlier⟩, rfl⟩
  unfold conflict?
  split <;> rename_i both
  · rw [shared]
    obtain ⟨left, right⟩ := crosses.1 both
    refine ⟨fun first => ⟨⟨?_, left, right⟩, first⟩, And.right⟩
    obtain ⟨before, a, after, rfl, -, holds, -⟩ := first
    exact ⟨a, by simp, holds⟩
  · rw [crosses] at both
    simp only [reduceCtorEq, false_iff, not_and]
    intro crossing
    exact absurd ⟨crossing.left, crossing.right⟩ both

theorem conflict?_eq_none_iff : conflict? atoms x y = none ↔ ¬ Crossing atoms x y := by
  constructor
  · intro none crossing
    obtain ⟨a, listed, both⟩ := crossing.together
    have found : ((atoms.find? fun a => a.mentions x && a.mentions y).map Atom.relation).isSome := by
      rw [Option.isSome_map, List.find?_isSome]
      exact ⟨a, listed, by simpa using both⟩
    obtain ⟨b, listedB, leftB⟩ := crossing.left
    obtain ⟨c, listedC, rightC⟩ := crossing.right
    unfold conflict? at none
    rw [if_pos] at none
    · rw [none] at found
      cases found
    · simp only [Bool.and_eq_true, List.any_eq_true]
      exact ⟨⟨b, listedB, by simpa [Atom.mentions] using leftB⟩,
        ⟨c, listedC, by simpa [Atom.mentions] using rightC⟩⟩
  · intro uncrossed
    cases found : conflict? atoms x y with
    | none => rfl
    | some relation => exact absurd (conflict?_eq_some_iff.1 found).1 uncrossed

theorem firstConflict?_eq_none_iff :
    firstConflict? atoms vars = none ↔ vars.Pairwise fun x y => ¬ Crossing atoms x y := by
  induction vars with
  | nil => simp [firstConflict?]
  | cons x later ih =>
    rw [firstConflict?, Option.or_eq_none_iff, ih, List.pairwise_cons, List.findSome?_eq_none_iff]
    simp only [Option.map_eq_none_iff, conflict?_eq_none_iff]

/-- **What is reported.** The first crossing, and the first atom it is in. -/
theorem firstConflict?_eq_some {unsupported : Unsupported}
    (found : firstConflict? atoms vars = some unsupported) :
    ∃ left right shared, unsupported = .notHierarchical left right shared ∧
      FirstCrossing atoms vars left right ∧ FirstShared atoms left right shared := by
  induction vars with
  | nil => simp [firstConflict?] at found
  | cons x later ih =>
    rw [firstConflict?] at found
    cases here : later.findSome? fun y => (conflict? atoms x y).map (Unsupported.notHierarchical x y) with
    | some first =>
      -- the first name crosses a later one: no pair begins earlier
      rw [here, Option.some_or] at found
      obtain rfl := Option.some.inj found
      obtain ⟨between, y, after, rfl, reported, earlier⟩ := List.findSome?_eq_some_iff.1 here
      obtain ⟨shared, conflict, rfl⟩ := Option.map_eq_some_iff.1 reported
      obtain ⟨crossing, first⟩ := conflict?_eq_some_iff.1 conflict
      refine ⟨x, y, shared, rfl, ⟨0, between.length + 1, by omega, by simp, by simp, crossing, ?_⟩,
        first⟩
      intro k l z w before atK atL crossing'
      by_cases begins : k = 0
      · subst begins
        obtain rfl : x = z := by simpa using atK
        refine .inr ⟨rfl, ?_⟩
        by_contra sooner
        obtain ⟨l, rfl⟩ : ∃ m, l = m + 1 := ⟨l - 1, by omega⟩
        rw [List.getElem?_cons_succ, List.getElem?_append_left (by omega)] at atL
        have none := earlier w (List.mem_of_getElem? atL)
        rw [Option.map_eq_none_iff, conflict?_eq_none_iff] at none
        exact none crossing'
      · exact .inl (by omega)
    | none =>
      rw [here, Option.none_or] at found
      obtain ⟨left, right, shared, rfl, ⟨i, j, ordered, atI, atJ, crossing, least⟩, first⟩ := ih found
      refine ⟨left, right, shared, rfl,
        ⟨i + 1, j + 1, by omega, by simpa using atI, by simpa using atJ, crossing, ?_⟩, first⟩
      intro k l z w before atK atL crossing'
      obtain ⟨l, rfl⟩ : ∃ m, l = m + 1 := ⟨l - 1, by omega⟩
      rw [List.getElem?_cons_succ] at atL
      cases k with
      | zero =>
        obtain rfl : x = z := by simpa using atK
        have none := List.findSome?_eq_none_iff.1 here w (List.mem_of_getElem? atL)
        rw [Option.map_eq_none_iff, conflict?_eq_none_iff] at none
        exact absurd crossing' none
      | succ k =>
        rw [List.getElem?_cons_succ] at atK
        have := least k l z w (by omega) atK atL crossing'
        omega

/-- `x` and `y` cross in `R(x), S(x, y), T(y)`. -/
example :
    firstConflict? [⟨"R", [.var "x"]⟩, ⟨"S", [.var "x", .var "y"]⟩, ⟨"T", [.var "y"]⟩] ["x", "y"] =
      some (.notHierarchical "x" "y" "S") := by decide

end Crossings

/-! ## Roots -/

section Roots

variable {atoms : List Atom} {vars : List Name} {linking : Name → Bool}

/-- **Connected atoms without crossings have a root.** The linking variable that
occurs in most atoms occurs in all: whatever it is linked with would otherwise
occur in more. -/
theorem exists_root (single : (groups linking atoms).length = 1)
    (uncrossed : ∀ x y, ¬ Crossing atoms x y) {a : Atom} (listed : a ∈ atoms) {x : Name}
    (occurs : x ∈ a.vars) (links : linking x = true) :
    ∃ r, linking r = true ∧ ∀ b ∈ atoms, r ∈ b.vars := by
  let occurring := ((atoms.flatMap Atom.vars).filter linking).toFinset
  have mem_occurring : ∀ y, y ∈ occurring ↔ (∃ b ∈ atoms, y ∈ b.vars) ∧ linking y = true := by
    intro y
    simp only [occurring, List.mem_toFinset, List.mem_filter, List.mem_flatMap]
  let spread : Name → Nat := fun y => (atoms.toFinset.filter fun b => y ∈ b.vars).card
  obtain ⟨r, candidate, most⟩ := Finset.exists_max_image occurring spread
    ⟨x, (mem_occurring x).2 ⟨⟨a, listed, occurs⟩, links⟩⟩
  obtain ⟨⟨start, listedStart, rInStart⟩, linksR⟩ := (mem_occurring r).1 candidate
  refine ⟨r, linksR, forall_of_single_group single listedStart rInStart ?_⟩
  intro b listedB c listedC y linksY yInB yInC rInB
  by_contra missing
  have covers : ∀ d ∈ atoms, r ∈ d.vars → y ∈ d.vars := by
    intro d listedD rInD
    by_contra lacks
    exact uncrossed r y
      ⟨⟨b, listedB, rInB, yInB⟩, ⟨d, listedD, rInD, lacks⟩, ⟨c, listedC, yInC, missing⟩⟩
  have wider : spread r < spread y := by
    refine Finset.card_lt_card (Finset.ssubset_iff_of_subset ?_ |>.2 ⟨c, ?_, ?_⟩)
    · intro d member
      simp only [Finset.mem_filter, List.mem_toFinset] at member ⊢
      exact ⟨member.1, covers d member.1 member.2⟩
    · simp [listedC, yInC]
    · simp [missing]
  have := most y ((mem_occurring y).2 ⟨⟨b, listedB, yInB⟩, linksY⟩)
  omega

/-- What the rules need of atoms, and leave to what they make of them. -/
structure Decomposable (vars : List Name) (atoms : List Atom) : Prop where
  declared : ∀ a ∈ atoms, ∀ x ∈ a.vars, x ∈ vars
  uncrossed : ∀ x y, ¬ Crossing atoms x y

theorem Decomposable.mono {some : List Atom} (fits : Decomposable vars atoms)
    (subset : some ⊆ atoms) : Decomposable vars some where
  declared a listed := fits.declared a (subset listed)
  uncrossed x y crossing := fits.uncrossed x y (crossing.mono subset)

theorem Decomposable.of_mem_groups {group : List Atom} (fits : Decomposable vars atoms)
    (listed : group ∈ groups linking atoms) : Decomposable vars group :=
  fits.mono (sublist_of_mem_groups listed).subset

theorem mem_vars_substitute {x y c : Name} {a : Atom} :
    y ∈ (a.substitute x c).vars ↔ y ∈ a.vars ∧ y ≠ x := by
  rw [Atom.vars_substitute, List.mem_filter, decide_eq_true_eq]

/-- Substitution touches the crossings of its variable only. -/
theorem crossing_substitute_iff {x y r c : Name} :
    Crossing (Atom.substituteAll r c atoms) x y ↔ x ≠ r ∧ y ≠ r ∧ Crossing atoms x y := by
  constructor
  · rintro ⟨⟨a', madeA, xInA, yInA⟩, ⟨b', madeB, xInB, yNotB⟩, ⟨c', madeC, yInC, xNotC⟩⟩
    obtain ⟨a, listedA, rfl⟩ := List.mem_map.1 madeA
    obtain ⟨b, listedB, rfl⟩ := List.mem_map.1 madeB
    obtain ⟨c, listedC, rfl⟩ := List.mem_map.1 madeC
    simp only [mem_vars_substitute, not_and, not_not] at xInA yInA xInB yNotB yInC xNotC
    exact ⟨xInA.2, yInA.2, ⟨a, listedA, xInA.1, yInA.1⟩,
      ⟨b, listedB, xInB.1, fun yInB => yInA.2 (yNotB yInB)⟩,
      ⟨c, listedC, yInC.1, fun xInC => xInA.2 (xNotC xInC)⟩⟩
  · rintro ⟨otherX, otherY, ⟨a, listedA, xInA, yInA⟩, ⟨b, listedB, xInB, yNotB⟩,
      ⟨d, listedD, yInD, xNotD⟩⟩
    have made : ∀ a ∈ atoms, a.substitute r c ∈ Atom.substituteAll r c atoms :=
      fun a listed => List.mem_map_of_mem listed
    exact ⟨⟨_, made a listedA, mem_vars_substitute.2 ⟨xInA, otherX⟩,
        mem_vars_substitute.2 ⟨yInA, otherY⟩⟩,
      ⟨_, made b listedB, mem_vars_substitute.2 ⟨xInB, otherX⟩,
        fun yInB => yNotB (mem_vars_substitute.1 yInB).1⟩,
      ⟨_, made d listedD, mem_vars_substitute.2 ⟨yInD, otherY⟩,
        fun xInD => xNotD (mem_vars_substitute.1 xInD).1⟩⟩

theorem Decomposable.substitute (fits : Decomposable vars atoms) (x c : Name) :
    Decomposable vars (Atom.substituteAll x c atoms) where
  declared a' listed y occurs := by
    obtain ⟨a, listedA, rfl⟩ := List.mem_map.1 listed
    exact fits.declared a listedA y (mem_vars_substitute.1 occurs).1
  uncrossed y z crossing := fits.uncrossed y z (crossing_substitute_iff.1 crossing).2.2

end Roots

/-! ## Plans -/

namespace Decomposition

variable {vars : List Name} {atoms : List Atom}

/-- What each rule says of the atoms it is chosen for. -/
theorem rule_cases {rule : Decomposition} (chosen : of vars atoms = .ok rule) :
    (rule = .ground ∧ ∀ a ∈ atoms, a.isGround = true) ∨
      (rule = .split (groups everyVar atoms) ∧ 1 < (groups everyVar atoms).length) ∨
        ∃ x, rule = .eliminate x ∧ (groups everyVar atoms).length = 1 ∧
          root? vars atoms = some x := by
  unfold of at chosen
  split at chosen <;> rename_i ground
  · exact .inl ⟨(Except.ok.inj chosen).symm, List.all_eq_true.1 ground⟩
  · split at chosen <;> rename_i several
    · exact .inr (.inl ⟨(Except.ok.inj chosen).symm, several⟩)
    · split at chosen <;> rename_i found
      · have nonempty : atoms ≠ [] := by
          rintro rfl
          exact ground rfl
        exact .inr (.inr ⟨_, (Except.ok.inj chosen).symm, single_group nonempty several, found⟩)
      · cases chosen

theorem isGround_of_ground (rule : of vars atoms = .ok .ground) :
    ∀ a ∈ atoms, a.isGround = true := by
  obtain ⟨-, ground⟩ | ⟨other, -⟩ | ⟨x, other, -⟩ := rule_cases rule
  · exact ground
  · cases other
  · cases other

theorem parts_eq_groups {parts : List (List Atom)} (rule : of vars atoms = .ok (.split parts)) :
    parts = groups everyVar atoms ∧ 1 < parts.length := by
  obtain ⟨other, -⟩ | ⟨same, several⟩ | ⟨x, other, -⟩ := rule_cases rule
  · cases other
  · cases same
    exact ⟨rfl, several⟩
  · cases other

theorem single_of_eliminate {x : Name} (rule : of vars atoms = .ok (.eliminate x)) :
    (groups everyVar atoms).length = 1 ∧ root? vars atoms = some x := by
  obtain ⟨other, -⟩ | ⟨other, -⟩ | ⟨x, same, single, root⟩ := rule_cases rule
  · cases other
  · cases other
  · cases same
    exact ⟨single, root⟩

/-- A rule applies to facts, to several groups, and to atoms with a root. -/
theorem exists_rule_iff : (∃ rule, of vars atoms = .ok rule) ↔
    (∀ a ∈ atoms, a.vars = []) ∨ 1 < (groups everyVar atoms).length ∨
      ∃ x ∈ vars, ∀ a ∈ atoms, x ∈ a.vars := by
  have ground_iff : atoms.all Atom.isGround = true ↔ ∀ a ∈ atoms, a.vars = [] := by
    simp only [List.all_eq_true, Atom.isGround_iff]
  have root_iff : (∃ x, root? vars atoms = some x) ↔ ∃ x ∈ vars, ∀ a ∈ atoms, x ∈ a.vars := by
    simp only [← Option.isSome_iff_exists, root?, List.find?_isSome, List.all_eq_true,
      Atom.mentions_iff]
  rw [← ground_iff, ← root_iff, of]
  split <;> rename_i ground
  · simp [ground]
  · split <;> rename_i several
    · simp [several]
    · split <;> rename_i found <;> simp [ground, several, found]

theorem exists_rule (fits : Decomposable vars atoms) : ∃ rule, of vars atoms = .ok rule := by
  rw [exists_rule_iff]
  by_cases ground : ∀ a ∈ atoms, a.vars = []
  · exact .inl ground
  by_cases several : 1 < (groups everyVar atoms).length
  · exact .inr (.inl several)
  push Not at ground
  obtain ⟨a, listed, hasVars⟩ := ground
  obtain ⟨x, occurs⟩ := List.exists_mem_of_ne_nil _ hasVars
  have single := single_group (List.ne_nil_of_mem listed) several
  obtain ⟨r, -, everywhere⟩ := exists_root single fits.uncrossed listed occurs rfl
  exact .inr (.inr ⟨r, fits.declared a listed r (everywhere a listed), everywhere⟩)

/-- The atoms that the decomposition may come to, whatever the constants. -/
inductive Reached (vars : List Name) (whole : List Atom) : List Atom → Prop
  | whole : Reached vars whole whole
  | part {atoms part : List Atom} {parts : List (List Atom)} :
      Reached vars whole atoms → of vars atoms = .ok (.split parts) → part ∈ parts →
        Reached vars whole part
  | branch {atoms : List Atom} {x : Name} (c : Name) :
      Reached vars whole atoms → of vars atoms = .ok (.eliminate x) →
        Reached vars whole (Atom.substituteAll x c atoms)

/-- One step keeps what the rules need. -/
theorem decomposable_of_reached {whole : List Atom} (fits : Decomposable vars whole)
    (reached : Reached vars whole atoms) : Decomposable vars atoms := by
  induction reached with
  | whole => exact fits
  | part _ rule listed ih =>
    obtain ⟨rfl, -⟩ := parts_eq_groups rule
    exact ih.of_mem_groups listed
  | branch c _ _ ih => exact ih.substitute _ c

end Decomposition

/-- A plan is drawn where a rule applies to whatever the decomposition comes to. -/
theorem Plan.exists_ofAtoms_of_rules {vars : List Name} (domain : List Name)
    {whole atoms : List Atom} (reached : Decomposition.Reached vars whole atoms)
    (rules : ∀ atoms, Decomposition.Reached vars whole atoms →
      ∃ rule, Decomposition.of vars atoms = .ok rule) :
    ∃ plan, Plan.ofAtoms vars domain atoms = .ok plan := by
  induction atoms using Plan.ofAtoms.induct vars with
  | case1 atoms unsupported rule =>
    obtain ⟨rule', fine⟩ := rules atoms reached
    rw [rule] at fine
    cases fine
  | case2 atoms rule => exact ⟨_, Plan.ofAtoms_of_ground rule⟩
  | case3 atoms parts rule ih =>
    have each : ∀ part ∈ parts, ∃ plan, Plan.ofAtoms vars domain part = .ok plan :=
      fun part listed => ih ⟨part, listed⟩ (.part reached rule listed)
    obtain ⟨plans, drawn⟩ := exists_mapM_eq_ok each
    exact ⟨_, by rw [Plan.ofAtoms_of_split rule, drawn]; rfl⟩
  | case4 atoms x rule ih =>
    have each : ∀ c ∈ domain, ∃ plan,
        Plan.ofAtoms vars domain (Atom.substituteAll x c atoms) = .ok plan :=
      fun c _ => ih c (.branch c reached rule)
    obtain ⟨plans, drawn⟩ := exists_mapM_eq_ok each
    exact ⟨_, by rw [Plan.ofAtoms_of_eliminate rule, drawn]; rfl⟩

theorem Plan.exists_ofAtoms {vars : List Name} (domain : List Name) {atoms : List Atom}
    (fits : Decomposable vars atoms) : ∃ plan, Plan.ofAtoms vars domain atoms = .ok plan :=
  exists_ofAtoms_of_rules domain .whole fun _ reached =>
    Decomposition.exists_rule (Decomposition.decomposable_of_reached fits reached)

/-! ## Formulas -/

namespace Formula

variable {vars bound : List Name} {atoms : List Atom}

/-- Atoms in a single group that are no leaf have an unbound variable. -/
theorem exists_unbound (single : (groups (unbound bound) atoms).length = 1)
    (noLeaf : leaf? bound atoms = none) : ∃ a ∈ atoms, ∃ x ∈ a.vars, unbound bound x = true := by
  by_contra allBound
  have unlinked : ∀ a ∈ atoms, ∀ x ∈ a.vars, unbound bound x = false := by
    intro a listed x occurs
    rw [← Bool.not_eq_true]
    exact fun isUnbound => allBound ⟨a, listed, x, occurs, isUnbound⟩
  rw [groups_of_unlinked unlinked, List.length_map] at single
  obtain ⟨a, rfl⟩ := List.length_eq_one_iff.1 single
  have closed : a.vars.any (unbound bound) = false := by
    simpa [List.any_eq_false] using unlinked a (by simp)
  simp [leaf?, closed] at noLeaf

theorem exists_root? (fits : Decomposable vars atoms)
    (single : (groups (unbound bound) atoms).length = 1) (noLeaf : leaf? bound atoms = none) :
    ∃ x, root? vars bound atoms = some x := by
  obtain ⟨a, listed, x, occurs, isUnbound⟩ := exists_unbound single noLeaf
  obtain ⟨r, unboundR, everywhere⟩ := exists_root single fits.uncrossed listed occurs isUnbound
  rw [← Option.isSome_iff_exists, root?, List.find?_isSome]
  refine ⟨r, fits.declared a listed r (everywhere a listed), ?_⟩
  simpa [unboundR] using everywhere

/-- The calls that compiling comes to: atoms, and the variables bound around them. -/
inductive Reached (vars : List Name) (whole : List Atom) : List Name → List Atom → Prop
  | whole : Reached vars whole [] whole
  | part {bound : List Name} {atoms part : List Atom} :
      Reached vars whole bound atoms → (groups (unbound bound) atoms).length ≠ 1 →
        part ∈ groups (unbound bound) atoms → Reached vars whole bound part
  | body {bound : List Name} {atoms : List Atom} {x : Name} :
      Reached vars whole bound atoms → (groups (unbound bound) atoms).length = 1 →
        leaf? bound atoms = none → root? vars bound atoms = some x →
          Reached vars whole (x :: bound) atoms

theorem decomposable_of_reached {whole : List Atom} (fits : Decomposable vars whole)
    (reached : Reached vars whole bound atoms) : Decomposable vars atoms := by
  induction reached with
  | whole => exact fits
  | part _ _ listed ih => exact ih.of_mem_groups listed
  | body _ _ _ _ ih => exact ih

theorem exists_ofAtoms (bound : List Name) (fits : Decomposable vars atoms) :
    ∃ f, ofAtoms vars bound atoms = .ok f := by
  induction bound, atoms using ofAtoms.induct vars with
  | case1 bound atoms single a leaf => exact ⟨_, ofAtoms_of_leaf single leaf⟩
  | case2 bound atoms single noLeaf x root ih =>
    obtain ⟨f, made⟩ := ih fits
    exact ⟨_, by rw [ofAtoms_of_root single noLeaf root, made]; rfl⟩
  | case3 bound atoms single noLeaf noRoot =>
    obtain ⟨x, root⟩ := exists_root? fits single noLeaf
    rw [noRoot] at root
    cases root
  | case4 bound atoms several ih =>
    have each : ∀ part ∈ groups (unbound bound) atoms, ∃ f, ofAtoms vars bound part = .ok f :=
      fun part listed => ih ⟨part, listed⟩ (fits.of_mem_groups listed)
    obtain ⟨fs, made⟩ := exists_mapM_eq_ok each
    exact ⟨_, by rw [ofAtoms_of_groups several, made]; rfl⟩

end Formula

/-! ## Queries -/

namespace Query

theorem mem_vars_iff {a : Atom} {x : Name} : x ∈ a.vars ↔ Term.var x ∈ a.terms := by
  rw [Atom.vars, List.mem_filterMap]
  constructor
  · rintro ⟨term, listed, isVar⟩
    cases term with
    | const name => cases isVar
    | var name => cases isVar; exact listed
  · exact fun listed => ⟨_, listed, rfl⟩

theorem declared (q : Query) : ∀ a ∈ q.atoms, ∀ x ∈ a.vars, x ∈ q.vars :=
  fun a listed x occurs => q.valid.declared a listed x (mem_vars_iff.1 occurs)

theorem firstConflict?_eq_none_iff_uncrossed (q : Query) :
    firstConflict? q.atoms q.vars = none ↔ ∀ x y, ¬ Crossing q.atoms x y := by
  rw [firstConflict?_eq_none_iff]
  constructor
  · intro uncrossed x y crossing
    refine List.Pairwise.forall_of_forall_of_flip (fun z _ itself => ?_) uncrossed
      (uncrossed.imp fun apart crossing' => apart crossing'.symm) (crossing.mem_left q.declared)
      (crossing.symm.mem_left q.declared) crossing
    obtain ⟨a, -, occurs, missing⟩ := itself.left
    exact missing occurs
  · exact fun uncrossed => List.pairwise_of_forall fun x y => uncrossed x y

theorem decomposable (q : Query) (passes : firstConflict? q.atoms q.vars = none) :
    Decomposable q.vars q.atoms :=
  ⟨q.declared, q.firstConflict?_eq_none_iff_uncrossed.1 passes⟩

/-- Past the check, drawing the plan and compiling are the bare recursions. -/
theorem plan_eq (q : Query) (domain : List Name) (passes : q.checkHierarchical = .ok ()) :
    q.plan domain = Plan.ofAtoms q.vars domain q.atoms := by
  rw [plan, passes]
  rfl

theorem formula_eq (q : Query) (passes : q.checkHierarchical = .ok ()) :
    q.formula = Formula.ofAtoms q.vars [] q.atoms := by
  rw [formula, passes]
  rfl

theorem checkHierarchical_eq_ok_iff (q : Query) :
    q.checkHierarchical = .ok () ↔ firstConflict? q.atoms q.vars = none := by
  unfold checkHierarchical
  split <;> rename_i found <;> simp [found]

theorem checkHierarchical_eq_error_iff (q : Query) (unsupported : Unsupported) :
    q.checkHierarchical = .error unsupported ↔
      firstConflict? q.atoms q.vars = some unsupported := by
  unfold checkHierarchical
  split <;> rename_i found <;> simp [found]

section Outcome

variable {P : Type} [Arithmetic P] (q : Query) (s : Store P) (options : Options)

theorem evaluate_eq_error_iff (unsupported : Unsupported) :
    q.evaluate s options = .error unsupported ↔
      firstConflict? q.atoms q.vars = some unsupported := by
  rw [← checkHierarchical_eq_error_iff]
  cases outcome : q.checkHierarchical with
  | error first =>
    rw [evaluate, plan, outcome]
    simp [bind, Except.bind]
  | ok =>
    have fits := q.decomposable (q.checkHierarchical_eq_ok_iff.1 outcome)
    obtain ⟨plan, drawn⟩ := Plan.exists_ofAtoms s.domain fits
    rw [evaluate, q.plan_eq s.domain outcome, drawn]
    simp [bind, Except.bind, pure, Except.pure]

theorem formula_eq_error_iff (unsupported : Unsupported) :
    q.formula = .error unsupported ↔ firstConflict? q.atoms q.vars = some unsupported := by
  rw [← checkHierarchical_eq_error_iff]
  cases outcome : q.checkHierarchical with
  | error first =>
    rw [formula, outcome]
    simp [bind, Except.bind]
  | ok =>
    have fits := q.decomposable (q.checkHierarchical_eq_ok_iff.1 outcome)
    obtain ⟨f, made⟩ := Formula.exists_ofAtoms [] fits
    rw [q.formula_eq outcome, made]
    simp

/-- **The check up front is enough.** Evaluation and compilation fail exactly
when two declared variables cross, with the first crossing in the order of
declaration for a report; and otherwise they succeed, since a rule applies to
whatever atoms the decomposition comes to, at any constants, and since compiling
succeeds at whatever call it comes to. -/
theorem fails_iff_crossing :
    ((∃ unsupported, q.evaluate s options = .error unsupported) ↔
      ∃ x ∈ q.vars, ∃ y ∈ q.vars, Crossing q.atoms x y) ∧
    ((∃ unsupported, q.formula = .error unsupported) ↔
      ∃ x ∈ q.vars, ∃ y ∈ q.vars, Crossing q.atoms x y) ∧
    (∀ unsupported,
      q.evaluate s options = .error unsupported ∨ q.formula = .error unsupported →
        ∃ left right shared, unsupported = .notHierarchical left right shared ∧
          FirstCrossing q.atoms q.vars left right ∧ FirstShared q.atoms left right shared) ∧
    ((∀ x ∈ q.vars, ∀ y ∈ q.vars, ¬ Crossing q.atoms x y) →
      (∃ evaluation, q.evaluate s options = .ok evaluation) ∧ (∃ f, q.formula = .ok f) ∧
      (∀ atoms, Decomposition.Reached q.vars q.atoms atoms →
        ∃ rule, Decomposition.of q.vars atoms = .ok rule) ∧
      ∀ bound atoms, Formula.Reached q.vars q.atoms bound atoms →
        ∃ f, Formula.ofAtoms q.vars bound atoms = .ok f) := by
  have found_iff : (∃ unsupported, firstConflict? q.atoms q.vars = some unsupported) ↔
      ∃ x ∈ q.vars, ∃ y ∈ q.vars, Crossing q.atoms x y := by
    rw [← Option.isSome_iff_exists, Option.isSome_iff_ne_none, ne_eq,
      firstConflict?_eq_none_iff_uncrossed]
    constructor
    · intro some
      push Not at some
      obtain ⟨x, y, crossing⟩ := some
      exact ⟨x, crossing.mem_left q.declared, y, crossing.symm.mem_left q.declared, crossing⟩
    · rintro ⟨x, -, y, -, crossing⟩ none
      exact none x y crossing
  simp only [evaluate_eq_error_iff, formula_eq_error_iff, or_self]
  refine ⟨found_iff, found_iff, fun unsupported found => firstConflict?_eq_some found, ?_⟩
  intro uncrossed
  have passes : firstConflict? q.atoms q.vars = none := by
    rw [Option.eq_none_iff_forall_ne_some]
    intro unsupported found
    obtain ⟨x, declaredX, y, declaredY, crossing⟩ := found_iff.1 ⟨unsupported, found⟩
    exact uncrossed x declaredX y declaredY crossing
  have fits := q.decomposable passes
  refine ⟨?_, ?_, fun atoms reached => ?_, fun bound atoms reached => ?_⟩
  · cases outcome : q.evaluate s options with
    | ok evaluation => exact ⟨evaluation, rfl⟩
    | error unsupported =>
      rw [evaluate_eq_error_iff, passes] at outcome
      cases outcome
  · cases outcome : q.formula with
    | ok f => exact ⟨f, rfl⟩
    | error unsupported =>
      rw [formula_eq_error_iff, passes] at outcome
      cases outcome
  · exact Decomposition.exists_rule (Decomposition.decomposable_of_reached fits reached)
  · exact Formula.exists_ofAtoms bound (Formula.decomposable_of_reached fits reached)

end Outcome

/-- `x, y | R(x), S(x, y)`. -/
def reachable : Query :=
  ⟨["x", "y"], [⟨"R", [.var "x"]⟩, ⟨"S", [.var "x", .var "y"]⟩], fault?_eq_none_iff.1 (by decide)⟩

example : reachable.checkHierarchical = .ok () := by decide

end Query

end SafePlan
