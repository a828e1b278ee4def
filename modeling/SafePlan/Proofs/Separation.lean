/-
# SafePlan.Proofs.Separation — what a separator separates

A quantifier's branches are independent when its variable separates the body. The
test can be made in a single pass over the atoms, which remembers the positions
that it met first with each relation (`isSeparator_eq_scan`). That all atoms of a
relation agree with the first of them makes them agree with each other. So a tuple
tells by the constant at any of these positions which branch it belongs to, and no
two branches read the same one (`isSeparator_apart`).
-/
import SafePlan.Proofs.Instances
import SafePlan.Proofs.Scoping

set_option autoImplicit false

namespace SafePlan.Formula

/-! ## The test in one pass -/

/-- One pass over atoms with positions: there have to be some, and the same as
`met` with the relation before. -/
def scan (met : List (Name × List Nat)) : List (Atom × List Nat) → Bool
  | [] => true
  | (a, positions) :: rest =>
    if positions = [] then false
    else match met.lookup a.relation with
      | some first => if first = positions then scan met rest else false
      | none => scan ((a.relation, positions) :: met) rest

/-- Every place is like what was met with its relation, and like the other places
with its relation. -/
structure Consistent (met : List (Name × List Nat)) (places : List (Atom × List Nat)) : Prop where
  placed : ∀ place ∈ places, place.2 ≠ []
  agrees : ∀ place ∈ places, ∀ first, met.lookup place.1.relation = some first → first = place.2
  aligned : ∀ place ∈ places, ∀ other ∈ places,
    place.1.relation = other.1.relation → place.2 = other.2

section Scan

variable {met : List (Name × List Nat)} {a : Atom} {positions : List Nat}
  {rest places : List (Atom × List Nat)}

theorem consistent_cons_iff :
    Consistent met ((a, positions) :: rest) ↔
      (positions ≠ [] ∧ ∀ first, met.lookup a.relation = some first → first = positions) ∧
        (∀ place ∈ rest, a.relation = place.1.relation → positions = place.2) ∧
          Consistent met rest := by
  constructor
  · rintro ⟨placed, agrees, aligned⟩
    obtain ⟨placedHere, placedRest⟩ := List.forall_mem_cons.1 placed
    obtain ⟨agreesHere, agreesRest⟩ := List.forall_mem_cons.1 agrees
    obtain ⟨alignedHere, alignedRest⟩ := List.forall_mem_cons.1 aligned
    exact ⟨⟨placedHere, agreesHere⟩, (List.forall_mem_cons.1 alignedHere).2, placedRest, agreesRest,
      fun place listed => (List.forall_mem_cons.1 (alignedRest place listed)).2⟩
  · rintro ⟨⟨placedHere, agreesHere⟩, alignedHere, placedRest, agreesRest, alignedRest⟩
    refine ⟨List.forall_mem_cons.2 ⟨placedHere, placedRest⟩,
      List.forall_mem_cons.2 ⟨agreesHere, agreesRest⟩, List.forall_mem_cons.2
        ⟨List.forall_mem_cons.2 ⟨fun _ => rfl, alignedHere⟩, fun place listed =>
          List.forall_mem_cons.2 ⟨fun same => ?_, alignedRest place listed⟩⟩⟩
    exact (alignedHere place listed same.symm).symm

/-- To remember what was met is to compare with it later. -/
theorem consistent_remember_iff (new : met.lookup a.relation = none) :
    Consistent ((a.relation, positions) :: met) rest ↔
      (∀ place ∈ rest, a.relation = place.1.relation → positions = place.2) ∧
        Consistent met rest := by
  have known : ∀ place : Atom × List Nat,
      (∀ first, ((a.relation, positions) :: met).lookup place.1.relation = some first →
        first = place.2) ↔
      (a.relation = place.1.relation → positions = place.2) ∧
        ∀ first, met.lookup place.1.relation = some first → first = place.2 := by
    intro place
    rw [List.lookup_cons]
    by_cases same : a.relation = place.1.relation
    · simp [← same, new]
    · have unlike : (place.1.relation == a.relation) = false := beq_false_of_ne (Ne.symm same)
      simp [same, unlike]
  constructor
  · rintro ⟨placed, agrees, aligned⟩
    exact ⟨fun place listed => ((known place).1 (agrees place listed)).1, placed,
      fun place listed => ((known place).1 (agrees place listed)).2, aligned⟩
  · rintro ⟨like, placed, agrees, aligned⟩
    exact ⟨placed, fun place listed => (known place).2 ⟨like place listed, agrees place listed⟩,
      aligned⟩

/-- The pass compares with the first place of each relation, and so all with all. -/
theorem scan_eq_true_iff : scan met places = true ↔ Consistent met places := by
  induction places generalizing met with
  | nil => exact ⟨fun _ => ⟨by simp, by simp, by simp⟩, fun _ => rfl⟩
  | cons place rest ih =>
    obtain ⟨a, positions⟩ := place
    rw [scan, consistent_cons_iff]
    by_cases nowhere : positions = []
    · simp [nowhere]
    cases known : met.lookup a.relation with
    | none => simp [nowhere, ih, consistent_remember_iff known]
    | some first =>
      by_cases same : first = positions
      · subst same
        have like (consistent : Consistent met rest) :
            ∀ place ∈ rest, a.relation = place.1.relation → first = place.2 :=
          fun place listed again => consistent.agrees place listed first (again ▸ known)
        simpa [nowhere, ih] using like
      · simp [nowhere, same]

end Scan

/-- The separator test as one pass with a flag for visibility and a memory of what
was met first. -/
theorem isSeparator_eq_scan (f : Formula) (x : Name) :
    f.isSeparator x = scan [] (f.positionsWhile x true) := by
  rw [Bool.eq_iff_iff, scan_eq_true_iff, positionsWhile_eq, if_pos rfl, isSeparator_iff_placed]
  constructor
  · intro placed
    exact ⟨fun place listed => (placed place listed).1, fun _ _ _ known => (nomatch known),
      fun place listed => (placed place listed).2⟩
  · rintro ⟨placed, -, aligned⟩
    exact fun place listed => ⟨placed place listed, aligned place listed⟩

/-! ## What it separates -/

/-- **A separator grounds its body over disjoint facts.** The test is one pass that
remembers what it met first with each relation. Where it succeeds, the body at two
constants has no fact in common, whatever constants the other variables, free or
bound, have in either. -/
theorem isSeparator_apart (f : Formula) (x : Name) :
    f.isSeparator x = scan [] (f.positionsWhile x true) ∧
      (f.isSeparator x = true → ∀ c d : Name, c ≠ d →
        ∀ a ∈ (f.substitute x c).atoms, ∀ b ∈ (f.substitute x d).atoms,
          ∀ σ τ : Assignment, a.factAt σ ≠ b.factAt τ) := by
  refine ⟨isSeparator_eq_scan f x, fun separates c d different a listedA b listedB σ τ same => ?_⟩
  exact unshared_substitute separates different (a.factAt σ) ⟨a, listedA, σ, rfl⟩
    ⟨b, listedB, τ, same⟩

/-- `R(x, y, x) ∧ ∃y (R(x, b, x, y) ∨ ∀y ¬S(y, x))`. -/
def mixed : Formula :=
  .and (.atom ⟨"R", [.var "x", .var "y", .var "x"]⟩)
    (.exist "y" (.or (.atom ⟨"R", [.var "x", .const "b", .var "x", .var "y"]⟩)
      (.forAll "y" (.not (.atom ⟨"S", [.var "y", .var "x"]⟩)))))

/-- One relation at two arities, the name twice in an atom, another bound again. -/
theorem isSeparator_apart_mixed :
    mixed.isSeparator "x" = true ∧ ("a" : Name) ≠ "b" ∧
      (mixed.substitute "x" "a").atoms = [⟨"R", [.const "a", .var "y", .const "a"]⟩,
        ⟨"R", [.const "a", .const "b", .const "a", .var "y"]⟩, ⟨"S", [.var "y", .const "a"]⟩] ∧
      ∀ a ∈ (mixed.substitute "x" "a").atoms, ∀ b ∈ (mixed.substitute "x" "b").atoms,
        ∀ σ τ : Assignment, a.factAt σ ≠ b.factAt τ := by
  have separates : mixed.isSeparator "x" = true := by decide
  have different : ("a" : Name) ≠ "b" := by decide
  exact ⟨separates, different, by decide,
    (isSeparator_apart mixed "x").2 separates "a" "b" different⟩

end SafePlan.Formula
