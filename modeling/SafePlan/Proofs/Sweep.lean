/-
# SafePlan.Proofs.Sweep — one sweep finds the connected components

`components` unites each atom with the first one that mentions a variable of it, and
groups the atoms by their roots. It takes one sweep to do so: a table keeps the atom
that each variable was first met in, and an occurrence of a variable that is in the
table unites two atoms at once (`sweep`). The invariant of the sweep is that the sets
are the classes of all occurrences visited so far (`Sweep.Covers`). Grouping then goes
once more through the positions and appends each to the group of its root, while the
look-ups still shorten the ways to the roots (`Sweep.regroup`).

What comes out, either way, is the partition into connected components
(`components_connected`).
-/
import SafePlan.Proofs.Connection

set_option autoImplicit false

namespace SafePlan

/-! ## The sweep -/

/-- How far a sweep has come: the first atom that each variable was met in, and the
atoms that are united. -/
structure Sweep (n : Nat) where
  met : List (Name × Fin n)
  sets : DisjointSets n

namespace Sweep

variable {n : Nat}

def start (n : Nat) : Sweep n := ⟨[], DisjointSets.singletons n⟩

/-- An occurrence of a variable: the atom it is in is united with the one that the
variable was first met in, or is that one. -/
def visit (sweep : Sweep n) (x : Name) (i : Fin n) : Sweep n :=
  match sweep.met.lookup x with
  | some first => { sweep with sets := sweep.sets.unite first i }
  | none => { sweep with met := (x, i) :: sweep.met }

/-- Put an element behind those of its key; a new key comes last. -/
def place {α κ : Type} [DecidableEq κ] (key : κ) (a : α) : List (κ × List α) → List (κ × List α)
  | [] => [(key, [a])]
  | entry :: rest =>
    if entry.1 = key then (entry.1, entry.2 ++ [a]) :: rest else entry :: place key a rest

/-- A position is put behind those with its root, and the way to the root is shorter
for the positions to come. -/
def file (state : DisjointSets n × List (Fin n × List (Fin n))) (i : Fin n) :
    DisjointSets n × List (Fin n × List (Fin n)) :=
  let (root, sets) := state.1.find i
  (sets, place root i state.2)

/-- The positions in groups, by their roots. -/
def regroup (sweep : Sweep n) : List (List (Fin n)) :=
  ((List.finRange n).foldl file (sweep.sets, [])).2.map Prod.snd

end Sweep

/-- Visit the linking variables of every atom, in order. -/
def sweep (linking : Name → Bool) (atoms : List Atom) : Sweep atoms.length :=
  (List.finRange atoms.length).foldl
    (fun state i => ((atoms.get i).vars.filter linking).foldl (fun state x => state.visit x i) state)
    (Sweep.start atoms.length)

/-! ## What is united -/

/-- The occurrences of linking variables, with the atoms they are in. -/
def linkOccurrences (linking : Name → Bool) (atoms : List Atom) :
    List (Name × Fin atoms.length) :=
  (List.finRange atoms.length).flatMap fun i => ((atoms.get i).vars.filter linking).map (·, i)

namespace Sweep

variable {n : Nat} {sets : DisjointSets n}

/-- For each occurrence, the first atom that the variable occurs in and its own. -/
def firsts (visited : List (Name × Fin n)) : List (Fin n × Fin n) :=
  visited.filterMap fun (x, i) => (visited.lookup x).map (·, i)

/-- The table has the first atom of every variable visited, and the sets are the
classes that the visited occurrences join. -/
structure Covers (sweep : Sweep n) (visited : List (Name × Fin n)) : Prop where
  met : ∀ x, sweep.met.lookup x = visited.lookup x
  classes : sweep.sets.Classes (firsts visited)

theorem covers_start (n : Nat) : Covers (start n) [] :=
  ⟨fun _ => rfl, DisjointSets.classes_singletons⟩

/-- A new occurrence has no part in which atom a variable was met in before. -/
theorem firsts_concat (visited : List (Name × Fin n)) (x : Name) (i : Fin n) :
    firsts (visited ++ [(x, i)]) = firsts visited ++ [((visited.lookup x).getD i, i)] := by
  have before : ∀ entry ∈ visited,
      (visited ++ [(x, i)]).lookup entry.1 = visited.lookup entry.1 := by
    intro entry listed
    have found : visited.lookup entry.1 ≠ none := by
      rw [Ne, List.lookup_eq_none_iff]
      intro absent
      simpa using absent entry listed
    rw [List.lookup_append, Option.or_of_isSome (Option.isSome_iff_ne_none.2 found)]
  have last : (visited ++ [(x, i)]).lookup x = some ((visited.lookup x).getD i) := by
    rw [List.lookup_append]
    cases visited.lookup x <;> simp
  rw [firsts, firsts, List.filterMap_append]
  congr 1
  · refine List.filterMap_congr fun entry listed => ?_
    exact congrArg (Option.map (·, entry.2)) (before entry listed)
  · simp [last]

/-- **One step of the sweep** covers one more occurrence. -/
theorem Covers.visit {sweep : Sweep n} {visited : List (Name × Fin n)}
    (covers : sweep.Covers visited) (x : Name) (i : Fin n) :
    (sweep.visit x i).Covers (visited ++ [(x, i)]) := by
  have met := covers.met x
  cases found : visited.lookup x with
  | some first =>
    have united : sweep.visit x i = { sweep with sets := sweep.sets.unite first i } := by
      rw [Sweep.visit, met, found]
    rw [united]
    refine ⟨fun y => ?_, ?_⟩
    · rw [covers.met, List.lookup_append, List.lookup_cons]
      by_cases same : y = x
      · rw [same, found, Option.some_or]
      · rw [beq_false_of_ne same, List.lookup_nil, Option.or_none]
    · rw [firsts_concat, found]
      exact DisjointSets.classes_unite covers.classes first i
  | none =>
    have entered : sweep.visit x i = { sweep with met := (x, i) :: sweep.met } := by
      rw [Sweep.visit, met, found]
    rw [entered]
    refine ⟨fun y => ?_, ?_⟩
    · rw [List.lookup_cons, covers.met, List.lookup_append, List.lookup_cons]
      by_cases same : y = x
      · rw [same, found, beq_self_eq_true, Option.none_or]
      · rw [beq_false_of_ne same, List.lookup_nil, Option.or_none]
    · -- the variable was not met before, so its first atom is this one
      rw [firsts_concat, found]
      exact DisjointSets.classes_concat_self covers.classes i

theorem Covers.foldl {sweep : Sweep n} {visited : List (Name × Fin n)}
    (covers : sweep.Covers visited) (rest : List (Name × Fin n)) :
    (rest.foldl (fun state entry => state.visit entry.1 entry.2) sweep).Covers
      (visited ++ rest) := by
  induction rest generalizing sweep visited with
  | nil => simpa using covers
  | cons entry rest ih => simpa using ih (covers.visit entry.1 entry.2)

end Sweep

section Sweeping

variable {linking : Name → Bool} {atoms : List Atom}

/-- **The sweep covers all occurrences.** -/
theorem covers_sweep (linking : Name → Bool) (atoms : List Atom) :
    (sweep linking atoms).Covers (linkOccurrences linking atoms) := by
  have covers := (Sweep.covers_start atoms.length).foldl (linkOccurrences linking atoms)
  have nested : (linkOccurrences linking atoms).foldl
      (fun state entry => state.visit entry.1 entry.2) (Sweep.start atoms.length) =
        sweep linking atoms := by
    simp only [linkOccurrences, List.foldl_flatMap, List.foldl_map, sweep]
  rwa [List.nil_append, nested] at covers

/-- A variable is looked up among occurrences that are listed place by place. -/
theorem lookup_occurrences {n : Nat} (names : Fin n → List Name) (places : List (Fin n))
    (x : Name) : (places.flatMap fun i => (names i).map (·, i)).lookup x =
      places.find? fun i => decide (x ∈ names i) := by
  have inPlace : ∀ (i : Fin n) (listed : List Name),
      (listed.map (·, i)).lookup x = if x ∈ listed then some i else none := by
    intro i listed
    induction listed with
    | nil => rfl
    | cons y rest ih =>
      rw [List.map_cons, List.lookup_cons, ih]
      by_cases same : x = y
      · simp [same]
      · simp [same, beq_false_of_ne same]
  induction places with
  | nil => rfl
  | cons i rest ih =>
    rw [List.flatMap_cons, List.lookup_append, inPlace, ih, List.find?_cons]
    by_cases here : x ∈ names i
    · simp [here]
    · simp [here]

theorem find?_finRange (atoms : List Atom) (p : Atom → Bool) :
    (List.finRange atoms.length).find? (fun i => p (atoms.get i)) = atoms.findFinIdx? p := by
  cases found : atoms.findFinIdx? p with
  | none =>
    have fails := List.findFinIdx?_eq_none_iff.1 found
    exact List.find?_eq_none.2 fun i _ => by simpa using fails _ (List.get_mem atoms i)
  | some first =>
    obtain ⟨holds, before⟩ := List.findFinIdx?_eq_some_iff.1 found
    refine List.find?_eq_some_iff_getElem.2 ⟨holds, first, by simp, by simp, fun j earlier => ?_⟩
    simpa using before ⟨j, by omega⟩ earlier

theorem lookup_linkOccurrences {x : Name} (links : linking x = true) :
    (linkOccurrences linking atoms).lookup x = atoms.findFinIdx? (·.mentions x) := by
  rw [linkOccurrences, lookup_occurrences, ← find?_finRange]
  simp [List.mem_filter, links, Atom.mentions]

/-- Every variable is met first in the first atom that mentions it. -/
theorem firsts_linkOccurrences (linking : Name → Bool) (atoms : List Atom) :
    Sweep.firsts (linkOccurrences linking atoms) = sharings linking atoms := by
  have first : ∀ i, ∀ x ∈ (atoms.get i).vars.filter linking,
      ((linkOccurrences linking atoms).lookup x).map (·, i) =
        (atoms.findFinIdx? (·.mentions x)).map fun first => (first, i) := by
    intro i x listed
    rw [lookup_linkOccurrences (List.mem_filter.1 listed).2]
  conv => lhs; rw [Sweep.firsts]; enter [2]; rw [linkOccurrences]
  rw [List.filterMap_flatMap, sharings]
  refine List.flatMap_congr fun i _ => ?_
  rw [List.filterMap_map]
  exact List.filterMap_congr (first i)

theorem classes_sweep (linking : Name → Bool) (atoms : List Atom) :
    (sweep linking atoms).sets.Classes (sharings linking atoms) := by
  rw [← firsts_linkOccurrences]
  exact (covers_sweep linking atoms).classes

end Sweeping

/-! ## Grouping on the way

Positions are put into groups one by one. With the keys of the groups so far given, what
is put is known: behind each group come the elements of its key, and after the groups
those of the other keys, grouped.
-/

section Filing

variable {α κ : Type} [DecidableEq κ]

theorem place_of_mem {key : κ} {filed : List (κ × List α)} (a : α)
    (known : key ∈ filed.map Prod.fst) (distinct : (filed.map Prod.fst).Nodup) :
    Sweep.place key a filed =
      filed.map fun entry => if entry.1 = key then (entry.1, entry.2 ++ [a]) else entry := by
  induction filed with
  | nil => simp at known
  | cons entry rest ih =>
    rw [List.map_cons, List.nodup_cons] at distinct
    rw [Sweep.place, List.map_cons]
    by_cases here : entry.1 = key
    · -- keys are distinct, so the groups behind are left alone
      have others : ∀ later ∈ rest,
          (if later.1 = key then (later.1, later.2 ++ [a]) else later) = id later := by
        intro later listed
        refine if_neg fun same => distinct.1 ?_
        rw [here, ← same]
        exact List.mem_map_of_mem listed
      rw [if_pos here, if_pos here, List.map_congr_left others, List.map_id]
    · have later : key ∈ rest.map Prod.fst := by
        rcases List.mem_cons.1 known with rfl | later
        · exact absurd rfl here
        · exact later
      rw [if_neg here, if_neg here, ih later distinct.2]

theorem place_of_not_mem {key : κ} {filed : List (κ × List α)} (a : α)
    (unknown : key ∉ filed.map Prod.fst) : Sweep.place key a filed = filed ++ [(key, [a])] := by
  induction filed with
  | nil => rfl
  | cons entry rest ih =>
    rw [List.map_cons, List.mem_cons, not_or] at unknown
    rw [Sweep.place, if_neg (Ne.symm unknown.1), ih unknown.2, List.cons_append]

theorem map_foldl_place (key : α → κ) (elements : List α) (filed : List (κ × List α))
    (distinct : (filed.map Prod.fst).Nodup) :
    (elements.foldl (fun filed a => Sweep.place (key a) a filed) filed).map Prod.snd =
      (filed.map fun entry => entry.2 ++ withKey key entry.1 elements) ++
        groupOn key (elements.filter fun a => key a ∉ filed.map Prod.fst) := by
  induction elements generalizing filed with
  | nil => simp [withKey, groupOn]
  | cons a rest ih =>
    rw [List.foldl_cons]
    by_cases known : key a ∈ filed.map Prod.fst
    · have keys : (filed.map fun entry =>
          if entry.1 = key a then (entry.1, entry.2 ++ [a]) else entry).map Prod.fst =
            filed.map Prod.fst := by
        rw [List.map_map]
        refine List.map_congr_left fun entry _ => ?_
        rw [Function.comp_apply]
        split <;> rfl
      rw [place_of_mem a known distinct, ih _ (by rwa [keys]), keys, List.map_map,
        List.filter_cons_of_neg (by simpa using known)]
      congr 1
      refine List.map_congr_left fun entry _ => ?_
      rw [Function.comp_apply, withKey, withKey]
      by_cases here : entry.1 = key a
      · rw [if_pos here, List.filter_cons_of_pos (by simpa using here.symm), List.append_assoc,
          List.singleton_append]
      · rw [if_neg here, List.filter_cons_of_neg (by simpa using Ne.symm here)]
    · have keys : (filed ++ [(key a, [a])]).map Prod.fst = filed.map Prod.fst ++ [key a] := by
        simp
      have distinct' : (filed.map Prod.fst ++ [key a]).Nodup := by
        rw [← List.concat_eq_append]
        exact distinct.concat known
      have older : (filed.map fun entry => entry.2 ++ withKey key entry.1 (a :: rest)) =
          filed.map fun entry => entry.2 ++ withKey key entry.1 rest := by
        refine List.map_congr_left fun entry listed => ?_
        have differs : key a ≠ entry.1 := fun same =>
          known (same ▸ List.mem_map_of_mem listed)
        rw [withKey, withKey, List.filter_cons_of_neg (by simpa using differs)]
      have within : withKey key (key a) (rest.filter fun b => key b ∉ filed.map Prod.fst) =
          withKey key (key a) rest := by
        rw [withKey, withKey, List.filter_filter]
        refine List.filter_congr fun b _ => ?_
        by_cases same : key b = key a <;> simp [same, known]
      have without : withoutKey key (key a) (rest.filter fun b => key b ∉ filed.map Prod.fst) =
          rest.filter fun b => key b ∉ filed.map Prod.fst ++ [key a] := by
        rw [withoutKey, List.filter_filter]
        refine List.filter_congr fun b _ => ?_
        by_cases same : key b = key a <;> simp [same]
      rw [place_of_not_mem a known, ih _ (by rwa [keys]), keys,
        List.filter_cons_of_pos (by simpa using known), groupOn, within, without, older,
        List.map_append, List.append_assoc]
      rfl

theorem foldl_file {n : Nat} {sets : DisjointSets n} (forest : DisjointSets.IsForest sets)
    (elements : List (Fin n)) (filed : List (Fin n × List (Fin n))) :
    (elements.foldl Sweep.file (sets, filed)).2 =
      elements.foldl (fun filed i => Sweep.place (sets.root i) i filed) filed := by
  induction elements generalizing sets filed with
  | nil => rfl
  | cons i rest ih =>
    obtain ⟨found, forest', sameRoots⟩ := DisjointSets.find_root forest i
    have step : Sweep.file (sets, filed) i =
        ((sets.find i).2, Sweep.place (sets.root i) i filed) := by
      rw [← found]
      rfl
    rw [List.foldl_cons, List.foldl_cons, step, ih forest', sameRoots]

end Filing

/-- **The sweep and the pairs give one grouping.** -/
theorem regroup_sweep (linking : Name → Bool) (atoms : List Atom) :
    (sweep linking atoms).regroup = components linking atoms := by
  obtain ⟨forest, same⟩ := classes_sweep linking atoms
  have grouped := map_foldl_place (sweep linking atoms).sets.root (List.finRange atoms.length) []
    List.nodup_nil
  rw [Sweep.regroup, foldl_file forest, grouped, components_eq]
  simp only [List.map_nil, List.nil_append, List.not_mem_nil, not_false_eq_true, decide_true,
    List.filter_true]
  refine groupOn_congr fun i _ j _ => ?_
  rw [same, joined_sharings_iff, classOf_eq_iff]

/-! ## Connected components -/

section Partition

variable {linking : Name → Bool} {atoms : List Atom}

theorem linked_symm {i j : Nat} (linked : Linked linking atoms i j) :
    Linked linking atoms j i := by
  obtain ⟨x, a, b, links, atI, atJ, inA, inB⟩ := linked
  exact ⟨x, b, a, links, atJ, atI, inB, inA⟩

/-- Links can be walked both ways, so a chain of them needs no way back. -/
theorem connected_iff_chain {i j : Nat} :
    Connected linking atoms i j ↔ Relation.ReflTransGen (Linked linking atoms) i j := by
  have : Std.Symm (Linked linking atoms) := ⟨fun _ _ => linked_symm⟩
  rw [Connected, Relation.EqvGen.eqvGen_eq_reflTransGen]

theorem exists_component_iff {i j : Fin atoms.length} :
    (∃ group ∈ components linking atoms, i ∈ group ∧ j ∈ group) ↔
      Relation.ReflTransGen (Linked linking atoms) i j := by
  rw [← connected_iff_chain, ← classOf_eq_iff, components_eq]
  constructor
  · rintro ⟨group, listed, memberI, memberJ⟩
    exact key_eq_of_mem_groupOn listed memberI memberJ
  · intro same
    exact exists_group_of_key_eq (List.mem_finRange i) (List.mem_finRange j) same

theorem increasing_of_mem_components {group : List (Fin atoms.length)}
    (listed : group ∈ components linking atoms) : group.Pairwise (· < ·) := by
  rw [components_eq] at listed
  exact List.Pairwise.sublist (sublist_of_mem_groupOn listed) (List.pairwise_lt_finRange _)

/-- A position that no link leads from is a group of its own. -/
theorem singleton_mem_components {i : Fin atoms.length}
    (unlinked : ∀ x ∈ (atoms.get i).vars, linking x = false) :
    [i] ∈ components linking atoms := by
  have here : Relation.ReflTransGen (Linked linking atoms) (i : Nat) i := .refl
  obtain ⟨group, listed, member, -⟩ := exists_component_iff.2 here
  have stuck : ∀ k, ¬ Linked linking atoms i k := by
    rintro k ⟨x, a, b, links, atI, -, inA, -⟩
    obtain rfl : atoms.get i = a := by simpa using atI
    rw [unlinked x inA] at links
    cases links
  have only : ∀ j ∈ group, j = i := by
    intro j memberJ
    rcases (exists_component_iff.1 ⟨group, listed, member, memberJ⟩).cases_head with same | onward
    · exact (Fin.ext same).symm
    · obtain ⟨k, link, -⟩ := onward
      exact absurd link (stuck k)
  have increasing := increasing_of_mem_components listed
  obtain _ | ⟨j, _ | ⟨k, later⟩⟩ := group
  · simp at member
  · rw [← only j (by simp)]
    exact listed
  · have rises := (List.pairwise_cons.1 increasing).1 k (by simp)
    rw [only j (by simp), only k (by simp)] at rises
    exact absurd rises (lt_irrefl i)

end Partition

/-- **Connected components.** -/
theorem components_connected (linking : Name → Bool) (atoms : List Atom) :
    (components linking atoms).flatten.Perm (List.finRange atoms.length) ∧
      (∀ i j : Fin atoms.length,
        (∃ group ∈ components linking atoms, i ∈ group ∧ j ∈ group) ↔
          Relation.ReflTransGen (Linked linking atoms) i j) ∧
      (∀ group ∈ components linking atoms, group ≠ [] ∧ group.Pairwise (· < ·)) ∧
      ((components linking atoms).Pairwise fun group later =>
        ∀ i ∈ group.head?, ∀ j ∈ later, i < j) ∧
      (∀ i : Fin atoms.length, (∀ x ∈ (atoms.get i).vars, linking x = false) →
        [i] ∈ components linking atoms) ∧
      (sweep linking atoms).regroup = components linking atoms := by
  refine ⟨flatten_groupOn_perm _ _, fun i j => exists_component_iff, fun group listed => ?_, ?_,
    fun i unlinked => ?_, regroup_sweep linking atoms⟩
  · rw [components_eq] at listed
    exact ⟨ne_nil_of_mem_groupOn listed, increasing_of_mem_components listed⟩
  · rw [components_eq]
    exact pairwise_head_groupOn _ (List.pairwise_lt_finRange _)
  · exact singleton_mem_components unlinked

end SafePlan
