/-
# SafePlan.Proofs.Climbing — a climb ends, and stays inside the table

`DisjointSets.find` climbs for at most as many steps as there are elements, and its
parents are elements by their type. As they are kept, parents are a table of plain
numbers: every access to it may fail, and a climb goes on until it has met a root, with
nothing that bounds it (`ParentTable.find`). Parents that point upwards in the table as
well as downwards leave no measure in sight, and each turn changes the table that the
next one reads.

For disjoint sets that are a forest it is the same climb (`outcome_find`). What decides is
the rank of the element (`Ranked`): it falls with every turn, and the turn keeps the
ranking, so a climb from rank `k` has ended after `k` turns. A fresh table is a forest
and every request leaves one, so requests in any number and order succeed
(`outcome_performAll`), and all that is known of the forest is true of the table:
following parents comes to one fixed point (`leadsTo_table_iff`), the same for two
elements exactly if the pairs united so far join them (`classes_apply`).
-/
import Mathlib.Data.PFun
import SafePlan.Proofs.Forest

set_option autoImplicit false

namespace SafePlan

/-! ## Parents as a table of numbers -/

/-- A number at which the table has no parent. -/
structure OutOfTable where
  place : Nat

/-- The parent of each number below the size. -/
abbrev ParentTable := Array Nat

/-- A computation on a table, which may leave the table and need not end. -/
abbrev TableM := StateT ParentTable (ExceptT OutOfTable Part)

namespace TableM

variable {α β : Type}

/-- What comes of a computation; nothing at all, if it does not end. -/
def outcome (computation : TableM α) (table : ParentTable) :
    Part (Except OutOfTable (α × ParentTable)) :=
  computation.run table

/-- Whether a turn decides the loop, and how, or what the next turn starts from. -/
def verdict : Except OutOfTable ((β ⊕ α) × ParentTable) →
    Except OutOfTable (β × ParentTable) ⊕ (α × ParentTable)
  | .ok (.inl result, table) => .inl (.ok (result, table))
  | .ok (.inr next, table) => .inr (next, table)
  | .error fault => .inl (.error fault)

/-- One turn after the other until one has a result or fails. Nothing bounds their number. -/
def loop (turn : α → TableM (β ⊕ α)) (start : α) : TableM β := fun table =>
  PFun.fix (fun state : α × ParentTable => ((turn state.1).outcome state.2).map verdict)
    (start, table)

end TableM

namespace ParentTable

/-- Every number its own parent. -/
def fresh (n : Nat) : ParentTable := Array.range n

def parentOf (x : Nat) : TableM Nat := do
  match (← get)[x]? with
  | some parent => return parent
  | none => throw ⟨x⟩

def setParent (x parent : Nat) : TableM Unit := do
  let table ← get
  if inside : x < table.size then set (table.set x parent inside) else throw ⟨x⟩

/-- The root if it is met, or else the grandparent, after linking to it. -/
def turn (x : Nat) : TableM (Nat ⊕ Nat) := do
  if (← parentOf x) = x then return .inl x
  setParent x (← parentOf (← parentOf x))
  return .inr (← parentOf x)

/-- Climb until a root is met. -/
def find : Nat → TableM Nat := TableM.loop turn

def unite (x y : Nat) : TableM Unit := do
  let x ← find x
  let y ← find y
  if x ≠ y then setParent y x

/-- Following parents leads to a number that is its own parent. -/
inductive LeadsTo (table : ParentTable) : Nat → Nat → Prop
  | root {r : Nat} (own : table[r]? = some r) : LeadsTo table r r
  | up {x parent r : Nat} (next : table[x]? = some parent) (later : LeadsTo table parent r) :
    LeadsTo table x r

end ParentTable

namespace DisjointSets

variable {n : Nat}

/-- The parents, each as a number. -/
def table (sets : DisjointSets n) : ParentTable := (sets.parents.map Fin.val).toArray

/-- What may be asked of disjoint sets. -/
inductive Request (n : Nat) where
  | find (x : Fin n)
  | unite (x y : Fin n)

namespace Request

/-- The disjoint sets that a request leaves. -/
def apply (sets : DisjointSets n) : Request n → DisjointSets n
  | .find x => (sets.find x).2
  | .unite x y => sets.unite x y

/-- The request, made of a table. -/
def perform : Request n → TableM Unit
  | .find x => do let _ ← ParentTable.find x
  | .unite x y => ParentTable.unite x y

def performAll (requests : List (Request n)) : TableM Unit := requests.forM perform

/-- The pairs that requests unite. -/
def united (requests : List (Request n)) : List (Fin n × Fin n) :=
  requests.filterMap fun
    | .find _ => none
    | .unite x y => some (x, y)

end Request

end DisjointSets

/-! ## One turn -/

section Outcomes

variable {α β : Type} {table after : ParentTable} {x parent above : Nat}

namespace TableM

theorem outcome_bind {computation : TableM α} {next : α → TableM β} {a : α}
    (first : computation.outcome table = .some (.ok (a, after))) :
    (computation >>= next).outcome table = (next a).outcome after := by
  show ((computation.run table) >>= fun result => (next result.1).run result.2 :
    ExceptT OutOfTable Part (β × ParentTable)) = _
  rw [show computation.run table = Part.some (.ok (a, after)) from first]
  exact Part.bind_some _ _

theorem outcome_get : (get : TableM ParentTable).outcome table = .some (.ok (table, table)) :=
  rfl

variable {turn : α → TableM (β ⊕ α)} {start : α}

theorem outcome_loop_result {result : β}
    (ends : (turn start).outcome table = .some (.ok (.inl result, after))) :
    (loop turn start).outcome table = .some (.ok (result, after)) := by
  refine Part.eq_some_iff.2 (PFun.fix_stop ?_)
  rw [ends, Part.map_some]
  exact Part.mem_some _

theorem outcome_loop_next {next : α}
    (turned : (turn start).outcome table = .some (.ok (.inr next, after))) :
    (loop turn start).outcome table = (loop turn next).outcome after := by
  refine PFun.fix_fwd_eq ?_
  rw [turned, Part.map_some]
  exact Part.mem_some _

end TableM

namespace ParentTable

theorem outcome_parentOf (here : table[x]? = some parent) :
    (parentOf x).outcome table = .some (.ok (parent, table)) := by
  rw [parentOf, TableM.outcome_bind TableM.outcome_get, here]
  rfl

theorem outcome_setParent (inside : x < table.size) :
    (setParent x parent).outcome table = .some (.ok ((), table.set x parent inside)) := by
  rw [setParent, TableM.outcome_bind TableM.outcome_get, dif_pos inside]
  rfl

theorem outcome_find_root (own : table[x]? = some x) :
    (find x).outcome table = .some (.ok (x, table)) := by
  refine TableM.outcome_loop_result ?_
  rw [turn, TableM.outcome_bind (outcome_parentOf own), if_pos rfl]
  rfl

/-- A turn puts the grandparent for the parent, and the climb goes on from there. -/
theorem outcome_find_turn (inside : x < table.size) (next : table[x]? = some parent)
    (moves : parent ≠ x) (further : table[parent]? = some above) :
    (find x).outcome table = (find above).outcome (table.set x above inside) := by
  have linked : (table.set x above inside)[x]? = some above := by simp
  refine TableM.outcome_loop_next ?_
  rw [turn, TableM.outcome_bind (outcome_parentOf next), if_neg moves,
    TableM.outcome_bind (outcome_parentOf next), TableM.outcome_bind (outcome_parentOf further),
    TableM.outcome_bind (outcome_setParent inside), TableM.outcome_bind (outcome_parentOf linked)]
  rfl

end ParentTable

end Outcomes

/-! ## A climb in a forest -/

namespace DisjointSets

open ParentTable TableM

variable {n : Nat} {sets : DisjointSets n} {rank : Fin n → Nat}

theorem size_table (sets : DisjointSets n) : sets.table.size = n := by
  simp [table]

theorem getElem?_table (sets : DisjointSets n) (x : Fin n) :
    sets.table[x.val]? = some (sets.parent x).val := by
  simp [table, parent]

theorem table_link (sets : DisjointSets n) (x p : Fin n) (inside : x.val < sets.table.size) :
    sets.table.set x p inside = (sets.link x p).table := by
  simp [table, link]

theorem table_singletons (n : Nat) : (singletons n).table = fresh n := by
  apply Array.ext <;> simp [table, singletons, fresh]

/-- **A climb ends at rank zero at the latest.** -/
theorem outcome_climb {k : Nat} {x : Fin n} (ranked : Ranked rank sets) (enough : rank x ≤ k) :
    (ParentTable.find x).outcome sets.table =
      .some (.ok ((climb k sets x).1.val, (climb k sets x).2.table)) := by
  induction k generalizing sets x with
  | zero =>
    have isRoot : sets.parent x = x := parent_iterate ranked enough
    exact outcome_find_root (by rw [getElem?_table, isRoot])
  | succ k ih =>
    rw [climb]
    by_cases here : sets.parent x = x
    · rw [if_pos here]
      exact outcome_find_root (by rw [getElem?_table, here])
    · rw [if_neg here]
      obtain ⟨lower, ranked'⟩ := ranked_link_above ranked here
      have inside : x.val < sets.table.size := by rw [size_table]; exact x.isLt
      rw [outcome_find_turn inside (sets.getElem?_table x) (fun same => here (Fin.ext same))
        (sets.getElem?_table (sets.parent x)), table_link]
      exact ih ranked' (by omega)

theorem outcome_find (forest : IsForest sets) (x : Fin n) :
    (ParentTable.find x).outcome sets.table =
      .some (.ok ((sets.find x).1.val, (sets.find x).2.table)) := by
  obtain ⟨rank, ranked, bounded⟩ := exists_rank_lt forest
  exact outcome_climb ranked (bounded x).le

theorem outcome_unite (forest : IsForest sets) (x y : Fin n) :
    (ParentTable.unite x y).outcome sets.table = .some (.ok ((), (sets.unite x y).table)) := by
  obtain ⟨-, forestX, -⟩ := find_root forest x
  rw [ParentTable.unite, outcome_bind (outcome_find forest x),
    outcome_bind (outcome_find forestX y)]
  by_cases together : (sets.find x).1 = ((sets.find x).2.find y).1
  · rw [if_neg (by simp [together])]
    simp only [unite, if_pos together]
    rfl
  · rw [if_pos (mt Fin.ext together), outcome_setParent (by rw [size_table]; exact Fin.isLt _)]
    rw [table_link]
    simp only [unite, if_neg together]

/-! ## Requests -/

open Request

theorem outcome_perform (forest : IsForest sets) (request : Request n) :
    request.perform.outcome sets.table = .some (.ok ((), (request.apply sets).table)) := by
  cases request with
  | find x =>
    rw [perform, outcome_bind (outcome_find forest x)]
    rfl
  | unite x y => exact outcome_unite forest x y

/-- A request keeps the classes, but for the pair that it unites. -/
theorem classes_apply {pairs : List (Fin n × Fin n)} (classes : Classes sets pairs)
    (request : Request n) : Classes (request.apply sets) (pairs ++ united [request]) := by
  cases request with
  | find x =>
    obtain ⟨-, forest, roots⟩ := find_root classes.1 x
    rw [show united [.find x] = ([] : List (Fin n × Fin n)) from rfl, List.append_nil]
    refine ⟨forest, fun a b => ?_⟩
    rw [apply, roots]
    exact classes.2 a b
  | unite x y => exact classes_unite classes x y

theorem united_cons (request : Request n) (later : List (Request n)) :
    united (request :: later) = united [request] ++ united later := by
  rw [united, united, united, ← List.filterMap_append]
  rfl

/-- **No request fails or goes on for ever,** and all of them leave the classes of the pairs
that were united. -/
theorem outcome_performAll {pairs : List (Fin n × Fin n)} (classes : Classes sets pairs)
    (requests : List (Request n)) :
    (performAll requests).outcome sets.table =
        .some (.ok ((), (requests.foldl Request.apply sets).table)) ∧
      Classes (requests.foldl Request.apply sets) (pairs ++ united requests) := by
  induction requests generalizing sets pairs with
  | nil => exact ⟨rfl, by simpa [united] using classes⟩
  | cons request later ih =>
    obtain ⟨performed, left⟩ := ih (classes_apply classes request)
    rw [united_cons, ← List.append_assoc]
    refine ⟨?_, left⟩
    show (request.perform >>= fun _ => performAll later).outcome sets.table = _
    rw [outcome_bind (outcome_perform classes.1 request), performed]
    rfl

/-! ## Where parents lead -/

theorem leadsTo_iterate (x : Fin n) {k : Nat}
    (ends : sets.parent (sets.parent^[k] x) = sets.parent^[k] x) :
    LeadsTo sets.table x (sets.parent^[k] x) := by
  induction k generalizing x with
  | zero => exact .root (by rw [getElem?_table]; exact congrArg (some ·.val) ends)
  | succ k ih => exact .up (sets.getElem?_table x) (ih (sets.parent x) ends)

theorem leadsTo_table_iff (forest : IsForest sets) {x : Fin n} {r : Nat} :
    LeadsTo sets.table x r ↔ r = (sets.root x).val := by
  constructor
  · intro leads
    generalize start : x.val = place at leads
    induction leads generalizing x with
    | root own =>
      subst start
      rw [getElem?_table, Option.some.injEq] at own
      rw [root_of_parent_eq (Fin.ext own)]
    | up next _ ih =>
      subst start
      rw [getElem?_table, Option.some.injEq] at next
      rw [ih next, root_parent forest]
  · rintro rfl
    exact leadsTo_iterate x (parent_root forest x)

/-- **Disjoint sets stay a forest.** After any requests the table is the one that the
disjoint sets of as many elements have; from every number parents lead to one fixed point,
`find` ends there and changes no other's fixed point, and two numbers have one fixed point
exactly if the united pairs join them. -/
theorem requests_keep_forest (n : Nat) (requests : List (Request n)) :
    let sets := requests.foldl Request.apply (singletons n)
    (performAll requests).outcome (fresh n) = .some (.ok ((), sets.table)) ∧
      (∀ x : Fin n, ∃! r, LeadsTo sets.table x r) ∧
      (∀ x : Fin n, ∃ r after,
        (ParentTable.find x).outcome sets.table = .some (.ok (r, after)) ∧
        LeadsTo sets.table x r ∧
        ∀ (y : Fin n) (r' : Nat), LeadsTo after y r' ↔ LeadsTo sets.table y r') ∧
      ∀ x y : Fin n, (∃ r, LeadsTo sets.table x r ∧ LeadsTo sets.table y r) ↔
        Joined (united requests) x y := by
  intro sets
  obtain ⟨performed, classes⟩ := outcome_performAll classes_singletons requests
  rw [table_singletons] at performed
  obtain ⟨forest, joined⟩ : Classes sets (united requests) := classes
  refine ⟨performed, fun x => ?_, fun x => ?_, fun x y => ?_⟩
  · exact ⟨(sets.root x).val, (leadsTo_table_iff forest).2 rfl, fun r =>
      (leadsTo_table_iff forest).1⟩
  · obtain ⟨found, forest', roots⟩ := find_root forest x
    refine ⟨_, _, outcome_find forest x, (leadsTo_table_iff forest).2 (by rw [found]), ?_⟩
    intro y r'
    rw [leadsTo_table_iff forest', leadsTo_table_iff forest, roots]
  · simp only [leadsTo_table_iff forest, ← joined x y]
    constructor
    · rintro ⟨r, ends, ends'⟩
      exact Fin.ext (ends.symm.trans ends')
    · intro same
      exact ⟨_, rfl, congrArg Fin.val same⟩

end DisjointSets

end SafePlan
