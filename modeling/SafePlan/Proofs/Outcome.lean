/-
# SafePlan.Proofs.Outcome — attempts that succeed

A plan is drawn by attempts that may fail, one after the other; the first
failure is the outcome of all. These lemmas say when a sequence of attempts
succeeds, what it is made of then, and how what holds of the inputs carries over
to the results. Two sequences that go alike step by step come to the same outcome
(`SameOutcome`).
-/
import Mathlib.Data.List.Forall2

set_option autoImplicit false

namespace SafePlan

variable {α β ε : Type}

theorem map_eq_ok_iff {attempt : Except ε α} {g : α → β} {b : β} :
    attempt.map g = .ok b ↔ ∃ a, attempt = .ok a ∧ g a = b := by
  cases attempt <;> simp [Except.map]

theorem exists_map_eq_ok_iff {attempt : Except ε α} {g : α → β} :
    (∃ b, attempt.map g = .ok b) ↔ ∃ a, attempt = .ok a := by
  cases attempt <;> simp [Except.map]

theorem map_eq_error_iff {attempt : Except ε α} {g : α → β} {error : ε} :
    attempt.map g = .error error ↔ attempt = .error error := by
  cases attempt <;> simp [Except.map]

theorem toOption_eq_some_iff {attempt : Except ε α} {a : α} :
    attempt.toOption = some a ↔ attempt = .ok a := by
  cases attempt <;> simp [Except.toOption]

theorem bind_eq_ok_iff {attempt : Except ε α} {next : α → Except ε β} {b : β} :
    (attempt >>= next) = .ok b ↔ ∃ a, attempt = .ok a ∧ next a = .ok b := by
  cases attempt <;> simp [bind, Except.bind]

theorem bind_eq_error_iff {attempt : Except ε α} {next : α → Except ε β} {error : ε} :
    (attempt >>= next) = .error error ↔
      attempt = .error error ∨ ∃ a, attempt = .ok a ∧ next a = .error error := by
  cases attempt <;> simp [bind, Except.bind]

/-- A sequence succeeds with the results of its members. -/
theorem mapM_eq_ok_iff {attempt : α → Except ε β} {inputs : List α} {results : List β} :
    inputs.mapM attempt = .ok results ↔
      List.Forall₂ (fun a b => attempt a = .ok b) inputs results := by
  induction inputs generalizing results with
  | nil =>
    rw [List.mapM_nil, List.forall₂_nil_left_iff]
    constructor
    · rintro ⟨⟩
      rfl
    · rintro rfl
      rfl
  | cons first rest ih =>
    rw [List.mapM_cons, bind_eq_ok_iff, List.forall₂_cons_left_iff]
    constructor
    · rintro ⟨b, here, others⟩
      obtain ⟨bs, later, ⟨⟩⟩ := bind_eq_ok_iff.1 others
      exact ⟨b, bs, here, ih.1 later, rfl⟩
    · rintro ⟨b, bs, here, later, rfl⟩
      exact ⟨b, here, bind_eq_ok_iff.2 ⟨bs, ih.2 later, rfl⟩⟩

theorem mapM_eq_some_iff {attempt : α → Option β} {inputs : List α} {results : List β} :
    inputs.mapM attempt = some results ↔
      List.Forall₂ (fun a b => attempt a = some b) inputs results := by
  induction inputs generalizing results with
  | nil => simp [List.forall₂_nil_left_iff, eq_comm]
  | cons first rest ih =>
    rw [List.mapM_cons, List.forall₂_cons_left_iff]
    simp only [Option.bind_eq_bind, Option.bind_eq_some_iff, Option.pure_def, Option.some.injEq]
    constructor
    · rintro ⟨b, here, bs, later, rfl⟩
      exact ⟨b, bs, here, ih.1 later, rfl⟩
    · rintro ⟨b, bs, here, later, rfl⟩
      exact ⟨b, here, bs, ih.2 later, rfl⟩

theorem mapM_congr {m : Type → Type} [Monad m] [LawfulMonad m] {γ : Type} {step step' : α → m γ}
    {inputs : List α} (same : ∀ a ∈ inputs, step a = step' a) :
    inputs.mapM step = inputs.mapM step' := by
  induction inputs with
  | nil => rw [List.mapM_nil, List.mapM_nil]
  | cons first rest ih =>
    obtain ⟨here, others⟩ := List.forall_mem_cons.1 same
    rw [List.mapM_cons, List.mapM_cons, here, ih others]

theorem exists_mapM_eq_ok {attempt : α → Except ε β} {inputs : List α}
    (each : ∀ a ∈ inputs, ∃ b, attempt a = .ok b) : ∃ results, inputs.mapM attempt = .ok results := by
  induction inputs with
  | nil => exact ⟨[], rfl⟩
  | cons first rest ih =>
    obtain ⟨b, here⟩ := each first (by simp)
    obtain ⟨bs, later⟩ := ih fun a listed => each a (List.mem_cons_of_mem _ listed)
    refine ⟨b :: bs, mapM_eq_ok_iff.2 (.cons here (mapM_eq_ok_iff.1 later))⟩

theorem exists_ok_of_mapM {attempt : α → Except ε β} {inputs : List α} {results : List β}
    (outcome : inputs.mapM attempt = .ok results) {a : α} (listed : a ∈ inputs) :
    ∃ b, attempt a = .ok b := by
  have made := mapM_eq_ok_iff.1 outcome
  induction made with
  | nil => cases listed
  | cons here later ih =>
    rcases List.mem_cons.1 listed with rfl | there
    · exact ⟨_, here⟩
    · exact ih (mapM_eq_ok_iff.2 later) there

/-- A sequence that fails does so as one of its members. -/
theorem exists_error_of_mapM {attempt : α → Except ε β} {inputs : List α} {error : ε}
    (outcome : inputs.mapM attempt = .error error) : ∃ a ∈ inputs, attempt a = .error error := by
  induction inputs with
  | nil => cases outcome
  | cons first rest ih =>
    cases here : attempt first with
    | error other =>
      rw [List.mapM_cons, here] at outcome
      cases outcome
      exact ⟨first, List.mem_cons_self, here⟩
    | ok b =>
      rw [List.mapM_cons, here] at outcome
      cases later : rest.mapM attempt with
      | error other =>
        rw [later] at outcome
        cases outcome
        obtain ⟨a, listed, failed⟩ := ih later
        exact ⟨a, List.mem_cons_of_mem _ listed, failed⟩
      | ok bs =>
        rw [later] at outcome
        cases outcome

/-! ## From inputs to results -/

/-- What each attempt gives relates inputs to results. -/
theorem forall₂_of_mapM {attempt : α → Except ε β} {inputs : List α} {results : List β}
    (outcome : inputs.mapM attempt = .ok results) {related : α → β → Prop}
    (each : ∀ a ∈ inputs, ∀ b, attempt a = .ok b → related a b) :
    List.Forall₂ related inputs results := by
  have made := (List.forall₂_and_left inputs results).2
    ⟨fun a listed => listed, mapM_eq_ok_iff.1 outcome⟩
  exact made.imp fun a b here => each a here.1 b here.2

/-- Two sequences of attempts on the same inputs. -/
theorem forall₂_results {γ : Type} {attempt : α → Except ε β} {attempt' : α → Except ε γ}
    {inputs : List α} {results : List β} {results' : List γ}
    (outcome : inputs.mapM attempt = .ok results) (outcome' : inputs.mapM attempt' = .ok results')
    {related : β → γ → Prop}
    (each : ∀ a ∈ inputs, ∀ b c, attempt a = .ok b → attempt' a = .ok c → related b c) :
    List.Forall₂ related results results' := by
  rw [mapM_eq_ok_iff] at outcome outcome'
  induction outcome generalizing results' with
  | nil =>
    cases outcome'
    exact .nil
  | cons here _ ih =>
    cases outcome' with
    | cons here' later' =>
      obtain ⟨first, others⟩ := List.forall_mem_cons.1 each
      exact .cons (first _ _ here here') (ih later' others)

/-- Attempts that succeed with given values of their results. -/
theorem exists_mapM_of_values {γ : Type} {attempt : α → Except ε β} {value : β → γ}
    {inputs : List α} {values : List γ}
    (each : List.Forall₂ (fun a v => ∃ b, attempt a = .ok b ∧ value b = v) inputs values) :
    ∃ results, inputs.mapM attempt = .ok results ∧ results.map value = values := by
  induction each with
  | nil => exact ⟨[], rfl, rfl⟩
  | cons here _ ih =>
    obtain ⟨b, made, rfl⟩ := here
    obtain ⟨bs, madeAll, rfl⟩ := ih
    refine ⟨b :: bs, mapM_eq_ok_iff.2 (.cons made (mapM_eq_ok_iff.1 madeAll)), rfl⟩

section Results

variable {related : α → β → Prop} {inputs : List α} {results : List β}

theorem exists_input (outcome : List.Forall₂ related inputs results) {b : β}
    (listed : b ∈ results) : ∃ a ∈ inputs, related a b := by
  induction outcome with
  | nil => cases listed
  | cons here _ ih =>
    rcases List.mem_cons.1 listed with rfl | later
    · exact ⟨_, List.mem_cons_self, here⟩
    · obtain ⟨a, listedA, there⟩ := ih later
      exact ⟨a, List.mem_cons_of_mem _ listedA, there⟩

theorem map_results {γ : Type} {g : α → γ} {g' : β → γ}
    (outcome : List.Forall₂ (fun a b => g' b = g a) inputs results) :
    results.map g' = inputs.map g := by
  induction outcome with
  | nil => rfl
  | cons here _ ih => rw [List.map_cons, List.map_cons, here, ih]

/-- Inputs that are apart give results that are apart. -/
theorem pairwise_results (outcome : List.Forall₂ related inputs results)
    {apart : α → α → Prop} {apart' : β → β → Prop} (inputsApart : inputs.Pairwise apart)
    (carries : ∀ a a' b b', related a b → related a' b' → apart a a' → apart' b b') :
    results.Pairwise apart' := by
  induction outcome with
  | nil => exact List.Pairwise.nil
  | cons here later ih =>
    obtain ⟨fromFirst, inputsApart'⟩ := List.pairwise_cons.1 inputsApart
    refine List.pairwise_cons.2 ⟨fun b' listed => ?_, ih inputsApart'⟩
    obtain ⟨a', listedA, there⟩ := exists_input later listed
    exact carries _ a' _ b' here there (fromFirst a' listedA)

end Results

/-! ## Two sequences side by side -/

/-- Two attempts come to related results, or fail for related reasons. -/
inductive SameOutcome (related : α → β → Prop) (akin : ε → ε → Prop) :
    Except ε α → Except ε β → Prop
  | ok {a : α} {b : β} (results : related a b) : SameOutcome related akin (.ok a) (.ok b)
  | error {reason other : ε} (reasons : akin reason other) :
    SameOutcome related akin (.error reason) (.error other)

namespace SameOutcome

variable {γ δ : Type} {related : α → β → Prop} {akin : ε → ε → Prop} {related' : γ → δ → Prop}

theorem bind {attempt : Except ε α} {other : Except ε β} {next : α → Except ε γ}
    {next' : β → Except ε δ} (first : SameOutcome related akin attempt other)
    (later : ∀ a b, related a b → SameOutcome related' akin (next a) (next' b)) :
    SameOutcome related' akin (attempt >>= next) (other >>= next') := by
  cases first with
  | ok results => exact later _ _ results
  | error reasons => exact .error reasons

theorem map {attempt : Except ε α} {other : Except ε β} {g : α → γ} {g' : β → δ}
    (same : SameOutcome related akin attempt other)
    (carries : ∀ a b, related a b → related' (g a) (g' b)) :
    SameOutcome related' akin (attempt.map g) (other.map g') := by
  cases same with
  | ok results => exact .ok (carries _ _ results)
  | error reasons => exact .error reasons

/-- What only one of two attempts makes of its result. -/
theorem map_left {attempt : Except ε α} {other : Except ε β} {g : α → γ}
    {related' : γ → β → Prop} (same : SameOutcome related akin attempt other)
    (carries : ∀ a b, related a b → related' (g a) b) :
    SameOutcome related' akin (attempt.map g) other := by
  cases same with
  | ok results => exact .ok (carries _ _ results)
  | error reasons => exact .error reasons

/-- Two attempts in a row that go alike one by one. -/
theorem both {left right : Except ε α} {left' right' : Except ε β} {join : α → α → γ}
    {join' : β → β → δ} (lefts : SameOutcome related akin left left')
    (rights : SameOutcome related akin right right')
    (carries : ∀ a b a' b', related a b → related a' b' → related' (join a a') (join' b b')) :
    SameOutcome related' akin
      (do
        let a ← left
        let a' ← right
        return join a a')
      (do
        let b ← left'
        let b' ← right'
        return join' b b') :=
  lefts.bind fun a b same => rights.bind fun a' b' same' => .ok (carries a b a' b' same same')

/-- Attempts that go alike for each input go alike for all. -/
theorem mapM {attempt : γ → Except ε α} {other : γ → Except ε β} {inputs : List γ}
    (each : ∀ c ∈ inputs, SameOutcome related akin (attempt c) (other c)) :
    SameOutcome (List.Forall₂ related) akin (inputs.mapM attempt) (inputs.mapM other) := by
  induction inputs with
  | nil => exact .ok .nil
  | cons c rest ih =>
    obtain ⟨here, others⟩ := List.forall_mem_cons.1 each
    rw [List.mapM_cons, List.mapM_cons]
    exact here.bind fun a b results => (ih others).bind fun as bs more => .ok (.cons results more)

end SameOutcome

end SafePlan
