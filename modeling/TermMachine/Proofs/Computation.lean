import TermMachine.Machine
import TermMachine.Rules.Effect

/-!
# Laws of computations

How a result of a composed computation comes about: `bind_eq_ok` and `bind_eq_error` peel a
sequence of computations apart, and there is such a law for every primitive of the engine that
looks at a result (`speculate`, `withGiven`, `ofRule`).

`Refines x y` says that `y` does what `x` does wherever `x` has fuel enough. A family of
computations in which more fuel refines less is one whose `settle` is its limit: `settle x` ends with
a result exactly if some amount of fuel gives that result.

Proved:
* `settle_eq_iff`: the results of `settle` are those with some amount of fuel.
-/

namespace TermMachine

namespace Eval

variable {α β : Type}

/-! ## Results -/

/-- Whether a computation ended for another reason than a lack of fuel. -/
def Finished : EStateM.Result Halt Machine α → Prop
  | .error .outOfFuel _ => False
  | _ => True

@[simp] theorem finished_ok (a : α) (m : Machine) :
    Finished (.ok a m : EStateM.Result Halt Machine α) := trivial

@[simp] theorem finished_error {halt : Halt} {m : Machine} :
    Finished (.error halt m : EStateM.Result Halt Machine α) ↔ halt ≠ .outOfFuel := by
  cases halt <;> simp [Finished]

def isStuck : EStateM.Result Halt Machine α → Bool
  | .error (.stuck _) _ => true
  | _ => false

theorem exists_of_isStuck {r : EStateM.Result Halt Machine α} (h : isStuck r = true) :
    ∃ cause m, r = .error (.stuck cause) m := by
  unfold isStuck at h
  split at h
  · exact ⟨_, _, rfl⟩
  · cases h

def isOk : EStateM.Result Halt Machine α → Bool
  | .ok _ _ => true
  | .error _ _ => false

theorem exists_of_isOk {r : EStateM.Result Halt Machine α} (h : isOk r = true) : ∃ a m, r = .ok a m := by
  cases r with
  | ok a m => exact ⟨a, m, rfl⟩
  | error halt m => cases h

theorem bind_eq_ok {x : Eval α} {f : α → Eval β} {m m' : Machine} {b : β} :
    (x >>= f) m = .ok b m' ↔ ∃ a m₁, x m = .ok a m₁ ∧ f a m₁ = .ok b m' := by
  show EStateM.bind x f m = _ ↔ _
  unfold EStateM.bind
  constructor
  · intro h
    split at h
    · exact ⟨_, _, ‹_›, h⟩
    · cases h
  · rintro ⟨a, m₁, hx, hf⟩
    simp only [hx, hf]

theorem bind_eq_error {x : Eval α} {f : α → Eval β} {m m' : Machine} {e : Halt} :
    (x >>= f) m = .error e m' ↔
      x m = .error e m' ∨ ∃ a m₁, x m = .ok a m₁ ∧ f a m₁ = .error e m' := by
  show EStateM.bind x f m = _ ↔ _
  unfold EStateM.bind
  constructor
  · intro h
    split at h
    · exact Or.inr ⟨_, _, ‹_›, h⟩
    · cases h; exact Or.inl ‹_›
  · rintro (hx | ⟨a, m₁, hx, hf⟩)
    · simp only [hx]
    · simp only [hx, hf]

@[simp] theorem pure_apply (a : α) (m : Machine) : (pure a : Eval α) m = .ok a m := rfl

@[simp] theorem stuck_apply (cause : Stuck) (m : Machine) :
    (stuck cause : Eval α) m = .error (.stuck cause) m := rfl

@[simp] theorem throw_apply (halt : Halt) (m : Machine) :
    (throw halt : Eval α) m = .error halt m := rfl

@[simp] theorem get_apply (m : Machine) : (get : Eval Machine) m = .ok m m := rfl

@[simp] theorem entities_apply (m : Machine) : entities m = .ok m.entities m := rfl

@[simp] theorem modifyEntities_apply (f : Entities → Entities) (m : Machine) :
    modifyEntities f m = .ok () { m with entities := f m.entities } := rfl

theorem bind_of_ok {x : Eval α} {f : α → Eval β} {m m₁ : Machine} {a : α} (h : x m = .ok a m₁) :
    (x >>= f) m = f a m₁ := by
  show EStateM.bind x f m = _
  simp only [EStateM.bind, h]

theorem bind_of_error {x : Eval α} {f : α → Eval β} {m m₁ : Machine} {e : Halt}
    (h : x m = .error e m₁) : (x >>= f) m = .error e m₁ := by
  show EStateM.bind x f m = _
  simp only [EStateM.bind, h]

/-- Computations that come to the same go on alike. -/
theorem bind_of_eq {x y : Eval α} {m m₁ : Machine} (h : x m = y m₁) (f : α → Eval β) : (x >>= f) m = (y >>= f) m₁ := by
  show EStateM.bind x f m = EStateM.bind y f m₁
  simp only [EStateM.bind, h]

theorem ofRule_eq_ok {op : Operator} {r : Except Reason α} {m m' : Machine} {a : α} :
    ofRule op r m = .ok a m' ↔ r = .ok a ∧ m' = m := by
  cases r with
  | ok b => simp [ofRule, eq_comm]
  | error reason => simp [ofRule]

theorem speculate_eq_ok {x : Eval α} {m m' : Machine} {r : Except Stuck α} :
    speculate x m = .ok r m' ↔
      (∃ a, r = .ok a ∧ x m = .ok a m') ∨
      ∃ cause m₁, r = .error cause ∧ x m = .error (.stuck cause) m₁ ∧ m' = { m₁ with entities := m.entities } := by
  unfold speculate
  constructor
  · intro h
    split at h
    · cases h; exact Or.inl ⟨_, rfl, ‹_›⟩
    · cases h; exact Or.inr ⟨_, _, rfl, ‹_›, rfl⟩
    · cases h
  · rintro (⟨a, rfl, hx⟩ | ⟨cause, m₁, rfl, hx, rfl⟩)
    · simp only [hx]
    · simp only [hx]

/-- What is speculated on never reports that it is stuck. -/
theorem speculate_eq_error {x : Eval α} {m m' : Machine} {e : Halt} :
    speculate x m = .error e m' ↔ x m = .error e m' ∧ ∀ cause, e ≠ .stuck cause := by
  unfold speculate
  constructor
  · intro h
    split at h
    · cases h
    · cases h
    · rename_i hne hx
      cases h
      exact ⟨hx, hne⟩
  · rintro ⟨hx, hne⟩
    cases e with
    | stuck cause => exact absurd rfl (hne cause)
    | stepLimit limit => simp only [hx]
    | outOfFuel => simp only [hx]

theorem recover_eq_ok {x : Eval α} {m m' : Machine} {r : Except Stuck α} :
    recover x m = .ok r m' ↔
      (∃ a, r = .ok a ∧ x m = .ok a m') ∨ ∃ cause, r = .error cause ∧ x m = .error (.stuck cause) m' := by
  unfold recover
  constructor
  · intro h
    split at h
    · cases h; exact Or.inl ⟨_, rfl, ‹_›⟩
    · cases h; exact Or.inr ⟨_, rfl, ‹_›⟩
    · cases h
  · rintro (⟨a, rfl, hx⟩ | ⟨cause, rfl, hx⟩)
    · simp only [hx]
    · simp only [hx]

theorem charge_eq_ok {m m' : Machine} {u : Unit} (h : charge m = .ok u m') :
    m' = { m with steps := m.steps + 1 } := by
  unfold charge at h
  simp only at h
  split at h
  · split at h <;> cases h
    rfl
  · cases h; rfl

theorem charge_eq_error {m m' : Machine} {e : Halt} (h : charge m = .error e m') :
    ∃ limit, e = .stepLimit limit ∧ m.config.stepLimit = some limit := by
  unfold charge at h
  simp only at h
  split at h
  · split at h <;> cases h
    exact ⟨_, rfl, ‹_›⟩
  · cases h

theorem charge_unlimited {m : Machine} (h : m.config.stepLimit = none) :
    charge m = .ok () { m with steps := m.steps + 1 } := by
  simp [charge, h]

/-! ## More fuel -/

/-- `y` does what `x` does wherever `x` has fuel enough. -/
def Refines (x y : Eval α) : Prop := ∀ m, Finished (x m) → y m = x m

theorem Refines.refl (x : Eval α) : Refines x x := fun _ _ => rfl

theorem Refines.bind {x y : Eval α} {f g : α → Eval β} (hx : Refines x y)
    (hf : ∀ a, Refines (f a) (g a)) : Refines (x >>= f) (y >>= g) := by
  intro m h
  rcases hr : x m with ⟨a, m₁⟩ | ⟨halt, m₁⟩
  · have hy : y m = .ok a m₁ := by rw [hx m (by rw [hr]; trivial), hr]
    rw [bind_of_ok hr] at h ⊢
    rw [bind_of_ok hy]
    exact hf a m₁ h
  · rw [bind_of_error hr] at h ⊢
    have hy : y m = .error halt m₁ := by rw [hx m (by rw [hr]; simpa using h), hr]
    exact bind_of_error hy

theorem Refines.speculate {x y : Eval α} (h : Refines x y) : Refines (speculate x) (speculate y) := by
  intro m hx
  have hfin : Finished (x m) := by
    rcases hr : x m with ⟨a, m₁⟩ | ⟨halt, m₁⟩
    · trivial
    · cases halt with
      | outOfFuel => simp [Eval.speculate, hr] at hx
      | _ => trivial
  simp only [Eval.speculate, h m hfin]

theorem Refines.recover {x y : Eval α} (h : Refines x y) : Refines (recover x) (recover y) := by
  intro m hx
  have hfin : Finished (x m) := by
    rcases hr : x m with ⟨a, m₁⟩ | ⟨halt, m₁⟩
    · trivial
    · cases halt with
      | outOfFuel => simp [Eval.recover, hr] at hx
      | _ => trivial
  simp only [Eval.recover, h m hfin]

/-! ## Fuel that is enough -/

/-- More fuel never changes a result. -/
def Steady (x : Nat → Eval α) : Prop := ∀ n n', n ≤ n' → Refines (x n) (x n')

theorem attempt_eq_some {x : Nat → Eval α} {m : Machine} {fuel : Nat}
    {r : EStateM.Result Halt Machine α} (h : attempt x m fuel = some r) :
    Finished r ∧ ∃ n, x n m = r := by
  refine attempt.partial_correctness x m (fun _ r => Finished r ∧ ∃ n, x n m = r) ?_ fuel r h
  intro attempt ih fuel r h
  split at h
  · exact ih _ r h
  · rename_i hne
    cases h
    refine ⟨?_, fuel, rfl⟩
    rcases hr : x fuel m with ⟨a, m₁⟩ | ⟨halt, m₁⟩
    · trivial
    · cases halt with
      | outOfFuel => exact absurd hr (hne m₁)
      | _ => trivial

theorem attempt_of_finished {x : Nat → Eval α} {m : Machine} {fuel : Nat} (h : Finished (x fuel m)) :
    attempt x m fuel = some (x fuel m) := by
  rw [attempt]
  split
  · rename_i hr
    rw [hr] at h
    exact h.elim
  · rfl

theorem attempt_of_not_finished {x : Nat → Eval α} {m : Machine} {fuel : Nat}
    (h : ¬ Finished (x fuel m)) : attempt x m fuel = attempt x m (2 * fuel) := by
  rw [attempt]
  rcases hr : x fuel m with ⟨a, m₁⟩ | ⟨halt, m₁⟩
  · rw [hr] at h; exact absurd trivial h
  · cases halt with
    | outOfFuel => rfl
    | _ => rw [hr] at h; exact absurd trivial h

/-- Doubling reaches every amount of fuel, so it reaches one that is enough. -/
theorem attempt_eq_of_finished {x : Nat → Eval α} (hx : Steady x) {m : Machine} {n : Nat}
    (hn : Finished (x n m)) : ∀ gap fuel, 0 < fuel → n ≤ fuel + gap → attempt x m fuel = some (x n m) := by
  intro gap
  induction gap using Nat.strongRecOn with
  | ind gap ih =>
    intro fuel hpos hle
    by_cases hfin : Finished (x fuel m)
    · rw [attempt_of_finished hfin]
      rcases Nat.le_total n fuel with hnf | hfn
      · rw [hx n fuel hnf m hn]
      · rw [hx fuel n hfn m hfin]
    · have hlt : fuel < n := by
        by_cases hlt : fuel < n
        · exact hlt
        · exact absurd (by rw [hx n fuel (by omega) m hn]; exact hn) hfin
      rw [attempt_of_not_finished hfin]
      exact ih (gap - fuel) (by omega) (2 * fuel) (by omega) (by omega)

end Eval

theorem Machine.fuel_pos (m : Machine) : 0 < m.fuel := by
  unfold Machine.fuel
  split
  · omega
  · decide

namespace Eval

variable {α : Type}

/-- The result with enough fuel is the result. -/
theorem settle_eq_of_finished {x : Nat → Eval α} (hx : Steady x) {m : Machine} {n : Nat}
    (hn : Finished (x n m)) : settle x m = x n m := by
  simp [settle, attempt_eq_of_finished hx hn n m.fuel m.fuel_pos (by omega)]

/-- A computation that ends does so with some amount of fuel. -/
theorem exists_fuel_of_settle {x : Nat → Eval α} {m : Machine} (h : Finished (settle x m)) :
    ∃ n, x n m = settle x m := by
  unfold settle at h ⊢
  rcases hr : attempt x m m.fuel with _ | r
  · simp [hr] at h
  · simpa using (attempt_eq_some hr).2

theorem settle_eq_iff {x : Nat → Eval α} (hx : Steady x) {m : Machine} {r : EStateM.Result Halt Machine α}
    (hr : Finished r) : settle x m = r ↔ ∃ fuel, x fuel m = r := by
  constructor
  · intro h
    obtain ⟨fuel, hfuel⟩ := exists_fuel_of_settle (h.symm ▸ hr)
    exact ⟨fuel, hfuel.trans h⟩
  · intro h
    obtain ⟨fuel, rfl⟩ := h
    exact settle_eq_of_finished hx hr

/-- A computation for which no fuel is enough goes on forever. -/
theorem settle_of_never {x : Nat → Eval α} {m : Machine} (h : ∀ fuel, ¬ Finished (x fuel m)) :
    settle x m = .error .outOfFuel m := by
  unfold settle
  rcases hr : attempt x m m.fuel with _ | r
  · rfl
  · obtain ⟨hfinished, fuel, rfl⟩ := attempt_eq_some hr
    exact absurd hfinished (h fuel)

end Eval

namespace Rules

variable {α : Type}

theorem withGiven_eq_ok {value : Term} {x : Eval α} {m m' : Machine} {a : α} :
    withGiven value x m = .ok a m' ↔
      ∃ m₁, x { m with entities := m.entities.put Entity.givenValue value } = .ok a m₁ ∧
        m' = { m₁ with entities :=
          m₁.entities.assign Entity.givenValue (m.entities.find? Entity.givenValue) } := by
  unfold withGiven
  constructor
  · intro h
    simp only at h
    split at h <;> cases h
    exact ⟨_, ‹_›, rfl⟩
  · rintro ⟨m₁, hx, rfl⟩
    simp only [hx]

theorem withGiven_eq_error {value : Term} {x : Eval α} {m m' : Machine} {e : Halt} :
    withGiven value x m = .error e m' ↔
      ∃ m₁, x { m with entities := m.entities.put Entity.givenValue value } = .error e m₁ ∧
        m' = { m₁ with entities :=
          m₁.entities.assign Entity.givenValue (m.entities.find? Entity.givenValue) } := by
  unfold withGiven
  constructor
  · intro h
    simp only at h
    split at h <;> cases h
    exact ⟨_, ‹_›, rfl⟩
  · rintro ⟨m₁, hx, rfl⟩
    simp only [hx]

theorem withGiven_refines {value : Term} {x y : Eval α} (h : Eval.Refines x y) :
    Eval.Refines (withGiven value x) (withGiven value y) := by
  intro m hx
  have hfin : Eval.Finished (x { m with entities := m.entities.put Entity.givenValue value }) := by
    unfold withGiven at hx
    simp only at hx
    split at hx
    · rename_i hr; rw [hr]; trivial
    · rename_i hr; rw [hr]; simpa using hx
  simp only [withGiven, h _ hfin]

end Rules

end TermMachine
