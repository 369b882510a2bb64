import TermMachine.Proofs.GuardedTypes
import TermMachine.Proofs.WellShaped

/-!
# Variables hold values of their types

A variable carries its location and its type; the store knows only the location. So nothing but the way in which locations
are given out keeps two variables of different types from sharing one. A location is an atom that was not in use, every
location is in use from then on, and what is undone with the store is undone with the atoms in use. A location that is
given out again after that belongs to nobody: the variable that had it was undone too.

The world of the discipline is a typing of locations. It says of every location that was given out for which type that
was, and grows when another is. What a failed attempt gave out is taken back, and the typing with it.

Two things would spoil this. A program that makes values of constructors that it names could make a variable of any
location. And a complement takes in sequences, of which the store would keep the elements. The programs considered
here are plain: they do neither.

Proved:
* `typed`: to respect a typing of locations is a discipline, so the engine keeps to it.
* `step_assigned`, `step_allocateVariable`: what reading a variable and giving out a location come to.
* `plain_programs_respect_types`: in every state between steps of a plain program, all variables have a location in the
  store, of one type each, with at most one value of that type in it. What is assigned has the type of the variable, no
  location is ever missed, and no location in use is given out.
-/

namespace TermMachine

open Term Eval Rules

/-! ## Typings -/

/-- The types for which locations were given out. -/
structure Typing where
  of : Term → Option Ty

namespace Typing

instance : Preorder Typing where
  le w w' := ∀ location ty, w.of location = some ty → w'.of location = some ty
  le_refl _ _ _ h := h
  le_trans _ _ _ h h' location ty hty := h' location ty (h location ty hty)

def none : Typing := ⟨fun _ => Option.none⟩

def extend (w : Typing) (location : Term) (ty : Ty) : Typing :=
  ⟨fun other => if other = location then some ty else w.of other⟩

theorem le_extend {w : Typing} {location : Term} (h : w.of location = Option.none) (ty : Ty) :
    w ≤ w.extend location ty := by
  intro other ty' hty
  have hne : other ≠ location := by
    rintro rfl
    rw [h] at hty
    cases hty
  simpa [extend, hne] using hty

end Typing

/-- What a location may hold: nothing yet, or one value of the type. -/
def Slot (ty : Ty) (items : List Term) : Prop :=
  items = [] ∨ ∃ v, items = [v] ∧ v.isValue = true ∧ ty.belongs v = true

/-- The store respects a typing, and every location in it is in use. -/
structure Ledger (w : Typing) (store : Entries) (used : List Term) : Prop where
  slot : ∀ {location ty}, w.of location = some ty → ∃ items, store.get? location = some items ∧ Slot ty items
  used : ∀ {location}, location ∈ store.keys → location ∈ used

namespace Ledger

variable {w : Typing} {store : Entries} {used : List Term} {ty : Ty}

theorem empty (used : List Term) : Ledger .none [] used where
  slot h := nomatch h
  used h := nomatch h

/-- An atom that is not in use is the location of nothing. -/
theorem freshAtom_get? (h : Ledger w store used) : store.get? (freshAtom used) = none := by
  rcases hget : store.get? (freshAtom used) with _ | items
  · rfl
  · exact absurd (h.used (Entries.mem_keys_of_get? hget)) (freshAtom_eq used).2

theorem freshAtom_untyped (h : Ledger w store used) : w.of (freshAtom used) = none := by
  rcases hof : w.of (freshAtom used) with _ | ty
  · rfl
  · obtain ⟨items, hget, -⟩ := h.slot hof
    rw [h.freshAtom_get?] at hget
    cases hget

theorem allocate (h : Ledger w store used) (ty : Ty) :
    Ledger (w.extend (freshAtom used) ty) (store.put (freshAtom used) []) (Elements.insert (freshAtom used) used) where
  slot {location ty'} hof := by
    rw [Entries.get?_put]
    simp only [Typing.extend] at hof
    split at hof
    · rename_i hlocation
      exact ⟨[], by rw [if_pos hlocation], .inl rfl⟩
    · rename_i hlocation
      rw [if_neg hlocation]
      exact h.slot hof
  used {location} hkey := by
    rcases Entries.mem_keys_put.mp hkey with rfl | hkey
    · exact Elements.mem_insert.mpr (.inl rfl)
    · exact Elements.mem_insert.mpr (.inr (h.used hkey))

/-- A value of a guarded type is no sequence, so the store keeps it as it is. -/
theorem assign (h : Ledger w store used) {location value : Term} {old : List Term} (hof : w.of location = some ty)
    (hguarded : ty.guarded = true) (hbelongs : ty.belongs value = true) (hget : store.get? location = some old) :
    Ledger w (store.put location (flatten [value])) used where
  slot {other ty'} hother := by
    obtain ⟨hvalue, hsequence⟩ := Ty.belongs_values.mp (Ty.values_of_belongs hguarded hbelongs)
    rw [Entries.get?_put]
    by_cases hlocation : other = location
    · rw [hlocation, hof] at hother
      cases hother
      rw [if_pos hlocation, flatten_of_no_sequence (by simpa using hsequence)]
      exact ⟨[value], rfl, .inr ⟨value, rfl, hvalue, hbelongs⟩⟩
    · rw [if_neg hlocation]
      exact h.slot hother
  used {other} hkey := by
    rcases Entries.mem_keys_put.mp hkey with rfl | hkey
    · exact h.used (Entries.mem_keys_of_get? hget)
    · exact h.used hkey

end Ledger

/-! ## The discipline -/

/-- To respect a typing of locations, as a discipline: every variable has a location of its type. -/
def typed : Discipline Typing where
  element _ := True
  node op params := op.Shaped params ∧ op ≠ .composite .datatypeValue
  data w name args := name = variableName → ∃ location ty, args = [location, .type ty] ∧ w.of location = some ty
  type ty := ty.guarded = true
  ledger := Ledger
  excuse reason := reason.missesLocation = false
  element_of_not_isSequence _ := trivial
  node_update h hupdate := ⟨hupdate h.1, h.2⟩
  data_mono hw h hname := by
    obtain ⟨location, ty, hargs, hof⟩ := h hname
    exact ⟨location, ty, hargs, hw location ty hof⟩
  data_other _ _ hother hname := absurd hname hother
  data_named _ _ _ hnode := absurd rfl hnode.2
  ledger_use h hused := ⟨h.slot, fun hkey => hused _ (h.used hkey)⟩
  ledger_allocate {w store used ty} h _ := by
    refine ⟨w.extend (freshAtom used) ty, Typing.le_extend h.freshAtom_untyped ty, fun _ => ?_, h.allocate ty⟩
    exact ⟨freshAtom used, ty, rfl, by simp [Typing.extend]⟩
  ledger_assign h hdata hguarded hbelongs hget := by
    obtain ⟨_, _, hargs, hof⟩ := hdata rfl
    cases hargs
    exact h.assign hof hguarded hbelongs hget
  excuse_ordinary h := by
    rw [Reason.isOrdinary, Bool.and_eq_true] at h
    simpa using h.2
  excuse_malformed _ hnode hmalformed := absurd hnode.1 hmalformed
  excuse_unallocated h hdata hget := by
    obtain ⟨_, _, hargs, hof⟩ := hdata rfl
    cases hargs
    obtain ⟨items, hsome, -⟩ := h.slot hof
    rw [hget] at hsome
    cases hsome

/-- A term does not make values of constructors that it names, and no type in it mentions a complement. -/
def Term.Plain (t : Term) : Prop :=
  (∀ params, .node (.composite .datatypeValue) params ∉ t.parts) ∧
    ∀ ty, .type ty ∈ t.parts → ty.mentionsComplement = false

/-- Reading makes no variable, and types that are guarded unless they mention a complement. -/
theorem readable_unallocated : Readable fun t =>
    (∀ args, t ≠ .data variableName args) ∧ ∀ ty, t = .type ty → ty.mentionsComplement = false → ty.guarded = true where
  value v := by cases v <;> simp [ValueName.term, signal, variableName, signalName]
  int _ _ := by simp
  char _ := by simp
  string _ := by simp [Term.string, variableName, listName]
  atom _ := by simp
  type htypes hbuild := by
    refine ⟨by simp, ?_⟩
    rintro _ ⟨rfl⟩ hty
    exact Ty.guarded_of_build (fun u hu => (htypes u hu).2 u rfl) hbuild hty
  seq _ := by simp
  node _ := by simp

/-- A plain term that was read mentions no location, so it respects every typing. -/
theorem typed_of_readTerm {source : String} {t : Term} (h : readTerm source = .ok t) (hplain : t.Plain) (w : Typing) :
    typed.Admits w t := by
  intro u hu
  have hread := of_readTerm readable_unallocated.constructible h u hu
  cases u with
  | data name args =>
    refine ⟨fun _ _ => trivial, ?_⟩
    rintro rfl
    exact absurd rfl (hread.1 args)
  | type ty => exact hread.2 ty rfl (hplain.2 ty hu)
  | node op params =>
    refine ⟨wellShaped_of_readTerm h op params hu, ?_⟩
    rintro rfl
    exact hplain.1 params hu
  | map entries => exact fun _ _ _ _ => trivial
  | seq items => exact fun _ _ => trivial
  | spread items => exact fun _ _ => trivial
  | _ => trivial

theorem typed_of_start {config : Config} {m : Machine} (h : Machine.start config = .ok m) :
    typed.Stored .none m.entities := by
  unfold Machine.start at h
  split at h
  · cases h
  · cases h
    exact ⟨fun hfind => (nomatch hfind), Ledger.empty _⟩

/-! ## Single steps -/

/-- A node whose parameters are values steps by its rule. -/
theorem fired_of_step {op : Operator} {params : List Term} {t : Term} {m m' : Machine}
    (hop : Engine.stepsArgument op = false) (hready : Engine.ready op params = true)
    (h : step (.node op params) m = .ok t m') :
    Engine.Fired params { m with steps := m.steps + 1 } op t m' := by
  obtain ⟨fuel, hfuel⟩ := step_eq_ok.mp h
  have hpending := Engine.pending_eq_nil.mpr hready
  cases fuel with
  | zero => cases hfuel
  | succ fuel =>
    rw [Engine.stepFor, Engine.stepWith] at hfuel
    rcases Engine.stepNode_ok hfuel with ⟨_, _, _, _, _, hmem, -⟩ | ⟨-, hrule⟩
    · rw [hpending] at hmem
      cases hmem
    · rcases Engine.applyRule_cases hop hrule with ⟨_, herror⟩ | ⟨_, _, hfired, hout⟩
      · cases herror
      · cases hout
        exact hfired

section
variable {w : Typing} {m m' : Machine} (hs : typed.Stored w m.entities)
include hs

theorem step_assigned {location v : Term} {ty : Ty}
    (ht : typed.Admits w (.node (.effect .assigned) [.data variableName [location, .type ty]]))
    (h : step (.node (.effect .assigned) [.data variableName [location, .type ty]]) m = .ok v m') :
    ty.belongs v = true := by
  have hvariable : typed.Admits w (.data variableName [location, .type ty]) :=
    (Discipline.admits_node.mp ht).2 _ (by simp)
  obtain ⟨_, _, hargs, hof⟩ := hvariable.variable.1 rfl
  cases hargs
  obtain ⟨items, hget, hslot⟩ := hs.ledger.slot hof
  cases fired_of_step rfl rfl h with
  | entities he =>
    cases he with
    | assigned hcontents =>
      obtain ⟨_, _, items', hparam, hget', hne, rfl⟩ := Discipline.contents_eq_ok hcontents
      cases hparam
      rw [hget] at hget'
      cases hget'
      rcases hslot with rfl | ⟨v, rfl, -, hbelongs⟩
      · exact absurd rfl hne
      · exact hbelongs

theorem step_allocateVariable {ty : Ty} {v : Term}
    (h : step (.node (.effect .allocateVariable) [.type ty]) m = .ok v m') :
    ∃ location, v = .data variableName [location, .type ty] ∧ location ∉ usedAtoms m.entities ∧
      (storeMap m.entities).get? location = none ∧ (storeMap m'.entities).get? location = some [] ∧
      ∀ other, other ≠ location → (storeMap m'.entities).get? other = (storeMap m.entities).get? other := by
  cases fired_of_step rfl rfl h with
  | entities he =>
    cases he with
    | allocateVariable hty hs' =>
      cases hty
      have hstore : storeMap _ = storeMap m.entities :=
        (congrArg storeMap hs').trans (Discipline.storeMap_put (by decide))
      refine ⟨freshAtom (usedAtoms m.entities), ?_, (freshAtom_eq _).2, hs.ledger.freshAtom_get?, ?_, ?_⟩
      · rw [Discipline.flatten_variable]
      · rw [Discipline.storeMap_put_store, Entries.get?_put, if_pos rfl]
      · intro other hother
        rw [Discipline.storeMap_put_store, Entries.get?_put, if_neg hother, hstore]

end

/-! ## Plain programs -/

/-- A term occurs in a state: in one of the terms that are being run, or in what an entity holds. -/
def Occurs (v : Term) (terms : List Term) (s : Entities) : Prop :=
  (∃ t ∈ terms, v ∈ t.parts) ∨ ∃ name t, s.find? name = some t ∧ v ∈ t.parts

theorem Occurs.fits {World : Type} [Preorder World] {D : Discipline World} {w : World} {v : Term} {terms : List Term}
    {s : Entities} (hterms : D.AdmitsAll w terms) (hs : D.Stored w s) (h : Occurs v terms s) : D.Fits w v := by
  rcases h with ⟨t, ht, h⟩ | ⟨name, t, hfind, h⟩
  · exact hterms t ht v h
  · exact hs.admits hfind v h

/-- Every variable in a state has a location in the store, which is empty or holds one value of the type of the variable;
variables with one location have one type; and every location is in use. -/
structure RespectsTypes (terms : List Term) (s : Entities) : Prop where
  slot : ∀ {args}, Occurs (.data variableName args) terms s → ∃ location ty items, args = [location, .type ty] ∧
    (storeMap s).get? location = some items ∧ Slot ty items
  one_type : ∀ {location ty ty'}, Occurs (.data variableName [location, .type ty]) terms s →
    Occurs (.data variableName [location, .type ty']) terms s → ty = ty'
  used : ∀ {location}, location ∈ (storeMap s).keys → location ∈ usedAtoms s

theorem respectsTypes_of_typed {w : Typing} {terms : List Term} {s : Entities} (hterms : typed.AdmitsAll w terms)
    (hs : typed.Stored w s) : RespectsTypes terms s where
  slot {args} h := by
    obtain ⟨location, ty, hargs, hof⟩ := (h.fits hterms hs).2 rfl
    obtain ⟨items, hget, hslot⟩ := hs.ledger.slot hof
    exact ⟨location, ty, items, hargs, hget, hslot⟩
  one_type h h' := by
    obtain ⟨_, _, hargs, hof⟩ := (h.fits hterms hs).2 rfl
    obtain ⟨_, _, hargs', hof'⟩ := (h'.fits hterms hs).2 rfl
    cases hargs
    cases hargs'
    rw [hof] at hof'
    exact Option.some.inj hof'
  used h := hs.ledger.used h

/-- Before the first step nothing was given out. -/
theorem typed_of_supply {config : Config} {inputs : List Term} {m₀ m : Machine}
    (hinputs : ∀ input ∈ inputs, input.Plain ∧ ∃ text, readTerm text = .ok input)
    (hstart : Machine.start config = .ok m₀) (hsupply : Execution.supply inputs m₀ = .ok () m) :
    ∃ w, typed.Stored w m.entities := by
  have hall : typed.AdmitsAll .none inputs := by
    intro input hinput
    obtain ⟨hplain, text, hread⟩ := hinputs input hinput
    exact typed_of_readTerm hread hplain .none
  have hupheld := Discipline.supply_upholds hall m₀ (typed_of_start hstart)
  rw [hsupply] at hupheld
  obtain ⟨w, -, hs, -⟩ := hupheld
  exact ⟨w, hs⟩

/-- A plain program that was read, with plain inputs that were read, on a machine that has done nothing yet: in every state
between steps its variables hold values of their types, what it assigned comes back with the type of the variable, it is
never stuck for a location that was not allocated, and a new location was in use by nobody. -/
theorem plain_programs_respect_types {source : String} {t : Term} {inputs : List Term} {config : Config}
    {m₀ m : Machine} {u : Term} {outer : List Term} {s : Entities} (hread : readTerm source = .ok t) (hplain : t.Plain)
    (hinputs : ∀ input ∈ inputs, input.Plain ∧ ∃ text, readTerm text = .ok input)
    (hstart : Machine.start config = .ok m₀) (hsupply : Execution.supply inputs m₀ = .ok () m)
    (hreached : Reached t m.entities (u :: outer) s) :
    RespectsTypes (u :: outer) s ∧
    (∀ (m₁ m₂ : Machine) location ty v, m₁.entities = s →
      u = .node (.effect .assigned) [.data variableName [location, .type ty]] →
      step u m₁ = .ok v m₂ → ty.belongs v = true) ∧
    (∀ (m₁ m₂ : Machine) cause location, m₁.entities = s → step u m₁ = .error (.stuck cause) m₂ →
      cause.root? ≠ some (.notAllocated location)) ∧
    (∀ (m₁ m₂ : Machine) ty v, m₁.entities = s → u = .node (.effect .allocateVariable) [.type ty] →
      step u m₁ = .ok v m₂ →
      ∃ location, v = .data variableName [location, .type ty] ∧ location ∉ usedAtoms s ∧
        (storeMap s).get? location = none ∧ (storeMap m₂.entities).get? location = some [] ∧
        ∀ other, other ≠ location → (storeMap m₂.entities).get? other = (storeMap s).get? other) := by
  obtain ⟨w₀, hs₀⟩ := typed_of_supply hinputs hstart hsupply
  obtain ⟨w, -, hterms, hs⟩ := hreached.upheld (typed_of_readTerm hread hplain w₀) hs₀
  have hu : typed.Admits w u := hterms u (by simp)
  refine ⟨respectsTypes_of_typed hterms hs, ?_, ?_, ?_⟩
  · rintro m₁ m₂ location ty v rfl rfl hstep
    exact step_assigned hs hu hstep
  · rintro m₁ m₂ cause location rfl hstep hroot
    have hupheld := Discipline.step_upholds w u hu m₁ hs
    rw [hstep] at hupheld
    cases hupheld.2 cause rfl _ hroot
  · rintro m₁ m₂ ty v rfl rfl hstep
    exact step_allocateVariable hs hstep

/-- `assigned(give(allocate-variable(integers),sequential(assign(given,5),given)))`: after a step that runs all of the
argument, the new location holds 5, and that is what comes back. -/
theorem plain_programs_respect_types_assigned :
    let t : Term := .node (.effect .assigned) [.node (.effect .give) [.node (.effect .allocateVariable) [.type .integers],
      .node (.flow .sequential) [.seq [.node (.effect .assign) [.node (.effect .given) [], .int 5]],
        .node (.effect .given) []]]]
    let u : Term := .node (.effect .assigned) [.data variableName [.atom "@0", .type .integers]]
    let s : Entities := ⟨[(Entity.usedAtoms, .set [.atom "@0"]), (Entity.store, .map [(.atom "@0", [.int 5])])]⟩
    let m : Machine := ⟨{ stallDetection := false }, .empty, .ofSeed 0x5EED, 0⟩
    let m₁ : Machine := ⟨{ stallDetection := false }, s, .ofSeed 0x5EED, 15⟩
    Reached t m.entities [u] s ∧ RespectsTypes [u] s ∧
      ∃ v m₂, step u m₁ = .ok v m₂ ∧ Ty.integers.belongs v = true := by
  intro t u s m m₁
  have hread : readTerm "assigned(give(allocate-variable(integers),sequential(assign(given,5),given)))" = .ok t := by
    decide +kernel +zetaReduce
  have hplain : t.Plain := by
    constructor
    · intro params hmem
      simp [t, parts, partsOfAll] at hmem
    · intro ty hmem
      have hty : ty = .integers := by simpa [t, parts, partsOfAll] using hmem
      rw [hty]
      rfl
  have hinputs : ∀ input ∈ ([] : List Term), input.Plain ∧ ∃ text, readTerm text = .ok input := by simp
  have hstart : Machine.start { stallDetection := false } = .ok m := rfl
  have hsupply : Execution.supply [] m = .ok () m := rfl
  have hstep : Engine.stepFor 20 t m = .ok u m₁ := by
    decide +kernel +zetaReduce
  have hreached : Reached t m.entities [u] s := .step .start (step_eq_ok.mpr ⟨20, hstep⟩)
  have hnext : step u m₁ = .ok (.int 5) { m₁ with steps := 16 } := step_eq_ok.mpr ⟨4, rfl⟩
  obtain ⟨hrespects, hassigned, -, -⟩ := plain_programs_respect_types hread hplain hinputs hstart hsupply hreached
  exact ⟨hreached, hrespects, _, _, hnext, hassigned m₁ _ _ _ _ rfl rfl hnext⟩

end TermMachine
