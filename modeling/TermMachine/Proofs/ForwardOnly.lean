import TermMachine.Proofs.Discipline
import TermMachine.Proofs.StoreLaws

/-!
# Streams and allocations move forward

What is printed is added to the end of `standard-out`, what is read is taken from the front of `standard-in`, and an atom
in use or a location in the store is never given back. An attempt that gets stuck is taken back, and with it what it
printed, read and gave out; but the store it is taken back to is the one from before the attempt, so against the
beginning of the whole computation nothing moves backward.

Proved:
* `allows_movesForward`: the engine changes entities in no other way.
* `streams_and_allocations_move_forward`: the streams, the atoms in use and the locations after every step and run.
-/

namespace TermMachine

open Term Eval Rules

/-! ## What writing leaves -/

theorem Term.Entries.keys_subset_put (key : Term) (value : List Term) (entries : Entries) :
    entries.keys ⊆ (entries.put key value).keys :=
  fun _ hkey => Entries.mem_keys_put.mpr (.inr hkey)

theorem Term.Elements.subset_insert (t : Term) (elements : List Term) : elements ⊆ Elements.insert t elements :=
  fun _ hu => Elements.mem_insert.mpr (.inr hu)

/-- An assignment loses no location. -/
theorem Rules.assignment_keys {params : List Term} {store store' : Entries} (h : assignment params store = .ok store') :
    store.keys ⊆ store'.keys := by
  unfold assignment at h
  obtain ⟨u, -, h⟩ := Rules.bind_eq_ok.mp h
  obtain ⟨⟨location, ty⟩, -, h⟩ := Rules.bind_eq_ok.mp h
  obtain ⟨value, -, h⟩ := Rules.bind_eq_ok.mp h
  split at h
  · cases h
  · split at h <;> cases h
    exact Entries.keys_subset_put _ _ _

namespace Entities

variable {s s' s'' : Entities} {name : String}

theorem get_put (s : Entities) (name : String) (value : Term) (other : String) :
    (s.put name value).get other = if other = name then value else s.get other := by
  unfold get
  rw [find?_put]
  split <;> rfl

/-! ## Forward -/

/-- From the one store to the other, streams were only printed to and read from, and atoms and locations only given
out. -/
structure MovesForward (s s' : Entities) : Prop where
  output : s.stream Entity.standardOut <+: s'.stream Entity.standardOut
  input : s'.stream Entity.standardIn <:+ s.stream Entity.standardIn
  atoms : usedAtoms s ⊆ usedAtoms s'
  locations : (storeMap s).keys ⊆ (storeMap s').keys

namespace MovesForward

theorem refl (s : Entities) : MovesForward s s :=
  ⟨List.prefix_refl _, List.suffix_refl _, List.Subset.refl _, List.Subset.refl _⟩

theorem trans (h : MovesForward s s') (h' : MovesForward s' s'') : MovesForward s s'' :=
  ⟨h.output.trans h'.output, h'.input.trans h.input, List.Subset.trans h.atoms h'.atoms,
    List.Subset.trans h.locations h'.locations⟩

/-- To write to an entity, what it holds must move forward, if it is one of those that matter. -/
theorem put {value : Term} (hout : name ≠ Entity.standardOut ∨ s.stream Entity.standardOut <+: value.elements)
    (hin : name ≠ Entity.standardIn ∨ value.elements <:+ s.stream Entity.standardIn)
    (hused : name ≠ Entity.usedAtoms ∨ usedAtoms s ⊆ value.asSet?.getD [])
    (hstore : name ≠ Entity.store ∨ (storeMap s).keys ⊆ Entries.keys (value.asMap?.getD [])) :
    MovesForward s (s.put name value) := by
  constructor
  · rw [stream, stream, get_put]
    split
    · next heq => exact hout.resolve_left (· heq.symm)
    · exact List.prefix_refl _
  · rw [stream, stream, get_put]
    split
    · next heq => exact hin.resolve_left (· heq.symm)
    · exact List.suffix_refl _
  · rw [usedAtoms, usedAtoms, get_put]
    split
    · next heq => exact hused.resolve_left (· heq.symm)
    · exact List.Subset.refl _
  · rw [storeMap, storeMap, get_put]
    split
    · next heq => exact hstore.resolve_left (· heq.symm)
    · exact List.Subset.refl _

/-- What is bound by `give` and raised by `yield` is neither a stream nor a record of what was given out. -/
theorem assign (hname : name = Entity.givenValue ∨ name = Entity.yielded) (s : Entities) (o : Option Term) :
    MovesForward s (s.assign name o) := by
  have hget : ∀ other, other ≠ Entity.givenValue → other ≠ Entity.yielded →
      (s.assign name o).get other = s.get other := by
    intro other hgiven hyielded
    have hne : other ≠ name := by grind
    rw [get, get, find?_assign_of_ne hne]
  constructor
  · simp only [stream, hget Entity.standardOut (by decide) (by decide)]
    exact List.prefix_refl _
  · simp only [stream, hget Entity.standardIn (by decide) (by decide)]
    exact List.suffix_refl _
  · rw [usedAtoms, usedAtoms, hget _ (by decide) (by decide)]
    exact List.Subset.refl _
  · rw [storeMap, storeMap, hget _ (by decide) (by decide)]
    exact List.Subset.refl _

theorem print (s : Entities) (values : List Term) : MovesForward s (s.append Entity.standardOut (.seq values)) :=
  put (.inr (List.prefix_append _ _)) (.inl (by decide)) (.inl (by decide)) (.inl (by decide))

theorem read {value : Term} (h : s.popFirst Entity.standardIn = some (value, s')) : MovesForward s s' := by
  unfold popFirst at h
  split at h
  · cases h
  · rename_i first rest hstream
    cases h
    have hrest : rest <:+ s.stream Entity.standardIn := hstream ▸ List.suffix_cons _ _
    exact put (.inl (by decide)) (.inr hrest) (.inl (by decide)) (.inl (by decide))

theorem use (s : Entities) (atom : Term) :
    MovesForward s (s.put Entity.usedAtoms (.set (Elements.insert atom (usedAtoms s)))) :=
  put (.inl (by decide)) (.inl (by decide)) (.inr (Elements.subset_insert _ _)) (.inl (by decide))

theorem store {entries : Entries} (h : (storeMap s).keys ⊆ entries.keys) :
    MovesForward s (s.put Entity.store (.map entries)) :=
  put (.inl (by decide)) (.inl (by decide)) (.inl (by decide)) (.inr h)

theorem effected {params : List Term} {op : Operator.Effect} {t : Term} (h : Effected params s op t s') :
    MovesForward s s' := by
  cases h with
  | yield => exact assign (.inr rfl) s (some signal)
  | yieldOnValue => exact assign (.inr rfl) s (some signal)
  | given => exact refl s
  | print => exact print s _
  | read hpop => exact read hpop
  | useAtomNotIn => exact use s _
  | allocateVariable _ hs' =>
    subst hs'
    exact (use s _).trans (store (Entries.keys_subset_put _ _ _))
  | assign hstore => exact store (assignment_keys hstore)
  | assigned => exact refl s

end MovesForward

end Entities

/-! ## The engine -/

/-- A failed attempt is taken back to the store from before it, so what happened in between does not count. -/
theorem allows_movesForward : Allows fun m m' => m.entities.MovesForward m'.entities where
  refl m := .refl m.entities
  trans h h' := h.trans h'
  charge m := .refl m.entities
  choices m _ := .refl m.entities
  restore {m _} _ := .refl m.entities
  effect h := .effected h
  bound {m m'} value h := by
    have hbind := Entities.MovesForward.assign (.inl rfl) m.entities (some value)
    have hunbind := Entities.MovesForward.assign (.inl rfl) m'.entities (m.entities.find? Entity.givenValue)
    exact (hbind.trans h).trans hunbind
  cleared m := .assign (.inr rfl) m.entities none

/-- Whatever a step or a run of a term comes to, a result, a term that is stuck or the step limit: what had been printed
is the beginning of what is printed then, what is left to read is the end of what there was to read, and every atom in
use and every location of the store is still there. -/
theorem streams_and_allocations_move_forward (t : Term) (m : Machine) :
    m.entities.MovesForward (machineAfter (step t m)).entities ∧
    m.entities.MovesForward (machineAfter (run t m)).entities :=
  ⟨keeps_step allows_movesForward t m, keeps_run allows_movesForward t m⟩

end TermMachine
