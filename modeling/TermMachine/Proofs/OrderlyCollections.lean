import TermMachine.Proofs.NoNesting
import TermMachine.Proofs.PartInvariants
import TermMachine.Proofs.SortedCollections

/-!
# Where the sequences in a set came from

The elements of a set and the keys of a map come from the arguments of a constructor, from rows of terms, from other sets
and maps or from fresh atoms, and none of these is a sequence. There is one exception. `set-insert` takes its element from a
parameter of its own, and puts it in the set as it is; that may be a sequence, though not a spread, which would have been
spliced when it came to stand there.

So a sequence in a set is asked for its origin: a step that was taken on the way to the set enters a `set-insert` that has
it for its element, and whose rule puts it in a set. What is entered is what the engine turns to in the course of that step,
on the machine on which it does (`Enters`). The order of elements and keys is kept along with this.

Proved:
* `composite_throughout`, `mapping_throughout`, `collection_throughout`: what the rules make of orderly parameters.
* `step_orderly`: a step leaves orderly terms, where what it inserts counts as inserted.
* `Passes.orderly`: so the terms of a run are orderly, where what the steps of its past have inserted counts.
* `Visited.orderly`: the order alone is kept in every state that a run may pass through.
-/

namespace TermMachine

open Term Rules

/-! ## Rules that move parts around -/

section
variable {Q : Term → Prop} (hQ : AsksNothingOfPlain Q) {params : List Term} {t : Term}
include hQ

theorem concatenation_throughout {lists items : List Term} (hlists : ∀ u ∈ lists, u.Throughout Q)
    (h : concatenation lists = .ok items) : ∀ u ∈ items, u.Throughout Q := by
  induction lists generalizing items with
  | nil =>
    cases h
    simp
  | cons u rest ih =>
    obtain ⟨args, hargs, h⟩ := bind_eq_ok.mp h
    obtain ⟨more, hmore, h⟩ := bind_eq_ok.mp h
    cases h
    obtain ⟨hu, hrest⟩ := List.forall_mem_cons.mp hlists
    rw [dataArgs_eq_ok.mp hargs, throughout_data hQ] at hu
    intro v hv
    rcases List.mem_append.mp hv with hv | hv
    · exact hu v hv
    · exact ih hrest hmore v hv

variable (hp : ∀ p ∈ params, p.Throughout Q)
include hp

theorem sequenceArg_throughout {index : Nat} {items : List Term} (h : sequenceArg params index = .ok items) :
    ∀ u ∈ items, u.Throughout Q :=
  (throughout_seq hQ).mp (hp _ (List.mem_of_getElem? (sequenceArg_eq_ok.mp h)))

theorem dataArgs_throughout {name : String} {index : Nat} {u : Term} {args : List Term} (hu : arg params index = .ok u)
    (h : dataArgs name u = .ok args) : ∀ v ∈ args, v.Throughout Q := by
  have hparam := hp u (List.mem_of_getElem? (arg_eq_ok.mp hu))
  rwa [dataArgs_eq_ok.mp h, throughout_data hQ] at hparam

theorem collect_throughout {name : String} (h : collect name params = .ok t) : t.Throughout Q := by
  obtain ⟨items, hitems, h⟩ := bind_eq_ok.mp h
  cases h
  exact (throughout_data hQ).mpr (sequenceArg_throughout hQ hp hitems)

theorem takeApart_throughout {name : String} (h : takeApart name params = .ok t) : t.Throughout Q := by
  obtain ⟨u, hu, h⟩ := bind_eq_ok.mp h
  obtain ⟨args, hargs, h⟩ := bind_eq_ok.mp h
  cases h
  exact (throughout_spread hQ).mpr (dataArgs_throughout hQ hp hu hargs)

theorem composite_throughout {op : Operator.Composite} (h : composite op params = .ok t) : t.Throughout Q := by
  cases op with
  | length =>
    obtain ⟨items, -, h⟩ := bind_eq_ok.mp h
    cases h
    exact throughout_of_plain hQ rfl rfl
  | index =>
    obtain ⟨position, -, h⟩ := bind_eq_ok.mp h
    obtain ⟨items, hitems, h⟩ := bind_eq_ok.mp h
    cases h
    split
    · exact throughout_get hQ (sequenceArg_throughout hQ hp hitems) _
    · exact throughout_empty hQ
  | reverse =>
    obtain ⟨items, hitems, h⟩ := bind_eq_ok.mp h
    cases h
    have hrow := sequenceArg_throughout hQ hp hitems
    exact (throughout_spread hQ).mpr fun u hu => hrow u (List.mem_reverse.mp hu)
  | tuple => exact collect_throughout hQ hp h
  | tupleElements => exact takeApart_throughout hQ hp h
  | list => exact collect_throughout hQ hp h
  | listElements => exact takeApart_throughout hQ hp h
  | listAppend =>
    obtain ⟨lists, hlists, h⟩ := bind_eq_ok.mp h
    obtain ⟨items, hitems, h⟩ := bind_eq_ok.mp h
    cases h
    exact (throughout_data hQ).mpr (concatenation_throughout hQ (sequenceArg_throughout hQ hp hlists) hitems)
  | listHead =>
    obtain ⟨u, hu, h⟩ := bind_eq_ok.mp h
    obtain ⟨args, hargs, h⟩ := bind_eq_ok.mp h
    cases h
    exact throughout_get hQ (dataArgs_throughout hQ hp hu hargs) 0
  | listTail =>
    obtain ⟨u, hu, h⟩ := bind_eq_ok.mp h
    obtain ⟨args, hargs, h⟩ := bind_eq_ok.mp h
    have hrow := dataArgs_throughout hQ hp hu hargs
    cases args with
    | nil =>
      cases h
      exact throughout_empty hQ
    | cons first rest =>
      cases h
      exact (throughout_data hQ).mpr fun v hv => hrow v (List.mem_cons_of_mem _ hv)
  | vector => exact collect_throughout hQ hp h
  | vectorElements => exact takeApart_throughout hQ hp h
  | datatypeValue =>
    obtain ⟨u, -, h⟩ := bind_eq_ok.mp h
    obtain ⟨name, -, h⟩ := bind_eq_ok.mp h
    obtain ⟨args, hargs, h⟩ := bind_eq_ok.mp h
    cases h
    exact (throughout_data hQ).mpr (sequenceArg_throughout hQ hp hargs)

omit hp in
theorem elementNotIn_throughout {ty : Ty} {excluded : List Term} (h : elementNotIn ty excluded = .ok t) :
    t.Throughout Q := by
  have hfirst : ∀ candidates : List Term, (∀ u ∈ candidates, u.isPlain = true ∧ u.parts = [u]) →
      (firstOutside excluded candidates).Throughout Q := by
    intro candidates hcandidates
    rcases firstOutside_cases excluded candidates with hempty | hmem
    · rw [hempty]
      exact throughout_empty hQ
    · exact throughout_of_plain hQ (hcandidates _ hmem).1 (hcandidates _ hmem).2
  have hints : ∀ u ∈ integersFromZero (excluded.length + 1), u.isPlain = true ∧ u.parts = [u] := by
    intro u hu
    obtain ⟨n, -, rfl⟩ := List.mem_map.mp hu
    exact ⟨rfl, rfl⟩
  unfold elementNotIn at h
  split at h
  · cases h
    exact hfirst _ (by simp [isPlain, parts])
  · cases h
    exact hfirst _ hints
  · cases h
    exact hfirst _ hints
  · cases h
    refine hfirst _ fun u hu => ?_
    obtain ⟨c, -, rfl⟩ := List.mem_map.mp hu
    exact ⟨rfl, rfl⟩
  · cases h
    refine hfirst _ fun u hu => ?_
    obtain ⟨n, -, rfl⟩ := List.mem_map.mp hu
    exact ⟨rfl, rfl⟩
  · cases h

end

/-! ## Orderly terms -/

/-- The term is no sequence, or one that was inserted as it is. -/
def Term.Member (inserted : Term → Prop) (t : Term) : Prop :=
  t.isSequence = false ∨ (∃ items, t = .seq items) ∧ inserted t

/-- What is asked of a term itself: sets and maps are in order, keys are no sequences and elements only if they were inserted,
and no parameter of `set-insert` is a spread. -/
def Term.Orderly (inserted : Term → Prop) : Term → Prop
  | .set elements => Increasing elements ∧ ∀ e ∈ elements, e.Member inserted
  | .map entries => Increasing (Entries.keys entries) ∧ ∀ e ∈ entries, e.1.isSequence = false
  | .node op params => op = .collection .insert → ∀ p ∈ params, ∀ items, p ≠ .spread items
  | _ => True

variable {inserted : Term → Prop}

theorem asksNothing_orderly : AsksNothingOfPlain (Orderly inserted) := by
  intro t ht
  cases t with
  | set => cases ht
  | map => cases ht
  | node => cases ht
  | _ => trivial

/-! ## Sets -/

section
variable {t : Term} {elements terms : List Term}

theorem throughout_emptySet : (Term.set []).Throughout (Orderly inserted) :=
  throughout_set.mpr ⟨⟨.nil, by simp⟩, by simp⟩

theorem throughout_insert (h : (Term.set elements).Throughout (Orderly inserted)) (ht : t.Throughout (Orderly inserted))
    (hmember : t.Member inserted) : (Term.set (Elements.insert t elements)).Throughout (Orderly inserted) := by
  obtain ⟨⟨hincreasing, hmembers⟩, hall⟩ := throughout_set.mp h
  refine throughout_set.mpr ⟨⟨hincreasing.insert t, fun e he => ?_⟩, fun e he => ?_⟩
  · rcases Elements.mem_insert.mp he with rfl | he
    · exact hmember
    · exact hmembers e he
  · rcases Elements.mem_insert.mp he with rfl | he
    · exact ht
    · exact hall e he

theorem throughout_insertAll (h : (Term.set elements).Throughout (Orderly inserted))
    (hterms : ∀ t ∈ terms, t.Throughout (Orderly inserted) ∧ t.Member inserted) :
    (Term.set (Elements.insertAll terms elements)).Throughout (Orderly inserted) := by
  induction terms generalizing elements with
  | nil => exact h
  | cons t rest ih =>
    obtain ⟨ht, hrest⟩ := List.forall_mem_cons.mp hterms
    exact ih (throughout_insert h ht.1 ht.2) hrest

/-- Some of the elements of a set, in the same order. -/
theorem throughout_sublist (h : (Term.set elements).Throughout (Orderly inserted)) (hsub : terms.Sublist elements) :
    (Term.set terms).Throughout (Orderly inserted) := by
  obtain ⟨⟨hincreasing, hmembers⟩, hall⟩ := throughout_set.mp h
  exact throughout_set.mpr ⟨⟨hincreasing.sublist hsub, fun e he => hmembers e (hsub.subset he)⟩,
    fun e he => hall e (hsub.subset he)⟩

theorem elements_throughout (h : t.Throughout (Orderly inserted)) (ht : Rules.elements t = .ok elements) :
    (Term.set elements).Throughout (Orderly inserted) := by
  rw [Rules.elements, expect_eq_ok, asSet?_eq_some] at ht
  rwa [ht] at h

theorem union_throughout {acc sets items : List Term} (hacc : (Term.set acc).Throughout (Orderly inserted))
    (hsets : ∀ u ∈ sets, u.Throughout (Orderly inserted)) (h : union acc sets = .ok items) :
    (Term.set items).Throughout (Orderly inserted) := by
  induction sets generalizing acc with
  | nil =>
    cases h
    exact hacc
  | cons u rest ih =>
    obtain ⟨more, hmore, h⟩ := bind_eq_ok.mp h
    obtain ⟨hu, hrest⟩ := List.forall_mem_cons.mp hsets
    obtain ⟨hself, hall⟩ := throughout_set.mp (elements_throughout hu hmore)
    exact ih (throughout_insertAll hacc fun e he => ⟨hall e he, hself.2 e he⟩) hrest h

/-- What the rules on sets give. The element of `set-insert` is asked for its origin, a row of terms for being flat. -/
theorem collection_throughout {op : Operator.Collection} {params : List Term} {choices choices' : ChoiceStream}
    (hp : ∀ p ∈ params, p.Throughout (Orderly inserted)) (hflat : ∀ p ∈ params, p.Flat)
    (hinsert : op = .insert → ∀ e elements, params[0]? = some e → params[1]? = some (.set elements) → e.Member inserted)
    (h : collection op params choices = .ok (t, choices')) : t.Throughout (Orderly inserted) := by
  have hQ : AsksNothingOfPlain (Orderly inserted) := asksNothing_orderly
  have harg : ∀ {index u}, arg params index = .ok u → u.Throughout (Orderly inserted) :=
    fun hu => hp _ (List.mem_of_getElem? (arg_eq_ok.mp hu))
  cases op with
  | set =>
    obtain ⟨items, hitems, h⟩ := bind_eq_ok.mp h
    cases h
    have hrow := sequenceArg_throughout hQ hp hitems
    have hno := (hflat _ (List.mem_of_getElem? (sequenceArg_eq_ok.mp hitems))).elements
    exact throughout_insertAll throughout_emptySet fun u hu => ⟨hrow u hu, .inl (hno u hu)⟩
  | empty =>
    cases h
    exact throughout_emptySet
  | isIn =>
    obtain ⟨u, -, h⟩ := bind_eq_ok.mp h
    obtain ⟨v, -, h⟩ := bind_eq_ok.mp h
    obtain ⟨items, -, h⟩ := bind_eq_ok.mp h
    cases h
    exact throughout_of_plain hQ rfl rfl
  | elements =>
    obtain ⟨u, hu, h⟩ := bind_eq_ok.mp h
    obtain ⟨items, hitems, h⟩ := bind_eq_ok.mp h
    cases h
    have hall := (throughout_set.mp (elements_throughout (harg hu) hitems)).2
    exact (throughout_spread hQ).mpr (throughout_flatten hall)
  | unite =>
    obtain ⟨sets, hsets, h⟩ := bind_eq_ok.mp h
    obtain ⟨items, hitems, h⟩ := bind_eq_ok.mp h
    cases h
    exact union_throughout throughout_emptySet (sequenceArg_throughout hQ hp hsets) hitems
  | difference =>
    obtain ⟨u, hu, h⟩ := bind_eq_ok.mp h
    obtain ⟨left, hleft, h⟩ := bind_eq_ok.mp h
    obtain ⟨v, -, h⟩ := bind_eq_ok.mp h
    obtain ⟨right, -, h⟩ := bind_eq_ok.mp h
    cases h
    exact throughout_sublist (elements_throughout (harg hu) hleft) List.filter_sublist
  | size =>
    obtain ⟨u, -, h⟩ := bind_eq_ok.mp h
    obtain ⟨items, -, h⟩ := bind_eq_ok.mp h
    cases h
    exact throughout_of_plain hQ rfl rfl
  | insert =>
    obtain ⟨u, hu, h⟩ := bind_eq_ok.mp h
    obtain ⟨v, hv, h⟩ := bind_eq_ok.mp h
    obtain ⟨items, hitems, h⟩ := bind_eq_ok.mp h
    cases h
    have hset : v = .set items := by rwa [Rules.elements, expect_eq_ok, asSet?_eq_some] at hitems
    have hmember := hinsert rfl u items (arg_eq_ok.mp hu) (hset ▸ arg_eq_ok.mp hv)
    exact throughout_insert (elements_throughout (harg hv) hitems) (harg hu) hmember
  | someElement =>
    obtain ⟨u, hu, h⟩ := bind_eq_ok.mp h
    obtain ⟨items, hitems, h⟩ := bind_eq_ok.mp h
    have hall := (throughout_set.mp (elements_throughout (harg hu) hitems)).2
    rcases hpick : Sequence.pick (flatten items) choices with _ | ⟨v, rest⟩
    · rw [hpick] at h
      cases h
      exact throughout_empty hQ
    · rw [hpick] at h
      cases h
      exact throughout_flatten hall _ (pick_mem hpick)
  | elementNotIn =>
    obtain ⟨u, -, h⟩ := bind_eq_ok.mp h
    obtain ⟨v, -, h⟩ := bind_eq_ok.mp h
    obtain ⟨items, -, h⟩ := bind_eq_ok.mp h
    obtain ⟨ty, -, h⟩ := bind_eq_ok.mp h
    obtain ⟨x, hx, h⟩ := bind_eq_ok.mp h
    cases h
    exact elementNotIn_throughout hQ hx

end

/-! ## Maps -/

section
variable {t : Term} {acc more out : Entries}

theorem throughout_emptyMap : (Term.map []).Throughout (Orderly inserted) :=
  throughout_map.mpr ⟨⟨.nil, by simp⟩, by simp⟩

theorem throughout_put {key : Term} {value : List Term} (h : (Term.map acc).Throughout (Orderly inserted))
    (hkey : key.Throughout (Orderly inserted)) (hno : key.isSequence = false)
    (hvalue : ∀ v ∈ value, v.Throughout (Orderly inserted)) :
    (Term.map (acc.put key value)).Throughout (Orderly inserted) := by
  obtain ⟨⟨hincreasing, hkeys⟩, hentries⟩ := throughout_map.mp h
  refine throughout_map.mpr ⟨⟨increasing_keys_put hincreasing key value, fun e he => ?_⟩, fun e he => ?_⟩
  · rcases Entries.mem_put he with rfl | he
    · exact hno
    · exact hkeys e he
  · rcases Entries.mem_put he with rfl | he
    · exact ⟨hkey, hvalue⟩
    · exact hentries e he

theorem entries_throughout (h : t.Throughout (Orderly inserted)) (ht : entries t = .ok more) :
    (Term.map more).Throughout (Orderly inserted) := by
  rw [entries, expect_eq_ok] at ht
  cases t with
  | map es =>
    cases ht
    exact h
  | _ => cases ht

/-- An entry of a map that is put in another. -/
theorem throughout_put_entry {e : Term × List Term} (hacc : (Term.map acc).Throughout (Orderly inserted))
    (hmore : (Term.map more).Throughout (Orderly inserted)) (he : e ∈ more) :
    (Term.map (acc.put e.1 e.2)).Throughout (Orderly inserted) := by
  obtain ⟨⟨-, hkeys⟩, hentries⟩ := throughout_map.mp hmore
  exact throughout_put hacc (hentries e he).1 (hkeys e he) (hentries e he).2

theorem addTuples_throughout {tuples : List Term} {result : Option Entries}
    (hacc : (Term.map acc).Throughout (Orderly inserted))
    (htuples : ∀ u ∈ tuples, u.Throughout (Orderly inserted) ∧ u.Flat) (h : addTuples acc tuples = .ok result) :
    (mapOrEmpty result).Throughout (Orderly inserted) := by
  induction tuples generalizing acc with
  | nil =>
    cases h
    exact hacc
  | cons u rest ih =>
    obtain ⟨⟨key, value⟩, hkey, h⟩ := bind_eq_ok.mp h
    obtain ⟨⟨hu, hflat⟩, hrest⟩ := List.forall_mem_cons.mp htuples
    rw [Discipline.keyTuple?_eq_some (expect_eq_ok.mp hkey)] at hu hflat
    have hno : key.isSequence = false := hflat _ (mem_parts_self _) key (by simp)
    obtain ⟨hk, hv⟩ := List.forall_mem_cons.mp ((throughout_data asksNothing_orderly).mp hu)
    simp only at h
    rcases hput : acc.putNew? key value with _ | acc'
    · rw [hput] at h
      cases h
      exact throughout_empty asksNothing_orderly
    · rw [hput] at h
      refine ih ?_ hrest h
      rw [Entries.putNew?_eq_some hput]
      exact throughout_put hacc hk hno hv

theorem addEntries?_throughout {rest : Entries} (hacc : (Term.map acc).Throughout (Orderly inserted))
    (hmore : (Term.map more).Throughout (Orderly inserted)) (hrest : rest ⊆ more) (h : addEntries? acc rest = some out) :
    (Term.map out).Throughout (Orderly inserted) := by
  induction rest generalizing acc with
  | nil =>
    cases h
    exact hacc
  | cons e rest ih =>
    simp only [addEntries?, List.foldlM_cons, Option.bind_eq_bind, Option.bind_eq_some_iff] at h
    obtain ⟨acc', hput, h⟩ := h
    rw [Entries.putNew?_eq_some hput] at h
    exact ih (throughout_put_entry hacc hmore (hrest (by simp))) (fun f hf => hrest (List.mem_cons_of_mem _ hf)) h

theorem unite_throughout {maps : List Term} {result : Option Entries} (hacc : (Term.map acc).Throughout (Orderly inserted))
    (hmaps : ∀ u ∈ maps, u.Throughout (Orderly inserted)) (h : unite acc maps = .ok result) :
    (mapOrEmpty result).Throughout (Orderly inserted) := by
  induction maps generalizing acc with
  | nil =>
    cases h
    exact hacc
  | cons u rest ih =>
    obtain ⟨more, hmore, h⟩ := bind_eq_ok.mp h
    obtain ⟨hu, hrest⟩ := List.forall_mem_cons.mp hmaps
    rcases hadd : addEntries? acc more with _ | acc'
    · rw [hadd] at h
      cases h
      exact throughout_empty asksNothing_orderly
    · rw [hadd] at h
      exact ih (addEntries?_throughout hacc (entries_throughout hu hmore) (List.Subset.refl _) hadd) hrest h

theorem keepAll_throughout {rest : Entries} (hacc : (Term.map acc).Throughout (Orderly inserted))
    (hmore : (Term.map more).Throughout (Orderly inserted)) (hrest : rest ⊆ more) :
    (Term.map (rest.foldl (fun acc e => Entries.keepOrPut e.1 e.2 acc) acc)).Throughout (Orderly inserted) := by
  induction rest generalizing acc with
  | nil => exact hacc
  | cons e rest ih =>
    refine ih ?_ fun f hf => hrest (List.mem_cons_of_mem _ hf)
    show (Term.map (Entries.keepOrPut e.1 e.2 acc)).Throughout (Orderly inserted)
    unfold Entries.keepOrPut
    split
    · exact hacc
    · exact throughout_put_entry hacc hmore (hrest (by simp))

theorem override_throughout {maps : List Term} (hacc : (Term.map acc).Throughout (Orderly inserted))
    (hmaps : ∀ u ∈ maps, u.Throughout (Orderly inserted)) (h : override acc maps = .ok out) :
    (Term.map out).Throughout (Orderly inserted) := by
  induction maps generalizing acc with
  | nil =>
    cases h
    exact hacc
  | cons u rest ih =>
    obtain ⟨more, hmore, h⟩ := bind_eq_ok.mp h
    obtain ⟨hu, hrest⟩ := List.forall_mem_cons.mp hmaps
    exact ih (keepAll_throughout hacc (entries_throughout hu hmore) (List.Subset.refl _)) hrest h

theorem mapping_throughout {op : Operator.Mapping} {params : List Term}
    (hp : ∀ p ∈ params, p.Throughout (Orderly inserted)) (hflat : ∀ p ∈ params, p.Flat) (h : mapping op params = .ok t) :
    t.Throughout (Orderly inserted) := by
  have hQ : AsksNothingOfPlain (Orderly inserted) := asksNothing_orderly
  have hmap : ∀ {index u es}, arg params index = .ok u → entries u = .ok es → (Term.map es).Throughout (Orderly inserted) :=
    fun hu hes => entries_throughout (hp _ (List.mem_of_getElem? (arg_eq_ok.mp hu))) hes
  cases op with
  | map =>
    obtain ⟨tuples, htuples, h⟩ := bind_eq_ok.mp h
    obtain ⟨result, hresult, h⟩ := bind_eq_ok.mp h
    cases h
    have hrow := sequenceArg_throughout hQ hp htuples
    have hrowFlat := hflat _ (List.mem_of_getElem? (sequenceArg_eq_ok.mp htuples))
    exact addTuples_throughout throughout_emptyMap (fun u hu => ⟨hrow u hu, hrowFlat.of_mem hu⟩) hresult
  | empty =>
    cases h
    exact throughout_emptyMap
  | lookup =>
    obtain ⟨u, hu, h⟩ := bind_eq_ok.mp h
    obtain ⟨es, hes, h⟩ := bind_eq_ok.mp h
    obtain ⟨key, -, h⟩ := bind_eq_ok.mp h
    cases h
    rcases hget : Entries.get? key es with _ | value
    · exact throughout_empty hQ
    · exact throughout_ofSequence hQ ((throughout_map.mp (hmap hu hes)).2 _ (Entries.mem_of_get? hget)).2
  | override =>
    obtain ⟨maps, hmaps, h⟩ := bind_eq_ok.mp h
    obtain ⟨out, hout, h⟩ := bind_eq_ok.mp h
    cases h
    exact override_throughout throughout_emptyMap (sequenceArg_throughout hQ hp hmaps) hout
  | unite =>
    obtain ⟨maps, hmaps, h⟩ := bind_eq_ok.mp h
    obtain ⟨result, hresult, h⟩ := bind_eq_ok.mp h
    cases h
    exact unite_throughout throughout_emptyMap (sequenceArg_throughout hQ hp hmaps) hresult
  | domain =>
    obtain ⟨u, hu, h⟩ := bind_eq_ok.mp h
    obtain ⟨es, hes, h⟩ := bind_eq_ok.mp h
    cases h
    obtain ⟨⟨hincreasing, hkeys⟩, hentries⟩ := throughout_map.mp (hmap hu hes)
    refine throughout_set.mpr ⟨⟨hincreasing, fun key hkey => ?_⟩, fun key hkey => ?_⟩
    · obtain ⟨e, he, rfl⟩ := List.mem_map.mp hkey
      exact .inl (hkeys e he)
    · obtain ⟨e, he, rfl⟩ := List.mem_map.mp hkey
      exact (hentries e he).1
  | elements =>
    obtain ⟨u, hu, h⟩ := bind_eq_ok.mp h
    obtain ⟨es, hes, h⟩ := bind_eq_ok.mp h
    cases h
    have hentries := (throughout_map.mp (hmap hu hes)).2
    refine (throughout_spread hQ).mpr fun tuple htuple => ?_
    obtain ⟨e, he, rfl⟩ := List.mem_map.mp htuple
    exact (throughout_data hQ).mpr (throughout_flatten (List.forall_mem_cons.mpr (hentries e he)))
  | delete =>
    obtain ⟨u, hu, h⟩ := bind_eq_ok.mp h
    obtain ⟨es, hes, h⟩ := bind_eq_ok.mp h
    obtain ⟨k, -, h⟩ := bind_eq_ok.mp h
    obtain ⟨keys, -, h⟩ := bind_eq_ok.mp h
    cases h
    obtain ⟨⟨hincreasing, hkeys⟩, hentries⟩ := throughout_map.mp (hmap hu hes)
    have hsub : (Entries.without es keys).Sublist es := List.filter_sublist
    exact throughout_map.mpr ⟨⟨hincreasing.sublist (hsub.map _), fun e he => hkeys e (hsub.subset he)⟩,
      fun e he => hentries e (hsub.subset he)⟩

end

/-! ## Entities -/

section
variable {s : Entities} (hs : s.Throughout (Orderly inserted))
include hs

theorem usedAtoms_throughout : (Term.set (usedAtoms s)).Throughout (Orderly inserted) := by
  have hused := hs.get asksNothing_orderly Entity.usedAtoms
  unfold usedAtoms
  cases hu : s.get Entity.usedAtoms with
  | set elements =>
    rw [hu] at hused
    exact hused
  | _ => exact throughout_emptySet

theorem storeMap_throughout : (Term.map (storeMap s)).Throughout (Orderly inserted) := by
  have hstore := hs.get asksNothing_orderly Entity.store
  unfold storeMap
  cases hm : s.get Entity.store with
  | map entries =>
    rw [hm] at hstore
    exact hstore
  | _ => exact throughout_emptyMap

omit hs in
theorem freshAtom_throughout (excluded : List Term) : (freshAtom excluded).Throughout (Orderly inserted) := by
  obtain ⟨⟨n, hn⟩, -⟩ := freshAtom_eq excluded
  rw [hn]
  exact throughout_of_plain asksNothing_orderly rfl rfl

theorem use_throughout (excluded : List Term) :
    (s.put Entity.usedAtoms (.set (Elements.insert (freshAtom excluded) (usedAtoms s)))).Throughout (Orderly inserted) := by
  refine hs.put ?_ _
  exact throughout_insert (usedAtoms_throughout hs) (freshAtom_throughout _) (.inl (freshAtom_not_isSequence _))

theorem effected_throughout {op : Operator.Effect} {params : List Term} {t : Term} {s' : Entities}
    (hp : ∀ p ∈ params, p.Throughout (Orderly inserted)) (hflat : ∀ p ∈ params, p.Flat) (h : Effected params s op t s') :
    t.Throughout (Orderly inserted) ∧ s'.Throughout (Orderly inserted) := by
  have hQ : AsksNothingOfPlain (Orderly inserted) := asksNothing_orderly
  have hnull : Term.null.Throughout (Orderly inserted) := throughout_of_plain hQ rfl rfl
  have hsignal : signal.Throughout (Orderly inserted) := throughout_of_plain hQ rfl rfl
  cases h with
  | yield => exact ⟨hnull, hs.put hsignal _⟩
  | yieldOnValue hvalue => exact ⟨hp _ (List.mem_of_getElem? hvalue), hs.put hsignal _⟩
  | given hfind => exact ⟨hs _ _ hfind, hs⟩
  | print hvalues => exact ⟨hnull, hs.append hQ (hp _ (List.mem_of_getElem? hvalues)) _⟩
  | read hpop => exact hs.popFirst hQ hpop
  | useAtomNotIn _ => exact ⟨freshAtom_throughout _, use_throughout hs _⟩
  | @allocateVariable ty s₁ hty hs₁ =>
    have hused : s₁.Throughout (Orderly inserted) := hs₁ ▸ use_throughout hs _
    have hatom : (freshAtom (usedAtoms s)).Throughout (Orderly inserted) := freshAtom_throughout _
    refine ⟨(throughout_data hQ).mpr (throughout_flatten ?_), hused.put ?_ _⟩
    · simpa using ⟨hatom, hp _ (List.mem_of_getElem? hty)⟩
    · exact throughout_put (storeMap_throughout hused) hatom (freshAtom_not_isSequence _) (by simp)
  | assign hstore =>
    obtain ⟨location, ty, value, old, hvariable, hvalue, -, -, rfl⟩ := Discipline.assignment_eq_ok hstore
    have hlocation := (throughout_data hQ).mp (hp _ (List.mem_of_getElem? hvariable)) location (by simp)
    have hno : location.isSequence = false :=
      hflat _ (List.mem_of_getElem? hvariable) _ (mem_parts_self _) location (by simp)
    have hcontents : ∀ u ∈ flatten [value], u.Throughout (Orderly inserted) :=
      throughout_flatten (by simpa using hp _ (List.mem_of_getElem? hvalue))
    exact ⟨hnull, hs.put (throughout_put (storeMap_throughout hs) hlocation hno hcontents) _⟩
  | assigned hcontents =>
    obtain ⟨location, ty, items, -, hget, -, rfl⟩ := Discipline.contents_eq_ok hcontents
    have hentry := (throughout_map.mp (storeMap_throughout hs)).2 _ (Entries.mem_of_get? hget)
    exact ⟨throughout_ofSequence hQ hentry.2, hs⟩

end

/-! ## In the course of a step -/

/-- In the course of the step the engine comes to a `set-insert` of the term and a set, whose rule gives the set with the term
in it. -/
def InsertedBy (t : Term) (m : Machine) (e : Term) : Prop :=
  ∃ params elements m₁ m₂, Enters t m (.node (.collection .insert) params) m₁ ∧ params[0]? = some e ∧
    params[1]? = some (.set elements) ∧
    step (.node (.collection .insert) params) m₁ = .ok (.set (Elements.insert e elements)) m₂

theorem Enters.flat {t u : Term} {m m' : Machine} (h : Enters t m u m') (ht : t.Flat) (hm : m.entities.Flat) : u.Flat := by
  obtain ⟨outer, hvisited⟩ := h.visited
  exact (flat_of_reached ht hm hvisited.reached).1 u (by simp)

theorem insert_takes_no_run (position : Nat) :
    (Operator.collection .insert).params[position]?.any Param.isSequence = false := by
  match position with
  | 0 => rfl
  | 1 => rfl
  | _ + 2 => rfl

/-- A spread that comes to stand as a parameter of `set-insert` is spliced, and what it holds is no sequence. -/
theorem insert_params_replaced {params : List Term} {index : Nat} {argument value next : Term} {m m' : Machine}
    (hparams : ∀ p ∈ params, ∀ items, p ≠ .spread items)
    (hpending : (index, argument) ∈ Engine.pending (.collection .insert) params) (hflat : value.Flat)
    (h : Engine.replaceParam (.collection .insert) params index value m = .ok next m') :
    next.Orderly inserted := by
  have hset : (∀ items, value ≠ .spread items) →
      (Term.node (.collection .insert) (params.set index value)).Orderly inserted := by
    intro hvalue _ p hp
    rcases List.mem_or_eq_of_mem_set hp with hp | rfl
    · exact hparams p hp
    · exact hvalue
  cases value with
  | spread items =>
    obtain ⟨p, hp, -, -, -⟩ := Engine.mem_pending.mp hpending
    have hsingle : p.isSequence = false := by
      have hnone := insert_takes_no_run index
      rwa [hp] at hnone
    simp only [Engine.replaceParam, hp, Option.any_some, hsingle, Bool.not_false, if_true] at h
    rcases hbind : Construction.bind (.collection .insert)
      (Construction.flattenParams (.collection .insert) params index items) with mismatch | params'
    · rw [hbind] at h
      cases h
    · rw [hbind] at h
      cases h
      intro _ q hq more
      rw [Construction.bind_eq_ok hbind] at hq
      rcases Construction.mem_bindTo hq with hq | ⟨absorbed, -, hq⟩
      · rcases Construction.mem_flattenParams hq with hq | ⟨param, hparam, ⟨⟨position, hrun⟩, -⟩ | rfl⟩
        · intro hspread
          have hno := hflat.elements q hq
          rw [hspread] at hno
          cases hno
        · rw [insert_takes_no_run] at hrun
          cases hrun
        · exact hparams _ hparam more
      · rw [hq]
        simp
  | _ =>
    cases h
    exact hset (by simp)

theorem collection_insert {params elements : List Term} {e : Term} (choices : ChoiceStream) (he : params[0]? = some e)
    (helements : params[1]? = some (.set elements)) :
    collection .insert params choices = .ok (.set (Elements.insert e elements), choices) := by
  simp [collection, arg_eq_ok.mpr he, arg_eq_ok.mpr helements, Rules.elements, asSet?, expect]
  rfl

section
variable {t : Term} {m : Machine} (ht : t.Flat) (hm : m.entities.Flat)
  (hinserted : ∀ e, InsertedBy t m e → inserted e)
include ht hm hinserted

/-- Terms stay orderly in the course of a step of a flat term, where what it inserts counts as inserted. -/
theorem preserved_orderly : Preserved t m (Orderly inserted) where
  plain := asksNothing_orderly
  stepping {op} params hop := by
    intro hinsert
    rw [hinsert] at hop
    cases hop
  replaced {op params index argument value next m₁ m₂} hnode hpending henters h := by
    by_cases hop : op = .collection .insert
    · subst hop
      exact insert_params_replaced (hnode.self rfl) hpending (henters.flat ht hm) h
    · obtain ⟨-, hnext | ⟨items, -, hnext⟩⟩ := Engine.replaceParam_ok h
      · rw [hnext]
        exact fun hinsert => absurd hinsert hop
      · rw [hnext]
        exact fun hinsert => absurd hinsert hop
  fired {op params u m₁ m₂} henters hstep hnode hm₁ hfired := by
    obtain ⟨hself, hp⟩ := throughout_node.mp hnode
    have hQ : AsksNothingOfPlain (Orderly inserted) := asksNothing_orderly
    have hflat : ∀ p ∈ params, p.Flat := by
      intro p hmem v hv
      exact henters.flat ht hm v (parts_trans (mem_parts_of_param hmem) hv)
    cases hfired with
    | effect => exact ⟨throughout_of_plain hQ rfl rfl, hm₁⟩
    | choice hoptions hpick =>
      have hrow := (throughout_seq hQ).mp (hp _ (List.mem_of_getElem? hoptions))
      exact ⟨hrow _ (pick_mem hpick), hm₁⟩
    | ifTrueElse _ ht => exact ⟨hp _ (List.mem_of_getElem? ht), hm₁⟩
    | entities he => exact effected_throughout hm₁ hp hflat he
    | logic hlogic =>
      obtain ⟨b, rfl⟩ := logic_ok hlogic
      exact ⟨throughout_of_plain hQ rfl rfl, hm₁⟩
    | arithmetic harith =>
      refine ⟨?_, hm₁⟩
      rcases arithmetic_ok harith with ⟨n, rfl⟩ | ⟨b, rfl⟩ | rfl
      · exact throughout_of_plain hQ rfl rfl
      · exact throughout_of_plain hQ rfl rfl
      · exact throughout_empty hQ
    | composite hcomposite => exact ⟨composite_throughout hQ hp hcomposite, hm₁⟩
    | mapping hmapping => exact ⟨mapping_throughout hp hflat hmapping, hm₁⟩
    | collection hcollection =>
      refine ⟨collection_throughout hp hflat ?_ hcollection, hm₁⟩
      -- here the rule that is applied is the origin that is asked for
      intro hop e elements he helements
      subst hop
      rw [collection_insert _ he helements] at hcollection
      cases hcollection
      have hspread := hself rfl e (List.mem_of_getElem? he)
      rcases hsequence : e.isSequence with _ | _
      · exact .inl hsequence
      · refine .inr ⟨?_, hinserted e ⟨params, elements, m₁, _, henters, he, helements, hstep⟩⟩
        cases e with
        | seq items => exact ⟨items, rfl⟩
        | spread items => exact absurd rfl (hspread items)
        | _ => cases hsequence

theorem step_orderly (h : t.Throughout (Orderly inserted)) :
    Eval.Safe (Orderly inserted) (Throughout (Orderly inserted)) (step t) m :=
  (preserved_orderly ht hm hinserted).step_safe h

end

/-! ## Along a run -/

/-- One of the steps has put the term in a set. -/
def Inserted (taken : List (Term × Machine)) (e : Term) : Prop := ∃ t m, (t, m) ∈ taken ∧ InsertedBy t m e

theorem Term.Orderly.mono {more : Term → Prop} (hmore : ∀ e, inserted e → more e) {t : Term} (h : t.Orderly inserted) :
    t.Orderly more := by
  cases t with
  | set elements =>
    refine ⟨h.1, fun e he => ?_⟩
    rcases h.2 e he with hno | ⟨hseq, hinserted⟩
    · exact .inl hno
    · exact .inr ⟨hseq, hmore e hinserted⟩
  | map entries => exact h
  | node op params => exact h
  | _ => trivial

/-- A term and the entities with it are flat and orderly, where what these steps have inserted counts. -/
structure OrderlyAfter (taken : List (Term × Machine)) (t : Term) (s : Entities) : Prop where
  flat : t.Flat
  flatEntities : s.Flat
  term : t.Throughout (Orderly (Inserted taken))
  entities : s.Throughout (Orderly (Inserted taken))

namespace OrderlyAfter

variable {taken more : List (Term × Machine)} {t u : Term} {s s' : Entities} {m m' : Machine}

/-- What was inserted stays inserted. -/
theorem later (h : OrderlyAfter taken t s) (hsub : taken ⊆ more) : OrderlyAfter more t s := by
  have hinserted : ∀ e, Inserted taken e → Inserted more e := by
    intro e he
    obtain ⟨t, m, hmem, hby⟩ := he
    exact ⟨t, m, hsub hmem, hby⟩
  refine ⟨h.flat, h.flatEntities, ?_, ?_⟩
  · intro v hv
    exact (h.term v hv).mono hinserted
  · intro name u hu v hv
    exact (h.entities name u hu v hv).mono hinserted

/-- A term that waits while another takes steps stays as it is. -/
theorem beside (h : OrderlyAfter taken t s) (hsub : taken ⊆ more) (hu : OrderlyAfter more u s') : OrderlyAfter more t s' :=
  ⟨h.flat, hu.flatEntities, (h.later hsub).term, hu.entities⟩

theorem part (h : OrderlyAfter taken t s) (hu : u ∈ t.parts) : OrderlyAfter taken u s where
  flat v hv := h.flat v (parts_trans hu hv)
  flatEntities := h.flatEntities
  term := h.term.part hu
  entities := h.entities

/-- A step leaves orderly entities, and comes to an orderly term if it comes to one. -/
theorem leaves (h : OrderlyAfter taken t m.entities) : Eval.Leaves (Orderly (Inserted ((t, m) :: taken)))
    (Throughout (Orderly (Inserted ((t, m) :: taken)))) (step t m) := by
  have hlater := h.later (List.subset_cons_self (t, m) taken)
  exact step_orderly h.flat h.flatEntities (fun e he => ⟨t, m, by simp, he⟩) hlater.term hlater.entities

theorem step (h : OrderlyAfter taken t m.entities) (hstep : step t m = .ok u m') :
    OrderlyAfter ((t, m) :: taken) u m'.entities := by
  obtain ⟨hflat, hentities⟩ := flat_of_step h.flat h.flatEntities hstep
  have hleaves := h.leaves
  rw [hstep] at hleaves
  exact ⟨hflat, hentities, hleaves.1, hleaves.2⟩

theorem halt {halt : Halt} (h : OrderlyAfter taken t m.entities) (hstep : TermMachine.step t m = .error halt m') :
    OrderlyAfter ((t, m) :: taken) t m'.entities := by
  obtain ⟨-, hentities⟩ := flat_of_reached h.flat h.flatEntities (.halt .start hstep)
  have hleaves := h.leaves
  rw [hstep] at hleaves
  exact ⟨h.flat, hentities, (h.later (List.subset_cons_self _ _)).term, hleaves⟩

theorem turnsTo (h : OrderlyAfter taken t m.entities) (hturns : TurnsTo t m more u m') :
    OrderlyAfter (more ++ taken) u m'.entities := by
  apply hturns.carries (fun _ _ _ _ _ hv _ hstep => hv.step hstep) taken (fun v hv => h.part hv)
  rintro params value body rfl - hvalue hbody
  have hv := h.part (mem_parts_of_param (List.mem_of_getElem? hvalue))
  have hb := h.part (mem_parts_of_param (List.mem_of_getElem? hbody))
  exact ⟨hb.flat, hb.flatEntities.put hv.flat _, hb.term, hb.entities.put hv.term _⟩

end OrderlyAfter

section
variable {t₀ : Term} {m₀ m : Machine} {taken : List (Term × Machine)} {terms : List Term}
  (h₀ : OrderlyAfter [] t₀ m₀.entities)
include h₀

theorem Stands.orderly (h : Stands t₀ m₀ taken terms m) : ∀ t ∈ terms, OrderlyAfter taken t m.entities := by
  induction h with
  | start => simpa using h₀
  | step _ hstep ih => simpa using (ih _ (by simp)).step hstep
  | halt _ hstep ih => simpa using (ih _ (by simp)).halt hstep
  | @inside taken more t u outer m m' _ hturns ih =>
    have hu := (ih t (by simp)).turnsTo hturns
    refine List.forall_mem_cons.mpr ⟨hu, fun v hv => ?_⟩
    exact (ih v hv).beside (List.subset_append_right more taken) hu

theorem Passes.orderly (h : Passes t₀ m₀ taken terms m) : ∀ t ∈ terms, OrderlyAfter taken t m.entities := by
  cases h with
  | before hstands => exact hstands.orderly h₀
  | @after taken t t' outer m m' hstands hstep =>
    have hterms := hstands.orderly h₀
    have ht' := (hterms t (by simp)).step hstep
    refine List.forall_mem_cons.mpr ⟨ht', fun v hv => ?_⟩
    exact (hterms v (List.mem_cons_of_mem _ hv)).beside (List.subset_cons_self (t, m) taken) ht'
  | @halt taken t outer m m' halt hstands hstep =>
    have hterms := hstands.orderly h₀
    have ht := (hterms t (by simp)).halt hstep
    intro v hv
    exact (hterms v hv).beside (List.subset_cons_self (t, m) taken) ht

end

/-! ## Wherever a run may be -/

/-- The order of elements and keys, and what keys and elements may not be, needs no past. -/
theorem Visited.orderly {t₀ : Term} {s₀ s : Entities} {terms : List Term} (h : Visited t₀ s₀ terms s) (hflat₀ : t₀.Flat)
    (hflats₀ : s₀.Flat) (ht₀ : t₀.Throughout (Orderly fun _ => True)) (hs₀ : s₀.Throughout (Orderly fun _ => True)) :
    (∀ t ∈ terms, t.Throughout (Orderly fun _ => True)) ∧ s.Throughout (Orderly fun _ => True) := by
  have hleaves : ∀ {t outer} {m : Machine}, Visited t₀ s₀ (t :: outer) m.entities → t.Throughout (Orderly fun _ => True) →
      m.entities.Throughout (Orderly fun _ => True) →
      Eval.Leaves (Orderly fun _ => True) (Throughout (Orderly fun _ => True)) (TermMachine.step t m) := by
    intro t outer m hvisited ht hm
    obtain ⟨hflat, hflats⟩ := flat_of_reached hflat₀ hflats₀ hvisited.reached
    exact step_orderly (hflat t (by simp)) hflats (fun _ _ => trivial) ht hm
  induction h with
  | start => exact ⟨by simpa using ht₀, hs₀⟩
  | @step t t' outer m m' hvisited hstep ih =>
    obtain ⟨hterms, hm⟩ := ih
    obtain ⟨ht, houter⟩ := List.forall_mem_cons.mp hterms
    have hafter := hleaves hvisited ht hm
    rw [hstep] at hafter
    exact ⟨List.forall_mem_cons.mpr ⟨hafter.1, houter⟩, hafter.2⟩
  | @halt t outer m m' halt hvisited hstep ih =>
    obtain ⟨hterms, hm⟩ := ih
    have hafter := hleaves hvisited (hterms t (by simp)) hm
    rw [hstep] at hafter
    exact ⟨hterms, hafter⟩
  | @part t u outer s _ hu ih =>
    obtain ⟨hterms, hs⟩ := ih
    exact ⟨List.forall_mem_cons.mpr ⟨(hterms t (by simp)).part hu, hterms⟩, hs⟩
  | @given params outer value body s _ hvalue _ hbody ih =>
    obtain ⟨hterms, hs⟩ := ih
    have hparams := (throughout_node.mp (hterms (.node (.effect .give) params) (by simp))).2
    exact ⟨List.forall_mem_cons.mpr ⟨hparams body (List.mem_of_getElem? hbody), hterms⟩,
      hs.put (hparams value (List.mem_of_getElem? hvalue)) _⟩
  | cleared _ ih => exact ⟨ih.1, ih.2.remove _⟩

end TermMachine
