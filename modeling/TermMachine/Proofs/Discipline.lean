import Mathlib.Order.CompleteBooleanAlgebra
import Mathlib.Order.CompletePartialOrder
import TermMachine.Proofs.Closed
import TermMachine.Proofs.FreshAtoms
import TermMachine.Proofs.NodeShape
import TermMachine.Proofs.Parts

/-!
# Disciplines

A discipline asks something of every part of a term: of the elements of sequences, of the parameters of nodes, of the
arguments of a named constructor, of types. What it asks of a constructed value may depend on a world, which says
what is known of the locations that were given out, and grows as more of them are; the ledger ties a world to the store and
to the atoms in use. `Admits w t` says that a term is as the discipline asks in the world `w`, and `Stored w s` that all
that the entities hold is.

The laws of a discipline say what it must allow so that the rules keep to it. They are about the few places where a
rule makes something new: a node with other parameters, a value of a named constructor, a location, an assignment.
Everything else that a rule does is to move parts of terms around.

A discipline also says for which reasons a rule may refuse: whatever it asks of nodes and of the store must rule out
the others.

Proved:
* `admits_seq`, `admits_data` and their like: what is asked of a term is asked of it and of what it holds.
* `Row.flatten`, `admits_ofSequence`: joining terms keeps a discipline.
* `composite_admits`, `mapping_admits`, `collection_admits`: so do the rules that touch nothing but their parameters.
* `Stored.fired`: so do all rules that step no argument, in a world that may have grown.
* `Stored.excused`: these refuse only for an excused reason.
-/

namespace TermMachine

open Term Rules

/-- What is asked of the parts of terms, of the store and of refusals. -/
structure Discipline (World : Type) [Preorder World] where
  /-- What may be an element of a sequence, an argument of a constructor or in the value of a map. -/
  element : Term → Prop
  node : Operator → List Term → Prop
  data : World → String → List Term → Prop
  type : Ty → Prop
  /-- What is asked of the contents of all locations and of the atoms in use. -/
  ledger : World → Entries → List Term → Prop
  /-- The reasons for which a rule may refuse. -/
  excuse : Reason → Prop
  element_of_not_isSequence : ∀ {t}, t.isSequence = false → element t
  node_update : ∀ {op params params'}, node op params → (op.Shaped params → op.Shaped params') → node op params'
  data_mono : ∀ {w w' name args}, w ≤ w' → data w name args → data w' name args
  data_other : ∀ {name} w args, name ≠ variableName → data w name args
  data_named : ∀ {params} w name args, node (.composite .datatypeValue) params → data w name args
  ledger_use : ∀ {w store used used'}, ledger w store used → (∀ a ∈ used, a ∈ used') → ledger w store used'
  ledger_allocate : ∀ {w store used ty}, ledger w store used → type ty →
    ∃ w', w ≤ w' ∧ data w' variableName [freshAtom used, .type ty] ∧
      ledger w' (store.put (freshAtom used) []) (Elements.insert (freshAtom used) used)
  ledger_assign : ∀ {w store used location ty value old}, ledger w store used →
    data w variableName [location, .type ty] → type ty → ty.belongs value = true →
    store.get? location = some old → ledger w (store.put location (flatten [value])) used
  excuse_ordinary : ∀ {reason}, reason.isOrdinary = true → excuse reason
  excuse_malformed : ∀ {op params} reason, node op params → ¬ op.Shaped params → excuse reason
  excuse_unallocated : ∀ {w store used location ty}, ledger w store used →
    data w variableName [location, .type ty] → store.get? location = none → excuse (.notAllocated location)

namespace Discipline

/-- Where nothing is asked of variables and of the store, one world is enough to give out locations. -/
theorem same_world (w : Unit) : ∃ w', w ≤ w' ∧ True ∧ True := ⟨w, le_rfl, trivial, trivial⟩

variable {World : Type} [Preorder World] (D : Discipline World)

/-- What is asked of a term itself, and not of the terms in it. -/
def Fits (w : World) : Term → Prop
  | .data name args => (∀ t ∈ args, D.element t) ∧ D.data w name args
  | .map entries => ∀ e ∈ entries, ∀ t ∈ e.2, D.element t
  | .seq items | .spread items => ∀ t ∈ items, D.element t
  | .type ty => D.type ty
  | .node op params => D.node op params
  | _ => True

def Admits (w : World) (t : Term) : Prop := ∀ u ∈ t.parts, D.Fits w u

/-- Terms that stand for themselves, such as the parameters of a node or the elements of a set. -/
def AdmitsAll (w : World) (terms : List Term) : Prop := ∀ t ∈ terms, D.Admits w t

/-- Terms in a row, such as the elements of a sequence. -/
def Row (w : World) (items : List Term) : Prop := ∀ t ∈ items, D.element t ∧ D.Admits w t

def AdmitsEntries (w : World) (entries : Entries) : Prop := ∀ e ∈ entries, D.Admits w e.1 ∧ D.Row w e.2

variable {D} {w w' : World} {t : Term}

/-! ## Terms -/

theorem Fits.mono (hw : w ≤ w') (h : D.Fits w t) : D.Fits w' t := by
  cases t with
  | data name args => exact ⟨h.1, D.data_mono hw h.2⟩
  | _ => exact h

theorem Admits.mono (hw : w ≤ w') (h : D.Admits w t) : D.Admits w' t := fun u hu => (h u hu).mono hw

theorem AdmitsAll.mono {terms : List Term} (hw : w ≤ w') (h : D.AdmitsAll w terms) : D.AdmitsAll w' terms :=
  fun t ht => (h t ht).mono hw

theorem Row.mono {items : List Term} (hw : w ≤ w') (h : D.Row w items) : D.Row w' items :=
  fun t ht => ⟨(h t ht).1, (h t ht).2.mono hw⟩

/-- A part of a term is held to the same discipline. -/
theorem Admits.part {u : Term} (h : D.Admits w t) (hu : u ∈ t.parts) : D.Admits w u :=
  fun v hv => h v (parts_trans hu hv)

/-- What is asked of a term with an immediate row in it. -/
theorem admits_of_row {wrap : List Term → Term} {items : List Term} {asked : Prop}
    (hparts : ∀ u, u ∈ (wrap items).parts ↔ u = wrap items ∨ ∃ t ∈ items, u ∈ t.parts)
    (hfits : D.Fits w (wrap items) ↔ (∀ t ∈ items, D.element t) ∧ asked) :
    D.Admits w (wrap items) ↔ D.Row w items ∧ asked := by
  constructor
  · intro h
    obtain ⟨helement, hasked⟩ := hfits.mp (h _ (mem_parts_self _))
    refine ⟨fun t ht => ⟨helement t ht, fun u hu => h u ?_⟩, hasked⟩
    exact (hparts u).mpr (.inr ⟨t, ht, hu⟩)
  · rintro ⟨hrow, hasked⟩ u hu
    rcases (hparts u).mp hu with rfl | ⟨t, ht, hu⟩
    · exact hfits.mpr ⟨fun t ht => (hrow t ht).1, hasked⟩
    · exact (hrow t ht).2 u hu

theorem admits_seq {items : List Term} : D.Admits w (.seq items) ↔ D.Row w items := by
  have hfits : D.Fits w (.seq items) ↔ (∀ t ∈ items, D.element t) ∧ True := by simp [Fits]
  simpa using admits_of_row (fun _ => mem_parts_seq) hfits

theorem admits_spread {items : List Term} : D.Admits w (.spread items) ↔ D.Row w items := by
  have hfits : D.Fits w (.spread items) ↔ (∀ t ∈ items, D.element t) ∧ True := by simp [Fits]
  simpa using admits_of_row (fun _ => mem_parts_spread) hfits

theorem admits_data {name : String} {args : List Term} :
    D.Admits w (.data name args) ↔ D.Row w args ∧ D.data w name args :=
  admits_of_row (fun _ => mem_parts_data) (by simp [Fits])

theorem admits_node {op : Operator} {params : List Term} :
    D.Admits w (.node op params) ↔ D.node op params ∧ D.AdmitsAll w params := by
  constructor
  · intro h
    exact ⟨h _ (mem_parts_self _), fun t ht u hu => h u (mem_parts_node.mpr (.inr ⟨t, ht, hu⟩))⟩
  · rintro ⟨hnode, hparams⟩ u hu
    rcases mem_parts_node.mp hu with rfl | ⟨t, ht, hu⟩
    · exact hnode
    · exact hparams t ht u hu

theorem admits_set {elements : List Term} : D.Admits w (.set elements) ↔ D.AdmitsAll w elements := by
  constructor
  · intro h t ht u hu
    exact h u (mem_parts_set.mpr (.inr ⟨t, ht, hu⟩))
  · intro h u hu
    rcases mem_parts_set.mp hu with rfl | ⟨t, ht, hu⟩
    · trivial
    · exact h t ht u hu

theorem admits_map {entries : Entries} : D.Admits w (.map entries) ↔ D.AdmitsEntries w entries := by
  constructor
  · intro h e he
    have helement : ∀ e ∈ entries, ∀ t ∈ e.2, D.element t := h _ (mem_parts_self _)
    refine ⟨fun u hu => h u ?_, fun t ht => ⟨helement e he t ht, fun u hu => h u ?_⟩⟩
    · exact mem_parts_map.mpr (.inr ⟨e, he, .inl hu⟩)
    · exact mem_parts_map.mpr (.inr ⟨e, he, .inr ⟨t, ht, hu⟩⟩)
  · intro h u hu
    rcases mem_parts_map.mp hu with rfl | ⟨e, he, hu | ⟨t, ht, hu⟩⟩
    · exact fun e he t ht => ((h e he).2 t ht).1
    · exact (h e he).1 u hu
    · exact ((h e he).2 t ht).2 u hu

/-- What is asked of a term with no other in it. -/
theorem admits_of_leaf (hparts : t.parts = [t]) : D.Admits w t ↔ D.Fits w t := by
  simp only [Admits, hparts, List.mem_singleton, forall_eq]

theorem admits_type {ty : Ty} : D.Admits w (.type ty) ↔ D.type ty := admits_of_leaf rfl

@[simp] theorem admits_null : D.Admits w .null := (admits_of_leaf rfl).mpr trivial

@[simp] theorem admits_bool (b : Bool) : D.Admits w (.bool b) := (admits_of_leaf rfl).mpr trivial

@[simp] theorem admits_int (n : Int) : D.Admits w (.int n) := (admits_of_leaf rfl).mpr trivial

@[simp] theorem admits_char (c : Char) : D.Admits w (.char c) := (admits_of_leaf rfl).mpr trivial

@[simp] theorem admits_atom (name : String) : D.Admits w (.atom name) := (admits_of_leaf rfl).mpr trivial

/-! ## Rows -/

@[simp] theorem row_nil : D.Row w [] := fun _ ht => nomatch ht

@[simp] theorem admitsAll_nil : D.AdmitsAll w [] := fun _ ht => nomatch ht

@[simp] theorem admits_empty : D.Admits w Term.empty := admits_seq.mpr row_nil

theorem AdmitsAll.cons {terms : List Term} (ht : D.Admits w t) (h : D.AdmitsAll w terms) :
    D.AdmitsAll w (t :: terms) := by
  intro u hu
  rcases List.mem_cons.mp hu with rfl | hu
  · exact ht
  · exact h u hu

theorem AdmitsAll.tail {u : Term} {rest : List Term} (h : D.AdmitsAll w (u :: rest)) : D.AdmitsAll w rest :=
  fun v hv => h v (List.mem_cons_of_mem _ hv)

theorem Row.admitsAll {items : List Term} (h : D.Row w items) : D.AdmitsAll w items := fun t ht => (h t ht).2

theorem Row.subset {items more : List Term} (h : D.Row w more) (hs : items ⊆ more) : D.Row w items :=
  fun t ht => h t (hs ht)

theorem Row.append {items more : List Term} (h : D.Row w items) (h' : D.Row w more) : D.Row w (items ++ more) := by
  intro t ht
  rcases List.mem_append.mp ht with ht | ht
  · exact h t ht
  · exact h' t ht

/-- What a term contributes to a sequence. -/
theorem Admits.elements (h : D.Admits w t) : D.Row w t.elements := by
  rcases hs : t.isSequence with _ | _
  · rw [elements_of_not_isSequence hs]
    intro u hu
    rw [List.mem_singleton.mp hu]
    exact ⟨D.element_of_not_isSequence hs, h⟩
  · cases t with
    | seq items => exact admits_seq.mp h
    | spread items => exact admits_spread.mp h
    | _ => cases hs

theorem AdmitsAll.flatten {terms : List Term} (h : D.AdmitsAll w terms) : D.Row w (flatten terms) := by
  intro u hu
  obtain ⟨t, ht, hu⟩ := List.mem_flatMap.mp hu
  exact (h t ht).elements u hu

theorem Row.get {items : List Term} (h : D.Row w items) (index : Nat) : D.Admits w (Sequence.get items index) := by
  unfold Sequence.get
  rw [List.getD_eq_getElem?_getD]
  rcases hi : items[index]? with _ | t
  · exact admits_empty
  · exact (h t (List.mem_of_getElem? hi)).2

theorem Row.ofSequence {items : List Term} (h : D.Row w items) : D.Admits w (ofSequence items) := by
  match items with
  | [] => exact admits_empty
  | [t] => exact (h t (by simp)).2
  | _ :: _ :: _ => exact admits_seq.mpr h

theorem AdmitsAll.set {terms : List Term} (h : D.AdmitsAll w terms) (ht : D.Admits w t) (index : Nat) :
    D.AdmitsAll w (terms.set index t) := by
  intro u hu
  rcases List.mem_or_eq_of_mem_set hu with hu | rfl
  · exact h u hu
  · exact ht

/-- An element of a sequence gives way to another term. -/
theorem Row.replace {items : List Term} (h : D.Row w items) (ht : D.Admits w t) (index : Nat) :
    D.Row w (Sequence.replace items index t) := (h.admitsAll.set ht index).flatten

/-! ## Collections -/

theorem AdmitsAll.insert {elements : List Term} (h : D.AdmitsAll w elements) (ht : D.Admits w t) :
    D.AdmitsAll w (Elements.insert t elements) := by
  intro u hu
  rcases Elements.mem_insert.mp hu with rfl | hu
  · exact ht
  · exact h u hu

theorem AdmitsAll.insertAll {terms elements : List Term} (ht : D.AdmitsAll w terms) (h : D.AdmitsAll w elements) :
    D.AdmitsAll w (Elements.insertAll terms elements) := by
  intro u hu
  rcases Elements.mem_insertAll.mp hu with hu | hu
  · exact ht u hu
  · exact h u hu

theorem AdmitsEntries.put {entries : Entries} {key : Term} {value : List Term} (h : D.AdmitsEntries w entries)
    (hkey : D.Admits w key) (hvalue : D.Row w value) : D.AdmitsEntries w (entries.put key value) := by
  intro e he
  rcases Entries.mem_put he with rfl | he
  · exact ⟨hkey, hvalue⟩
  · exact h e he

theorem AdmitsEntries.keepOrPut {entries : Entries} {key : Term} {value : List Term} (h : D.AdmitsEntries w entries)
    (hkey : D.Admits w key) (hvalue : D.Row w value) : D.AdmitsEntries w (entries.keepOrPut key value) := by
  unfold Entries.keepOrPut
  split
  · exact h
  · exact h.put hkey hvalue

theorem AdmitsEntries.get? {entries : Entries} {key : Term} {value : List Term} (h : D.AdmitsEntries w entries)
    (hget : entries.get? key = some value) : D.Row w value := (h _ (Entries.mem_of_get? hget)).2

/-! ## What rules read -/

section
variable {params args : List Term} {index : Nat}

theorem AdmitsAll.getElem? (h : D.AdmitsAll w params) (ht : params[index]? = some t) : D.Admits w t :=
  h t (List.mem_of_getElem? ht)

theorem AdmitsAll.arg (h : D.AdmitsAll w params) (ht : arg params index = .ok t) : D.Admits w t :=
  h.getElem? (arg_eq_ok.mp ht)

theorem AdmitsAll.sequenceArg {items : List Term} (h : D.AdmitsAll w params)
    (ht : sequenceArg params index = .ok items) : D.Row w items :=
  admits_seq.mp (h.getElem? (sequenceArg_eq_ok.mp ht))

theorem Admits.dataArgs {name : String} (h : D.Admits w t) (hargs : dataArgs name t = .ok args) : D.Row w args := by
  rw [dataArgs_eq_ok.mp hargs] at h
  exact (admits_data.mp h).1

theorem Admits.setElements {elements : List Term} (h : D.Admits w t) (ht : Rules.elements t = .ok elements) :
    D.AdmitsAll w elements := by
  rw [Rules.elements, expect_eq_ok, asSet?_eq_some] at ht
  rw [ht] at h
  exact admits_set.mp h

theorem Admits.mapEntries {es : Entries} (h : D.Admits w t) (ht : entries t = .ok es) : D.AdmitsEntries w es := by
  rw [entries, expect_eq_ok] at ht
  cases t with
  | map es' =>
    cases ht
    exact admits_map.mp h
  | _ => cases ht

end

/-! ## Rules on sequences and constructed values -/

theorem admits_data_other {name : String} {args : List Term} (hname : name ≠ variableName) (h : D.Row w args) :
    D.Admits w (.data name args) := admits_data.mpr ⟨h, D.data_other w args hname⟩

theorem concatenation_admits {lists items : List Term} (hl : D.AdmitsAll w lists) (h : concatenation lists = .ok items) :
    D.Row w items := by
  induction lists generalizing items with
  | nil =>
    cases h
    exact row_nil
  | cons u rest ih =>
    obtain ⟨args, hargs, h⟩ := bind_eq_ok.mp h
    obtain ⟨more, hmore, h⟩ := bind_eq_ok.mp h
    cases h
    have hfirst := (hl u (by simp)).dataArgs hargs
    exact hfirst.append (ih hl.tail hmore)

section
variable {params : List Term} (hp : D.AdmitsAll w params)
include hp

theorem collect_admits {name : String} (hname : name ≠ variableName) (h : collect name params = .ok t) :
    D.Admits w t := by
  obtain ⟨items, hitems, h⟩ := bind_eq_ok.mp h
  cases h
  exact admits_data_other hname (hp.sequenceArg hitems)

theorem takeApart_admits {name : String} (h : takeApart name params = .ok t) : D.Admits w t := by
  obtain ⟨u, hu, h⟩ := bind_eq_ok.mp h
  obtain ⟨args, hargs, h⟩ := bind_eq_ok.mp h
  cases h
  exact admits_spread.mpr ((hp.arg hu).dataArgs hargs)

theorem composite_admits {op : Operator.Composite} (hnode : D.node (.composite op) params)
    (h : composite op params = .ok t) : D.Admits w t := by
  cases op with
  | length =>
    obtain ⟨items, -, h⟩ := bind_eq_ok.mp h
    cases h
    exact admits_int _
  | index =>
    obtain ⟨position, -, h⟩ := bind_eq_ok.mp h
    obtain ⟨items, hitems, h⟩ := bind_eq_ok.mp h
    cases h
    split
    · exact (hp.sequenceArg hitems).get _
    · exact admits_empty
  | reverse =>
    obtain ⟨items, hitems, h⟩ := bind_eq_ok.mp h
    cases h
    exact admits_spread.mpr ((hp.sequenceArg hitems).subset fun _ hu => List.mem_reverse.mp hu)
  | tuple => exact collect_admits hp (by decide) h
  | tupleElements => exact takeApart_admits hp h
  | list => exact collect_admits hp (by decide) h
  | listElements => exact takeApart_admits hp h
  | listAppend =>
    obtain ⟨lists, hlists, h⟩ := bind_eq_ok.mp h
    obtain ⟨items, hitems, h⟩ := bind_eq_ok.mp h
    cases h
    exact admits_data_other (by decide) (concatenation_admits (hp.sequenceArg hlists).admitsAll hitems)
  | listHead =>
    obtain ⟨u, hu, h⟩ := bind_eq_ok.mp h
    obtain ⟨args, hargs, h⟩ := bind_eq_ok.mp h
    cases h
    exact ((hp.arg hu).dataArgs hargs).get 0
  | listTail =>
    obtain ⟨u, hu, h⟩ := bind_eq_ok.mp h
    obtain ⟨args, hargs, h⟩ := bind_eq_ok.mp h
    have hrow := (hp.arg hu).dataArgs hargs
    cases args with
    | nil =>
      cases h
      exact admits_empty
    | cons first rest =>
      cases h
      exact admits_data_other (by decide) (hrow.subset (List.subset_cons_self _ _))
  | vector => exact collect_admits hp (by decide) h
  | vectorElements => exact takeApart_admits hp h
  | datatypeValue =>
    obtain ⟨u, -, h⟩ := bind_eq_ok.mp h
    obtain ⟨name, -, h⟩ := bind_eq_ok.mp h
    obtain ⟨args, hargs, h⟩ := bind_eq_ok.mp h
    cases h
    exact admits_data.mpr ⟨hp.sequenceArg hargs, D.data_named w name args hnode⟩

end

/-! ## Rules on maps -/

theorem AdmitsEntries.tail {e : Term × List Term} {rest : Entries} (h : D.AdmitsEntries w (e :: rest)) :
    D.AdmitsEntries w rest := fun f hf => h f (List.mem_cons_of_mem _ hf)

@[simp] theorem admitsEntries_nil : D.AdmitsEntries w [] := fun _ he => nomatch he

theorem keyTuple?_eq_some {t key : Term} {value : List Term} (h : keyTuple? t = some (key, value)) :
    t = .data tupleName (key :: value) := by
  cases t with
  | data constructor args =>
    simp only [keyTuple?, dataArgs?] at h
    split at h
    · rename_i hargs
      split at hargs
      · rename_i hname
        cases hargs
        cases h
        rw [hname]
      · cases hargs
    · cases h
  | _ => cases h

theorem Admits.keyTuple {key : Term} {value : List Term} (h : D.Admits w t) (ht : keyTuple? t = some (key, value)) :
    D.Admits w key ∧ D.Row w value := by
  rw [keyTuple?_eq_some ht] at h
  have hrow := (admits_data.mp h).1
  exact ⟨(hrow key (by simp)).2, hrow.subset (List.subset_cons_self _ _)⟩

theorem addTuples_admits {acc : Entries} {tuples : List Term} {out : Option Entries} (hacc : D.AdmitsEntries w acc)
    (ht : D.AdmitsAll w tuples) (h : addTuples acc tuples = .ok out) : D.Admits w (mapOrEmpty out) := by
  induction tuples generalizing acc with
  | nil =>
    cases h
    exact admits_map.mpr hacc
  | cons u rest ih =>
    obtain ⟨⟨key, value⟩, hkey, h⟩ := bind_eq_ok.mp h
    obtain ⟨hk, hv⟩ := (ht u (by simp)).keyTuple (expect_eq_ok.mp hkey)
    simp only at h
    rcases hput : acc.putNew? key value with _ | acc'
    · rw [hput] at h
      cases h
      exact admits_empty
    · rw [hput] at h
      refine ih ?_ ht.tail h
      rw [Entries.putNew?_eq_some hput]
      exact hacc.put hk hv

theorem addEntries?_admits {acc more out : Entries} (hacc : D.AdmitsEntries w acc) (hmore : D.AdmitsEntries w more)
    (h : addEntries? acc more = some out) : D.AdmitsEntries w out := by
  induction more generalizing acc with
  | nil =>
    cases h
    exact hacc
  | cons e rest ih =>
    obtain ⟨hk, hv⟩ := hmore e (by simp)
    simp only [addEntries?, List.foldlM_cons, Option.bind_eq_bind, Option.bind_eq_some_iff] at h
    obtain ⟨acc', hput, h⟩ := h
    refine ih ?_ hmore.tail h
    rw [Entries.putNew?_eq_some hput]
    exact hacc.put hk hv

theorem unite_admits {acc : Entries} {maps : List Term} {out : Option Entries} (hacc : D.AdmitsEntries w acc)
    (hm : D.AdmitsAll w maps) (h : unite acc maps = .ok out) : D.Admits w (mapOrEmpty out) := by
  induction maps generalizing acc with
  | nil =>
    cases h
    exact admits_map.mpr hacc
  | cons u rest ih =>
    obtain ⟨more, hmore, h⟩ := bind_eq_ok.mp h
    have hentries := (hm u (by simp)).mapEntries hmore
    rcases hadd : addEntries? acc more with _ | acc'
    · rw [hadd] at h
      cases h
      exact admits_empty
    · rw [hadd] at h
      exact ih (addEntries?_admits hacc hentries hadd) hm.tail h

theorem keepAll_admits {acc more : Entries} (hacc : D.AdmitsEntries w acc) (hmore : D.AdmitsEntries w more) :
    D.AdmitsEntries w (more.foldl (fun acc e => Entries.keepOrPut e.1 e.2 acc) acc) := by
  induction more generalizing acc with
  | nil => exact hacc
  | cons e rest ih =>
    obtain ⟨hk, hv⟩ := hmore e (by simp)
    exact ih (hacc.keepOrPut hk hv) hmore.tail

theorem override_admits {acc out : Entries} {maps : List Term} (hacc : D.AdmitsEntries w acc)
    (hm : D.AdmitsAll w maps) (h : override acc maps = .ok out) : D.AdmitsEntries w out := by
  induction maps generalizing acc with
  | nil =>
    cases h
    exact hacc
  | cons u rest ih =>
    obtain ⟨more, hmore, h⟩ := bind_eq_ok.mp h
    exact ih (keepAll_admits hacc ((hm u (by simp)).mapEntries hmore)) hm.tail h

theorem mapping_admits {op : Operator.Mapping} {params : List Term} (hp : D.AdmitsAll w params)
    (h : mapping op params = .ok t) : D.Admits w t := by
  cases op with
  | map =>
    obtain ⟨tuples, htuples, h⟩ := bind_eq_ok.mp h
    obtain ⟨out, hout, h⟩ := bind_eq_ok.mp h
    cases h
    exact addTuples_admits admitsEntries_nil (hp.sequenceArg htuples).admitsAll hout
  | empty =>
    cases h
    exact admits_map.mpr admitsEntries_nil
  | lookup =>
    obtain ⟨u, hu, h⟩ := bind_eq_ok.mp h
    obtain ⟨es, hes, h⟩ := bind_eq_ok.mp h
    obtain ⟨key, -, h⟩ := bind_eq_ok.mp h
    cases h
    rcases hget : Entries.get? key es with _ | value
    · exact admits_empty
    · exact (((hp.arg hu).mapEntries hes).get? hget).ofSequence
  | override =>
    obtain ⟨maps, hmaps, h⟩ := bind_eq_ok.mp h
    obtain ⟨out, hout, h⟩ := bind_eq_ok.mp h
    cases h
    exact admits_map.mpr (override_admits admitsEntries_nil (hp.sequenceArg hmaps).admitsAll hout)
  | unite =>
    obtain ⟨maps, hmaps, h⟩ := bind_eq_ok.mp h
    obtain ⟨out, hout, h⟩ := bind_eq_ok.mp h
    cases h
    exact unite_admits admitsEntries_nil (hp.sequenceArg hmaps).admitsAll hout
  | domain =>
    obtain ⟨u, hu, h⟩ := bind_eq_ok.mp h
    obtain ⟨es, hes, h⟩ := bind_eq_ok.mp h
    cases h
    refine admits_set.mpr fun key hkey => ?_
    obtain ⟨e, he, rfl⟩ := List.mem_map.mp hkey
    exact ((hp.arg hu).mapEntries hes e he).1
  | elements =>
    obtain ⟨u, hu, h⟩ := bind_eq_ok.mp h
    obtain ⟨es, hes, h⟩ := bind_eq_ok.mp h
    cases h
    refine admits_spread.mpr fun tuple htuple => ?_
    obtain ⟨e, he, rfl⟩ := List.mem_map.mp htuple
    obtain ⟨hk, hv⟩ := (hp.arg hu).mapEntries hes e he
    have hall : D.AdmitsAll w (e.1 :: e.2) := by
      intro v hmem
      rcases List.mem_cons.mp hmem with rfl | hmem
      · exact hk
      · exact (hv v hmem).2
    exact ⟨D.element_of_not_isSequence rfl, admits_data_other (by decide) hall.flatten⟩
  | delete =>
    obtain ⟨u, hu, h⟩ := bind_eq_ok.mp h
    obtain ⟨es, hes, h⟩ := bind_eq_ok.mp h
    obtain ⟨k, -, h⟩ := bind_eq_ok.mp h
    obtain ⟨keys, -, h⟩ := bind_eq_ok.mp h
    cases h
    exact admits_map.mpr fun e he => (hp.arg hu).mapEntries hes e (List.mem_filter.mp he).1

/-! ## Rules on sets -/

theorem union_admits {acc sets items : List Term} (hacc : D.AdmitsAll w acc) (hs : D.AdmitsAll w sets)
    (h : union acc sets = .ok items) : D.AdmitsAll w items := by
  induction sets generalizing acc with
  | nil =>
    cases h
    exact hacc
  | cons u rest ih =>
    obtain ⟨more, hmore, h⟩ := bind_eq_ok.mp h
    exact ih (((hs u (by simp)).setElements hmore).insertAll hacc) hs.tail h

theorem freshAtom_admits (excluded : List Term) : D.Admits w (freshAtom excluded) := by
  obtain ⟨⟨n, hn⟩, -⟩ := freshAtom_eq excluded
  rw [hn]
  exact admits_atom _

theorem firstOutside_admits {excluded candidates : List Term} (h : D.AdmitsAll w candidates) :
    D.Admits w (firstOutside excluded candidates) := by
  rcases firstOutside_cases excluded candidates with hout | hmem
  · rw [hout]
    exact admits_empty
  · exact h _ hmem

theorem elementNotIn_admits {ty : Ty} {excluded : List Term} (h : elementNotIn ty excluded = .ok t) :
    D.Admits w t := by
  have hints : D.AdmitsAll w (integersFromZero (excluded.length + 1)) := by
    intro u hu
    obtain ⟨n, -, rfl⟩ := List.mem_map.mp hu
    exact admits_int _
  have hletters : D.AdmitsAll w letters := by
    intro u hu
    obtain ⟨c, -, rfl⟩ := List.mem_map.mp hu
    exact admits_char c
  have hbools : D.AdmitsAll w [.bool false, .bool true] := by simp [AdmitsAll]
  unfold elementNotIn at h
  split at h
  · cases h
    exact firstOutside_admits hbools
  · cases h
    exact firstOutside_admits hints
  · cases h
    exact firstOutside_admits hints
  · cases h
    exact firstOutside_admits hletters
  · cases h
    exact freshAtom_admits excluded
  · cases h

theorem collection_admits {op : Operator.Collection} {params : List Term} {choices choices' : ChoiceStream}
    (hp : D.AdmitsAll w params) (h : collection op params choices = .ok (t, choices')) : D.Admits w t := by
  cases op with
  | set =>
    obtain ⟨items, hitems, h⟩ := bind_eq_ok.mp h
    cases h
    exact admits_set.mpr ((hp.sequenceArg hitems).admitsAll.insertAll admitsAll_nil)
  | empty =>
    cases h
    exact admits_set.mpr admitsAll_nil
  | isIn =>
    obtain ⟨u, -, h⟩ := bind_eq_ok.mp h
    obtain ⟨v, -, h⟩ := bind_eq_ok.mp h
    obtain ⟨items, -, h⟩ := bind_eq_ok.mp h
    cases h
    exact admits_bool _
  | elements =>
    obtain ⟨u, hu, h⟩ := bind_eq_ok.mp h
    obtain ⟨items, hitems, h⟩ := bind_eq_ok.mp h
    cases h
    exact admits_spread.mpr ((hp.arg hu).setElements hitems).flatten
  | unite =>
    obtain ⟨sets, hsets, h⟩ := bind_eq_ok.mp h
    obtain ⟨items, hitems, h⟩ := bind_eq_ok.mp h
    cases h
    exact admits_set.mpr (union_admits admitsAll_nil (hp.sequenceArg hsets).admitsAll hitems)
  | difference =>
    obtain ⟨u, hu, h⟩ := bind_eq_ok.mp h
    obtain ⟨left, hleft, h⟩ := bind_eq_ok.mp h
    obtain ⟨v, -, h⟩ := bind_eq_ok.mp h
    obtain ⟨right, -, h⟩ := bind_eq_ok.mp h
    cases h
    exact admits_set.mpr fun x hx => (hp.arg hu).setElements hleft x (List.mem_filter.mp hx).1
  | size =>
    obtain ⟨u, -, h⟩ := bind_eq_ok.mp h
    obtain ⟨items, -, h⟩ := bind_eq_ok.mp h
    cases h
    exact admits_int _
  | insert =>
    obtain ⟨u, hu, h⟩ := bind_eq_ok.mp h
    obtain ⟨v, hv, h⟩ := bind_eq_ok.mp h
    obtain ⟨items, hitems, h⟩ := bind_eq_ok.mp h
    cases h
    exact admits_set.mpr (((hp.arg hv).setElements hitems).insert (hp.arg hu))
  | someElement =>
    obtain ⟨u, hu, h⟩ := bind_eq_ok.mp h
    obtain ⟨items, hitems, h⟩ := bind_eq_ok.mp h
    have hrow := ((hp.arg hu).setElements hitems).flatten
    rcases hpick : Sequence.pick (flatten items) choices with _ | ⟨v, rest⟩
    · rw [hpick] at h
      cases h
      exact admits_empty
    · rw [hpick] at h
      cases h
      exact (hrow _ (pick_mem hpick)).2
  | elementNotIn =>
    obtain ⟨u, -, h⟩ := bind_eq_ok.mp h
    obtain ⟨v, -, h⟩ := bind_eq_ok.mp h
    obtain ⟨items, -, h⟩ := bind_eq_ok.mp h
    obtain ⟨ty, -, h⟩ := bind_eq_ok.mp h
    obtain ⟨x, hx, h⟩ := bind_eq_ok.mp h
    cases h
    exact elementNotIn_admits hx

/-! ## Entities -/

variable (D) in
structure Stored (w : World) (s : Entities) : Prop where
  admits : ∀ {name t}, s.find? name = some t → D.Admits w t
  ledger : D.ledger w (storeMap s) (usedAtoms s)

variable {s s' : Entities} {name : String}

theorem storeMap_put (hname : name ≠ Entity.store) : storeMap (s.put name t) = storeMap s := by
  simp [storeMap, Entities.get, Entities.find?_put, hname.symm]

theorem usedAtoms_put (hname : name ≠ Entity.usedAtoms) : usedAtoms (s.put name t) = usedAtoms s := by
  simp [usedAtoms, Entities.get, Entities.find?_put, hname.symm]

@[simp] theorem storeMap_put_store {entries : Entries} : storeMap (s.put Entity.store (.map entries)) = entries := by
  simp [storeMap, Entities.get, Entities.find?_put, asMap?]

@[simp] theorem usedAtoms_put_used {elements : List Term} :
    usedAtoms (s.put Entity.usedAtoms (.set elements)) = elements := by
  simp [usedAtoms, Entities.get, Entities.find?_put, asSet?]

namespace Stored

theorem get (h : D.Stored w s) (name : String) : D.Admits w (s.get name) := by
  unfold Entities.get
  rcases hf : s.find? name with _ | t
  · exact admits_empty
  · exact h.admits hf

theorem stream (h : D.Stored w s) (name : String) : D.Row w (s.stream name) := (h.get name).elements

theorem storeMap (h : D.Stored w s) : D.AdmitsEntries w (storeMap s) := by
  have hstore := h.get Entity.store
  unfold Rules.storeMap
  cases hm : s.get Entity.store with
  | map entries =>
    rw [hm] at hstore
    exact admits_map.mp hstore
  | _ => exact admitsEntries_nil

theorem usedAtoms (h : D.Stored w s) : D.AdmitsAll w (usedAtoms s) := by
  have hused := h.get Entity.usedAtoms
  unfold Rules.usedAtoms
  cases hu : s.get Entity.usedAtoms with
  | set elements =>
    rw [hu] at hused
    exact admits_set.mp hused
  | _ => exact admitsAll_nil

/-- Writing an admitted term, if the ledger still stands. -/
theorem put_ledger (h : D.Stored w s) (ht : D.Admits w t)
    (hledger : D.ledger w (Rules.storeMap (s.put name t)) (Rules.usedAtoms (s.put name t))) :
    D.Stored w (s.put name t) := by
  refine ⟨fun {other u} hu => ?_, hledger⟩
  rw [Entities.find?_put] at hu
  split at hu
  · cases hu
    exact ht
  · exact h.admits hu

theorem put (h : D.Stored w s) (ht : D.Admits w t) (hstore : name ≠ Entity.store) (hused : name ≠ Entity.usedAtoms) :
    D.Stored w (s.put name t) := by
  refine h.put_ledger ht ?_
  rw [storeMap_put hstore, usedAtoms_put hused]
  exact h.ledger

theorem remove (h : D.Stored w s) (hstore : name ≠ Entity.store) (hused : name ≠ Entity.usedAtoms) :
    D.Stored w (s.remove name) := by
  refine ⟨fun {other u} hu => ?_, ?_⟩
  · rw [Entities.find?_remove] at hu
    split at hu
    · cases hu
    · exact h.admits hu
  · have hs : Rules.storeMap (s.remove name) = Rules.storeMap s := by
      simp [Rules.storeMap, Entities.get, Entities.find?_remove, hstore.symm]
    have hu : Rules.usedAtoms (s.remove name) = Rules.usedAtoms s := by
      simp [Rules.usedAtoms, Entities.get, Entities.find?_remove, hused.symm]
    rw [hs, hu]
    exact h.ledger

/-- Putting back what the entity held before, in a world that may have been smaller. -/
theorem assign (h : D.Stored w' s') (hold : D.Stored w s) (hw : w ≤ w') (hstore : name ≠ Entity.store)
    (hused : name ≠ Entity.usedAtoms) : D.Stored w' (s'.assign name (s.find? name)) := by
  rcases hf : s.find? name with _ | t
  · exact h.remove hstore hused
  · exact h.put ((hold.admits hf).mono hw) hstore hused

theorem append (h : D.Stored w s) {value : Term} (hvalue : D.Admits w value) (hstore : name ≠ Entity.store)
    (hused : name ≠ Entity.usedAtoms) : D.Stored w (s.append name value) :=
  h.put (admits_seq.mpr ((h.stream name).append hvalue.elements)) hstore hused

theorem popFirst (h : D.Stored w s) (hstore : name ≠ Entity.store) (hused : name ≠ Entity.usedAtoms)
    (hpop : s.popFirst name = some (t, s')) : D.Admits w t ∧ D.Stored w s' := by
  have hrow := h.stream name
  unfold Entities.popFirst at hpop
  split at hpop
  · cases hpop
  · rename_i first rest hstream
    cases hpop
    rw [hstream] at hrow
    exact ⟨(hrow _ (by simp)).2, h.put (admits_seq.mpr (hrow.subset (List.subset_cons_self _ _))) hstore hused⟩

/-- Putting an atom in use. -/
theorem use (h : D.Stored w s) (ht : D.Admits w t) :
    D.Stored w (s.put Entity.usedAtoms (.set (Elements.insert t (Rules.usedAtoms s)))) := by
  refine h.put_ledger (admits_set.mpr (h.usedAtoms.insert ht)) ?_
  rw [storeMap_put (by decide), usedAtoms_put_used]
  exact D.ledger_use h.ledger fun a ha => Elements.mem_insert.mpr (.inr ha)

end Stored

theorem flatten_variable (excluded : List Term) (ty : Ty) :
    flatten [freshAtom excluded, .type ty] = [freshAtom excluded, .type ty] := by
  refine flatten_of_no_sequence fun t ht => ?_
  simp only [List.mem_cons, List.not_mem_nil, or_false] at ht
  rcases ht with rfl | rfl
  · exact freshAtom_not_isSequence excluded
  · rfl

/-- A new location, in the world that knows of it. -/
theorem Stored.allocate {ty : Ty} (h : D.Stored w s) (hty : D.type ty)
    (hs' : s' = s.put Entity.usedAtoms (.set (Elements.insert (freshAtom (Rules.usedAtoms s)) (Rules.usedAtoms s)))) :
    ∃ w', w ≤ w' ∧ D.Admits w' (.data variableName (flatten [freshAtom (Rules.usedAtoms s), .type ty])) ∧
      D.Stored w' (s'.put Entity.store (.map (Entries.put (freshAtom (Rules.usedAtoms s)) [] (Rules.storeMap s')))) := by
  have hatom : D.Admits w (freshAtom (Rules.usedAtoms s)) := freshAtom_admits _
  obtain ⟨w', hw, hdata, hledger⟩ := D.ledger_allocate h.ledger hty
  have hused := h.use hatom
  rw [← hs'] at hused
  have hstore : Rules.storeMap s' = Rules.storeMap s := by
    rw [hs']
    exact storeMap_put (by decide)
  have hatoms : Rules.usedAtoms s' = Elements.insert (freshAtom (Rules.usedAtoms s)) (Rules.usedAtoms s) := by
    rw [hs']
    exact usedAtoms_put_used
  refine ⟨w', hw, ?_, ?_, ?_⟩
  · rw [flatten_variable]
    refine admits_data.mpr ⟨fun u hu => ?_, hdata⟩
    simp only [List.mem_cons, List.not_mem_nil, or_false] at hu
    rcases hu with rfl | rfl
    · exact ⟨D.element_of_not_isSequence (freshAtom_not_isSequence _), hatom.mono hw⟩
    · exact ⟨D.element_of_not_isSequence rfl, admits_type.mpr hty⟩
  · intro other u hu
    rw [Entities.find?_put] at hu
    split at hu
    · cases hu
      exact (admits_map.mpr (hused.storeMap.put hatom row_nil)).mono hw
    · exact (hused.admits hu).mono hw
  · rw [storeMap_put_store, usedAtoms_put (by decide), hstore, hatoms]
    exact hledger

theorem assignment_eq_ok {params : List Term} {store out : Entries} (h : assignment params store = .ok out) :
    ∃ location ty value old, params[0]? = some (.data variableName [location, .type ty]) ∧
      params[1]? = some value ∧ ty.belongs value = true ∧ store.get? location = some old ∧
      out = store.put location (flatten [value]) := by
  obtain ⟨u, hu, h⟩ := bind_eq_ok.mp h
  obtain ⟨⟨location, ty⟩, hparts, h⟩ := bind_eq_ok.mp h
  obtain ⟨value, hvalue, h⟩ := bind_eq_ok.mp h
  have hvariable : params[0]? = some (.data variableName [location, .type ty]) := by
    rw [arg_eq_ok.mp hu, variableParts_eq_ok.mp hparts]
  split at h
  · cases h
  · rename_i hbelongs
    split at h
    · cases h
    · rename_i hget
      cases h
      exact ⟨location, ty, value, _, hvariable, arg_eq_ok.mp hvalue, by simpa using hbelongs, hget, rfl⟩

theorem contents_eq_ok {params : List Term} {store : Entries} (h : contents params store = .ok t) :
    ∃ location ty items, params[0]? = some (.data variableName [location, .type ty]) ∧
      store.get? location = some items ∧ items ≠ [] ∧ t = ofSequence items := by
  obtain ⟨u, hu, h⟩ := bind_eq_ok.mp h
  obtain ⟨⟨location, ty⟩, hparts, h⟩ := bind_eq_ok.mp h
  have hvariable : params[0]? = some (.data variableName [location, .type ty]) := by
    rw [arg_eq_ok.mp hu, variableParts_eq_ok.mp hparts]
  simp only at h
  split at h
  · cases h
  · cases h
  · rename_i items hne hget
    cases h
    exact ⟨location, ty, items, hvariable, hget, hne, rfl⟩

/-- What a variable asks for, and the type that it declares. -/
theorem Admits.variable {location : Term} {ty : Ty} (h : D.Admits w (.data variableName [location, .type ty])) :
    D.data w variableName [location, .type ty] ∧ D.Admits w location ∧ D.type ty := by
  obtain ⟨hrow, hdata⟩ := admits_data.mp h
  exact ⟨hdata, (hrow location (by simp)).2, admits_type.mp (hrow (.type ty) (by simp)).2⟩

/-- The rules on entities give an admitted term and leave admitted entities, if only in a larger world. -/
theorem Stored.effected {params : List Term} {op : Operator.Effect} (h : D.Stored w s) (hp : D.AdmitsAll w params)
    (he : Effected params s op t s') : ∃ w', w ≤ w' ∧ D.Admits w' t ∧ D.Stored w' s' := by
  have hsignal : D.Admits w signal := admits_data_other (by decide) row_nil
  cases he with
  | yield => exact ⟨w, le_rfl, admits_null, h.put hsignal (by decide) (by decide)⟩
  | yieldOnValue hvalue => exact ⟨w, le_rfl, hp.getElem? hvalue, h.put hsignal (by decide) (by decide)⟩
  | given hfind => exact ⟨w, le_rfl, h.admits hfind, h⟩
  | print hvalues => exact ⟨w, le_rfl, admits_null, h.append (hp.getElem? hvalues) (by decide) (by decide)⟩
  | read hpop =>
    obtain ⟨ht, hs'⟩ := h.popFirst (by decide) (by decide) hpop
    exact ⟨w, le_rfl, ht, hs'⟩
  | useAtomNotIn hexcluded => exact ⟨w, le_rfl, freshAtom_admits _, h.use (freshAtom_admits _)⟩
  | allocateVariable hty hs' => exact h.allocate (admits_type.mp (hp.getElem? hty)) hs'
  | assign hstore =>
    obtain ⟨location, ty, value, old, hvariable, hvalue, hbelongs, hget, rfl⟩ := assignment_eq_ok hstore
    obtain ⟨hdata, hlocation, hty⟩ := (hp.getElem? hvariable).variable
    have hall : D.AdmitsAll w [value] := .cons (hp.getElem? hvalue) admitsAll_nil
    refine ⟨w, le_rfl, admits_null, h.put_ledger (admits_map.mpr (h.storeMap.put hlocation hall.flatten)) ?_⟩
    rw [storeMap_put_store, usedAtoms_put (by decide)]
    exact D.ledger_assign h.ledger hdata hty hbelongs hget
  | assigned hcontents =>
    obtain ⟨location, ty, items, -, hget, -, rfl⟩ := contents_eq_ok hcontents
    exact ⟨w, le_rfl, (h.storeMap.get? hget).ofSequence, h⟩

/-- What the rules give that step no argument. -/
theorem Stored.fired {params : List Term} {op : Operator} {m m' : Machine} (h : D.Stored w m.entities)
    (hnode : D.node op params) (hp : D.AdmitsAll w params) (hf : Engine.Fired params m op t m') :
    ∃ w', w ≤ w' ∧ D.Admits w' t ∧ D.Stored w' m'.entities := by
  cases hf with
  | effect => exact ⟨w, le_rfl, admits_null, h⟩
  | choice hoptions hpick =>
    have hrow := admits_seq.mp (hp.getElem? hoptions)
    exact ⟨w, le_rfl, (hrow _ (pick_mem hpick)).2, h⟩
  | ifTrueElse _ ht => exact ⟨w, le_rfl, hp.getElem? ht, h⟩
  | entities he => exact h.effected hp he
  | logic hlogic =>
    obtain ⟨b, rfl⟩ := logic_ok hlogic
    exact ⟨w, le_rfl, admits_bool b, h⟩
  | arithmetic harith =>
    refine ⟨w, le_rfl, ?_, h⟩
    rcases arithmetic_ok harith with ⟨n, rfl⟩ | ⟨b, rfl⟩ | rfl
    · exact admits_int n
    · exact admits_bool b
    · exact admits_empty
  | composite hcomposite => exact ⟨w, le_rfl, composite_admits hp hnode hcomposite, h⟩
  | mapping hmapping => exact ⟨w, le_rfl, mapping_admits hp hmapping, h⟩
  | collection hcollection => exact ⟨w, le_rfl, collection_admits hp hcollection, h⟩

/-- Whatever the node looks like, a rule that steps no argument refuses it only with an excuse. -/
theorem Stored.excused {step advance : Term → Eval Term} {rounds : Nat} {op : Operator} {params : List Term}
    {reason : Reason} {m m' : Machine} (h : D.Stored w m.entities) (hop : Engine.stepsArgument op = false)
    (hnode : D.node op params) (hp : D.AdmitsAll w params)
    (hrule : Engine.applyRule step advance rounds op params m = .error (.stuck (.rule op reason)) m') :
    D.excuse reason := by
  by_cases hs : op.Shaped params
  · rcases Engine.applyRule_refuses hop hs hrule with hordinary | ⟨location, ty, hvariable, hget, rfl⟩
    · exact D.excuse_ordinary hordinary
    · exact D.excuse_unallocated h.ledger (hp.getElem? hvariable).variable.1 hget
  · exact D.excuse_malformed reason hnode hs

end Discipline

end TermMachine
