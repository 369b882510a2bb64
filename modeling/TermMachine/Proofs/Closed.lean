import TermMachine.Proofs.Nodes
import TermMachine.Proofs.StepCases

/-!
# Evaluated collections

A machine is closed when no collection in its entities holds a node and only the input holds terms
with nodes at all. The rules that build collections are tried when their parameters are values, so
from a closed term in a closed machine every rule builds closed ones: what a rule gives, together
with the input that is left, has no more nodes than the parameters and the input had before.

Proved:
* `Entities.Closed.put`, `remove`, `assign`, `popFirst`: writing values keeps the entities closed.
* `composite_nodes`, `mapping_nodes`, `collection_nodes`: a rule on values gives a term without nodes.
* `Effected.closed`, `Fired.closed`: what the rules that step no argument come to.
-/

namespace TermMachine

open Term Rules

namespace Entities

/-- No entity hides a node in a collection, and none but the input holds any. -/
structure Closed (s : Entities) : Prop where
  closed : ∀ {name t}, s.find? name = some t → t.closed = true
  nodes : ∀ {name t}, s.find? name = some t → name ≠ Entity.standardIn → t.nodes = 0

def inputNodes (s : Entities) : Nat := (s.get Entity.standardIn).nodes

theorem closed_empty : empty.Closed := ⟨by simp [find?, empty, search], by simp [find?, empty, search]⟩

variable {s : Entities}

theorem Closed.get (hs : s.Closed) (name : String) : (s.get name).closed = true := by
  unfold Entities.get
  rcases hf : s.find? name with _ | t
  · rfl
  · exact hs.closed hf

theorem Closed.nodes_get (hs : s.Closed) {name : String} (hname : name ≠ Entity.standardIn) :
    (s.get name).nodes = 0 := by
  unfold Entities.get
  rcases hf : s.find? name with _ | t
  · rfl
  · exact hs.nodes hf hname

theorem Closed.put (hs : s.Closed) {name : String} {t : Term} (ht : t.nodes = 0) : (s.put name t).Closed := by
  refine ⟨?_, ?_⟩
  · intro other u hu
    rw [find?_put] at hu
    split at hu
    · cases hu; exact (closed_of_nodes ht).1
    · exact hs.closed hu
  · intro other u hu hother
    rw [find?_put] at hu
    split at hu
    · cases hu; exact ht
    · exact hs.nodes hu hother

theorem Closed.put_input (hs : s.Closed) {t : Term} (ht : t.closed = true) :
    (s.put Entity.standardIn t).Closed := by
  refine ⟨?_, ?_⟩
  · intro other u hu
    rw [find?_put] at hu
    split at hu
    · cases hu; exact ht
    · exact hs.closed hu
  · intro other u hu hother
    rw [find?_put, if_neg hother] at hu
    exact hs.nodes hu hother

theorem Closed.remove (hs : s.Closed) (name : String) : (s.remove name).Closed := by
  refine ⟨?_, ?_⟩
  · intro other u hu
    rw [find?_remove] at hu
    split at hu
    · cases hu
    · exact hs.closed hu
  · intro other u hu hother
    rw [find?_remove] at hu
    split at hu
    · cases hu
    · exact hs.nodes hu hother

theorem inputNodes_put {name : String} {t : Term} (hname : name ≠ Entity.standardIn) :
    (s.put name t).inputNodes = s.inputNodes := by
  simp [inputNodes, Entities.get, find?_put, hname.symm]

theorem inputNodes_remove {name : String} (hname : name ≠ Entity.standardIn) :
    (s.remove name).inputNodes = s.inputNodes := by
  simp [inputNodes, Entities.get, find?_remove, hname.symm]

@[simp] theorem inputNodes_put_input {t : Term} : (s.put Entity.standardIn t).inputNodes = t.nodes := by
  simp [inputNodes, Entities.get, find?_put]

/-- Putting back what another closed store held. -/
theorem Closed.assign (hs : s.Closed) {old : Entities} (hold : old.Closed) {name : String}
    (hname : name ≠ Entity.standardIn) : (s.assign name (old.find? name)).Closed := by
  rcases hf : old.find? name with _ | t
  · exact hs.remove name
  · exact hs.put (hold.nodes hf hname)

theorem inputNodes_assign {name : String} {t : Option Term} (hname : name ≠ Entity.standardIn) :
    (s.assign name t).inputNodes = s.inputNodes := by
  cases t with
  | none => exact inputNodes_remove hname
  | some t => exact inputNodes_put hname

/-- Reading moves nodes from the input to the term. -/
theorem Closed.popFirst (hs : s.Closed) {t : Term} {s' : Entities}
    (h : s.popFirst Entity.standardIn = some (t, s')) :
    t.closed = true ∧ s'.Closed ∧ t.nodes + s'.inputNodes = s.inputNodes := by
  have hc : allClosed (s.stream Entity.standardIn) = true := by
    rw [stream, allClosed_elements]
    exact hs.get _
  have hn : nodesIn (s.stream Entity.standardIn) = s.inputNodes := nodesIn_elements _
  unfold Entities.popFirst at h
  split at h
  · cases h
  · rename_i first rest hstream
    cases h
    rw [hstream, allClosed, Bool.and_eq_true] at hc
    rw [hstream, nodesIn] at hn
    exact ⟨hc.1, hs.put_input hc.2, by simpa [Term.nodes] using hn⟩

end Entities

/-! ## Collections -/

namespace Term

theorem nodesIn_insert {t : Term} {elements : List Term} (ht : t.nodes = 0) (he : nodesIn elements = 0) :
    nodesIn (Elements.insert t elements) = 0 := by
  rw [nodesIn_eq_zero] at he ⊢
  intro u hu
  rcases Elements.mem_insert.mp hu with rfl | hu
  · exact ht
  · exact he u hu

theorem nodesIn_insertAll {terms elements : List Term} (ht : nodesIn terms = 0) (he : nodesIn elements = 0) :
    nodesIn (Elements.insertAll terms elements) = 0 := by
  rw [nodesIn_eq_zero] at ht he ⊢
  intro u hu
  rcases Elements.mem_insertAll.mp hu with hu | hu
  · exact ht u hu
  · exact he u hu

theorem nodesIn_of_subset {items more : List Term} (hs : items ⊆ more) (hm : nodesIn more = 0) :
    nodesIn items = 0 := by
  rw [nodesIn_eq_zero] at hm ⊢
  exact fun t ht => hm t (hs ht)

theorem nodes_get_of_nodesIn {items : List Term} (h : nodesIn items = 0) (index : Nat) :
    (Sequence.get items index).nodes = 0 := by
  unfold Sequence.get
  rw [List.getD_eq_getElem?_getD]
  rcases hi : items[index]? with _ | t
  · rfl
  · exact nodesIn_eq_zero.mp h t (List.mem_of_getElem? hi)

@[simp] theorem nodes_ofSequence (items : List Term) : (ofSequence items).nodes = nodesIn items := by
  match items with
  | [] => rfl
  | [t] => simp [ofSequence, nodesIn]
  | _ :: _ :: _ => simp [ofSequence, nodes]

@[simp] theorem closed_ofSequence (items : List Term) : (ofSequence items).closed = allClosed items := by
  match items with
  | [] => rfl
  | [t] => simp [ofSequence, allClosed]
  | _ :: _ :: _ => simp [ofSequence, closed]

namespace Entries

theorem nodesIn_put {key : Term} {value : List Term} {entries : Entries} (hk : key.nodes = 0)
    (hv : nodesIn value = 0) (he : nodesInEntries entries = 0) :
    nodesInEntries (put key value entries) = 0 := by
  rw [nodesInEntries_eq_zero] at he ⊢
  intro e h
  rcases mem_put h with rfl | h
  · exact ⟨hk, hv⟩
  · exact he e h

theorem nodesIn_keepOrPut {key : Term} {value : List Term} {entries : Entries} (hk : key.nodes = 0)
    (hv : nodesIn value = 0) (he : nodesInEntries entries = 0) :
    nodesInEntries (keepOrPut key value entries) = 0 := by
  unfold keepOrPut
  split
  · exact he
  · exact nodesIn_put hk hv he

theorem nodesIn_get? {key : Term} {value : List Term} {entries : Entries} (he : nodesInEntries entries = 0)
    (h : get? key entries = some value) : nodesIn value = 0 :=
  (nodesInEntries_eq_zero.mp he _ (mem_of_get? h)).2

theorem nodesIn_without {entries : Entries} {excluded : List Term} (he : nodesInEntries entries = 0) :
    nodesInEntries (without entries excluded) = 0 := by
  rw [nodesInEntries_eq_zero] at he ⊢
  exact fun e h => he e (List.mem_filter.mp h).1

theorem nodesIn_keys {entries : Entries} (he : nodesInEntries entries = 0) : nodesIn entries.keys = 0 := by
  rw [nodesInEntries_eq_zero] at he
  rw [nodesIn_eq_zero]
  intro t ht
  obtain ⟨e, hmem, rfl⟩ := List.mem_map.mp ht
  exact (he e hmem).1

end Entries

end Term

/-! ## Rules on values -/

namespace Rules

/-- The eager parameters of an operator have no nodes left. -/
def Evaluated (op : Operator) (params : List Term) : Prop :=
  ∀ (i : Nat) (p : Param) (t : Term),
    op.params[i]? = some p → p.isEager = true → params[i]? = some t → t.nodes = 0

section
variable {op : Operator} {params : List Term} (hp : Evaluated op params)
include hp

theorem Evaluated.arg {i : Nat} {p : Param} {t : Term} (h : arg params i = .ok t)
    (hparam : op.params[i]? = some p) (he : p.isEager = true) : t.nodes = 0 :=
  hp i p t hparam he (arg_eq_ok.mp h)

theorem Evaluated.sequenceArg {i : Nat} {p : Param} {items : List Term} (h : sequenceArg params i = .ok items)
    (hparam : op.params[i]? = some p) (he : p.isEager = true) : nodesIn items = 0 := by
  have := hp i p _ hparam he (sequenceArg_eq_ok.mp h)
  rwa [Term.nodes] at this

end

theorem dataArgs_nodes {name : String} {t : Term} {args : List Term} (ht : t.nodes = 0)
    (h : dataArgs name t = .ok args) : nodesIn args = 0 := by
  rw [dataArgs, expect_eq_ok] at h
  cases t with
  | data constructor args' =>
    simp only [dataArgs?] at h
    split at h
    · cases h; rwa [Term.nodes] at ht
    · cases h
  | _ => cases h

theorem elements_nodes {t : Term} {items : List Term} (ht : t.nodes = 0) (h : elements t = .ok items) :
    nodesIn items = 0 := by
  rw [elements, expect_eq_ok, asSet?_eq_some] at h
  subst h
  rwa [Term.nodes] at ht

theorem entries_nodes {t : Term} {es : Entries} (ht : t.nodes = 0) (h : entries t = .ok es) :
    nodesInEntries es = 0 := by
  rw [entries, expect_eq_ok] at h
  cases t with
  | map es' => cases h; rwa [Term.nodes] at ht
  | _ => cases h

/-! Booleans and integers -/

theorem logic_ok {op : Operator.Logic} {params : List Term} {t : Term} (h : logic op params = .ok t) :
    ∃ b, t = .bool b := by
  cases op <;> simp only [logic, bind_eq_ok, pure_eq_ok] at h <;> grind

theorem logic_nodes {op : Operator.Logic} {params : List Term} {t : Term} (h : logic op params = .ok t) :
    t.nodes = 0 := by
  obtain ⟨b, rfl⟩ := logic_ok h
  rfl

theorem arithmetic_ok {op : Operator.Arithmetic} {params : List Term} {t : Term}
    (h : arithmetic op params = .ok t) : (∃ n, t = .int n) ∨ (∃ b, t = .bool b) ∨ t = .empty := by
  cases op with
  | divide =>
    obtain ⟨⟨a, b⟩, -, h⟩ := bind_eq_ok.mp h
    by_cases hb : b = 0
    · simp only [hb, if_true, pure_eq_ok] at h
      exact Or.inr (Or.inr h.symm)
    · simp only [hb, if_false, bind_eq_ok, pure_eq_ok] at h
      grind
  | modulo =>
    obtain ⟨⟨a, b⟩, -, h⟩ := bind_eq_ok.mp h
    by_cases hb : b = 0
    · simp only [hb, if_true, pure_eq_ok] at h
      exact Or.inr (Or.inr h.symm)
    · simp only [hb, if_false, bind_eq_ok, pure_eq_ok] at h
      grind
  | power =>
    obtain ⟨⟨base, exponent⟩, -, h⟩ := bind_eq_ok.mp h
    simp only at h
    split at h
    · cases h
    · simp only [bind_eq_ok, pure_eq_ok] at h
      grind
  | _ => simp only [arithmetic, comparison, bind_eq_ok, pure_eq_ok] at h; grind

theorem arithmetic_nodes {op : Operator.Arithmetic} {params : List Term} {t : Term}
    (h : arithmetic op params = .ok t) : t.nodes = 0 := by
  rcases arithmetic_ok h with ⟨n, rfl⟩ | ⟨b, rfl⟩ | rfl <;> rfl

/-! Sequences and constructed values -/

theorem concatenation_nodes {lists items : List Term} (hl : nodesIn lists = 0)
    (h : concatenation lists = .ok items) : nodesIn items = 0 := by
  induction lists generalizing items with
  | nil => cases h; rfl
  | cons t rest ih =>
    simp only [nodesIn] at hl
    obtain ⟨args, hargs, h⟩ := bind_eq_ok.mp h
    obtain ⟨more, hmore, h⟩ := bind_eq_ok.mp h
    cases h
    have h1 := dataArgs_nodes (by omega) hargs
    have h2 := ih (by omega) hmore
    simp [h1, h2]

theorem collect_nodes {op : Operator} {name : String} {params : List Term} {t : Term} (hp : Evaluated op params)
    (hparam : op.params = [.eagerSeq]) (h : collect name params = .ok t) : t.nodes = 0 := by
  obtain ⟨items, hitems, h⟩ := bind_eq_ok.mp h
  cases h
  rw [Term.nodes]
  exact hp.sequenceArg hitems (by rw [hparam]; rfl) rfl

theorem takeApart_nodes {op : Operator} {name : String} {params : List Term} {t : Term}
    (hp : Evaluated op params) (hparam : op.params = [.eager]) (h : takeApart name params = .ok t) :
    t.nodes = 0 := by
  obtain ⟨u, hu, h⟩ := bind_eq_ok.mp h
  obtain ⟨args, hargs, h⟩ := bind_eq_ok.mp h
  cases h
  rw [Term.nodes]
  exact dataArgs_nodes (hp.arg hu (by rw [hparam]; rfl) rfl) hargs

theorem composite_nodes {op : Operator.Composite} {params : List Term} {t : Term}
    (hp : Evaluated (.composite op) params) (h : composite op params = .ok t) : t.nodes = 0 := by
  cases op with
  | length =>
    obtain ⟨items, -, h⟩ := bind_eq_ok.mp h
    cases h; rfl
  | index =>
    obtain ⟨position, -, h⟩ := bind_eq_ok.mp h
    obtain ⟨items, hitems, h⟩ := bind_eq_ok.mp h
    cases h
    have hn := hp.sequenceArg hitems rfl rfl
    split
    · exact nodes_get_of_nodesIn hn _
    · rfl
  | reverse =>
    obtain ⟨items, hitems, h⟩ := bind_eq_ok.mp h
    cases h
    have hn := hp.sequenceArg hitems rfl rfl
    rw [Term.nodes]
    exact nodesIn_of_subset (fun t ht => List.mem_reverse.mp ht) hn
  | tuple => exact collect_nodes hp rfl h
  | tupleElements => exact takeApart_nodes hp rfl h
  | list => exact collect_nodes hp rfl h
  | listElements => exact takeApart_nodes hp rfl h
  | listAppend =>
    obtain ⟨lists, hlists, h⟩ := bind_eq_ok.mp h
    obtain ⟨items, hitems, h⟩ := bind_eq_ok.mp h
    cases h
    rw [Term.nodes]
    exact concatenation_nodes (hp.sequenceArg hlists rfl rfl) hitems
  | listHead =>
    obtain ⟨u, hu, h⟩ := bind_eq_ok.mp h
    obtain ⟨args, hargs, h⟩ := bind_eq_ok.mp h
    cases h
    exact nodes_get_of_nodesIn (dataArgs_nodes (hp.arg hu rfl rfl) hargs) 0
  | listTail =>
    obtain ⟨u, hu, h⟩ := bind_eq_ok.mp h
    obtain ⟨args, hargs, h⟩ := bind_eq_ok.mp h
    have hn := dataArgs_nodes (hp.arg hu rfl rfl) hargs
    cases args with
    | nil => cases h; rfl
    | cons first rest =>
      cases h
      simp only [nodesIn] at hn
      simp only [Term.nodes]; omega
  | vector => exact collect_nodes hp rfl h
  | vectorElements => exact takeApart_nodes hp rfl h
  | datatypeValue =>
    obtain ⟨u, -, h⟩ := bind_eq_ok.mp h
    obtain ⟨name, -, h⟩ := bind_eq_ok.mp h
    obtain ⟨args, hargs, h⟩ := bind_eq_ok.mp h
    cases h
    rw [Term.nodes]
    exact hp.sequenceArg hargs rfl rfl

/-! Maps -/

theorem keyTuple?_nodes {t key : Term} {value : List Term} (ht : t.nodes = 0)
    (h : keyTuple? t = some (key, value)) : key.nodes = 0 ∧ nodesIn value = 0 := by
  cases t with
  | data constructor args =>
    rw [Term.nodes] at ht
    simp only [keyTuple?, dataArgs?] at h
    split at h
    · rename_i hargs
      split at hargs
      · cases hargs
        cases h
        simpa [nodesIn] using ht
      · cases hargs
    · cases h
  | _ => cases h

theorem addTuples_nodes {acc : Entries} {tuples : List Term} {out : Option Entries}
    (hacc : nodesInEntries acc = 0) (ht : nodesIn tuples = 0) (h : addTuples acc tuples = .ok out) :
    (mapOrEmpty out).nodes = 0 := by
  induction tuples generalizing acc with
  | nil => cases h; simpa [mapOrEmpty, Term.nodes] using hacc
  | cons t rest ih =>
    simp only [nodesIn] at ht
    obtain ⟨⟨key, value⟩, hkey, h⟩ := bind_eq_ok.mp h
    have hkv := keyTuple?_nodes (by omega) (expect_eq_ok.mp hkey)
    simp only at h
    rcases hput : acc.putNew? key value with _ | acc'
    · rw [hput] at h
      cases h; rfl
    · rw [hput] at h
      refine ih ?_ (by omega) h
      rw [Entries.putNew?_eq_some hput]
      exact Entries.nodesIn_put hkv.1 hkv.2 hacc

theorem addEntries?_nodes {acc more out : Entries} (hacc : nodesInEntries acc = 0)
    (hmore : nodesInEntries more = 0) (h : addEntries? acc more = some out) : nodesInEntries out = 0 := by
  induction more generalizing acc with
  | nil => cases h; exact hacc
  | cons e rest ih =>
    obtain ⟨key, value⟩ := e
    simp only [nodesInEntries] at hmore
    simp only [addEntries?, List.foldlM_cons, Option.bind_eq_bind, Option.bind_eq_some_iff] at h
    obtain ⟨acc', hput, h⟩ := h
    refine ih ?_ (by omega) h
    rw [Entries.putNew?_eq_some hput]
    exact Entries.nodesIn_put (by omega) (by omega) hacc

theorem unite_nodes {acc : Entries} {maps : List Term} {out : Option Entries}
    (hacc : nodesInEntries acc = 0) (hm : nodesIn maps = 0) (h : unite acc maps = .ok out) :
    (mapOrEmpty out).nodes = 0 := by
  induction maps generalizing acc with
  | nil => cases h; simpa [mapOrEmpty, Term.nodes] using hacc
  | cons t rest ih =>
    simp only [nodesIn] at hm
    obtain ⟨more, hmore, h⟩ := bind_eq_ok.mp h
    have hn := entries_nodes (by omega) hmore
    rcases hadd : addEntries? acc more with _ | acc'
    · rw [hadd] at h
      cases h; rfl
    · rw [hadd] at h
      exact ih (addEntries?_nodes hacc hn hadd) (by omega) h

theorem keepAll_nodes {acc more : Entries} (hacc : nodesInEntries acc = 0) (hmore : nodesInEntries more = 0) :
    nodesInEntries (more.foldl (fun acc e => Entries.keepOrPut e.1 e.2 acc) acc) = 0 := by
  induction more generalizing acc with
  | nil => exact hacc
  | cons e rest ih =>
    obtain ⟨key, value⟩ := e
    simp only [nodesInEntries] at hmore
    have hkey : key.nodes = 0 := by omega
    have hvalue : nodesIn value = 0 := by omega
    exact ih (Entries.nodesIn_keepOrPut hkey hvalue hacc) (by omega)

theorem override_nodes {acc out : Entries} {maps : List Term} (hacc : nodesInEntries acc = 0)
    (hm : nodesIn maps = 0) (h : override acc maps = .ok out) : nodesInEntries out = 0 := by
  induction maps generalizing acc with
  | nil => cases h; exact hacc
  | cons t rest ih =>
    simp only [nodesIn] at hm
    obtain ⟨more, hmore, h⟩ := bind_eq_ok.mp h
    exact ih (keepAll_nodes hacc (entries_nodes (by omega) hmore)) (by omega) h

theorem mapping_nodes {op : Operator.Mapping} {params : List Term} {t : Term}
    (hp : Evaluated (.mapping op) params) (h : mapping op params = .ok t) : t.nodes = 0 := by
  cases op with
  | map =>
    obtain ⟨tuples, htuples, h⟩ := bind_eq_ok.mp h
    obtain ⟨out, hout, h⟩ := bind_eq_ok.mp h
    cases h
    exact addTuples_nodes rfl (hp.sequenceArg htuples rfl rfl) hout
  | empty => cases h; rfl
  | lookup =>
    obtain ⟨u, hu, h⟩ := bind_eq_ok.mp h
    obtain ⟨es, hes, h⟩ := bind_eq_ok.mp h
    obtain ⟨key, -, h⟩ := bind_eq_ok.mp h
    have hn := entries_nodes (hp.arg hu rfl rfl) hes
    cases h
    rcases hget : Entries.get? key es with _ | value
    · rfl
    · simpa using Entries.nodesIn_get? hn hget
  | override =>
    obtain ⟨maps, hmaps, h⟩ := bind_eq_ok.mp h
    obtain ⟨out, hout, h⟩ := bind_eq_ok.mp h
    cases h
    rw [Term.nodes]
    exact override_nodes rfl (hp.sequenceArg hmaps rfl rfl) hout
  | unite =>
    obtain ⟨maps, hmaps, h⟩ := bind_eq_ok.mp h
    obtain ⟨out, hout, h⟩ := bind_eq_ok.mp h
    cases h
    exact unite_nodes rfl (hp.sequenceArg hmaps rfl rfl) hout
  | domain =>
    obtain ⟨u, hu, h⟩ := bind_eq_ok.mp h
    obtain ⟨es, hes, h⟩ := bind_eq_ok.mp h
    cases h
    rw [Term.nodes]
    exact Entries.nodesIn_keys (entries_nodes (hp.arg hu rfl rfl) hes)
  | elements =>
    obtain ⟨u, hu, h⟩ := bind_eq_ok.mp h
    obtain ⟨es, hes, h⟩ := bind_eq_ok.mp h
    have hn := nodesInEntries_eq_zero.mp (entries_nodes (hp.arg hu rfl rfl) hes)
    cases h
    rw [Term.nodes, nodesIn_eq_zero]
    intro t ht
    obtain ⟨e, he, rfl⟩ := List.mem_map.mp ht
    simp [Term.nodes, hn e he]
  | delete =>
    obtain ⟨u, hu, h⟩ := bind_eq_ok.mp h
    obtain ⟨es, hes, h⟩ := bind_eq_ok.mp h
    obtain ⟨k, -, h⟩ := bind_eq_ok.mp h
    obtain ⟨keys, -, h⟩ := bind_eq_ok.mp h
    cases h
    rw [Term.nodes]
    exact Entries.nodesIn_without (entries_nodes (hp.arg hu rfl rfl) hes)

/-! Sets -/

theorem union_nodes {acc sets items : List Term} (hacc : nodesIn acc = 0) (hs : nodesIn sets = 0)
    (h : union acc sets = .ok items) : nodesIn items = 0 := by
  induction sets generalizing acc with
  | nil => cases h; exact hacc
  | cons t rest ih =>
    simp only [nodesIn] at hs
    obtain ⟨more, hmore, h⟩ := bind_eq_ok.mp h
    exact ih (nodesIn_insertAll (elements_nodes (by omega) hmore) hacc) (by omega) h

theorem firstOutside_cases (excluded candidates : List Term) :
    firstOutside excluded candidates = .empty ∨ firstOutside excluded candidates ∈ candidates := by
  unfold firstOutside
  rcases hf : candidates.find? fun t => !excluded.contains t with _ | t
  · exact Or.inl rfl
  · exact Or.inr (List.mem_of_find?_eq_some hf)

theorem firstOutside_nodes {excluded candidates : List Term} (h : nodesIn candidates = 0) :
    (firstOutside excluded candidates).nodes = 0 := by
  rcases firstOutside_cases excluded candidates with hout | hmem
  · rw [hout]
    rfl
  · exact nodesIn_eq_zero.mp h _ hmem

theorem freshAtom_nodes (excluded : List Term) : (freshAtom excluded).nodes = 0 := by
  refine firstOutside_nodes (nodesIn_eq_zero.mpr fun t ht => ?_)
  obtain ⟨n, -, rfl⟩ := List.mem_map.mp ht
  rfl

theorem elementNotIn_nodes {ty : Ty} {excluded : List Term} {t : Term} (h : elementNotIn ty excluded = .ok t) :
    t.nodes = 0 := by
  have hint : nodesIn (integersFromZero (excluded.length + 1)) = 0 := by
    rw [nodesIn_eq_zero]
    intro t ht
    obtain ⟨n, -, rfl⟩ := List.mem_map.mp ht
    rfl
  have hletters : nodesIn letters = 0 := by
    rw [nodesIn_eq_zero]
    intro t ht
    obtain ⟨c, -, rfl⟩ := List.mem_map.mp ht
    rfl
  unfold elementNotIn at h
  split at h
  · cases h; exact firstOutside_nodes rfl
  · cases h; exact firstOutside_nodes hint
  · cases h; exact firstOutside_nodes hint
  · cases h; exact firstOutside_nodes hletters
  · cases h; exact freshAtom_nodes excluded
  · cases h

theorem pick_mem {items : List Term} {choices choices' : ChoiceStream} {t : Term}
    (h : Sequence.pick items choices = some (t, choices')) : t ∈ items := by
  unfold Sequence.pick at h
  split at h
  · cases h
  · rename_i hne
    have hlen : 0 < items.length := List.length_pos_iff.mpr (by simpa using hne)
    have hlt := ChoiceStream.nextIndex_lt choices hlen
    simp only [Option.some.injEq, Prod.mk.injEq] at h
    rw [← h.1, Sequence.get, List.getD_eq_getElem?_getD, List.getElem?_eq_getElem hlt]
    exact List.getElem_mem hlt

theorem collection_nodes {op : Operator.Collection} {params : List Term} {t : Term}
    {choices choices' : ChoiceStream} (hp : Evaluated (.collection op) params)
    (h : collection op params choices = .ok (t, choices')) : t.nodes = 0 := by
  cases op with
  | set =>
    obtain ⟨items, hitems, h⟩ := bind_eq_ok.mp h
    cases h
    rw [Term.nodes]
    exact nodesIn_insertAll (hp.sequenceArg hitems rfl rfl) rfl
  | empty => cases h; rfl
  | isIn =>
    obtain ⟨u, -, h⟩ := bind_eq_ok.mp h
    obtain ⟨v, -, h⟩ := bind_eq_ok.mp h
    obtain ⟨items, -, h⟩ := bind_eq_ok.mp h
    cases h; rfl
  | elements =>
    obtain ⟨u, hu, h⟩ := bind_eq_ok.mp h
    obtain ⟨items, hitems, h⟩ := bind_eq_ok.mp h
    cases h
    rw [Term.nodes, nodesIn_flatten]
    exact elements_nodes (hp.arg hu rfl rfl) hitems
  | unite =>
    obtain ⟨sets, hsets, h⟩ := bind_eq_ok.mp h
    obtain ⟨items, hitems, h⟩ := bind_eq_ok.mp h
    cases h
    rw [Term.nodes]
    exact union_nodes rfl (hp.sequenceArg hsets rfl rfl) hitems
  | difference =>
    obtain ⟨u, hu, h⟩ := bind_eq_ok.mp h
    obtain ⟨left, hleft, h⟩ := bind_eq_ok.mp h
    obtain ⟨v, -, h⟩ := bind_eq_ok.mp h
    obtain ⟨right, -, h⟩ := bind_eq_ok.mp h
    cases h
    rw [Term.nodes]
    exact nodesIn_of_subset (fun t ht => (List.mem_filter.mp ht).1) (elements_nodes (hp.arg hu rfl rfl) hleft)
  | size =>
    obtain ⟨u, -, h⟩ := bind_eq_ok.mp h
    obtain ⟨items, -, h⟩ := bind_eq_ok.mp h
    cases h; rfl
  | insert =>
    obtain ⟨u, hu, h⟩ := bind_eq_ok.mp h
    obtain ⟨v, hv, h⟩ := bind_eq_ok.mp h
    obtain ⟨items, hitems, h⟩ := bind_eq_ok.mp h
    cases h
    rw [Term.nodes]
    exact nodesIn_insert (hp.arg hu rfl rfl) (elements_nodes (hp.arg hv rfl rfl) hitems)
  | someElement =>
    obtain ⟨u, hu, h⟩ := bind_eq_ok.mp h
    obtain ⟨items, hitems, h⟩ := bind_eq_ok.mp h
    have hn := elements_nodes (hp.arg hu rfl rfl) hitems
    rcases hpick : Sequence.pick (flatten items) choices with _ | ⟨v, rest⟩
    · rw [hpick] at h
      cases h; rfl
    · rw [hpick] at h
      cases h
      exact nodesIn_eq_zero.mp (by simpa using hn) _ (pick_mem hpick)
  | elementNotIn =>
    obtain ⟨u, -, h⟩ := bind_eq_ok.mp h
    obtain ⟨v, -, h⟩ := bind_eq_ok.mp h
    obtain ⟨items, -, h⟩ := bind_eq_ok.mp h
    obtain ⟨ty, -, h⟩ := bind_eq_ok.mp h
    obtain ⟨w, hw, h⟩ := bind_eq_ok.mp h
    cases h
    exact elementNotIn_nodes hw

/-! ## Entities -/

theorem usedAtoms_nodes {s : Entities} (hs : s.Closed) : nodesIn (usedAtoms s) = 0 := by
  have h : (s.get Entity.usedAtoms).nodes = 0 := hs.nodes_get (by decide)
  unfold usedAtoms
  cases hu : s.get Entity.usedAtoms with
  | set elements => rw [hu, Term.nodes] at h; exact h
  | _ => rfl

theorem storeMap_nodes {s : Entities} (hs : s.Closed) : nodesInEntries (storeMap s) = 0 := by
  have h : (s.get Entity.store).nodes = 0 := hs.nodes_get (by decide)
  unfold storeMap
  cases hm : s.get Entity.store with
  | map entries => rw [hm, Term.nodes] at h; exact h
  | _ => rfl

theorem variableParts_nodes {t location : Term} {ty : Ty} (ht : t.nodes = 0)
    (h : variableParts t = .ok (location, ty)) : location.nodes = 0 := by
  obtain ⟨args, hargs, h⟩ := bind_eq_ok.mp h
  have hn := dataArgs_nodes ht hargs
  split at h
  · cases h
    simp only [nodesIn] at hn
    omega
  · cases h

theorem assignment_nodes {params : List Term} {store out : Entries} (hp : Evaluated (.effect .assign) params)
    (hs : nodesInEntries store = 0) (h : assignment params store = .ok out) : nodesInEntries out = 0 := by
  obtain ⟨u, hu, h⟩ := bind_eq_ok.mp h
  obtain ⟨⟨location, ty⟩, hparts, h⟩ := bind_eq_ok.mp h
  obtain ⟨value, hvalue, h⟩ := bind_eq_ok.mp h
  have hloc := variableParts_nodes (hp.arg hu rfl rfl) hparts
  have hval := hp.arg hvalue rfl rfl
  split at h
  · cases h
  · split at h
    · cases h
    · cases h
      exact Entries.nodesIn_put hloc (by simpa [nodesIn] using hval) hs

theorem contents_nodes {params : List Term} {store : Entries} {t : Term} (hs : nodesInEntries store = 0)
    (h : contents params store = .ok t) : t.nodes = 0 := by
  obtain ⟨u, -, h⟩ := bind_eq_ok.mp h
  obtain ⟨⟨location, ty⟩, -, h⟩ := bind_eq_ok.mp h
  simp only at h
  split at h
  · cases h
  · cases h
  · cases h
    rw [nodes_ofSequence]
    exact Entries.nodesIn_get? hs ‹_›

/-- The rules on entities keep them closed, and take their nodes from the parameters and the input. -/
theorem Effected.closed {params : List Term} {s s' : Entities} {op : Operator.Effect} {t : Term}
    (h : Effected params s op t s') (hs : s.Closed) (hp : Evaluated (.effect op) params) :
    t.closed = true ∧ s'.Closed ∧ t.nodes + s'.inputNodes ≤ s.inputNodes := by
  cases h with
  | yield =>
    exact ⟨rfl, hs.put rfl, by simp [Entities.inputNodes_put (show Entity.yielded ≠ _ by decide), Term.nodes]⟩
  | yieldOnValue hvalue =>
    have hn := hp 0 .eager t rfl rfl hvalue
    refine ⟨(closed_of_nodes hn).1, hs.put rfl, ?_⟩
    rw [Entities.inputNodes_put (show Entity.yielded ≠ _ by decide)]
    omega
  | given hfind =>
    have hn := hs.nodes hfind (by decide)
    exact ⟨(closed_of_nodes hn).1, hs, by omega⟩
  | @print values hvalues =>
    have hn := hp 0 .eagerSeq (.seq values) rfl rfl hvalues
    have hout : (s.get Entity.standardOut).nodes = 0 := hs.nodes_get (by decide)
    refine ⟨rfl, hs.put ?_, ?_⟩
    · simp [Term.nodes, Entities.stream, hout] at hn ⊢
      exact hn
    · rw [Entities.append, Entities.inputNodes_put (show Entity.standardOut ≠ _ by decide)]
      simp [Term.nodes]
  | read hpop =>
    obtain ⟨hc, hs', hn⟩ := hs.popFirst hpop
    exact ⟨hc, hs', by omega⟩
  | useAtomNotIn hexcluded =>
    have hn := freshAtom_nodes
    refine ⟨(closed_of_nodes (hn _)).1, hs.put ?_, ?_⟩
    · rw [Term.nodes]
      exact nodesIn_insert (hn _) (usedAtoms_nodes hs)
    · rw [Entities.inputNodes_put (show Entity.usedAtoms ≠ _ by decide), hn]
      omega
  | @allocateVariable ty s₁ hty hs₁ =>
    have hn := freshAtom_nodes (usedAtoms s)
    have hclosed : s₁.Closed := by
      rw [hs₁]
      refine hs.put ?_
      rw [Term.nodes]
      exact nodesIn_insert hn (usedAtoms_nodes hs)
    refine ⟨?_, hclosed.put ?_, ?_⟩
    · refine (closed_of_nodes ?_).1
      simp [Term.nodes, hn]
    · rw [Term.nodes]
      exact Entries.nodesIn_put hn rfl (storeMap_nodes hclosed)
    · rw [Entities.inputNodes_put (show Entity.store ≠ _ by decide), hs₁,
        Entities.inputNodes_put (show Entity.usedAtoms ≠ _ by decide)]
      simp [Term.nodes, hn]
  | assign hstore =>
    refine ⟨rfl, hs.put ?_, ?_⟩
    · rw [Term.nodes]
      exact assignment_nodes hp (storeMap_nodes hs) hstore
    · rw [Entities.inputNodes_put (show Entity.store ≠ _ by decide)]
      simp [Term.nodes]
  | assigned hcontents =>
    have hn := contents_nodes (storeMap_nodes hs) hcontents
    exact ⟨(closed_of_nodes hn).1, hs, by omega⟩

end Rules

/-! ## All rules that step no argument -/

namespace Engine

theorem evaluated_of_pending {op : Operator} {params : List Term} (h : pending op params = [])
    (hc : allClosed params = true) : Evaluated op params := by
  intro i p t hp he ht
  have hclosed := allClosed_iff.mp hc t (List.mem_of_getElem? ht)
  exact nodes_of_closed_value hclosed (isValue_of_pending_nil h hp he ht)

theorem param_closed {params : List Term} {i : Nat} {t : Term} (hc : allClosed params = true)
    (h : params[i]? = some t) : t.closed = true ∧ t.nodes ≤ nodesIn params :=
  ⟨allClosed_iff.mp hc t (List.mem_of_getElem? h), nodes_le_of_mem (List.mem_of_getElem? h)⟩

/-- A rule makes no nodes: those of its result come from its parameters or from the input. -/
theorem Fired.closed {params : List Term} {op : Operator} {t : Term} {m m' : Machine}
    (h : Fired params m op t m') (hs : m.entities.Closed) (hc : allClosed params = true)
    (hp : Evaluated op params) :
    t.closed = true ∧ m'.entities.Closed ∧ m'.entities.inputNodes ≤ m.entities.inputNodes ∧
      t.nodes + m'.entities.inputNodes ≤ nodesIn params + m.entities.inputNodes := by
  have hvalue : t.nodes = 0 → t.closed = true ∧ m.entities.Closed ∧
      m.entities.inputNodes ≤ m.entities.inputNodes ∧
      t.nodes + m.entities.inputNodes ≤ nodesIn params + m.entities.inputNodes := by
    intro hn
    exact ⟨(closed_of_nodes hn).1, hs, Nat.le_refl _, by omega⟩
  cases h with
  | effect => exact hvalue rfl
  | choice hoptions hpick =>
    obtain ⟨hclosed, hnodes⟩ := param_closed hc hoptions
    rw [Term.closed, allClosed_iff] at hclosed
    rw [Term.nodes] at hnodes
    have hmem := pick_mem hpick
    have hle := nodes_le_of_mem hmem
    exact ⟨hclosed t hmem, hs, Nat.le_refl _, by simp only; omega⟩
  | ifTrueElse _ ht =>
    obtain ⟨hclosed, hnodes⟩ := param_closed hc ht
    exact ⟨hclosed, hs, Nat.le_refl _, by omega⟩
  | entities he =>
    obtain ⟨hclosed, hs', hnodes⟩ := he.closed hs hp
    exact ⟨hclosed, hs', by simp only; omega, by simp only; omega⟩
  | logic h => exact hvalue (logic_nodes h)
  | arithmetic h => exact hvalue (arithmetic_nodes h)
  | composite h => exact hvalue (composite_nodes hp h)
  | mapping h => exact hvalue (mapping_nodes hp h)
  | collection h => exact hvalue (collection_nodes hp h)

end Engine

end TermMachine
