import TermMachine.Proofs.Rebuilding
import TermMachine.Proofs.RoundTrip

/-!
# Printed values evaluate to themselves

A collection prints as the notation for building it: reading it gives a node over its elements, and
evaluating that node gives the collection again. So a printed value can stand in a program, though what is
read is in general another term than the value.

A map prints an entry as a key and the term that the value at the key denotes, in parentheses if it is not
one term alone; read as a tuple, these parts are joined again. Sets and maps list what they hold in
increasing order, so inserting one thing after the other restores them.

Proved: `printed_values_evaluate`. A printable value is read back as a term whose run ends with that value,
from every state of the entities, which it leaves as they were.
-/

namespace TermMachine

open Term Engine Grammar

/-! ## Values with a notation -/

/-- The values that are no sequences and have a notation. -/
inductive Printable : Term → Prop
  | constant {v : Term} : Constant v → Printable v
  | data {name : String} {vs : List Term} : name ∈ [listName, tupleName, vectorName] →
      (∀ v ∈ vs, Printable v) → Printable (.data name vs)
  | set {vs : List Term} : Increasing vs → (∀ v ∈ vs, Printable v) → Printable (.set vs)
  | map {entries : Entries} : Increasing entries.keys → (∀ e ∈ entries, Printable e.1) →
      (∀ e ∈ entries, ∀ v ∈ e.2, Printable v) → Printable (.map entries)

/-- What a run may end with: one such value, or a sequence of them. -/
inductive PrintableResult : Term → Prop
  | single {v : Term} : Printable v → PrintableResult v
  | several {vs : List Term} : vs.length ≠ 1 → (∀ v ∈ vs, Printable v) → PrintableResult (.seq vs)

/-- A value is read back as a term that settles to it. -/
def ReadsBack (v : Term) : Prop := ∃ t, Prints .term v.chars t ∧ Settles t v

theorem readsBack_all {vs : List Term} (h : ∀ v ∈ vs, ReadsBack v) :
    ∃ ts, List.Forall₂ (Prints .term) (vs.map chars) ts ∧ List.Forall₂ Settles ts vs := by
  induction vs with
  | nil => exact ⟨[], .nil, .nil⟩
  | cons v rest ih =>
    obtain ⟨t, hprints, hsettles⟩ := h v (by simp)
    obtain ⟨ts, hprints', hsettles'⟩ := ih fun u hu => h u (List.mem_cons_of_mem _ hu)
    exact ⟨t :: ts, .cons hprints hprints', .cons hsettles hsettles'⟩

/-! ## Constants -/

theorem Constant.isValue {v : Term} (h : Constant v) : v.isValue = true ∧ v.isSequence = false := by
  cases h <;> exact ⟨rfl, rfl⟩

theorem Constant.readsBack {v : Term} (h : Constant v) : ReadsBack v :=
  ⟨v, h.prints, .value h.isValue.1 h.isValue.2⟩

theorem Printable.isPrintedChar {c : Char} (h : Printable (.char c)) : isPrintedChar c = true := by
  cases h with
  | constant h =>
    cases h with
    | char h => exact h

/-- A character with a notation of its own is not written by its code point in a string either. -/
theorem isWrittenByCode_of_isPrintedChar {c : Char} (h : isPrintedChar c = true) : Text.isWrittenByCode c = false := by
  have hshort : (Text.escapeInString c).length ≤ 2 := by
    unfold Text.escapeInString
    rcases hescape : Text.shortEscape? c with _ | letter
    · have hplain : Text.isPlain c = true := by
        simp only [TermMachine.isPrintedChar, Bool.or_eq_true, decide_eq_true_eq] at h
        rcases h with ((h | rfl) | rfl) | rfl
        · have hascii := h
          simp only [Text.isPrintableAscii, Bool.and_eq_true, decide_eq_true_eq] at hascii
          rw [Text.isPlain, if_pos (by omega), h]
        all_goals cases hescape
      simp only [hplain, if_true]
      split <;> simp
    · simp
  have hlong : 4 ≤ (Text.codePointEscape c).length := by
    simp [Text.codePointEscape]
  refine decide_eq_false fun heq => ?_
  rw [heq] at hshort
  omega

/-! ## Nodes that build a collection -/

/-- An operator over a run of arguments takes any number of them. -/
theorem construct_run {op : Operator} {p : Param} (hop : op.params = [p]) (hp : p.isSequence = true) (args : List Term) :
    Construction.construct op.name args = .ok (.node op [.seq (flatten args)]) := by
  have hname : Construction.construct op.name args = Construction.apply (.operator op) args :=
    construct_name (.operator op) args
  have hbind : Construction.bind op args = .ok [.seq (flatten args)] := by
    simp [Construction.bind, Construction.bindTo, Operator.arity, hop, hp, Arity.admits]
  rw [hname, Construction.apply, hbind]

/-! ## Lists, tuples, vectors and sets -/

/-- The name of a collection is that of the operator that builds it. -/
theorem construct_of_settles {op : Operator} {ts vs : List Term} (hop : op.params = [.eagerSeq])
    (h : List.Forall₂ Settles ts vs) : Construction.construct op.name ts = .ok (.node op [.seq ts]) := by
  have hflat := flatten_of_no_sequence (no_sequence_of_settles h)
  rw [construct_run hop rfl, hflat]

theorem readsBack_applied {c : Operator.Composite} {vs : List Term}
    (hop : (Operator.composite c).params = [.eagerSeq]) (hname : (Operator.composite c).name ≠ listName)
    (hrule : Rules.composite c [.seq vs] = .ok (.data (Operator.composite c).name vs))
    (h : ∀ v ∈ vs, ReadsBack v) : ReadsBack (.data (Operator.composite c).name vs) := by
  obtain ⟨ts, hprints, hsettles⟩ := readsBack_all h
  have hconstruct := construct_of_settles hop hsettles
  rw [← charsOfAll_eq_map] at hprints
  have hid := Catalog.isIdentifier_name (.operator (.composite c))
  refine ⟨_, ?_, settles_collect hop hrule hsettles⟩
  rw [chars_data_of_ne hname]
  exact (prints_call hid.1 hid.2 hprints hconstruct).of_primary

theorem eq_map_char_of_mapM {vs : List Term} {text : List Char} (h : vs.mapM asChar? = some text) :
    vs = text.map char := by
  induction vs generalizing text with
  | nil =>
    cases h
    rfl
  | cons v rest ih =>
    cases v with
    | char d =>
      simp only [List.mapM_cons, asChar?, Option.pure_def, Option.bind_eq_bind, Option.bind_some,
        Option.bind_eq_some_iff, Option.some.injEq] at h
      obtain ⟨text', htext', rfl⟩ := h
      rw [ih htext', List.map_cons]
    | _ => simp [asChar?] at h

theorem readsBack_list {vs : List Term} (hvs : ∀ v ∈ vs, Printable v) (h : ∀ v ∈ vs, ReadsBack v) :
    ReadsBack (.data listName vs) := by
  -- a list of characters is printed as a string, and is read back as it is
  by_cases hstring : ∃ c cs, vs.mapM asChar? = some (c :: cs)
  · obtain ⟨c, cs, htext⟩ := hstring
    obtain rfl := eq_map_char_of_mapM htext
    have hchars : ∀ d ∈ c :: cs, Text.isWrittenByCode d = false := by
      intro d hd
      have hd' := hvs (.char d) (List.mem_map_of_mem hd)
      exact isWrittenByCode_of_isPrintedChar hd'.isPrintedChar
    exact Constant.readsBack (.string (by simp) hchars)
  · obtain ⟨ts, hprints, hsettles⟩ := readsBack_all h
    have hconstruct := construct_of_settles (rfl : (Operator.composite .list).params = [.eagerSeq]) hsettles
    have hlist := prints_list hprints hconstruct
    have hchars : (data listName vs).chars = '[' :: commaSeparated (vs.map chars) ++ [']'] := by
      rw [chars_list, ← charsOfAll_eq_map]
      split
      · rename_i c cs htext
        exact absurd ⟨c, cs, htext⟩ hstring
      · rfl
    exact ⟨_, hchars ▸ hlist.of_primary, settles_collect rfl rfl hsettles⟩

theorem readsBack_set {vs : List Term} (hvs : Increasing vs) (h : ∀ v ∈ vs, ReadsBack v) : ReadsBack (.set vs) := by
  obtain ⟨ts, hprints, hsettles⟩ := readsBack_all h
  have hconstruct := construct_of_settles (rfl : (Operator.collection .set).params = [.eagerSeq]) hsettles
  refine ⟨_, ?_, settles_set hvs hsettles⟩
  by_cases hempty : vs = []
  · subst hempty
    cases hsettles
    exact (prints_emptySet hconstruct).of_primary
  · rw [chars_set hempty, charsOfAll_eq_map]
    exact (prints_set hprints hconstruct).of_primary

/-! ## Maps -/

/-- The value at a key prints like the term that it stands for. -/
theorem charsOfEntries_eq_map (entries : Entries) : charsOfEntries entries
    = entries.map fun e => e.1.chars ++ "|->".toList ++ (ofSequence e.2).chars := by
  induction entries with
  | nil => rfl
  | cons e rest ih =>
    obtain ⟨key, items⟩ := e
    match items with
    | [] => rw [charsOfEntries, ih, List.map_cons, ofSequence, chars_seq, List.append_assoc] <;> simp
    | [single] => rw [charsOfEntries, ih, List.map_cons, ofSequence]
    | first :: second :: more =>
      rw [charsOfEntries, ih, List.map_cons, ofSequence, chars_seq, List.append_assoc] <;> simp

/-- The value at a key is read as a term that contributes its items to a tuple. -/
theorem prints_items {items ts : List Term} (hprints : List.Forall₂ (Prints .term) (items.map chars) ts)
    (hsettles : List.Forall₂ Settles ts items) :
    ∃ t, Prints .term (ofSequence items).chars t ∧ t.elements = ts := by
  have hflat := no_sequence_of_settles hsettles
  have hlen := hsettles.length_eq
  by_cases hone : items.length = 1
  · obtain ⟨v, rfl⟩ := List.length_eq_one_iff.mp hone
    obtain ⟨t, rfl⟩ := List.length_eq_one_iff.mp (hlen.trans hone)
    cases hprints with
    | cons ht _ => exact ⟨t, ht, elements_of_not_isSequence (hflat t (by simp))⟩
  · have hgroup := prints_group hprints
    rw [flatten_of_no_sequence hflat, ofSequence_of_length (by omega)] at hgroup
    refine ⟨.seq ts, ?_, rfl⟩
    rw [ofSequence_of_length hone, chars_seq, charsOfAll_eq_map]
    exact hgroup.of_primary

theorem readsBack_entry {e : Term × List Term} (hkey : ReadsBack e.1) (hitems : ∀ v ∈ e.2, ReadsBack v) :
    ∃ t, PrintsAs .entry IsMaplet (e.1.chars ++ "|->".toList ++ (ofSequence e.2).chars) t ∧
      Settles t (Rules.entryTuple e) := by
  obtain ⟨k, hprints, hsettles⟩ := hkey
  obtain ⟨ts, hprints', hsettles'⟩ := readsBack_all hitems
  obtain ⟨u, hu, helements⟩ := prints_items hprints' hsettles'
  have hflat : flatten [k, u] = k :: ts := by
    simp [helements, elements_of_not_isSequence hsettles.no_sequence]
  have hconstruct := construct_run (rfl : (Operator.composite .tuple).params = [.eagerSeq]) rfl [k, u]
  rw [hflat] at hconstruct
  exact ⟨_, prints_maplet hprints hu hconstruct, settles_collect rfl rfl (.cons hsettles hsettles')⟩

theorem readsBack_entries {entries : Entries} (hkeys : ∀ e ∈ entries, ReadsBack e.1)
    (hitems : ∀ e ∈ entries, ∀ v ∈ e.2, ReadsBack v) :
    ∃ ts, List.Forall₂ (PrintsAs .entry IsMaplet) (charsOfEntries entries) ts ∧
      List.Forall₂ Settles ts (entries.map Rules.entryTuple) := by
  rw [charsOfEntries_eq_map]
  induction entries with
  | nil => exact ⟨[], .nil, .nil⟩
  | cons e rest ih =>
    obtain ⟨t, hprints, hsettles⟩ := readsBack_entry (hkeys e (by simp)) (hitems e (by simp))
    obtain ⟨ts, hprints', hsettles'⟩ :=
      ih (fun f hf => hkeys f (List.mem_cons_of_mem _ hf)) (fun f hf => hitems f (List.mem_cons_of_mem _ hf))
    exact ⟨t :: ts, .cons hprints hprints', .cons hsettles hsettles'⟩

theorem readsBack_map {entries : Entries} (hincreasing : Increasing entries.keys)
    (hkeys : ∀ e ∈ entries, ReadsBack e.1) (hitems : ∀ e ∈ entries, ∀ v ∈ e.2, ReadsBack v) :
    ReadsBack (.map entries) := by
  obtain ⟨ts, hprints, hsettles⟩ := readsBack_entries hkeys hitems
  have hconstruct := construct_of_settles (rfl : (Operator.mapping .map).params = [.eagerSeq]) hsettles
  refine ⟨_, ?_, settles_map hincreasing hsettles⟩
  by_cases hempty : entries = []
  · subst hempty
    cases hsettles
    exact (prints_emptyMap hconstruct).of_primary
  · have hne : ts ≠ [] := by
      rintro rfl
      have hlen := hsettles.length_eq
      rw [List.length_nil, List.length_map, eq_comm, List.length_eq_zero_iff] at hlen
      exact hempty hlen
    rw [chars_map hempty]
    exact (prints_map hprints hne hconstruct).of_primary

/-! ## Results -/

theorem Printable.readsBack {v : Term} (h : Printable v) : ReadsBack v := by
  induction h with
  | constant h => exact h.readsBack
  | @data name vs hname hvs ih =>
    simp only [List.mem_cons, List.not_mem_nil, or_false] at hname
    rcases hname with rfl | rfl | rfl
    · exact readsBack_list hvs ih
    · exact readsBack_applied (c := .tuple) rfl (by decide) rfl ih
    · exact readsBack_applied (c := .vector) rfl (by decide) rfl ih
  | set hvs _ ih => exact readsBack_set hvs ih
  | map hkeys _ _ ihkeys ihitems => exact readsBack_map hkeys ihkeys ihitems

theorem PrintableResult.runs {v : Term} (h : PrintableResult v) : ∃ t, Prints .term v.chars t ∧ Runs t v := by
  cases h with
  | single h =>
    obtain ⟨t, hprints, hsettles⟩ := h.readsBack
    exact ⟨t, hprints, hsettles.runs⟩
  | @several vs hlen h =>
    obtain ⟨ts, hprints, hsettles⟩ := readsBack_all fun v hv => (h v hv).readsBack
    have hgroup := prints_group hprints
    have hlen' : ts.length ≠ 1 := by rwa [hsettles.length_eq]
    rw [flatten_of_no_sequence (no_sequence_of_settles hsettles), ofSequence_of_length hlen',
      ← charsOfAll_eq_map] at hgroup
    exact ⟨.seq ts, hgroup.of_primary, runs_all hsettles⟩

/-- A printed value is read back, and running what was read ends with the value and changes nothing. -/
theorem printed_values_evaluate {v : Term} (h : PrintableResult v) :
    ∃ t, readTerm v.text = .ok t ∧ ∀ m : Machine, m.config.stepLimit = none →
      ∃ m', run t m = .ok v m' ∧ m'.entities = m.entities ∧ m'.choices = m.choices := by
  obtain ⟨t, hprints, hruns⟩ := h.runs
  refine ⟨t, readTerm_of_prints hprints, fun m hm => ?_⟩
  obtain ⟨m', hrun, hquiet⟩ := run_of_runs hruns hm
  exact ⟨m', hrun, hquiet.entities, hquiet.choices⟩

/-- `{{1,2}|->(),integers | atoms|->-5}` evaluates to itself, here on a machine whose store holds something. -/
theorem printed_values_evaluate_map :
    let v := Term.map [(.set [.int 1, .int 2], []), (.type (.union [.integers, .atoms]), [.int (-5)])]
    let m : Machine := ⟨{ stepLimit := none }, Entities.empty.put Entity.store (.int 7), .ofSeed 1, 0⟩
    ∃ t m', readTerm v.text = .ok t ∧ run t m = .ok v m' ∧ m'.entities = m.entities ∧ m'.choices = m.choices := by
  intro v m
  have hint : ∀ n : Int, fitsInt64 n = true → Printable (.int n) := fun n hn => .constant (.int hn)
  have htype : Printable (.type (.union [.integers, .atoms])) := .constant (.type rfl)
  have hset : Printable (.set [.int 1, .int 2]) := by
    have horder : Term.cmp (.int 1) (.int 2) = .lt := rfl
    exact .set (by simp [Increasing, horder]) (by simp [hint 1 rfl, hint 2 rfl])
  have hmap : Printable v := by
    have horder : Term.cmp (.set [.int 1, .int 2]) (.type (.union [.integers, .atoms])) = .lt := rfl
    refine .map ?_ ?_ ?_
    · simp [Increasing, Entries.keys, horder]
    · simp [hset, htype]
    · simp [hint (-5) rfl]
  obtain ⟨t, hread, hrun⟩ := printed_values_evaluate (.single hmap)
  obtain ⟨m', hm'⟩ := hrun m rfl
  exact ⟨t, m', hread, hm'⟩

end TermMachine
