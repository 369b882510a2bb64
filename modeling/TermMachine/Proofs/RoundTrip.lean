import TermMachine.Proofs.PrintedTypes

/-!
# Printed programs are read back

`Program` says which terms a program can write down: constants, sequences of them, and operators that
hold what they declare. The printer inlines the arguments that a parameter absorbed and drops the
parentheses of an operator without parameters; the reader splits the text again and binds the
arguments anew. The two agree on programs.

A sequence of one prints like a term in parentheses, which is read as that term, so it is no part of a
program.

Proved:
* `Constant.prints`: constants are read back.
* `bind_argumentsOf`: binding the arguments that the parameters of an operator hold gives these
  parameters.
* `printed_programs_read_back`: a program that is printed is read back unchanged.
-/

namespace TermMachine

open Token Grammar Lexeme

/-! ## Constants -/

/-- The values that are written as they are printed. -/
inductive Constant : Term → Prop
  | null : Constant .null
  | bool (b : Bool) : Constant (.bool b)
  | int {n : Int} : fitsInt64 n = true → Constant (.int n)
  | char {c : Char} : isPrintedChar c = true → Constant (.char c)
  | atom {name : String} : (∀ c ∈ name.toList, Text.isShown c = true) → Constant (.atom name)
  | string {text : List Char} : text ≠ [] → (∀ c ∈ text, Text.isWrittenByCode c = false) →
      Constant (Term.string text)
  | signal : Constant Term.signal
  | type {ty : Ty} : ty.isWritable = true → Constant (.type ty)

theorem prints_valueName (v : ValueName) : Prints .primary v.name.toList v.term :=
  prints_entryName (e := .value v) rfl

theorem prints_signal : Prints .primary Term.signal.chars Term.signal := by
  have happly : Construction.apply (.value .signal) [] = .ok Term.signal := rfl
  have hprints := prints_applied .nil happly
  have hname : Term.signalName ≠ Term.listName := by decide
  rwa [Term.signal, Term.chars_data_of_ne hname]

theorem Constant.prints {t : Term} (h : Constant t) : Prints .term t.chars t := by
  cases h with
  | null => exact (prints_valueName .null).of_primary
  | bool b =>
    cases b with
    | false => exact (prints_valueName .false).of_primary
    | true => exact (prints_valueName .true).of_primary
  | int h => exact (prints_int h).of_primary
  | char h => exact (prints_char h).of_primary
  | atom h => exact (prints_atom h).of_primary
  | string hne h =>
    rw [Term.chars_string hne]
    exact (prints_string h).of_primary
  | signal => exact prints_signal.of_primary
  | type h => exact (Ty.printed_of_isWritable _ h).term

/-! ## Parameters and arguments -/

/-- Parameters that hold what they declare: a run of terms that are no sequences, or one term. -/
inductive Bound : List Param → List Term → Prop
  | nil : Bound [] []
  | single {p : Param} {ps : List Param} {ts : List Term} (t : Term) : p.isSequence = false → Bound ps ts →
      Bound (p :: ps) (t :: ts)
  | run {p : Param} {ps : List Param} {ts items : List Term} : p.isSequence = true →
      (∀ t ∈ items, t.isSequence = false) → Bound ps ts → Bound (p :: ps) (.seq items :: ts)

def argumentsOf : List Param → List Term → List Term
  | p :: ps, t :: ts => (if p.isSequence then t.elements else [t]) ++ argumentsOf ps ts
  | _, _ => []

theorem charsOfParams_single (shape : List Param) {t : Term} {ts : List Term}
    (h : shape.head?.any Param.isSequence = false) :
    Term.charsOfParams shape (t :: ts) = t.chars :: Term.charsOfParams shape.tail ts := by
  cases t with
  | seq items => rw [Term.charsOfParams, h, Term.chars_seq]; rfl
  | _ => rfl

/-- The printer writes the arguments of a node, whatever parameters hold them. -/
theorem charsOfParams_eq_map {ps : List Param} {ts : List Term} (h : Bound ps ts) :
    Term.charsOfParams ps ts = (argumentsOf ps ts).map Term.chars := by
  induction h with
  | nil => rfl
  | @single p ps ts t hp _ ih =>
    have hhead : (p :: ps).head?.any Param.isSequence = false := by simp [hp]
    rw [charsOfParams_single _ hhead, List.tail_cons, ih, argumentsOf, hp]
    rfl
  | @run p ps ts items hp _ _ ih =>
    have hhead : (p :: ps).head?.any Param.isSequence = true := by simp [hp]
    rw [Term.charsOfParams, if_pos hhead, List.tail_cons, ih, argumentsOf, if_pos hp, List.map_append,
      Term.charsOfAll_eq_map]
    rfl

/-! ## Binding the arguments again -/

theorem Bound.length_eq {ps : List Param} {ts : List Term} (h : Bound ps ts) : ts.length = ps.length := by
  induction h with
  | nil => rfl
  | single _ _ _ ih => rw [List.length_cons, List.length_cons, ih]
  | run _ _ _ ih => rw [List.length_cons, List.length_cons, ih]

theorem argumentsOf_of_no_run {ps : List Param} {ts : List Term} (h : Bound ps ts)
    (hps : ps.countP Param.isSequence = 0) : argumentsOf ps ts = ts := by
  induction h with
  | nil => rfl
  | @single p ps ts t hp _ ih =>
    have hrest : ps.countP Param.isSequence = 0 := by simpa [List.countP_cons, hp] using hps
    simp [argumentsOf, hp, ih hrest]
  | run hp _ _ _ => simp [hp] at hps

/-- A parameter that takes a run may hold no argument, every other holds one. -/
theorem length_argumentsOf {ps : List Param} {ts : List Term} (h : Bound ps ts) :
    ps.length ≤ (argumentsOf ps ts).length + ps.countP Param.isSequence := by
  induction h with
  | nil => simp
  | @single p ps ts t hp _ ih =>
    simp only [argumentsOf, hp, List.length_cons, List.length_append, List.length_nil, List.countP_cons,
      Bool.false_eq_true, if_false]
    omega
  | @run p ps ts items hp _ _ ih =>
    simp only [argumentsOf, hp, List.length_cons, List.length_append, List.countP_cons, if_true]
    omega

theorem bindTo_argumentsOf {ps : List Param} {ts : List Term} (h : Bound ps ts)
    (hone : ps.countP Param.isSequence ≤ 1) : Construction.bindTo ps (argumentsOf ps ts) = ts := by
  induction h with
  | nil => rfl
  | @single p ps ts t hp _ ih =>
    have hrest : ps.countP Param.isSequence ≤ 1 := by simpa [List.countP_cons, hp] using hone
    simp [argumentsOf, Construction.bindTo, hp, ih hrest]
  | @run p ps ts items hp hitems hbound _ =>
    -- the parameters behind the run take one argument each, so the run ends where theirs begin
    have hrest : ps.countP Param.isSequence = 0 := by
      simp only [List.countP_cons, hp, if_true] at hone
      omega
    have hargs : argumentsOf (p :: ps) (.seq items :: ts) = items ++ ts := by
      simp [argumentsOf, hp, Term.elements, argumentsOf_of_no_run hbound hrest]
    have habsorbed : (items ++ ts).length - ps.length = items.length := by
      rw [List.length_append, hbound.length_eq, Nat.add_sub_cancel]
    unfold Construction.bindTo
    rw [hargs, if_pos hp]
    simp only [habsorbed, List.take_left, List.drop_left, Term.flatten_of_no_sequence hitems]

theorem bind_argumentsOf {op : Operator} {params : List Term} (h : Bound op.params params) :
    Construction.bind op (argumentsOf op.params params) = .ok params := by
  have hone := op.countP_isSequence_le
  have hadmits : op.arity.admits (argumentsOf op.params params).length = true := by
    unfold Operator.arity
    split
    · have hlen := length_argumentsOf h
      simp only [Arity.admits, decide_eq_true_eq]
      omega
    · rename_i hany
      have hnone : op.params.countP Param.isSequence = 0 := by
        simpa [List.countP_eq_zero, List.any_eq_true] using hany
      rw [argumentsOf_of_no_run h hnone, h.length_eq]
      simp [Arity.admits]
  rw [Construction.bind, if_pos hadmits, bindTo_argumentsOf h hone]

/-! ## Programs -/

/-- The terms that a program writes down. -/
inductive Program : Term → Prop
  | constant {t : Term} : Constant t → Program t
  | seq {items : List Term} : items.length ≠ 1 → (∀ t ∈ items, t.isSequence = false) →
      (∀ t ∈ items, Program t) → Program (.seq items)
  | node {op : Operator} {params : List Term} : Bound op.params params →
      (∀ t ∈ argumentsOf op.params params, Program t) → Program (.node op params)

theorem ofSequence_of_length {items : List Term} (h : items.length ≠ 1) : Term.ofSequence items = .seq items := by
  match items, h with
  | [], _ => rfl
  | _ :: _ :: _, _ => rfl

theorem forall₂_chars {ts : List Term} (h : ∀ t ∈ ts, Prints .term t.chars t) :
    List.Forall₂ (Prints .term) (ts.map Term.chars) ts := by
  rw [List.forall₂_map_left_iff, List.forall₂_same]
  exact h

theorem prints_seq {items : List Term} (hlen : items.length ≠ 1) (hflat : ∀ t ∈ items, t.isSequence = false)
    (h : ∀ t ∈ items, Prints .term t.chars t) : Prints .primary (Term.seq items).chars (.seq items) := by
  have hgroup := prints_group (forall₂_chars h)
  rw [Term.flatten_of_no_sequence hflat, ofSequence_of_length hlen] at hgroup
  rwa [Term.chars_seq, Term.charsOfAll_eq_map]

theorem prints_node {op : Operator} {params : List Term} (hbound : Bound op.params params)
    (h : ∀ t ∈ argumentsOf op.params params, Prints .term t.chars t) :
    Prints .primary (Term.node op params).chars (.node op params) := by
  have happly : Construction.apply (.operator op) (argumentsOf op.params params) = .ok (.node op params) := by
    rw [Construction.apply, bind_argumentsOf hbound]
  by_cases hparams : params = []
  · subst hparams
    have hnone : argumentsOf op.params [] = [] := by
      cases op.params <;> rfl
    rw [hnone] at happly
    exact prints_entryName (e := .operator op) happly
  · rw [Term.chars_node op hparams, charsOfParams_eq_map hbound]
    exact prints_applied (e := .operator op) (forall₂_chars h) happly

theorem Program.prints {t : Term} (h : Program t) : Prints .term t.chars t := by
  induction h with
  | constant h => exact h.prints
  | seq hlen hflat _ ih => exact (prints_seq hlen hflat ih).of_primary
  | node hbound _ ih => exact (prints_node hbound ih).of_primary

/-- A program that is printed is read back unchanged. -/
theorem printed_programs_read_back {t : Term} (h : Program t) : readTerm t.text = .ok t :=
  readTerm_of_prints h.prints

/-- `sequential("a\"\n",given,~(integers | atoms))` is read back. -/
theorem printed_programs_read_back_sequential :
    readTerm (Term.node (.flow .sequential) [.seq [Term.string ['a', '"', '\n'], .node (.effect .given) []],
        .type (.complement (.union [.integers, .atoms]))]).text
      = .ok (.node (.flow .sequential) [.seq [Term.string ['a', '"', '\n'], .node (.effect .given) []],
        .type (.complement (.union [.integers, .atoms]))]) := by
  have hchars : ∀ c ∈ ['a', '"', '\n'], Text.isWrittenByCode c = false := by
    intro c hc
    simp only [List.mem_cons, List.not_mem_nil, or_false] at hc
    rcases hc with rfl | rfl | rfl <;> decide
  have hstring : Program (Term.string ['a', '"', '\n']) := .constant (.string (by decide) hchars)
  have hgiven : Program (.node (.effect .given) []) := .node .nil (by simp [argumentsOf])
  have htype : Program (.type (.complement (.union [.integers, .atoms]))) := .constant (.type rfl)
  refine printed_programs_read_back (.node (.run rfl ?_ (.single _ rfl .nil)) ?_)
  · simp [Term.string, Term.isSequence]
  · show ∀ t ∈ [_, _, _], Program t
    simp [hstring, hgiven, htype]

end TermMachine
