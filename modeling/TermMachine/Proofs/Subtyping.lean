import TermMachine.Proofs.GuardedTypes

/-!
# Structural subtyping

Types are compared by their structure: the types of the language have their places below one another, a union is the
least type above its members and an intersection the greatest below them, the types of collections grow with their
arguments, and a complement shrinks as the type in it grows. `Below a b` is the least preorder in which all of that holds.

Membership is decided by other means. Each basic type has a test of its own, and some of these tests overlap without
being alike: a string is recognised by its characters, a list by its constructor, a ground value by everything inside it.
They agree with the order. Since a complement turns an inclusion round, what is shown by induction is the inclusion for
all terms at once, those that are no values among them.

Proved:
* `belongs_lists`, `belongs_tuples` and their like: what belongs to a type, in terms of its arguments.
* `Includes.lists`, `Includes.ground_lists` and their like: membership respects each rule of the order.
* `belongs_of_below`: what belongs to a type belongs to every type above it.
-/

namespace TermMachine.Ty

open Term

/-! ## The order -/

/-- `a` is below `b` by their structure. -/
inductive Below : Ty → Ty → Prop
  | refl (a : Ty) : Below a a
  | trans {a b c : Ty} : Below a b → Below b c → Below a c
  -- the types without arguments
  | natural_integer : Below naturalNumbers integers
  | ground {a : Ty} : a ∈ [null, booleans, integers, characters, strings, atoms] → Below a groundValues
  | value {a : Ty} : a ∈ [groundValues, valueTypes, datatypeValues] → Below a values
  | string_data : Below strings datatypeValues
  | string_list : Below strings (lists characters)
  | list_string : Below (lists characters) strings
  -- unions, intersections and complements
  | empty (a : Ty) : Below empty a
  | member {a : Ty} {members : List Ty} : a ∈ members → Below a (union members)
  | union {members : List Ty} {b : Ty} : (∀ a ∈ members, Below a b) → Below (union members) b
  | operand {a : Ty} {members : List Ty} : a ∈ members → Below (intersection members) a
  | intersection {b : Ty} {members : List Ty} : (∀ a ∈ members, Below b a) → Below b (intersection members)
  | complement {a b : Ty} : Below a b → Below (complement b) (complement a)
  -- collections, whatever they hold
  | map_value (key value : Ty) : Below (maps key value) values
  | set_value (element : Ty) : Below (sets element) values
  | list_data (element : Ty) : Below (lists element) datatypeValues
  | vector_data (element : Ty) : Below (vectors element) datatypeValues
  | tuple_data (elements : List Ty) : Below (tuples elements) datatypeValues
  -- collections and what they hold
  | maps {key key' value value' : Ty} : Below key key' → Below value value' → Below (maps key value) (maps key' value')
  | sets {a b : Ty} : Below a b → Below (sets a) (sets b)
  | lists {a b : Ty} : Below a b → Below (lists a) (lists b)
  | vectors {a b : Ty} : Below a b → Below (vectors a) (vectors b)
  | tuples {as bs : List Ty} : as.length = bs.length → (∀ p ∈ as.zip bs, Below p.1 p.2) → Below (tuples as) (tuples bs)
  | ground_maps {key value : Ty} : Below key groundValues → Below value groundValues →
      Below (maps key value) groundValues
  | ground_sets {a : Ty} : Below a groundValues → Below (sets a) groundValues
  | ground_lists {a : Ty} : Below a groundValues → Below (lists a) groundValues
  | ground_vectors {a : Ty} : Below a groundValues → Below (vectors a) groundValues
  | ground_tuples {as : List Ty} : (∀ a ∈ as, Below a groundValues) → Below (tuples as) groundValues

/-! ## Membership by the arguments of a type -/

variable {t : Term}

theorem belongs_union {members : List Ty} : (union members).belongs t = true ↔ ∃ a ∈ members, a.belongs t = true := by
  have hany : belongsAny members t = true ↔ ∃ a ∈ members, a.belongs t = true := by
    induction members with
    | nil => simp [belongsAny]
    | cons a rest ih => simp [belongsAny, ih]
  rw [belongs, hany]

theorem belongs_intersection {members : List Ty} :
    (intersection members).belongs t = true ↔ ∀ a ∈ members, a.belongs t = true := by
  have hall : belongsAll members t = true ↔ ∀ a ∈ members, a.belongs t = true := by
    induction members with
    | nil => simp [belongsAll]
    | cons a rest ih => simp [belongsAll, ih]
  rw [belongs, hall]

theorem belongs_complement {a : Ty} : (complement a).belongs t = true ↔ a.belongs t = false := by
  simp [belongs]

theorem belongs_maps {key value : Ty} : (maps key value).belongs t = true ↔
    ∃ entries, t = .map entries ∧ ∀ e ∈ entries, key.belongs e.1 = true ∧ ∀ v ∈ e.2, value.belongs v = true := by
  cases t <;> simp [belongs, asMap?]

theorem belongs_sets {a : Ty} : (sets a).belongs t = true ↔
    ∃ elements, t = .set elements ∧ ∀ e ∈ elements, a.belongs e = true := by
  cases t <;> simp [belongs, asSet?]

theorem dataArgs?_eq_some {name : String} {args : List Term} : t.dataArgs? name = some args ↔ t = .data name args := by
  cases t with
  | data constructor args' =>
    by_cases hname : constructor = name <;> simp [dataArgs?, hname]
  | _ => simp [dataArgs?]

theorem belongs_lists {a : Ty} : (lists a).belongs t = true ↔
    ∃ args, t = .data listName args ∧ ∀ e ∈ args, a.belongs e = true := by
  simp [belongs, Option.any_eq_true, dataArgs?_eq_some]

theorem belongs_vectors {a : Ty} : (vectors a).belongs t = true ↔
    ∃ args, t = .data vectorName args ∧ ∀ e ∈ args, a.belongs e = true := by
  simp [belongs, Option.any_eq_true, dataArgs?_eq_some]

theorem belongEach_iff {types : List Ty} {terms : List Term} : belongEach types terms = true ↔
    types.length = terms.length ∧ ∀ p ∈ types.zip terms, p.1.belongs p.2 = true := by
  induction types generalizing terms with
  | nil => cases terms <;> simp [belongEach]
  | cons a rest ih =>
    cases terms with
    | nil => simp [belongEach]
    | cons e more => simp [belongEach, ih, and_left_comm]

theorem belongs_tuples {types : List Ty} : (tuples types).belongs t = true ↔
    ∃ args, t = .data tupleName args ∧ types.length = args.length ∧ ∀ p ∈ types.zip args, p.1.belongs p.2 = true := by
  simp [belongs, Option.any_eq_true, dataArgs?_eq_some, belongEach_iff]

/-- A string is a list of characters, though it is recognised in another way. -/
theorem belongs_strings : strings.belongs t = (lists characters).belongs t := by
  have hchars : ∀ args : List Term, (args.mapM asChar?).isSome = args.all characters.belongs := by
    intro args
    induction args with
    | nil => rfl
    | cons e rest ih =>
      rw [List.all_cons, ← ih, List.mapM_cons, belongs]
      cases e.asChar? <;> cases rest.mapM asChar? <;> rfl
  rw [belongs, belongs, asString?]
  cases t.dataArgs? listName with
  | none => rfl
  | some args => exact hchars args

/-! ## Ground values -/

theorem belongs_groundValues : groundValues.belongs t = t.isGround := by
  rw [belongs]

theorem allGround_iff {terms : List Term} : allGround terms = true ↔ ∀ e ∈ terms, e.isGround = true := by
  induction terms with
  | nil => simp [allGround]
  | cons e rest ih => simp [allGround, ih]

theorem isGround_data {name : String} {args : List Term} :
    (Term.data name args).isGround = true ↔ ∀ e ∈ args, e.isGround = true := by
  rw [isGround, allGround_iff]

theorem isGround_set {elements : List Term} :
    (Term.set elements).isGround = true ↔ ∀ e ∈ elements, e.isGround = true := by
  rw [isGround, allGround_iff]

theorem isGround_map {entries : List (Term × List Term)} : (Term.map entries).isGround = true ↔
    ∀ e ∈ entries, e.1.isGround = true ∧ ∀ v ∈ e.2, v.isGround = true := by
  rw [isGround]
  induction entries with
  | nil => simp [entriesGround]
  | cons e rest ih => simp [entriesGround, ih, allGround_iff, and_assoc]

/-! ## Inclusions -/

def Includes (b a : Ty) : Prop := ∀ t : Term, a.belongs t = true → b.belongs t = true

namespace Includes

variable {a b key key' value value' : Ty} {as bs members : List Ty}

theorem ground (ha : a ∈ [null, booleans, integers, characters, strings, atoms]) : Includes groundValues a := by
  intro t ht
  simp only [List.mem_cons, List.not_mem_nil, or_false] at ha
  rcases ha with rfl | rfl | rfl | rfl | rfl | rfl
  case inr.inr.inr.inr.inl =>
    rw [belongs_strings] at ht
    obtain ⟨args, rfl, hargs⟩ := belongs_lists.mp ht
    rw [belongs_groundValues, isGround_data]
    intro e he
    have hchar := hargs e he
    cases e with
    | char c => rfl
    | _ => cases hchar
  all_goals cases t <;> first | rfl | cases ht

theorem union (h : ∀ a ∈ members, Includes b a) : Includes b (union members) := by
  intro t ht
  obtain ⟨a, ha, hat⟩ := belongs_union.mp ht
  exact h a ha t hat

theorem intersection (h : ∀ a ∈ members, Includes a b) : Includes (intersection members) b :=
  fun t ht => belongs_intersection.mpr fun a ha => h a ha t ht

theorem complement (h : Includes b a) : Includes (complement a) (complement b) := by
  intro t ht
  rw [belongs_complement] at ht ⊢
  rw [Bool.eq_false_iff] at ht ⊢
  exact fun hat => ht (h t hat)

theorem maps (hkey : Includes key' key) (hvalue : Includes value' value) : Includes (maps key' value') (maps key value) := by
  intro t ht
  obtain ⟨entries, rfl, hentries⟩ := belongs_maps.mp ht
  refine belongs_maps.mpr ⟨entries, rfl, fun e he => ?_⟩
  obtain ⟨hk, hv⟩ := hentries e he
  exact ⟨hkey _ hk, fun v hmem => hvalue _ (hv v hmem)⟩

theorem sets (h : Includes b a) : Includes (sets b) (sets a) := by
  intro t ht
  obtain ⟨elements, rfl, helements⟩ := belongs_sets.mp ht
  exact belongs_sets.mpr ⟨elements, rfl, fun e he => h _ (helements e he)⟩

theorem lists (h : Includes b a) : Includes (lists b) (lists a) := by
  intro t ht
  obtain ⟨args, rfl, hargs⟩ := belongs_lists.mp ht
  exact belongs_lists.mpr ⟨args, rfl, fun e he => h _ (hargs e he)⟩

theorem vectors (h : Includes b a) : Includes (vectors b) (vectors a) := by
  intro t ht
  obtain ⟨args, rfl, hargs⟩ := belongs_vectors.mp ht
  exact belongs_vectors.mpr ⟨args, rfl, fun e he => h _ (hargs e he)⟩

theorem tuples (hlen : as.length = bs.length) (h : ∀ p ∈ as.zip bs, Includes p.2 p.1) :
    Includes (tuples bs) (tuples as) := by
  intro t ht
  obtain ⟨args, rfl, hcount, hargs⟩ := belongs_tuples.mp ht
  refine belongs_tuples.mpr ⟨args, rfl, by omega, fun p hp => ?_⟩
  -- the argument at a position stands against both types at that position
  obtain ⟨i, hi, rfl⟩ := List.mem_iff_getElem.mp hp
  simp only [List.length_zip, Nat.lt_min] at hi
  have ha : (as[i], bs[i]) ∈ as.zip bs := List.mem_iff_getElem.mpr ⟨i, by simp; omega, by simp⟩
  have he : (as[i], args[i]) ∈ as.zip args := List.mem_iff_getElem.mpr ⟨i, by simp; omega, by simp⟩
  simpa using h _ ha _ (hargs _ he)

theorem isGround (h : Includes groundValues a) {t : Term} (ht : a.belongs t = true) : t.isGround = true := by
  rw [← belongs_groundValues]
  exact h t ht

theorem ground_maps (hkey : Includes groundValues key) (hvalue : Includes groundValues value) :
    Includes groundValues (.maps key value) := by
  intro t ht
  obtain ⟨entries, rfl, hentries⟩ := belongs_maps.mp ht
  rw [belongs_groundValues, isGround_map]
  intro e he
  obtain ⟨hk, hv⟩ := hentries e he
  exact ⟨hkey.isGround hk, fun v hmem => hvalue.isGround (hv v hmem)⟩

theorem ground_sets (h : Includes groundValues a) : Includes groundValues (.sets a) := by
  intro t ht
  obtain ⟨elements, rfl, helements⟩ := belongs_sets.mp ht
  rw [belongs_groundValues, isGround_set]
  exact fun e he => h.isGround (helements e he)

theorem ground_lists (h : Includes groundValues a) : Includes groundValues (.lists a) := by
  intro t ht
  obtain ⟨args, rfl, hargs⟩ := belongs_lists.mp ht
  rw [belongs_groundValues, isGround_data]
  exact fun e he => h.isGround (hargs e he)

theorem ground_vectors (h : Includes groundValues a) : Includes groundValues (.vectors a) := by
  intro t ht
  obtain ⟨args, rfl, hargs⟩ := belongs_vectors.mp ht
  rw [belongs_groundValues, isGround_data]
  exact fun e he => h.isGround (hargs e he)

theorem ground_tuples (h : ∀ a ∈ as, Includes groundValues a) : Includes groundValues (.tuples as) := by
  intro t ht
  obtain ⟨args, rfl, hcount, hargs⟩ := belongs_tuples.mp ht
  rw [belongs_groundValues, isGround_data]
  intro e he
  obtain ⟨i, hi, rfl⟩ := List.mem_iff_getElem.mp he
  have hpair : (as[i], args[i]) ∈ as.zip args := List.mem_iff_getElem.mpr ⟨i, by simp; omega, by simp⟩
  exact (h _ (List.getElem_mem _)).isGround (hargs _ hpair)

end Includes

/-! ## The theorem -/

/-- What belongs to a type belongs to every type above it. The term may be anything, also a sequence or a node. -/
theorem belongs_of_below {a b : Ty} (h : Below a b) (t : Term) (ht : a.belongs t = true) : b.belongs t = true := by
  -- over all terms at once, as a complement asks for the inclusion and not for one term
  induction h generalizing t with
  | refl a => exact ht
  | trans _ _ ih ih' => exact ih' t (ih t ht)
  | natural_integer =>
    cases t with
    | int n => rfl
    | _ => cases ht
  | ground ha => exact Includes.ground ha t ht
  | value ha =>
    simp only [List.mem_cons, List.not_mem_nil, or_false] at ha
    rcases ha with rfl | rfl | rfl <;> exact values_of_belongs rfl ht
  | string_data =>
    rw [belongs_strings] at ht
    obtain ⟨args, rfl, -⟩ := belongs_lists.mp ht
    rfl
  | string_list => rwa [← belongs_strings]
  | list_string => rwa [belongs_strings]
  | empty a => cases ht
  | member ha => exact belongs_union.mpr ⟨_, ha, ht⟩
  | union _ ih => exact Includes.union ih t ht
  | operand ha => exact belongs_intersection.mp ht _ ha
  | intersection _ ih => exact Includes.intersection ih t ht
  | complement _ ih => exact Includes.complement ih t ht
  | map_value key value => exact values_of_belongs rfl ht
  | set_value element => exact values_of_belongs rfl ht
  | list_data element =>
    obtain ⟨args, rfl, -⟩ := belongs_lists.mp ht
    rfl
  | vector_data element =>
    obtain ⟨args, rfl, -⟩ := belongs_vectors.mp ht
    rfl
  | tuple_data elements =>
    obtain ⟨args, rfl, -⟩ := belongs_tuples.mp ht
    rfl
  | maps _ _ ih ih' => exact Includes.maps ih ih' t ht
  | sets _ ih => exact Includes.sets ih t ht
  | lists _ ih => exact Includes.lists ih t ht
  | vectors _ ih => exact Includes.vectors ih t ht
  | tuples hlen _ ih => exact Includes.tuples hlen ih t ht
  | ground_maps _ _ ih ih' => exact Includes.ground_maps ih ih' t ht
  | ground_sets _ ih => exact Includes.ground_sets ih t ht
  | ground_lists _ ih => exact Includes.ground_lists ih t ht
  | ground_vectors _ ih => exact Includes.ground_vectors ih t ht
  | ground_tuples _ ih => exact Includes.ground_tuples ih t ht

/-- Maps from natural numbers to lists of characters are among the maps from integers to strings or atoms. So what is none
of the latter, here the sequence of a number and a node, is none of the former. -/
theorem belongs_of_below_complement :
    let a := complement (maps integers (union [strings, atoms]))
    let b := complement (maps naturalNumbers (lists characters))
    let t : Term := .seq [.int 1, .node (.flow .stuck) []]
    Below a b ∧ a.belongs t = true ∧ b.belongs t = true := by
  intro a b t
  have htexts : Below (lists characters) (union [strings, atoms]) := .trans .list_string (.member (by simp))
  have hbelow : Below a b := .complement (.maps .natural_integer htexts)
  exact ⟨hbelow, rfl, belongs_of_below hbelow t rfl⟩

end TermMachine.Ty
