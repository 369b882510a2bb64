import TermMachine.Proofs.Descent
import TermMachine.Proofs.NodeShape
import TermMachine.Proofs.Parts
import TermMachine.Reader

/-!
# Terms that are read

Whatever text a term is read from, it is built from literals and atoms by applying names and joining
sequences. A property that these keep (`Constructible`) holds of every term that is read.

Proved:
* `of_readTerm`: every term that is read has every such property.
* `closed_of_readTerm`: reading hides no node in a collection.
* `Readable.constructible`: what holds of every term that reading makes holds of every part of what is read.
-/

namespace TermMachine

open Term

/-- A property of terms that literals have, and that applying a name and joining terms keep. -/
structure Constructible (P : Term → Prop) : Prop where
  int : ∀ n, fitsInt64 n = true → P (.int n)
  char : ∀ c, P (.char c)
  string : ∀ text, P (.string text)
  atom : ∀ name, P (.atom name)
  construct : ∀ {name args t}, (∀ u ∈ args, P u) → Construction.construct name args = .ok t → P t
  sequence : ∀ {items}, (∀ u ∈ items, P u) → P (ofSequence (flatten items))

section
variable {P : Term → Prop} (hP : Constructible P)
include hP

theorem Constructible.of_integer {text : List Char} {t : Term} (h : Literal.integer text = .ok t) : P t := by
  unfold Literal.integer at h
  split at h
  · rename_i hn
    cases h
    exact hP.int _ (Option.filter_eq_some_iff.mp hn).2
  · cases h

theorem Constructible.of_character {text : List Char} {t : Term} (h : Literal.character text = .ok t) : P t := by
  unfold Literal.character at h
  split at h
  · cases h
    exact hP.char _
  · cases h

theorem Constructible.of_atom {args : List Tree} {t : Term} (h : Tree.atomOf args = .ok t) : P t := by
  unfold Tree.atomOf at h
  split at h
  · cases h
    exact hP.atom _
  · cases h

end

section
variable {P : Term → Prop}

mutual
theorem of_build (hP : Constructible P) {tree : Tree} {t : Term} (h : tree.build = .ok t) : P t := by
  match tree with
  | .integer text _ => exact hP.of_integer (by simpa only [Tree.build] using h)
  | .string text _ =>
    simp only [Tree.build] at h
    cases h
    exact hP.string _
  | .character text _ => exact hP.of_character (by simpa only [Tree.build] using h)
  | .name text _ =>
    simp only [Tree.build] at h
    exact hP.construct (fun u hu => absurd hu List.not_mem_nil) h
  | .call operator args _ =>
    simp only [Tree.build] at h
    split at h
    · exact hP.of_atom h
    · obtain ⟨terms, hterms, h⟩ := ConstructionError.bind_eq_ok.mp h
      exact hP.construct (of_buildAll hP hterms) h
  | .sequence items _ =>
    simp only [Tree.build] at h
    obtain ⟨terms, hterms, h⟩ := ConstructionError.bind_eq_ok.mp h
    cases h
    exact hP.sequence (of_buildAll hP hterms)
  | .list items _ =>
    simp only [Tree.build] at h
    obtain ⟨terms, hterms, h⟩ := ConstructionError.bind_eq_ok.mp h
    exact hP.construct (of_buildAll hP hterms) h
  | .set items _ =>
    simp only [Tree.build] at h
    obtain ⟨terms, hterms, h⟩ := ConstructionError.bind_eq_ok.mp h
    exact hP.construct (of_buildAll hP hterms) h
  | .map entries _ =>
    simp only [Tree.build] at h
    obtain ⟨terms, hterms, h⟩ := ConstructionError.bind_eq_ok.mp h
    exact hP.construct (of_buildEntries hP hterms) h
  | .union members _ =>
    simp only [Tree.build] at h
    obtain ⟨terms, hterms, h⟩ := ConstructionError.bind_eq_ok.mp h
    exact hP.construct (of_buildAll hP hterms) h
  | .intersection members _ =>
    simp only [Tree.build] at h
    obtain ⟨terms, hterms, h⟩ := ConstructionError.bind_eq_ok.mp h
    exact hP.construct (of_buildAll hP hterms) h
  | .complement inner _ =>
    simp only [Tree.build] at h
    obtain ⟨u, hu, h⟩ := ConstructionError.bind_eq_ok.mp h
    have hinner : P u := of_build hP hu
    exact hP.construct (by simpa using hinner) h

theorem of_buildAll (hP : Constructible P) {trees : List Tree} {terms : List Term} (h : Tree.buildAll trees = .ok terms) :
    ∀ t ∈ terms, P t := by
  match trees with
  | [] =>
    simp only [Tree.buildAll] at h
    cases h
    exact fun t ht => nomatch ht
  | tree :: rest =>
    simp only [Tree.buildAll] at h
    obtain ⟨t, ht, h⟩ := ConstructionError.bind_eq_ok.mp h
    obtain ⟨more, hmore, h⟩ := ConstructionError.bind_eq_ok.mp h
    cases h
    have hfirst : P t := of_build hP ht
    have hrest := of_buildAll hP hmore
    intro u hu
    rcases List.mem_cons.mp hu with rfl | hu
    · exact hfirst
    · exact hrest u hu

theorem of_buildEntries (hP : Constructible P) {entries : List (Tree × Tree)} {terms : List Term}
    (h : Tree.buildEntries entries = .ok terms) : ∀ t ∈ terms, P t := by
  match entries with
  | [] =>
    simp only [Tree.buildEntries] at h
    cases h
    exact fun t ht => nomatch ht
  | (key, value) :: rest =>
    simp only [Tree.buildEntries] at h
    obtain ⟨k, hk, h⟩ := ConstructionError.bind_eq_ok.mp h
    obtain ⟨v, hv, h⟩ := ConstructionError.bind_eq_ok.mp h
    obtain ⟨entry, hentry, h⟩ := ConstructionError.bind_eq_ok.mp h
    obtain ⟨more, hmore, h⟩ := ConstructionError.bind_eq_ok.mp h
    cases h
    have hkey : P k := of_build hP hk
    have hvalue : P v := of_build hP hv
    have hfirst : P entry := hP.construct (by simp [hkey, hvalue]) hentry
    have hrest := of_buildEntries hP hmore
    intro u hu
    rcases List.mem_cons.mp hu with rfl | hu
    · exact hfirst
    · exact hrest u hu
end

theorem of_readTerm (hP : Constructible P) {source : String} {t : Term} (h : readTerm source = .ok t) : P t := by
  unfold readTerm at h
  split at h
  · cases h
  · split at h
    · cases h
    · split at h
      · cases h
      · rename_i hbuild
        cases h
        exact of_build hP hbuild

end

/-! ## Closed terms -/

/-- Applying a name puts its arguments into a node or makes a value that holds none of them. -/
theorem closed_construct {name : String} {args : List Term} {t : Term} (hargs : ∀ u ∈ args, u.closed = true)
    (h : Construction.construct name args = .ok t) : t.closed = true := by
  unfold Construction.construct at h
  split at h
  · rename_i entry _
    cases entry with
    | operator op =>
      simp only [Construction.apply, Construction.bind] at h
      split at h
      · rename_i params hparams
        split at hparams
        · cases hparams
          cases h
          rw [Term.closed]
          exact Engine.allClosed_bindTo op.params (allClosed_iff.mpr hargs)
        · cases hparams
      · cases h
    | value v =>
      simp only [Construction.apply] at h
      split at h
      · cases h
        cases v <;> rfl
      · cases h
    | type c =>
      obtain ⟨types, -, h⟩ := ConstructionError.bind_eq_ok.mp h
      split at h
      · cases h; rfl
      · cases h
  · cases h

theorem constructible_closed : Constructible fun t => t.closed = true where
  int _ _ := rfl
  char _ := rfl
  string text := by
    refine (closed_of_nodes ?_).1
    rw [Term.string, Term.nodes, nodesIn_eq_zero]
    intro t ht
    obtain ⟨c, -, rfl⟩ := List.mem_map.mp ht
    rfl
  atom _ := rfl
  construct := closed_construct
  sequence h := by
    rw [closed_ofSequence, allClosed_flatten]
    exact allClosed_iff.mpr h

theorem closed_of_readTerm {source : String} {t : Term} (h : readTerm source = .ok t) : t.closed = true :=
  of_readTerm constructible_closed h

/-! ## What is read, part by part -/

/-- A property that every term has which reading makes, given that the terms in it have it. -/
structure Readable (Q : Term → Prop) : Prop where
  value : ∀ v : ValueName, Q v.term
  int : ∀ n, fitsInt64 n = true → Q (.int n)
  char : ∀ c, Q (.char c)
  string : ∀ text, Q (.string text)
  atom : ∀ name, Q (.atom name)
  type : ∀ {c types ty}, (∀ u ∈ types, Q (.type u)) → TyConstructor.build c types = .ok ty → Q (.type ty)
  seq : ∀ {terms}, (∀ t ∈ terms, ∀ u ∈ t.parts, Q u) → Q (.seq (flatten terms))
  node : ∀ {op args params}, Construction.bind op args = .ok params → Q (.node op params)

theorem mem_parts_of_mem_flatten {terms : List Term} {t : Term} (h : t ∈ flatten terms) :
    ∃ u ∈ terms, t ∈ u.parts := by
  obtain ⟨u, hu, ht⟩ := List.mem_flatMap.mp h
  refine ⟨u, hu, ?_⟩
  cases u with
  | seq items => exact mem_parts_seq.mpr (.inr ⟨t, ht, mem_parts_self t⟩)
  | spread items => exact mem_parts_spread.mpr (.inr ⟨t, ht, mem_parts_self t⟩)
  | _ =>
    rw [List.mem_singleton.mp ht]
    exact mem_parts_self _

theorem typeArguments_eq_ok {c : TyConstructor} {args : List Term} {types : List Ty}
    (h : Construction.typeArguments c args = .ok types) : args = types.map .type := by
  induction args generalizing types with
  | nil =>
    cases h
    rfl
  | cons t rest ih =>
    cases t with
    | type ty =>
      simp only [Construction.typeArguments] at h
      rcases hrest : Construction.typeArguments c rest with err | more
      · rw [hrest] at h
        cases h
      · rw [hrest] at h
        cases h
        rw [ih hrest, List.map_cons]
    | _ => cases h

namespace Readable

variable {Q : Term → Prop} (hQ : Readable Q)
include hQ

theorem parts_seq {terms : List Term} (h : ∀ t ∈ terms, ∀ u ∈ t.parts, Q u) :
    ∀ u ∈ (Term.seq (flatten terms)).parts, Q u := by
  intro u hu
  rcases mem_parts_seq.mp hu with rfl | ⟨t, ht, hu⟩
  · exact hQ.seq h
  · obtain ⟨v, hv, ht⟩ := mem_parts_of_mem_flatten ht
    exact h v hv u (parts_trans ht hu)

theorem parts_construct {name : String} {args : List Term} {t : Term} (h : ∀ u ∈ args, ∀ v ∈ u.parts, Q v)
    (ht : Construction.construct name args = .ok t) : ∀ u ∈ t.parts, Q u := by
  unfold Construction.construct at ht
  split at ht
  · rename_i entry _
    cases entry with
    | operator op =>
      simp only [Construction.apply] at ht
      split at ht
      · rename_i params hbind
        cases ht
        intro u hu
        rcases mem_parts_node.mp hu with rfl | ⟨p, hp, hu⟩
        · exact hQ.node hbind
        · rw [Construction.bind_eq_ok hbind] at hp
          rcases Construction.mem_bindTo hp with hp | ⟨absorbed, hsub, rfl⟩
          · exact h p hp u hu
          · exact hQ.parts_seq (fun v hv => h v (hsub hv)) u hu
      · cases ht
    | value v =>
      simp only [Construction.apply] at ht
      split at ht
      · cases ht
        intro u hu
        have hself : u = v.term := by
          cases v <;> simpa [ValueName.term, signal, parts, partsOfAll] using hu
        rw [hself]
        exact hQ.value v
      · cases ht
    | type c =>
      obtain ⟨types, htypes, ht⟩ := ConstructionError.bind_eq_ok.mp ht
      split at ht
      · rename_i ty hbuild
        cases ht
        have hmembers : ∀ ty ∈ types, Q (.type ty) := by
          intro ty hty
          refine h (.type ty) ?_ _ (mem_parts_self _)
          rw [typeArguments_eq_ok htypes]
          exact List.mem_map_of_mem hty
        simpa [parts] using hQ.type hmembers hbuild
      · cases ht
  · cases ht

theorem constructible : Constructible fun t => ∀ u ∈ t.parts, Q u where
  int n hn := by simpa [parts] using hQ.int n hn
  char c := by simpa [parts] using hQ.char c
  string text := by
    intro u hu
    rcases mem_parts_data.mp hu with rfl | ⟨t, ht, hu⟩
    · exact hQ.string text
    · obtain ⟨c, -, rfl⟩ := List.mem_map.mp ht
      have hself : u = .char c := by simpa [parts] using hu
      rw [hself]
      exact hQ.char c
  atom name := by simpa [parts] using hQ.atom name
  construct := hQ.parts_construct
  sequence {items} h := by
    match hitems : flatten items with
    | [t] =>
      intro u hu
      have ht : t ∈ flatten items := by simp [hitems]
      obtain ⟨v, hv, ht⟩ := mem_parts_of_mem_flatten ht
      exact h v hv u (parts_trans ht hu)
    | [] =>
      rw [ofSequence, ← hitems]
      · exact hQ.parts_seq h
      · simp
    | _ :: _ :: _ =>
      rw [ofSequence, ← hitems]
      · exact hQ.parts_seq h
      · simp

end Readable

end TermMachine
