import TermMachine.Proofs.Discipline
import TermMachine.Proofs.Fuel

/-!
# The engine keeps every discipline

A computation upholds a discipline in a world when, from entities that are as it asks, it leaves such entities
whatever it ends with, in a world that may have grown, and when it gets stuck only for a reason that is excused.
There is a law for every way in which the engine puts computations together. What a failed attempt did is taken back,
and the world with it; a given value goes back to what it was, which is still admitted in the larger world.

The induction is on the fuel. One fact about shapes is carried along: a run that takes steps stays a run, so it can
take its own place again in a node.

Proved:
* `Upholds.bind`, `Upholds.speculate`, `Upholds.withGiven`: the laws.
* `step_upholds`, `run_upholds`, `execute_upholds`: every step, run and execution upholds every discipline.
* `Reached.upheld`: every discipline holds in every state between steps, also in those within a step.
-/

namespace TermMachine

open Term Eval Rules

namespace Discipline

variable {World : Type} [Preorder World] {α β : Type}

section
variable (D : Discipline World)

def Excuses (cause : Stuck) : Prop := ∀ reason, cause.root? = some reason → D.excuse reason

/-- What a computation ended with is as it should be: the entities in some larger world, the result there too. -/
def Upheld (w : World) (post : World → α → Prop) : EStateM.Result Halt Machine α → Prop
  | .ok a m => ∃ w', w ≤ w' ∧ D.Stored w' m.entities ∧ post w' a
  | .error halt m => (∃ w', w ≤ w' ∧ D.Stored w' m.entities) ∧ ∀ cause, halt = .stuck cause → D.Excuses cause

/-- A computation keeps the discipline, and its result has the property `post`. -/
def Upholds (w : World) (x : Eval α) (post : World → α → Prop) : Prop :=
  ∀ m, D.Stored w m.entities → D.Upheld w post (x m)

/-- What is asked of an attempt: of its result, or of the cause that kept it from one. -/
def Tried (post : World → α → Prop) (w : World) : Except Stuck α → Prop
  | .ok a => post w a
  | .error cause => D.Excuses cause

end

variable {D : Discipline World} {w w' : World}

theorem Upheld.mono {post : World → α → Prop} {r : EStateM.Result Halt Machine α} (hw : w ≤ w')
    (h : D.Upheld w' post r) : D.Upheld w post r := by
  cases r with
  | ok a m =>
    obtain ⟨w₁, hw₁, hs, ha⟩ := h
    exact ⟨w₁, hw.trans hw₁, hs, ha⟩
  | error halt m =>
    obtain ⟨⟨w₁, hw₁, hs⟩, hexcuse⟩ := h
    exact ⟨⟨w₁, hw.trans hw₁, hs⟩, hexcuse⟩

theorem excuses_of_root?_none {cause : Stuck} (h : cause.root? = none) : D.Excuses cause := by
  intro reason hr
  rw [h] at hr
  cases hr

/-! ## Laws -/

namespace Upholds

variable {post : World → α → Prop} {x : Eval α}

theorem pure {a : α} (h : post w a) : D.Upholds w (pure a) post := fun _ hm => ⟨w, le_rfl, hm, h⟩

theorem stuck {cause : Stuck} (h : D.Excuses cause) : D.Upholds w (stuck cause) post := by
  intro m hm
  refine ⟨⟨w, le_rfl, hm⟩, ?_⟩
  rintro _ ⟨rfl⟩
  exact h

theorem outOfFuel : D.Upholds w (throw .outOfFuel) post := by
  intro m hm
  refine ⟨⟨w, le_rfl, hm⟩, ?_⟩
  intro cause h
  cases h

theorem bind {mid : World → β → Prop} {y : Eval β} {f : β → Eval α} (hy : D.Upholds w y mid)
    (hf : ∀ w' b, w ≤ w' → mid w' b → D.Upholds w' (f b) post) : D.Upholds w (y >>= f) post := by
  intro m hm
  have hfirst := hy m hm
  rcases hr : y m with ⟨b, m₁⟩ | ⟨halt, m₁⟩
  · rw [hr] at hfirst
    obtain ⟨w₁, hw, hs, hb⟩ := hfirst
    rw [bind_of_ok hr]
    exact (hf w₁ b hw hb m₁ hs).mono hw
  · rw [hr] at hfirst
    rw [bind_of_error hr]
    exact hfirst

theorem imp {post' : World → α → Prop} (h : D.Upholds w x post) (himp : ∀ w' a, w ≤ w' → post w' a → post' w' a) :
    D.Upholds w x post' := by
  intro m hm
  have hx := h m hm
  rcases hr : x m with ⟨a, m₁⟩ | ⟨halt, m₁⟩
  · rw [hr] at hx
    obtain ⟨w₁, hw, hs, ha⟩ := hx
    exact ⟨w₁, hw, hs, himp w₁ a hw ha⟩
  · rw [hr] at hx
    exact hx

theorem ofRule {op : Operator} {r : Result α} (hok : ∀ a, r = .ok a → post w a)
    (herror : ∀ reason, r = .error reason → D.excuse reason) : D.Upholds w (ofRule op r) post := by
  cases r with
  | ok a => exact pure (hok a rfl)
  | error reason =>
    refine stuck ?_
    rintro _ ⟨rfl⟩
    exact herror reason rfl

theorem get : D.Upholds w get fun _ _ => True := fun _ hm => ⟨w, le_rfl, hm, trivial⟩

theorem entities : D.Upholds w entities fun _ _ => True := fun _ hm => ⟨w, le_rfl, hm, trivial⟩

theorem charge : D.Upholds w charge fun _ _ => True := by
  intro m hm
  rcases hr : Eval.charge m with ⟨u, m₁⟩ | ⟨halt, m₁⟩
  · rw [charge_eq_ok hr]
    exact ⟨w, le_rfl, hm, trivial⟩
  · unfold Eval.charge at hr
    simp only at hr
    split at hr
    · split at hr <;> cases hr
      exact ⟨⟨w, le_rfl, hm⟩, by rintro cause ⟨⟩⟩
    · cases hr

/-- A failed attempt is taken back, with the world that it had come to. -/
theorem speculate (h : D.Upholds w x post) : D.Upholds w (speculate x) (D.Tried post) := by
  intro m hm
  have hx := h m hm
  unfold Eval.speculate
  rcases hr : x m with ⟨a, m₁⟩ | ⟨halt, m₁⟩
  · rw [hr] at hx
    exact hx
  · rw [hr] at hx
    cases halt with
    | stuck cause => exact ⟨w, le_rfl, hm, hx.2 cause rfl⟩
    | stepLimit limit => exact hx
    | outOfFuel => exact hx

theorem recover (h : D.Upholds w x post) : D.Upholds w (recover x) (D.Tried post) := by
  intro m hm
  have hx := h m hm
  unfold Eval.recover
  rcases hr : x m with ⟨a, m₁⟩ | ⟨halt, m₁⟩
  · rw [hr] at hx
    exact hx
  · rw [hr] at hx
    cases halt with
    | stuck cause =>
      obtain ⟨⟨w₁, hw, hs⟩, hexcuse⟩ := hx
      exact ⟨w₁, hw, hs, hexcuse cause rfl⟩
    | stepLimit limit => exact hx
    | outOfFuel => exact hx

theorem withGiven {value : Term} (hvalue : D.Admits w value) (h : D.Upholds w x post) :
    D.Upholds w (withGiven value x) post := by
  intro m hm
  have hx := h { m with entities := m.entities.put Entity.givenValue value } (hm.put hvalue (by decide) (by decide))
  unfold Rules.withGiven
  rcases hr : x { m with entities := m.entities.put Entity.givenValue value } with ⟨a, m₁⟩ | ⟨halt, m₁⟩
  · rw [hr] at hx
    obtain ⟨w₁, hw, hs, ha⟩ := hx
    exact ⟨w₁, hw, hs.assign hm hw (by decide) (by decide), ha⟩
  · rw [hr] at hx
    obtain ⟨⟨w₁, hw, hs⟩, hexcuse⟩ := hx
    exact ⟨⟨w₁, hw, hs.assign hm hw (by decide) (by decide)⟩, hexcuse⟩

theorem takeYield : D.Upholds w takeYield fun _ _ => True :=
  fun _ hm => ⟨w, le_rfl, hm.remove (by decide) (by decide), trivial⟩

theorem settle {x : Nat → Eval α} (h : ∀ fuel, D.Upholds w (x fuel) post) : D.Upholds w (settle x) post := by
  intro m hm
  unfold Eval.settle
  rcases hr : attempt x m m.fuel with _ | r
  · exact outOfFuel m hm
  · obtain ⟨-, n, rfl⟩ := attempt_eq_some hr
    exact h n m hm

end Upholds

/-! ## Sequences and runs -/

/-- What a step may make of a term: an admitted term, and a run of a run. -/
def Reduct (D : Discipline World) (t : Term) (w : World) (t' : Term) : Prop :=
  D.Admits w t' ∧ ∀ items, t = .seq items → ∃ items', t' = .seq items'

theorem Reduct.of_node {op : Operator} {params : List Term} {t' : Term} (h : D.Admits w t') :
    D.Reduct (.node op params) w t' := ⟨h, fun _ he => nomatch he⟩

theorem Reduct.trans {t t' t'' : Term} (h : D.Reduct t w t') (h' : D.Reduct t' w' t'') : D.Reduct t w' t'' := by
  refine ⟨h'.1, fun items he => ?_⟩
  obtain ⟨items', he'⟩ := h.2 items he
  exact h'.2 items' he'

def StepsUphold (D : Discipline World) (step : Term → Eval Term) : Prop :=
  ∀ w t, D.Admits w t → D.Upholds w (step t) (D.Reduct t)

def NodesUphold (D : Discipline World) (stepNode : Operator → List Term → Eval Term) : Prop :=
  ∀ w op params, D.Admits w (.node op params) → D.Upholds w (stepNode op params) D.Admits

mutual
theorem stepWith_upholds {s : Operator → List Term → Eval Term} (hs : D.NodesUphold s) (w : World) (t : Term)
    (ht : D.Admits w t) : D.Upholds w (Engine.stepWith s t) (D.Reduct t) := by
  cases t with
  | seq items =>
    simp only [Engine.stepWith]
    split
    · exact .pure ⟨ht, fun items' he => ⟨items', he⟩⟩
    · refine .bind (stepFirst_upholds hs w none items (fun _ he => nomatch he) (admits_seq.mp ht).admitsAll) ?_
      intro w' items' _ hitems
      exact .pure ⟨admits_seq.mpr hitems.flatten, fun _ _ => ⟨_, rfl⟩⟩
  | spread items =>
    simp only [Engine.stepWith]
    split
    · exact .pure ⟨ht, fun _ he => nomatch he⟩
    · refine .bind (stepFirst_upholds hs w none items (fun _ he => nomatch he) (admits_spread.mp ht).admitsAll) ?_
      intro w' items' _ hitems
      exact .pure ⟨admits_spread.mpr hitems.flatten, fun _ he => nomatch he⟩
  | node op params =>
    simp only [Engine.stepWith]
    exact (hs w op params ht).imp fun _ _ _ h => .of_node h
  | _ =>
    simp only [Engine.stepWith]
    exact .pure ⟨ht, fun _ he => nomatch he⟩

theorem stepFirst_upholds {s : Operator → List Term → Eval Term} (hs : D.NodesUphold s) (w : World)
    (blocked : Option Stuck) (items : List Term) (hblocked : ∀ cause, blocked = some cause → D.Excuses cause)
    (hitems : D.AdmitsAll w items) : D.Upholds w (Engine.stepFirst s blocked items) D.AdmitsAll := by
  match items with
  | [] =>
    cases blocked with
    | none =>
      simp only [Engine.stepFirst]
      exact .pure admitsAll_nil
    | some cause =>
      simp only [Engine.stepFirst]
      exact .stuck (hblocked cause rfl)
  | t :: rest =>
    have ht : D.Admits w t := hitems t (by simp)
    simp only [Engine.stepFirst]
    split
    · refine .bind (stepFirst_upholds hs w blocked rest hblocked hitems.tail) fun w' rest' hw hrest => ?_
      exact .pure (.cons (ht.mono hw) hrest)
    · refine .bind (.speculate (stepWith_upholds hs w t ht)) fun w' r hw hr => ?_
      cases r with
      | ok next => exact .pure (.cons hr.1 (hitems.tail.mono hw))
      | error cause =>
        have hcause : ∀ c, some cause = some c → D.Excuses c := by
          rintro _ ⟨rfl⟩
          exact hr
        refine .bind (stepFirst_upholds hs w' (some cause) rest hcause (hitems.tail.mono hw)) ?_
        intro w'' rest' hw' hrest
        exact .pure (.cons (ht.mono (hw.trans hw')) hrest)
end

section
variable {step : Term → Eval Term} (hs : D.StepsUphold step)
include hs

theorem advanceWith_upholds : D.StepsUphold (Engine.advanceWith step) := by
  intro w t ht
  refine .bind .get fun w₁ before hw₁ _ => .bind (hs w₁ t (ht.mono hw₁)) fun w₂ next hw₂ hnext => ?_
  refine .bind .entities fun w₃ after hw₃ _ => ?_
  split
  · exact .stuck (excuses_of_root?_none rfl)
  · exact .pure ⟨hnext.1.mono hw₃, hnext.2⟩

theorem runWith_upholds (rounds : Nat) : D.StepsUphold (Engine.runWith step rounds) := by
  induction rounds with
  | zero =>
    intro w t ht
    unfold Engine.runWith
    split
    · exact .pure ⟨ht, fun items he => ⟨items, he⟩⟩
    · exact .outOfFuel
  | succ rounds ih =>
    intro w t ht
    unfold Engine.runWith
    split
    · exact .pure ⟨ht, fun items he => ⟨items, he⟩⟩
    · refine .bind (hs w t ht) fun w₁ next hw₁ hnext => ?_
      exact (ih w₁ next hnext.1).imp fun w₂ v _ hv => hnext.trans hv

end

/-! ## Nodes -/

section
variable {op : Operator} {params : List Term}

theorem bindTo_admits {ps : List Param} {args : List Term} (h : D.AdmitsAll w args) :
    D.AdmitsAll w (Construction.bindTo ps args) := by
  intro t ht
  rcases Construction.mem_bindTo ht with ht | ⟨absorbed, hsub, rfl⟩
  · exact h t ht
  · have habsorbed : D.AdmitsAll w absorbed := fun u hu => h u (hsub hu)
    exact admits_seq.mpr habsorbed.flatten

theorem flattenParams_admits {items : List Term} (hp : D.AdmitsAll w params) (hitems : D.AdmitsAll w items)
    (index : Nat) : D.AdmitsAll w (Construction.flattenParams op params index items) := by
  intro t ht
  obtain ⟨⟨param, position⟩, hmem, ht⟩ := List.mem_flatMap.mp ht
  have hparam : D.Admits w param := hp.getElem? (List.mem_zipIdx_iff_getElem?.mp hmem)
  simp only at ht
  split at ht
  · exact hitems t ht
  · split at ht
    · exact (hparam.elements t ht).2
    · rw [List.mem_singleton.mp ht]
      exact hparam

/-- A node may be built anew, with parameters in the shape that its operator declares. -/
theorem admits_rebuilt {params' : List Term} (hasked : D.node op params) (hshaped : op.Shaped params')
    (hall : D.AdmitsAll w params') : D.Admits w (.node op params') :=
  admits_node.mpr ⟨D.node_update hasked fun _ => hshaped, hall⟩

/-- A value takes the place of the parameter that it was run from. -/
theorem replaceParam_upholds {index : Nat} {t value : Term} (hnode : D.Admits w (.node op params))
    (ht : params[index]? = some t) (hvalue : D.Reduct t w value) :
    D.Upholds w (Engine.replaceParam op params index value) D.Admits := by
  obtain ⟨hop, hparams⟩ := admits_node.mp hnode
  have hset : D.Admits w (.node op (params.set index value)) := by
    refine admits_node.mpr ⟨D.node_update hop fun hshaped => hshaped.set ?_, hparams.set hvalue.1 index⟩
    intro items hitems
    rw [ht] at hitems
    exact hvalue.2 items (Option.some.inj hitems)
  unfold Engine.replaceParam
  split
  · rename_i items
    have hitems : D.AdmitsAll w items := (admits_spread.mp hvalue.1).admitsAll
    split
    · split
      · rename_i params' hbind
        refine .pure (admits_rebuilt hop (Construction.shaped_of_bind hbind) ?_)
        rw [Construction.bind_eq_ok hbind]
        exact bindTo_admits (flattenParams_admits hparams hitems index)
      · exact .stuck (excuses_of_root?_none rfl)
    · exact .pure hset
  · exact .pure hset

theorem reducePending_upholds {run : Term → Eval Term} (hrun : D.StepsUphold run) {blocked : Option Stuck}
    {rest : List (Nat × Term)} (hnode : D.Admits w (.node op params))
    (hblocked : ∀ cause, blocked = some cause → D.Excuses cause)
    (hrest : ∀ index t, (index, t) ∈ rest → params[index]? = some t) :
    D.Upholds w (Engine.reducePending run op params blocked rest)
      fun w' r => ∀ next, r = some next → D.Admits w' next := by
  induction rest generalizing w blocked with
  | nil =>
    cases blocked with
    | none => exact .pure fun _ he => nomatch he
    | some cause => exact .stuck (hblocked cause rfl)
  | cons p rest ih =>
    obtain ⟨index, t⟩ := p
    have ht : params[index]? = some t := hrest index t (by simp)
    have hargument : D.Admits w t := (admits_node.mp hnode).2.getElem? ht
    have hattempt : D.Upholds w (run t >>= Engine.replaceParam op params index) D.Admits :=
      .bind (hrun w t hargument) fun w₁ value hw hvalue => replaceParam_upholds (hnode.mono hw) ht hvalue
    simp only [Engine.reducePending]
    refine .bind hattempt.speculate fun w₁ r hw hr => ?_
    cases r with
    | ok next =>
      refine .pure ?_
      rintro _ ⟨rfl⟩
      exact hr
    | error cause =>
      refine ih (hnode.mono hw) ?_ fun i u hu => hrest i u (List.mem_cons_of_mem _ hu)
      rintro _ ⟨rfl⟩
      exact hr

/-- A rule that reads its parameters as a shaped node has them is excused when it cannot. -/
theorem excuse_of_ordinary {r : Result α} (hnode : D.node op params) (hr : op.Shaped params → Ordinary r) :
    ∀ reason, r = .error reason → D.excuse reason := by
  intro reason hreason
  by_cases hs : op.Shaped params
  · exact D.excuse_ordinary (hr hs reason hreason)
  · exact D.excuse_malformed reason hnode hs

end

/-! ## Rules that step an argument -/

section
variable {step : Term → Eval Term} (hs : D.StepsUphold step) {params : List Term}
include hs

theorem stepOne_upholds {op : Operator} {choose : List Term → Option Nat} (hop : op.params = [.lazySeq])
    (hnode : D.Admits w (.node op params)) : D.Upholds w (stepOne step op choose params) D.Admits := by
  obtain ⟨hasked, hparams⟩ := admits_node.mp hnode
  have hread : D.Upholds w (ofRule op (sequenceArg params 0)) D.Row := by
    refine .ofRule (fun items hitems => hparams.sequenceArg hitems) (excuse_of_ordinary hasked fun hshaped => ?_)
    exact sequenceArg_ordinary hshaped (by rw [hop]; rfl) rfl
  refine .bind hread fun w₁ items hw₁ hitems => ?_
  split
  · exact .pure hitems.ofSequence
  · rename_i index _
    refine .bind (hs w₁ _ (hitems.get index)) fun w₂ next hw₂ hnext => .pure ?_
    have hshaped : op.Shaped [.seq (Sequence.replace items index next)] := by
      rw [Operator.Shaped, hop]
      exact .cons (fun _ => ⟨_, rfl⟩) .nil
    have hrun : D.Row w₂ (Sequence.replace items index next) := (hitems.mono hw₂).replace hnext.1 index
    exact admits_rebuilt hasked hshaped (.cons (admits_seq.mpr hrun) admitsAll_nil)

omit hs in
theorem sequential_shaped (items : List Term) (last : Term) :
    (Operator.flow .sequential).Shaped [.seq items, last] :=
  .cons (fun _ => ⟨items, rfl⟩) (.cons (Param.holds_of_not_isSequence rfl last) .nil)

theorem sequential_upholds (hnode : D.Admits w (.node (.flow .sequential) params)) :
    D.Upholds w (sequential step params) D.Admits := by
  obtain ⟨hasked, hparams⟩ := admits_node.mp hnode
  have hstatements : D.Upholds w (ofRule (.flow .sequential) (sequenceArg params 0)) D.Row :=
    .ofRule (fun items hitems => hparams.sequenceArg hitems)
      (excuse_of_ordinary hasked fun hshaped => sequenceArg_ordinary hshaped rfl rfl)
  have hnext : ∀ w' items last, w ≤ w' → D.Row w' items → D.Admits w' last →
      D.Admits w' (.node (.flow .sequential) [.seq items, last]) := by
    intro w' items last _ hitems hlast
    have hall : D.AdmitsAll w' [.seq items, last] := .cons (admits_seq.mpr hitems) (.cons hlast admitsAll_nil)
    exact admits_rebuilt hasked (sequential_shaped items last) hall
  refine .bind hstatements fun w₁ statements hw₁ hrow => ?_
  have hlast : D.Upholds w₁ (ofRule (.flow .sequential) (arg params 1)) D.Admits :=
    .ofRule (fun t ht => (hparams.mono hw₁).arg ht)
      (excuse_of_ordinary hasked fun hshaped => arg_ordinary hshaped rfl)
  refine .bind hlast fun w₂ last hw₂ hl => ?_
  have hw := hw₁.trans hw₂
  split
  · exact .pure hl
  · rename_i first rest
    have hfirst : D.Admits w₂ first := ((hrow.mono hw₂) first (by simp)).2
    split
    · refine .bind (hs w₂ first hfirst) fun w₃ next hw₃ hn => .pure ?_
      exact hnext w₃ _ last (hw.trans hw₃) ((hrow.mono (hw₂.trans hw₃)).replace hn.1 0) (hl.mono hw₃)
    · split
      · refine .pure ?_
        split
        · exact hl
        · exact hnext w₂ rest last hw ((hrow.mono hw₂).subset (List.subset_cons_self _ _)) hl
      · refine .stuck ?_
        rintro _ ⟨rfl⟩
        exact D.excuse_ordinary rfl

theorem give_upholds (hnode : D.Admits w (.node (.effect .give) params)) :
    D.Upholds w (give step params) D.Admits := by
  obtain ⟨hasked, hparams⟩ := admits_node.mp hnode
  have hread : ∀ w' index p, w ≤ w' → (Operator.effect .give).params[index]? = some p →
      D.Upholds w' (ofRule (.effect .give) (arg params index)) D.Admits := by
    intro w' index p hw hp
    refine .ofRule (fun t ht => (hparams.mono hw).arg ht) (excuse_of_ordinary hasked fun hshaped => ?_)
    exact arg_ordinary hshaped hp
  refine .bind (hread w 0 .eager le_rfl rfl) fun w₁ value hw₁ hvalue => ?_
  refine .bind (hread w₁ 1 .lazy hw₁ rfl) fun w₂ body hw₂ hbody => ?_
  split
  · exact .pure hbody
  · refine .bind (.withGiven (hvalue.mono hw₂) (hs w₂ body hbody)) fun w₃ next hw₃ hnext => .pure ?_
    have hshaped : (Operator.effect .give).Shaped [value, next] :=
      .cons (Param.holds_of_not_isSequence rfl value) (.cons (Param.holds_of_not_isSequence rfl next) .nil)
    have hall : D.AdmitsAll w₃ [value, next] := .cons (hvalue.mono (hw₂.trans hw₃)) (.cons hnext.1 admitsAll_nil)
    exact admits_rebuilt hasked hshaped hall

/-- The body of `atomic`, which goes back into a node when it yields. -/
theorem atomicWithin_upholds (hasked : D.node (.effect .atomic) params) (rounds : Nat) {body : Term}
    (hbody : D.Admits w body) : D.Upholds w (atomicWithin step rounds body) D.Admits := by
  induction rounds generalizing w body with
  | zero =>
    unfold atomicWithin
    split
    · exact .pure hbody
    · exact .outOfFuel
  | succ rounds ih =>
    unfold atomicWithin
    split
    · exact .pure hbody
    · refine .bind (hs w body hbody) fun w₁ next hw₁ hnext => .bind .takeYield fun w₂ raised hw₂ _ => ?_
      have hadmits := hnext.1.mono hw₂
      cases raised with
      | false => exact ih hadmits
      | true =>
        refine .pure ?_
        split
        · exact hadmits
        · have hshaped : (Operator.effect .atomic).Shaped [next] :=
            .cons (Param.holds_of_not_isSequence rfl next) .nil
          exact admits_rebuilt hasked hshaped (.cons hadmits admitsAll_nil)

end

/-! ## Steps -/

theorem applyRule_upholds {step advance : Term → Eval Term} (hs : D.StepsUphold step) (ha : D.StepsUphold advance)
    (rounds : Nat) {op : Operator} {params : List Term} (hnode : D.Admits w (.node op params)) :
    D.Upholds w (Engine.applyRule step advance rounds op params) D.Admits := by
  obtain ⟨hasked, hparams⟩ := admits_node.mp hnode
  by_cases hstep : Engine.stepsArgument op = true
  · unfold Engine.stepsArgument at hstep
    split at hstep
    · exact stepOne_upholds hs rfl hnode
    · exact stepOne_upholds hs rfl hnode
    · exact sequential_upholds hs hnode
    · exact give_upholds hs hnode
    · have hread : D.Upholds w (ofRule (.effect .atomic) (arg params 0)) D.Admits :=
        .ofRule (fun t ht => hparams.arg ht) (excuse_of_ordinary hasked fun hshaped => arg_ordinary hshaped rfl)
      exact .bind hread fun w₁ body _ hbody => atomicWithin_upholds ha hasked rounds hbody
    · cases hstep
  · intro m hm
    have hop : Engine.stepsArgument op = false := by simpa using hstep
    rcases Engine.applyRule_cases hop (rfl : Engine.applyRule step advance rounds op params m = _) with
      ⟨reason, hr⟩ | ⟨t, m', hfired, hr⟩
    · rw [hr]
      refine ⟨⟨w, le_rfl, hm⟩, ?_⟩
      rintro _ ⟨rfl⟩ _ ⟨rfl⟩
      exact hm.excused hop hasked hparams hr
    · rw [hr]
      obtain ⟨w₁, hw, ht, hs'⟩ := hm.fired hasked hparams hfired
      exact ⟨w₁, hw, hs', ht⟩

theorem stepNode_upholds (fuel : Nat) : D.NodesUphold (Engine.stepNode fuel) := by
  induction fuel with
  | zero => exact fun _ _ _ _ => .outOfFuel
  | succ fuel ih =>
    intro w op params hnode
    have hstep : D.StepsUphold (Engine.stepFor fuel) := stepWith_upholds ih
    have hadvance : D.StepsUphold (Engine.advanceFor fuel) := advanceWith_upholds hstep
    have hreduce : ∀ w₁, w ≤ w₁ → D.Upholds w₁
        (Engine.reducePending (Engine.runFor fuel) op params none (Engine.pending op params))
        fun w' r => ∀ next, r = some next → D.Admits w' next := by
      intro w₁ hw₁
      refine reducePending_upholds (runWith_upholds hadvance fuel) (hnode.mono hw₁) (fun _ he => nomatch he) ?_
      intro index t hmem
      obtain ⟨_, _, _, ht, _⟩ := Engine.mem_pending.mp hmem
      exact ht
    refine .bind .charge fun w₁ _ hw₁ _ => .bind (hreduce w₁ hw₁) fun w₂ r hw₂ hr => ?_
    cases r with
    | some next => exact .pure (hr next rfl)
    | none => exact applyRule_upholds hstep hadvance fuel (hnode.mono (hw₁.trans hw₂))

theorem stepFor_upholds (fuel : Nat) : D.StepsUphold (Engine.stepFor fuel) := stepWith_upholds (stepNode_upholds fuel)

theorem advanceFor_upholds (fuel : Nat) : D.StepsUphold (Engine.advanceFor fuel) :=
  advanceWith_upholds (stepFor_upholds fuel)

theorem step_upholds : D.StepsUphold step := fun w t ht => .settle fun fuel => stepFor_upholds fuel w t ht

theorem run_upholds : D.StepsUphold run :=
  fun w t ht => .settle fun fuel => runWith_upholds (advanceFor_upholds fuel) fuel w t ht

/-! ## Executions -/

def Ended (D : Discipline World) (w : World) : Outcome → Prop
  | .value v => D.Admits w v
  | .stuck t cause => D.Admits w t ∧ D.Excuses cause

theorem normalize_admits {t : Term} (h : D.Admits w t) : D.Admits w (Execution.normalize t) := by
  cases t with
  | seq items => exact (admits_seq.mp h).ofSequence
  | spread items => exact (admits_spread.mp h).ofSequence
  | _ => exact h

theorem driveWith_upholds {advance : Term → Eval Term} (ha : D.StepsUphold advance) (rounds : Nat) {t : Term}
    (ht : D.Admits w t) : D.Upholds w (Execution.driveWith advance rounds t) D.Ended := by
  induction rounds generalizing w t with
  | zero =>
    unfold Execution.driveWith
    split
    · exact .pure (normalize_admits ht)
    · exact .outOfFuel
  | succ rounds ih =>
    unfold Execution.driveWith
    split
    · exact .pure (normalize_admits ht)
    · refine .bind (ha w t ht).recover fun w₁ r hw₁ hr => ?_
      cases r with
      | ok next => exact ih hr.1
      | error cause => exact .pure ⟨ht.mono hw₁, hr⟩

theorem supply_upholds {inputs : List Term} (h : D.AdmitsAll w inputs) :
    D.Upholds w (Execution.supply inputs) fun _ _ => True := by
  unfold Execution.supply
  simp only
  split
  · exact .pure trivial
  · exact fun _ hm => ⟨w, le_rfl, hm.append (admits_seq.mpr h.flatten) (by decide) (by decide), trivial⟩

theorem execute_upholds {t : Term} {inputs : List Term} (ht : D.Admits w t) (hinputs : D.AdmitsAll w inputs) :
    D.Upholds w (execute t inputs) fun w' e => D.Ended w' e.outcome := by
  refine .settle fun fuel => .bind (supply_upholds hinputs) fun w₁ _ hw₁ _ => ?_
  refine .bind (driveWith_upholds (advanceFor_upholds fuel) fuel (ht.mono hw₁)) fun w₂ outcome hw₂ hended => ?_
  exact fun _ hm => ⟨w₂, le_rfl, hm, hended⟩

end Discipline

/-! ## States between steps -/

/-- The states that may lie between steps, from a term and entities on: the entities, and the terms that are being run. Within
one step there are such states too. A part of a term is run while the terms around it wait, the body of `give` takes a step
with a value given to it, and between the steps of the body of `atomic` its signal is cleared. The innermost term is the
first. More states are counted than a run comes to: every part of a term may be run, also one that no rule comes to, any part
may be given, and steps may be taken on any machine that has the entities. -/
inductive Reached (t₀ : Term) (s₀ : Entities) : List Term → Entities → Prop
  | start : Reached t₀ s₀ [t₀] s₀
  | step {t t' : Term} {outer : List Term} {m m' : Machine} : Reached t₀ s₀ (t :: outer) m.entities →
      step t m = .ok t' m' → Reached t₀ s₀ (t' :: outer) m'.entities
  | halt {t : Term} {outer : List Term} {m m' : Machine} {halt : Halt} : Reached t₀ s₀ (t :: outer) m.entities →
      step t m = .error halt m' → Reached t₀ s₀ (t :: outer) m'.entities
  | part {t u : Term} {outer : List Term} {s : Entities} : Reached t₀ s₀ (t :: outer) s → u ∈ t.parts →
      Reached t₀ s₀ (u :: t :: outer) s
  | given {t value : Term} {outer : List Term} {s : Entities} : Reached t₀ s₀ (t :: outer) s → value ∈ t.parts →
      Reached t₀ s₀ (t :: outer) (s.put Entity.givenValue value)
  | cleared {terms : List Term} {s : Entities} : Reached t₀ s₀ terms s →
      Reached t₀ s₀ terms (s.remove Entity.yielded)

/-- A discipline that holds at the start holds in every state that is reached. -/
theorem Reached.upheld {World : Type} [Preorder World] {D : Discipline World} {w : World} {t₀ : Term}
    {terms : List Term} {s₀ s : Entities} (ht₀ : D.Admits w t₀) (hs₀ : D.Stored w s₀) (h : Reached t₀ s₀ terms s) :
    ∃ w', w ≤ w' ∧ D.AdmitsAll w' terms ∧ D.Stored w' s := by
  induction h with
  | start => exact ⟨w, le_rfl, .cons ht₀ Discipline.admitsAll_nil, hs₀⟩
  | @step t t' outer m m' _ hstep ih =>
    obtain ⟨w₁, hw₁, hterms, hs⟩ := ih
    have hupheld := Discipline.step_upholds w₁ t (hterms t (by simp)) m hs
    rw [hstep] at hupheld
    obtain ⟨w₂, hw₂, hs', ht'⟩ := hupheld
    exact ⟨w₂, hw₁.trans hw₂, .cons ht'.1 (hterms.tail.mono hw₂), hs'⟩
  | @halt t outer m m' halt _ hstep ih =>
    obtain ⟨w₁, hw₁, hterms, hs⟩ := ih
    have hupheld := Discipline.step_upholds w₁ t (hterms t (by simp)) m hs
    rw [hstep] at hupheld
    obtain ⟨⟨w₂, hw₂, hs'⟩, -⟩ := hupheld
    exact ⟨w₂, hw₁.trans hw₂, hterms.mono hw₂, hs'⟩
  | @part t u outer s _ hu ih =>
    obtain ⟨w₁, hw₁, hterms, hs⟩ := ih
    exact ⟨w₁, hw₁, .cons ((hterms t (by simp)).part hu) hterms, hs⟩
  | @given t value outer s _ hvalue ih =>
    obtain ⟨w₁, hw₁, hterms, hs⟩ := ih
    exact ⟨w₁, hw₁, hterms, hs.put ((hterms t (by simp)).part hvalue) (by decide) (by decide)⟩
  | cleared _ ih =>
    obtain ⟨w₁, hw₁, hterms, hs⟩ := ih
    exact ⟨w₁, hw₁, hterms, hs.remove (by decide) (by decide)⟩

end TermMachine
