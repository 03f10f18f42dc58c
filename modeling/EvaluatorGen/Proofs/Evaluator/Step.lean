import EvaluatorGen.Proofs.Evaluator.Routines
import EvaluatorGen.Proofs.Identifiers
import EvaluatorGen.Proofs.Meaning

/-!
One call of `Evaluate`.

1. `readSlot_eval`, `writeIndex_eval`: at step `t`, a history of `n` slots is read at slot
   `(t + 1) % n` and written at slot `t % n`.
2. `bindAll_ok` and `realize_ok`: parameters and arguments, and results and targets, are lists
   over the same inputs and outputs, so they meet by position.
3. `Plan.Wired` is what a step relies on, `wired_planOf` that the plan of an acceptable graph
   has it, and `step_ok` what the step then does.
-/
namespace EvaluatorGen

/-! ### Slots -/

theorem readIndex_eval (t k : Nat) :
    Int.tmod (Int.tmod ((t : Int) - k) (k + 1 : Nat) + (k + 1 : Nat)) (k + 1 : Nat) =
      ((t + 1) % (k + 1) : Nat) := by
  by_cases h : k ≤ t
  · obtain ⟨s, rfl⟩ := Nat.exists_eq_add_of_le h
    have hs : ((k + s : Nat) : Int) - k = (s : Nat) := by omega
    have hmod : (k + s + 1) % (k + 1) = (s % (k + 1) + (k + 1)) % (k + 1) := by
      rw [Nat.add_mod_right, Nat.mod_mod, Nat.add_right_comm, Nat.add_mod_left]
    rw [hs, hmod]
    rfl
  · -- The difference is negative and so is its remainder; the sum with the length is not.
    have hsub : (t : Int) - k = -((k - t : Nat) : Int) := by omega
    have hrem : Int.tmod (-((k - t : Nat) : Int)) (k + 1 : Nat) = -((k - t : Nat) : Int) := by
      rw [Int.neg_tmod]
      exact congrArg (fun i : Nat => -(i : Int)) (Nat.mod_eq_of_lt (by omega))
    have hsum : -((k - t : Nat) : Int) + (k + 1 : Nat) = (t + 1 : Nat) := by omega
    rw [hsub, hrem, hsum]
    rfl

/-- Steps that are less than a turn of the ring apart have different slots. -/
theorem mod_ne_of_lt {s t n : Nat} (h : s < t) (h' : t < s + n) : s % n ≠ t % n := by
  intro heq
  have hzero : (t - s) % n = 0 := Nat.sub_mod_eq_zero_of_mod_eq heq.symm
  rw [Nat.mod_eq_of_lt (by omega)] at hzero
  omega

section Slots

variable {V : Type} {h : Histories V} {i : InputBinding} {slot : RecurrentSlot}

theorem readSlot_eval (t : Nat) (i : InputBinding) (slot : RecurrentSlot) :
    (readSlot i slot).index.eval (.ok t) = .ok (((t + 1) % slot.length : Nat) : Int) := by
  rw [RecurrentSlot.length, ← readIndex_eval]
  rfl

theorem writeIndex_eval (t n : Nat) :
    (IndexExpr.rem .timestep n).eval (.ok t) = .ok ((t % n : Nat) : Int) := rfl

theorem locate_ok {s : Slot} {timestep : Except Trap Int} {j : Nat}
    (he : s.index.eval timestep = .ok (j : Int)) (hj : j < (h s.history).length) :
    s.locate timestep h = .ok j := by
  have hin : (0 : Int) ≤ j ∧ (j : Int) < (h s.history).length := by omega
  rw [Slot.locate, he, ok_bind, if_pos hin]
  rfl

theorem load_ok {s : Slot} {timestep : Except Trap Int} {j : Nat}
    (he : s.index.eval timestep = .ok (j : Int)) (hj : j < (h s.history).length) :
    ∃ v, s.load timestep h = .ok v ∧ (h s.history)[j]? = some v := by
  have hv := List.getElem?_eq_getElem hj
  refine ⟨(h s.history)[j], ?_, hv⟩
  rw [Slot.load, locate_ok he hj, ok_bind, hv]
  rfl

end Slots

/-! ### Binding by position -/

theorem mapM_ok {ε α β : Type} {f : α → Except ε β} {P : α → β → Prop} {l : List α}
    (h : ∀ a ∈ l, ∃ b, f a = .ok b ∧ P a b) :
    ∃ bs, l.mapM f = .ok bs ∧ List.Forall₂ P l bs := by
  induction l with
  | nil => exact ⟨[], rfl, .nil⟩
  | cons a l ih =>
    obtain ⟨b, hb, hp⟩ := h a List.mem_cons_self
    obtain ⟨bs, hbs, hps⟩ := ih fun x hx => h x (List.mem_cons_of_mem a hx)
    refine ⟨b :: bs, ?_, .cons hp hps⟩
    rw [List.mapM_cons, hb, ok_bind, hbs]
    rfl

section Binding

variable {V α : Type} {name : α → String} {P : α → V → Prop}

theorem bindAll_ok (env : Env V) {l : List α} {vs : List V} (hp : List.Forall₂ P l vs)
    (hn : (l.map name).Nodup) (hfree : ∀ a ∈ l, env (name a) = none) :
    ∃ env', env.bindAll (l.map name) vs = .ok env' ∧
      (∀ a ∈ l, ∃ v, P a v ∧ env' (name a) = some v) ∧
      ∀ x ∉ l.map name, env' x = env x := by
  induction hp generalizing env with
  | nil => exact ⟨env, rfl, nofun, fun _ _ => rfl⟩
  | @cons a v l vs ha _ ih =>
    rw [List.map_cons, List.nodup_cons] at hn
    rw [List.forall_mem_cons] at hfree
    have hfree' : ∀ b ∈ l, (env.set (name a) v) (name b) = none := by
      intro b hb
      have hne : name b ≠ name a := fun heq => hn.1 (heq ▸ List.mem_map_of_mem hb)
      rw [Env.set_of_ne _ _ hne]
      exact hfree.2 b hb
    obtain ⟨env', he, hbound, hframe⟩ := ih _ hn.2 hfree'
    refine ⟨env', ?_, ?_, ?_⟩
    · rw [List.map_cons, Env.bindAll, Env.declare_of_none v hfree.1, ok_bind, he]
    · rw [List.forall_mem_cons]
      exact ⟨⟨v, ha, by rw [hframe _ hn.1, Env.set_self]⟩, hbound⟩
    · intro x hx
      rw [List.map_cons, List.mem_cons, not_or] at hx
      rw [hframe x hx.2, Env.set_of_ne _ _ hx.1]

end Binding

/-! ### What a step relies on -/

theorem history_injective {x y : String} (h : Identifier.history x = Identifier.history y) :
    x = y := by
  simpa [Identifier.history, ← String.toList_inj] using h

theorem historyParam_injective {x y : String}
    (h : Identifier.historyParam x = Identifier.historyParam y) : x = y := by
  simpa [Identifier.historyParam, ← String.toList_inj] using h

namespace Plan

variable {p : Plan}

/-- The names are distinct, every recurrent output feeds a recurrent input, and every recurrent
    input is fed by one output. -/
structure Wired (p : Plan) : Prop where
  identifiers : p.identifiers.Nodup
  feeds : ∀ o ∈ p.outputs, ∀ x, o.feeds = some x → ∃ r ∈ p.recurrentInputs, r.1.name = x
  fedOnce : ∀ r ∈ p.recurrentInputs, p.outputs.countP (·.feeds == some r.1.name) = 1

theorem mem_recurrentInputs {r : InputBinding × RecurrentSlot} :
    r ∈ p.recurrentInputs ↔ r.1 ∈ p.inputs ∧ r.1.recurrence = some r.2 := by
  obtain ⟨i, slot⟩ := r
  simp only [recurrentInputs, List.mem_filterMap, Option.map_eq_some_iff, Prod.mk.injEq]
  refine ⟨?_, ?_⟩
  · intro h
    obtain ⟨_, hi, _, hs, rfl, rfl⟩ := h
    exact ⟨hi, hs⟩
  · intro h
    obtain ⟨hi, hs⟩ := h
    exact ⟨i, hi, slot, hs, rfl, rfl⟩

namespace Wired

theorem immediateNames (h : p.Wired) : (p.immediateOutputs.map OutputBinding.name).Nodup :=
  (List.nodup_append'.mp h.identifiers).2.1

theorem inputNames (h : p.Wired) : (p.inputs.map InputBinding.name).Nodup := by
  have hn := h.identifiers
  simp only [Plan.identifiers, List.nodup_append'] at hn
  tauto

/-- The parameter of a history has not the name of an input. -/
theorem historyParam_ne (h : p.Wired) {i : InputBinding} {r : InputBinding × RecurrentSlot}
    (hi : i ∈ p.inputs) (hr : r ∈ p.recurrentInputs) :
    Identifier.historyParam r.1.name ≠ i.name := by
  intro heq
  have hapart := (List.nodup_append'.mp (List.nodup_append'.mp h.identifiers).1).2.2
  have hin : i.name ∈ p.inputs.map InputBinding.name := List.mem_map_of_mem hi
  have hparam : i.name ∈ p.recurrentInputs.flatMap
      fun r => [Identifier.history r.1.name, Identifier.historyParam r.1.name] :=
    List.mem_flatMap.mpr ⟨r, hr, by simp [heq]⟩
  exact hapart (List.mem_append_left _ (List.mem_append_left _ (List.mem_append_right _ hin)))
    hparam

theorem input_unique (h : p.Wired) {i j : InputBinding} (hi : i ∈ p.inputs) (hj : j ∈ p.inputs)
    (heq : i.name = j.name) : i = j :=
  List.inj_on_of_nodup_map h.inputNames hi hj heq

/-- An input is found under its name. -/
theorem input?_eq (h : p.Wired) {i : InputBinding} (hi : i ∈ p.inputs) :
    p.input? i.name = some i := by
  obtain ⟨j, hfound⟩ : ∃ j, p.input? i.name = some j :=
    Option.isSome_iff_exists.mp (List.find?_isSome.mpr ⟨i, hi, beq_self_eq_true _⟩)
  have hname : j.name = i.name := by simpa using List.find?_some hfound
  rw [hfound, h.input_unique (List.mem_of_find?_eq_some hfound) hi hname]

theorem historyLength_eq (h : p.Wired) {r : InputBinding × RecurrentSlot}
    (hr : r ∈ p.recurrentInputs) : Header.historyLength p r.1.name = r.2.length := by
  obtain ⟨hi, hs⟩ := mem_recurrentInputs.mp hr
  simp [Header.historyLength, h.input?_eq hi, hs]

theorem recurrentNames (h : p.Wired) : (p.recurrentInputs.map (·.1.name)).Nodup := by
  have hsub : (p.recurrentInputs.map (·.1.name)).Sublist (p.inputs.map InputBinding.name) := by
    have hmap : p.recurrentInputs.map (·.1) = p.inputs.filter (·.recurrence.isSome) := by
      unfold recurrentInputs
      induction p.inputs with
      | nil => rfl
      | cons i is ih => cases hr : i.recurrence <;> simp [hr, ih]
    have hnames : p.recurrentInputs.map (·.1.name) =
        (p.recurrentInputs.map (·.1)).map InputBinding.name := by
      rw [List.map_map]
      rfl
    rw [hnames, hmap]
    exact List.filter_sublist.map _
  exact h.inputNames.sublist hsub

theorem histories (h : p.Wired) :
    (p.recurrentInputs.map fun r => Identifier.history r.1.name).Nodup := by
  have hnames := h.recurrentNames.map (f := Identifier.history) fun _ _ => history_injective
  rwa [List.map_map] at hnames

theorem historyParams (h : p.Wired) :
    (p.recurrentInputs.map fun r => Identifier.historyParam r.1.name).Nodup := by
  have hnames := h.recurrentNames.map (f := Identifier.historyParam)
    fun _ _ => historyParam_injective
  rwa [List.map_map] at hnames

end Wired

end Plan

/-! ### Storing by position -/

/-- A place to store an output in: a parameter of `Evaluate`, or the history behind an input. -/
inductive Place where
  | parameter (name : String)
  | historyOf (input : String)
  deriving DecidableEq

def OutputBinding.place (o : OutputBinding) : Place :=
  match o.feeds with
  | none => .parameter o.name
  | some x => .historyOf x

section Storing

variable {V : Type} {p : Plan} {t : Nat} {m m' : Memory V} {o : OutputBinding} {v : V}

/-- Two memories hold the same in a place. -/
def Memory.SameAt (m m' : Memory V) : Place → Prop
  | .parameter name => m'.outputs name = m.outputs name
  | .historyOf x => m'.histories (Identifier.history x) = m.histories (Identifier.history x)

/-- The memory `m'` is `m` with a value stored in the place of an output. -/
def Memory.Stored (p : Plan) (t : Nat) (m m' : Memory V) (o : OutputBinding) (v : V) : Prop :=
  match o.feeds with
  | none => m'.outputs o.name = some v
  | some x => m'.histories (Identifier.history x) =
      (m.histories (Identifier.history x)).set (t % Header.historyLength p x) v

/-- Every history has its slots. -/
def Histories.Fit (p : Plan) (h : Histories V) : Prop :=
  ∀ r ∈ p.recurrentInputs, (h (Identifier.history r.1.name)).length = r.2.length

theorem place_eq_parameter {x : String} :
    o.place = .parameter x ↔ o.feeds = none ∧ o.name = x := by
  unfold OutputBinding.place
  cases o.feeds <;> simp

theorem place_eq_historyOf {x : String} : o.place = .historyOf x ↔ o.feeds = some x := by
  unfold OutputBinding.place
  cases o.feeds <;> simp

theorem Plan.Wired.places (h : p.Wired) : (p.outputs.map OutputBinding.place).Nodup := by
  rw [List.nodup_iff_count_le_one]
  intro place
  cases place with
  | parameter x =>
    have hone := List.nodup_iff_count_le_one.mp h.immediateNames x
    rw [immediateOutputs, List.count_eq_countP, List.countP_map, List.countP_filter] at hone
    rw [List.count_eq_countP, List.countP_map]
    refine Nat.le_trans (Nat.le_of_eq (List.countP_congr ?_)) hone
    intro o _
    simp [place_eq_parameter, and_comm]
  | historyOf x =>
    have hcount : (p.outputs.map OutputBinding.place).count (.historyOf x) =
        p.outputs.countP (·.feeds == some x) := by
      rw [List.count_eq_countP, List.countP_map]
      apply List.countP_congr
      intro o _
      simp [place_eq_historyOf]
    rw [hcount]
    -- A name that no recurrent input has is fed by no output at all.
    by_cases hfed : ∃ o ∈ p.outputs, o.feeds = some x
    · obtain ⟨o, ho, hx⟩ := hfed
      obtain ⟨r, hr, rfl⟩ := h.feeds o ho x hx
      exact Nat.le_of_eq (h.fedOnce r hr)
    · have hnone : p.outputs.countP (·.feeds == some x) = 0 := by
        apply List.countP_eq_zero.mpr
        intro o ho hx
        exact hfed ⟨o, ho, by simpa using hx⟩
      omega

theorem timestep_eq {r : InputBinding × RecurrentSlot} (hr : r ∈ p.recurrentInputs) (t : Nat) :
    p.evaluator.timestep t = .ok (t : Int) := by
  obtain ⟨hi, hs⟩ := Plan.mem_recurrentInputs.mp hr
  have htimed : p.evaluator.timed = true := List.any_eq_true.mpr ⟨r.1, hi, by simp [hs]⟩
  rw [Evaluator.timestep, if_pos htimed]

theorem store_ok (h : p.Wired) (ho : o ∈ p.outputs) (hfit : m.histories.Fit p) (v : V) :
    ∃ m', (p.target o).store (p.evaluator.timestep t) (p.evaluator.outputs.map Prod.snd) m v =
        .ok m' ∧
      m.Stored p t m' o v ∧ (∀ x, x ≠ o.place → m.SameAt m' x) ∧ m'.histories.Fit p := by
  cases hf : o.feeds with
  | none =>
    have hmem : o.name ∈ p.evaluator.outputs.map Prod.snd := by
      simp only [Plan.evaluator, List.map_map]
      exact List.mem_map_of_mem (List.mem_filter.mpr ⟨ho, by simp [hf]⟩)
    refine ⟨{ m with outputs := m.outputs.set o.name v }, ?_, ?_, ?_, hfit⟩
    · simp only [Plan.target, hf, Target.store, if_pos hmem]
    · simp [Memory.Stored, hf]
    · intro place hplace
      cases place with
      | parameter x =>
        apply Env.set_of_ne
        intro heq
        apply hplace
        rw [place_eq_parameter.mpr ⟨hf, heq.symm⟩]
      | historyOf x => rfl
  | some name =>
    obtain ⟨r, hr, rfl⟩ := h.feeds o ho name hf
    have hlen := hfit r hr
    have hlt : t % r.2.length < (m.histories (Identifier.history r.1.name)).length := by
      rw [hlen]
      exact Nat.mod_lt _ (Nat.succ_pos _)
    have hloc : Slot.locate (.ok (t : Int)) m.histories
        ⟨Identifier.history r.1.name, .rem .timestep r.2.length⟩ = .ok (t % r.2.length) :=
      locate_ok (writeIndex_eval t _) hlt
    refine ⟨⟨m.histories.set (Identifier.history r.1.name)
      ((m.histories (Identifier.history r.1.name)).set (t % r.2.length) v), m.outputs⟩,
      ?_, ?_, ?_, ?_⟩
    · simp only [Plan.target, hf, Target.store, timestep_eq hr, h.historyLength_eq hr, hloc,
        ok_bind]
      rfl
    · simp [Memory.Stored, hf, Histories.set, h.historyLength_eq hr]
    · intro place hplace
      cases place with
      | parameter x => rfl
      | historyOf x =>
        apply if_neg
        intro heq
        apply hplace
        rw [place_eq_historyOf.mpr (hf.trans (congrArg some (history_injective heq.symm)))]
    · intro r' hr'
      simp only [Histories.set]
      split
      · next heq =>
        rw [List.length_set, ← heq]
        exact hfit r' hr'
      · exact hfit r' hr'

theorem Memory.SameAt.trans {m₁ m₂ m₃ : Memory V} {x : Place} (h : m₁.SameAt m₂ x)
    (h' : m₂.SameAt m₃ x) : m₁.SameAt m₃ x := by
  cases x with
  | parameter name => exact Eq.trans h' h
  | historyOf name => exact Eq.trans h' h

/-- What happens elsewhere before and after does not touch a stored value. -/
theorem Memory.Stored.frame {m₁ m₂ : Memory V} (h : m₁.Stored p t m₂ o v)
    (hbefore : m.SameAt m₁ o.place) (hafter : m₂.SameAt m' o.place) : m.Stored p t m' o v := by
  unfold OutputBinding.place at hbefore hafter
  unfold Memory.Stored at h ⊢
  cases hf : o.feeds with
  | none =>
    simp only [hf, Memory.SameAt] at h hafter ⊢
    rw [hafter, h]
  | some x =>
    simp only [hf, Memory.SameAt] at h hbefore hafter ⊢
    rw [hafter, h, hbefore]

/-- Every output is stored in its place, whatever the order, since no two share one. -/
theorem realize_ok (h : p.Wired) {P : OutputBinding → V → Prop} {os : List OutputBinding}
    {vs : List V} (hp : List.Forall₂ P os vs) (hos : ∀ o ∈ os, o ∈ p.outputs)
    (hplaces : (os.map OutputBinding.place).Nodup) (hfit : m.histories.Fit p) :
    ∃ m', realize (p.evaluator.timestep t) (p.evaluator.outputs.map Prod.snd) m
        (os.map p.target) vs = .ok m' ∧
      (∀ o ∈ os, ∃ v, P o v ∧ m.Stored p t m' o v) ∧
      (∀ x ∉ os.map OutputBinding.place, m.SameAt m' x) ∧ m'.histories.Fit p := by
  induction hp generalizing m with
  | nil => exact ⟨m, rfl, nofun, fun x _ => by cases x <;> rfl, hfit⟩
  | @cons o v os vs hov _ ih =>
    rw [List.forall_mem_cons] at hos
    rw [List.map_cons, List.nodup_cons] at hplaces
    obtain ⟨m₁, hstore, hstored, hsame, hfit₁⟩ := store_ok (t := t) h hos.1 hfit v
    obtain ⟨m₂, hrest, hstored₂, hsame₂, hfit₂⟩ := ih hos.2 hplaces.2 hfit₁
    refine ⟨m₂, ?_, ?_, ?_, hfit₂⟩
    · rw [List.map_cons, realize, hstore, ok_bind, hrest]
    · rw [List.forall_mem_cons]
      refine ⟨⟨v, hov, hstored.frame (by cases o.place <;> rfl) (hsame₂ _ hplaces.1)⟩, ?_⟩
      intro o' ho'
      -- What is stored later does not see the first store, which went to another place.
      obtain ⟨w, hw, hst⟩ := hstored₂ o' ho'
      have hne : o'.place ≠ o.place := fun heq => hplaces.1 (heq ▸ List.mem_map_of_mem ho')
      exact ⟨w, hw, hst.frame (hsame _ hne) (by cases o'.place <;> rfl)⟩
    · intro x hx
      rw [List.map_cons, List.mem_cons, not_or] at hx
      exact (hsame x hx.1).trans (hsame₂ x hx.2)

end Storing

/-! ### One step -/

/-- The value that an input has at step `t`. -/
def InputBinding.IsValue {V : Type} (immediate : String → V) (t : Nat) (h : Histories V)
    (i : InputBinding) (v : V) : Prop :=
  match i.recurrence with
  | none => immediate i.name = v
  | some slot => (h (Identifier.history i.name))[(t + 1) % slot.length]? = some v

namespace Plan

variable {V : Type} {R : Runtime V} {p : Plan}

/-- An environment that binds the names of the inputs and no others. -/
def Supplies (p : Plan) (inputs : Env V) : Prop :=
  ∀ name, inputs name ≠ none ↔ ∃ i ∈ p.inputs, i.name = name

/-- What the step `t` does: `h` and `h'` are the histories before and after it. -/
structure StepSpec (R : Runtime V) (p : Plan) (immediate : String → V) (t : Nat)
    (h : Histories V) (r : Record V) (h' : Histories V) : Prop where
  supplied : p.Supplies r.inputs
  given : ∀ i ∈ p.immediateInputs, r.inputs i.name = some (immediate i.name)
  read : ∀ s ∈ p.recurrentInputs,
    r.inputs s.1.name = (h (Identifier.history s.1.name))[(t + 1) % s.2.length]?
  executed : execAll R r.inputs p.body = .ok r.env
  stored : ∀ o ∈ p.outputs, ∃ v, r.env o.value = some v ∧
    match o.feeds with
    | none => r.outputs o.name = some v
    | some x => h' (Identifier.history x) =
        (h (Identifier.history x)).set (t % Header.historyLength p x) v
  fit : h'.Fit p

theorem immediateInputs_sublist : p.immediateInputs.Sublist p.inputs := List.filter_sublist

theorem given_ok (hw : p.Wired) (immediate : String → V) :
    ∃ given, Env.empty.bindAll p.evaluator.inputs (p.evaluator.inputs.map immediate) = .ok given ∧
      (∀ i ∈ p.immediateInputs, given i.name = some (immediate i.name)) ∧
      ∀ x ∉ p.immediateInputs.map InputBinding.name, given x = none := by
  have hvalues : List.Forall₂ (fun (i : InputBinding) v => immediate i.name = v)
      p.immediateInputs (p.evaluator.inputs.map immediate) := by
    simp [evaluator, List.forall₂_map_right_iff, List.forall₂_same]
  obtain ⟨given, hgiven, hin, hout⟩ := bindAll_ok Env.empty hvalues
    (hw.inputNames.sublist (immediateInputs_sublist.map _)) fun _ _ => rfl
  refine ⟨given, hgiven, ?_, hout⟩
  intro i hi
  obtain ⟨v, hv, hg⟩ := hin i hi
  rw [hg, hv]

theorem loads_ok (t : Nat) {h : Histories V} (hfit : h.Fit p) :
    ∃ slots, p.evaluator.bindings.mapM (fun b => b.2.load (p.evaluator.timestep t) h) =
        .ok slots ∧
      List.Forall₂ (fun r v => (h (Identifier.history r.1.name))[(t + 1) % r.2.length]? = some v)
        p.recurrentInputs slots := by
  have hloads : ∀ r ∈ p.recurrentInputs,
      ∃ v, (readSlot r.1 r.2).load (p.evaluator.timestep t) h = .ok v ∧
        (h (Identifier.history r.1.name))[(t + 1) % r.2.length]? = some v := by
    intro r hr
    rw [timestep_eq hr]
    apply load_ok (readSlot_eval t r.1 r.2)
    rw [readSlot, hfit r hr]
    exact Nat.mod_lt _ (Nat.succ_pos _)
  obtain ⟨slots, hslots, hread⟩ := mapM_ok hloads
  refine ⟨slots, ?_, hread⟩
  rw [evaluator, List.mapM_map]
  exact hslots

/-- The names in scope when the arguments are passed. -/
theorem scope_ok (hw : p.Wired) (immediate : String → V) (t : Nat) {h : Histories V}
    (hfit : h.Fit p) :
    ∃ given slots scope,
      Env.empty.bindAll p.evaluator.inputs (p.evaluator.inputs.map immediate) = .ok given ∧
      p.evaluator.bindings.mapM (fun b => b.2.load (p.evaluator.timestep t) h) = .ok slots ∧
      given.bindAll (p.evaluator.bindings.map Prod.fst) slots = .ok scope ∧
      ∀ i ∈ p.inputs, ∃ v, i.IsValue immediate t h v ∧
        scope (Header.buildArg i) = some v := by
  obtain ⟨given, hgiven, hin, hout⟩ := given_ok hw immediate
  obtain ⟨slots, hslots, hread⟩ := loads_ok t hfit
  have hfree : ∀ r ∈ p.recurrentInputs, given (Identifier.historyParam r.1.name) = none := by
    intro r hr
    apply hout
    intro hmem
    obtain ⟨i, hi, heq⟩ := List.mem_map.mp hmem
    exact hw.historyParam_ne (immediateInputs_sublist.subset hi) hr heq.symm
  obtain ⟨scope, hscope, hbound, hframe⟩ := bindAll_ok given hread hw.historyParams hfree
  refine ⟨given, slots, scope, hgiven, hslots, ?_, ?_⟩
  · rw [evaluator, List.map_map]
    exact hscope
  · intro i hi
    cases hr : i.recurrence with
    | none =>
      have himm : i ∈ p.immediateInputs := List.mem_filter.mpr ⟨hi, by simp [hr]⟩
      refine ⟨immediate i.name, by simp [InputBinding.IsValue, hr], ?_⟩
      simp only [Header.buildArg, hr]
      rw [if_neg (by simp), hframe, hin i himm]
      -- The slots were bound under the names of history parameters.
      intro hmem
      obtain ⟨r, hr', heq⟩ := List.mem_map.mp hmem
      exact hw.historyParam_ne hi hr' heq
    | some slot =>
      obtain ⟨v, hv, hb⟩ := hbound (i, slot) (mem_recurrentInputs.mpr ⟨hi, hr⟩)
      refine ⟨v, by simpa [InputBinding.IsValue, hr] using hv, ?_⟩
      simpa [Header.buildArg, hr] using hb

theorem supply_ok (hw : p.Wired) (immediate : String → V) (t : Nat) {h : Histories V}
    (hfit : h.Fit p) :
    ∃ inputs, p.evaluator.supply immediate t h = .ok inputs ∧ p.Supplies inputs ∧
      ∀ i ∈ p.inputs, ∃ v, i.IsValue immediate t h v ∧ inputs i.name = some v := by
  obtain ⟨given, slots, scope, hgiven, hslots, hscope, hargs⟩ := scope_ok hw immediate t hfit
  have hread : ∀ i ∈ p.inputs, ∃ v, scope.read (Header.buildArg i) = .ok v ∧
      i.IsValue immediate t h v := by
    intro i hi
    obtain ⟨v, hv, he⟩ := hargs i hi
    exact ⟨v, Env.read_of_some he, hv⟩
  obtain ⟨args, hmap, hvalues⟩ := mapM_ok hread
  obtain ⟨inputs, hinputs, hin, hout⟩ :=
    bindAll_ok Env.empty hvalues hw.inputNames fun _ _ => rfl
  have hpassed : p.evaluator.arguments.mapM scope.read = .ok args := by
    rw [evaluator, List.mapM_map]
    exact hmap
  refine ⟨inputs, ?_, ?_, hin⟩
  · rw [Evaluator.supply, hgiven, ok_bind, hslots, ok_bind, hscope, ok_bind, hpassed, ok_bind]
    exact hinputs
  · intro name
    refine ⟨?_, ?_⟩
    · intro hne
      by_contra hno
      refine hne (hout name fun hmem => hno ?_)
      obtain ⟨i, hi, heq⟩ := List.mem_map.mp hmem
      exact ⟨i, hi, heq⟩
    · intro hx
      obtain ⟨i, hi, rfl⟩ := hx
      obtain ⟨v, -, hv⟩ := hin i hi
      rw [hv]
      exact Option.some_ne_none v

theorem step_ok (hw : p.Wired)
    (hbody : ∀ inputs, p.Supplies inputs → ∃ env, execAll R inputs p.body = .ok env ∧
      ∀ o ∈ p.outputs, ∃ v, env o.value = some v)
    (immediate : String → V) (t : Nat) {h : Histories V} (hfit : h.Fit p) :
    ∃ r h', p.evaluator.step R immediate t h = .ok (r, h') ∧
      p.StepSpec R immediate t h r h' := by
  obtain ⟨inputs, hsupply, hsupplies, hvalues⟩ := supply_ok hw immediate t hfit
  obtain ⟨env, hexec, hresults⟩ := hbody inputs hsupplies
  have hread : ∀ o ∈ p.outputs, ∃ v, env.read o.value = .ok v ∧ env o.value = some v := by
    intro o ho
    obtain ⟨v, hv⟩ := hresults o ho
    exact ⟨v, Env.read_of_some hv, hv⟩
  obtain ⟨vs, hmap, hvs⟩ := mapM_ok hread
  obtain ⟨m, hreal, hstored, -, hfit'⟩ := realize_ok (t := t) (m := ⟨h, Env.empty⟩) hw hvs
    (fun _ ho => ho) hw.places hfit
  have hresult : p.evaluator.results.mapM (fun r => env.read r.1) = .ok vs := by
    rw [evaluator, List.mapM_map]
    exact hmap
  refine ⟨⟨inputs, env, m.outputs⟩, m.histories, ?_, hsupplies, ?_, ?_, hexec, ?_, hfit'⟩
  · rw [Evaluator.step, hsupply, ok_bind, show p.evaluator.body = p.body from rfl, hexec, ok_bind,
      hresult, ok_bind, show p.evaluator.targets = p.outputs.map p.target from rfl, hreal]
    rfl
  · intro i hi
    obtain ⟨hi, hr⟩ := List.mem_filter.mp hi
    obtain ⟨v, hv, he⟩ := hvalues i hi
    rw [InputBinding.IsValue, Option.isNone_iff_eq_none.mp hr] at hv
    exact he.trans (congrArg some hv.symm)
  · intro r hr
    obtain ⟨hi, hs⟩ := mem_recurrentInputs.mp hr
    obtain ⟨v, hv, he⟩ := hvalues r.1 hi
    rw [InputBinding.IsValue, hs] at hv
    exact he.trans hv.symm
  · exact hstored

end Plan

namespace Graph

variable {g : Graph}

theorem mem_planOf_recurrentInputs {naming : Naming} {r : InputBinding × RecurrentSlot} :
    r ∈ (g.planOf naming).recurrentInputs ↔
      ∃ n ∈ g.nodes, n.isInput ∧ n.inputBinding = r.1 ∧ n.inputBinding.recurrence = some r.2 := by
  rw [Plan.mem_recurrentInputs, mem_planOf_inputs]
  refine ⟨?_, ?_⟩
  · intro h
    obtain ⟨⟨n, hn, hi, heq⟩, hs⟩ := h
    exact ⟨n, hn, hi, heq, by rw [heq, hs]⟩
  · intro h
    obtain ⟨n, hn, hi, heq, hs⟩ := h
    exact ⟨⟨n, hn, hi, heq⟩, by rw [← heq, hs]⟩

theorem wired_planOf (h : g.Acceptable) (naming : Naming) : (g.planOf naming).Wired := by
  refine ⟨?_, ?_, ?_⟩
  · exact (planOf_identifiers_perm h).nodup_iff.mpr (identifiers_nodup h)
  · intro o ho x hx
    obtain ⟨n, hn, hout, rfl⟩ := mem_planOf_outputs.mp ho
    obtain ⟨id, hfit⟩ := (prefixFits_of_acceptable h).output hn hout
    have hr : n.isRecurrent := by
      by_contra hr
      simp [outputBinding, hr] at hx
    obtain ⟨m, hm, hk, hrec⟩ := hfit.feedback hr
    have hsym : m.symbol = x := by simpa [outputBinding, hr, hm] using hx
    obtain ⟨o, -, hget⟩ := Option.bind_eq_some_iff.mp hm
    obtain ⟨k, hk'⟩ := Option.isSome_iff_exists.mp hrec
    refine ⟨(m.inputBinding, ⟨k, m.sizes.reverse⟩), mem_planOf_recurrentInputs.mpr
      ⟨m, List.mem_of_getElem? hget, Node.isInput_iff.mpr hk, rfl, ?_⟩, hsym⟩
    simp [Node.inputBinding, hk']
  · intro r hr
    obtain ⟨n, hn, hi, heq, hs⟩ := mem_planOf_recurrentInputs.mp hr
    have hfed := (passes_of_acceptable h).fed _ (mem_draft_inputs.mpr ⟨n, hn, hi, rfl⟩)
      (by simp [hs])
    rw [← heq, ← hfed, planOf, (Draft.signatureOrder_perm _).countP_eq]
    simp [Draft.feeders, draft, size]

end Graph

end EvaluatorGen
