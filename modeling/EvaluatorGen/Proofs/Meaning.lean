import EvaluatorGen.Proofs.Semantics
import EvaluatorGen.Proofs.Signature

/-!
Lowering preserves meaning.

1. `exec_leaf`, `exec_call`: the statements of one node, in an environment that has its operands
   and none of its identifiers, end well and bind its symbol to its meaning. They change no name
   that is not an identifier of the node.
2. `Agrees` is the invariant of a run: after the statements of the nodes before position `k`,
   the bound names are those of inputs and of nodes before `k`, and every such node has its
   meaning under its symbol. `agrees_succ` carries it over one node, since no identifier has two
   owners, and `exec_draft` over all of them.
3. `lower_preserves_meaning` says it of the plan.
-/
namespace EvaluatorGen

section Execution

variable {V : Type} {R : Runtime V}

theorem execAll_nil (env : Env V) : execAll R env [] = .ok env := rfl

theorem execAll_cons (env : Env V) (s : Stmt) (body : List Stmt) :
    execAll R env (s :: body) = s.exec R env >>= fun env' => execAll R env' body := rfl

theorem execAll_append (env : Env V) (body body' : List Stmt) :
    execAll R env (body ++ body') =
      execAll R env body >>= fun env' => execAll R env' body' := by
  simp [execAll]

/-! ### Statements -/

variable {env : Env V} {name : String}

theorem exec_bufferView {element : ScalarType} {storage label : String} {dims : List UInt64}
    (h : env name = none) :
    (Stmt.bufferView name element storage dims label).exec R env =
      .ok (env.set name (R.buffer element dims (R.member storage))) :=
  Env.declare_of_none _ h

theorem exec_indexed {vars : IndexVars} {buffer : String} {b : V} (hb : env buffer = some b)
    (h : env name = none) :
    (Stmt.func name (.indexed vars buffer)).exec R env = .ok (env.set name (R.index vars b)) := by
  rw [Stmt.exec, Env.read_of_some hb, ok_bind, Env.declare_of_none _ h]

theorem exec_scalar {memberName : String} (h : env name = none) :
    (Stmt.func name (.scalar memberName)).exec R env =
      .ok (env.set name (R.scalar (R.member memberName))) :=
  Env.declare_of_none _ h

theorem exec_funcPair {view step : String} {v w : V} (hv : env view = some v)
    (hw : env step = some w) (h : env name = none) :
    (Stmt.funcPair name view step).exec R env = .ok (env.set name (R.pair v w)) := by
  rw [Stmt.exec, Env.read_of_some hv, ok_bind, Env.read_of_some hw, ok_bind,
    Env.declare_of_none _ h]

theorem exec_expr {e : Expr} {v : V} (he : e.eval R env = .ok (.value v)) (h : env name = none) :
    (Stmt.func name (.expr e)).exec R env = .ok (env.set name v) := by
  rw [Stmt.exec, he, ok_bind, Argument.stage, ok_bind, Env.declare_of_none _ h]

theorem exec_funcGroup {e : Expr} {v : V} (he : e.eval R env = .ok (.value v))
    (h : env name = none) : (Stmt.funcGroup name e).exec R env = .ok (env.set name v) := by
  rw [Stmt.exec, he, ok_bind, Argument.stage, ok_bind, Env.declare_of_none _ h]

theorem exec_computeRoot {v : V} (h : env name = some v) :
    (Stmt.computeRoot name).exec R env = .ok env := by
  rw [Stmt.exec, Env.read_of_some h]
  rfl

/-! ### Leaves -/

section Stages

variable {b s : String} {element : ScalarType} {storage label : String} {dims : List UInt64}
  {vars : IndexVars} (hsb : s ≠ b) (hb : env b = none) (hs : env s = none)
include hsb hb hs

theorem exec_plainStages :
    execAll R env [.bufferView b element storage dims label, .func s (.indexed vars b)] =
      .ok ((env.set b (R.buffer element dims (R.member storage))).set s
        (R.index vars (R.buffer element dims (R.member storage)))) := by
  rw [execAll_cons, exec_bufferView hb, ok_bind, execAll_cons, exec_indexed (Env.set_self _ _ _),
    ok_bind, execAll_nil]
  rw [Env.set_of_ne _ _ hsb, hs]

theorem exec_quantizedStages {v w step : String} (hv : env v = none) (hw : env w = none)
    (hvb : v ≠ b) (hwb : w ≠ b) (hwv : w ≠ v) (hsv : s ≠ v) (hsw : s ≠ w) :
    execAll R env
        [.bufferView b element storage dims label, .func v (.indexed vars b),
         .func w (.scalar step), .funcPair s v w] =
      .ok ((((env.set b (R.buffer element dims (R.member storage))).set v
        (R.index vars (R.buffer element dims (R.member storage)))).set w
        (R.scalar (R.member step))).set s
        (R.pair (R.index vars (R.buffer element dims (R.member storage)))
          (R.scalar (R.member step)))) := by
  rw [execAll_cons, exec_bufferView hb, ok_bind, execAll_cons, exec_indexed (Env.set_self _ _ _),
    ok_bind, execAll_cons, exec_scalar, ok_bind, execAll_cons,
    exec_funcPair _ (Env.set_self _ _ _), ok_bind, execAll_nil]
  · rw [Env.set_of_ne _ _ hsw, Env.set_of_ne _ _ hsv, Env.set_of_ne _ _ hsb, hs]
  · rw [Env.set_of_ne _ _ (Ne.symm hwv), Env.set_self]
  · rw [Env.set_of_ne _ _ hwv, Env.set_of_ne _ _ hwb, hw]
  · rw [Env.set_of_ne _ _ hvb, hv]

end Stages

/-- A leaf declares its buffer, the stages of a quantized leaf, and last its symbol. -/
theorem exec_leaf {n : Node} (hl : n.isLeaf) (hn : n.identifiers.Nodup)
    (hfree : ∀ x ∈ n.identifiers, env x = none) :
    ∃ env', execAll R env n.leafStatements = .ok env' ∧
      (∀ x ∉ n.identifiers, env' x = env x) ∧ env' n.symbol = some (R.leaf n) := by
  -- Only the names that are declared matter; those of the members are left out.
  rw [Node.identifiers_leaf hl] at hn hfree ⊢
  unfold Node.leafStatements Runtime.leaf
  cases hq : n.isQuantized with
  | false =>
    simp only [hq, Bool.false_eq_true, if_false, List.append_nil, List.nodup_cons, List.mem_cons,
      not_or, forall_eq_or_imp] at hn hfree ⊢
    obtain ⟨⟨hsb, -⟩, -⟩ := hn
    obtain ⟨hs, hb, -⟩ := hfree
    refine ⟨_, exec_plainStages hsb hb hs, ?_, Env.set_self _ _ _⟩
    intro x h
    obtain ⟨hxs, hxb, -⟩ := h
    rw [Env.set_of_ne _ _ hxs, Env.set_of_ne _ _ hxb]
  | true =>
    simp only [hq, if_true, List.cons_append, List.nil_append, List.nodup_cons, List.mem_cons,
      not_or, forall_eq_or_imp] at hn hfree ⊢
    obtain ⟨⟨hsb, -, -, -, hsv, hsw, -⟩, ⟨-, -, -, hbv, hbw, -⟩, -, -, -, ⟨hvw, -⟩, -⟩ := hn
    obtain ⟨hs, hb, -, -, -, hv, hw, -⟩ := hfree
    refine ⟨_, exec_quantizedStages hsb hb hs hv hw (Ne.symm hbv) (Ne.symm hbw) (Ne.symm hvw)
      hsv hsw, ?_, Env.set_self _ _ _⟩
    intro x h
    obtain ⟨hxs, hxb, -, -, -, hxv, hxw, -⟩ := h
    rw [Env.set_of_ne _ _ hxs, Env.set_of_ne _ _ hxw, Env.set_of_ne _ _ hxv,
      Env.set_of_ne _ _ hxb]

/-! ### Calls -/

theorem evalArgs_literals (ls : List Int64) :
    Expr.evalArgs R env (ls.map .int) = .ok (ls.map .literal) := by
  induction ls with
  | nil => rfl
  | cons l ls ih => rw [List.map_cons, Expr.evalArgs, Expr.eval, ok_bind, ih]; rfl

/-- Operands that are bound to their meanings, and literals, are evaluated to just these. -/
theorem evalArgs_operands {g : Graph} (ls : List Int64) {value? : UInt64 → Option V}
    {os : List UInt64} (h : ∀ o ∈ os, ∃ v, value? o = some v ∧ env (g.symbolAt o) = some v) :
    ∃ vs, os.mapM value? = some vs ∧
      Expr.evalArgs R env (os.map (fun o => .ref (g.symbolAt o)) ++ ls.map .int) =
        .ok (vs.map .value ++ ls.map .literal) := by
  induction os with
  | nil => exact ⟨[], rfl, evalArgs_literals ls⟩
  | cons o os ih =>
    obtain ⟨v, hv, he⟩ := h o List.mem_cons_self
    obtain ⟨vs, hvs, hes⟩ := ih fun x hx => h x (List.mem_cons_of_mem o hx)
    refine ⟨v :: vs, ?_, ?_⟩
    · rw [List.mapM_cons, hv, hvs]
      rfl
    · rw [List.map_cons, List.cons_append, Expr.evalArgs, Expr.eval, Env.read_of_some he, hes]
      rfl

theorem exec_call {g : Graph} {inputs : Env V} {id : Nat} {n : Node} {c : Callee}
    (hid : g.nodes[id]? = some n) (hcall : n.IsCall) (hc : n.callee? = some c)
    (hops : ∀ o ∈ n.operands, o.toNat < id ∧
      ∃ v, g.meaning R inputs o.toNat = some v ∧ env (g.symbolAt o) = some v)
    (hfree : env n.symbol = none) :
    ∃ v, g.meaning R inputs id = some v ∧
      execAll R env (g.statements id n) = .ok (env.set n.symbol v) := by
  have hbound : ∀ o ∈ n.operands, ∃ v,
      (if o.toNat < id then g.meaning R inputs o.toNat else none) = some v ∧
      env (g.symbolAt o) = some v := by
    intro o ho
    obtain ⟨hlt, v, hv, he⟩ := hops o ho
    exact ⟨v, by rw [if_pos hlt, hv], he⟩
  obtain ⟨vs, hvs, hargs⟩ := evalArgs_operands (R := R) (g.literals n) hbound
  have heval : (g.callExpr n c).eval R env =
      .ok (.value (R.call c (vs.map .value ++ (g.literals n).map .literal))) := by
    rw [Graph.callExpr, Expr.eval, hargs]
    rfl
  refine ⟨R.call c (vs.map .value ++ (g.literals n).map .literal), ?_, ?_⟩
  · rw [Graph.meaning_call hid hcall hc, hvs]
    rfl
  · rcases hcall with ⟨name, a, hk⟩ | hk
    · simp only [Graph.statements, hk, hc]
      rw [execAll_cons, exec_expr heval hfree, ok_bind]
      split
      · rw [execAll_cons, exec_computeRoot (Env.set_self _ _ _), ok_bind, execAll_nil]
      · rw [execAll_nil]
    · simp only [Graph.statements, hk, hc]
      rw [execAll_cons, exec_funcGroup heval hfree, ok_bind, execAll_nil]

end Execution

namespace Graph

variable {V : Type} {R : Runtime V} {inputs env env' : Env V} {g : Graph} {k : Nat} {n : Node}

/-! ### Whole pipelines -/

/-- The environment binds the names of the inputs and no others. -/
def BindsInputs (g : Graph) (inputs : Env V) : Prop :=
  ∀ name, inputs name ≠ none ↔ ∃ n ∈ g.nodes, n.isInput ∧ n.symbol = name

/-- The invariant of a run, after the statements of the nodes before position `k`. -/
structure Agrees (R : Runtime V) (inputs : Env V) (g : Graph) (k : Nat) (env : Env V) :
    Prop where
  owned : ∀ x, env x ≠ none →
    ∃ i m, g.nodes[i]? = some m ∧ x ∈ m.identifiers ∧ (i < k ∨ m.isInput)
  meant : ∀ i m, g.nodes[i]? = some m → m.kind ≠ .output → i < k ∨ m.isInput →
    ∃ v, g.meaning R inputs i = some v ∧ env m.symbol = some v

theorem agrees_zero (h : g.BindsInputs inputs) : g.Agrees R inputs 0 inputs := by
  refine ⟨?_, ?_⟩
  · intro x hx
    obtain ⟨n, hn, hi, rfl⟩ := (h x).mp hx
    obtain ⟨i, hi'⟩ := List.mem_iff_getElem?.mp hn
    exact ⟨i, n, hi', symbol_mem_identifiers (Node.not_output_of_input hi), .inr hi⟩
  · intro i m hm _ hseen
    have hin : m.isInput := hseen.resolve_left (Nat.not_lt_zero i)
    have hk := Node.isInput_iff.mp hin
    obtain ⟨v, hv⟩ := Option.ne_none_iff_exists'.mp
      ((h m.symbol).mpr ⟨m, List.mem_of_getElem? hm, hin, rfl⟩)
    exact ⟨v, by rw [meaning_input hm hk, hv], hv⟩

/-- The identifiers of the next node are not bound yet. -/
theorem Agrees.fresh (h : g.Agrees R inputs k env) (hr : g.reserved.Nodup)
    (hk : g.nodes[k]? = some n) (hn : n.isInput = false) : ∀ x ∈ n.identifiers, env x = none := by
  intro x hx
  by_contra hbound
  -- Whoever bound `x` owns it, and the only owner is node `k` itself.
  obtain ⟨i, m, hm, hxm, hseen⟩ := h.owned x hbound
  obtain rfl := owner_unique hr hm hk hxm hx
  rw [hk] at hm
  cases hm
  rcases hseen with hlt | hin
  · exact Nat.lt_irrefl i hlt
  · rw [hn] at hin
    cases hin

/-- A step that changes only identifiers of node `k` and gives the node its meaning. -/
theorem agrees_succ (h : g.Agrees R inputs k env) (hr : g.reserved.Nodup)
    (hk : g.nodes[k]? = some n) (hframe : ∀ x ∉ n.identifiers, env' x = env x)
    (hmeant : n.kind ≠ .output → ∃ v, g.meaning R inputs k = some v ∧ env' n.symbol = some v) :
    g.Agrees R inputs (k + 1) env' := by
  refine ⟨?_, ?_⟩
  · intro x hx
    by_cases hxn : x ∈ n.identifiers
    · exact ⟨k, n, hk, hxn, .inl (Nat.lt_succ_self k)⟩
    · rw [hframe x hxn] at hx
      obtain ⟨i, m, hm, hxm, hseen⟩ := h.owned x hx
      exact ⟨i, m, hm, hxm, hseen.imp_left Nat.lt_succ_of_lt⟩
  · intro i m hm ho hseen
    by_cases hik : i = k
    · subst hik
      rw [hk] at hm
      cases hm
      exact hmeant ho
    · have hx : m.symbol ∉ n.identifiers := by
        intro hx
        apply hik
        exact owner_unique hr hm hk (symbol_mem_identifiers ho) hx
      rw [hframe _ hx]
      exact h.meant i m hm ho (hseen.imp_left (by omega))

/-- The operands that a node may name are bound to their meanings. -/
theorem Agrees.operand (h : g.Agrees R inputs k env) {o : UInt64} (ho : g.Available k o) :
    o.toNat < k ∧ ∃ v, g.meaning R inputs o.toNat = some v ∧ env (g.symbolAt o) = some v := by
  obtain ⟨hlt, m, hm, hout⟩ := ho
  obtain ⟨v, hv, he⟩ := h.meant o.toNat m hm hout (.inl hlt)
  refine ⟨hlt, v, hv, ?_⟩
  rw [symbolAt, hm]
  exact he

/-- Inputs are bound from the start, and outputs have no symbol, so neither needs a statement. -/
theorem Agrees.pass (h : g.Agrees R inputs k env) (hr : g.reserved.Nodup)
    (hk : g.nodes[k]? = some n) (hin : n.kind ≠ .output → n.isInput) :
    g.Agrees R inputs (k + 1) env := by
  apply agrees_succ h hr hk
  · intro x _
    rfl
  · intro ho
    exact h.meant k n hk ho (.inr (hin ho))

theorem Agrees.exec_leaf (h : g.Agrees R inputs k env) (hr : g.reserved.Nodup)
    (hk : g.nodes[k]? = some n) (hl : n.isLeaf) :
    ∃ env', execAll R env n.leafStatements = .ok env' ∧ g.Agrees R inputs (k + 1) env' := by
  have hnodup : n.identifiers.Nodup :=
    (List.nodup_flatMap.mp (List.nodup_append.mp hr).2.1).1 n (List.mem_of_getElem? hk)
  have hin : n.isInput = false := by
    rcases Node.isLeaf_iff.mp hl with hkind | hkind <;> simp [Node.isInput, hkind]
  obtain ⟨env', he, hframe, hs⟩ := EvaluatorGen.exec_leaf (R := R) hl hnodup (h.fresh hr hk hin)
  exact ⟨env', he, agrees_succ h hr hk hframe fun _ => ⟨_, meaning_leaf hk hl, hs⟩⟩

theorem Agrees.exec_call (h : g.Agrees R inputs k env) (hr : g.reserved.Nodup)
    (hk : g.nodes[k]? = some n) (hfit : g.NodeFits k n) (hc : n.IsCall) :
    ∃ env', execAll R env (g.statements k n) = .ok env' ∧ g.Agrees R inputs (k + 1) env' := by
  obtain ⟨c, hcallee⟩ := hc.callee hfit
  have hs : n.symbol ∈ n.identifiers := symbol_mem_identifiers hc.not_output
  obtain ⟨v, hv, he⟩ := EvaluatorGen.exec_call hk hc hcallee
    (fun o ho => h.operand (hc.available hfit o ho)) (h.fresh hr hk hc.not_input _ hs)
  refine ⟨_, he, agrees_succ h hr hk ?_ fun _ => ⟨v, hv, Env.set_self _ _ _⟩⟩
  intro x hx
  apply Env.set_of_ne
  intro heq
  exact hx (heq ▸ hs)

/-- The statements of node `k` end well and carry the invariant over it. -/
theorem exec_statements (h : g.Agrees R inputs k env) (hr : g.reserved.Nodup)
    (hk : g.nodes[k]? = some n) (hfit : g.NodeFits k n) :
    ∃ env', execAll R env (g.statements k n) = .ok env' ∧ g.Agrees R inputs (k + 1) env' := by
  cases hkind : n.kind with
  | parameter | constant =>
    simp only [statements, hkind]
    exact h.exec_leaf hr hk (by simp [Node.isLeaf, NodeKind.isLeaf, hkind])
  | input | output =>
    simp only [statements, hkind]
    exact ⟨env, rfl, h.pass hr hk (by simp [Node.isInput, hkind])⟩
  | operator name a => exact h.exec_call hr hk hfit (.inl ⟨name, a, hkind⟩)
  | quantizeMarker => exact h.exec_call hr hk hfit (.inr hkind)

theorem exec_draft (h : g.Acceptable) (hin : g.BindsInputs inputs) (hk : k ≤ g.size) :
    ∃ env, execAll R inputs (g.draft k).body = .ok env ∧ g.Agrees R inputs k env := by
  induction k with
  | zero => exact ⟨inputs, by simp [draft, execAll_nil], agrees_zero hin⟩
  | succ k ih =>
    obtain ⟨env, he, hagree⟩ := ih (by omega)
    have hlt : k < g.nodes.length := hk
    have hget : g.nodes[k]? = some g.nodes[k] := List.getElem?_eq_getElem hlt
    obtain ⟨env', he', hagree'⟩ :=
      exec_statements hagree h.identifiers hget (h.nodes k _ hget)
    refine ⟨env', ?_, hagree'⟩
    rw [← draft_succ hget]
    show execAll R inputs ((g.draft k).body ++ g.statements k g.nodes[k]) = _
    rw [execAll_append, he, ok_bind, he']

/-- The pipeline of an acceptable graph binds every symbol to the meaning of its node. -/
theorem exec_body (h : g.Acceptable) (hin : g.BindsInputs inputs) (naming : Naming) :
    ∃ env, execAll R inputs (g.planOf naming).body = .ok env ∧
      ∀ (id : Nat) (n : Node), g.nodes[id]? = some n → n.kind ≠ .output →
        ∃ v, g.meaning R inputs id = some v ∧ env n.symbol = some v := by
  obtain ⟨env, he, hagree⟩ := exec_draft (R := R) h hin (Nat.le_refl g.size)
  refine ⟨env, ?_, fun id n hid ho =>
    hagree.meant id n hid ho (.inl (List.getElem?_eq_some_iff.mp hid).1)⟩
  rw [draft, size, List.take_length] at he
  exact he

theorem bindsInputs_iff {naming : Naming} :
    g.BindsInputs inputs ↔
      ∀ name, inputs name ≠ none ↔ ∃ i ∈ (g.planOf naming).inputs, i.name = name := by
  unfold BindsInputs
  apply forall_congr'
  intro name
  apply iff_congr Iff.rfl
  refine ⟨?_, ?_⟩
  · intro h
    obtain ⟨n, hn, hi, rfl⟩ := h
    exact ⟨n.inputBinding, mem_planOf_inputs.mpr ⟨n, hn, hi, rfl⟩, rfl⟩
  · intro h
    obtain ⟨i, hi, rfl⟩ := h
    obtain ⟨n, hn, hin, rfl⟩ := mem_planOf_inputs.mp hi
    exact ⟨n, hn, hin, rfl⟩

/-- What an output realizes is its first operand, by the symbol that it has in the pipeline. -/
theorem outputBinding_value (h : g.Acceptable) (hn : n ∈ g.nodes) (ho : n.isOutput) :
    ∃ x m, n.operands[0]? = some x ∧ g.nodes[x.toNat]? = some m ∧ m.kind ≠ .output ∧
      (g.outputBinding n).value = m.symbol := by
  obtain ⟨id, hfit⟩ := (prefixFits_of_acceptable h).output hn ho
  have hlen : 0 < n.operands.length := by
    rw [hfit.arity]
    split <;> omega
  have hx : n.operands[0]? = some n.operands[0] := List.getElem?_eq_getElem hlen
  obtain ⟨-, m, hm, hk⟩ := hfit.available _ (List.getElem_mem hlen)
  refine ⟨n.operands[0], m, hx, hm, hk, ?_⟩
  simp [outputBinding, operand?, hx, hm]

/-- So where the symbols have their meanings, an output realizes the meaning of its operand. -/
theorem output_meant (h : g.Acceptable)
    (hmeant : ∀ (id : Nat) (n : Node), g.nodes[id]? = some n → n.kind ≠ .output →
      ∃ v, g.meaning R inputs id = some v ∧ env n.symbol = some v)
    (hn : n ∈ g.nodes) (ho : n.isOutput) :
    ∃ x v, n.operands[0]? = some x ∧ g.meaning R inputs x.toNat = some v ∧
      env (g.outputBinding n).value = some v := by
  obtain ⟨x, m, hx, hm, hk, hval⟩ := outputBinding_value h hn ho
  obtain ⟨v, hv, hsym⟩ := hmeant x.toNat m hm hk
  exact ⟨x, v, hx, hv, by rw [hval, hsym]⟩

theorem lower_preserves_meaning {naming : Naming} {plan : Plan}
    (h : g.lower naming = .ok plan) (R : Runtime V) (inputs : Env V)
    (hin : ∀ name, inputs name ≠ none ↔ ∃ i ∈ plan.inputs, i.name = name) :
    ∃ env, execAll R inputs plan.body = .ok env ∧
      (∀ (id : Nat) (n : Node), g.nodes[id]? = some n → n.kind ≠ .output →
        ∃ v, g.meaning R inputs id = some v ∧ env n.symbol = some v) ∧
      (∀ o ∈ plan.outputs, ∃! n, n ∈ g.nodes ∧ n.kind = .output ∧ n.signatureName = o.name) ∧
      (∀ n ∈ g.nodes, n.kind = .output → ∃ o ∈ plan.outputs, o.name = n.signatureName) ∧
      ∀ o ∈ plan.outputs, ∀ n ∈ g.nodes, n.kind = .output → n.signatureName = o.name →
        ∃ x v, n.operands[0]? = some x ∧ g.meaning R inputs x.toNat = some v ∧
          env o.value = some v := by
  obtain ⟨hacc, rfl⟩ := lower_eq_ok_iff.mp h
  obtain ⟨env, he, hmeant⟩ := exec_body (R := R) hacc (bindsInputs_iff.mpr hin) naming
  refine ⟨env, he, hmeant, ?_, ?_, ?_⟩
  · intro o ho
    obtain ⟨n, hn, hout, rfl⟩ := mem_planOf_outputs.mp ho
    refine ⟨n, ⟨hn, Node.isOutput_iff.mp hout, rfl⟩, ?_⟩
    intro m hx
    obtain ⟨hm, hk, heq⟩ := hx
    exact hacc.output_unique hm hn (Node.isOutput_iff.mpr hk) hout heq
  · intro n hn hk
    have hout := Node.isOutput_iff.mpr hk
    exact ⟨g.outputBinding n, mem_planOf_outputs.mpr ⟨n, hn, hout, rfl⟩, rfl⟩
  · intro o ho n hn hk heq
    obtain ⟨m, hm, hout, rfl⟩ := mem_planOf_outputs.mp ho
    obtain rfl := hacc.output_unique hn hm (Node.isOutput_iff.mpr hk) hout heq
    exact output_meant hacc hmeant hn hout

/-- Addition for every runtime function and for the stages of a quantized leaf. -/
def addRuntime : Runtime Int where
  call _ args := args.foldl (fun
    | sum, .value v => sum + v
    | sum, .literal l => sum + l.toInt) 0
  member name := name.length
  buffer _ dims v := dims.length + v
  index _ v := v
  scalar v := v
  pair v w := v + w

def runningSumInputs : Env Int := (Env.empty.set "x" 5).set "h" 7

theorem runningSum_preserves_meaning :
    runningSum.lower {} = .ok (runningSum.planOf {}) ∧
    (∀ name, runningSumInputs name ≠ none ↔
      ∃ i ∈ (runningSum.planOf {}).inputs, i.name = name) ∧
    ∃ env, execAll addRuntime runningSumInputs (runningSum.planOf {}).body = .ok env ∧
      ∃ v, runningSum.meaning addRuntime runningSumInputs 4 = some v ∧ env "s" = some v := by
  have hin : ∀ name, runningSumInputs name ≠ none ↔
      ∃ i ∈ (runningSum.planOf {}).inputs, i.name = name := by
    intro name
    simp only [runningSum_inputs, runningSumInputs, Env.set, Env.empty, List.mem_cons,
      List.not_mem_nil, or_false, exists_eq_or_imp, exists_eq_left]
    grind
  obtain ⟨env, he, hmeant, -⟩ :=
    lower_preserves_meaning runningSum_lower addRuntime runningSumInputs hin
  exact ⟨runningSum_lower, hin, env, he, hmeant 4 _ rfl nofun⟩

end Graph

end EvaluatorGen
