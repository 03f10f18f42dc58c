import EvaluatorGen.Header.Basic
import EvaluatorGen.Proofs.Lowering.Rules

/-!
Which plans can be printed.

The length of every history is printed, and it must be a size. So printing fails exactly if some
history is longer than that: `render_error_iff`. A graph then has a header if it has a plan that
can be printed, and no header for one of two reasons.
-/
namespace EvaluatorGen

/-! ### Histories -/

theorem forM_ok_iff {ε α : Type} {f : α → Except ε Unit} {xs : List α} :
    xs.forM f = .ok () ↔ ∀ x ∈ xs, f x = .ok () := by
  induction xs with
  | nil => exact iff_of_true rfl (List.forall_mem_nil _)
  | cons x xs ih =>
    rw [List.forM, bind_eq_ok_iff, List.forall_mem_cons, ← ih]
    exact ⟨fun ⟨(), hx, hxs⟩ => ⟨hx, hxs⟩, fun ⟨hx, hxs⟩ => ⟨(), hx, hxs⟩⟩

theorem checkedSize_ok_iff {n : Nat} : checkedSize n = .ok () ↔ n < UInt64.size := by
  simp [checkedSize]

namespace Plan

variable {p : Plan}

theorem render_eq_of_ok (h : p.recurrentInputs.forM (fun r => checkedSize r.2.length) = .ok ()) :
    p.render = .ok (Header.includes ++ "\n" ++ Header.namespaceText p) := by
  rw [render, h]
  rfl

/-- Histories whose lengths are sizes can be printed. -/
theorem render_ok (h : ∀ r ∈ p.recurrentInputs, r.2.offset.toNat < UInt64.size - 1) :
    p.render = .ok (Header.includes ++ "\n" ++ Header.namespaceText p) := by
  apply render_eq_of_ok
  rw [forM_ok_iff]
  intro r hr
  have hlt := h r hr
  rw [checkedSize_ok_iff, RecurrentSlot.length]
  omega

/-- An offset is a size itself, so one buffer more is too many only for the greatest offset. -/
theorem render_error_iff :
    (∃ o, p.render = .error o) ↔
      ∃ r ∈ p.recurrentInputs, r.2.offset.toNat = UInt64.size - 1 := by
  refine ⟨?_, ?_⟩
  · intro ⟨o, herror⟩
    apply Classical.byContradiction
    intro hno
    have hall : ∀ r ∈ p.recurrentInputs, r.2.offset.toNat < UInt64.size - 1 := by
      intro r hr
      have hlt := r.2.offset.toNat_lt_size
      have hne : r.2.offset.toNat ≠ UInt64.size - 1 := fun heq => hno ⟨r, hr, heq⟩
      omega
    rw [render_ok hall] at herror
    cases herror
  · intro ⟨r, hr, heq⟩
    cases hforM : p.recurrentInputs.forM (fun r => checkedSize r.2.length) with
    | error o => exact ⟨o, by rw [render, hforM]; rfl⟩
    | ok u =>
      have hlt := checkedSize_ok_iff.mp (forM_ok_iff.mp hforM r hr)
      rw [RecurrentSlot.length, heq] at hlt
      omega

end Plan

/-! ### Headers -/

namespace Graph

variable {g : Graph} {naming : Naming} {plan : Plan}

theorem generate_of_refused {e : CompileError} (h : g.lower naming = .error e) :
    g.generate naming = .error (.compile e) := by
  rw [generate, h]
  rfl

/-- Once there is a plan, printing it decides. -/
theorem generate_of_lowered (h : g.lower naming = .ok plan) :
    g.generate naming = (plan.render.mapError .overflow).map (⟨plan, ·⟩) := by
  rw [generate, h]
  show (plan.render.mapError GenerateError.overflow >>= fun source =>
    pure (Generated.mk plan source)) = _
  cases plan.render <;> rfl

theorem generate_ok {source : String} (h : g.lower naming = .ok plan)
    (hr : plan.render = .ok source) : g.generate naming = .ok ⟨plan, source⟩ := by
  rw [generate_of_lowered h, hr]
  rfl

end Graph

end EvaluatorGen
