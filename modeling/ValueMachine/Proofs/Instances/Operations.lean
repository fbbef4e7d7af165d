import ValueMachine.Proofs.Calls.Detached
import ValueMachine.Proofs.Instances.Keeping

/-! The operations of the runtime make no objects. -/

namespace ValueMachine

open Machine

/-- The records by which objects stand for instances are nobody else's to attach or to detach. -/
def Operation.Apart : Operation → Prop
  | .onScalar (.attach _ g) => FreeAction.unclaim ∉ g.table.onFree
  | .onScalar (.detach _ type table) => ¬ (type = Magic.extension ∧ table = .bridge)
  | _ => True

namespace Manner

open Run

variable {S : Set InstanceId}

/-- Taking off a record that is not about an instance. -/
theorem keeping_detach (m : Machine) (h : Handle) {type : UInt8} {table : HookTable}
    (hbridge : ¬ (type = Magic.extension ∧ table = .bridge)) :
    m.Keeps S (m.detach h type table) := by
  have hfilter (gs : List Magic) :
      (gs.eraseP fun g => g.type == type && g.table == table).filter (·.isBridge)
        = gs.filter (·.isBridge) := by
    induction gs with
    | nil => rfl
    | cons g rest ih =>
      cases hg : g.type == type && g.table == table with
      | true =>
        rw [List.eraseP_cons, hg, cond_true]
        simp only [Bool.and_eq_true, beq_iff_eq] at hg
        have hnot : ¬ g.isBridge = true := by
          simpa only [Magic.isBridge, Bool.and_eq_true, beq_iff_eq, hg.1, hg.2] using hbridge
        rw [List.filter_cons_of_neg hnot]
      | false =>
        rw [List.eraseP_cons, hg, cond_false, List.filter_cons, List.filter_cons, ih]
  have hwords : Cell.words { m.cell h with
      magic := (m.cell h).magic.eraseP fun g => g.type == type && g.table == table }
        = (m.cell h).words := by
    rw [Cell.words, hfilter]
    rfl
  exact .set hwords (fun hp => ⟨fun g hg => hp.hooks g (List.mem_of_mem_eraseP hg),
    fun hf => hwords ▸ hp.freed hf⟩) id

/-- No operation but the conversion of an instance makes an object, whatever its outcome. -/
theorem keeping_operation (hS : S.InjOn InstanceId.identity) (op : Operation) (ha : op.Apart) :
    op.run.Moves (keeping S) := by
  refine (keeping_detached hS).operation op ?_
  cases op with
  | onScalar op =>
    cases op with
    | attach h g => exact fun m => Keeps.attach m h ha
    | detach h type table => exact fun m => keeping_detach m h ha
    | newScalar s => exact fun m => Keeps.alloc m _
    | store h s => exact fun hb => Keeps.setBody _ (by rw [isFreed, hb]; rfl) rfl
    | _ => trivial
  | _ => trivial

end Manner

end ValueMachine
