import ValueMachine.Machine.Exception

/-! Writing scalars and running hooks before a read. Storing into a shared value or into something
that is no scalar raises an exception. -/

namespace ValueMachine.Machine

/-- Store the slots of a scalar into a value. -/
def store (h : Handle) (s : Scalar) : Run Unit := do
  let c ← Run.look (·.cell h)
  if c.immortal then
    Run.change (·.releaseAll s.owned)
    raise .readOnly
  else match c.body with
    | .scalar former => Run.change (·.replaceScalar h former s)
    | _ => raise .notScalar

/-- One hook before a read. -/
def runReadAction (h : Handle) (g : Magic) : ReadAction → Run Unit
  | .record label => Run.change (·.noteAccess (event label g))
  | .tick => do
    Run.change fun m => { m with ticks := m.ticks + 1 }
    store h (.ofInt64 (Int64.ofNat (← Run.look (·.ticks))))

/-- The hooks before a read. -/
def runReadHooks (h : Handle) : Run Unit := do
  (← Run.look (·.cell h)).magic.forM fun g => g.table.onRead.forM (runReadAction h g)

/-- The record of a given type and table on a value. -/
def findMagic (m : Machine) (h : Handle) (type : UInt8) (table : HookTable) : Option Magic :=
  (m.cell h).magic.find? fun g => g.type == type && g.table == table

/-- Detach the first record of a given type and table without running its release hooks. -/
def detach (m : Machine) (h : Handle) (type : UInt8) (table : HookTable) : Machine :=
  m.onHeap (·.update h fun c =>
    { c with magic := c.magic.eraseP fun g => g.type == type && g.table == table })

end ValueMachine.Machine
