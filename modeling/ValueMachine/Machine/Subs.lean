import ValueMachine.Machine.Scalars

/-! Subs: code values, anonymous or in the symbol table. A named sub belongs to its glob, and a new
definition releases the former one. -/

namespace ValueMachine.Machine

/-- Put a sub into its glob, adopting its count. -/
def installSub (m : Machine) (name : String) (h : Handle) : Machine :=
  let former := m.global? .code name
  (m.updateGlob (Qualified.qualify name) (·.set .code h)).releaseAll former.toList

/-- A new sub. A named one is put into its glob, which keeps the only count. -/
def newSub (m : Machine) (name : Option String) (entry : Entry) (file : String)
    (payload : Option Payload) : Handle × Machine :=
  let (h, m) := m.alloc (.code ⟨name.map Qualified.qualify, file, some entry, payload⟩)
  match name with
  | some n => (h, m.installSub n h)
  | none => (h, m)

/-- Whether a sub has a body. -/
def hasBody (m : Machine) (h : Handle) : Bool := ((m.code? h).bind (·.entry)).isSome

/-- Replace the payload of a sub, and release what the former one owns. -/
def setPayload (m : Machine) (h : Handle) (p : Payload) : Machine :=
  match m.code? h with
  | some c =>
    (m.setBody h (.code { c with payload := some p })).releaseAll
      ((c.payload.map (·.owned)).getD [])
  | none => m

end ValueMachine.Machine
