import ValueMachine.Proofs.Ownership.Duplicates
import ValueMachine.Proofs.Ownership.Holders

/-! The operations of the runtime, each with the counts that it adopts from its caller, the values
that it borrows and takes counts of its own on, and the counts that it hands over. All of them keep
the machine in order. -/

namespace ValueMachine

open Machine

/-- Run an operation and name the handles whose counts it hands over. -/
def handing {α : Type} (x : Run α) (back : α → List Handle) : Run (List Handle) := do
  return back (← x)

theorem handing_ok {α : Type} {x : Run α} {f : α → List Handle} {m m' : Machine}
    {back : List Handle} (hr : handing x f m = .ok back m') : ∃ a, x m = .ok a m' ∧ back = f a := by
  obtain ⟨a, m₁, hx, hr₁⟩ := Run.bind_ok hr
  cases hr₁
  exact ⟨a, hx, rfl⟩

/-- Operations on values of any kind and on scalars. A stored target is adopted. -/
inductive ScalarOperation where
  | newScalar (s : Scalar)
  | newReference (target : Handle)
  | newCopy (h : Handle)
  | duplicate (h : Handle)
  | retain (h : Handle)
  | release (h : Handle)
  | store (h : Handle) (s : Scalar)
  | storeReference (h target : Handle)
  | storeObject (h : Handle) (className : Option String) (n : Int64)
  | assign (dst src : Handle)
  | bless (h : Handle) (className : String)
  | attach (h : Handle) (g : Magic)
  | detach (h : Handle) (type : UInt8) (table : HookTable)
  | isDefined (h : Handle)
  | number (h : Handle)
  | text (h : Handle)
  | truth (h : Handle)

namespace ScalarOperation

def run : ScalarOperation → Run (List Handle)
  | newScalar s => handing (Machine.newScalar s) ([·])
  | newReference target => handing (Machine.newReference target) ([·])
  | newCopy h => handing (Machine.newCopy h) ([·])
  | duplicate h => handing (Machine.duplicate h) ([·])
  | retain h => handing (Run.change (·.retain h)) fun _ => [h]
  | release h => handing (Run.change (·.release h)) fun _ => []
  | store h s => handing (Machine.store h s) fun _ => []
  | storeReference h target => handing (Machine.storeReference h target) fun _ => []
  | storeObject h className n => handing (Machine.storeObject h className n) fun _ => []
  | assign dst src => handing (Machine.assign dst src) fun _ => []
  | bless h className => handing (Machine.bless h className) fun _ => []
  | attach h g => handing (Run.change (·.attach h g)) fun _ => []
  | detach h type table => handing (Run.change (·.detach h type table)) fun _ => []
  | isDefined h => handing (Machine.isDefined h) fun _ => []
  | number h => handing (Machine.number h) fun _ => []
  | text h => handing (Machine.text h) fun _ => []
  | truth h => handing (Machine.truth h) fun _ => []

def adopts : ScalarOperation → List Handle
  | newScalar s | store _ s => s.owned
  | release h => [h]
  | _ => []

def borrows : ScalarOperation → List Handle
  | newReference target | storeReference _ target => [target]
  | duplicate h | retain h => [h]
  | _ => []

/-- Hooks leave the dying value alone. -/
def Allowed : ScalarOperation → Prop
  | attach _ g => FreeAction.touch ∉ g.table.onFree
  | _ => True

theorem settles (op : ScalarOperation) {m m' : Machine} {back held : List Handle}
    (hm : m.Orderly (op.adopts ++ held)) (hb : ∀ h ∈ op.borrows, m.isFreed h = false)
    (ha : op.Allowed) (hr : op.run m = .ok back m') : m.Settles m' (back ++ held) := by
  cases op <;> obtain ⟨a, hop, rfl⟩ := handing_ok hr
  case newScalar s => exact hm.newScalar hop
  case newReference target => exact Orderly.newReference hm (hb target (by simp [borrows])) hop
  case newCopy h => exact Orderly.newCopy hm hop
  case duplicate h => exact Orderly.duplicate hm (hb h (by simp [borrows])) hop
  case retain h => cases hop; exact Orderly.retain hm (hb h (by simp [borrows]))
  case release h => cases hop; exact Orderly.release hm
  case store h s => exact hm.store hop
  case storeReference h target =>
    exact Orderly.storeReference hm (hb target (by simp [borrows])) hop
  case storeObject h className n => exact Orderly.storeObject hm hop
  case assign dst src => exact Orderly.assign hm hop
  case bless h className => exact Orderly.bless hm hop
  case attach h g =>
    cases hop
    refine Orderly.decorate hm (· ++ [g]) id fun g' hg' => ?_
    rcases List.mem_append.1 hg' with hg' | hg'
    · exact hm.harmless h g' hg'
    · rwa [List.mem_singleton.1 hg']
  case detach h type table =>
    cases hop
    refine Orderly.decorate hm
      (fun magic => magic.eraseP fun g => g.type == type && g.table == table) id fun g hg => ?_
    exact hm.harmless h g (List.mem_of_mem_eraseP hg)
  case isDefined h => exact Orderly.reading hm hop
  case number h => exact Orderly.reading hm hop
  case text h => exact Orderly.reading hm hop
  case truth h => exact Orderly.reading hm hop

end ScalarOperation

/-- Operations on arrays. -/
inductive ArrayOperation where
  | newArray
  | length (h : Handle)
  | reserve (h : Handle) (n : Nat)
  | extend (h : Handle) (index : Nat)
  | store (h : Handle) (i : Int) (value : Handle)
  | fetch (h : Handle) (i : Int)
  | fetchOrNew (h : Handle) (i : Int)
  | take (h : Handle) (i : Int)
  | has (h : Handle) (i : Int)
  | push (h value : Handle)
  | pop (h : Handle)
  | shift (h : Handle)
  | unshift (h : Handle) (n : Nat)
  | clear (h : Handle)

namespace ArrayOperation

def run : ArrayOperation → Run (List Handle)
  | newArray => handing Machine.newArray ([·])
  | length h => handing (arrayLength h) fun _ => []
  | reserve h n => handing (arrayReserve h n) fun _ => []
  | extend h index => handing (arrayExtend h index) fun _ => []
  | store h i value => handing (arrayStore h i value) Option.toList
  | fetch h i => handing (arrayFetch? h i) fun _ => []
  | fetchOrNew h i => handing (arrayFetchOrNew h i) fun _ => []
  | take h i => handing (arrayTake h i) Option.toList
  | has h i => handing (arrayHas h i) fun _ => []
  | push h value => handing (arrayPush h value) fun _ => []
  | pop h => handing (arrayPop h) Option.toList
  | shift h => handing (arrayShift h) Option.toList
  | unshift h n => handing (arrayUnshift h n) fun _ => []
  | clear h => handing (arrayClear h) fun _ => []

def adopts : ArrayOperation → List Handle
  | store _ _ value | push _ value => [value]
  | _ => []

theorem settles (op : ArrayOperation) {m m' : Machine} {back held : List Handle}
    (hm : m.Orderly (op.adopts ++ held)) (hr : op.run m = .ok back m') :
    m.Settles m' (back ++ held) := by
  cases op <;> obtain ⟨a, hop, rfl⟩ := handing_ok hr
  case newArray => cases hop; exact Orderly.alloc (.array []) hm rfl
  case length h => exact Orderly.slotsLook hm hop
  case reserve h n => exact Orderly.slotsCheck hm (fun _ _ _ hr => checkRoom_ok hr) hop
  case extend h index => exact Orderly.slotsCheck hm (fun _ _ _ hr => checkIndex_ok hr) hop
  case store h i value => exact Orderly.arrayStore hm hop
  case fetch h i => exact Orderly.slotsLook hm hop
  case fetchOrNew h i => exact Orderly.arrayFetchOrNew hm hop
  case take h i => exact Orderly.arrayTake hm hop
  case has h i => exact Orderly.slotsLook hm hop
  case push h value => exact Orderly.arrayPush hm hop
  case pop h => exact Orderly.arrayPop hm hop
  case shift h => exact Orderly.arrayShift hm hop
  case unshift h n => exact Orderly.arrayUnshift hm hop
  case clear h => exact Orderly.arrayClear hm hop

end ArrayOperation

/-- Operations on hashes. -/
inductive HashOperation where
  | newHash
  | length (h : Handle)
  | fetch (h : Handle) (key : Bytes)
  | fetchOrNew (h : Handle) (key : Bytes)
  | store (h : Handle) (key : Bytes) (value : Handle)
  | take (h : Handle) (key : Bytes)
  | has (h : Handle) (key : Bytes)
  | clear (h : Handle)
  | start (h : Handle)
  | next (h : Handle)
  | entries (h : Handle)

namespace HashOperation

def run : HashOperation → Run (List Handle)
  | newHash => handing Machine.newHash ([·])
  | length h => handing (hashLength h) fun _ => []
  | fetch h key => handing (hashFetch? h key) fun _ => []
  | fetchOrNew h key => handing (hashFetchOrNew h key) fun _ => []
  | store h key value => handing (hashStore h key value) Option.toList
  | take h key => handing (hashTake h key) Option.toList
  | has h key => handing (hashHas h key) fun _ => []
  | clear h => handing (hashClear h) fun _ => []
  | start h => handing (hashStart h) fun _ => []
  | next h => handing (hashNext h) fun _ => []
  | entries h => handing (hashEntries h) fun _ => []

def adopts : HashOperation → List Handle
  | store _ _ value => [value]
  | _ => []

theorem settles (op : HashOperation) {m m' : Machine} {back held : List Handle}
    (hm : m.Orderly (op.adopts ++ held)) (hr : op.run m = .ok back m') :
    m.Settles m' (back ++ held) := by
  cases op <;> obtain ⟨a, hop, rfl⟩ := handing_ok hr
  case newHash => cases hop; exact Orderly.alloc (.hash .empty) hm rfl List.nodup_nil
  case length h => exact Orderly.tableLook hm hop
  case fetch h key => exact Orderly.tableLook hm hop
  case fetchOrNew h key => exact Orderly.hashFetchOrNew hm hop
  case store h key value => exact Orderly.hashStore hm hop
  case take h key => exact Orderly.hashTake hm hop
  case has h key =>
    obtain ⟨o, m₁, hfetch, hr₁⟩ := Run.bind_ok hop
    cases hr₁
    exact Orderly.tableLook hm hfetch
  case clear h => exact Orderly.hashClear hm hop
  case start h => exact Orderly.hashStart hm hop
  case next h => exact Orderly.hashNext hm hop
  case entries h => exact Orderly.tableLook hm hop

end HashOperation

/-- Operations on globals, subs and temporaries. -/
inductive HolderOperation where
  | global (s : Sigil) (name : String)
  | errorSlot
  | newSub (name : Option String) (entry : Entry) (file : String) (payload : Option Payload)
  | installSub (name : String) (h : Handle)
  | setPayload (h : Handle) (p : Payload)
  | mortal (h : Handle)
  | enter
  | saveTemps
  | freeTemps
  | leave

namespace HolderOperation

def run : HolderOperation → Run (List Handle)
  | global s name => handing (modifyGet (·.global s name)) fun _ => []
  | errorSlot => handing (modifyGet (·.errorSlot)) fun _ => []
  | newSub name entry file payload =>
    handing (modifyGet (·.newSub name entry file payload)) fun h =>
      if name.isSome then [] else [h]
  | installSub name h => handing (Run.change (·.installSub name h)) fun _ => []
  | setPayload h p => handing (Run.change (·.setPayload h p)) fun _ => []
  | mortal h => handing (Run.change (·.mortal h)) fun _ => []
  | enter => handing (Run.change (·.enter)) fun _ => []
  | saveTemps => handing (Run.change (·.saveTemps)) fun _ => []
  | freeTemps => handing (Run.change (·.freeTemps)) fun _ => []
  | leave => handing (Run.change (·.leave)) fun _ => []

def adopts : HolderOperation → List Handle
  | newSub _ _ _ payload => captured payload
  | installSub _ h | mortal h => [h]
  | setPayload _ p => p.owned
  | _ => []

/-- A payload is set on a sub. -/
def Allowed (m : Machine) : HolderOperation → Prop
  | setPayload h _ => (m.code? h).isSome = true
  | _ => True

theorem settles (op : HolderOperation) {m m' : Machine} {back held : List Handle}
    (hm : m.Orderly (op.adopts ++ held)) (ha : op.Allowed m) (hr : op.run m = .ok back m') :
    m.Settles m' (back ++ held) := by
  cases op <;> obtain ⟨a, hop, rfl⟩ := handing_ok hr <;> cases hop
  case global s name => exact Orderly.global s name hm
  case errorSlot => exact Orderly.errorSlot hm
  case newSub name entry file payload => exact Orderly.newSub name entry file payload hm
  case installSub name h => exact Orderly.installSub name hm
  case setPayload h p => exact Orderly.setPayload p hm ha
  case mortal h => exact Orderly.mortal hm
  case enter => exact Orderly.enter hm
  case saveTemps => exact Orderly.saveTemps hm
  case freeTemps => exact Orderly.freeTemps hm
  case leave => exact Orderly.leave hm

end HolderOperation

end ValueMachine
