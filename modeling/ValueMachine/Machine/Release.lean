import ValueMachine.Machine.Globals

/-! The release of values. When the last count goes, the release hooks run, the value is gone, and
the counts that it owned are released in turn. -/

namespace ValueMachine.Machine

/-- One more claim on a host instance; the first puts it into the map. -/
def claim (m : Machine) (i : InstanceId) : Machine :=
  if m.claims.any (·.1 = i) then
    { m with claims := m.claims.map fun (j, n) => if j = i then (j, n + 1) else (j, n) }
  else { m with claims := m.claims ++ [(i, 1)] }

/-- The claims on a host instance. -/
def claimsOn (m : Machine) (i : InstanceId) : Nat :=
  ((m.claims.find? (·.1 = i)).map (·.2)).getD 0

/-- One claim less on the instance with this word; the last takes it out of the map. -/
def unclaim (m : Machine) (word : UInt64) : Machine :=
  { m with claims := m.claims.filterMap fun (j, n) =>
      if j.identity = word then (if n > 1 then some (j, n - 1) else none) else some (j, n) }

/-- Attach a record of hooks. -/
def attach (m : Machine) (h : Handle) (g : Magic) : Machine :=
  m.onHeap (·.update h fun c => { c with magic := c.magic ++ [g] })

/-- The text under which a hook notes what it has seen. -/
def event (label : String) (g : Magic) : String := label ++ ":" ++ toString g.word.toNat

/-- One release hook of a dying value; `drop` releases a count. -/
def runFreeAction (drop : Handle → Machine → Machine) (h : Handle) (g : Magic) (m : Machine) :
    FreeAction → Machine
  | .record label => m.noteFreed (event label g)
  | .revive name =>
    let (reborn, m) := (m.noteFreed (event name g)).global .scalar name
    m.attach reborn g
  | .unclaim => m.unclaim g.word
  | .touch => drop h (m.retain h)

/-- All release hooks of a dying value, record by record. -/
def runFreeHooks (drop : Handle → Machine → Machine) (h : Handle) (records : List Magic)
    (m : Machine) : Machine :=
  records.foldl (fun m g => g.table.onFree.foldl (runFreeAction drop h g) m) m

/-- Give a place up, and count one live value less. -/
def vacate (m : Machine) (h : Handle) : Machine :=
  (m.onHeap (·.set h .freed)).onInterp fun i => { i with live := i.live - 1 }

/-- Release one count, to a nesting of at most `fuel` values. -/
def releaseWithin : Nat → Handle → Machine → Machine
  | 0, _, m => m
  | fuel + 1, h, m =>
    let c := m.cell h
    if c.immortal || c.count = 0 then m
    else if c.count > 1 then m.onHeap (·.set h { c with count := c.count - 1 })
    else
      let m := m.onHeap (·.set h { c with count := 0, magic := [] })
      let m := runFreeHooks (releaseWithin fuel) h c.magic m
      let owned := (m.body h).owned
      owned.foldl (fun m k => releaseWithin fuel k m) (m.vacate h)

/-- Release one count. Each level of the nesting vacates a place, twice at most where a hook touches
the dying value. -/
def release (m : Machine) (h : Handle) : Machine := releaseWithin (2 * m.heap.size + 2) h m

/-- Release one count on each handle. -/
def releaseAll (m : Machine) (hs : List Handle) : Machine := hs.foldl release m

end ValueMachine.Machine
