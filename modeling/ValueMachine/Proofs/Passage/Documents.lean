import ValueMachine.Proofs.Passage.Transplants

/-! Documents as trees. The scalar of a document is the root of a new tree, which has the documents in
a container below it; each goes into its container as a copy. -/

namespace ValueMachine

open Machine Bridge

variable {m m₁ m₂ m' : Machine} {h k a : Handle} {b b' : Body} {s : Scalar}
  {hs ks places : List Handle} {f : Form} {fs gs : List Form} {j : Json} {items : List Json}
  {fields : List (String × Json)} {n : Nat}

namespace Json

/-- A document as a reader gives it: integers of 64 bits, finite floats, and objects with a key once
and their fields in the order of their keys. -/
inductive Fair : Json → Prop where
  | null : Fair .null
  | bool {b : Bool} : Fair (.bool b)
  | int {i : Int} (hi : Wide.Holds i) : Fair (.int i)
  | float {x : Float} (hx : ∃ negative m e, FloatParts.of x = .finite negative m e) : Fair (.float x)
  | text {s : String} : Fair (.text s)
  | list {items : List Json} (hitems : ∀ j ∈ items, Fair j) : Fair (.list items)
  | object {fields : List (String × Json)} (hkeys : fields.Pairwise fun f g => Bytes.Before f.1 g.1)
      (hfields : ∀ f ∈ fields, Fair f.2) : Fair (.object fields)

mutual

/-- The form of the tree that a document becomes. -/
def form : Json → Form
  | .null => .scalar .undefined
  | .bool b => .scalar (.ofBool b)
  | .int n => .scalar (.ofWide (.ofInt n))
  | .float x => .scalar (.ofFloat x)
  | .text s => .scalar (.ofText s)
  | .list items => .array (formItems items)
  | .object fields => .table (fields.map fun f => Bytes.ofText f.1) (formFields fields)

def formItems : List Json → List Form
  | [] => []
  | j :: rest => form j :: formItems rest

def formFields : List (String × Json) → List Form
  | [] => []
  | (_, j) :: rest => form j :: formFields rest

end

theorem formItems_eq (items : List Json) : formItems items = items.map form := by
  induction items with
  | nil => rfl
  | cons j items ih => rw [formItems, ih, List.map_cons]

theorem formFields_eq (fields : List (String × Json)) :
    formFields fields = fields.map fun f => form f.2 := by
  induction fields with
  | nil => rfl
  | cons f fields ih => rw [formFields, ih, List.map_cons]

end Json

namespace Document

/-- A document becomes a new tree of its form. -/
def Plants (j : Json) : Prop :=
  ∀ ⦃m : Machine⦄, m.isAlive m.here → ∃ h m', toHeld j m = .ok ⟨h, m.here⟩ m' ∧ m.Planted m' h j.form

theorem plants_of_scalar (hj : toHeld j = holdNew s) (hform : j.form = .scalar s)
    (hs : s.target = none) : Plants j := fun m _ => by
  rw [hj, hform]
  exact ⟨_, _, rfl, .alloc m hs⟩

/-- A held container passes into a reference to it. -/
theorem referTo_apply (hb : m.Bare a b) (hlive : m.isAlive m.here) :
    referTo ⟨a, m.here⟩ m
      = .ok ⟨m.heap.next, m.here⟩ (m.alloc (.scalar (.ofTarget a))).2 := by
  have hnew : newReference a m
      = .ok m.heap.next ((m.alloc (.scalar (.ofTarget a))).2.retain a) := by
    rw [newReference, Run.change_bind, ← hb.alloc_retain, ← next_retain m a]
    rfl
  have hdrop := (hb.alloc (.scalar (.ofTarget a))).drop_retain hlive
  have hhere : ((m.alloc (.scalar (.ofTarget a))).2.retain a).here = m.here := here_retain _ a
  rw [referTo, Run.bind_of_ok hnew]
  show EStateM.Result.ok (Held.mk m.heap.next ((m.alloc (.scalar (.ofTarget a))).2.retain a).here)
    (((m.alloc (.scalar (.ofTarget a))).2.retain a).drop ⟨a, m.here⟩) = _
  rw [hhere]
  exact congrArg (EStateM.Result.ok _) hdrop

theorem pushAll_plants (hitems : ∀ j ∈ items, Plants j) (hlive : m.isAlive m.here)
    (hm : m.Bed m₁ a (.array (ks.map some)) ks fs) : ∃ js m₂, pushAll a items m₁ = .ok () m₂ ∧
      m.Bed m₂ a (.array ((ks ++ js).map some)) (ks ++ js) (fs ++ items.map Json.form) := by
  induction items generalizing m₁ ks fs with
  | nil => exact ⟨[], m₁, rfl, by simpa using hm⟩
  | cons j items ih =>
    have hlive₁ := hm.alive hlive
    obtain ⟨h, m₂, hmake, hplanted⟩ := hitems j List.mem_cons_self hlive₁
    have hput (k : Handle) (m' : Machine) (hb : m'.body a = .array (ks.map some)) :
        arrayPush a k m' = .ok () (m'.setBody a (.array ((ks ++ [k]).map some))) := by
      rw [List.map_append]
      exact arrayPush_apply hb k
    obtain ⟨k, m₃, hmove, hbed⟩ := hm.transplant hplanted hlive₁ hput
    obtain ⟨js, m₄, hrest, hdone⟩ := ih (fun j hj => hitems j (List.mem_cons_of_mem _ hj)) hbed
    refine ⟨k :: js, m₄, ?_, by simpa using hdone⟩
    have hall := (Run.bind_of_ok (f := fun _ => pushAll a items) hmove).trans hrest
    rw [pushAll, Run.bind_of_ok hmake]
    simpa only [bind_assoc] using hall

/-- A new container is filled, and then passes into a reference. -/
theorem filled_apply (fill : Handle → Run Unit) (hfill : fill m.heap.next (m.alloc b).2 = .ok () m₁)
    (hbed : m.Bed m₁ m.heap.next b' ks fs) (hlive : m.isAlive m.here) :
    (do
      let v ← adopt (← modifyGet (·.alloc b))
      fill v.handle
      referTo v : Run Held) m
      = .ok ⟨m₁.heap.next, m.here⟩ (m₁.alloc (.scalar (.ofTarget m.heap.next))).2 := by
  have hlive₁ := hbed.alive hlive
  have hhere := hbed.here
  obtain ⟨_, -, hb, -⟩ := hbed
  show (fill m.heap.next >>= fun _ => referTo ⟨m.heap.next, m.here⟩) (m.alloc b).2 = _
  rw [Run.bind_of_ok hfill, ← hhere]
  exact referTo_apply hb hlive₁

theorem plants_list (hitems : ∀ j ∈ items, Plants j) : Plants (.list items) := fun m hlive => by
  have hbed : m.Bed (m.alloc (.array [])).2 m.heap.next (.array (([] : List Handle).map some)) [] [] :=
    .alloc m _
  obtain ⟨js, m₁, hrun, hdone⟩ := pushAll_plants hitems hlive hbed
  refine ⟨m₁.heap.next, _, filled_apply (pushAll · items) hrun hdone hlive, ?_⟩
  rw [Json.form, Json.formItems_eq]
  exact hdone.array

theorem putAll_plants {keys : List Bytes} (hfields : ∀ f ∈ fields, Plants f.2)
    (hlive : m.isAlive m.here) (hn : (keys ++ fields.map fun f => Bytes.ofText f.1).Nodup)
    (hlen : keys.length = ks.length) (hm : m.Bed m₁ a (.hash ⟨keys.zip ks, none⟩) ks fs) :
    ∃ js m₂, putAll a fields m₁ = .ok () m₂ ∧ fields.length = js.length ∧
      m.Bed m₂ a (.hash ⟨(keys ++ fields.map fun f => Bytes.ofText f.1).zip (ks ++ js), none⟩)
        (ks ++ js) (fs ++ fields.map fun f => f.2.form) := by
  induction fields generalizing m₁ keys ks fs with
  | nil => exact ⟨[], m₁, rfl, rfl, by simpa using hm⟩
  | cons f fields ih =>
    obtain ⟨key, j⟩ := f
    have hlive₁ := hm.alive hlive
    obtain ⟨h, m₂, hmake, hplanted⟩ := hfields _ List.mem_cons_self hlive₁
    have hkey : Bytes.ofText key ∉ (keys.zip ks).map (·.1) := by
      intro hmem
      rw [List.map_fst_zip hlen.le] at hmem
      exact (List.nodup_append.1 hn).2.2 _ hmem _ List.mem_cons_self rfl
    have hput (k : Handle) (m' : Machine) (hb : m'.body a = .hash ⟨keys.zip ks, none⟩) :
        hashPut a (Bytes.ofText key) k m' = .ok () (m'.setBody a
          (.hash ⟨(keys ++ [Bytes.ofText key]).zip (ks ++ [k]), none⟩)) := by
      rw [List.zip_append hlen]
      exact hashPut_apply hb hkey k
    obtain ⟨k, m₃, hmove, hbed⟩ := hm.transplant hplanted hlive₁ hput
    have hn' : ((keys ++ [Bytes.ofText key]) ++ fields.map fun f => Bytes.ofText f.1).Nodup := by
      simpa using hn
    obtain ⟨js, m₄, hrest, hjs, hdone⟩ := ih (fun f hf => hfields f (List.mem_cons_of_mem _ hf)) hn'
      (by simpa using hlen) hbed
    refine ⟨k :: js, m₄, ?_, by simpa using hjs, by simpa using hdone⟩
    have hall := (Run.bind_of_ok (f := fun _ => putAll a fields) hmove).trans hrest
    rw [putAll, Run.bind_of_ok hmake]
    simpa only [bind_assoc] using hall

theorem plants_object (hkeys : fields.Pairwise fun f g => Bytes.Before f.1 g.1)
    (hfields : ∀ f ∈ fields, Plants f.2) : Plants (.object fields) := fun m hlive => by
  have hn : (([] : List Bytes) ++ fields.map fun f => Bytes.ofText f.1).Nodup :=
    List.pairwise_map.2 (hkeys.imp fun hbefore => hbefore.ne)
  have hbed : m.Bed (m.alloc (.hash .empty)).2 m.heap.next
      (.hash ⟨([] : List Bytes).zip ([] : List Handle), none⟩) [] [] := .alloc m _
  obtain ⟨js, m₁, hrun, hjs, hdone⟩ := putAll_plants hfields hlive hn rfl hbed
  refine ⟨m₁.heap.next, _, filled_apply (putAll · fields) hrun hdone hlive, ?_⟩
  rw [Json.form, Json.formFields_eq]
  exact hdone.table (by simpa using hjs)

theorem plants (hj : j.Fair) : Plants j := by
  induction hj with
  | null => exact plants_of_scalar rfl rfl rfl
  | @bool b => exact plants_of_scalar rfl rfl (by cases b <;> rfl)
  | @int i hi =>
    refine plants_of_scalar ?_ rfl rfl
    rw [toHeld, Wide.ofInt]
    split <;> rfl
  | float hx => exact plants_of_scalar rfl rfl rfl
  | text => exact plants_of_scalar rfl rfl rfl
  | list _ ih => exact plants_list ih
  | object hkeys _ ih => exact plants_object hkeys ih

end Document

end ValueMachine
