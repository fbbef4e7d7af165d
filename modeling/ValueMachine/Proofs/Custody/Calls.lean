import ValueMachine.Proofs.Calls.Stages
import ValueMachine.Proofs.Custody.Evaluation

/-! Calls, traps and the load of modules in a custody, as far as the bodies of subs and the steps of
initialisers do what the custody allows. -/

namespace ValueMachine

open Machine Run

theorem undefined_mem_places (i : Interp) : i.undefined ∈ i.places := by simp [Interp.places]

namespace Custody.Lawful

variable {C : Custody} {held : List Handle} {m : Machine} {h : Handle}
  {body : Entry → Handle → Run Unit}

variable (hC : C.Lawful)

include hC

/-! ### Frames -/

theorem unwind (frame : Frame) (hm : C.Holds held m) : C.Holds held (m.unwind frame) := by
  refine hC.onStack (fun i => ?_) hm
  rw [Pile.toList_cut]
  exact List.subset_append_of_subset_left _ (List.take_subset _ _)

/-- A change of the interpreter in focus that touches no place of a value. -/
theorem aloof {f : Interp → Interp} (hf : ∀ i, (f i).places = i.places) (hm : C.Holds held m) :
    C.Holds held (m.onInterp f) :=
  hC.onInterp (by rw [hf]; exact List.subset_append_left _ _) hm

theorem freeTemps (hm : C.Holds held m) : C.Holds held m.freeTemps := by
  have hfreed : m.interp.temps.downTo m.interp.floor ⊆ m.interp.places ++ held := by
    intro k hk
    have hmem : k ∈ m.interp.temps.toList := by simpa [Pile.toList] using List.mem_of_mem_take hk
    simp [Interp.places, Interp.owned, hmem]
  refine hC.mono (List.subset_append_right _ _) (hC.releaseAll hfreed (hC.onInterp ?_ (hC.places hm)))
  refine List.subset_append_of_subset_left _ fun k hk => ?_
  simp only [Interp.places, Interp.owned, Pile.toList_cut, List.mem_append] at hk ⊢
  have htake (hk : k ∈ m.interp.temps.toList.take m.interp.floor) : k ∈ m.interp.temps.toList :=
    List.mem_of_mem_take hk
  tauto

/-- The scope of a call is opened. -/
theorem enter (hm : C.Holds held m) : C.Holds held m.enter.saveTemps :=
  hC.aloof (fun _ => rfl) (hC.aloof (fun _ => rfl) hm)

/-- The scope of a call is closed. -/
theorem close (n : Nat) (hm : C.Holds held m) :
    C.Holds held (m.truncate n).freeTemps.leave :=
  hC.aloof (fun _ => rfl) (hC.freeTemps (hC.truncate n hm))

theorem settle (mark : Nat) (want : Want) (hm : C.Holds held m) :
    C.Holds held (m.settle mark want).2 := by
  cases want with
  | void => exact hC.truncate mark hm
  | list => exact hm
  | scalar =>
    refine hC.of_mem (k := (m.above mark).getLast?.getD m.interp.undefined) ?_
    refine hC.push List.mem_cons_self (hC.truncate mark (hC.find ?_ hm))
    cases hl : (m.above mark).getLast? with
    | none => exact undefined_mem_places m.interp
    | some k => exact m.above_subset_places mark (List.mem_of_getLast? hl)

/-! ### Traps and calls -/

theorem trapped {x : Run Nat} (hx : x.Honours C held noHandles) (root : Nat) (want : Want) :
    (trapped root want x).Honours C held noHandles := by
  intro m hm
  rw [trapped_apply]
  have hend := hx _ (hC.setError (s := .ofByteText ⟨[], false⟩) (List.nil_subset _) hm)
  split
  next n m' hr => rw [hr] at hend; exact hend
  next m' hr =>
    rw [hr] at hend
    have hunwound := hC.unwind (m.frame root) hend.2
    unfold caught
    split
    · have hplace : m'.interp.undefined ∈ (m'.unwind (m.frame root)).interp.places :=
        undefined_mem_places (m'.unwind (m.frame root)).interp
      exact hC.of_mem (hC.push List.mem_cons_self (hC.find hplace hunwound))
    · exact hunwound
  next e m' _ hr => rw [hr] at hend; exact hend

/-- The call of a sub. How a body may stop is no matter of the contexts and of the sub's count. -/
theorem invoke (hbody : ∀ entry {sub held}, sub ∈ held → (body entry sub).Honours C held noHandles)
    (hstops : ∀ {e m m'}, C.Stops e m → C.Stops e m') (hh : h ∈ held) (mark : Nat)
    (flags : CallFlags) :
    (invoke body h mark flags).Honours C held noHandles := by
  rw [invoke_eq]
  refine Honours.widen hC (w := noHandles) (Honours.bind hC (o := ([·]))
    (Honours.ite (hC.resolveMethod hh mark) (hC.resolveSub hh)) fun sub => ?_)
    fun _ => List.nil_subset _
  have hsub : sub ∈ [sub] ++ held := List.mem_cons_self
  refine Honours.andThen hC (Honours.look _) fun code => ?_
  cases code.bind (·.entry) with
  | none => exact Honours.andThen hC (Honours.look _) fun _ => Honours.raise hC _
  | some entry =>
    refine Honours.andThen hC (Honours.andThen hC (Honours.change fun hm => ?_) fun _ => ?_)
      fun _ => Honours.modifyGet fun hm => hC.settle mark _ hm
    · exact hC.retain hsub (hC.aloof (fun _ => rfl) hm)
    · refine Honours.always (hbody entry hsub) (fun hsup hm => ?_) hstops
      exact hC.release (hsup hsub) (hC.aloof (fun _ => rfl) hm)

theorem callWith
    (hbody : ∀ entry {sub held}, sub ∈ held → (body entry sub).Honours C held noHandles)
    (hstops : ∀ {e m m'}, C.Stops e m → C.Stops e m') (hh : h ∈ held) (flags : CallFlags) :
    (callWith body h flags).Honours C held noHandles := by
  have hat (mark : Nat) : (callAt body h flags mark).Honours C held noHandles := by
    have hinvoke := hC.invoke hbody hstops hh mark flags
    exact Honours.ite (hC.trapped hinvoke mark _) hinvoke
  have hscoped (mark : Nat) : (callScoped body h flags mark).Honours C held noHandles := by
    refine Honours.ite ?_ (hat mark)
    refine Honours.andThen hC (Honours.change fun hm => hC.enter hm) fun _ => ?_
    refine Honours.andThen hC (hat mark) fun _ => ?_
    exact Honours.andThen hC (Honours.change fun hm => hC.close mark hm) fun _ =>
      Honours.pure hC (List.nil_subset _)
  rw [callWith_eq]
  refine Honours.ite (Honours.andThen hC (Honours.look _) hscoped) ?_
  refine Honours.andThen hC (Honours.look _) fun mark => ?_
  exact Honours.andThen hC (Honours.change fun hm => hC.aloof (fun _ => rfl) hm) fun _ => hscoped mark

theorem requireWith {boot : BootStep → Run Unit}
    (hboot : ∀ step, (boot step).Honours C held noHandles) (name : String) :
    (requireWith boot name).Honours C held noHandles := by
  refine Honours.andThen hC (Honours.look _) fun i => ?_
  refine Honours.ite (Honours.pure hC (List.nil_subset _)) ?_
  cases i.modules.find? (·.1 == name) with
  | none => exact Honours.raise hC _
  | some p =>
    refine Honours.andThen hC (Honours.change fun {m} hm => hC.aside _ m.ticks m.claims hm) fun _ => ?_
    refine Honours.andThen hC (Honours.forM_mem hC fun step _ => hboot step) fun _ => ?_
    exact Honours.change fun hm => hC.aloof (fun _ => rfl) hm

end Custody.Lawful

end ValueMachine
