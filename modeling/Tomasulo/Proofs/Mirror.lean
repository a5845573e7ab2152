import Tomasulo.Proofs.BackEnd
import Tomasulo.Proofs.Renumbering

/-!
# Proofs/Mirror — two cores in step

`Step.Mirrors φ bound R x y`: on every core that copies one on which `y` succeeds, `x` succeeds too,
with a result that `R` relates to that of `y`, and the cores it leaves are again copy and original.
The actions of a core mirror each other one by one, hence so do the steps of a cycle up to fetch.
The log plays no part.
-/

namespace Tomasulo

namespace Step

variable {φ : Nat → Nat} {bound : Nat} {α β γ δ : Type}

/-- **An action does on every copy what another one does on the original**, if that one succeeds. -/
def Mirrors (φ : Nat → Nat) (bound : Nat) (R : α → β → Prop) (x : Step α) (y : Step β) : Prop :=
  ∀ ⦃c d : Core⦄, c.Copies φ bound d → ∀ ⦃b d'⦄, y.run d = .ok b d' →
    ∃ a c', x.run c = .ok a c' ∧ R a b ∧ c'.Copies φ bound d'

namespace Mirrors

/-! ## Elementary actions -/

section Rules

variable {R : α → β → Prop} {S : γ → δ → Prop}

/-- Values that match are mirrored. -/
theorem pure {a : α} {b : β} (h : R a b) :
    Mirrors φ bound R (Pure.pure a : Step α) (Pure.pure b : Step β) := by
  intro c d hcd b' d' hrun
  cases hrun
  exact ⟨a, c, rfl, h, hcd⟩

/-- Sequences are mirrored step by step. -/
theorem bind {x : Step α} {y : Step β} {f : α → Step γ} {g : β → Step δ}
    (h : Mirrors φ bound R x y) (hf : ∀ a b, R a b → Mirrors φ bound S (f a) (g b)) :
    Mirrors φ bound S (x >>= f) (y >>= g) := by
  intro c d hcd b' d' hrun
  cases hy : y.run d with
  | error halt d₁ =>
    rw [run_bind_error hy] at hrun
    cases hrun
  | ok b d₁ =>
    rw [run_bind_ok hy] at hrun
    obtain ⟨a, c₁, hx, hab, hcd₁⟩ := h hcd hy
    rw [run_bind_ok hx]
    exact hf a b hab hcd₁ hrun

/-- An action that always stops leaves nothing to repeat. -/
theorem throw {x : Step α} {y : Step β} {halt : Halt}
    (h : ∀ d, ∃ d', y.run d = .error halt d') : Mirrors φ bound R x y := by
  intro c d hcd b d' hrun
  obtain ⟨d₁, hstop⟩ := h d
  cases hstop.symm.trans hrun

/-- Branches are mirrored if they are taken together. -/
theorem ite {p q : Prop} [Decidable p] [Decidable q] (h : p ↔ q) {x x' : Step α} {y y' : Step β}
    (hx : Mirrors φ bound R x y) (hx' : Mirrors φ bound R x' y') :
    Mirrors φ bound R (if p then x else x') (if q then y else y') := by
  by_cases hq : q
  · rwa [if_pos hq, if_pos (h.2 hq)]
  · rwa [if_neg hq, if_neg (hq ∘ h.1)]

/-- Checks are mirrored if they succeed together. -/
theorem lift {x : Except Fault α} {y : Except Fault β}
    (h : ∀ b, y = .ok b → ∃ a, x = .ok a ∧ R a b) :
    Mirrors φ bound R (liftM x : Step α) (liftM y : Step β) := by
  intro c d hcd b d' hrun
  cases hy : y with
  | error cause =>
    rw [hy] at hrun
    cases hrun
  | ok b' =>
    rw [run_lift_ok hy] at hrun
    cases hrun
    obtain ⟨a, hx, hab⟩ := h b hy
    exact ⟨a, c, run_lift_ok hx c, hab, hcd⟩

/-- Loops over lists that match are mirrored. -/
theorem forM {f : α → Step Unit} {g : β → Step Unit} {xs : List α} {ys : List β}
    (h : List.Forall₂ R xs ys) (hf : ∀ x y, R x y → Mirrors φ bound Eq (f x) (g y)) :
    Mirrors φ bound Eq (xs.forM f) (ys.forM g) := by
  induction h with
  | nil => exact pure rfl
  | cons hxy _ ih => exact bind (hf _ _ hxy) fun _ _ _ => ih

theorem forM_same {f g : α → Step Unit} (xs : List α)
    (hf : ∀ x, Mirrors φ bound Eq (f x) (g x)) :
    Mirrors φ bound Eq (xs.forM f) (xs.forM g) :=
  forM (List.forall₂_same.2 fun _ _ => rfl) fun x _ h => h ▸ hf x

/-- The loop over a list repeats the loop over the list it is an image of. -/
theorem forM_map {h : β → α} {f : α → Step Unit} {g : β → Step Unit} (ys : List β)
    (hf : ∀ y, Mirrors φ bound Eq (f (h y)) (g y)) :
    Mirrors φ bound Eq ((ys.map h).forM f) (ys.forM g) := by
  refine forM (R := fun x y => x = h y)
    (List.forall₂_map_left_iff.2 (List.forall₂_same.2 fun _ _ => rfl)) ?_
  rintro _ y rfl
  exact hf y

/-- The whole core is mirrored. -/
theorem get : Mirrors φ bound (fun c d => c.Copies φ bound d) (MonadState.get : Step Core)
    (MonadState.get : Step Core) := by
  intro c d hcd b d' hrun
  cases hrun
  exact ⟨c, c, rfl, hcd, hcd⟩

/-- The machine is mirrored. -/
theorem machine : Mirrors φ bound (fun m n => m.Copies φ bound n) Step.machine Step.machine :=
  bind get fun _ _ h => pure h.machine

/-- What is logged does not matter. -/
theorem emit (e e' : Event) : Mirrors φ bound Eq (Step.emit e) (Step.emit e') := by
  intro c d hcd b d' hrun
  cases hrun
  exact ⟨(), _, rfl, rfl, hcd.machine, hcd.size, hcd.record⟩

/-- Changes of the machine are mirrored if they keep copies. -/
theorem onMachine {f g : Machine → Machine}
    (h : ∀ m n, m.Copies φ bound n → (f m).Copies φ bound (g n)) :
    Mirrors φ bound Eq (Step.onMachine f) (Step.onMachine g) := by
  intro c d hcd b d' hrun
  cases hrun
  exact ⟨(), _, rfl, rfl, h _ _ hcd.machine, hcd.size, hcd.record⟩

end Rules

/-- A record is found under its other number. -/
theorem record (j : Nat) :
    Mirrors φ bound (fun r s => r = s.renumber φ) (Step.record (φ j)) (Step.record j) := by
  intro c d hcd r d' hrun
  cases hj : d.trace[j]? with
  | none =>
    simp only [Step.record, EStateM.run_bind, EStateM.run_get, Trace.read, hj] at hrun
    cases hrun
  | some s =>
    rw [run_record hj] at hrun
    cases hrun
    exact ⟨_, c, run_record (hcd.record hj), rfl, hcd⟩

/-- A record is changed under its other number. -/
theorem amend (hφ : φ.Injective) {f g : Record → Record}
    (h : ∀ r, f (r.renumber φ) = (g r).renumber φ) (j : Nat) :
    Mirrors φ bound Eq (Step.amend (φ j) f) (Step.amend j g) := by
  refine bind (record j) fun _ _ _ c d hcd b d' hrun => ?_
  cases hrun
  exact ⟨(), _, rfl, rfl, hcd.modify hφ h j⟩

/-- A record is stamped under its other number. -/
theorem stamp (hφ : φ.Injective) (stage : Stage) (now j : Nat) :
    Mirrors φ bound Eq (Step.stamp stage now (φ j)) (Step.stamp stage now j) := by
  refine bind (record j) ?_
  rintro _ r rfl
  refine bind (R := fun r s => r = s.renumber φ) (lift fun s hs => ⟨_, r.stamp_renumber hs, rfl⟩) ?_
  rintro _ s rfl
  exact amend hφ (f := fun _ => s.renumber φ) (g := fun _ => s) (fun _ => rfl) j

/-! ## The steps of a cycle

What `machine` or `get` has read are parts of copy and original, so each step rewrites the one into
the other and then goes through its actions in order.

### Wake -/

/-- A register is forgotten under the other number of its writer. -/
theorem forget (hφ : φ.Injective) (done register : Nat) :
    Mirrors φ bound Eq (Step.forget (φ done) register) (Step.forget done register) := by
  refine bind machine fun m n h => ?_
  rw [h.registers]
  refine bind (R := fun r s => r = Slots.map φ s)
    (lift fun s hs => ⟨_, RegisterMap.forget_renumber hφ hs, rfl⟩) ?_
  rintro _ registers rfl
  exact onMachine fun m n h => { h with registers := rfl }

/-- Waking is mirrored. -/
theorem wake (hφ : φ.Injective) (now : Nat) :
    Mirrors φ bound Eq (Step.wake now) (Step.wake now) := by
  refine bind machine fun m n h => ?_
  rw [h.bus]
  cases hbus : n.bus.carried with
  | none =>
    simp only [ResultBus.renumber, hbus, Option.map_none]
    exact pure rfl
  | some done =>
    simp only [ResultBus.renumber, hbus, Option.map_some]
    refine bind (onMachine fun m n h => { h with bus := rfl }) fun _ _ _ => ?_
    refine bind (record done) ?_
    rintro _ r rfl
    refine bind (forM_same _ (forget hφ done)) fun _ _ _ => bind machine fun m n h => ?_
    rw [h.stationed]
    refine bind (forM_map _ fun e => ?_) fun _ _ _ => emit _ _
    exact amend hφ (fun r => r.resolve_renumber hφ done) e.index

/-! ### Complete -/

/-- Stations and units are given up alike. -/
theorem release (p : Pool) (unit : Nat) :
    Mirrors φ bound (fun e f => e = f.map (InFlight.renumber φ)) (Step.release p unit)
      (Step.release p unit) := by
  refine bind machine fun m n h => ?_
  rw [h.units]
  refine bind (R := Eq) (lift fun b hb => ⟨b, hb, rfl⟩) ?_
  rintro _ ⟨station?, units⟩ rfl
  refine bind (onMachine fun _ _ h' => h.set_units h' p units) fun _ _ _ => ?_
  cases station? with
  | none => exact pure rfl
  | some station =>
    dsimp only
    rw [h.stations]
    refine bind (R := fun x y => x = (y.1.renumber φ, Slots.map (·.renumber φ) y.2) ∧
        (n.stations p).vacate station = .ok y)
      (lift fun y hy => ⟨_, Stations.vacate_renumber hy, rfl, hy⟩) ?_
    rintro _ ⟨e, stations⟩ ⟨rfl, hvacate⟩
    refine bind (onMachine fun _ _ h' => h.set_stations h' p fun hf => ?_) fun _ _ _ => pure rfl
    exact h.station_lt (Stations.get_of_vacate hvacate hf)

/-- The stores that have finished are completed alike. -/
theorem completeStores (now : Nat) (p : Pool) :
    Mirrors φ bound Eq (Step.completeStores now p) (Step.completeStores now p) := by
  refine bind get fun c d h => ?_
  rw [h.finishedStores]
  refine forM_map _ fun r => bind (release r.pool r.unit) ?_
  rintro _ f rfl
  cases f with
  | none => exact pure rfl
  | some e => exact emit _ _

/-- Completion is mirrored; only an order of numbers decides the bus. -/
theorem complete (hφ : StrictMono φ) (now : Nat) :
    Mirrors φ bound Eq (Step.complete now) (Step.complete now) := by
  refine bind (forM_same _ (completeStores now)) fun _ _ _ => bind get fun c d h => ?_
  rw [h.winner? hφ]
  cases d.winner? now with
  | none => exact pure rfl
  | some r =>
    refine bind (stamp hφ.injective .cdb now r.record.index) fun _ _ _ => ?_
    refine bind machine fun m n h => ?_
    rw [h.bus]
    refine bind (R := fun b b' => b = b'.renumber φ)
      (lift fun b hb => ⟨_, ResultBus.broadcast_renumber hb, rfl⟩) ?_
    rintro _ bus rfl
    refine bind (onMachine fun m n h => { h with bus := rfl }) fun _ _ _ => ?_
    refine bind (release r.pool r.unit) ?_
    rintro _ f rfl
    have hstray : (f.map (InFlight.renumber φ)).map (·.index) ≠ some (φ r.record.index) ↔
        f.map (·.index) ≠ some r.record.index := by
      cases f <;> simp [InFlight.renumber, hφ.injective.eq_iff]
    exact ite hstray (bind (throw (R := Eq) fun d => ⟨d, rfl⟩) fun _ _ _ => emit _ _) (emit _ _)

/-! ### Start -/

/-- Starts on the idle units of a pool are mirrored. -/
theorem startOn (hφ : StrictMono φ) (now : Nat) (p : Pool) (idle : List Nat) :
    Mirrors φ bound Eq (Step.startOn now p idle) (Step.startOn now p idle) := by
  induction idle with
  | nil => exact pure rfl
  | cons unit idle ih =>
    refine bind get fun c d h => ?_
    rw [h.oldestReady? hφ]
    rcases d.oldestReady? now p with _ | ⟨station, e⟩
    · exact pure rfl
    · refine bind (stamp hφ.injective .execute now e.index) fun _ _ _ => ?_
      refine bind machine fun m n h => ?_
      rw [h.units]
      refine bind (R := Eq) (lift fun b hb => ⟨b, hb, rfl⟩) ?_
      rintro units _ rfl
      refine bind (onMachine fun _ _ h' => h.set_units h' p units) fun _ _ _ => ?_
      exact bind (emit _ _) fun _ _ _ => ih

/-- Starting is mirrored. -/
theorem start (hφ : StrictMono φ) (now : Nat) :
    Mirrors φ bound Eq (Step.start now) (Step.start now) := by
  refine forM_same _ fun p => bind machine fun m n h => ?_
  rw [h.units]
  exact startOn hφ now p _

/-! ### Issue -/

/-- Renaming is mirrored. -/
theorem rename (hφ : φ.Injective) (e : InFlight) :
    Mirrors φ bound Eq (Step.rename (e.renumber φ)) (Step.rename e) := by
  refine bind (record e.index) ?_
  rintro _ r rfl
  refine bind machine fun m n h => ?_
  rw [h.registers]
  refine bind (R := fun ps qs => ps = qs.map (Option.map φ))
    (lift fun qs hqs => ⟨_, RegisterMap.sources_renumber hqs, rfl⟩) ?_
  rintro _ producers rfl
  refine bind (amend hφ (f := fun r => { r with producers := producers.map (Option.map φ) })
    (g := fun r => { r with producers }) (fun _ => rfl) e.index) fun _ _ _ => ?_
  refine ite Iff.rfl (bind machine fun m n h => ?_) (pure rfl)
  rw [h.registers]
  refine bind (R := fun s t => s = Slots.map φ t)
    (lift fun s hs => ⟨_, RegisterMap.claim_renumber hs, rfl⟩) ?_
  rintro _ registers rfl
  exact onMachine fun m n h => { h with registers := rfl }

/-- Issuing is mirrored. -/
theorem issue (hφ : φ.Injective) (now : Nat) :
    Mirrors φ bound Eq (Step.issue now) (Step.issue now) := by
  refine bind machine fun m n h => ?_
  rw [h.queue, FetchQueue.front_renumber]
  cases hfront : n.queue.front with
  | none => exact pure rfl
  | some e =>
    have hpop : (n.queue.renumber φ).pop = n.queue.pop.renumber φ := n.queue.pop_renumber
    have hlt : ∀ f ∈ n.queue.pop.entries, f.index < bound := fun f hf =>
      h.queue_lt f (List.mem_of_mem_tail hf)
    refine ite Iff.rfl (bind (onMachine fun _ _ h' => ?_) fun _ _ _ => emit _ _) ?_
    · exact { h' with queue := hpop, queue_lt := hlt }
    have hop : (e.renumber φ).op = e.op := rfl
    rw [hop]
    cases e.op.pool with
    | none => exact pure rfl
    | some p =>
      dsimp only
      rw [h.stations, Stations.place_renumber]
      cases hplace : (n.stations p).place e with
      | none => exact emit _ _
      | some placed =>
        obtain ⟨station, stations⟩ := placed
        have hstation {x : Nat} {f : InFlight} (hf : stations.get x = some f) :
            f.index < bound := by
          rcases Stations.get_of_place hplace hf with rfl | hf
          · exact h.queue_lt f (List.mem_of_head? hfront)
          · exact h.station_lt hf
        refine bind (onMachine fun _ _ h' => ?_) fun _ _ _ => ?_
        · exact { h.set_stations h' p hstation with queue := hpop, queue_lt := hlt }
        · refine bind (stamp hφ .issue now e.index) fun _ _ _ => ?_
          exact bind (rename hφ e) fun _ _ _ => emit _ _

end Mirrors

end Step

end Tomasulo
