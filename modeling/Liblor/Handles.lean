import Liblor.SetOperation

/-!
# A program with many maps and sets

The handles of a program, called one at a time in any order, together with the set algebra that
reads two of them and fills a third.
-/

namespace Liblor.Handles

open Map LorSet Transition

/-- The handles, the world they share, and for each resource the handle that it was created for. -/
structure State where
  maps : List (Option LorMap)
  world : World
  makers : List ℕ

inductive Op where
  | call (h : ℕ) (op : Map.Op)
  | algebra (r elementSize a b : ℕ) (operation : Operation)

namespace State

def get (s : State) (h : ℕ) : Option LorMap := s.maps.getD h none

def put (s : State) (h : ℕ) (handle : Option LorMap) (world : World) : State :=
  ⟨s.maps.set h handle, world,
    s.makers ++ List.replicate (world.resources - s.world.resources) h⟩

end State

/-- The handle that an operation writes. -/
def Op.target : Op → ℕ
  | .call h _ => h
  | .algebra r _ _ _ _ => r

/-- The call for an operation of the algebra. -/
def algebra (env : Env) (world : World) (resultRef : Option LorMap) (elementSize : ℕ)
    (a b : Option LorMap) : Operation → Option (Status × Option LorMap × World)
  | .union => unionRaw env world resultRef elementSize a b
  | .intersection => intersectionRaw env world resultRef elementSize a b
  | .difference => differenceRaw env world resultRef elementSize a b
  | .symmetricDifference => symmetricDifferenceRaw env world resultRef elementSize a b

def step (env : Env) (s : State) : Op → Option (Result × State)
  | .call h op => (Map.step env ⟨s.get h, s.world⟩ op).map fun (result, s') =>
      (result, s.put h s'.map s'.world)
  | .algebra r elementSize a b op =>
    (algebra env s.world (s.get r) elementSize (s.get a) (s.get b) op).map
      fun (status, set, world) => (.status status, s.put r set world)

def Op.Legal (env : Env) (s : State) : Op → Prop
  | .call h op => h < s.maps.length ∧ op.Legal env (s.get h)
  | .algebra r _ _ _ _ => r < s.maps.length

def system (env : Env) : System State (Op × Result) where
  start s := (∀ handle ∈ s.maps, handle = none) ∧ s.world.resources = 0 ∧ s.world.drops = [] ∧
    s.makers = []
  step s event s' := event.1.Legal env s ∧ step env s event.1 = some (event.2, s')

variable {env : Env} {s s' : State} {h : ℕ} {handle : Option LorMap} {world : World}

theorem algebra_eq (env : Env) (world : World) (resultRef : Option LorMap) (elementSize : ℕ)
    (a b : Option LorMap) (op : Operation) : algebra env world resultRef elementSize a b op =
      operation env world resultRef elementSize a b op := by
  cases op <;> rfl

theorem run_call {events : List (Op × Result)} (hrun : Run (system env) events s) (h : ℕ)
    (op : Map.Op) {result : Result} (hlt : h < s.maps.length) (hop : op.Legal env (s.get h))
    (hstep : step env s (.call h op) = some (result, s')) :
    Run (system env) (events ++ [(.call h op, result)]) s' :=
  hrun.step ⟨⟨hlt, hop⟩, hstep⟩

theorem run_algebra {events : List (Op × Result)} (hrun : Run (system env) events s)
    (r elementSize a b : ℕ) (op : Operation) {result : Result} (hlt : r < s.maps.length)
    (hstep : step env s (.algebra r elementSize a b op) = some (result, s')) :
    Run (system env) (events ++ [(.algebra r elementSize a b op, result)]) s' :=
  hrun.step ⟨hlt, hstep⟩

@[simp] theorem world_put : (s.put h handle world).world = world := rfl

@[simp] theorem maps_put : (s.put h handle world).maps = s.maps.set h handle := rfl

theorem get_put_self (hlt : h < s.maps.length) : (s.put h handle world).get h = handle := by
  simp [State.get, State.put, List.getD_eq_getElem?_getD, hlt]

theorem get_put_of_ne {h' : ℕ} (hne : h' ≠ h) : (s.put h handle world).get h' = s.get h' := by
  simp only [State.get, State.put, List.getD_eq_getElem?_getD, List.getElem?_set_ne (Ne.symm hne)]

theorem step_frame {op : Op} {result : Result} (hstep : step env s op = some (result, s'))
    {h : ℕ} (hne : h ≠ op.target) : s'.get h = s.get h := by
  cases op with
  | call h₁ op =>
      simp only [step, Option.map_eq_some_iff] at hstep
      obtain ⟨⟨r, m⟩, -, heq⟩ := hstep
      cases heq
      exact get_put_of_ne hne
  | algebra r elementSize a b op =>
      simp only [step, Option.map_eq_some_iff] at hstep
      obtain ⟨⟨status, set, w⟩, -, heq⟩ := hstep
      cases heq
      exact get_put_of_ne hne

/-! ## Soundness of every handle -/

theorem sound_put (hs : ∀ h, Sound env (s.get h)) (hhandle : Sound env handle) (h' : ℕ) :
    Sound env ((s.put h handle world).get h') := by
  by_cases heq : h' = h
  · subst h'
    by_cases hlt : h < s.maps.length
    · rw [get_put_self hlt]
      exact hhandle
    · have hnone : (s.put h handle world).get h = none := by
        simp [State.get, State.put, List.getD_eq_getElem?_getD, hlt]
      rw [hnone]
      intro m hm
      cases hm
  · rw [get_put_of_ne heq]
    exact hs h'

/-- With a result handle in use the algebra does nothing. -/
theorem operation_of_isSome {result : Option LorMap} (hr : result.isSome) (elementSize : ℕ)
    (a b : Option LorMap) (op : Operation) :
    operation env world result elementSize a b op = some (.invalidArgument, result, world) := by
  simp [operation, hr]

/-- An operation on sound handles returns, leaves them sound and moves resources of its target. -/
theorem step_moves (hs : ∀ h, Sound env (s.get h)) (op : Op) (hop : op.Legal env s) :
    ∃ result s' handle' world', step env s op = some (result, s') ∧
      s' = s.put op.target handle' world' ∧ Sound env handle' ∧
      Moves s.world (s.get op.target) world' handle' := by
  cases op with
  | call h op =>
      obtain ⟨result, s', heq, hsound⟩ := step_sound (s := ⟨s.get h, s.world⟩) (hs h) op hop.2
      refine ⟨result, _, s'.map, s'.world, by rw [step, heq]; rfl, rfl, hsound, ?_⟩
      exact Map.step_moves (fun m hm => (hs h m hm).1) (fun m hm => (hs h m hm).2) hop.2 heq
  | algebra r elementSize a b op =>
      cases hr : s.get r with
      | some m =>
          refine ⟨_, _, s.get r, s.world, by
            rw [step, algebra_eq, operation_of_isSome (by simp [hr])]; rfl, rfl, hs r, ?_⟩
          rw [Op.target, hr]
          exact .refl _ _
      | none =>
          obtain ⟨status, handle', world', heq, hmoves, hcase⟩ :=
            operation_cases s.world (hs a) (hs b) elementSize op
          refine ⟨_, _, handle', world', by rw [step, hr, algebra_eq, heq]; rfl, rfl, ?_, ?_⟩
          · obtain ⟨-, rfl⟩ | ⟨-, -, -, -, m, rfl, hbuilt, hlaw, -⟩ := hcase
            · intro m hm
              cases hm
            · intro x hx
              cases hx
              refine ⟨hbuilt.inv, ?_⟩
              rw [hbuilt.config, hbuilt.keySize]
              exact hlaw
          · rw [Op.target, hr]
            exact hmoves

theorem get_of_start (hnone : ∀ handle ∈ s.maps, handle = none) (h : ℕ) : s.get h = none := by
  rw [State.get, List.getD_eq_getElem?_getD]
  cases hget : s.maps[h]? with
  | none => rfl
  | some handle => exact hnone handle (List.mem_of_getElem? hget)

theorem run_sound {events : List (Op × Result)} (hrun : Run (system env) events s) :
    ∀ h, Sound env (s.get h) := by
  induction hrun with
  | start hstart =>
      intro h m hm
      rw [get_of_start hstart.1] at hm
      cases hm
  | step _ hstep ih =>
      obtain ⟨result, s₁, handle', world', heq, rfl, hsound, -⟩ := step_moves ih _ hstep.1
      rw [hstep.2] at heq
      cases heq
      exact sound_put ih hsound

end Liblor.Handles
