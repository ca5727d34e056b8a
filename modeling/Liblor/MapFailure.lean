import Liblor.MapRun

/-!
# Failed calls on a map

A call of `lor_map_init_raw`, `lor_map_reserve_raw` or `lor_map_set_raw` that fails leaves the
handle and everything behind it as they were. The calls that create a map on a `NULL` handle have to
take it back; the one exit that does not is the rejection of an entry argument that begins exactly
where the header just allocated for it ends, and `failed_call_cases` has it as its own case.
-/

namespace Liblor.Map

open Transition

variable {env : Env} {map : LorMap} {events : List Event} {s s' : State} {status : Status}

/-- Why a call answers with a status: a failed allocation, a size that does not fit, a mismatch of
layout or configuration, a rejected key, a failed `clone`. -/
def Cause (env : Env) (s : State) (status : Status) : Op → Prop
  | .init entrySize keySize config => status = .outOfMemory ∨ s.map.isSome = true ∨
      layoutValid entrySize keySize = false ∨ configValid config = false
  | .reserve entrySize keySize _ => status = .outOfMemory ∨ status = .overflow ∨
      matchesLayout s.map entrySize keySize = false
  | .set entrySize keySize entry => status = .outOfMemory ∨ status = .overflow ∨
      matchesLayout s.map entrySize keySize = false ∨
      keyValid env (getConfig s.map) (entry.bytes s.map keySize) = false ∨
      ∃ f, (getConfig s.map).clone = some f ∧ status =
        (env.clone f (getConfig s.map).context s.world.clones (entry.bytes s.map keySize)).1
  | _ => False

/-- The entry argument of a first `set` touches the end of the header that the call allocates. -/
def Adjoins (env : Env) (s : State) (op : Op) : Prop :=
  ∃ entrySize keySize entry header world, op = .set entrySize keySize entry ∧
    matchesLayout none entrySize keySize = true ∧
    initRaw env s.world none entrySize keySize configBytes = (.ok, some header, world) ∧
    entryAlias header entry < 0

/-! ## A map that the call created -/

theorem Fresh.size_eq {entrySize keySize : ℕ} {config : Config}
    (h : Fresh map entrySize keySize config) : map.size = 0 := by
  rw [LorMap.size, h.entries]
  rfl

theorem Fresh.findBucket_eq {entrySize keySize : ℕ} {config : Config}
    (h : Fresh map entrySize keySize config) (key : Bytes) :
    findBucket env map key = some none := by
  rw [findBucket, LorMap.bucketCapacity, h.buckets]
  rfl

theorem Fresh.entryAlias_cases {entrySize keySize : ℕ} {config : Config}
    (h : Fresh map entrySize keySize config) (hlayout : layoutValid entrySize keySize = true)
    (source : Source) : entryAlias map source = 0 ∨ entryAlias map source < 0 := by
  have hpos := keySize_pos hlayout
  have hsize := h.size_eq
  have hentry := h.entrySize
  unfold entryAlias
  cases source with
  | null => exact Or.inl rfl
  | outside address memory =>
      simp only [hsize, Nat.zero_mul, Nat.zero_sub]
      split_ifs <;> first | exact Or.inl rfl | exact Or.inr (by decide) | omega
  | inside offset =>
      simp only [hsize, Nat.zero_mul, Nat.zero_sub]
      split_ifs <;> first | exact Or.inl rfl | exact Or.inr (by decide) | omega

theorem setEntry_fresh {entrySize keySize : ℕ} {world : World}
    (h : Fresh map entrySize keySize configBytes) (hlayout : layoutValid entrySize keySize = true)
    (source : Source) :
    entryAlias map source < 0 ∧
        setEntry env world map true source = some (.invalidArgument, some map, world) ∨
      setEntry env world map true source = appendEntry env world map true source none := by
  have hvalid : keyValid env map.config (source.read map map.keySize) = true := by
    rw [h.config]
    rfl
  rcases h.entryAlias_cases hlayout source with hzero | hneg
  · right
    have hprepare : prepareEntry env world map source 0 = (.ok, none, world) := by
      simp only [prepareEntry, h.config, configBytes, Option.isNone_none, beq_self_eq_true,
        Bool.and_self, if_true]
    simp only [setEntry, hvalid, Bool.not_true, Bool.false_eq_true, if_false, h.findBucket_eq,
      Option.bind_eq_bind, Option.bind_some, hzero, lt_irrefl, hprepare]
  · left
    refine ⟨hneg, ?_⟩
    simp only [setEntry, hvalid, Bool.not_true, Bool.false_eq_true, if_false, h.findBucket_eq,
      Option.bind_eq_bind, Option.bind_some, hneg, if_true]
    rfl

theorem appendEntry_created {source : Source} {prepared : Option Entry} {world world' : World}
    {handle : Option LorMap}
    (h : appendEntry env world map true source prepared = some (status, handle, world')) :
    status = .ok ∨ handle = none := by
  unfold appendEntry at h
  by_cases hfull : map.size = sizeMax
  · simp only [if_pos hfull, if_true, Option.some.injEq, Prod.mk.injEq] at h
    exact Or.inr (congrArg Prod.fst h.2).symm
  · simp only [if_neg hfull, Option.bind_eq_bind, Option.bind_eq_some_iff] at h
    obtain ⟨⟨reserved, moved, world₁⟩, -, h⟩ := h
    split at h
    · obtain ⟨grown, -, h⟩ := Option.bind_eq_some_iff.mp h
      cases h
      exact Or.inl rfl
    · simp only [if_true, Option.pure_def, Option.some.injEq, Prod.mk.injEq] at h
      exact Or.inr (congrArg Prod.fst h.2).symm

theorem setRaw_none_failed {entrySize keySize : ℕ} {source : Source} {world world' : World}
    {handle : Option LorMap}
    (h : setRaw env world none entrySize keySize source = some (status, handle, world'))
    (hfail : status ≠ .ok) :
    handle = none ∨ status = .invalidArgument ∧ matchesLayout none entrySize keySize = true ∧
      ∃ header world₁, initRaw env world none entrySize keySize configBytes =
        (.ok, some header, world₁) ∧ entryAlias header source < 0 := by
  by_cases hnull : source = .null
  · subst hnull
    cases h
    exact Or.inl rfl
  cases hmatch : matchesLayout none entrySize keySize with
  | false =>
      rw [setRaw_mismatch world hmatch] at h
      cases h
      exact Or.inl rfl
  | true =>
      rw [setRaw_none world hnull hmatch] at h
      obtain ⟨answer, created, w₁, hinit, -,
        ⟨hbad, rfl⟩ | ⟨rfl, -, hlayout, -, header, rfl, hfresh⟩⟩ :=
        initRaw_cases env world none entrySize keySize configBytes
      · rw [hinit] at h
        cases answer <;> first | exact absurd rfl hbad | (cases h; exact Or.inl rfl)
      · rw [hinit] at h
        change setEntry env w₁ header true source = some (status, handle, world') at h
        rcases setEntry_fresh hfresh hlayout source with ⟨hneg, heq⟩ | heq
        · rw [heq] at h
          cases h
          exact Or.inr ⟨rfl, rfl, header, _, hinit, hneg⟩
        · rw [heq] at h
          rcases appendEntry_created h with hok | hnone
          · exact absurd hok hfail
          · exact Or.inl hnone

theorem setRaw_some_failed {entrySize keySize : ℕ} {source : Source} {world world' : World}
    {handle : Option LorMap} (hinv : Inv env map) (hlaw : Lawful env map.config map.keySize)
    (hs : source.Valid (some map) entrySize)
    (h : setRaw env world (some map) entrySize keySize source = some (status, handle, world'))
    (hfail : status ≠ .ok) : handle = some map := by
  obtain ⟨status', handle', world'', heq, -, hcase⟩ := setRaw_cases world keySize
    (by rintro m ⟨⟩; exact hinv) (by rintro m ⟨⟩; exact hlaw) hs
  rw [h] at heq
  cases heq
  obtain ⟨-, hsame, -⟩ | ⟨m, created, w₁, htarget, -, hout, -⟩ := hcase
  · exact hsame
  obtain ⟨hm, hfalse⟩ | ⟨hnone, -⟩ := htarget.handle
  · cases hm
    subst hfalse
    cases hout with
    | rejected => rfl
    | abandoned => rfl
    | replaced => exact absurd rfl hfail
    | appended => exact absurd rfl hfail
  · cases hnone

/-! ## Any failed call -/

theorem failed_call_cases (h : Sound env s.map) {op : Op} (hop : op.Legal env s.map)
    (hstep : step env s op = some (.status status, s')) (hfail : status ≠ .ok) :
    s'.map = s.map ∨ s.map = none ∧ status = .invalidArgument ∧ Adjoins env s op := by
  have hinv : ∀ m, s.map = some m → Inv env m := fun m hm => (h m hm).1
  cases op with
  | init entrySize keySize config =>
      obtain ⟨answer, handle, world, heq, -, hcase⟩ :=
        initRaw_cases env s.world s.map entrySize keySize config
      rw [step, heq] at hstep
      cases hstep
      obtain ⟨-, hsame⟩ | ⟨hok, -⟩ := hcase
      · exact Or.inl hsame
      · exact absurd hok hfail
  | reserve entrySize keySize required =>
      obtain ⟨answer, handle, world, heq, -, hcase⟩ :=
        reserveRaw_cases s.world s.map entrySize keySize required hinv
      rw [step, heq] at hstep
      cases hstep
      obtain ⟨-, hsame⟩ | ⟨hok, -⟩ | ⟨hok, -⟩ := hcase
      · exact Or.inl hsame
      · exact absurd hok hfail
      · exact absurd hok hfail
  | set entrySize keySize entry =>
      obtain ⟨⟨answer, handle, world⟩, heq, hmk⟩ := Option.map_eq_some_iff.mp hstep
      cases hmk
      cases hm : s.map with
      | some m =>
          rw [hm] at heq hop
          exact Or.inl (setRaw_some_failed (h m hm).1 (h m hm).2 hop heq hfail)
      | none =>
          rw [hm] at heq
          obtain hnone | ⟨hstatus, hlayout, header, w₁, hinit, hneg⟩ :=
            setRaw_none_failed heq hfail
          · exact Or.inl hnone
          · exact Or.inr ⟨rfl, hstatus, _, _, _, header, w₁, rfl, hlayout, hinit, hneg⟩
  | remove entrySize keySize key =>
      obtain ⟨x, -, hmk⟩ := Option.map_eq_some_iff.mp hstep
      cases hmk
  | clear => cases hstep
  | deinit => cases hstep

theorem Adjoins.not_cause {op : Op} (h : Adjoins env s op) (hnone : s.map = none) :
    ¬ Cause env s .invalidArgument op := by
  obtain ⟨entrySize, keySize, entry, header, world, rfl, hlayout, -⟩ := h
  rintro (hbad | hbad | hbad | hbad | ⟨f, hclone, -⟩)
  · cases hbad
  · cases hbad
  · rw [hnone, hlayout] at hbad
    cases hbad
  · rw [hnone] at hbad
    cases hbad
  · rw [hnone] at hclone
    cases hclone

/-- Whatever the cause, a failed call changes nothing about the map: not the handle, not the
header, the entries or the index behind it. -/
theorem failed_call_unchanged (h : Run (system env) events s) {op : Op}
    (hop : op.Legal env s.map) (hstep : step env s op = some (.status status, s'))
    (hfail : status ≠ .ok) (hcause : Cause env s status op) : s'.map = s.map := by
  have hsound : Sound env s.map := fun m hm =>
    ⟨(run_agrees h).inv m hm, (run_agrees h).lawful m hm⟩
  obtain hsame | ⟨hnone, rfl, hadjoins⟩ := failed_call_cases hsound hop hstep hfail
  · exact hsame
  · exact absurd hcause (hadjoins.not_cause hnone)

def exhaustedEnv : Env :=
  { collidingEnv with malloc := fun n size => if n = 2 then none else collidingEnv.malloc n size }

/-- The third allocation of a first `set` fails, after the header and the buckets were there. -/
theorem failed_call_unchanged_exhausted :
    ∃ s', step exhaustedEnv ⟨none, ⟨0, 0, 0, []⟩⟩ (.set 2 1 (twoBytes 7 70)) =
      some (.status .outOfMemory, s') ∧ s'.world.mallocs = 3 ∧ s'.map = none := by
  have h0 : Run (system exhaustedEnv) [] ⟨none, ⟨0, 0, 0, []⟩⟩ := .start rfl
  exact ⟨_, rfl, rfl, @failed_call_unchanged _ _ _ _ _ h0 (.set 2 1 (twoBytes 7 70)) trivial rfl
    (by decide) (Or.inl rfl)⟩

end Liblor.Map
