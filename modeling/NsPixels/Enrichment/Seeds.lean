import NsPixels.Enrichment
import NsPixels.Lib.Congruential
import Mathlib.Data.UInt

/-!
# Seeds of the TLS sessions

Before each connection the enrichment task draws a new seed from the last one. Here the
task runs with its `rng_seed` beside it.
-/

namespace NsPixels.Enrichment

open NsApi Congruential

/-- `rng_seed.wrapping_mul(6364136223846793005).wrapping_add(1)`. -/
def nextSeed (rngSeed : UInt64) : UInt64 := rngSeed * 6364136223846793005 + 1

/-- A seed as a number modulo `2 ^ 64`. -/
def residue (seed : UInt64) : ZMod (2 ^ 64) := (seed.toNat : ℕ)

theorem residue_injective : Function.Injective residue := by
  intro x y h
  rw [residue,residue,ZMod.natCast_eq_natCast_iff',Nat.mod_eq_of_lt x.toNat_lt,
    Nat.mod_eq_of_lt y.toNat_lt] at h
  exact UInt64.toNat_inj.mp h

theorem residue_nextSeed (seed : UInt64) :
    residue (nextSeed seed) = Congruential.step 64 6364136223846793005 1 (residue seed) := by
  have htoNat : (nextSeed seed).toNat = (6364136223846793005 * seed.toNat + 1) % 2 ^ 64 := by
    rw [nextSeed,UInt64.toNat_add,UInt64.toNat_mul,Nat.mul_comm]
    exact Nat.mod_add_mod _ _ _
  rw [residue,htoNat,ZMod.natCast_mod,Congruential.step,residue]
  push_cast
  rfl

theorem iterate_nextSeed_eq_iff (i j : ℕ) (seed : UInt64) :
    nextSeed^[i] seed = nextSeed^[j] seed ↔ i ≡ j [MOD 2 ^ 64] := by
  have hresidue : ∀ n, residue (nextSeed^[n] seed) =
      (Congruential.step 64 6364136223846793005 1)^[n] (residue seed) := fun n =>
    (Function.Semiconj.iterate_right (f := residue) residue_nextSeed n) seed
  rw [← residue_injective.eq_iff,hresidue,hresidue]
  exact iterate_step_eq_iff (by decide) (by decide) i j (residue seed)

section Seeded

variable [TickRate] {ε : Type} (json : Json) (headers : List (String × String))

/-- An action of the two tasks, with the seed it leaves. -/
def seededStep (s : State ε × UInt64) (a : Action ε) : Option (State ε × UInt64) :=
  (step json headers s.1 a).map fun s' =>
    (s',match a with
      | .openResource _ => nextSeed s.2
      | _ => s.2)

omit [TickRate] in
/-- The seed of the connection that an action opens or fails to open. -/
def sessionSeeds (s : State ε × UInt64) : Action ε → List UInt64
  | .openResource _ => [nextSeed s.2]
  | _ => []

/-- Both tasks from boot, the enrichment task with `tls_seed`. -/
def seededMachine (tlsSeed : UInt64) : Machine (State ε × UInt64) (Action ε) :=
  ⟨(State.init ε,tlsSeed),seededStep json headers⟩

variable {json headers} {tlsSeed : UInt64} {as : List (Action ε)} {s s' : State ε × UInt64}
  {a : Action ε}

/-- The seed does not act on the tasks. -/
theorem run_fst (h : (seededMachine json headers tlsSeed).run as = some s) :
    (machine json headers).run as = some s.1 := by
  refine Machine.run_induction (m := seededMachine json headers tlsSeed)
    (P := fun as s => (machine json headers).run as = some s.1) rfl ?_ h
  rintro as s a s' - hrun hstep
  obtain ⟨t,ht,rfl⟩ := Option.map_eq_some_iff.mp hstep
  exact Machine.run_concat_eq_some_iff.mpr ⟨s.1,hrun,ht⟩

/-- The first `n` seeds drawn. -/
def drawn (tlsSeed : UInt64) (n : ℕ) : List UInt64 :=
  (List.range n).map fun i => nextSeed^[i + 1] tlsSeed

theorem seededStep_snd (h : seededStep json headers s a = some s') :
    s'.2 = (sessionSeeds s a).getLastD s.2 := by
  obtain ⟨t,ht,rfl⟩ := Option.map_eq_some_iff.mp h
  cases a <;> rfl

/-- The seeds of a run are drawn one after the other, and the last one is kept. -/
theorem drawn_run (h : (seededMachine json headers tlsSeed).run as = some s) :
    ∃ n, (seededMachine json headers tlsSeed).trace sessionSeeds as = drawn tlsSeed n ∧
      s.2 = nextSeed^[n] tlsSeed := by
  refine Machine.run_induction (m := seededMachine json headers tlsSeed)
    (P := fun as s => ∃ n, (seededMachine json headers tlsSeed).trace sessionSeeds as =
      drawn tlsSeed n ∧ s.2 = nextSeed^[n] tlsSeed) ⟨0,rfl,rfl⟩ ?_ h
  rintro as s a s' hrun ⟨n,hdrawn,hseed⟩ hstep
  have hnext := seededStep_snd hstep
  rw [Machine.trace_concat _ hrun,hdrawn]
  cases a with
  | openResource opened =>
    refine ⟨n + 1,?_,?_⟩
    · rw [sessionSeeds,hseed,drawn,drawn,List.range_succ,List.map_append,List.map_singleton,
        Function.iterate_succ_apply']
    · rw [Function.iterate_succ_apply',← hseed]
      exact hnext
  | _ => exact ⟨n,List.append_nil _,hnext.trans hseed⟩

/-- However the two tasks run, and the seed does not act on them, of `tls_seed` and the seeds of
all connections two are the same exactly when a multiple of `2 ^ 64` connections lies between
them. -/
theorem sessionSeeds_eq_iff (h : (seededMachine json headers tlsSeed).run as = some s) {i j : ℕ}
    {x y : UInt64}
    (hx : (tlsSeed :: (seededMachine json headers tlsSeed).trace sessionSeeds as)[i]? = some x)
    (hy : (tlsSeed :: (seededMachine json headers tlsSeed).trace sessionSeeds as)[j]? = some y) :
    (machine json headers).run as = some s.1 ∧ (x = y ↔ i ≡ j [MOD 2 ^ 64]) := by
  refine ⟨run_fst h,?_⟩
  obtain ⟨n,hdrawn,-⟩ := drawn_run h
  have hget : ∀ i x, (tlsSeed :: drawn tlsSeed n)[i]? = some x → x = nextSeed^[i] tlsSeed := by
    intro i x hi
    cases i with
    | zero => exact (Option.some.inj hi).symm
    | succ i =>
      rw [List.getElem?_cons_succ,drawn,List.getElem?_map,Option.map_eq_some_iff] at hi
      obtain ⟨k,hk,rfl⟩ := hi
      obtain ⟨hlt,rfl⟩ := List.getElem?_eq_some_iff.mp hk
      rw [List.getElem_range]
  rw [hdrawn] at hx hy
  rw [hget i x hx,hget j y hy]
  exact iterate_nextSeed_eq_iff i j tlsSeed

end Seeded

/-- Two trains, each followed by a connection that does not open. -/
def twoSessions : List (Action Unit) :=
  [.receive [⟨7,⟨3,4⟩⟩],.applyMessage,.drain,.openResource false,
    .receive [⟨9,⟨3,4⟩⟩],.applyMessage,.drain,.openResource false]

def noJson : Json := ⟨fun _ => none,fun _ => none⟩

theorem sessionSeeds_eq_iff_two : letI := microTicks
    ∃ x y, (seededMachine noJson [] 5).trace sessionSeeds twoSessions = [x,y] ∧
      (x = y ↔ 1 ≡ 2 [MOD 2 ^ 64]) := by
  let _ := microTicks
  have hsome : ((seededMachine noJson [] 5).run twoSessions).isSome = true := by decide +kernel
  obtain ⟨s,hs⟩ := Option.isSome_iff_exists.mp hsome
  have hseeds : (seededMachine noJson [] 5).trace sessionSeeds twoSessions =
      [nextSeed 5,nextSeed (nextSeed 5)] := by decide +kernel
  refine ⟨nextSeed 5,nextSeed (nextSeed 5),hseeds,?_⟩
  exact (sessionSeeds_eq_iff hs (i := 1) (j := 2) (by rw [hseeds]; rfl) (by rw [hseeds]; rfl)).2

end NsPixels.Enrichment
