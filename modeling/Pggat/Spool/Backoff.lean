import Mathlib.Algebra.Ring.Int.Defs
import Pggat.Spool.Wakeup

/-! The delays between failed rounds of the scale loop. -/
namespace Pggat.Spool.ScaleLoop
open Pggat.Base
variable {σ ε : Type}

/-- A scale loop and how many of its rounds have failed in a row. -/
structure Rounds (σ : Type) where
  sys : ScaleLoop σ
  failures : Nat := 0

namespace Rounds
variable (config : Config) (P : Signal σ ε)

/-- A round ends when `ScaleUp` fails or `Waiters` is found to be zero. -/
def count (r : Rounds σ) : Event ε → Nat
  | .scaleUp none => r.failures + 1
  | .check => if P.waiters r.sys.pooler > 0 then r.failures else 0
  | _ => r.failures

def step (r : Rounds σ) (e : Event ε) : Option (Rounds σ) := (r.sys.step config P e).map (⟨·,r.count P e⟩)

/-- The delay after `k` failures in a row that precede the last one. -/
def delay (k : Nat) : Int :=
  if 0 < config.reconnectMaxTime then min config.reconnectMaxTime (config.reconnectInitialTime * 2 ^ k)
  else config.reconnectInitialTime * 2 ^ k

/-- A round that fails now arms a retry with the delay that is due. -/
def Retries (r : Rounds σ) : Prop :=
  ∀ r', r.step config P (.scaleUp none) = some r' →
    r'.sys.loop.backoff = .armed ∧ r'.sys.loop.backoffAmount = delay config r.failures

end Rounds

/-- Durations of a configuration, in 64 bits. The maximum is at least the initial time unless there is none. -/
structure Config.Usable (config : Config) : Prop where
  initial : 0 < config.reconnectInitialTime
  max : config.reconnectMaxTime = 0 ∨ config.reconnectInitialTime ≤ config.reconnectMaxTime
  fits : config.reconnectMaxTime < 0x8000000000000000

section Delays
variable {config : Config}

theorem scaled_succ (i : Int) (k : Nat) : i * 2 ^ (k + 1) = 2 * (i * 2 ^ k) := by
  rw [Int.pow_succ,← Int.mul_assoc,Int.mul_comm]

theorem le_scaled {i : Int} (h : 0 < i) (k : Nat) : i ≤ i * 2 ^ k := by
  induction k with
  | zero => simp
  | succ k ih =>
    rw [scaled_succ]
    omega

theorem delay_capped (hm : 0 < config.reconnectMaxTime) (k : Nat) :
    Rounds.delay config k = min config.reconnectMaxTime (config.reconnectInitialTime * 2 ^ k) := if_pos hm

theorem Config.Usable.delay_pos (h : config.Usable) (k : Nat) : 0 < Rounds.delay config k := by
  have hi := h.initial
  have hle := le_scaled hi k
  unfold Rounds.delay
  split
  · show 0 < min _ _
    omega
  · omega

theorem Config.Usable.delay_succ (h : config.Usable) (hm : 0 < config.reconnectMaxTime)
    (hlt : config.reconnectMaxTime < 0x4000000000000000) (k : Nat) :
    min config.reconnectMaxTime (wrap (2 * Rounds.delay config k)) = Rounds.delay config (k + 1) := by
  have hpos := h.delay_pos k
  have hk := delay_capped hm k
  have hle := le_scaled h.initial k
  rw [wrap_double (by omega) (by omega),delay_capped hm (k + 1),scaled_succ,hk]
  omega

private theorem wrap_overflows {d : Int} (h : 0x4000000000000000 ≤ d) (hlt : d < 0x8000000000000000) :
    wrap (2 * d) < 0 := by
  rw [wrap,Int.bmod_def]
  split <;> omega

/-- Only with a maximum that can be doubled do the delays grow as they should for ever. -/
theorem Config.Usable.bounded (h : config.Usable)
    (hs : ∀ k, min config.reconnectMaxTime (wrap (2 * Rounds.delay config k)) = Rounds.delay config (k + 1)) :
    0 < config.reconnectMaxTime ∧ config.reconnectMaxTime < 0x4000000000000000 := by
  have hm : 0 < config.reconnectMaxTime := by
    have hpos := h.delay_pos (0 + 1)
    have hdelay := hs 0
    omega
  refine ⟨hm,?_⟩
  by_contra hge
  have hi := h.initial
  have hfits := h.fits
  have hd := delay_capped hm 62
  have hneg : wrap (2 * Rounds.delay config 62) < 0 := wrap_overflows (by omega) (by omega)
  have hpos := h.delay_pos (62 + 1)
  have hdelay := hs 62
  omega

end Delays

/-- The loop's amount to back off for is the delay that was due after its last failure. -/
structure Rounds.Tracks (config : Config) (r : Rounds σ) : Prop where
  idle : r.failures = 0 → r.sys.loop.backoffAmount = 0
  backing : ∀ k, r.failures = k + 1 → r.sys.loop.backoffAmount = Rounds.delay config k
  attending : ∀ b, r.sys.loop.stage = .checking b ∨ r.sys.loop.stage = .scaling b → (b = true ↔ r.failures ≠ 0)

theorem select_amount (l : Loop) (c : Case) : (l.select c).backoffAmount = l.backoffAmount := by
  cases c <;> rfl

/-- The loop evaluates `Waiters` for the timer only while it backs off, and otherwise only while it does not. -/
theorem select_stage {l : Loop} {c : Case} {b : Bool}
    (h : (l.select c).stage = .checking b ∨ (l.select c).stage = .scaling b) : b = true ↔ l.backoffAmount ≠ 0 := by
  cases c with
  | closed => simp [Loop.select] at h
  | backoff =>
    by_cases ha : l.backoffAmount = 0
    · simp [Loop.select,ha] at h
    · simp only [Loop.select,if_neg ha,Stage.checking.injEq,reduceCtorEq,or_false] at h
      simp [← h,ha]
  | waiting =>
    by_cases ha : l.backoffAmount = 0
    · simp only [Loop.select,ha,ne_eq,not_true,if_false,Stage.checking.injEq,reduceCtorEq,or_false] at h
      simp [← h,ha]
    · simp [Loop.select,ha] at h
  | idle => simp [Loop.select] at h

namespace Rounds.Tracks
variable {config : Config} {P : Signal σ ε} {r : Rounds σ}

private theorem failures_ne_zero (h : r.Tracks config) (hu : config.Usable) :
    r.sys.loop.backoffAmount ≠ 0 ↔ r.failures ≠ 0 := by
  cases hf : r.failures with
  | zero => simp [h.idle hf]
  | succ k =>
    have hpos := hu.delay_pos k
    rw [h.backing k hf]
    simp
    omega

variable {s : ScaleLoop σ}

theorem keep (h : r.Tracks config) (ha : s.loop.backoffAmount = r.sys.loop.backoffAmount)
    (hs : ∀ b, s.loop.stage = .checking b ∨ s.loop.stage = .scaling b → (b = true ↔ r.failures ≠ 0)) :
    (⟨s,r.failures⟩ : Rounds σ).Tracks config where
  idle hf := ha.trans (h.idle hf)
  backing k hf := ha.trans (h.backing k hf)
  attending := hs

theorem move (h : r.Tracks config) (ha : s.loop.backoffAmount = r.sys.loop.backoffAmount)
    (hs : s.loop.stage.attends = false ∨ s.loop.stage = .returned ∨ s.loop.stage = r.sys.loop.stage) :
    (⟨s,r.failures⟩ : Rounds σ).Tracks config := by
  refine h.keep ha fun b hb => ?_
  rcases hs with hs | hs | hs
  · rcases hb with hb | hb <;> rw [hb] at hs <;> cases hs
  · rcases hb with hb | hb <;> rw [hb] at hs <;> cases hs
  · exact h.attending b (hs ▸ hb)

theorem select (h : r.Tracks config) (hu : config.Usable) (p : σ) (c : Case) :
    (⟨⟨p,r.sys.loop.select c⟩,r.failures⟩ : Rounds σ).Tracks config :=
  h.keep (select_amount _ c) fun _ hb => (select_stage hb).trans (h.failures_ne_zero hu)

theorem wake (h : r.Tracks config) (hu : config.Usable) {c : Case} {l : Loop}
    (ha : l.backoffAmount = r.sys.loop.backoffAmount) (hs : l.stage = r.sys.loop.stage) :
    (⟨r.sys.wake c l,r.failures⟩ : Rounds σ).Tracks config := by
  unfold ScaleLoop.wake
  split
  · exact h.select hu _ c
  · exact h.move ha (.inr (.inr hs))

theorem failed (h : r.Tracks config) (hu : config.Usable) (hm : 0 < config.reconnectMaxTime)
    (hlt : config.reconnectMaxTime < 0x4000000000000000) {b : Bool} (hs : r.sys.loop.stage = .scaling b) :
    (r.sys.loop.failed config b).backoff = .armed ∧
      (r.sys.loop.failed config b).backoffAmount = delay config r.failures := by
  have hamount : (r.sys.loop.failed config b).backoffAmount = delay config r.failures := by
    have hb := h.attending b (.inr hs)
    cases hf : r.failures with
    | zero =>
      obtain rfl : b = false := by simpa [hf] using hb
      have hle := hu.max
      rw [delay_capped hm,Int.pow_zero,Int.mul_one]
      simp only [Loop.failed,Bool.false_eq_true,if_false]
      omega
    | succ k =>
      obtain rfl : b = true := hb.mpr (by simp [hf])
      simp only [Loop.failed,if_true,h.backing k hf,hu.delay_succ hm hlt]
  have hne : (r.sys.loop.failed config b).backoffAmount ≠ 0 := by
    have := hu.delay_pos r.failures
    omega
  exact ⟨if_pos hne,hamount⟩

private theorem check (h : r.Tracks config) (hs : r.sys.step config P .check = some s) :
    (⟨s,r.count P .check⟩ : Rounds σ).Tracks config := by
  simp only [ScaleLoop.step] at hs
  split at hs
  · rename_i b hstage
    have hb := h.attending b (.inl hstage)
    cases hs
    by_cases hw : P.waiters r.sys.pooler > 0
    · simp only [count,if_pos hw]
      refine h.keep rfl fun b' hb' => ?_
      obtain rfl : b = b' := by simpa using hb'
      exact hb
    · simp only [count,if_neg hw]
      refine ⟨fun _ => ?_,by simp,by simp [Loop.caughtUp]⟩
      cases b with
      | true => rfl
      | false => exact h.idle (by simpa using hb)
  · cases hs

private theorem scaleUp (h : r.Tracks config) (hu : config.Usable) (hm : 0 < config.reconnectMaxTime)
    (hlt : config.reconnectMaxTime < 0x4000000000000000) {server : Option ε}
    (hs : r.sys.step config P (.scaleUp server) = some s) : (⟨s,r.count P (.scaleUp server)⟩ : Rounds σ).Tracks config := by
  simp only [ScaleLoop.step] at hs
  split at hs
  · rename_i b e hstage
    obtain ⟨p,-,rfl⟩ := Option.map_eq_some_iff.mp (Option.ite_none_right_eq_some.mp hs).2
    refine h.keep rfl fun b' hb' => ?_
    obtain rfl : b = b' := by simpa using hb'
    exact h.attending b (.inr hstage)
  · rename_i b hstage
    cases hs
    refine ⟨by simp [count],fun k hk => ?_,by simp [Loop.failed]⟩
    obtain rfl : r.failures = k := Nat.succ.inj hk
    exact (h.failed hu hm hlt hstage).2
  · cases hs

theorem step (h : r.Tracks config) (hu : config.Usable) (hm : 0 < config.reconnectMaxTime)
    (hlt : config.reconnectMaxTime < 0x4000000000000000) {e : Event ε} {r' : Rounds σ}
    (hstep : r.step config P e = some r') : r'.Tracks config := by
  obtain ⟨s,hs,rfl⟩ := Option.map_eq_some_iff.mp hstep
  cases e with
  | pooler e =>
    obtain ⟨p,-,rfl⟩ := Option.map_eq_some_iff.mp hs
    split
    · exact h.select hu _ _
    · exact h.move rfl (.inr (.inr rfl))
  | start =>
    obtain ⟨-,he⟩ := Option.ite_none_right_eq_some.mp hs
    cases he
    exact h.move rfl (.inl rfl)
  | fireBackoff =>
    obtain ⟨-,he⟩ := Option.ite_none_right_eq_some.mp hs
    cases he
    exact h.wake hu rfl rfl
  | fireIdle =>
    obtain ⟨-,he⟩ := Option.ite_none_right_eq_some.mp hs
    cases he
    exact h.wake hu rfl rfl
  | close =>
    cases hs
    have hclosed : (⟨{ r.sys with loop := { r.sys.loop with closed := true } },r.failures⟩ : Rounds σ).Tracks config :=
      h.move rfl (.inr (.inr rfl))
    exact hclosed.wake hu rfl rfl
  | select c =>
    obtain ⟨-,he⟩ := Option.ite_none_right_eq_some.mp hs
    cases he
    exact h.select hu _ c
  | block =>
    obtain ⟨-,he⟩ := Option.ite_none_right_eq_some.mp hs
    cases he
    exact h.move rfl (.inl rfl)
  | check => exact h.check hs
  | scaleUp server => exact h.scaleUp hu hm hlt hs
  | scaledDown =>
    obtain ⟨-,he⟩ := Option.ite_none_right_eq_some.mp hs
    cases he
    exact h.move rfl (.inl rfl)

theorem retries (h : r.Tracks config) (hu : config.Usable) (hm : 0 < config.reconnectMaxTime)
    (hlt : config.reconnectMaxTime < 0x4000000000000000) : r.Retries config P := by
  intro r' hr
  obtain ⟨s,hs,rfl⟩ := Option.map_eq_some_iff.mp hr
  simp only [ScaleLoop.step] at hs
  split at hs
  · rename_i heq
    cases heq
  · rename_i b hstage _
    cases hs
    exact h.failed hu hm hlt hstage
  · cases hs

end Rounds.Tracks

/-- A loop before its first round with the `lifo` pooler. -/
def starting (config : Config) : Loop :=
  { stage := .blocked, idle := if config.idleTimeout ≠ 0 then .armed else .stopped }

def failing (config : Config) (n : Nat) : Rounds Lifo :=
  ⟨⟨(Lifo.acquire 1 {}).2,
    { starting config with stage := .entering, backoff := .armed, backoffAmount := Rounds.delay config n }⟩,n + 1⟩

section Failing
variable {config : Config}

theorem failing_zero (hu : config.Usable) :
    Reachable ⟨⟨{},{}⟩,0⟩ (fun _ _ => True) (Rounds.step config lifoSignal) (failing config 0) := by
  have hdelay : Rounds.delay config 0 = config.reconnectInitialTime := by
    have hmax := hu.max
    have hi := hu.initial
    rw [Rounds.delay,Int.pow_zero,Int.mul_one]
    split <;> omega
  have hne : config.reconnectInitialTime ≠ 0 := by
    have := hu.initial
    omega
  have hidle : (if config.idleTimeout ≠ 0 then Timer.armed else .stopped) ≠ .fired := by split <;> simp
  have hstart : Reachable ⟨⟨{},{}⟩,0⟩ (fun _ _ => True) (Rounds.step config lifoSignal)
      (⟨⟨{},{ starting config with stage := .entering }⟩,0⟩ : Rounds Lifo) :=
    Reachable.start.next (e := .start) trivial rfl
  have hblock : Reachable ⟨⟨{},{}⟩,0⟩ (fun _ _ => True) (Rounds.step config lifoSignal)
      (⟨⟨{},starting config⟩,0⟩ : Rounds Lifo) := by
    refine hstart.next (e := .block) trivial ?_
    have hready : ∀ c ∈ [Case.closed, .backoff, .waiting, .idle],
        ready lifoSignal ⟨{},{ starting config with stage := .entering }⟩ c = false := by
      simpa [ready,starting,lifoSignal] using hidle
    rw [Rounds.step,ScaleLoop.step,if_pos ⟨rfl,hready⟩]
    rfl
  have hcheck : Reachable ⟨⟨{},{}⟩,0⟩ (fun _ _ => True) (Rounds.step config lifoSignal)
      (⟨⟨(Lifo.acquire 1 {}).2,{ starting config with stage := .scaling false }⟩,0⟩ : Rounds Lifo) :=
    (hblock.next (e := .pooler (.acquire 1)) trivial rfl).next (e := .check) trivial rfl
  refine hcheck.next (e := .scaleUp none) trivial ?_
  simp [Rounds.step,ScaleLoop.step,Rounds.count,Loop.failed,failing,hdelay,hne,starting]

/-- The next round fails after the delay, if it is retried as it should be. -/
theorem failing_succ (hu : config.Usable) {n : Nat}
    (h : Reachable ⟨⟨{},{}⟩,0⟩ (fun _ _ => True) (Rounds.step config lifoSignal) (failing config n))
    (hall : ∀ r, Reachable ⟨⟨{},{}⟩,0⟩ (fun _ _ => True) (Rounds.step config lifoSignal) r → r.Retries config lifoSignal) :
    min config.reconnectMaxTime (wrap (2 * Rounds.delay config n)) = Rounds.delay config (n + 1) ∧
      Reachable ⟨⟨{},{}⟩,0⟩ (fun _ _ => True) (Rounds.step config lifoSignal) (failing config (n + 1)) := by
  have hne : Rounds.delay config n ≠ 0 := by
    have := hu.delay_pos n
    omega
  have hfired := h.next (e := .fireBackoff) trivial (show _ = some _ from rfl)
  have hchecking : Reachable ⟨⟨{},{}⟩,0⟩ (fun _ _ => True) (Rounds.step config lifoSignal)
      (⟨⟨(Lifo.acquire 1 {}).2,{ starting config with stage := .checking true, backoffAmount := Rounds.delay config n }⟩,
        n + 1⟩ : Rounds Lifo) := by
    refine hfired.next (e := .select .backoff) trivial ?_
    simp [Rounds.step,ScaleLoop.step,Rounds.count,failing,starting,wake,ready,take,Loop.select,hne]
  have hscaling := hchecking.next (e := .check) trivial (show _ = some _ from rfl)
  have hfail := hall _ hscaling _ (show _ = some _ from rfl)
  have hdelay : min config.reconnectMaxTime (wrap (2 * Rounds.delay config n)) = Rounds.delay config (n + 1) := hfail.2
  have hne' : Rounds.delay config (n + 1) ≠ 0 := by
    have := hu.delay_pos (n + 1)
    omega
  refine ⟨hdelay,hscaling.next (e := .scaleUp none) trivial ?_⟩
  simp [Rounds.step,ScaleLoop.step,Rounds.count,Loop.failed,failing,hdelay,hne',starting,lifoSignal,Lifo.acquire]

end Failing

/-- With any pooler and in every run, each failed round arms a retry, after the initial time and then after twice the
delay before up to the maximum: exactly if there is a maximum and it can be doubled in 64 bits. -/
theorem failures_back_off {config : Config} (hu : config.Usable) :
    (∀ (σ ε : Type) (P : Signal σ ε) (p : σ) (r : Rounds σ),
      Reachable ⟨⟨p,{}⟩,0⟩ (fun _ _ => True) (Rounds.step config P) r → r.Retries config P) ↔
    0 < config.reconnectMaxTime ∧ config.reconnectMaxTime < 0x4000000000000000 := by
  constructor
  · intro hall
    have hlifo := hall Lifo LifoEvent lifoSignal {}
    have hreach : ∀ n, Reachable ⟨⟨{},{}⟩,0⟩ (fun _ _ => True) (Rounds.step config lifoSignal) (failing config n) := by
      intro n
      induction n with
      | zero => exact failing_zero hu
      | succ n ih => exact (failing_succ hu ih hlifo).2
    exact hu.bounded fun k => (failing_succ hu (hreach k) hlifo).1
  · rintro ⟨hm,hlt⟩ σ ε P p r hr
    have hstart : (⟨⟨p,{}⟩,0⟩ : Rounds σ).Tracks config := ⟨fun _ => rfl,by simp,by simp⟩
    have htracks : r.Tracks config := hr.invariant hstart fun _ _ _ h _ hs => h.step hu hm hlt hs
    exact htracks.retries hu hm hlt

/-- One second, up to one minute: the right side holds. -/
theorem failures_back_off_minute :
    (∀ (σ ε : Type) (P : Signal σ ε) (p : σ) (r : Rounds σ),
      Reachable ⟨⟨p,{}⟩,0⟩ (fun _ _ => True) (Rounds.step oneSecond P) r → r.Retries oneSecond P) ↔
    0 < oneSecond.reconnectMaxTime ∧ oneSecond.reconnectMaxTime < 0x4000000000000000 :=
  failures_back_off ⟨by decide,.inr (by decide),by decide⟩

def uncapped : Config := { idleTimeout := 0, reconnectInitialTime := 1000000000, reconnectMaxTime := 0 }

def failedTwice : List (Event LifoEvent) :=
  [.start, .block, .pooler (.acquire 1), .check, .scaleUp none, .block, .fireBackoff, .check, .scaleUp none]

/-- The second failed round arms no retry although the client still waits. -/
theorem second_failure_gives_up : ∃ r : Rounds Lifo,
    Reachable ⟨⟨{},{}⟩,0⟩ (fun _ _ => True) (Rounds.step uncapped lifoSignal) r ∧ r.failures = 2 ∧
    r.sys.pooler.waiters = [1] ∧ r.sys.loop.backoff = .stopped ∧ r.sys.loop.backoffAmount = 0 :=
  ⟨_,Reachable.of_run .start (fun _ _ => id) failedTwice rfl,rfl,rfl,rfl,rfl⟩

end Pggat.Spool.ScaleLoop
