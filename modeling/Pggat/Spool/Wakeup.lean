import Pggat.Rob.Signal
import Pggat.Spool.ScaleLoop

/-! Clients that wait for a server are noticed by the scale loop. -/
namespace Pggat.Spool
open Pggat.Base

/-- A pooler gets its first waiter only in a step that offers a token, and keeps the token until it is taken. -/
structure Signal.Lawful {σ ε : Type} (P : Signal σ ε) : Prop where
  calm : ∀ {s s' e}, P.step s e = some s' → P.offers s e = false → P.waiters s = 0 → P.waiters s' = 0
  kept : ∀ {s s' e}, P.step s e = some s' → P.token s = true → P.token s' = true
  sent : ∀ {s s' e}, P.step s e = some s' → P.offers s e = true → P.buffered = true → P.token s' = true

namespace ScaleLoop
variable {σ ε : Type}

/-- Durations that can be doubled in 64 bits. -/
structure Config.Sound (config : Config) : Prop where
  initial : 0 < config.reconnectInitialTime ∧ config.reconnectInitialTime < 0x4000000000000000
  max : 0 < config.reconnectMaxTime ∧ config.reconnectMaxTime < 0x4000000000000000

theorem wrap_double {d : Int} (h0 : 0 ≤ d) (h : d < 0x4000000000000000) : wrap (2 * d) = 2 * d := by
  unfold wrap
  rw [Int.bmod_eq_of_le] <;> omega

/-- The timer runs exactly while the loop backs off. -/
structure Loop.Fit (l : Loop) : Prop where
  amount : 0 ≤ l.backoffAmount ∧ l.backoffAmount < 0x4000000000000000
  between : l.stage.attends = false → (l.backoff = .stopped ↔ l.backoffAmount = 0)
  attending : ∀ backingOff, l.stage = .checking backingOff ∨ l.stage = .scaling backingOff →
    l.backoff = .stopped ∧ (backingOff = true ↔ l.backoffAmount ≠ 0)

/-- The loop notices waiters without a token: it backs off or will evaluate `Waiters`. -/
def Loop.Alert (l : Loop) : Prop := l.backoffAmount ≠ 0 ∨ l.stage.attends = true

/-- Waiting clients have left a token, or the loop is alert. -/
structure Noticed (P : Signal σ ε) (s : ScaleLoop σ) : Prop where
  fit : s.loop.Fit
  noticed : P.waiters s.pooler = 0 ∨ P.token s.pooler = true ∨ s.loop.Alert

namespace Loop.Fit
variable {l : Loop} (h : l.Fit)
include h

/-- Neither the timer nor the amount changes on the way between two places outside the cases that scale up. -/
theorem goto (hs : l.stage.attends = false) {l' : Loop} (hs' : l'.stage.attends = false)
    (ha : l'.backoffAmount = l.backoffAmount) (hb : l'.backoff = .stopped ↔ l.backoff = .stopped) : l'.Fit where
  amount := by rw [ha]; exact h.amount
  between _ := by rw [ha,hb]; exact h.between hs
  attending := by
    rintro b (hb | hb) <;> simp [hb,Stage.attends] at hs'

theorem returned : ({ l with stage := .returned } : Loop).Fit where
  amount := h.amount
  between hs := by cases hs
  attending := by simp

variable {b : Bool}

theorem attend (stage : Stage) (hs : stage = .checking b ∨ stage = .scaling b)
    (hb : b = true ↔ l.backoffAmount ≠ 0) : ({ l with backoff := .stopped, stage := stage } : Loop).Fit where
  amount := h.amount
  between hn := by rcases hs with rfl | rfl <;> cases hn
  attending := by
    intro b' hb'
    have he : b = b' := by rcases hs with rfl | rfl <;> simpa using hb'
    exact ⟨rfl,he ▸ hb⟩

theorem fire (hb : l.backoff = .armed) : ({ l with backoff := .fired } : Loop).Fit where
  amount := h.amount
  between hs := by
    have ht := h.between hs
    simp only [hb,reduceCtorEq,false_iff] at ht ⊢
    exact ht
  attending b hs := by
    have ht := (h.attending b hs).1
    rw [hb] at ht
    cases ht

theorem select_backoff (hs : l.stage.attends = false) (hb : l.backoff ≠ .stopped) :
    (l.select .backoff).Fit ∧ (l.select .backoff).Alert := by
  have ha : l.backoffAmount ≠ 0 := fun ha => hb ((h.between hs).mpr ha)
  simp only [select,if_neg ha]
  exact ⟨h.attend _ (.inl rfl) (by simpa using ha),.inl ha⟩

theorem select_waiting (hs : l.stage.attends = false) : (l.select .waiting).Fit ∧ (l.select .waiting).Alert := by
  by_cases ha : l.backoffAmount = 0
  · have hf := h.attend _ (b := false) (.inl rfl) (by simpa using ha)
    rw [← (h.between hs).mpr ha] at hf
    simp only [select,if_neg (not_not.mpr ha)]
    exact ⟨hf,.inr rfl⟩
  · simp only [select,if_pos ha]
    exact ⟨h.goto hs rfl rfl .rfl,.inl ha⟩

theorem caughtUp (hs : l.stage = .checking b) : (l.caughtUp b).Fit := by
  obtain ⟨hstop,hb⟩ := h.attending b (.inl hs)
  have h0 : (l.caughtUp b).backoffAmount = 0 := by
    cases b with
    | true => rfl
    | false => simpa [Loop.caughtUp] using hb
  refine ⟨by rw [h0]; decide,fun _ => ?_,by simp [Loop.caughtUp]⟩
  simp [h0,show (l.caughtUp b).backoff = .stopped from hstop]

theorem failed {config : Config} (hc : config.Sound) (hs : l.stage = .scaling b) :
    (l.failed config b).Fit ∧ (l.failed config b).Alert := by
  obtain ⟨hstop,hb⟩ := h.attending b (.inr hs)
  have hpos : 0 < (l.failed config b).backoffAmount ∧ (l.failed config b).backoffAmount < 0x4000000000000000 := by
    cases b with
    | true =>
      have hne := hb.mp rfl
      have ⟨h0,h1⟩ := h.amount
      have ⟨hm0,hm1⟩ := hc.max
      simp only [Loop.failed,wrap_double h0 h1,if_true]
      omega
    | false => exact hc.initial
  have hne : (l.failed config b).backoffAmount ≠ 0 := by omega
  refine ⟨⟨⟨by omega,hpos.2⟩,fun _ => ?_,by simp [Loop.failed]⟩,.inl hne⟩
  have harm : (l.failed config b).backoff = .armed := if_pos hne
  simp [hne,harm]

end Loop.Fit

namespace Noticed
variable {config : Config} {P : Signal σ ε} {s s' : ScaleLoop σ}

variable {l : Loop}

theorem move (h : Noticed P s) (hf : l.Fit) (ha : s.loop.Alert → l.Alert) : Noticed P { s with loop := l } :=
  ⟨hf,h.noticed.imp_right (Or.imp_right ha)⟩

theorem alert {p : σ} (h : l.Fit ∧ l.Alert) : Noticed P ⟨p,l⟩ := ⟨h.1,.inr (.inr h.2)⟩

/-- A step of the pooler. What it offers to a loop that is not blocked stays as a token, or the loop is alert. -/
theorem pooler (h : Noticed P s) (hP : P.Lawful) {e : ε} (hh : Heard P s (.pooler e))
    (hstep : poolerStep P s e = some s') : Noticed P s' := by
  obtain ⟨p,hp,rfl⟩ := Option.map_eq_some_iff.mp hstep
  split
  · rename_i hb
    exact alert (h.fit.select_waiting (by simp [hb.2,Stage.attends]))
  · rename_i hb
    refine ⟨h.fit,?_⟩
    cases ho : P.offers s.pooler e with
    | false => exact h.noticed.imp (hP.calm hp ho) (Or.imp_left (hP.kept hp))
    | true =>
      rcases hh ho with hbuf | hblocked | hatt | hback
      · exact .inr (.inl (hP.sent hp ho hbuf))
      · exact absurd ⟨ho,hblocked⟩ hb
      · exact .inr (.inr (.inr hatt))
      · cases hatt : s.loop.stage.attends with
        | true => exact .inr (.inr (.inr hatt))
        | false => exact .inr (.inr (.inl fun ha => hback ((h.fit.between hatt).mpr ha)))

variable {c : Case}

/-- A timer that fires, or the close of the pool, is taken up by a blocked loop at once. -/
theorem wake (h : Noticed P s) (hf : l.Fit) (ha : s.loop.Alert → l.Alert)
    (hc : s.loop.stage = .blocked → (s.loop.select c).Fit ∧ (s.loop.Alert → (s.loop.select c).Alert)) :
    Noticed P (s.wake c l) := by
  unfold ScaleLoop.wake
  split
  · rename_i hb
    exact h.move (hc hb).1 (hc hb).2
  · exact h.move hf ha

theorem block (h : Noticed P s) {stage : Stage} (hs : s.loop.stage = stage) (hq : stage.attends = false)
    (hl : l.stage.attends = false) (ha : l.backoffAmount = s.loop.backoffAmount) (hb : l.backoff = s.loop.backoff) :
    Noticed P { s with loop := l } := by
  subst hs
  refine h.move (h.fit.goto hq hl ha (by rw [hb])) (Or.imp (fun h0 => ha ▸ h0) fun hatt => ?_)
  rw [hq] at hatt
  cases hatt

private theorem take (h : Noticed P s) (hs : s.loop.stage = .entering) (hr : ready P s c = true) :
    Noticed P (ScaleLoop.take P s c) := by
  have hq : s.loop.stage.attends = false := by rw [hs]; rfl
  cases c with
  | closed => exact alert ⟨h.fit.returned,.inr rfl⟩
  | backoff =>
    have hb : s.loop.backoff = .fired := of_decide_eq_true hr
    exact alert (h.fit.select_backoff hq (by simp [hb]))
  | waiting => exact alert (h.fit.select_waiting hq)
  | idle => exact h.block hs rfl rfl rfl rfl

private theorem scaleUp (h : Noticed P s) (hc : config.Sound) {server : Option ε}
    (hstep : s.step config P (.scaleUp server) = some s') : Noticed P s' := by
  simp only [ScaleLoop.step] at hstep
  split at hstep
  · rename_i b e hs
    obtain ⟨p,_,rfl⟩ := Option.map_eq_some_iff.mp (Option.ite_none_right_eq_some.mp hstep).2
    obtain ⟨hstop,hb⟩ := h.fit.attending b (.inr hs)
    have hf := h.fit.attend (.checking b) (.inl rfl) hb
    rw [← hstop] at hf
    exact alert ⟨hf,.inr rfl⟩
  · rename_i b hs
    cases hstep
    exact alert (h.fit.failed hc hs)
  · cases hstep

private theorem check (h : Noticed P s) (hstep : s.step config P .check = some s') : Noticed P s' := by
  simp only [ScaleLoop.step] at hstep
  split at hstep
  · rename_i b hs
    cases hstep
    split
    · obtain ⟨hstop,hb⟩ := h.fit.attending b (.inl hs)
      have hf := h.fit.attend (.scaling b) (.inr rfl) hb
      rw [← hstop] at hf
      exact alert ⟨hf,.inr rfl⟩
    · rename_i hw
      exact ⟨h.fit.caughtUp hs,.inl (Nat.eq_zero_of_not_pos hw)⟩
  · cases hstep

theorem step (h : Noticed P s) (hc : config.Sound) (hP : P.Lawful) {e : Event ε} (hh : Heard P s e)
    (hstep : s.step config P e = some s') : Noticed P s' := by
  cases e with
  | pooler e => exact h.pooler hP hh hstep
  | start =>
    obtain ⟨hs,he⟩ := Option.ite_none_right_eq_some.mp hstep
    cases he
    exact h.block hs rfl rfl rfl rfl
  | fireBackoff =>
    obtain ⟨hb,he⟩ := Option.ite_none_right_eq_some.mp hstep
    cases he
    refine h.wake (h.fit.fire hb) id fun hs => ?_
    obtain ⟨hf,ha⟩ := h.fit.select_backoff (by simp [hs,Stage.attends]) (by simp [hb])
    exact ⟨hf,fun _ => ha⟩
  | fireIdle =>
    obtain ⟨_,he⟩ := Option.ite_none_right_eq_some.mp hstep
    cases he
    refine h.wake ⟨h.fit.amount,h.fit.between,h.fit.attending⟩ id fun hs => ?_
    have hn := h.block hs rfl (l := s.loop.select .idle) rfl rfl rfl
    exact ⟨hn.fit,Or.imp_right (by simp [hs,Stage.attends])⟩
  | close =>
    cases hstep
    have hl : ({ s.loop with closed := true } : Loop).Fit := ⟨h.fit.amount,h.fit.between,h.fit.attending⟩
    exact (h.move hl id).wake hl id fun _ => ⟨hl.returned,fun _ => .inr rfl⟩
  | select c =>
    obtain ⟨⟨hs,hr⟩,he⟩ := Option.ite_none_right_eq_some.mp hstep
    cases he
    exact h.take hs hr
  | block =>
    obtain ⟨⟨hs,_⟩,he⟩ := Option.ite_none_right_eq_some.mp hstep
    cases he
    exact h.block hs rfl rfl rfl rfl
  | check => exact h.check hstep
  | scaleUp server => exact h.scaleUp hc hstep
  | scaledDown =>
    obtain ⟨hs,he⟩ := Option.ite_none_right_eq_some.mp hstep
    cases he
    exact h.block hs rfl rfl rfl rfl

theorem asleep (h : Noticed P s) (hs : s.Asleep P) : P.waiters s.pooler = 0 := by
  obtain ⟨hb,ht,hstop⟩ := hs
  have hq : s.loop.stage.attends = false := by rw [hb]; rfl
  rcases h.noticed with h0 | htok | ha | hatt
  · exact h0
  · rw [ht] at htok
    cases htok
  · exact absurd ((h.fit.between hq).mp hstop) ha
  · rw [hq] at hatt
    cases hatt

end Noticed

theorem reachable_noticed {config : Config} {P : Signal σ ε} (hc : config.Sound) (hP : P.Lawful) {p : σ}
    (h0 : P.waiters p = 0) {allowed : ScaleLoop σ → Event ε → Prop} (ha : ∀ s e, allowed s e → Heard P s e)
    {s : ScaleLoop σ} (h : Reachable ⟨p,{}⟩ allowed (step config P) s) : Noticed P s := by
  have hstart : Loop.Fit {} := ⟨⟨Int.le_refl 0,by decide⟩,fun _ => by simp,by simp⟩
  exact h.invariant (P := Noticed P) ⟨hstart,.inl h0⟩ fun _ _ _ hs hh hstep => hs.step hc hP (ha _ _ hh) hstep

end ScaleLoop

private theorem Lifo.release_waiters (T : Lifo) (server : Uuid) (h : T.waiters = []) :
    (T.release server).waiters = [] := by
  unfold Lifo.release
  split
  · exact h
  · simp only [h]

variable {T T' : Lifo}

private theorem Lifo.receive_waiters {client : Uuid} {r : Option Uuid} (h : T.receive client = some (r,T')) :
    T'.waiters = T.waiters := by
  unfold Lifo.receive at h
  split at h
  · cases h
    rfl
  · obtain ⟨_,he⟩ := Option.ite_none_right_eq_some.mp h
    cases he
    rfl

private theorem Lifo.step_waiters {e : LifoEvent} (h : T.step e = some T') (ho : lifoSignal.offers T e = false)
    (hw : T.waiters = []) : T'.waiters = [] := by
  cases e with
  | addServer server =>
    cases h
    exact Lifo.release_waiters _ server hw
  | deleteServer server =>
    cases h
    exact hw
  | acquire client =>
    cases h
    have hwait : (T.acquire client).1 ≠ .wait := of_decide_eq_false ho
    revert hwait
    unfold Lifo.acquire
    split
    · exact fun _ => hw
    · split
      · exact fun _ => hw
      · exact fun hwait => absurd rfl hwait
  | receive client =>
    obtain ⟨⟨r,T''⟩,hr,rfl⟩ := Option.map_eq_some_iff.mp h
    exact (Lifo.receive_waiters hr).trans hw
  | timeout client =>
    obtain ⟨⟨r,T''⟩,hr,rfl⟩ := Option.map_eq_some_iff.mp h
    rw [Lifo.timeout,hw,if_neg List.not_mem_nil] at hr
    exact (Lifo.receive_waiters hr).trans hw
  | release server =>
    cases h
    exact Lifo.release_waiters _ server hw
  | close =>
    cases h
    rfl

private theorem lifoSignal_lawful : lifoSignal.Lawful where
  calm h ho hw := List.length_eq_zero_iff.mpr (Lifo.step_waiters h ho (List.length_eq_zero_iff.mp hw))
  kept _ h := by cases h
  sent _ _ h := by cases h

private theorem robSignal_offers (s : Rob.System) (e : Rob.Event) : robSignal.offers s e = true ↔ s.Waits e := by
  cases e with
  | acquire now user timed =>
    show waits s.sched now user = true ↔ ∃ ready, (s.sched.acquire now user).1 = .wait ready
    unfold waits
    rcases (s.sched.acquire now user).1 with _ | id | ready <;> simp
  | _ => exact ⟨nofun,nofun⟩

private theorem robSignal_lawful : robSignal.Lawful where
  calm {s s' e} h ho hw := by
    rcases Rob.System.step_signals h with ⟨hwait,_⟩ | ⟨_,hq⟩
    · rw [(robSignal_offers s e).mpr hwait] at ho
      cases ho
    · refine (Rob.Scheduler.waiters_eq_zero _).mpr fun user u hu => ?_
      by_contra hs
      obtain ⟨u',hu',hs'⟩ := hq.users user u hu (by simpa using hs)
      rw [(Rob.Scheduler.waiters_eq_zero _).mp hw user u' hu'] at hs'
      cases hs'
  kept {s s' e} h ht := by
    rcases Rob.System.step_signals h with ⟨_,hsent⟩ | ⟨_,hq⟩
    · exact hsent
    · exact hq.waiting.trans ht
  sent {s s' e} h ho _ := by
    rcases Rob.System.step_signals h with ⟨_,hsent⟩ | ⟨hn,_⟩
    · exact hsent
    · exact absurd ((robSignal_offers s e).mp ho) hn

namespace ScaleLoop

/-- A scale loop that is blocked in its select with neither a token nor a timer has left no client waiting: with
the `rob` pooler in every run, and with the `lifo` pooler in every run in which the loop can hear each send. -/
theorem asleep_without_waiters {config : Config} (hc : config.Sound) :
    (∀ s : ScaleLoop Rob.System, Reachable ⟨{},{}⟩ (fun _ _ => True) (step config robSignal) s → s.Asleep robSignal →
      s.pooler.sched.waiters = 0) ∧
    ∀ s : ScaleLoop Lifo, Reachable ⟨{},{}⟩ (Heard lifoSignal) (step config lifoSignal) s → s.Asleep lifoSignal →
      s.pooler.waiters.length = 0 := by
  constructor
  · intro s h hs
    refine (reachable_noticed hc robSignal_lawful rfl ?_ h).asleep hs
    intro s e _
    cases e with
    | pooler e => exact fun _ => .inl rfl
    | _ => trivial
  · intro s h hs
    exact (reachable_noticed hc lifoSignal_lawful rfl (fun _ _ => id) h).asleep hs

instance (P : Signal σ ε) (s : ScaleLoop σ) : (e : Event ε) → Decidable (Heard P s e)
  | .pooler _ => inferInstanceAs (Decidable (_ → _))
  | .start | .fireBackoff | .fireIdle | .close | .select _ | .block | .check | .scaleUp _ | .scaledDown =>
    inferInstanceAs (Decidable True)

def oneSecond : Config := { idleTimeout := 0, reconnectInitialTime := 1000000000, reconnectMaxTime := 60000000000 }

def served : List (Event LifoEvent) :=
  [.start, .block, .pooler (.acquire 1), .check, .scaleUp (some (.addServer 7)), .check, .block]

theorem asleep_without_waiters_served : ∃ s : ScaleLoop Lifo,
    Reachable ⟨{},{}⟩ (Heard lifoSignal) (step oneSecond lifoSignal) s ∧ s.Asleep lifoSignal ∧
    (s.pooler.ready 1).buffered = some 7 ∧ s.pooler.waiters.length = 0 := by
  have h := Reachable.of_run .start (fun _ _ => id) served
    (show run (Heard lifoSignal) (step oneSecond lifoSignal) ⟨{},{}⟩ served = some _ from rfl)
  have hc : oneSecond.Sound := ⟨by decide,by decide⟩
  exact ⟨_,h,⟨rfl,rfl,rfl⟩,rfl,(asleep_without_waiters hc).2 _ h ⟨rfl,rfl,rfl⟩⟩

/-- Client 2 comes when the loop has found no waiter and is not yet back in its select. -/
def unheard : List (Event LifoEvent) :=
  [.start, .block, .pooler (.acquire 1), .check, .scaleUp (some (.addServer 7)), .check, .pooler (.acquire 2), .block]

/-- The amount to back off for becomes zero when it is doubled. -/
def longest : Config := { idleTimeout := 0, reconnectInitialTime := 0x4000000000000000, reconnectMaxTime := 0x4000000000000000 }

/-- No server can be made while the loop backs off twice. -/
def overflown : List (Event Rob.Event) :=
  [.pooler (.addUser 1), .start, .pooler (.acquire 0 1 false), .select .waiting, .check, .scaleUp none, .block,
    .fireBackoff, .check, .scaleUp none, .block, .fireBackoff, .check, .scaleUp none, .block]

/-- A client waits and nothing wakes the loop: the `lifo` pooler's send found no receiver, or the doubled
duration was zero. -/
theorem asleep_with_waiter :
    (∃ s : ScaleLoop Lifo, Reachable ⟨{},{}⟩ (fun _ _ => True) (step oneSecond lifoSignal) s ∧ s.Asleep lifoSignal ∧
      s.pooler.waiters = [2]) ∧
    ∃ s : ScaleLoop Rob.System, Reachable ⟨{},{}⟩ (fun _ _ => True) (step longest robSignal) s ∧ s.Asleep robSignal ∧
      s.pooler.sched.waiters = 1 :=
  ⟨⟨_,Reachable.of_run .start (fun _ _ => id) unheard rfl,⟨rfl,rfl,rfl⟩,rfl⟩,
    ⟨_,Reachable.of_run .start (fun _ _ => id) overflown rfl,⟨rfl,rfl,rfl⟩,rfl⟩⟩

end ScaleLoop
end Pggat.Spool
