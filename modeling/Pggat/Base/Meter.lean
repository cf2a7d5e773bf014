import Mathlib.Algebra.GroupWithZero.Nat
import Mathlib.Algebra.Ring.Int.Defs
import Mathlib.Data.List.Basic
import Mathlib.Logic.Function.Basic
import Mathlib.Tactic.SplitIfs

/-! Time spent in states: what it is, and a meter that adds it up between readings. -/
namespace Pggat.Base
variable {S : Type} [DecidableEq S]

/-- The number of instants from `start` until before `stop` at which something is in state `s`. -/
def timeIn (f : Int → S) (s : S) (start stop : Int) : Nat :=
  (List.range (stop - start).toNat).countP fun i : Nat => decide (f (start + (i : Int)) = s)

omit [DecidableEq S] in
/-- The state at an instant, from the changes in the order of their times. -/
def stateAt (initial : S) : List (Int × S) → Int → S
  | [], _ => initial
  | c :: changes, x => if x < c.1 then initial else stateAt c.2 changes x

section Time
variable {f g : Int → S} {s s₀ : S} {a b c : Int}

theorem timeIn_add (hab : a ≤ b) (hbc : b ≤ c) : timeIn f s a c = timeIn f s a b + timeIn f s b c := by
  obtain ⟨m,rfl⟩ := Int.le.dest hab
  obtain ⟨n,rfl⟩ := Int.le.dest hbc
  have hm : (a + m - a).toNat = m := by omega
  have hn : (a + m + n - (a + m)).toNat = n := by omega
  have hmn : (a + m + n - a).toNat = m + n := by omega
  simp only [timeIn,hm,hn,hmn,List.range_add,List.countP_append,List.countP_map]
  congr 2
  funext i
  simp [Int.add_assoc]

theorem timeIn_congr (h : ∀ x, a ≤ x → x < b → f x = g x) : timeIn f s a b = timeIn g s a b := by
  apply List.countP_congr
  intro i hi
  have hlt := List.mem_range.mp hi
  rw [h (a + i) (by omega) (by omega)]

theorem timeIn_const (hab : a ≤ b) (h : ∀ x, a ≤ x → x < b → f x = s₀) :
    (timeIn f s a b : Int) = if s₀ = s then b - a else 0 := by
  rw [timeIn_congr (g := fun _ => s₀) h,timeIn]
  by_cases hs : s₀ = s
  · simp only [hs,decide_true,List.countP_true,List.length_range,if_true]
    omega
  · simp [hs]

omit [DecidableEq S] in
theorem stateAt_before {changes : List (Int × S)} (h : ∀ c ∈ changes, a < c.1) : stateAt s₀ changes a = s₀ := by
  cases changes with
  | nil => rfl
  | cons c changes => exact if_pos (h c List.mem_cons_self)

end Time

def outputs {σ ε ρ : Type} (step : σ → ε → Option ρ × σ) : σ → List ε → List ρ
  | _, [] => []
  | s, e :: es => (step s e).1.toList ++ outputs step (step s e).2 es

/-- Calls that return the same, seen through functions of the states, the calls and the results. -/
theorem map_outputs {σ τ ε δ ρ κ : Type} {step : σ → ε → Option ρ × σ} {step' : τ → δ → Option κ × τ} (view : σ → τ)
    (call : ε → δ) (result : ρ → κ)
    (h : ∀ s e, step' (view s) (call e) = ((step s e).1.map result,view (step s e).2)) (s : σ) (es : List ε) :
    (outputs step s es).map result = outputs step' (view s) (es.map call) := by
  induction es generalizing s with
  | nil => rfl
  | cons e es ih =>
    rw [outputs,List.map_append,ih,List.map_cons,outputs,h]
    cases (step s e).1 with
    | none => rfl
    | some r => rfl

/-- What a meter is told. -/
inductive Tick (S : Type) where
  | change (now : Int) (state : S)
  | count
  | read (now : Int)
  deriving DecidableEq, Repr

namespace Tick

def time : Tick S → Option Int
  | .change now _ => some now
  | .count => none
  | .read now => some now

def changed : Tick S → Option (Int × S)
  | .change now state => some (now,state)
  | _ => none

end Tick

/-- What a reading shows: the time in each state and the number of counted events since the last one. -/
structure Reading (S : Type) where
  util : S → Int
  count : Nat

/-- The time since the last change or reading is added up when the state changes and when it is read. -/
structure Meter (S : Type) where
  lastRead : Int := 0
  state : S
  since : Int
  util : S → Int := fun _ => 0
  counted : Nat := 0

namespace Meter

/-- How long the state has lasted since the last reading. -/
def elapsed (m : Meter S) (now : Int) : Int := if m.since < m.lastRead then now - m.lastRead else now - m.since

def charged (m : Meter S) (now : Int) : S → Int := Function.update m.util m.state (m.util m.state + m.elapsed now)

def step (m : Meter S) : Tick S → Option (Reading S) × Meter S
  | .change now state => (none,{ m with util := m.charged now, state := state, since := now })
  | .count => (none,{ m with counted := m.counted + 1 })
  | .read now => (some ⟨m.charged now,m.counted⟩,{ m with util := fun _ => 0, counted := 0, lastRead := now })

def readings (m : Meter S) (ticks : List (Tick S)) : List (Reading S) := outputs step m ticks

variable {m : Meter S} {s : S} {t now : Int}

omit [DecidableEq S] in
private theorem elapsed_add (m : Meter S) (t now : Int) : m.elapsed now = m.elapsed t + (now - t) := by
  unfold elapsed
  split <;> omega

theorem charged_apply (m : Meter S) (now : Int) (s : S) :
    m.charged now s = m.util s + if m.state = s then m.elapsed now else 0 := by
  by_cases hs : m.state = s
  · rw [if_pos hs,charged,hs,Function.update_self]
  · rw [if_neg hs,charged,Function.update_of_ne (Ne.symm hs),Int.add_zero]

private theorem charged_later (m : Meter S) (t now : Int) (s : S) :
    m.charged now s = m.charged t s + if m.state = s then now - t else 0 := by
  rw [charged_apply,charged_apply,elapsed_add m t now]
  split <;> omega

private theorem charged_change (hl : m.lastRead ≤ now) (state s : S) :
    (m.step (.change now state)).2.charged now s = m.charged now s := by
  have h0 : (m.step (.change now state)).2.elapsed now = 0 := by
    show (if now < m.lastRead then now - m.lastRead else now - now) = 0
    rw [if_neg (Int.not_lt.mpr hl),Int.sub_self]
  rw [charged_apply,h0,ite_self,Int.add_zero]
  rfl

private theorem charged_read (hs : m.since ≤ now) (s : S) : (m.step (.read now)).2.charged now s = 0 := by
  have h0 : (m.step (.read now)).2.elapsed now = 0 := by
    show (if m.since < now then now - now else now - m.since) = 0
    split <;> omega
  rw [charged_apply,h0,ite_self,Int.add_zero]
  rfl

/-- The readings of a meter add up to what is charged at the start and the time in the state from then on. -/
theorem sum_readings {ticks : List (Tick S)} {stop : Int} (hs : m.since ≤ t) (hl : m.lastRead ≤ t)
    (hmono : (t :: (ticks.filterMap Tick.time ++ [stop])).Pairwise (· ≤ ·)) (s : S) :
    ((m.readings (ticks ++ [.read stop])).map (·.util s)).sum =
      m.charged t s + timeIn (stateAt m.state (ticks.filterMap Tick.changed)) s t stop := by
  induction ticks generalizing m t with
  | nil =>
    have hle : t ≤ stop := List.rel_of_pairwise_cons hmono (by simp)
    have htime := timeIn_const (f := stateAt m.state []) (s := s) hle fun _ _ _ => rfl
    show m.charged stop s + 0 = m.charged t s + timeIn (stateAt m.state []) s t stop
    rw [htime,charged_later m t stop,Int.add_zero]
  | cons tick ticks ih =>
    cases tick with
    | change now state =>
      obtain ⟨hle,hrest⟩ := List.pairwise_cons.mp hmono
      have hnow : t ≤ now := hle now List.mem_cons_self
      have hstop : now ≤ stop := List.rel_of_pairwise_cons hrest (List.mem_append_right _ (List.mem_singleton_self _))
      have hbefore : ∀ x, t ≤ x → x < now → stateAt m.state ((now,state) :: ticks.filterMap Tick.changed) x = m.state :=
        fun x _ hx => if_pos hx
      have hafter : ∀ x, now ≤ x → x < stop → stateAt m.state ((now,state) :: ticks.filterMap Tick.changed) x =
          stateAt state (ticks.filterMap Tick.changed) x := fun x hx _ => if_neg (Int.not_lt.mpr hx)
      have hsum := ih (m := (m.step (.change now state)).2) (Int.le_refl now) (Int.le_trans hl hnow) hrest
      show ((outputs step _ _).map (·.util s)).sum = _ + timeIn (stateAt m.state ((now,state) :: _)) s t stop
      rw [timeIn_add hnow hstop,timeIn_congr hafter,Int.natCast_add,timeIn_const hnow hbefore]
      refine hsum.trans ?_
      rw [charged_change (Int.le_trans hl hnow),charged_later m t now,Int.add_assoc]
      rfl
    | count => exact ih hs hl hmono
    | read now =>
      obtain ⟨hle,hrest⟩ := List.pairwise_cons.mp hmono
      have hnow : t ≤ now := hle now List.mem_cons_self
      have hstop : now ≤ stop := List.rel_of_pairwise_cons hrest (List.mem_append_right _ (List.mem_singleton_self _))
      have hbefore : ∀ x, t ≤ x → x < now → stateAt m.state (ticks.filterMap Tick.changed) x = m.state := by
        intro x _ hx
        apply stateAt_before
        intro c hc
        obtain ⟨tick,htick,hc⟩ := List.mem_filterMap.mp hc
        have htime : tick.time = some c.1 := by
          cases tick with
          | change => cases hc; rfl
          | count => cases hc
          | read => cases hc
        have := List.rel_of_pairwise_cons hrest (List.mem_append_left _ (List.mem_filterMap.mpr ⟨tick,htick,htime⟩))
        omega
      have hsum := ih (m := (m.step (.read now)).2) (Int.le_trans hs hnow) (Int.le_refl now) hrest
      show m.charged now s + ((outputs step _ _).map (·.util s)).sum =
        _ + timeIn (stateAt m.state (ticks.filterMap Tick.changed)) s t stop
      rw [timeIn_add hnow hstop,Int.natCast_add,timeIn_const hnow hbefore,← Int.add_assoc,← charged_later m t now]
      refine congrArg (m.charged now s + ·) (hsum.trans ?_)
      rw [charged_read (Int.le_trans hs hnow),Int.zero_add]
      rfl

/-- The readings count every event once. -/
theorem sum_counts (m : Meter S) (ticks : List (Tick S)) (stop : Int) :
    ((m.readings (ticks ++ [.read stop])).map (·.count)).sum = m.counted + ticks.count .count := by
  induction ticks generalizing m with
  | nil => simp [readings,outputs,step]
  | cons tick ticks ih =>
    cases tick with
    | change now state => simpa [readings,outputs,step] using ih (m.step (.change now state)).2
    | count =>
      have := ih (m.step .count).2
      simp [readings,outputs,step] at this ⊢
      omega
    | read now =>
      have := ih (m.step (.read now)).2
      simp [readings,outputs,step] at this ⊢
      omega

end Meter
end Pggat.Base
