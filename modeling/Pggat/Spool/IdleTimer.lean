import Mathlib.Data.List.Perm.Basic
import Pggat.Spool.Pool

/-! The duration that `ScaleDown` returns, after which it is run again. -/
namespace Pggat.Spool.Pool
open Pggat.Base

/-- How `ScaleDown` goes on from `m` at a server that has been idle for less than the timeout `t`. -/
def shorten (t m idle : Int) : Int := if idle < m then t - idle else m

/-- The time until the first of some servers has been idle for `t`, at most `t`. -/
def soonest (t : Int) (idles : List Int) : Int := (idles.map (t - ·)).foldr min t

section Shorten
variable {t m : Int} {l : List Int}

theorem shorten_cases (t m idle : Int) : idle < m ∧ shorten t m idle = t - idle ∨ m ≤ idle ∧ shorten t m idle = m := by
  by_cases h : idle < m
  · exact .inl ⟨h,if_pos h⟩
  · exact .inr ⟨Int.not_lt.mp h,if_neg h⟩

theorem foldl_shorten_mem (t m : Int) (l : List Int) :
    l.foldl (shorten t) m = m ∨ ∃ a ∈ l, l.foldl (shorten t) m = t - a := by
  induction l generalizing m with
  | nil => exact .inl rfl
  | cons a l ih =>
    rw [List.foldl_cons]
    rcases ih (shorten t m a) with h | ⟨b,hb,h⟩
    · rcases shorten_cases t m a with ⟨-,hs⟩ | ⟨-,hs⟩
      · exact .inr ⟨a,List.mem_cons_self,h.trans hs⟩
      · exact .inl (h.trans hs)
    · exact .inr ⟨b,List.mem_cons_of_mem a hb,h⟩

theorem foldl_shorten_of_lt (hne : l ≠ []) (h : ∀ a ∈ l, a < t) : ∃ a ∈ l, l.foldl (shorten t) t = t - a := by
  cases l with
  | nil => exact absurd rfl hne
  | cons a l =>
    have hfirst : shorten t t a = t - a := if_pos (h a List.mem_cons_self)
    rw [List.foldl_cons,hfirst]
    rcases foldl_shorten_mem t (t - a) l with hm | ⟨b,hb,hm⟩
    · exact ⟨a,List.mem_cons_self,hm⟩
    · exact ⟨b,List.mem_cons_of_mem a hb,hm⟩

/-- Servers that have been idle for longer than the duration so far change nothing. -/
theorem foldl_shorten_eq (h : ∀ a ∈ l, m ≤ a) : l.foldl (shorten t) m = m := by
  induction l with
  | nil => rfl
  | cons a l ih =>
    rw [List.foldl_cons,shorten,if_neg (Int.not_lt.mpr (h a List.mem_cons_self))]
    exact ih fun b hb => h b (List.mem_cons_of_mem a hb)

theorem soonest_cons (t a : Int) (l : List Int) : soonest t (a :: l) = min (t - a) (soonest t l) := rfl

theorem soonest_le (t : Int) (l : List Int) : soonest t l ≤ t := by
  induction l with
  | nil => exact Int.le_refl t
  | cons a l ih =>
    rw [soonest_cons]
    omega

variable {a : Int}

theorem soonest_le_of_mem (h : a ∈ l) : soonest t l ≤ t - a := by
  induction l with
  | nil => cases h
  | cons b l ih =>
    rw [soonest_cons]
    rcases List.mem_cons.mp h with rfl | h
    · omega
    · have := ih h
      omega

theorem le_soonest (hm : m ≤ t) (h : ∀ a ∈ l, m ≤ t - a) : m ≤ soonest t l := by
  induction l with
  | nil => exact hm
  | cons a l ih =>
    have ha := h a List.mem_cons_self
    have hl := ih fun b hb => h b (List.mem_cons_of_mem a hb)
    rw [soonest_cons]
    omega

theorem soonest_perm {l' : List Int} (h : l.Perm l') : soonest t l = soonest t l' := by
  apply Int.le_antisymm
  · exact le_soonest (soonest_le t l) fun a ha => soonest_le_of_mem (h.mem_iff.mpr ha)
  · exact le_soonest (soonest_le t l') fun a ha => soonest_le_of_mem (h.mem_iff.mp ha)

/-- The idle times agree, and none of them has run out or is still to begin. -/
def Together (t : Int) (l : List Int) : Prop := ∀ a ∈ l, 0 ≤ a ∧ a < t ∧ ∀ b ∈ l, a = b

theorem Together.shorten_eq (h : Together t l) : l.foldl (shorten t) t = soonest t l := by
  cases l with
  | nil => rfl
  | cons a l =>
    obtain ⟨h0,hlt,hall⟩ := h a List.mem_cons_self
    have hfirst : shorten t t a = t - a := if_pos hlt
    have hrest : ∀ b ∈ l, a = b := fun b hb => hall b (List.mem_cons_of_mem a hb)
    have hleft : l.foldl (shorten t) (t - a) = t - a := by
      rcases foldl_shorten_mem t (t - a) l with h | ⟨b,hb,h⟩
      · exact h
      · rw [h,hrest b hb]
    have hsoonest : soonest t (a :: l) = t - a := by
      apply Int.le_antisymm
      · exact soonest_le_of_mem List.mem_cons_self
      · exact le_soonest (by omega) fun b hb => Int.le_of_eq (by rw [hall b hb])
    rw [List.foldl_cons,hfirst,hleft,hsoonest]

def Ordered (t : Int) (l : List Int) : Prop := ∀ l' : List Int, l'.Perm l → l'.foldl (shorten t) t = soonest t l

private theorem Ordered.ne_timeout (ht : 0 < t) (hle : ∀ a ∈ l, a ≤ t) (h : Ordered t l) : ∀ a ∈ l, a ≠ t := by
  intro a ha he
  have hzero : soonest t l = 0 := by
    apply Int.le_antisymm
    · have := @soonest_le_of_mem t l a ha
      omega
    · exact le_soonest (by omega) fun b hb => by have := hle b hb; omega
  have hfold := h _ (List.filter_append_perm (· = t) l)
  have hfirst : (l.filter (· = t)).foldl (shorten t) t = t :=
    foldl_shorten_eq fun b hb => by
      have := (List.mem_filter.mp hb).2
      simp at this
      omega
  rw [List.foldl_append,hfirst,hzero] at hfold
  rcases foldl_shorten_mem t t (l.filter fun b => !decide (b = t)) with hm | ⟨b,hb,hm⟩
  · omega
  · have := (List.mem_filter.mp hb).2
    simp at this
    omega

/-- A server that is not the next to run out, seen last, has to be passed over. -/
theorem Ordered.le_of_later (h : Ordered t l) (ha : a ∈ l) (hlater : soonest t l < t - a) : soonest t l ≤ a := by
  have hperm : (l.erase a ++ [a]).Perm l :=
    (List.perm_append_singleton a (l.erase a)).trans (List.perm_cons_erase ha).symm
  have hfold := h _ hperm
  rw [List.foldl_append,List.foldl_cons,List.foldl_nil] at hfold
  rcases shorten_cases t ((l.erase a).foldl (shorten t) t) a with ⟨-,hs⟩ | ⟨hm,hs⟩
  · omega
  · omega

theorem Ordered.together (ht : 0 < t) (hle : ∀ a ∈ l, a ≤ t) (h : Ordered t l) : Together t l := by
  have hlt : ∀ a ∈ l, a < t := fun a ha => by
    have := hle a ha
    have := h.ne_timeout ht hle a ha
    omega
  have hnext : ∀ a ∈ l, soonest t l = t - a := by
    intro a ha
    by_contra hne
    have hlater : soonest t l < t - a := by
      have := @soonest_le_of_mem t l a ha
      omega
    have hfold := h _ (List.filter_append_perm (fun b => soonest t l < t - b) l)
    rw [List.foldl_append] at hfold
    have hmem : ∀ b, b ∈ l.filter (fun b => soonest t l < t - b) ↔ b ∈ l ∧ soonest t l < t - b := by
      intro b
      rw [List.mem_filter,decide_eq_true_eq]
    obtain ⟨c,hc,hlate⟩ : ∃ c ∈ l.filter (fun b => soonest t l < t - b),
        (l.filter fun b => soonest t l < t - b).foldl (shorten t) t = t - c :=
      foldl_shorten_of_lt (List.ne_nil_of_mem ((hmem a).mpr ⟨ha,hlater⟩)) fun b hb => hlt b ((hmem b).mp hb).1
    obtain ⟨hcl,hclater⟩ := (hmem c).mp hc
    have hcle := h.le_of_later hcl hclater
    rw [hlate,foldl_shorten_eq] at hfold
    · omega
    · intro b hb
      obtain ⟨hbl,hb⟩ := List.mem_filter.mp hb
      have := @soonest_le_of_mem t l b hbl
      simp at hb
      omega
  intro a ha
  have := hnext a ha
  have := soonest_le t l
  refine ⟨by omega,hlt a ha,fun b hb => ?_⟩
  have := hnext b hb
  omega

end Shorten

section Scan
variable {σ : Type} (config : Config) (P : Pooler σ)

/-- The time that an idle server has been so, if it is not over the timeout. -/
def idleFor (st : Pool σ) (now : Int) (server : Uuid) : Option Int :=
  if (st.servers server).state = .idle ∧ ¬ now - (st.servers server).since > config.idleTimeout then
    some (now - (st.servers server).since)
  else none

def scanning (st : Pool σ) (e : Event) : Option (Pool σ) := st.scan.bind (scanStep config P st · e)

def dropIgnited (st : Pool σ) : Option (Pool σ) :=
  match st.scan.map Scan.stage with
  | some (.ignited _) => scanning config P st .drop
  | _ => some st

/-- A server over the timeout is given to `Ignite`, which succeeds or not. -/
def igniteCondemned (frees : Bool) (st : Pool σ) : Option (Pool σ) :=
  match st.scan.map Scan.stage with
  | some (.condemned _) => (scanning config P st (.ignite frees)).bind (dropIgnited config P)
  | _ => some st

/-- One turn of the loop of `ScaleDown`. -/
def visit (frees : Uuid → Bool) (st : Pool σ) (server : Uuid) : Option (Pool σ) :=
  (scanning config P st (.look server)).bind (igniteCondemned config P (frees server))

/-- `ScaleDown` with nothing in between, in the given order of the map: its result and the pool after it. -/
def scaleDown (st : Pool σ) (now : Int) (order : List Uuid) (frees : Uuid → Bool) : Option (Int × Pool σ) :=
  (step config P st (.scaleDown now)).bind fun st =>
    (order.foldlM (visit config P frees) st).bind fun st =>
      st.scan.bind fun scan => (step config P st .unlock).map (scan.m,·)

variable {config P} {st : Pool σ} {scan : Scan} {server : Uuid}

theorem scanning_of_some (hscan : st.scan = some scan) (e : Event) :
    scanning config P st e = scanStep config P st scan e := by
  rw [scanning,hscan,Option.bind_some]

private theorem look_cases (config : Config) (st : Pool σ) (scan : Scan) (server : Uuid) :
    ∃ scan', look config st scan server = { st with scan := some scan' } ∧ scan'.now = scan.now ∧
      scan'.seen = server :: scan.seen ∧
      (scan'.stage = .condemned server ∧ scan'.m = scan.m ∧ idleFor config st scan.now server = none ∨
        scan'.stage = scan.stage ∧
          scan'.m = (idleFor config st scan.now server).elim scan.m (shorten config.idleTimeout scan.m)) := by
  refine ⟨_,rfl,?_⟩
  by_cases hidle : (st.servers server).state = .idle
  · by_cases hold : scan.now - (st.servers server).since > config.idleTimeout
    · simp [Server.getState,idleFor,hidle,hold]
    · simp [Server.getState,idleFor,hidle,hold,shorten]
  · simp [Server.getState,idleFor,hidle]

variable (config P)

/-- Whatever `Ignite` does, the scan goes on as before and only the condemned server may be gone. -/
theorem igniteCondemned_spec (hscan : st.scan = some scan) (hstage : scan.stage = .condemned server) (frees : Bool) :
    ∃ st', igniteCondemned config P frees st = some st' ∧ st'.servers = st.servers ∧
      st'.scan = some { scan with stage := .next } ∧ (∀ id ∈ st'.serversByID, id ∈ st.serversByID) ∧
      ∀ id ∈ st.serversByID, id ≠ server → id ∈ st'.serversByID := by
  have hignite : igniteCondemned config P frees st = dropIgnited config P (st.ignite scan server frees) := by
    rw [igniteCondemned,hscan,Option.map_some,hstage]
    simp only
    rw [scanning_of_some hscan,scanStep,hstage,Option.bind_some]
  rw [hignite]
  by_cases hfree : server ∈ st.byConn ∧ frees = true
  · rw [ignite,if_pos hfree]
    refine ⟨_,rfl,rfl,rfl,fun id hid => (List.mem_filter.mp hid).1,fun id hid hne => ?_⟩
    exact List.mem_filter.mpr ⟨hid,decide_eq_true hne⟩
  · rw [ignite,if_neg hfree]
    exact ⟨_,rfl,rfl,rfl,fun _ => id,fun _ h _ => h⟩

private theorem visit_spec (hscan : st.scan = some scan) (hstage : scan.stage = .next) (hin : server ∈ st.serversByID)
    (hnew : server ∉ scan.seen) (frees : Uuid → Bool) :
    ∃ st' scan', visit config P frees st server = some st' ∧ st'.servers = st.servers ∧ st'.scan = some scan' ∧
      scan'.now = scan.now ∧ scan'.stage = .next ∧ scan'.seen = server :: scan.seen ∧
      scan'.m = (idleFor config st scan.now server).elim scan.m (shorten config.idleTimeout scan.m) ∧
      (∀ id ∈ st'.serversByID, id ∈ st.serversByID) ∧ ∀ id ∈ st.serversByID, id ≠ server → id ∈ st'.serversByID := by
  have hlook : scanning config P st (.look server) = some (look config st scan server) := by
    rw [scanning_of_some hscan]
    exact if_pos ⟨hstage,hin,hnew⟩
  rw [visit,hlook,Option.bind_some]
  obtain ⟨scan',he,hnow,hseen,⟨hcond,hm,hnone⟩ | ⟨hnext,hm⟩⟩ := look_cases config st scan server
  · have hscan' : ({ st with scan := some scan' } : Pool σ).scan = some scan' := rfl
    obtain ⟨st',hst,hservers,hscan',hsub,hkept⟩ := igniteCondemned_spec config P hscan' hcond (frees server)
    rw [he,hst,hnone]
    exact ⟨st',_,rfl,hservers,hscan',hnow,rfl,hseen,hm,hsub,hkept⟩
  · rw [hstage] at hnext
    refine ⟨{ st with scan := some scan' },scan',?_,rfl,rfl,hnow,hnext,hseen,hm,fun _ => id,fun _ h _ => h⟩
    rw [he,igniteCondemned,Option.map_some,hnext]

variable {order : List Uuid}

private theorem visits_spec (frees : Uuid → Bool) (hnodup : order.Nodup) (hscan : st.scan = some scan)
    (hstage : scan.stage = .next) (hin : ∀ id ∈ order, id ∈ st.serversByID ∧ id ∉ scan.seen) :
    ∃ st' scan', order.foldlM (visit config P frees) st = some st' ∧ st'.scan = some scan' ∧ scan'.stage = .next ∧
      scan'.m = (order.filterMap (idleFor config st scan.now)).foldl (shorten config.idleTimeout) scan.m ∧
      (∀ id ∈ order, id ∈ scan'.seen) ∧ (∀ id ∈ scan.seen, id ∈ scan'.seen) ∧
      ∀ id ∈ st'.serversByID, id ∈ st.serversByID := by
  induction order generalizing st scan with
  | nil => exact ⟨st,scan,rfl,hscan,hstage,rfl,by simp,fun _ => id,fun _ => id⟩
  | cons server order ih =>
    obtain ⟨hnot,hnodup⟩ := List.nodup_cons.mp hnodup
    obtain ⟨hs,hnew⟩ := hin server List.mem_cons_self
    obtain ⟨st₁,scan₁,hvisit,hservers,hscan₁,hnow,hstage₁,hseen,hm,hsub,hkept⟩ :=
      visit_spec config P hscan hstage hs hnew frees
    have hin₁ : ∀ id ∈ order, id ∈ st₁.serversByID ∧ id ∉ scan₁.seen := by
      intro id hid
      have hne : id ≠ server := fun he => hnot (he ▸ hid)
      obtain ⟨h,hn⟩ := hin id (List.mem_cons_of_mem _ hid)
      refine ⟨hkept id h hne,?_⟩
      rw [hseen,List.mem_cons,not_or]
      exact ⟨hne,hn⟩
    obtain ⟨st₂,scan₂,hrest,hscan₂,hstage₂,hm₂,hall,hseen₂,hsub₂⟩ := ih hnodup hscan₁ hstage₁ hin₁
    have hidle : idleFor config st₁ scan₁.now = idleFor config st scan.now := by
      funext id
      rw [idleFor,idleFor,hservers,hnow]
    refine ⟨st₂,scan₂,?_,hscan₂,hstage₂,?_,?_,?_,fun id hid => hsub id (hsub₂ id hid)⟩
    · rw [List.foldlM_cons,hvisit]
      exact hrest
    · rw [hm₂,hm,hidle,List.filterMap_cons]
      cases idleFor config st scan.now server with
      | none => rfl
      | some idle => rfl
    · intro id hid
      rcases List.mem_cons.mp hid with rfl | hid
      · exact hseen₂ _ (by rw [hseen]; exact List.mem_cons_self)
      · exact hall id hid
    · intro id hid
      exact hseen₂ id (by rw [hseen]; exact List.mem_cons_of_mem _ hid)

private theorem scaleDown_spec {now : Int} (frees : Uuid → Bool) (hfree : st.scan = none)
    (hnow : now ≤ st.clock) (hnodup : st.serversByID.Nodup) (hperm : order.Perm st.serversByID) :
    ∃ st', scaleDown config P st now order frees =
      some ((order.filterMap (idleFor config st now)).foldl (shorten config.idleTimeout) config.idleTimeout,st') := by
  let st₀ : Pool σ := { st with scan := some { now := now, m := config.idleTimeout } }
  have hstart : step config P st (.scaleDown now) = some st₀ := by
    rw [step,hfree]
    exact if_neg (by simp [locked,hfree,Int.not_lt.mpr hnow])
  have hscan₀ : st₀.scan = some { now := now, m := config.idleTimeout } := rfl
  obtain ⟨st₁,scan₁,hrun,hscan₁,hstage₁,hm,hall,-,hsub⟩ := visits_spec config P frees (hperm.nodup_iff.mpr hnodup) hscan₀
    rfl fun id hid => ⟨hperm.mem_iff.mp hid,List.not_mem_nil⟩
  have hunlock : step config P st₁ .unlock = some { st₁ with scan := none } := by
    have hseen : ∀ id ∈ st₁.serversByID, id ∈ scan₁.seen := fun id hid => hall id (hperm.mem_iff.mpr (hsub id hid))
    rw [step,hscan₁]
    simp only [actor,scanStep,if_pos (And.intro hstage₁ hseen)]
    rfl
  refine ⟨{ st₁ with scan := none },?_⟩
  rw [scaleDown,hstart,Option.bind_some,hrun,Option.bind_some,hscan₁,Option.bind_some,hunlock,Option.map_some,hm]
  rfl

private theorem exists_perm_filterMap {α β : Type} [DecidableEq α] (f : α → Option β) {l : List α} {l' : List β}
    (h : l'.Perm (l.filterMap f)) : ∃ m : List α, m.Perm l ∧ m.filterMap f = l' := by
  induction l' generalizing l with
  | nil => exact ⟨l,.refl l,List.nil_perm.mp h⟩
  | cons b l' ih =>
    obtain ⟨a,ha,hb⟩ := List.mem_filterMap.mp (h.mem_iff.mp List.mem_cons_self)
    have hl := List.perm_cons_erase ha
    have hcons := h.trans (hl.filterMap f)
    rw [List.filterMap_cons_some hb,List.perm_cons] at hcons
    obtain ⟨m,hm,hf⟩ := ih hcons
    exact ⟨a :: m,(hm.cons a).trans hl.symm,by rw [List.filterMap_cons_some hb,hf]⟩

/-- In every order of the map and for every outcome of `Ignite`, `ScaleDown` returns the time until the next idle
server has to go, exactly if the idle servers that may stay have all been idle for the same time. -/
theorem scaleDown_in_time {now : Int} (ht : 0 < config.idleTimeout) (hfree : st.scan = none) (hnow : now ≤ st.clock)
    (hnodup : st.serversByID.Nodup) :
    (∀ order frees, order.Perm st.serversByID → ∃ st', scaleDown config P st now order frees =
      some (soonest config.idleTimeout (st.serversByID.filterMap (idleFor config st now)),st')) ↔
    Together config.idleTimeout (st.serversByID.filterMap (idleFor config st now)) := by
  constructor
  · intro h
    refine Ordered.together ht ?_ ?_
    · intro a ha
      obtain ⟨server,-,hs⟩ := List.mem_filterMap.mp ha
      obtain ⟨hc,he⟩ := Option.ite_none_right_eq_some.mp hs
      cases he
      exact Int.not_lt.mp hc.2
    · intro l' hl
      obtain ⟨order,hperm,rfl⟩ := exists_perm_filterMap _ hl
      obtain ⟨st₁,h₁⟩ := h order (fun _ => false) hperm
      obtain ⟨st₂,h₂⟩ := scaleDown_spec config P (fun _ => false) hfree hnow hnodup hperm
      rw [h₁] at h₂
      exact (congrArg Prod.fst (Option.some.inj h₂)).symm
  · intro h order frees hperm
    obtain ⟨st',hst⟩ := scaleDown_spec config P frees hfree hnow hnodup hperm
    have hidle := hperm.filterMap (idleFor config st now)
    have htogether : Together config.idleTimeout (order.filterMap (idleFor config st now)) := by
      intro a ha
      obtain ⟨h0,hlt,hall⟩ := h a (hidle.mem_iff.mp ha)
      exact ⟨h0,hlt,fun b hb => hall b (hidle.mem_iff.mp hb)⟩
    rw [htogether.shorten_eq,soonest_perm hidle] at hst
    exact ⟨st',hst⟩

end Scan

/-- A pool with the `lifo` pooler after some steps, with a timeout of ten. -/
def after (events : List Event) : Option (Pool Lifo) :=
  run (fun _ _ => True) (step ⟨10,false⟩ lifo) { pooler := {} } events

/-- Two servers that have been idle for the same time. -/
theorem scaleDown_in_time_twins : ∃ st, after [.addServer 7, .addServer 8, .tick 6] = some st ∧
    (∀ order frees, order.Perm st.serversByID → ∃ st', scaleDown ⟨10,false⟩ lifo st 7 order frees =
      some (soonest 10 (st.serversByID.filterMap (idleFor ⟨10,false⟩ st 7)),st')) := by
  refine ⟨_,rfl,(scaleDown_in_time ⟨10,false⟩ lifo (by decide) rfl (by decide) (by decide)).mpr ?_⟩
  show Together 10 [6,6]
  simp [Together]

/-- Server 7 has been idle for six and server 8 for one. In this order the result is nine, although server 7 has to go
after four. -/
theorem scaleDown_too_late : ∃ st, after [.addServer 7, .tick 5, .addServer 8, .tick 1] = some st ∧
    [7,8].Perm st.serversByID ∧ (scaleDown ⟨10,false⟩ lifo st 7 [7,8] fun _ => false).map Prod.fst = some 9 ∧
    soonest 10 (st.serversByID.filterMap (idleFor ⟨10,false⟩ st 7)) = 4 :=
  ⟨_,rfl,by decide,rfl,rfl⟩

end Pggat.Spool.Pool
