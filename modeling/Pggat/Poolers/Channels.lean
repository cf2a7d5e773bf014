import Pggat.Poolers.Desk
import Pggat.Poolers.Lifo

/-! Calls of the `lifo` pooler and their channels, section by section. Between two critical sections anything else can
happen: a timer can fire while a server is handed over, and a channel goes back to be used again. -/
namespace Pggat.Poolers
open Spool Base

/-- How far a call of `Acquire` is, with the channel that it uses. `fired` is a call that takes the timer's branch and
has not got the mutex yet, `taken` one that has received and has not put its channel back. -/
inductive Phase where
  | idle
  | waiting (c : Nat) (timed : Bool)
  | fired (c : Nat)
  | taken (c : Nat) (server : Uuid)
  | holding (server : Uuid)
  | done
  deriving DecidableEq, Repr

namespace Phase

def stage : Phase → Stage
  | idle => .idle
  | waiting _ _ => .pending
  | fired _ => .pending
  | taken _ server => .holding server
  | holding server => .holding server
  | done => .done

/-- The channel that the call can be sent a server over. -/
def waitsOn : Phase → Option Nat
  | waiting c _ => some c
  | fired c => some c
  | _ => none

/-- The channel that nobody else may use. -/
def chan : Phase → Option Nat
  | waiting c _ => some c
  | fired c => some c
  | taken c _ => some c
  | _ => none

variable {p : Phase} {c : Nat}

theorem chan_of_waitsOn (h : p.waitsOn = some c) : p.chan = some c := by
  cases p <;> simp_all [waitsOn,chan]

theorem pending_of_waitsOn (h : p.waitsOn = some c) : p.stage = .pending := by
  cases p <;> simp_all [waitsOn,stage]

end Phase

/-- A pooler, the calls that were made to it, and the record of the servers added and of the calls that began to wait,
that were sent a server, and that left the ring. -/
structure System where
  pooler : Pooler := {}
  phase : Uuid → Phase := fun _ => .idle
  added : List Uuid := []
  began : List Uuid := []
  served : List Uuid := []
  left : List Uuid := []

inductive Event where
  | addServer (server : Uuid)
  | deleteServer (server : Uuid)
  | acquire (call : Uuid) (timed : Bool)
  | receive (call : Uuid)
  | recycle (call : Uuid)
  | fire (call : Uuid)
  | timeout (call : Uuid)
  | release (call : Uuid)
  | close

namespace System
variable (s : System)

def callsOn (c : Nat) : List Uuid := s.began.filter fun call => (s.phase call).waitsOn = some c

/-- The calls that wait on the channel at the front of the ring. -/
def first : List Uuid := (s.pooler.waiters.items.head?.map s.callsOn).getD []

def enter (call : Uuid) (phase : Phase) : System := { s with phase := Function.update s.phase call phase }

def hand (server : Uuid) : Option System :=
  (s.pooler.release server).map fun T =>
    { s with pooler := T, served := s.served ++ if server ∈ s.pooler.servers then s.first else [] }

def addServer (server : Uuid) : Option System :=
  (s.pooler.addServer server).map fun T =>
    { s with pooler := T, added := server :: s.added, served := s.served ++ s.first }

def acquire (call : Uuid) (timed : Bool) : Option System :=
  s.pooler.acquire.map fun (acquired,T) =>
    match acquired with
    | .refused => { s with pooler := T, phase := Function.update s.phase call .done }
    | .server server => { s with pooler := T, phase := Function.update s.phase call (.holding server) }
    | .wait c =>
      { s with pooler := T, phase := Function.update s.phase call (.waiting c timed), began := s.began ++ [call] }

def receive (call : Uuid) (c : Nat) : Option System :=
  (s.pooler.receive c).map fun (v,T) =>
    { s with pooler := T, phase := Function.update s.phase call (v.elim .done (.taken c)) }

def timeout (call : Uuid) (c : Nat) : Option System :=
  (s.pooler.timeout c).map fun (v,T) =>
    { s with
      pooler := T
      phase := Function.update s.phase call (v.elim .done .holding)
      left := s.left ++ if c ∈ s.pooler.waiters.items then [call] else [] }

def step : Event → Option System
  | .addServer server => s.addServer server
  | .deleteServer server => some { s with pooler := s.pooler.deleteServer server }
  | .acquire call timed => if s.phase call = .idle then s.acquire call timed else none
  | .receive call =>
    match s.phase call with
    | .waiting c _ => s.receive call c
    | _ => none
  | .recycle call =>
    match s.phase call with
    | .taken c server =>
      some { s with pooler := s.pooler.put c, phase := Function.update s.phase call (.holding server) }
    | _ => none
  | .fire call =>
    match s.phase call with
    | .waiting c true => some (s.enter call (.fired c))
    | _ => none
  | .timeout call =>
    match s.phase call with
    | .fired c => s.timeout call c
    | _ => none
  | .release call =>
    match s.phase call with
    | .holding server => (s.enter call .done).hand server
    | _ => none
  | .close => s.pooler.close.map fun T => { s with pooler := T }

/-- The server that a call holds or that is buffered in its channel. -/
def item (call : Uuid) : Option Uuid :=
  match s.phase call with
  | .waiting c _ => (s.pooler.chans c).buffered
  | .fired c => (s.pooler.chans c).buffered
  | .taken _ server => some server
  | .holding server => some server
  | _ => none

/-- Channels as resources that the pool lends to calls. -/
def channels : Custody Unit Uuid Nat where
  made := { p | p.2 < s.pooler.made }
  stock := { p | p.2 < s.pooler.made }
  free := { p | p.2 ∈ s.pooler.pool }
  holds call := (s.phase call).chan.map ((),·)
  noted _ := none

/-- Every channel is in the pool, or with one call, or no longer used; those that are not waited on are empty. -/
structure Leased : Prop where
  lent : s.channels.Lent
  pool : s.pooler.pool.Nodup
  pooled : ∀ c ∈ s.pooler.pool, s.pooler.chans c = {}
  taken : ∀ call c server, s.phase call = .taken c server → s.pooler.chans c = {}
  shut : ∀ c, (s.pooler.chans c).closed = true → (s.pooler.chans c).buffered = none

/-- The system is at this desk. -/
structure Sim (d : Desk) : Prop where
  ring : s.pooler.waiters.Wf
  servers : d.lifo.servers = s.pooler.servers
  queue : d.lifo.queue = s.pooler.queue
  closed : d.lifo.closed = s.pooler.closed
  stage : ∀ call, d.stage call = (s.phase call).stage
  ready : ∀ call c, (s.phase call).waitsOn = some c → d.lifo.ready call = s.pooler.chans c
  line : d.lifo.waiters.map (fun call => (s.phase call).waitsOn) = s.pooler.waiters.items.map some
  added : d.added = s.added
  began : d.began = s.began
  served : d.served = s.served
  left : d.left = s.left
  waited : ∀ call c, (s.phase call).waitsOn = some c → call ∈ s.began

section Leases
variable {s} {s' : System} {call call' : Uuid} {c : Nat}

theorem Leased.once (h : s.Leased) (hc : (s.phase call).chan = some c) (hc' : (s.phase call').chan = some c) :
    call = call' :=
  h.lent.holds_once call call' ((),c) (by simp [channels,hc]) (by simp [channels,hc'])

theorem Leased.not_pooled (h : s.Leased) (hc : (s.phase call).chan = some c) : c ∉ s.pooler.pool :=
  h.lent.holds_busy call ((),c) (by simp [channels,hc])

theorem Leased.waits_once (h : s.Leased) (hc : (s.phase call).waitsOn = some c)
    (hc' : (s.phase call').waitsOn = some c) : call = call' :=
  h.once (Phase.chan_of_waitsOn hc) (Phase.chan_of_waitsOn hc')

theorem Leased.keep (h : s.Leased) (pool : s'.pooler.pool = s.pooler.pool) (made : s'.pooler.made = s.pooler.made)
    (chan : ∀ call c, (s'.phase call).chan = some c → (s.phase call).chan = some c)
    (chans : ∀ c, s'.pooler.chans c = s.pooler.chans c ∨ ∃ call, (s.phase call).waitsOn = some c)
    (taken : ∀ call c server, s'.phase call = .taken c server → s.phase call = .taken c server ∨ s'.pooler.chans c = {})
    (shut : ∀ c, (s'.pooler.chans c).closed = true → (s'.pooler.chans c).buffered = none) : s'.Leased where
  lent := by
    refine h.lent.fewer ?_ ?_ ?_ ?_
    · simp only [channels,made]
    · simp only [channels,made]
    · simp only [channels,pool]
    · rintro call ⟨_,c⟩ hc
      have hc : (s'.phase call).chan = some c := by simpa [channels] using hc
      simp [channels,chan call c hc]
  pool := pool ▸ h.pool
  pooled c hc := by
    rw [pool] at hc
    rcases chans c with same | ⟨call,waits⟩
    · rw [same,h.pooled c hc]
    · exact absurd hc (h.not_pooled (Phase.chan_of_waitsOn waits))
  taken call c server hc := by
    rcases taken call c server hc with old | empty
    · rcases chans c with same | ⟨call',waits⟩
      · rw [same,h.taken call c server old]
      · have e := h.once (Phase.chan_of_waitsOn waits) (by rw [old]; rfl)
        rw [e,old] at waits
        cases waits
    · exact empty
  shut := shut

variable {p : Phase}

theorem Leased.enter (h : s.Leased) (hp : p.chan = none) (pool : s'.pooler.pool = s.pooler.pool)
    (made : s'.pooler.made = s.pooler.made) (chans : s'.pooler.chans = s.pooler.chans)
    (phase : s'.phase = Function.update s.phase call p) : s'.Leased := by
  refine h.keep pool made (fun call' c hc => ?_) (fun c => .inl (by rw [chans])) (fun call' c server ht => .inl ?_)
    (chans ▸ h.shut)
  · rw [phase] at hc
    rcases eq_or_ne call' call with rfl | ne
    · simp [hp] at hc
    · simpa [ne] using hc
  · rw [phase] at ht
    rcases eq_or_ne call' call with rfl | ne
    · simp only [Function.update_self] at ht
      simp [ht,Phase.chan] at hp
    · simpa [ne] using ht

theorem Leased.fire (h : s.Leased) {timed : Bool} (hp : s.phase call = .waiting c timed) :
    (s.enter call (.fired c)).Leased := by
  refine h.keep rfl rfl (fun call' c' hc => ?_) (fun _ => .inl rfl) (fun call' c' server ht => .inl ?_) h.shut
  · rcases eq_or_ne call' call with rfl | ne
    · simpa [System.enter,hp,Phase.chan] using hc
    · simpa [System.enter,ne] using hc
  · rcases eq_or_ne call' call with rfl | ne
    · simp [System.enter] at ht
    · simpa [System.enter,ne] using ht

theorem Leased.putBack (h : s.Leased) (hc : (s.phase call).chan = some c) (hp : p.chan = none)
    (pool : s'.pooler.pool = s.pooler.pool ++ [c]) (made : s'.pooler.made = s.pooler.made)
    (phase : s'.phase = Function.update s.phase call p) (chans : ∀ c', c' ≠ c → s'.pooler.chans c' = s.pooler.chans c')
    (empty : s'.pooler.chans c = {}) : s'.Leased := by
  have held : s.channels.holds call = some ((),c) := by simp [channels,hc]
  have known : c < s.pooler.made := h.lent.holds_made call ((),c) held
  refine ⟨?_, ?_, fun c' hc' => ?_, fun call' c' server ht => ?_, fun c' shut => ?_⟩
  · have same : s'.channels = s.channels.giveBack call ((),c) := by
      refine Custody.ext ?_ ?_ ?_ ?_ rfl
      · simp only [channels,made,Custody.giveBack]
      · simp only [channels,made,Custody.giveBack]
      · ext ⟨_,c'⟩
        simp only [channels,pool,Custody.giveBack,Set.mem_union,Set.mem_inter_iff,Set.mem_ofPred_eq,
          List.mem_append,List.mem_singleton,Set.mem_singleton_iff,Prod.mk.injEq,true_and]
        exact or_congr_right ⟨fun e => ⟨e,e ▸ known⟩,fun e => e.1⟩
      · funext call'
        rcases eq_or_ne call' call with rfl | ne
        · simp [channels,phase,Custody.giveBack,hp]
        · simp [channels,phase,Custody.giveBack,ne]
    exact same ▸ h.lent.giveBack held
  · exact pool ▸ nodup_snoc h.pool (h.not_pooled hc)
  · rcases eq_or_ne c' c with rfl | ne
    · exact empty
    · rw [chans c' ne]
      exact h.pooled c' (by simpa [pool,ne] using hc')
  · rcases eq_or_ne c' c with rfl | ne
    · exact empty
    · rw [chans c' ne]
      rw [phase] at ht
      rcases eq_or_ne call' call with rfl | ne'
      · simp only [Function.update_self] at ht
        simp [ht,Phase.chan] at hp
      · exact h.taken call' c' server (by simpa [ne'] using ht)
  · rcases eq_or_ne c' c with rfl | ne
    · simp [empty] at shut
    · rw [chans c' ne] at shut ⊢
      exact h.shut c' shut

theorem Leased.get (h : s.Leased) : s.pooler.get.2.chans s.pooler.get.1 = {} ∧
    (∀ call, (s.phase call).chan ≠ some s.pooler.get.1) ∧
    ∀ c, c ≠ s.pooler.get.1 → s.pooler.get.2.chans c = s.pooler.chans c := by
  obtain ⟨front,c,pool,e⟩ | ⟨-,e⟩ := s.pooler.get_cases <;> rw [e]
  · have pooled : c ∈ s.pooler.pool := by simp [pool]
    exact ⟨h.pooled c pooled,fun call hc => h.not_pooled hc pooled,fun _ _ => rfl⟩
  · refine ⟨Function.update_self .., fun call hc => ?_, fun c ne => Function.update_of_ne ne ..⟩
    exact Nat.lt_irrefl _ (h.lent.holds_made call ((),s.pooler.made) (by simp [channels,hc]))

theorem Leased.borrow (h : s.Leased)
    (hp : p.waitsOn = some s.pooler.get.1) (pool : s'.pooler.pool = s.pooler.get.2.pool)
    (made : s'.pooler.made = s.pooler.get.2.made) (chans : s'.pooler.chans = s.pooler.get.2.chans)
    (phase : s'.phase = Function.update s.phase call p) : s'.Leased := by
  have notTaken {call' : Uuid} {c : Nat} {server : Uuid} (ht : s'.phase call' = .taken c server) :
      s.phase call' = .taken c server := by
    rw [phase] at ht
    rcases eq_or_ne call' call with rfl | ne
    · simp only [Function.update_self] at ht
      simp [ht,Phase.waitsOn] at hp
    · simpa [ne] using ht
  have holds : s'.channels.holds = Function.update s.channels.holds call (some ((),s.pooler.get.1)) := by
    funext call'
    rcases eq_or_ne call' call with rfl | ne
    · simp [channels,phase,Phase.chan_of_waitsOn hp]
    · simp [channels,phase,ne]
  obtain ⟨empty,-,others⟩ := h.get
  have shut (c : Nat) (hc : (s'.pooler.chans c).closed = true) : (s'.pooler.chans c).buffered = Option.none := by
    rw [chans] at hc ⊢
    rcases eq_or_ne c s.pooler.get.1 with rfl | ne
    · rw [empty]
    · rw [others c ne] at hc ⊢
      exact h.shut c hc
  obtain ⟨front,c,hpool,e⟩ | ⟨hpool,e⟩ := s.pooler.get_cases <;> rw [e] at pool made chans holds
  · have nodup := h.pool
    rw [hpool] at nodup
    have pooled : c ∈ s.pooler.pool := by simp [hpool]
    have apart : c ∉ front := fun hf => (List.nodup_append.mp nodup).2.2 c hf c List.mem_cons_self rfl
    have same : s'.channels = s.channels.take call ((),c) := by
      refine Custody.ext ?_ ?_ ?_ holds rfl
      · simp only [channels,made,Custody.take]
      · simp only [channels,made,Custody.take]
      · ext ⟨_,c'⟩
        simp only [channels,pool,Custody.take,hpool]
        constructor
        · exact fun hc => ⟨List.mem_append_left _ hc,by rintro ⟨⟩; exact apart hc⟩
        · rintro ⟨hc,ne⟩
          exact (List.mem_append.mp hc).resolve_right fun e => ne (Prod.ext rfl (List.mem_singleton.mp e))
    refine ⟨same ▸ h.lent.take pooled, pool ▸ (List.nodup_append.mp nodup).1, fun c' hc' => ?_, fun call' c' server ht => ?_, shut⟩
    · rw [pool] at hc'
      rw [chans]
      exact h.pooled c' (hpool ▸ List.mem_append_left _ hc')
    · rw [chans]
      exact h.taken call' c' server (notTaken ht)
  · have fresh : ∀ q ∈ s.channels.made, s.pooler.made ≠ q.2 := fun q hq e => Nat.ne_of_lt hq e.symm
    have same : s'.channels = (s.channels.add ((),s.pooler.made)).take call ((),s.pooler.made) := by
      refine Custody.ext ?_ ?_ ?_ holds rfl
      · ext ⟨⟨⟩,c⟩
        simp only [channels,made,Custody.take,Custody.add,Set.mem_insert_iff,Set.mem_ofPred_eq,Prod.mk.injEq,
          true_and]
        omega
      · ext ⟨⟨⟩,c⟩
        simp only [channels,made,Custody.take,Custody.add,Set.mem_insert_iff,Set.mem_ofPred_eq,Prod.mk.injEq,
          true_and]
        omega
      · ext ⟨_,c⟩
        simp [channels,pool,hpool,Custody.take,Custody.add]
    refine ⟨same ▸ (h.lent.add fresh).take (.inl rfl), by simp [pool,hpool], fun c' hc' => ?_, fun call' c' server ht => ?_, shut⟩
    · simp [pool,hpool] at hc'
    · have old := h.taken call' c' server (notTaken ht)
      rw [chans]
      rcases eq_or_ne c' s.pooler.made with rfl | ne
      · exact Function.update_self ..
      · exact (Function.update_of_ne ne ..).trans old

end Leases
end System
end Pggat.Poolers
