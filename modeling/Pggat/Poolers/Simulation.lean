import Pggat.Poolers.Calls
import Pggat.Poolers.Channels

/-! The `lifo` pooler with its channels does what the desk does, in every interleaving. -/
namespace Pggat.Poolers
open Spool Base
namespace System
variable {s s' : System} {d : Desk} {call : Uuid} {c : Nat} {server : Uuid}

namespace Sim

theorem waits (h : s.Sim d) (hc : call ∈ d.lifo.waiters) :
    ∃ c ∈ s.pooler.waiters.items, (s.phase call).waitsOn = some c := by
  have mem : (s.phase call).waitsOn ∈ s.pooler.waiters.items.map some := h.line ▸ List.mem_map.mpr ⟨call,hc,rfl⟩
  obtain ⟨c,hc,e⟩ := List.mem_map.mp mem
  exact ⟨c,hc,e.symm⟩

theorem mem_items (h : s.Sim d) (leased : s.Leased) (hc : (s.phase call).waitsOn = some c) :
    c ∈ s.pooler.waiters.items ↔ call ∈ d.lifo.waiters := by
  constructor
  · intro mem
    have line : some c ∈ d.lifo.waiters.map (fun call => (s.phase call).waitsOn) :=
      h.line ▸ List.mem_map.mpr ⟨c,mem,rfl⟩
    obtain ⟨call',hcall,e⟩ := List.mem_map.mp line
    rwa [leased.waits_once hc e]
  · intro mem
    obtain ⟨c',hc',e⟩ := h.waits mem
    rwa [Option.some.inj (hc.symm.trans e)]

theorem waiters_nil (h : s.Sim d) : d.lifo.waiters = [] ↔ s.pooler.waiters.items = [] := by
  have length := congrArg List.length h.line
  rw [List.length_map,List.length_map] at length
  rw [← List.length_eq_zero_iff,length,List.length_eq_zero_iff]

private theorem callsOn_eq (h : s.Sim d) (leased : s.Leased) (began : d.began.Nodup)
    (hc : (s.phase call).waitsOn = some c) :
    s.callsOn c = [call] := by
  have nodup : s.began.Nodup := h.began ▸ began
  have only : s.callsOn c = s.began.filter (· = call) := by
    refine List.filter_congr fun call' _ => ?_
    rw [decide_eq_decide]
    exact ⟨fun hc' => leased.waits_once hc' hc,fun e => e ▸ hc⟩
  rw [only,List.filter_eq,List.count_eq_one_of_mem nodup (h.waited call c hc),List.replicate_one]

theorem hand (h : s.Sim d) (lined : d.Lined) (leased : s.Leased) (server : Uuid) :
    ∃ s', s.hand server = some s' ∧ s'.Sim (d.hand server) ∧ s'.Leased := by
  by_cases known : server ∈ s.pooler.servers
  · have known' : server ∈ d.lifo.servers := h.servers ▸ known
    cases items : s.pooler.waiters.items with
    | nil =>
      obtain ⟨w,released,wf,empty⟩ := Pooler.release_queue h.ring known items
      refine ⟨_, by rw [System.hand,released]; rfl, ?_, ?_⟩
      · rw [Desk.hand_queue known' (h.waiters_nil.mpr items)]
        refine { h with ring := wf, queue := ?_, line := ?_, served := ?_ }
        · exact congrArg (· ++ [server]) h.queue
        · rw [empty,← items]
          exact h.line
        · simp [known,first,items,h.served]
      · exact leased.keep rfl rfl (fun _ _ hc => hc) (fun _ => .inl rfl) (fun _ _ _ ht => .inl ht) leased.shut
    | cons c rest =>
      obtain ⟨call,calls,line⟩ : ∃ call calls, d.lifo.waiters = call :: calls :=
        List.exists_cons_of_ne_nil fun e => by simp [h.waiters_nil.mp e] at items
      have ordered := h.line
      rw [items,line] at ordered
      obtain ⟨waits,ordered⟩ := List.cons.inj ordered
      have empty : s.pooler.chans c = {} := by
        rw [← h.ready call c waits]
        exact ((lined.waits call).mp (line ▸ List.mem_cons_self)).2
      obtain ⟨w,released,wf,items'⟩ := Pooler.release_first h.ring known items empty
      refine ⟨_, by rw [System.hand,released]; rfl, ?_, ?_⟩
      · rw [Desk.hand_first known' line]
        refine { h with ring := wf, ready := fun call' c' waits' => ?_, line := ?_, served := ?_ }
        · rcases eq_or_ne c' c with rfl | ne
          · simp [leased.waits_once waits' waits]
          · have ne' : call' ≠ call := by
              rintro rfl
              exact ne (Option.some.inj (waits'.symm.trans waits))
            simpa [ne,ne'] using h.ready call' c' waits'
        · rw [items']
          exact ordered
        · simp [known,first,items,h.served,h.callsOn_eq leased lined.began waits]
      · refine leased.keep rfl rfl (fun _ _ hc => hc) (fun c' => ?_) (fun _ _ _ ht => .inl ht) fun c' => ?_
        · rcases eq_or_ne c' c with rfl | ne
          · exact .inr ⟨call,waits⟩
          · exact .inl (Function.update_of_ne ne ..)
        · rcases eq_or_ne c' c with rfl | ne
          · simp
          · simpa [ne] using leased.shut c'
  · refine ⟨s, ?_, ?_, leased⟩
    · simp [System.hand,Pooler.release_unknown known,known]
    · rw [Desk.hand_unknown (h.servers ▸ known)]
      exact h

theorem line_update (h : s.Sim d) (absent : call ∉ d.lifo.waiters) (p : Phase) :
    d.lifo.waiters.map (fun call' => (Function.update s.phase call p call').waitsOn) =
      s.pooler.waiters.items.map some := by
  rw [← h.line]
  refine List.map_congr_left fun call' hc => ?_
  rw [Function.update_of_ne]
  rintro rfl
  exact absent hc

theorem line_erase (h : s.Sim d) (lined : d.Lined) (leased : s.Leased) (hc : (s.phase call).waitsOn = some c) :
    (d.lifo.waiters.erase call).map (fun call' => (Function.update s.phase call .done call').waitsOn) =
      (s.pooler.waiters.items.filter (· ≠ c)).map some := by
  have others : (s.pooler.waiters.items.filter (· ≠ c)).map some =
      (s.pooler.waiters.items.map some).filter (· ≠ some c) := by
    rw [List.filter_map]
    refine congrArg (List.map some) (List.filter_congr fun c' _ => ?_)
    simp
  have same : d.lifo.waiters.filter ((fun c' => decide (c' ≠ some c)) ∘ fun call' => (s.phase call').waitsOn) =
      d.lifo.waiters.filter (· != call) := by
    refine List.filter_congr fun call' _ => ?_
    rcases eq_or_ne call' call with rfl | ne
    · simp [hc]
    · have ne' : (s.phase call').waitsOn ≠ some c := fun hc' => ne (leased.waits_once hc' hc)
      simp [ne',bne_iff_ne.mpr ne]
  rw [others,← h.line,List.filter_map,same,lined.nodup.erase_eq_filter]
  refine List.map_congr_left fun call' hcall => ?_
  have ne : call' ≠ call := by simpa using (List.mem_filter.mp hcall).2
  rw [Function.update_of_ne ne]

variable {p : Phase}

theorem waits_update (none : p.waitsOn = none) {call' : Uuid}
    (hc : (Function.update s.phase call p call').waitsOn = some c) : call' ≠ call ∧ (s.phase call').waitsOn = some c := by
  rcases eq_or_ne call' call with rfl | ne
  · simp [none] at hc
  · exact ⟨ne,by simpa [ne] using hc⟩

theorem stage_update (h : s.Sim d) {stage : Stage} (hp : p.stage = stage) (call' : Uuid) :
    Function.update d.stage call stage call' = (Function.update s.phase call p call').stage := by
  rcases eq_or_ne call' call with rfl | ne
  · simp [hp]
  · simpa [ne] using h.stage call'

theorem enter (h : s.Sim d) (absent : call ∉ d.lifo.waiters) (none : p.waitsOn = none) :
    (s.enter call p).Sim (d.enter call p.stage) where
  ring := h.ring
  servers := h.servers
  queue := h.queue
  closed := h.closed
  stage := h.stage_update rfl
  ready call' c hc := h.ready call' c (waits_update none hc).2
  line := h.line_update absent p
  added := h.added
  began := h.began
  served := h.served
  left := h.left
  waited call' c hc := h.waited call' c (waits_update none hc).2

private theorem idle_absent (h : s.Sim d) (lined : d.Lined) (idle : s.phase call = .idle) : call ∉ d.lifo.waiters := by
  intro hc
  have pending := ((lined.waits call).mp hc).1
  rw [h.stage,idle] at pending
  cases pending

theorem acquire (h : s.Sim d) (lined : d.Lined) (leased : s.Leased) (idle : s.phase call = .idle) (timed : Bool) :
    ∃ s', s.acquire call timed = some s' ∧ s'.Sim (d.acquire call) ∧ s'.Leased := by
  have absent := h.idle_absent lined idle
  obtain ⟨closed,e⟩ | ⟨closed,front,server,hq,e⟩ | ⟨closed,hq,e⟩ := d.acquire_cases call <;> rw [e]
  · refine ⟨s.enter call .done, ?_, h.enter absent rfl, leased.enter rfl rfl rfl rfl rfl⟩
    rw [System.acquire,Pooler.acquire_refused (h.closed ▸ closed)]
    rfl
  · have entered := h.enter absent (p := .holding server) rfl
    refine ⟨{ s.enter call (.holding server) with pooler := { s.pooler with queue := front } }, ?_,
      { entered with queue := rfl }, leased.enter rfl rfl rfl rfl rfl⟩
    rw [System.acquire,Pooler.acquire_server (h.closed ▸ closed) (h.queue ▸ hq)]
    rfl
  · obtain ⟨w,acquired,wf,items⟩ := Pooler.acquire_wait h.ring (h.closed ▸ closed) (h.queue ▸ hq)
    obtain ⟨empty,apart,others⟩ := leased.get
    have same : s.pooler.get.2.servers = s.pooler.servers ∧ s.pooler.get.2.queue = s.pooler.queue ∧
        s.pooler.get.2.closed = s.pooler.closed := by
      obtain ⟨_,_,-,e⟩ | ⟨-,e⟩ := s.pooler.get_cases <;> rw [e] <;> exact ⟨rfl,rfl,rfl⟩
    have waits {call' : Uuid} {c : Nat}
        (hc : (Function.update s.phase call (.waiting s.pooler.get.1 timed) call').waitsOn = some c) :
        call' = call ∧ c = s.pooler.get.1 ∨ call' ≠ call ∧ c ≠ s.pooler.get.1 ∧ (s.phase call').waitsOn = some c := by
      rcases eq_or_ne call' call with rfl | ne
      · exact .inl ⟨rfl,by simpa [Phase.waitsOn,eq_comm] using hc⟩
      · have hc : (s.phase call').waitsOn = some c := by simpa [ne] using hc
        exact .inr ⟨ne,fun e => apart call' (e ▸ Phase.chan_of_waitsOn hc),hc⟩
    refine ⟨{ s with
      pooler := { s.pooler.get.2 with waiters := w }
      phase := Function.update s.phase call (.waiting s.pooler.get.1 timed)
      began := s.began ++ [call] }, by rw [System.acquire,acquired]; rfl, ?_, leased.borrow rfl rfl rfl rfl rfl⟩
    refine ⟨wf, h.servers.trans same.1.symm, h.queue.trans same.2.1.symm, h.closed.trans same.2.2.symm,
      h.stage_update rfl, fun call' c hc => ?_, ?_, h.added, congrArg (· ++ [call]) h.began, h.served, h.left,
      fun call' c hc => ?_⟩
    · obtain ⟨rfl,rfl⟩ | ⟨ne,ne',hc⟩ := waits hc
      · simp [empty]
      · simpa [ne,others c ne'] using h.ready call' c hc
    · rw [List.map_append,h.line_update absent,items,List.map_append]
      simp [Phase.waitsOn]
    · obtain ⟨rfl,-⟩ | ⟨-,-,hc⟩ := waits hc
      · simp
      · exact List.mem_append_left _ (h.waited call' c hc)

theorem got {T : Pooler} (h : s.Sim d) (lined : d.Lined) (leased : s.Leased) (hc : (s.phase call).waitsOn = some c)
    (ready : s.pooler.chans c = { buffered := some server }) (stage : p.stage = .holding server)
    (none : p.waitsOn = none) (ring : T.waiters.Wf) (items : T.waiters.items = s.pooler.waiters.items)
    (servers : T.servers = s.pooler.servers) (queue : T.queue = s.pooler.queue) (closed : T.closed = s.pooler.closed)
    (chans : ∀ c', c' ≠ c → T.chans c' = s.pooler.chans c') :
    Sim { s with pooler := T, phase := Function.update s.phase call p } { d with
      lifo := { d.lifo with ready := Function.update d.lifo.ready call {} }
      stage := Function.update d.stage call (.holding server) } := by
  have absent : call ∉ d.lifo.waiters := by
    intro hw
    have empty := ((lined.waits call).mp hw).2
    rw [h.ready call c hc,ready] at empty
    cases empty
  refine { h.enter absent none with
    ring := ring, servers := h.servers.trans servers.symm, queue := h.queue.trans queue.symm,
    closed := h.closed.trans closed.symm, stage := h.stage_update stage, ready := fun call' c' hc' => ?_, line := ?_ }
  · obtain ⟨ne,hc'⟩ := waits_update none hc'
    have ne' : c' ≠ c := by
      rintro rfl
      exact ne (leased.waits_once hc' hc)
    simpa [ne,chans c' ne'] using h.ready call' c' hc'
  · rw [items]
    exact h.line_update absent p

/-- A channel that is waited on is in the ring and empty, or it has a server, or it was closed. -/
theorem channel_cases (h : s.Sim d) (lined : d.Lined) (leased : s.Leased) (hc : (s.phase call).waitsOn = some c) :
    (c ∈ s.pooler.waiters.items ∧ s.pooler.chans c = {}) ∨
    c ∉ s.pooler.waiters.items ∧
      ((∃ server, s.pooler.chans c = { buffered := some server }) ∨ s.pooler.chans c = { closed := true }) := by
  by_cases mem : c ∈ s.pooler.waiters.items
  · refine .inl ⟨mem,?_⟩
    rw [← h.ready call c hc]
    exact ((lined.waits call).mp ((h.mem_items leased hc).mp mem)).2
  · refine .inr ⟨mem,?_⟩
    have shut := leased.shut c
    cases ready : s.pooler.chans c with
    | mk buffered closed =>
      rw [ready] at shut
      cases buffered with
      | some server =>
        cases closed with
        | true => cases shut rfl
        | false => exact .inl ⟨server,rfl⟩
      | none =>
        cases closed with
        | true => exact .inr rfl
        | false =>
          have waits := (lined.waits call).mpr ⟨(h.stage call).trans (Phase.pending_of_waitsOn hc),(h.ready call c hc).trans ready⟩
          exact absurd ((h.mem_items leased hc).mpr waits) mem

variable {timed : Bool}

theorem receive (h : s.Sim d) (lined : d.Lined) (leased : s.Leased)
    (hp : s.phase call = .waiting c timed) (hr : s.receive call c = some s') :
    ∃ d', d.receive call = some d' ∧ s'.Sim d' ∧ s'.Leased := by
  have hc : (s.phase call).waitsOn = some c := by rw [hp]; rfl
  have ready := h.ready call c hc
  obtain ⟨-,empty⟩ | ⟨mem,⟨server,buffered⟩ | shut⟩ := h.channel_cases lined leased hc
  · simp [System.receive,Pooler.receive,empty] at hr
  · rw [System.receive,Pooler.receive_buffered buffered] at hr
    obtain rfl := Option.some.inj hr
    refine ⟨_, ?_, h.got lined leased hc buffered (p := .taken c server) rfl rfl h.ring rfl rfl rfl rfl ?_, ?_⟩
    · simp [Desk.receive,Lifo.receive,ready,buffered,Desk.returned]
    · exact fun c' ne => Function.update_of_ne ne ..
    · refine leased.keep rfl rfl (fun call' c' hc' => ?_) (fun c' => ?_) (fun call' c' server' ht => ?_) fun c' => ?_
      · rcases eq_or_ne call' call with rfl | ne
        · rw [Phase.chan_of_waitsOn hc]
          simpa [Phase.chan] using hc'
        · simpa [ne] using hc'
      · rcases eq_or_ne c' c with rfl | ne
        · exact .inr ⟨call,hc⟩
        · exact .inl (Function.update_of_ne ne ..)
      · rcases eq_or_ne call' call with rfl | ne
        · obtain ⟨rfl,-⟩ : c = c' ∧ server = server' := by simpa using ht
          exact .inr (Function.update_self ..)
        · exact .inl (by simpa [ne] using ht)
      · rcases eq_or_ne c' c with rfl | ne
        · simp
        · simpa [ne] using leased.shut c'
  · rw [System.receive,Pooler.receive_closed shut] at hr
    obtain rfl := Option.some.inj hr
    have absent : call ∉ d.lifo.waiters := fun hw => mem ((h.mem_items leased hc).mpr hw)
    refine ⟨d.enter call .done, ?_, h.enter absent rfl, leased.enter rfl rfl rfl rfl rfl⟩
    simp [Desk.receive,Lifo.receive,ready,shut,Desk.returned,Desk.enter]

/-- A call whose timer has fired finds its channel in the ring, or something in its channel. -/
theorem timeout (h : s.Sim d) (lined : d.Lined) (leased : s.Leased) (hp : s.phase call = .fired c) :
    ∃ s' d', s.timeout call c = some s' ∧ d.timeout call = some d' ∧ s'.Sim d' ∧ s'.Leased := by
  have hc : (s.phase call).waitsOn = some c := by rw [hp]; rfl
  have ready := h.ready call c hc
  have chan := Phase.chan_of_waitsOn hc
  obtain ⟨mem,empty⟩ | ⟨mem,full⟩ := h.channel_cases lined leased hc
  · have waits := (h.mem_items leased hc).mp mem
    obtain ⟨w,found,wf,items⟩ := Pooler.timeout_found h.ring mem
    have left : d.timeout call = some { d with
        lifo := { d.lifo with waiters := d.lifo.waiters.erase call }
        stage := Function.update d.stage call .done
        left := d.left ++ [call] } := by
      simp [Desk.timeout,Lifo.timeout,waits,Desk.returned]
    rw [System.timeout,found]
    refine ⟨_, _, rfl, left, ?_, ?_⟩
    · refine ⟨wf, h.servers, h.queue, h.closed, h.stage_update rfl, fun call' c' hc' => ?_, ?_, h.added, h.began,
        h.served, by simp [mem,h.left], fun call' c' hc' => ?_⟩
      · exact h.ready call' c' (waits_update rfl hc').2
      · exact (h.line_erase lined leased hc).trans (congrArg (List.map some) items.symm)
      · exact h.waited call' c' (waits_update rfl hc').2
    · exact leased.putBack chan (p := .done) rfl rfl rfl rfl (fun _ _ => rfl) empty
  · have absent : call ∉ d.lifo.waiters := fun hw => mem ((h.mem_items leased hc).mpr hw)
    obtain ⟨w,lost,wf,items⟩ := Pooler.timeout_lost h.ring mem
    obtain ⟨server,buffered⟩ | shut := full
    · have received : d.timeout call = some { d with
          lifo := { d.lifo with ready := Function.update d.lifo.ready call {} }
          stage := Function.update d.stage call (.holding server) } := by
        simp [Desk.timeout,Lifo.timeout,absent,Lifo.receive,ready,buffered,Desk.returned]
      rw [System.timeout,lost,Pooler.receive_buffered (by exact buffered)]
      refine ⟨_, _, rfl, received, ?_, ?_⟩
      · have got := h.got lined leased hc buffered (p := .holding server) (T := Pooler.put { s.pooler with
          waiters := w, chans := Function.update s.pooler.chans c {} } c) rfl rfl wf items rfl rfl rfl
          fun c' ne => Function.update_of_ne ne ..
        exact { got with left := by simp [mem,h.left] }
      · exact leased.putBack chan (p := .holding server) rfl rfl rfl rfl (fun c' ne => Function.update_of_ne ne ..)
          (Function.update_self ..)
    · have refused : d.timeout call = some (d.enter call .done) := by
        simp [Desk.timeout,Lifo.timeout,absent,Lifo.receive,ready,shut,Desk.returned,Desk.enter]
      rw [System.timeout,lost,Pooler.receive_closed (by exact shut)]
      refine ⟨_, _, rfl, refused, ?_, ?_⟩
      · refine { h.enter absent (p := .done) rfl with ring := wf, line := ?_, left := by simp [mem,h.left,Desk.enter] }
        exact (h.line_update absent .done).trans (congrArg (List.map some) items.symm)
      · exact leased.enter (p := .done) rfl rfl rfl rfl rfl

private theorem items_nodup (h : s.Sim d) (lined : d.Lined) (leased : s.Leased) : s.pooler.waiters.items.Nodup := by
  refine List.Nodup.of_map some (h.line ▸ lined.nodup.map_on fun call hcall call' hcall' e => ?_)
  obtain ⟨c,-,hc⟩ := h.waits hcall
  exact leased.waits_once hc (e ▸ hc)

theorem waited_on (h : s.Sim d) (hc : c ∈ s.pooler.waiters.items) :
    ∃ call ∈ d.lifo.waiters, (s.phase call).waitsOn = some c := by
  have mem : some c ∈ d.lifo.waiters.map (fun call => (s.phase call).waitsOn) := h.line ▸ List.mem_map.mpr ⟨c,hc,rfl⟩
  exact List.mem_map.mp mem

private theorem items_empty (h : s.Sim d) (lined : d.Lined) (hc : c ∈ s.pooler.waiters.items) :
    s.pooler.chans c = {} := by
  obtain ⟨call,hcall,waits⟩ := h.waited_on hc
  rw [← h.ready call c waits]
  exact ((lined.waits call).mp hcall).2

theorem close (h : s.Sim d) (lined : d.Lined) (leased : s.Leased) :
    ∃ T, s.pooler.close = some T ∧ Sim { s with pooler := T } d.close ∧ Leased { s with pooler := T } := by
  obtain ⟨w,closed,wf,empty⟩ := Pooler.closeWaiters_all s.pooler.waiters.items.length
    { s.pooler with closed := true, servers := [], queue := [] } h.ring rfl (h.items_nodup lined leased)
    fun c hc => by simp [h.items_empty lined hc]
  rw [h.ring.length_items] at closed
  refine ⟨_, closed, ?_, ?_⟩
  · refine { h with ring := wf, servers := rfl, queue := rfl, closed := rfl, ready := fun call c hc => ?_, line := ?_ }
    · by_cases mem : c ∈ s.pooler.waiters.items
      · simp [Desk.close,Lifo.close,(h.mem_items leased hc).mp mem,mem,h.items_empty lined mem]
      · have absent : call ∉ d.lifo.waiters := fun hw => mem ((h.mem_items leased hc).mpr hw)
        simpa [Desk.close,Lifo.close,absent,mem] using h.ready call c hc
    · simp [Desk.close,Lifo.close,empty]
  · refine leased.keep rfl rfl (fun _ _ hc => hc) (fun c => ?_) (fun _ _ _ ht => .inl ht) fun c => ?_
    · by_cases mem : c ∈ s.pooler.waiters.items
      · obtain ⟨call,-,waits⟩ := h.waited_on mem
        exact .inr ⟨call,waits⟩
      · exact .inl (if_neg mem)
    · by_cases mem : c ∈ s.pooler.waiters.items
      · simp [mem,h.items_empty lined mem]
      · simpa [mem] using leased.shut c

theorem fire (h : s.Sim d) (hp : s.phase call = .waiting c timed) : (s.enter call (.fired c)).Sim d := by
  have same (call' : Uuid) : (Function.update s.phase call (.fired c) call').waitsOn = (s.phase call').waitsOn ∧
      (Function.update s.phase call (.fired c) call').stage = (s.phase call').stage := by
    rcases eq_or_ne call' call with rfl | ne
    · simp [hp,Phase.waitsOn,Phase.stage]
    · simp [ne]
  refine { h with stage := fun call' => ?_, ready := fun call' c' hc => ?_, line := ?_, waited := fun call' c' hc => ?_ }
  · exact (h.stage call').trans (same call').2.symm
  · exact h.ready call' c' ((same call').1 ▸ hc)
  · simpa only [System.enter,(same _).1] using h.line
  · exact h.waited call' c' ((same call').1 ▸ hc)

theorem recycle (h : s.Sim d) (lined : d.Lined) (hp : s.phase call = .taken c server) :
    Sim { s with pooler := s.pooler.put c, phase := Function.update s.phase call (.holding server) } d := by
  have holding : d.stage call = .holding server := by rw [h.stage,hp]; rfl
  have absent : call ∉ d.lifo.waiters := by
    intro hc
    have pending := ((lined.waits call).mp hc).1
    rw [holding] at pending
    cases pending
  have entered := h.enter absent (p := .holding server) rfl
  have same : d.enter call (Phase.holding server).stage = d := by
    simp only [Desk.enter,Phase.stage,← holding,Function.update_eq_self]
  rw [same] at entered
  exact { entered with }

theorem item_eq (h : s.Sim d) (call : Uuid) : d.item call = s.item call := by
  have stage := h.stage call
  have ready := h.ready call
  cases hp : s.phase call <;> simp_all [item,Desk.item,Phase.stage,Phase.waitsOn]

theorem addServer (h : s.Sim d) (lined : d.Lined) (leased : s.Leased) (server : Uuid) :
    ∃ s', s.addServer server = some s' ∧ s'.Sim (d.addServer server) ∧ s'.Leased := by
  let registered : System :=
    { s with
      pooler := { s.pooler with servers := server :: s.pooler.servers.erase server }
      added := server :: s.added }
  have same : s.addServer server = registered.hand server := by
    rw [System.hand,if_pos List.mem_cons_self]
    rfl
  have sim : registered.Sim (d.register server) :=
    { h with
      servers := by simp [Desk.register,registered,h.servers]
      added := congrArg (server :: ·) h.added }
  exact same ▸ sim.hand (lined.register server) ⟨leased.lent,leased.pool,leased.pooled,leased.taken,leased.shut⟩ server

theorem holding (h : s.Sim d) (hp : s.phase call = .holding server) : d.stage call = .holding server := by
  rw [h.stage,hp]
  rfl

theorem giveBack (h : s.Sim d) (lined : d.Lined) (leased : s.Leased) (hp : s.phase call = .holding server) :
    ∃ s', (s.enter call .done).hand server = some s' ∧ s'.Sim (d.release call server) ∧ s'.Leased := by
  have notPending : d.stage call ≠ .pending := by simp [h.holding hp]
  have absent : call ∉ d.lifo.waiters := fun hc => notPending ((lined.waits call).mp hc).1
  exact hand (h.enter absent rfl) (lined.enter (.inl notPending) (by simp [Phase.stage]) (by simp [Phase.stage]))
    (leased.enter rfl rfl rfl rfl rfl) server

end Sim
end System
end Pggat.Poolers
