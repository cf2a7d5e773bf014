import Pggat.Poolers.Desk

/-! How a call at the desk begins, receives, leaves and is sent away; servers stay in one place and the line in order. -/
namespace Pggat.Poolers
open Spool Base
namespace Desk
variable {d : Desk} {call : Uuid} {server : Uuid}

variable {d' : Desk}

theorem Placed.of_item (h : d.Placed) (item : d'.item = d.item) (added : d'.added = d.added)
    (servers : d'.lifo.servers = d.lifo.servers) (queue : d'.lifo.queue = d.lifo.queue) : d'.Placed := by
  have same : d'.custody = d.custody := by simp only [custody,item,added,servers,queue]
  exact ⟨same ▸ h.lent,same ▸ h.covered,queue ▸ h.queue,servers ▸ h.servers⟩

variable (d) in
theorem item_eq (d' : Desk) (call : Uuid) (same : d'.item call = d.item call)
    (others : ∀ t, t ≠ call → d'.stage t = d.stage t ∧ d'.lifo.ready t = d.lifo.ready t) : d'.item = d.item := by
  funext t
  rcases eq_or_ne t call with rfl | ne
  · exact same
  · exact item_congr (others t ne).1 (others t ne).2

theorem acquire_cases (d : Desk) (call : Uuid) :
    (d.lifo.closed = true ∧ d.acquire call = d.enter call .done) ∨
    (d.lifo.closed = false ∧ ∃ front server, d.lifo.queue = front ++ [server] ∧
      d.acquire call = { d with
        lifo := { d.lifo with queue := front }
        stage := Function.update d.stage call (.holding server) }) ∨
    (d.lifo.closed = false ∧ d.lifo.queue = [] ∧ d.acquire call = { d with
      lifo := { d.lifo with waiters := d.lifo.waiters ++ [call], ready := Function.update d.lifo.ready call {} }
      stage := Function.update d.stage call .pending
      began := d.began ++ [call] }) := by
  cases closed : d.lifo.closed with
  | true => exact .inl ⟨rfl,by simp [acquire,Lifo.acquire,closed,enter]⟩
  | false =>
    rcases List.eq_nil_or_concat d.lifo.queue with hq | ⟨front,server,hq⟩
    · exact .inr (.inr ⟨rfl,hq,by simp [acquire,Lifo.acquire,closed,hq]⟩)
    · rw [List.concat_eq_append] at hq
      exact .inr (.inl ⟨rfl,front,server,hq,by simp [acquire,Lifo.acquire,closed,hq]⟩)

theorem Placed.acquire (h : d.Placed) (idle : d.stage call = .idle) : (d.acquire call).Placed := by
  have none : d.item call = none := by rw [item,idle]
  obtain ⟨-,e⟩ | ⟨-,front,server,hq,e⟩ | ⟨-,-,e⟩ := d.acquire_cases call <;> rw [e]
  · refine h.of_item (item_eq d _ call ?_ fun t ne => ⟨Function.update_of_ne ne ..,rfl⟩) rfl rfl rfl
    simp [item,Desk.enter,idle]
  · have queued : server ∈ d.lifo.queue := by simp [hq]
    have nodup := h.queue
    rw [hq] at nodup
    have notFront : server ∉ front := by
      intro hf
      exact (List.nodup_append.mp nodup).2.2 server hf server List.mem_cons_self rfl
    have same : custody { d with
        lifo := { d.lifo with queue := front }
        stage := Function.update d.stage call (.holding server) } = d.custody.take call ((),server) := by
      refine Custody.ext rfl rfl ?_ ((custody_holds d _ call fun t ne => ?_).trans ?_) rfl
      · ext ⟨_,s⟩
        simp only [custody,Custody.take,hq]
        constructor
        · exact fun hs => ⟨List.mem_append_left _ hs,by rintro ⟨⟩; exact notFront hs⟩
        · rintro ⟨hs,ne⟩
          exact (List.mem_append.mp hs).resolve_right fun e => ne (Prod.ext rfl (List.mem_singleton.mp e))
      · exact ⟨Function.update_of_ne ne ..,rfl⟩
      · simp [custody,item,Custody.take]
    refine ⟨same ▸ h.lent.take queued, same ▸ h.covered.take ?_, (List.nodup_append.mp nodup).1, h.servers⟩
    simp [custody,none]
  · refine h.of_item (item_eq d _ call ?_ fun t ne => ⟨Function.update_of_ne ne ..,Function.update_of_ne ne ..⟩) rfl rfl rfl
    simp [item,idle]

theorem Lined.acquire (h : d.Lined) (idle : d.stage call = .idle) : (d.acquire call).Lined := by
  have notIdle : d.stage call ≠ .pending := by simp [idle]
  obtain ⟨-,e⟩ | ⟨-,front,server,hq,e⟩ | ⟨-,hq,e⟩ := d.acquire_cases call <;> rw [e]
  · exact h.enter (.inl notIdle) (by simp) (by simp)
  · have entered : (d.enter call (.holding server)).Lined := h.enter (.inl notIdle) (by simp) (by simp)
    have empty : d.lifo.waiters = [] := h.calm.resolve_left (by simp [hq])
    exact ⟨entered.nodup,entered.waits,.inr empty,entered.began,entered.known,entered.order⟩
  · have absent : call ∉ d.lifo.waiters := fun hc => notIdle ((h.waits call).mp hc).1
    have unknown : ¬ (call ∈ d.began ∨ call ∈ d.left) := fun hk => h.known call hk idle
    refine ⟨?_, fun t => ?_, .inl hq, ?_, fun t ht => ?_, fun open' => ?_⟩
    · exact nodup_snoc h.nodup absent
    · rcases eq_or_ne t call with rfl | ne
      · simp
      · simpa [ne] using h.waits t
    · exact nodup_snoc h.began fun hb => unknown (.inl hb)
    · rcases eq_or_ne t call with rfl | ne
      · simp
      · simpa [ne] using h.known t (by simpa [ne] using ht)
    · rw [List.filter_append,← h.order open',List.append_assoc]
      simp [not_or.mp unknown]

/-- A call that is pending comes back with a server, or without one if the pooler was closed. -/
theorem receive_cases (h : d.receive call = some d') :
    (∃ server, (d.lifo.ready call).buffered = some server ∧ d' = { d with
      lifo := { d.lifo with ready := Function.update d.lifo.ready call {} }
      stage := Function.update d.stage call (.holding server) }) ∨
    (d.lifo.ready call).buffered = none ∧ (d.lifo.ready call).closed = true ∧ d' = d.enter call .done := by
  cases hb : (d.lifo.ready call).buffered with
  | some server =>
    simp only [receive,Lifo.receive,hb,Option.map_some,Option.some.injEq] at h
    exact .inl ⟨server,rfl,h.symm⟩
  | none =>
    cases hc : (d.lifo.ready call).closed with
    | true =>
      simp only [receive,Lifo.receive,hb,hc,if_true,Option.map_some,Option.some.injEq] at h
      exact .inr ⟨rfl,rfl,h.symm⟩
    | false => simp [receive,Lifo.receive,hb,hc] at h

theorem Placed.receive (h : d.Placed) (pending : d.stage call = .pending) (hr : d.receive call = some d') :
    d'.Placed := by
  obtain ⟨server,ready,rfl⟩ | ⟨none,-,rfl⟩ := receive_cases hr
  · refine h.of_item (item_eq d _ call ?_ fun t ne => ⟨Function.update_of_ne ne ..,Function.update_of_ne ne ..⟩) rfl rfl rfl
    simp [item,pending,ready]
  · refine h.of_item (item_eq d _ call ?_ fun t ne => ⟨Function.update_of_ne ne ..,rfl⟩) rfl rfl rfl
    simp [item,Desk.enter,pending,none]

theorem Lined.receive (h : d.Lined) (hr : d.receive call = some d') : d'.Lined := by
  obtain ⟨server,ready,rfl⟩ | ⟨-,closed,rfl⟩ := receive_cases hr
  · have entered : (d.enter call (.holding server)).Lined :=
      h.enter (.inr fun e => by simp [e] at ready) (by simp) (by simp)
    refine ⟨entered.nodup, fun t => ?_, entered.calm, entered.began, entered.known, entered.order⟩
    refine (entered.waits t).trans ?_
    rcases eq_or_ne t call with rfl | ne
    · simp [Desk.enter]
    · simp [Desk.enter,ne]
  · exact h.enter (.inr fun e => by simp [e] at closed) (by simp) (by simp)

/-- A call whose timer has fired leaves the line, or goes on as if it had received. -/
theorem timeout_cases (h : d.timeout call = some d') :
    (call ∈ d.lifo.waiters ∧ d' = { d with
      lifo := { d.lifo with waiters := d.lifo.waiters.erase call }
      stage := Function.update d.stage call .done
      left := d.left ++ [call] }) ∨
    call ∉ d.lifo.waiters ∧ d.receive call = some d' := by
  by_cases hc : call ∈ d.lifo.waiters
  · simp only [timeout,Lifo.timeout,hc,if_true,Option.map_some,Option.some.injEq] at h
    exact .inl ⟨hc,h.symm⟩
  · refine .inr ⟨hc,?_⟩
    rw [← h]
    simp [timeout,Lifo.timeout,hc,receive]

theorem Placed.timeout (h : d.Placed) (lined : d.Lined) (pending : d.stage call = .pending)
    (ht : d.timeout call = some d') : d'.Placed := by
  obtain ⟨hc,rfl⟩ | ⟨-,hr⟩ := timeout_cases ht
  · refine h.of_item (item_eq d _ call ?_ fun t ne => ⟨Function.update_of_ne ne ..,rfl⟩) rfl rfl rfl
    rw [lined.item_none hc]
    simp [item]
  · exact h.receive pending hr

theorem Lined.timeout (h : d.Lined) (ht : d.timeout call = some d') : d'.Lined := by
  obtain ⟨hc,rfl⟩ | ⟨-,hr⟩ := timeout_cases ht
  · refine ⟨h.nodup.erase call, fun t => ?_, h.calm.imp_right ?_, h.began, fun t ht => ?_, fun open' => ?_⟩
    · rw [h.nodup.mem_erase_iff,h.waits t]
      rcases eq_or_ne t call with rfl | ne
      · simp
      · simp [ne]
    · rintro hw
      simp [hw]
    · rcases eq_or_ne t call with rfl | ne
      · simp
      · simpa [ne] using h.known t (by simpa [ne] using ht)
    · have order := h.order open'
      have nodup : (d.served ++ d.lifo.waiters).Nodup := order ▸ h.began.filter _
      have notServed : call ∉ d.served := fun hs => (List.nodup_append.mp nodup).2.2 call hs call hc rfl
      have left : d.began.filter (· ∉ d.left ++ [call]) = (d.began.filter (· ∉ d.left)).filter (· ≠ call) := by
        rw [List.filter_filter]
        refine List.filter_congr fun t _ => ?_
        simp [and_comm]
      rw [left,← order,List.filter_append,h.nodup.erase_eq_filter]
      congr 1
      · refine (List.filter_eq_self.mpr fun t ht => ?_).symm
        have ne : t ≠ call := by rintro rfl; exact notServed ht
        simpa using ne
      · refine List.filter_congr fun t _ => ?_
        cases eq : (t != call) <;> simp_all
  · exact h.receive hr

theorem Placed.close (h : d.Placed) (lined : d.Lined) : d.close.Placed := by
  have item : d.close.item = d.item := by
    funext t
    by_cases ht : t ∈ d.lifo.waiters
    · rw [lined.item_none ht]
      simp [Desk.close,Lifo.close,Desk.item,ht,((lined.waits t).mp ht).1]
    · exact item_congr rfl (if_neg ht)
  have holds : d.close.custody.holds = d.custody.holds := by simp only [custody,item]
  have stock (p : Unit × Uuid) : p ∉ d.close.custody.stock := List.not_mem_nil
  have free (p : Unit × Uuid) : p ∉ d.close.custody.free := List.not_mem_nil
  refine ⟨?_, fun p hp => absurd hp (stock p), List.nodup_nil, List.nodup_nil⟩
  refine ⟨fun p hp => absurd hp (free p), fun p hp => absurd hp (stock p), h.lent.made_once, ?_, fun _ p _ => free p, ?_⟩
  · rw [holds]
    exact h.lent.holds_made
  · rw [holds]
    exact h.lent.holds_once

theorem Lined.close (h : d.Lined) : d.close.Lined := by
  refine ⟨List.nodup_nil, fun t => ⟨fun ht => (nomatch ht), ?_⟩, .inl rfl, h.began, h.known, fun open' => (nomatch open')⟩
  rintro ⟨pending,ready⟩
  by_cases ht : t ∈ d.lifo.waiters
  · simp [Desk.close,Lifo.close,ht] at ready
  · simp only [Desk.close,Lifo.close,ht,if_false] at ready
    exact absurd ((h.waits t).mpr ⟨pending,ready⟩) ht

end Desk
end Pggat.Poolers
