import Pggat.Spool.Members

/-! The pool and its kitchen agree about the connections. -/
namespace Pggat.Spool
open Pggat.Base
namespace Members

/-- A connection that a call of the chef has returned as made and that the pool has not added yet. -/
def Awaits (s : Members) (c : Kitchen.Conn) : Prop :=
  ∃ t < s.started, s.settled t = false ∧ c ∈ (s.threads t).added

/-- The connection of a server that `RemoveServer` or `ScaleDown` is about to take out of the maps. -/
def Marked (servers : Uuid → Kitchen.Conn) (removing : List Uuid) (sweep : Sweep) (c : Kitchen.Conn) : Prop :=
  (∃ server ∈ removing, servers server = c) ∨ ∃ server, sweep = .ignited server c

/-- A connection that has left the kitchen and that the pool has still to remove. -/
def Outgoing (s : Members) (c : Kitchen.Conn) : Prop :=
  (∃ t < s.started, s.settled t = false ∧ c ∈ (s.threads t).removed) ∨ Marked s.servers s.removing s.sweep c

/-- The step closes no connection that waits to be added to the pool, and adds none between the two sections of `Close`. -/
def Orderly (s : Members) : Event → Prop
  | .kitchen e => ∀ c ∈ e.closes s.toChef (s.caller e), ¬ s.Awaits c
  | .close => ∀ c ∈ s.byConn.keys, ¬ s.Awaits c
  | .settle t => (s.threads t).added ≠ [] → s.closing = false
  | _ => True

instance (s : Members) (c : Kitchen.Conn) : Decidable (s.Awaits c) := by unfold Awaits; infer_instance

instance (s : Members) (e : Event) : Decidable (s.Orderly e) := by unfold Orderly; split <;> infer_instance

structure Agrees (s : Members) : Prop where
  accounted : s.toSystem.Accounted
  sound : s.toRoster.Sound
  removing : ∀ server ∈ s.removing, server < s.created
  ignited : ∀ server c, s.sweep = .ignited server c → server < s.created ∧ s.servers server = c
  returned : ∀ t, s.settled t = true → (s.threads t).returned = true
  members : ∀ c, s.byConn.get c ≠ none ↔
    (s.serversByConn.get c ≠ none ∧ ¬ s.Outgoing c ∧ s.closing = false) ∨ s.Awaits c
  once : ∀ t t' c, s.settled t = false → s.settled t' = false → c ∈ (s.threads t).added →
    c ∈ (s.threads t').added → t = t'
  distinct : ∀ t, (s.threads t).added.Nodup
  fresh : ∀ c, s.Awaits c → ¬ s.Made c ∧ ¬ s.Outgoing c
  seen : ∀ c, s.Made c ∨ s.Outgoing c ∨ s.Awaits c → c < s.dialed ∧ ∀ t, c ∉ (s.threads t).holds

namespace Agrees
variable {s : Members}

theorem initial : Agrees {} where
  accounted := .initial
  sound := .initial
  removing _ h := nomatch h
  ignited _ _ h := nomatch h
  returned _ h := nomatch h
  members c := by simp [Awaits]
  once _ _ _ _ _ h := nomatch h
  distinct _ := .nil
  fresh _ h := nomatch h
  seen c := by
    rintro (⟨_,h,_⟩ | (⟨_,h,_⟩ | ⟨_,h,_⟩ | ⟨_,h⟩) | ⟨_,h,_⟩) <;> cases h

variable {t : Nat}

theorem awaits_of (h : Agrees s) {c : Kitchen.Conn} (waits : s.settled t = false)
    (hc : c ∈ (s.threads t).added) : s.Awaits c := by
  have busy : s.threads t ≠ .idle := fun e => by simp [e,Kitchen.Thread.added] at hc
  exact ⟨t,h.accounted.lt_started busy,waits,hc⟩

variable {n : Nat}

/-- What calls have returned and the pool is not through with, after one of them has taken a step. -/
theorem returns_update (h : Agrees s) {returns : Kitchen.Thread → List Kitchen.Conn} (idle : returns .idle = [])
    (running : returns (s.threads t) = []) (waits : s.settled t = false) (lt : t < n) (le : s.started ≤ n)
    (th : Kitchen.Thread) (c : Kitchen.Conn) :
    (∃ i < n, s.settled i = false ∧ c ∈ returns (Function.update s.threads t th i)) ↔
      (∃ i < s.started, s.settled i = false ∧ c ∈ returns (s.threads i)) ∨ c ∈ returns th := by
  constructor
  · rintro ⟨i,-,hi,hc⟩
    rcases eq_or_ne i t with rfl | ne
    · exact .inr (by simpa using hc)
    · rw [Function.update_of_ne ne] at hc
      have busy : s.threads i ≠ .idle := fun e => by simp [e,idle] at hc
      exact .inl ⟨i,h.accounted.lt_started busy,hi,hc⟩
  · rintro (⟨i,hs,hi,hc⟩ | hc)
    · have ne : i ≠ t := fun e => by simp [e,running] at hc
      exact ⟨i,hs.trans_le le,hi,by simpa [ne] using hc⟩
    · exact ⟨t,lt,waits,by simpa using hc⟩

variable {critics : Bool} {e : Kitchen.Event} {chef : Kitchen.Chef}

theorem move (h : Agrees s) {th : Kitchen.Thread}
    (moves : Kitchen.Moves critics s.toChef e (s.threads t) th chef)
    (accounted : Kitchen.System.Accounted ⟨chef,Function.update s.threads t th,n⟩)
    (orderly : ∀ c ∈ e.closes s.toChef (s.threads t), ¬ s.Awaits c)
    (lt : t < n) (le : s.started ≤ n) :
    Agrees ⟨⟨chef,Function.update s.threads t th,n⟩,s.toRoster,s.settled,s.removing,s.sweep,s.closing,s.closed⟩ := by
  have holder := h.accounted.holder t
  have flow := moves.flow h.accounted.balanced
  have fits := moves.fits holder h.accounted.known
  have waits : s.settled t = false := by
    by_contra settled
    have returned := h.returned t (by simpa using settled)
    simp [flow.running] at returned
  have awaits (c : Kitchen.Conn) :
      Awaits ⟨⟨chef,Function.update s.threads t th,n⟩,s.toRoster,s.settled,s.removing,s.sweep,s.closing,s.closed⟩ c ↔
        s.Awaits c ∨ c ∈ th.added :=
    h.returns_update rfl (Kitchen.Thread.added_of_running flow.running) waits lt le th c
  have outgoing (c : Kitchen.Conn) :
      Outgoing ⟨⟨chef,Function.update s.threads t th,n⟩,s.toRoster,s.settled,s.removing,s.sweep,s.closing,s.closed⟩ c ↔
        s.Outgoing c ∨ c ∈ th.removed := by
    refine (or_congr_left
      (h.returns_update rfl (Kitchen.Thread.removed_of_running flow.running) waits lt le th c)).trans ?_
    rw [or_right_comm]
    rfl
  have kept (c : Kitchen.Conn) (hc : c ∈ th.removed) : ¬ s.Awaits c := by
    rcases flow.removed with closes | none
    · exact orderly c (closes ▸ hc)
    · simp [none] at hc
  -- A connection that has been in the kitchen or the pool is in no call's hands.
  have new (c : Kitchen.Conn) (hc : c ∈ th.added) : ¬ s.Made c ∧ ¬ s.Outgoing c ∧ ¬ s.Awaits c := by
    have held := flow.added.subset hc
    exact ⟨fun hm => (h.seen c (.inl hm)).2 t held,fun ho => (h.seen c (.inr (.inl ho))).2 t held,
      fun ha => (h.seen c (.inr (.inr ha))).2 t held⟩
  refine ⟨accounted,h.sound,h.removing,h.ignited,fun i hi => ?_,fun c => ?_,fun i j c hi hj ci cj => ?_,fun i => ?_,
    fun c hc => ?_,fun c hc => ?_⟩
  · have settled : s.settled i = true := hi
    have ne : i ≠ t := fun e => by simp [← e,settled] at waits
    simpa [ne] using h.returned i settled
  · rw [awaits,outgoing,flow.byConn,h.members]
    have := kept c
    tauto
  · rcases eq_or_ne i t with rfl | ne
    · rcases eq_or_ne j i with rfl | ne'
      · rfl
      · simp only [Function.update_self,Function.update_of_ne ne'] at ci cj
        exact absurd (h.awaits_of hj cj) (new c ci).2.2
    · rcases eq_or_ne j t with rfl | ne'
      · simp only [Function.update_self,Function.update_of_ne ne] at ci cj
        exact absurd (h.awaits_of hi ci) (new c cj).2.2
      · simp only [Function.update_of_ne ne,Function.update_of_ne ne'] at ci cj
        exact h.once i j c hi hj ci cj
  · rcases eq_or_ne i t with rfl | ne
    · simpa using flow.added.nodup holder.nodup
    · simpa [ne] using h.distinct i
  · rw [outgoing]
    rcases (awaits c).mp hc with hc | hc
    · exact ⟨(h.fresh c hc).1,fun ho => ho.elim (h.fresh c hc).2 fun hr => kept c hr hc⟩
    · refine ⟨(new c hc).1,fun ho => ho.elim (new c hc).2.1 fun hr => ?_⟩
      exact flow.known c hr (holder.holds c (flow.added.subset hc)).2
  · have old (free : c < s.dialed ∧ ∀ i, c ∉ (s.threads i).holds) :
        c < chef.dialed ∧ ∀ i, c ∉ (Function.update s.threads t th i).holds := by
      refine ⟨free.1.trans_le fits.dialed,fun i hi => ?_⟩
      rcases eq_or_ne i t with rfl | ne
      · rcases fits.holds c (by simpa using hi) with held | le
        · exact free.2 i held
        · exact absurd free.1 (Nat.not_lt.mpr le)
      · exact free.2 i (by simpa [ne] using hi)
    have here (in' : chef.byConn.get c ≠ none) :
        c < chef.dialed ∧ ∀ i, c ∉ (Function.update s.threads t th i).holds := by
      obtain ⟨r,hr⟩ := Option.ne_none_iff_exists'.mp in'
      exact ⟨accounted.known c r hr,fun i hi => in' ((accounted.holder i).holds c hi).2⟩
    rw [awaits,outgoing] at hc
    rcases hc with made | (out | removed) | await | added
    · exact old (h.seen c (.inl made))
    · exact old (h.seen c (.inr (.inl out)))
    · obtain ⟨r,hr⟩ := Option.ne_none_iff_exists'.mp (flow.known c removed)
      exact old ⟨h.accounted.known c r hr,fun i hi => flow.known c removed ((h.accounted.holder i).holds c hi).2⟩
    · exact old (h.seen c (.inr (.inr await)))
    · exact here ((flow.byConn c).mpr (.inr added))

private theorem returns_settle (returns : Kitchen.Thread → List Kitchen.Conn) (lt : t < s.started)
    (waits : s.settled t = false) (c : Kitchen.Conn) :
    (∃ i < s.started, s.settled i = false ∧ c ∈ returns (s.threads i)) ↔
      (∃ i < s.started, Function.update s.settled t true i = false ∧ c ∈ returns (s.threads i)) ∨
        c ∈ returns (s.threads t) := by
  constructor
  · rintro ⟨i,hs,hi,hc⟩
    rcases eq_or_ne i t with rfl | ne
    · exact .inr hc
    · exact .inl ⟨i,hs,by simpa [ne] using hi,hc⟩
  · rintro (⟨i,hs,hi,hc⟩ | hc)
    · have ne : i ≠ t := fun e => by simp [e] at hi
      exact ⟨i,hs,by simpa [ne] using hi,hc⟩
    · exact ⟨t,lt,waits,hc⟩

theorem settle (h : Agrees s) (returned : (s.threads t).returned = true) (waits : s.settled t = false)
    (orderly : (s.threads t).added ≠ [] → s.closing = false) :
    Agrees ⟨s.toSystem,s.toRoster.settle (s.threads t).removed (s.threads t).added,Function.update s.settled t true,
      s.removing,s.sweep,s.closing,s.closed⟩ := by
  have lt : t < s.started := h.accounted.lt_started fun e => by simp [e,Kitchen.Thread.returned] at returned
  obtain ⟨sound,servers,created,get⟩ := h.sound.removeServers (s.threads t).removed
  have made (c : Kitchen.Conn) : ((s.threads t).removed.foldl Roster.removeServer s.toRoster).Made c ↔ s.Made c := by
    rw [Roster.Made,servers,created]; rfl
  have mine (c : Kitchen.Conn) (hc : c ∈ (s.threads t).added) : s.Awaits c := h.awaits_of waits hc
  have extended := sound.addServers (h.distinct t) fun c hc hm => (h.fresh c (mine c hc)).1 ((made c).mp hm)
  have same (server : Uuid) (lt : server < s.created) :
      (s.toRoster.settle (s.threads t).removed (s.threads t).added).servers server = s.servers server :=
    (extended.servers server (created.symm ▸ lt)).trans (congrFun servers server)
  have le : s.created ≤ (s.toRoster.settle (s.threads t).removed (s.threads t).added).created :=
    created ▸ extended.created
  have other {i : Nat} (hi : Function.update s.settled t true i = false) : i ≠ t ∧ s.settled i = false := by
    have ne : i ≠ t := fun e => by simp [e] at hi
    exact ⟨ne,by simpa [ne] using hi⟩
  have awaits (c : Kitchen.Conn) : s.Awaits c ↔
      Awaits ⟨s.toSystem,s.toRoster.settle (s.threads t).removed (s.threads t).added,Function.update s.settled t true,
        s.removing,s.sweep,s.closing,s.closed⟩ c ∨ c ∈ (s.threads t).added :=
    returns_settle _ lt waits c
  have outgoing (c : Kitchen.Conn) : s.Outgoing c ↔
      Outgoing ⟨s.toSystem,s.toRoster.settle (s.threads t).removed (s.threads t).added,Function.update s.settled t true,
        s.removing,s.sweep,s.closing,s.closed⟩ c ∨ c ∈ (s.threads t).removed := by
    have marked : Marked s.servers s.removing s.sweep c ↔
        Marked (s.toRoster.settle (s.threads t).removed (s.threads t).added).servers s.removing s.sweep c :=
      or_congr_left (exists_congr fun server => and_congr_right fun hs => by rw [same server (h.removing server hs)])
    refine (or_congr (returns_settle _ lt waits c) marked).trans ?_
    rw [or_right_comm]
    rfl
  have members (c : Kitchen.Conn) :
      (s.toRoster.settle (s.threads t).removed (s.threads t).added).serversByConn.get c ≠ none ↔
        s.serversByConn.get c ≠ none ∧ c ∉ (s.threads t).removed ∨ c ∈ (s.threads t).added := by
    refine (extended.get c).trans (or_congr_left ?_)
    rw [get]
    split <;> simp_all
  refine ⟨h.accounted,extended.sound,fun server hs => (h.removing server hs).trans_le le,fun server c hs => ?_,
    fun i hi => ?_,fun c => ?_,fun i j c hi hj => h.once i j c (other hi).2 (other hj).2,h.distinct,fun c hc => ?_,
    fun c hc => ?_⟩
  · obtain ⟨lt,is⟩ := h.ignited server c hs
    exact ⟨lt.trans_le le,(same server lt).trans is⟩
  · rcases eq_or_ne i t with rfl | ne
    · exact returned
    · exact h.returned i (by simpa [ne] using hi)
  · have fresh := fun hc => (h.fresh c (mine c hc)).2
    have open' : c ∈ (s.threads t).added → s.closing = false := fun hc => orderly (List.ne_nil_of_mem hc)
    refine (h.members c).trans ?_
    rw [awaits,members]
    rw [outgoing] at fresh ⊢
    tauto
  · have before := (awaits c).mpr (.inl hc)
    refine ⟨fun hm => ?_,fun ho => (h.fresh c before).2 ((outgoing c).mpr (.inl ho))⟩
    rcases (extended.made c).mp hm with hm | ha
    · exact (h.fresh c before).1 ((made c).mp hm)
    · obtain ⟨i,-,hi,hc⟩ := hc
      exact (other hi).1 (h.once i t c (other hi).2 waits hc ha)
  · rcases hc with hm | ho | ha
    · rcases (extended.made c).mp hm with hm | ha
      · exact h.seen c (.inl ((made c).mp hm))
      · exact h.seen c (.inr (.inr (mine c ha)))
    · exact h.seen c (.inr (.inl ((outgoing c).mpr (.inl ho))))
    · exact h.seen c (.inr (.inr ((awaits c).mpr (.inl ha))))

variable {conn : Kitchen.Conn} {removing : List Uuid} {sweep : Sweep}

theorem lose (h : Agrees s)
    (accounted : Kitchen.System.Accounted ⟨chef,s.threads,s.started⟩) (dialed : chef.dialed = s.dialed)
    (byConn : ∀ c, chef.byConn.get c ≠ none ↔ s.byConn.get c ≠ none ∧ c ≠ conn) (made : s.Made conn)
    (removed : ∀ server ∈ removing, server < s.created)
    (ignited : ∀ server c, sweep = .ignited server c → server < s.created ∧ s.servers server = c)
    (marked : ∀ c, Marked s.servers removing sweep c ↔ Marked s.servers s.removing s.sweep c ∨ c = conn) :
    Agrees ⟨⟨chef,s.threads,s.started⟩,s.toRoster,s.settled,removing,sweep,s.closing,s.closed⟩ := by
  have outgoing (c : Kitchen.Conn) :
      Outgoing ⟨⟨chef,s.threads,s.started⟩,s.toRoster,s.settled,removing,sweep,s.closing,s.closed⟩ c ↔
        s.Outgoing c ∨ c = conn :=
    (or_congr_right (marked c)).trans or_assoc.symm
  have unawaited (ha : s.Awaits conn) : False := (h.fresh conn ha).1 made
  refine ⟨accounted,h.sound,removed,ignited,h.returned,fun c => ?_,h.once,h.distinct,fun c ha => ?_,fun c hc => ?_⟩
  · refine (byConn c).trans ?_
    rw [outgoing,h.members]
    rcases eq_or_ne c conn with rfl | ne
    · exact ⟨fun hc => absurd rfl hc.2,fun hc => hc.elim (fun hc => absurd (.inr rfl) hc.2.1) fun ha => (unawaited ha).elim⟩
    · simp only [ne,or_false,ne_eq,not_false_eq_true,and_true]
      rfl
  · refine ⟨(h.fresh c ha).1,fun ho => ((outgoing c).mp ho).elim (h.fresh c ha).2 fun e => ?_⟩
    exact unawaited (e ▸ ha)
  · have free : c < s.dialed ∧ ∀ t, c ∉ (s.threads t).holds := by
      rcases hc with hm | ho | ha
      · exact h.seen c (.inl hm)
      · rcases (outgoing c).mp ho with ho | rfl
        · exact h.seen c (.inr (.inl ho))
        · exact h.seen c (.inl made)
      · exact h.seen c (.inr (.inr ha))
    exact ⟨dialed.symm ▸ free.1,free.2⟩

variable {server : Uuid}

theorem leave (h : Agrees s)
    (lt : server < s.created) (hc : s.servers server = conn) (removed : ∀ server ∈ removing, server < s.created)
    (ignited : ∀ server c, sweep = .ignited server c → server < s.created ∧ s.servers server = c)
    (marked : ∀ c, Marked s.servers s.removing s.sweep c ↔ Marked s.servers removing sweep c ∨ c = conn) :
    Agrees ⟨s.toSystem,s.toRoster.deleteServer server conn,s.settled,removing,sweep,s.closing,s.closed⟩ := by
  have outgoing (c : Kitchen.Conn) : s.Outgoing c ↔
      Outgoing ⟨s.toSystem,s.toRoster.deleteServer server conn,s.settled,removing,sweep,s.closing,s.closed⟩ c ∨
        c = conn :=
    (or_congr_right (marked c)).trans or_assoc.symm
  have unawaited (ha : s.Awaits conn) : False := (h.fresh conn ha).1 ⟨server,lt,hc⟩
  refine ⟨h.accounted,h.sound.deleteServer lt hc,removed,ignited,h.returned,fun c => ?_,h.once,h.distinct,fun c ha => ?_,
    fun c hc => ?_⟩
  · refine (h.members c).trans ?_
    rw [outgoing]
    rcases eq_or_ne c conn with rfl | ne
    · simp only [Roster.deleteServer,Map.get_erase]
      tauto
    · simp only [Roster.deleteServer,Map.get_erase,ne,or_false,if_false]
      rfl
  · exact ⟨(h.fresh c ha).1,fun ho => (h.fresh c ha).2 ((outgoing c).mpr (.inl ho))⟩
  · exact h.seen c (hc.imp id (.imp (fun ho => (outgoing c).mpr (.inl ho)) id))

theorem close (h : Agrees s) (orderly : ∀ c ∈ s.byConn.keys, ¬ s.Awaits c)
    (accounted : Kitchen.System.Accounted ⟨s.toChef.close,s.threads,s.started⟩) (closed : Bool) :
    Agrees ⟨⟨s.toChef.close,s.threads,s.started⟩,s.toRoster,s.settled,s.removing,s.sweep,true,closed⟩ := by
  have unawaited (c : Kitchen.Conn) (ha : s.Awaits c) : False := by
    obtain ⟨r,hr⟩ := Option.ne_none_iff_exists'.mp ((h.members c).mpr (.inr ha))
    exact orderly c ((s.byConn.mem_iff c).mpr ⟨r,hr⟩) ha
  have dropped := s.toChef.close_dropped
  refine ⟨accounted,h.sound,h.removing,h.ignited,h.returned,fun c => ?_,h.once,h.distinct,h.fresh,fun c hc => ?_⟩
  · have none : s.toChef.close.byConn.get c = none := by
      refine Option.eq_none_iff_forall_ne_some.mpr fun r hr => ?_
      obtain ⟨known,stays⟩ := dropped.get_eq_some.mp hr
      exact stays ((s.byConn.mem_iff c).mpr ⟨r,known⟩)
    exact ⟨fun hc => absurd none hc,fun hc => hc.elim (fun hc => nomatch hc.2.2) fun ha => (unawaited c ha).elim⟩
  · have free := h.seen c hc
    exact ⟨dropped.dialed.symm ▸ free.1,free.2⟩

theorem clear (h : Agrees s) (closing : s.closing = true) :
    Agrees ⟨s.toSystem,{ s.toRoster with serversByID := ∅, serversByConn := ∅ },s.settled,s.removing,s.sweep,false,
      s.closed⟩ := by
  refine ⟨h.accounted,⟨fun _ _ => by simp,nofun,h.sound.single⟩,h.removing,h.ignited,h.returned,fun c => ?_,h.once,
    h.distinct,h.fresh,h.seen⟩
  refine (h.members c).trans (or_congr_left ?_)
  simp [closing]

theorem resweep (h : Agrees s) (before : ∀ server c, s.sweep ≠ .ignited server c)
    (after : ∀ server c, sweep ≠ .ignited server c) :
    Agrees ⟨s.toSystem,s.toRoster,s.settled,s.removing,sweep,s.closing,s.closed⟩ := by
  have outgoing (c : Kitchen.Conn) :
      Outgoing ⟨s.toSystem,s.toRoster,s.settled,s.removing,sweep,s.closing,s.closed⟩ c ↔ s.Outgoing c := by
    simp only [Outgoing,Marked,before,after]
  refine ⟨h.accounted,h.sound,h.removing,fun server c e => absurd e (after server c),h.returned,fun c => ?_,h.once,
    h.distinct,fun c ha => ?_,fun c hc => ?_⟩
  · rw [outgoing]
    exact h.members c
  · rw [outgoing]
    exact h.fresh c ha
  · rw [outgoing] at hc
    exact h.seen c hc

theorem kitchen (h : Agrees s) {system : Kitchen.System} (calls : e.calls)
    (orderly : ∀ c ∈ e.closes s.toChef (s.caller e), ¬ s.Awaits c) (hs : s.toSystem.step critics e = some system) :
    Agrees ⟨system,s.toRoster,s.settled,s.removing,s.sweep,s.closing,s.closed⟩ := by
  have accounted := h.accounted.step hs
  cases Kitchen.System.step_stepped hs with
  | @call t th chef ht busy moves =>
    have caller : s.caller e = s.threads t := by rw [Kitchen.System.caller,ht]; rfl
    exact h.move moves accounted (caller ▸ orderly) (h.accounted.lt_started busy) (Nat.le_refl _)
  | new ht moves =>
    have idle : s.threads s.started = .idle := h.accounted.quiet _ (Nat.le_refl _)
    have caller : s.caller e = s.threads s.started := by rw [Kitchen.System.caller,ht]; rfl
    exact h.move (idle.symm ▸ moves) accounted (caller ▸ orderly) (Nat.lt_succ_self _) (Nat.le_succ _)
  | burn he => rw [he] at calls; cases calls
  | ignite he => rw [he] at calls; cases calls
  | close he => rw [he] at calls; cases calls
  | sever =>
    exact ⟨accounted,h.sound,h.removing,h.ignited,h.returned,h.members,h.once,h.distinct,h.fresh,h.seen⟩

private theorem burn (h : Agrees s) (lt : server < s.created) :
    Agrees ⟨⟨s.toChef.burn (s.servers server),s.threads,s.started⟩,s.toRoster,s.settled,server :: s.removing,s.sweep,
      s.closing,s.closed⟩ := by
  have accounted : Kitchen.System.Accounted ⟨s.toChef.burn (s.servers server),s.threads,s.started⟩ :=
    h.accounted.step (show s.toSystem.step false (.burn (s.servers server)) = some _ from rfl)
  have dropped := s.toChef.burn_dropped (s.servers server)
  refine h.lose accounted dropped.dialed (fun c => ?_) ⟨server,lt,rfl⟩ (fun server' hs => ?_) h.ignited fun c => ?_
  · refine (dropped.get_ne_none c).trans (and_congr_right fun hc => not_congr ?_)
    split
    · exact List.mem_singleton
    · rename_i none
      refine ⟨fun h => (nomatch h),fun e => absurd ?_ none⟩
      exact Option.isSome_iff_ne_none.mpr (e ▸ hc)
  · rcases List.mem_cons.mp hs with rfl | hs
    · exact lt
    · exact h.removing server' hs
  · simp only [Marked,List.mem_cons,exists_eq_or_imp]
    rw [eq_comm (a := c),or_assoc,or_comm]

private theorem ignite (h : Agrees s) (hc : s.serversByID.get server = some conn)
    (looking : s.sweep = .looking) :
    Agrees ⟨⟨(s.toChef.ignite conn).2,s.threads,s.started⟩,s.toRoster,s.settled,s.removing,
      if (s.toChef.ignite conn).1 then .ignited server conn else .looking,s.closing,s.closed⟩ := by
  obtain ⟨lt,is⟩ := h.sound.made server conn hc
  have accounted : Kitchen.System.Accounted ⟨(s.toChef.ignite conn).2,s.threads,s.started⟩ :=
    h.accounted.step (show s.toSystem.step false (.ignite conn) = some _ from rfl)
  have dropped := s.toChef.ignite_dropped conn
  cases ok : (s.toChef.ignite conn).1 with
  | true =>
    rw [ok] at dropped
    refine h.lose accounted dropped.dialed (fun c => ?_) ⟨server,lt,is⟩ h.removing (fun server' c e => ?_) fun c => ?_
    · exact (dropped.get_ne_none c).trans (and_congr_right fun _ => not_congr List.mem_singleton)
    · cases e
      exact ⟨lt,is⟩
    · simp [Marked,looking,eq_comm]
  | false =>
    rw [Kitchen.Chef.ignite_refused ok]
    exact looking ▸ h

theorem step (h : Agrees s) {e : Event} {s' : Members} (orderly : s.Orderly e)
    (hs : s.step critics e = some s') : Agrees s' := by
  cases e with
  | kitchen e =>
    rw [Members.step] at hs
    split at hs
    · rename_i calls
      obtain ⟨system,hk,rfl⟩ := Option.map_eq_some_iff.mp hs
      exact h.kitchen calls orderly hk
    · cases hs
  | settle t =>
    rw [Members.step] at hs
    dsimp only at hs
    split at hs
    · rename_i hc
      cases hs
      exact h.settle hc.1 hc.2.1 orderly
    · cases hs
  | burn server =>
    rw [Members.step] at hs
    split at hs
    · rename_i lt
      cases hs
      exact h.burn lt
    · cases hs
  | delete server =>
    rw [Members.step] at hs
    split at hs
    · rename_i hc
      cases hs
      refine h.leave (h.removing server hc.1) rfl (fun server' hs => h.removing server' (List.mem_of_mem_erase hs))
        h.ignited fun c => ?_
      rw [Marked,Marked,or_right_comm]
      refine or_congr_left ⟨?_,?_⟩
      · rintro ⟨server',hs,rfl⟩
        rcases eq_or_ne server' server with rfl | ne
        · exact .inr rfl
        · exact .inl ⟨server',(List.mem_erase_of_ne ne).mpr hs,rfl⟩
      · rintro (⟨server',hs,is⟩ | rfl)
        · exact ⟨server',List.mem_of_mem_erase hs,is⟩
        · exact ⟨server,hc.1,rfl⟩
    · cases hs
  | scaleDown =>
    rw [Members.step] at hs
    split at hs
    · rename_i off
      cases hs
      exact h.resweep (by simp [off]) nofun
    · cases hs
  | ignite server =>
    rw [Members.step] at hs
    split at hs
    · rename_i looking hc
      cases hs
      exact h.ignite hc looking
    · cases hs
  | drop =>
    rw [Members.step] at hs
    split at hs
    · rename_i server conn ignited
      cases hs
      obtain ⟨lt,is⟩ := h.ignited server conn ignited
      refine h.leave lt is h.removing nofun fun c => ?_
      simp [Marked,ignited,eq_comm]
    · cases hs
  | unlock =>
    rw [Members.step] at hs
    split at hs
    · rename_i looking
      cases hs
      exact h.resweep (by simp [looking]) nofun
    · cases hs
  | close =>
    rw [Members.step] at hs
    split at hs
    · cases hs
    · cases hs
      exact h.close orderly (h.accounted.step (show s.toSystem.step false .close = some _ from rfl)) true
  | clear =>
    rw [Members.step] at hs
    split at hs
    · rename_i hc
      cases hs
      exact h.clear hc.1
    · cases hs

private theorem reachable (h : Reachable {} Orderly (Members.step critics) s) : Agrees s :=
  h.invariant initial fun _ _ _ h ha hs => h.step ha hs

end Agrees

/-- Pool membership agrees with the kitchen: in every run whose steps are orderly, whenever no operation of the pool is in
progress, its two maps are inverse to each other and the connections in them are those in the kitchen. -/
theorem membership_agrees {critics : Bool} {s : Members} (h : Reachable {} Orderly (step critics) s) (quiet : s.Quiet) :
    (∀ server conn, s.serversByID.get server = some conn ↔ s.serversByConn.get conn = some server) ∧
    ∀ conn, s.serversByConn.get conn ≠ none ↔ s.byConn.get conn ≠ none := by
  obtain ⟨settled,removing,sweep,closing⟩ := quiet
  have agrees := Agrees.reachable h
  refine ⟨agrees.sound.inverse,fun conn => ?_⟩
  have unawaited : ¬ s.Awaits conn := by
    rintro ⟨t,lt,waits,-⟩
    simp [settled t lt] at waits
  have in' : ¬ s.Outgoing conn := by
    rintro (⟨t,lt,waits,-⟩ | ⟨_,hs,-⟩ | ⟨_,hs⟩)
    · simp [settled t lt] at waits
    · simp [removing] at hs
    · simp [sweep] at hs
  rw [agrees.members]
  simp [unawaited,in',closing]

/-- A recipe with one connection is added, a second one is made by `ScaleUp`, and the first is removed. -/
def oneReplaced : List Event :=
  [.kitchen (.learn [97] 0 1 2), .kitchen (.connect 0), .kitchen (.accept 0 true), .kitchen (.enter 0 0), .settle 0,
    .kitchen (.cook (.sort [0])), .kitchen (.connect 1), .kitchen (.accept 1 true), .kitchen (.finish 1), .settle 1,
    .burn 0, .delete 0]

theorem membership_agrees_replaced : ∃ s : Members, Reachable {} Orderly (step false) s ∧ s.Quiet ∧
    s.serversByConn.get 1 = some 1 ∧ s.byConn.get 1 ≠ none ∧ s.byConn.get 0 = none ∧ s.serversByConn.get 0 = none := by
  have h := Reachable.of_run .start (fun _ _ => id) oneReplaced
    (show run Orderly (step false) ({} : Members) oneReplaced = some _ from rfl)
  refine ⟨_,h,⟨by decide,rfl,rfl,rfl⟩,rfl,?_,?_,rfl⟩
  · exact ((membership_agrees h ⟨by decide,rfl,rfl,rfl⟩).2 1).mp (by decide)
  · by_contra known
    exact ((membership_agrees h ⟨by decide,rfl,rfl,rfl⟩).2 0).mpr known rfl

/-- The recipe is removed between the two sections of a `ScaleUp`. -/
def removedBetween : List Event :=
  [.kitchen (.learn [97] 0 0 0), .kitchen (.enter 0 0), .settle 0, .kitchen (.cook (.sort [0])), .kitchen (.connect 1),
    .kitchen (.accept 1 true), .kitchen (.finish 1), .kitchen (.forget [97]), .settle 2, .settle 1]

/-- A `ScaleUp` falls between the two sections of `Close`. -/
def addedBetween : List Event :=
  [.kitchen (.learn [97] 0 0 0), .kitchen (.enter 0 0), .settle 0, .kitchen (.cook (.sort [0])), .kitchen (.connect 1),
    .kitchen (.accept 1 true), .close, .kitchen (.finish 1), .settle 1, .clear]

/-- The pool keeps a server whose connection is closed, or loses one whose connection is open. -/
theorem membership_differs :
    (∃ s : Members, Reachable {} (fun _ _ => True) (step false) s ∧ s.Quiet ∧ s.serversByConn.get 0 = some 0 ∧
      s.byConn.get 0 = none ∧ 0 ∉ s.opened) ∧
    ∃ s : Members, Reachable {} (fun _ _ => True) (step false) s ∧ s.Quiet ∧ s.serversByConn.get 0 = none ∧
      s.byConn.get 0 = some 0 ∧ 0 ∈ s.opened :=
  ⟨⟨_,Reachable.of_run .start (fun _ _ => id) removedBetween rfl,⟨by decide,rfl,rfl,rfl⟩,rfl,rfl,by decide⟩,
    ⟨_,Reachable.of_run .start (fun _ _ => id) addedBetween rfl,⟨by decide,rfl,rfl,rfl⟩,rfl,rfl,by decide⟩⟩

end Members
end Pggat.Spool
