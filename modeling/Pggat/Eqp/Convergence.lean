import Pggat.Eqp.Batch

/-! What `SyncMiddleware` makes of the statements of a server. -/
namespace Pggat.Eqp
open Pggat.Base

theorem preparedStatementsEqual_iff {p q : Parse} (h : p.destination = q.destination) :
    preparedStatementsEqual p q = true ↔ p = q := by
  obtain ⟨d,query,types⟩ := p
  obtain ⟨d',query',types'⟩ := q
  cases h
  simp [preparedStatementsEqual]

namespace Order.Of
variable {order : Order} {c T : State} (h : order.Of c T) {name : GoString} {p : Parse}
include h

theorem mem_close : ⟨.preparedStatement,name⟩ ∈ order.toClose c ↔
    ∃ p, T.statements name = some p ∧ closes c (name,p) = true := by
  have hmem := h.serverStatements.mem name
  simp only [toClose,List.mem_append,List.mem_map,List.mem_filter,Close.mk.injEq,reduceCtorEq,false_and,and_false,
    exists_false,false_or,true_and]
  constructor
  · rintro ⟨⟨n,p⟩,⟨hp,hc⟩,rfl⟩
    exact ⟨p,(hmem p).mp hp,hc⟩
  · rintro ⟨p,hp,hc⟩
    exact ⟨(name,p),⟨(hmem p).mpr hp,hc⟩,rfl⟩

theorem mem_closePortal {b : Bind} (hb : T.portals.get name = some b) : ⟨.portal,name⟩ ∈ order.toClose c :=
  List.mem_append_left _ (List.mem_map.mpr ⟨(name,b),(h.serverPortals.mem name b).mpr hb,rfl⟩)

variable (hc : c.Keyed)
include hc

theorem mem_parse : p ∈ order.toParse T ↔ c.statements p.destination = some p ∧ parses T (p.destination,p) = true := by
  simp only [toParse,List.mem_map,List.mem_filter]
  constructor
  · rintro ⟨⟨n,q⟩,⟨hq,hp⟩,rfl⟩
    have hget := (h.clientStatements.mem n q).mp hq
    have hn : q.destination = n := hc n q hget
    subst hn
    exact ⟨hget,hp⟩
  · rintro ⟨hget,hp⟩
    exact ⟨(p.destination,p),⟨(h.clientStatements.mem _ p).mpr hget,hp⟩,rfl⟩

theorem parse_nodup : ((order.toParse T).map Parse.destination).Nodup := by
  have hnames : (order.toParse T).map Parse.destination =
      (order.clientStatements.filter (parses T)).map Prod.fst := by
    rw [toParse,List.map_map]
    refine List.map_congr_left fun e he => ?_
    exact hc e.1 e.2 ((h.clientStatements.mem e.1 e.2).mp (List.mem_of_mem_filter he))
  rw [hnames]
  exact h.clientStatements.nodup.sublist (List.filter_sublist.map _)

theorem equal_kept (hs : T.statements name = some p) (hp : c.statements name = some p) :
    ⟨.preparedStatement,name⟩ ∉ order.toClose c ∧ ∀ q ∈ order.toParse T, q.destination ≠ name := by
  have equal : preparedStatementsEqual p p = true := (preparedStatementsEqual_iff rfl).mpr rfl
  have hs' : T.preparedStatements.get name = some p := hs
  have hp' : c.preparedStatements.get name = some p := hp
  refine ⟨fun hmem => ?_,fun q hq he => ?_⟩
  · obtain ⟨q,hq,hclose⟩ := h.mem_close.mp hmem
    rw [hs] at hq
    cases hq
    simp [closes,hp',equal] at hclose
  · obtain ⟨hget,hparse⟩ := (h.mem_parse hc).mp hq
    rw [he,hp] at hget
    cases hget
    simp [parses,he,hs',equal] at hparse

variable (hT : T.Keyed)
include hT

theorem missing_parsed (hp : c.statements name = some p) (hs : T.statements name ≠ some p) :
    p ∈ order.toParse T ∧ p.destination = name := by
  have hn : p.destination = name := hc name p hp
  subst hn
  refine ⟨(h.mem_parse hc).mpr ⟨hp,?_⟩,rfl⟩
  unfold parses
  split
  · rename_i q hq
    rw [Bool.not_eq_true',← Bool.not_eq_true,preparedStatementsEqual_iff (hT _ q hq).symm]
    exact fun he => hs (he ▸ hq)
  · rfl

/-- A statement of the server that the client does not have is closed, or has no name and is overwritten. -/
theorem closed_or_overwritten (hs : c.statements name ≠ T.statements name)
    (hname : name ≠ [] ∨ c.statements name = none) : T.statements.closeAll (order.toClose c) name = none := by
  rcases hq : T.statements name with _ | q
  · exact Statements.closeAll_none hq
  · refine Statements.closeAll_mem (h.mem_close.mpr ⟨q,hq,?_⟩)
    rw [hq] at hs
    unfold closes
    split
    · rename_i p hp
      have differ : preparedStatementsEqual q p = false := by
        rw [← Bool.not_eq_true,preparedStatementsEqual_iff ((hT name q hq).trans (hc name p hp).symm)]
        exact fun he => hs (he ▸ hp)
      have named : name ≠ [] := hname.resolve_right fun hnone => by simp [State.statements,hp] at hnone
      simp [differ,named]
    · rfl

theorem parse_free (hp : p ∈ order.toParse T) (hn : p.destination ≠ []) :
    T.statements.closeAll (order.toClose c) p.destination = none := by
  obtain ⟨hget,hparse⟩ := (h.mem_parse hc).mp hp
  refine h.closed_or_overwritten hc hT (fun he => ?_) (.inl hn)
  rw [hget] at he
  have hs : T.preparedStatements.get p.destination = some p := he.symm
  simp [parses,hs,preparedStatementsEqual] at hparse

theorem converges : (T.statements.closeAll (order.toClose c)).putAll (order.toParse T) = c.statements := by
  funext name
  have nodup := h.parse_nodup hc
  rcases hp : c.statements name with _ | p
  · have unparsed : ∀ q ∈ order.toParse T, q.destination ≠ name := fun q hq he => by
      have := ((h.mem_parse hc).mp hq).1
      rw [he,hp] at this
      cases this
    rw [Statements.putAll_not_mem unparsed]
    by_cases hs : T.statements name = none
    · exact Statements.closeAll_none hs
    · exact h.closed_or_overwritten hc hT (by rw [hp]; exact fun he => hs he.symm) (.inr hp)
  · by_cases hs : T.statements name = some p
    · obtain ⟨unclosed,unparsed⟩ := h.equal_kept hc hs hp
      rw [Statements.putAll_not_mem unparsed,Statements.closeAll_not_mem unclosed,hs]
    · obtain ⟨hmem,rfl⟩ := h.missing_parsed hc hT hp hs
      exact Statements.putAll_mem nodup hmem

end Order.Of

def Message.about (name : GoString) (m : Message) : Prop := m = .close 0x53 name ∨ ∃ p, m = .parse p ∧ p.destination = name

variable {order : Order} {c T : State}

theorem about_messages {name : GoString} {m : Message} (hm : m ∈ order.messages c T)
    (ha : m.about name) : ⟨.preparedStatement,name⟩ ∈ order.toClose c ∨ ∃ p ∈ order.toParse T, p.destination = name := by
  rcases List.mem_append.mp hm with hm | hm
  · rcases List.mem_append.mp hm with hm | hm
    · obtain ⟨⟨_ | _,target⟩,hmem,rfl⟩ := List.mem_map.mp hm
      · rcases ha with ha | ⟨p,hp,_⟩
        · cases ha
          exact .inl hmem
        · cases hp
      · rcases ha with ha | ⟨p,hp,_⟩
        · cases ha
        · cases hp
    · obtain ⟨p,hmem,rfl⟩ := List.mem_map.mp hm
      rcases ha with ha | ⟨q,hq,hn⟩
      · cases ha
      · cases hq
        exact .inr ⟨p,hmem,hn⟩
  · obtain ⟨b,_,rfl⟩ := List.mem_map.mp hm
    rcases ha with ha | ⟨p,hp,_⟩
    · cases ha
    · cases hp

/-- With the client's statements on the server, no portal there and none to bind, there is nothing to send. -/
theorem messages_nil (h : order.Of c T) (hc : c.Keyed)
    (hS : T.statements = c.statements) (hportals : ∀ name, T.portals.get name = none)
    (hbinds : ∀ name, c.portals.get name = none) : order.messages c T = [] := by
  have hclose : order.toClose c = [] := by
    refine List.eq_nil_iff_forall_not_mem.mpr fun x hx => ?_
    rcases x with ⟨_ | _,name⟩
    · obtain ⟨p,hp,_⟩ := h.mem_close.mp hx
      exact (h.equal_kept hc hp (hS ▸ hp)).1 hx
    · rw [Order.toClose,h.serverPortals.eq_nil hportals] at hx
      simp at hx
  have hparse : order.toParse T = [] := by
    refine List.eq_nil_iff_forall_not_mem.mpr fun p hp => ?_
    have hget := ((h.mem_parse hc).mp hp).1
    exact (h.equal_kept hc (hS ▸ hget) hget).2 p hp rfl
  have hbind : order.toBind = [] := by
    rw [Order.toBind,h.clientPortals.eq_nil hbinds]
    rfl
  rw [Order.messages,hclose,hparse,hbind]
  rfl

variable {react : Message → Outcome}

theorem accepts (h : ∀ which name, (react (.close which name)).ok = true) (x : Close) :
    (react x.message).ok = true := by
  rcases x with ⟨_ | _,name⟩
  · exact h 0x53 name
  · exact h 0x50 name

theorem syncMiddleware_accepted {s : System} (hc : c.Keyed)
    (hs : s.Accurate) (ho : order.Of c s.tracker) (hclose : ∀ x : Close, (react x.message).ok = true)
    (hparse : ∀ p ∈ order.toParse s.tracker, (react (.parse p)).ok = true) :
    ∃ s', syncMiddleware react order c s = some s' ∧ s'.pg.statements = c.statements ∧
      s'.tracker.statements = c.statements ∧
      ((∀ name, c.portals.get name = none) → ∀ name, s'.tracker.portals.get name = none) := by
  have converges := ho.converges hc hs.keyed
  unfold syncMiddleware
  split
  · rename_i hnil
    obtain ⟨hrest,_⟩ := List.append_eq_nil_iff.mp hnil
    obtain ⟨hcs,hps⟩ := List.append_eq_nil_iff.mp hrest
    rw [List.map_eq_nil_iff.mp hcs,List.map_eq_nil_iff.mp hps] at converges
    refine ⟨s,rfl,hs.agrees ▸ converges,converges,fun _ name => ?_⟩
    refine Option.eq_none_iff_forall_ne_some.mpr fun b hb => ?_
    have := ho.mem_closePortal hb
    rw [List.map_eq_nil_iff.mp hcs] at this
    cases this
  · obtain ⟨hparses,hbinds,hcloses⟩ := hs.settled
    have free : ∀ p ∈ order.toParse s.tracker, p.destination ≠ [] →
        s.pg.statements.closeAll (order.toClose c) p.destination = none := fun p hp hn =>
      hs.agrees ▸ ho.parse_free hc hs.keyed hp hn
    obtain ⟨pg',as,state,S,served,hS,has⟩ := s.pg.serveAll_accepted hs.quiet.2.2 (order.toClose c)
      (order.toParse s.tracker) order.toBind (fun x _ => hclose x) hparse (ho.parse_nodup hc) free
    have written := s.tracker.writeAll_messages (order.toClose c) (order.toParse s.tracker) order.toBind
    rw [hparses,hbinds,hcloses,List.nil_append,List.nil_append,List.nil_append] at written
    obtain ⟨T',hread,hT,hportals⟩ := State.readReady_accepted (T := { s.tracker with
      pendingCloses := order.toClose c
      pendingPreparedStatements := order.toParse s.tracker
      pendingPortals := order.toBind }) state S rfl rfl has
    refine ⟨{ s with tracker := T', pg := pg', answers := [] },?_,?_,hT.trans converges,fun hnone => ?_⟩
    · rw [Order.messages,written,Option.bind_some,served,Option.bind_some,hs.quiet.2.1,List.nil_append,hread,
        Option.map_some]
    · rw [hS,← hs.agrees]
      exact converges
    · refine hportals ?_ fun name b hb => ho.mem_closePortal hb
      rw [Order.toBind,ho.clientPortals.eq_nil hnone]
      rfl

/-- A sync with a server that accepts every `Parse` and `Close` leaves the server with the client's statements, and
the middleware knows them. Nothing is sent about a statement that is the same on both sides, and nothing at all by a
second sync of a client without portals. -/
theorem sync_reaches_client {react : Message → Outcome} {order : Order} {c : State} {s : System} (hc : c.Keyed)
    (hs : s.Accurate) (ho : order.Of c s.tracker) (hclose : ∀ which name, (react (.close which name)).ok = true)
    (hparse : ∀ p, (react (.parse p)).ok = true) :
    ∃ s', syncMiddleware react order c s = some s' ∧ s'.pg.statements = c.statements ∧
      s'.tracker.statements = c.statements ∧
      (∀ name p, s.tracker.statements name = some p → c.statements name = some p →
        ∀ m ∈ order.messages c s.tracker, ¬ m.about name) ∧
      ((∀ name, c.portals.get name = none) → ∀ order' : Order, order'.Of c s'.tracker →
        order'.messages c s'.tracker = []) := by
  obtain ⟨s',hsync,hreal,htracked,hportals⟩ := syncMiddleware_accepted hc hs ho (accepts hclose) fun p _ => hparse p
  refine ⟨s',hsync,hreal,htracked,fun name p hp hp' m hm hab => ?_,fun hnone order' ho' => ?_⟩
  · obtain ⟨unclosed,unparsed⟩ := ho.equal_kept hc hp hp'
    rcases about_messages hm hab with hmem | ⟨q,hq,hn⟩
    · exact unclosed hmem
    · exact unparsed q hq hn
  · exact messages_nil ho' hc htracked (hportals hnone) hnone

def holding (p : Parse) : State := { preparedStatements := AList.insert p.destination p ∅ }

private theorem holding_keyed (p : Parse) : (holding p).Keyed := by
  intro name q hq
  simp only [holding,Map.get_insert,Map.get_empty] at hq
  split at hq
  · cases hq
    exact Eq.symm ‹_›
  · cases hq

private theorem holding_ranges (p : Parse) : (holding p).preparedStatements.Ranges [(p.destination,p)] :=
  Map.ranges_empty.insert rfl p

def selectOne : Parse := ⟨[97],ascii ['S', 'E', 'L', 'E', 'C', 'T', ' ', '1'],[]⟩

def selectTwo : Parse := ⟨[97],ascii ['S', 'E', 'L', 'E', 'C', 'T', ' ', '2'],[23]⟩

/-- The server has another statement under the name of the client's. -/
theorem sync_reaches_client_changed :
    ∃ s', syncMiddleware (fun _ => {}) ⟨[],[([97],selectTwo)],[([97],selectOne)],[]⟩ (holding selectOne)
        { tracker := holding selectTwo, pg := { statements := (holding selectTwo).statements } } = some s' ∧
      s'.pg.statements = (holding selectOne).statements := by
  obtain ⟨s',hsync,hreal,_⟩ : ∃ s', syncMiddleware (fun _ => {}) ⟨[],[([97],selectTwo)],[([97],selectOne)],[]⟩
      (holding selectOne) { tracker := holding selectTwo, pg := { statements := (holding selectTwo).statements } } = some s' ∧
      s'.pg.statements = (holding selectOne).statements ∧ _ :=
    sync_reaches_client (holding_keyed selectOne) ⟨⟨rfl,rfl,rfl⟩,⟨rfl,rfl,rfl⟩,holding_keyed selectTwo,rfl⟩
      ⟨Map.ranges_empty,holding_ranges selectTwo,holding_ranges selectOne,Map.ranges_empty⟩ (fun _ _ => rfl) (fun _ => rfl)
  exact ⟨s',hsync,hreal⟩

end Pggat.Eqp
