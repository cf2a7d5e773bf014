import Pggat.Eqp.Convergence

/-! A `Parse` of a sync that the server rejects. The server discards what comes behind it up to the `Sync`. -/
namespace Pggat.Eqp
open Pggat.Base

variable {S : Statements} {name : GoString} {p : Parse}

theorem Statements.closeAll_some {cs : List Close}
    (h : S.closeAll cs name = some p) : S name = some p := by
  by_cases hmem : ⟨.preparedStatement,name⟩ ∈ cs
  · rw [closeAll_mem hmem] at h
    cases h
  · rwa [closeAll_not_mem hmem] at h

variable {pg : Postgres}

theorem Postgres.makeRoom_ne (h : name ≠ p.destination) :
    (pg.makeRoom p).statements name = pg.statements name := by
  unfold Postgres.makeRoom
  split
  · rename_i hd
    exact Statements.drop_ne (hd ▸ h)
  · rfl

theorem State.readReady_some (T : State) (as : List Answer) (state : UInt8) (S : Statements) :
    ∃ r, T.readReady (as ++ [.readyForQuery state S]) = some r := by
  induction as generalizing T with
  | nil => exact ⟨_,rfl⟩
  | cons a as ih =>
    cases a with
    | readyForQuery state S => exact ⟨_,rfl⟩
    | _ => exact ih _

variable {react : Message → Outcome} {acc : List Parse}

theorem Postgres.serveAll_rejected (pg : Postgres) (hk : pg.skipping = false)
    (cs : List Close) (rest : List Parse) (bs : List Bind) (hcs : ∀ c ∈ cs, (react c.message).ok = true)
    (hacc : ∀ q ∈ acc, (react (.parse q)).ok = true) (hp : (react (.parse p)).ok = false)
    (hd : (acc.map Parse.destination).Nodup)
    (hfree : ∀ q ∈ acc, q.destination ≠ [] → pg.statements.closeAll cs q.destination = none) :
    ∃ (pg₁ pg' : Postgres) (as : List Answer) (state : UInt8) (S : Statements),
      pg.serveAll react (cs.map Close.message ++ (acc ++ p :: rest).map .parse ++ bs.map .bind ++ [.sync]) =
        some (pg',as ++ [.readyForQuery state S]) ∧
      pg₁.statements = (pg.statements.closeAll cs).putAll acc ∧ pg'.statements = (pg₁.makeRoom p).statements := by
  let accepted : Postgres := { pg with statements := (pg.statements.closeAll cs).putAll acc }
  have closed := serveAll_closes pg hk hcs
  have parsed := serveAll_parses { pg with statements := pg.statements.closeAll cs } hk hacc hd hfree
  have rejected : accepted.serve (react (.parse p)) (.parse p) = some (_,[.error]) := serve_rejected hk hp
  have skipped : serveAll react { accepted.makeRoom p with skipping := true } (rest.map .parse ++ bs.map .bind) =
      some (_,[]) := serveAll_skipped rfl (by simp)
  have order : cs.map Close.message ++ (acc ++ p :: rest).map .parse ++ bs.map .bind ++ [.sync] =
      cs.map Close.message ++ (acc.map .parse ++ .parse p :: (rest.map .parse ++ bs.map .bind)) ++ [.sync] := by simp
  rw [order]
  exact ⟨accepted,_,_,_,_,serveAll_append
    (serveAll_append closed (serveAll_append parsed (serveAll_cons rejected skipped))) serveAll_sync,rfl,rfl⟩

/-- Of a list split at its first element in `P`, all behind that one are in `P` if nothing else follows one. -/
theorem pairwise_split {α : Type} {P : α → Bool} {acc rest : List α} {p : α} (hacc : ∀ a ∈ acc, P a = false)
    (hp : P p = true) :
    ((acc ++ p :: rest).Pairwise fun a b => P a = true → P b = true) ↔ ∀ b ∈ rest, P b = true := by
  have skip : ∀ a ∈ acc, ∀ b, P a = true → P b = true := fun a ha b h => by
    rw [hacc a ha] at h
    cases h
  rw [List.pairwise_append,List.pairwise_cons]
  constructor
  · exact fun h b hb => h.2.1.1 b hb hp
  · exact fun h => ⟨List.pairwise_of_forall_mem_list fun a ha b _ => skip a ha b,
      ⟨fun b hb _ => h b hb,List.pairwise_of_forall_mem_list fun _ _ b hb _ => h b hb⟩,fun a ha b _ => skip a ha b⟩

variable {order : Order} {c : State}

/-- What was accepted before the first rejection is on the server, and what is behind it is not. -/
theorem rejected_statements {T : State} (ho : order.Of c T) (hc : c.Keyed) (hT : T.Keyed)
    {rest : List Parse} (hps : order.toParse T = acc ++ p :: rest)
    (hpg : pg.statements = (T.statements.closeAll (order.toClose c)).putAll acc) {q : Parse}
    (hq : c.statements name = some q) : (pg.makeRoom p).statements name = some q ↔ q ≠ p ∧ q ∉ rest := by
  have nodup := ho.parse_nodup hc
  have hmem : ∀ x, x ∈ order.toParse T ↔ x ∈ acc ∨ x = p ∨ x ∈ rest := by simp [hps]
  rw [hps,List.map_append,List.map_cons] at nodup
  obtain ⟨hacc,hrest,apart⟩ := List.nodup_append.mp nodup
  have apart_p : ∀ x ∈ acc, x.destination ≠ p.destination := fun x hx =>
    apart _ (List.mem_map_of_mem hx) _ List.mem_cons_self
  have apart_rest : ∀ x ∈ acc, ∀ y ∈ rest, x.destination ≠ y.destination := fun x hx y hy =>
    apart _ (List.mem_map_of_mem hx) _ (List.mem_cons_of_mem _ (List.mem_map_of_mem hy))
  have rest_p : ∀ y ∈ rest, y.destination ≠ p.destination := fun y hy he =>
    (List.nodup_cons.mp hrest).1 (he ▸ List.mem_map_of_mem hy)
  by_cases hs : T.statements name = some q
  · obtain ⟨unclosed,unparsed⟩ := ho.equal_kept hc hs hq
    have hn : q.destination = name := hc name q hq
    rw [Postgres.makeRoom_ne (unparsed p ((hmem p).mpr (.inr (.inl rfl)))).symm,hpg,
      Statements.putAll_not_mem fun x hx => unparsed x ((hmem x).mpr (.inl hx)),Statements.closeAll_not_mem unclosed]
    refine ⟨fun _ => ⟨fun he => ?_,fun hr => ?_⟩,fun _ => hs⟩
    · exact unparsed p ((hmem p).mpr (.inr (.inl rfl))) (he ▸ hn)
    · exact unparsed q ((hmem q).mpr (.inr (.inr hr))) hn
  · obtain ⟨hparsed,rfl⟩ := ho.missing_parsed hc hT hq hs
    rcases (hmem q).mp hparsed with hq' | rfl | hq'
    · rw [Postgres.makeRoom_ne (apart_p q hq'),hpg,Statements.putAll_mem hacc hq']
      refine ⟨fun _ => ⟨fun he => ?_,fun hr => ?_⟩,fun _ => rfl⟩
      · exact apart_p q hq' (he ▸ rfl)
      · exact apart_rest q hq' q hr rfl
    · refine iff_of_false ?_ fun h => h.1 rfl
      have absent : (pg.makeRoom q).statements q.destination = none := Postgres.makeRoom_absent fun hn => by
        rw [hpg,Statements.putAll_not_mem apart_p]
        exact ho.parse_free hc hT hparsed hn
      simp [absent]
    · refine iff_of_false (fun he => ?_) fun h => h.2 hq'
      rw [Postgres.makeRoom_ne (rest_p q hq'),hpg,
        Statements.putAll_not_mem fun x hx => apart_rest x hx q hq'] at he
      exact hs (Statements.closeAll_some he)

private theorem syncMiddleware_served {s : System} (hs : s.Accurate)
    {pg' : Postgres} {as : List Answer} {state : UInt8}
    (hne : order.messages c s.tracker ≠ [])
    (served : s.pg.serveAll react (order.messages c s.tracker ++ [.sync]) = some (pg',as ++ [.readyForQuery state S])) :
    ∃ s', syncMiddleware react order c s = some s' ∧ s'.pg = pg' := by
  have written := s.tracker.writeAll_messages (order.toClose c) (order.toParse s.tracker) order.toBind
  obtain ⟨r,hr⟩ := State.readReady_some { s.tracker with
    pendingCloses := s.tracker.pendingCloses ++ order.toClose c
    pendingPreparedStatements := s.tracker.pendingPreparedStatements ++ order.toParse s.tracker
    pendingPortals := s.tracker.pendingPortals ++ order.toBind } as state S
  refine ⟨{ s with tracker := r.1, pg := pg', answers := r.2 },?_,rfl⟩
  unfold syncMiddleware
  rw [if_neg hne,show s.tracker.writeAll (order.messages c s.tracker ++ [.sync]) = some _ from written,Option.bind_some,
    served,Option.bind_some,hs.quiet.2.1,List.nil_append,hr,Option.map_some]

/-- The statements outside of a set that the server rejects are on the server after a sync just if, in the order in
which the client's statements are parsed, none of them comes behind one of the set. -/
theorem sync_spares_iff {react : Message → Outcome} {order : Order} {c : State} {s : System} {rejects : GoString → Bool}
    (hc : c.Keyed) (hs : s.Accurate) (ho : order.Of c s.tracker)
    (hclose : ∀ which name, (react (.close which name)).ok = true)
    (hparse : ∀ p, (react (.parse p)).ok = !rejects p.destination) :
    ∃ s', syncMiddleware react order c s = some s' ∧
      ((∀ name p, c.statements name = some p → rejects name = false → s'.pg.statements name = some p) ↔
        (order.toParse s.tracker).Pairwise fun p q => rejects p.destination = true → rejects q.destination = true) := by
  have accepted := accepts hclose
  rcases hfind : (order.toParse s.tracker).find? fun p => rejects p.destination with _ | p
  · have spared : ∀ p ∈ order.toParse s.tracker, rejects p.destination = false := by
      simpa using List.find?_eq_none.mp hfind
    obtain ⟨s',hsync,hreal,_⟩ := syncMiddleware_accepted hc hs ho accepted fun p hp => by rw [hparse,spared p hp]; rfl
    refine ⟨s',hsync,iff_of_true (fun name p hp _ => hreal ▸ hp) ?_⟩
    refine List.pairwise_of_forall_mem_list fun p hp q hq h => ?_
    rw [spared p hp] at h
    cases h
  · obtain ⟨hp,acc,rest,hps,hacc⟩ := List.find?_eq_some_iff_append.mp hfind
    have hacc : ∀ q ∈ acc, rejects q.destination = false := by simpa using hacc
    have nodup := ho.parse_nodup hc
    have hmem : ∀ q ∈ rest, q ∈ order.toParse s.tracker := by simp +contextual [hps]
    have free : ∀ q ∈ acc, q.destination ≠ [] →
        s.pg.statements.closeAll (order.toClose c) q.destination = none := fun q hq hn =>
      hs.agrees ▸ ho.parse_free hc hs.keyed (by simp [hps,hq]) hn
    rw [hps,List.map_append] at nodup
    obtain ⟨pg₁,pg',as,state,S,served,hpg₁,hpg⟩ := s.pg.serveAll_rejected hs.quiet.2.2 (order.toClose c) rest
      order.toBind (fun x _ => accepted x) (fun q hq => by rw [hparse,hacc q hq]; rfl) (by rw [hparse,hp]; rfl)
      (List.nodup_append.mp nodup).1 free
    rw [← hps] at served
    obtain ⟨s',hsync,rfl⟩ := syncMiddleware_served hs (by simp [Order.messages,hps]) served
    refine ⟨s',hsync,?_⟩
    rw [hps,pairwise_split (P := fun p : Parse => rejects p.destination) hacc hp,hpg]
    rw [← hs.agrees] at hpg₁
    constructor
    · intro spared q hq
      by_contra hr
      have hget := ((ho.mem_parse hc).mp (hmem q hq)).1
      exact ((rejected_statements ho hc hs.keyed hps hpg₁ hget).mp (spared _ q hget (by simpa using hr))).2 hq
    · intro behind name q hq hr
      have hn : q.destination = name := hc name q hq
      subst hn
      refine (rejected_statements ho hc hs.keyed hps hpg₁ hq).mpr ⟨fun he => ?_,fun hq' => ?_⟩
      · rw [he] at hr
        exact Bool.false_ne_true (hr.symm.trans hp)
      · exact Bool.false_ne_true (hr.symm.trans (behind q hq'))

def selectThree : Parse := ⟨[98],ascii ['S', 'E', 'L', 'E', 'C', 'T', ' ', '3'],[]⟩

def twoStatements : State := { preparedStatements := AList.insert [97] selectOne (AList.insert [98] selectThree ∅) }

def rejectsA (name : GoString) : Bool := name = [97]

def reactA : Message → Outcome
  | .parse p => { ok := !rejectsA p.destination }
  | _ => {}

private theorem twoStatements_keyed : twoStatements.Keyed := by
  intro name p hp
  simp only [twoStatements,Map.get_insert,Map.get_empty] at hp
  split at hp
  · cases hp
    exact Eq.symm ‹_›
  · split at hp
    · cases hp
      exact Eq.symm ‹_›
    · cases hp

theorem twoStatements_ranges : twoStatements.preparedStatements.Ranges [([97],selectOne),([98],selectThree)] :=
  (Map.ranges_empty.insert rfl selectThree).insert rfl selectOne

private theorem accurate_start : System.Accurate {} :=
  ⟨⟨rfl,rfl,rfl⟩,⟨rfl,rfl,rfl⟩,(fun _ _ hp => by cases hp),rfl⟩

theorem sync_spares_dropped :
    ∃ s', syncMiddleware reactA ⟨[],[],[([97],selectOne),([98],selectThree)],[]⟩ twoStatements {} = some s' ∧
      ((∀ name p, twoStatements.statements name = some p → rejectsA name = false → s'.pg.statements name = some p) ↔
        [selectOne,selectThree].Pairwise fun p q => rejectsA p.destination = true → rejectsA q.destination = true) :=
  sync_spares_iff twoStatements_keyed accurate_start
    ⟨Map.ranges_empty,Map.ranges_empty,twoStatements_ranges,Map.ranges_empty⟩ (fun _ _ => rfl) fun _ => rfl

/-- The server rejects `a`, and `b` behind it is not parsed. -/
theorem sync_loses_neighbour :
    Order.Of ⟨[],[],[([97],selectOne),([98],selectThree)],[]⟩ twoStatements {} ∧
    twoStatements.statements [98] = some selectThree ∧ rejectsA [98] = false ∧
    ∃ s', syncMiddleware reactA ⟨[],[],[([97],selectOne),([98],selectThree)],[]⟩ twoStatements {} = some s' ∧
      s'.pg.statements [98] = none :=
  ⟨⟨Map.ranges_empty,Map.ranges_empty,twoStatements_ranges,Map.ranges_empty⟩,rfl,rfl,_,rfl,rfl⟩

end Pggat.Eqp
