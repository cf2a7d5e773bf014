import Pggat.Eqp.Sync

/-! The packets of a sync on their way: what the server makes of them and what the middleware reads. -/
namespace Pggat.Eqp
open Pggat.Base

namespace Postgres
variable {react : Message → Outcome} {pg pg₁ pg₂ : Postgres}

variable {ms : List Message} {as as' : List Answer}

theorem serveAll_append {ms' : List Message} (h : pg.serveAll react ms = some (pg₁,as))
    (h' : pg₁.serveAll react ms' = some (pg₂,as')) : pg.serveAll react (ms ++ ms') = some (pg₂,as ++ as') := by
  induction ms generalizing pg as with
  | nil =>
    cases h
    exact h'
  | cons m ms ih =>
    obtain ⟨r,hr,h⟩ := Option.bind_eq_some_iff.mp h
    obtain ⟨t,ht,he⟩ := Option.map_eq_some_iff.mp h
    cases he
    rw [List.cons_append,serveAll,hr,Option.bind_some,ih ht,Option.map_some,List.append_assoc]

variable {m : Message}

theorem serveAll_cons
    (h : pg.serve (react m) m = some (pg₁,as)) (h' : pg₁.serveAll react ms = some (pg₂,as')) :
    pg.serveAll react (m :: ms) = some (pg₂,as ++ as') := by
  rw [serveAll,h,Option.bind_some,h',Option.map_some]

variable {o : Outcome}

theorem serve_eq (hk : pg.skipping = false) : pg.serve o m = pg.handle o m := by
  rw [serve,if_neg fun h => by simp [hk] at h]

theorem attempt_ok {S : Statements} (ho : o.ok = true) :
    pg.attempt o S as = ({ pg with statements := S },as) := if_pos ho

private theorem serve_close {c : Close} (hk : pg.skipping = false) (ho : (react c.message).ok = true) :
    pg.serve (react c.message) c.message = some ({ pg with statements := pg.statements.close c },[.closeComplete c]) := by
  rw [serve_eq hk]
  rcases c with ⟨_ | _,name⟩
  · exact congrArg some (attempt_ok ho)
  · exact congrArg some (attempt_ok ho)

theorem serveAll_closes (pg : Postgres) (hk : pg.skipping = false) {cs : List Close} (ho : ∀ c ∈ cs, (react c.message).ok = true) :
    pg.serveAll react (cs.map Close.message) =
      some ({ pg with statements := pg.statements.closeAll cs },cs.map .closeComplete) := by
  induction cs generalizing pg with
  | nil => rfl
  | cons c cs ih =>
    exact serveAll_cons (serve_close hk (ho c List.mem_cons_self))
      (ih { pg with statements := pg.statements.close c } hk fun d hd => ho d (List.mem_cons_of_mem _ hd))

variable {p : Parse}

theorem makeRoom_absent (hfree : p.destination ≠ [] → pg.statements p.destination = none) :
    (pg.makeRoom p).statements p.destination = none := by
  unfold makeRoom
  split
  · rename_i hd
    rw [hd]
    show pg.statements.drop [] [] = none
    exact Statements.drop_self
  · rename_i hd
    exact hfree hd

private theorem serve_parse (hk : pg.skipping = false) (ho : (react (.parse p)).ok = true)
    (hfree : p.destination ≠ [] → pg.statements p.destination = none) :
    pg.serve (react (.parse p)) (.parse p) = some ({ pg with statements := pg.statements.put p },[.parseComplete p]) := by
  rw [serve_eq hk,handle,parse,if_neg (by simp [makeRoom_absent hfree]),attempt_ok ho,makeRoom_put]
  unfold makeRoom
  split <;> rfl

theorem serveAll_parses (pg : Postgres) (hk : pg.skipping = false) {ps : List Parse} (ho : ∀ p ∈ ps, (react (.parse p)).ok = true)
    (hd : (ps.map Parse.destination).Nodup)
    (hfree : ∀ p ∈ ps, p.destination ≠ [] → pg.statements p.destination = none) :
    pg.serveAll react (ps.map .parse) =
      some ({ pg with statements := pg.statements.putAll ps },ps.map .parseComplete) := by
  induction ps generalizing pg with
  | nil => rfl
  | cons p ps ih =>
    rw [List.map_cons,List.nodup_cons] at hd
    refine serveAll_cons (serve_parse hk (ho p List.mem_cons_self) (hfree p List.mem_cons_self))
      (ih { pg with statements := pg.statements.put p } hk (fun q hq => ho q (List.mem_cons_of_mem _ hq)) hd.2 ?_)
    intro q hq hne
    have other : q.destination ≠ p.destination := fun he => hd.1 (he ▸ List.mem_map_of_mem hq)
    exact (Statements.put_ne other).trans (hfree q (List.mem_cons_of_mem _ hq) hne)

theorem serve_rejected (hk : pg.skipping = false) (ho : (react (.parse p)).ok = false) :
    pg.serve (react (.parse p)) (.parse p) = some ({ pg.makeRoom p with skipping := true },[.error]) := by
  rw [serve_eq hk,handle,parse,if_neg (by simp [ho]),attempt,if_neg (by simp [ho])]
  rfl

theorem serveAll_skipped (hk : pg.skipping = true) (hs : .sync ∉ ms) :
    pg.serveAll react ms = some (pg,[]) := by
  induction ms with
  | nil => rfl
  | cons m ms ih =>
    rw [List.mem_cons,not_or] at hs
    exact serveAll_cons (if_pos ⟨hk,fun he => hs.1 he.symm⟩) (ih hs.2)

private theorem serveAll_binds (react : Message → Outcome) (pg : Postgres) (bs : List Bind) :
    ∃ pg' as, pg.serveAll react (bs.map .bind) = some (pg',as) ∧ pg'.statements = pg.statements ∧
      ∀ a ∈ as, a = .bindComplete ∨ a = .error := by
  induction bs generalizing pg with
  | nil => exact ⟨pg,[],rfl,rfl,by simp⟩
  | cons b bs ih =>
    by_cases hk : pg.skipping = true
    · exact ⟨pg,[],serveAll_skipped hk (by simp),rfl,by simp⟩
    · have hs : pg.serve (react (.bind b)) (.bind b) = some (pg.attempt (react (.bind b)) pg.statements [.bindComplete]) :=
        serve_eq (by simpa using hk)
      have hkeep : (pg.attempt (react (.bind b)) pg.statements [.bindComplete]).1.statements = pg.statements ∧
          ∀ a ∈ (pg.attempt (react (.bind b)) pg.statements [.bindComplete]).2, a = .bindComplete ∨ a = .error := by
        unfold attempt fail
        split <;> simp
      obtain ⟨pg',as,hr,hS,has⟩ := ih (pg.attempt (react (.bind b)) pg.statements [.bindComplete]).1
      refine ⟨pg',_,serveAll_cons hs hr,hS.trans hkeep.1,fun a ha => ?_⟩
      exact (List.mem_append.mp ha).elim (hkeep.2 a) (has a)

theorem serveAll_sync : pg.serveAll react [.sync] =
    some ({ pg with skipping := false },[.readyForQuery (react .sync).state pg.statements]) := by
  have hs : pg.serve (react .sync) .sync = some (pg.sync (react .sync)) := if_neg (by simp)
  exact serveAll_cons hs rfl

theorem serveAll_accepted (pg : Postgres) (hk : pg.skipping = false) (cs : List Close) (ps : List Parse)
    (bs : List Bind) (hcs : ∀ c ∈ cs, (react c.message).ok = true) (hps : ∀ p ∈ ps, (react (.parse p)).ok = true)
    (hd : (ps.map Parse.destination).Nodup)
    (hfree : ∀ p ∈ ps, p.destination ≠ [] → pg.statements.closeAll cs p.destination = none) :
    ∃ pg' as state S, pg.serveAll react (cs.map Close.message ++ ps.map .parse ++ bs.map .bind ++ [.sync]) =
        some (pg',cs.map .closeComplete ++ ps.map .parseComplete ++ as ++ [.readyForQuery state S]) ∧
      pg'.statements = (pg.statements.closeAll cs).putAll ps ∧ ∀ a ∈ as, a = .bindComplete ∨ a = .error := by
  have closed := serveAll_closes pg hk hcs
  have parsed := serveAll_parses { pg with statements := pg.statements.closeAll cs } hk hps hd hfree
  obtain ⟨pg',as,bound,hS,has⟩ := serveAll_binds react
    { pg with statements := (pg.statements.closeAll cs).putAll ps } bs
  exact ⟨_,as,_,_,serveAll_append (serveAll_append (serveAll_append closed parsed) bound) serveAll_sync,hS,has⟩

end Postgres

namespace State
variable {T : State}

theorem writeAll_cons {T' : State} {m : Message} (h : T.c2s m = some T') (ms : List Message) :
    T.writeAll (m :: ms) = T'.writeAll ms := by
  rw [writeAll,List.foldlM_cons,h]
  rfl

private theorem writeAll_closes (T : State) (cs : List Close) (rest : List Message) :
    T.writeAll (cs.map Close.message ++ rest) = writeAll { T with pendingCloses := T.pendingCloses ++ cs } rest := by
  induction cs generalizing T with
  | nil => rw [List.append_nil]; rfl
  | cons c cs ih =>
    have hc : T.c2s c.message = some (T.close c) := by
      rcases c with ⟨_ | _,name⟩ <;> rfl
    rw [List.map_cons,List.cons_append,writeAll_cons hc,ih,close,List.append_assoc]
    rfl

private theorem writeAll_parses (T : State) (ps : List Parse) (rest : List Message) :
    T.writeAll (ps.map .parse ++ rest) =
      writeAll { T with pendingPreparedStatements := T.pendingPreparedStatements ++ ps } rest := by
  induction ps generalizing T with
  | nil => rw [List.append_nil]; rfl
  | cons p ps ih =>
    rw [List.map_cons,List.cons_append,writeAll_cons (show T.c2s (.parse p) = some (T.parse p) from rfl),ih,parse,
      List.append_assoc]
    rfl

private theorem writeAll_binds (T : State) (bs : List Bind) (rest : List Message) :
    T.writeAll (bs.map .bind ++ rest) = writeAll { T with pendingPortals := T.pendingPortals ++ bs } rest := by
  induction bs generalizing T with
  | nil => rw [List.append_nil]; rfl
  | cons b bs ih =>
    rw [List.map_cons,List.cons_append,writeAll_cons (show T.c2s (.bind b) = some (T.bind b) from rfl),ih,bind,
      List.append_assoc]
    rfl

theorem writeAll_messages (T : State) (cs : List Close) (ps : List Parse) (bs : List Bind) :
    T.writeAll (cs.map Close.message ++ ps.map .parse ++ bs.map .bind ++ [.sync]) = some { T with
      pendingCloses := T.pendingCloses ++ cs
      pendingPreparedStatements := T.pendingPreparedStatements ++ ps
      pendingPortals := T.pendingPortals ++ bs } := by
  rw [List.append_assoc,List.append_assoc,writeAll_closes,writeAll_parses,writeAll_binds]
  rfl

variable {name : GoString} {cs : List Close}

private theorem closeComplete_portal (hp : T.pendingCloses = ⟨.portal,name⟩ :: cs) :
    T.closeComplete = { T with pendingCloses := cs, portals := T.portals.erase name } := by
  rw [closeComplete,hp]

private theorem closeComplete_statement
    (hp : T.pendingCloses = ⟨.preparedStatement,name⟩ :: cs) :
    T.closeComplete = { T with pendingCloses := cs, preparedStatements := T.preparedStatements.erase name } := by
  rw [closeComplete,hp]

theorem readReady_closes (cs : List Close) (rest : List Answer) (hp : T.pendingCloses = cs) :
    ∃ T' : State, T.readReady (cs.map .closeComplete ++ rest) = T'.readReady rest ∧
      T'.statements = T.statements.closeAll cs ∧
      (∀ name, T'.portals.get name = if ⟨.portal,name⟩ ∈ cs then none else T.portals.get name) ∧
      T'.pendingPreparedStatements = T.pendingPreparedStatements ∧ T'.pendingPortals = T.pendingPortals := by
  induction cs generalizing T with
  | nil => exact ⟨T,rfl,rfl,by simp,rfl,rfl⟩
  | cons c cs ih =>
    rcases c with ⟨_ | _,target⟩
    · have hc := closeComplete_statement hp
      obtain ⟨T',hr,hS,hportals,hpending⟩ := ih (T := T.closeComplete) (by rw [hc])
      refine ⟨T',hr,hS.trans ?_,fun name => (hportals name).trans ?_,?_⟩
      · rw [hc]
        refine congrArg (Statements.closeAll · cs) ?_
        funext n
        simp [statements,Statements.close,Statements.drop,Function.update_apply]
      · simp [hc]
      · rw [hc] at hpending
        exact hpending
    · have hc := closeComplete_portal hp
      obtain ⟨T',hr,hS,hportals,hpending⟩ := ih (T := T.closeComplete) (by rw [hc])
      refine ⟨T',hr,hS.trans ?_,fun name => (hportals name).trans ?_,?_⟩
      · rw [hc]
        rfl
      · rw [hc,Map.get_erase]
        by_cases hn : name = target
        · simp [hn]
        · simp [hn]
      · rw [hc] at hpending
        exact hpending

theorem readReady_parses (ps : List Parse) (rest : List Answer) (hp : T.pendingPreparedStatements = ps) :
    ∃ T' : State, T.readReady (ps.map .parseComplete ++ rest) = T'.readReady rest ∧
      T'.statements = T.statements.putAll ps ∧ T'.portals = T.portals ∧ T'.pendingPortals = T.pendingPortals := by
  induction ps generalizing T with
  | nil => exact ⟨T,rfl,rfl,rfl,rfl⟩
  | cons p ps ih =>
    have hc : T.parseComplete = { T with
        pendingPreparedStatements := ps
        preparedStatements := T.preparedStatements.insert p.destination p } := by
      rw [parseComplete,hp]
    obtain ⟨T',hr,hS,hportals,hpending⟩ := ih (T := T.parseComplete) (by rw [hc])
    rw [hc] at hportals hpending
    refine ⟨T',hr,hS.trans ?_,hportals,hpending⟩
    rw [hc]
    refine congrArg (Statements.putAll · ps) ?_
    funext n
    simp [statements,Statements.put,Function.update_apply]

private theorem bindComplete_statements : T.bindComplete.statements = T.statements := by
  unfold bindComplete
  split <;> rfl

private theorem bindComplete_none (h : T.pendingPortals = []) : T.bindComplete = T := by
  rw [bindComplete,h]

variable {as : List Answer}

private theorem readReady_binds (rest : List Answer) (has : ∀ a ∈ as, a = .bindComplete ∨ a = .error) :
    ∃ T' : State, T.readReady (as ++ rest) = T'.readReady rest ∧ T'.statements = T.statements ∧
      (T.pendingPortals = [] → T'.portals = T.portals) := by
  induction as generalizing T with
  | nil => exact ⟨T,rfl,rfl,fun _ => rfl⟩
  | cons a as ih =>
    have rest' := fun a ha => has a (List.mem_cons_of_mem _ ha)
    rcases has a List.mem_cons_self with rfl | rfl
    · obtain ⟨T',hr,hS,hportals⟩ := ih (T := T.bindComplete) rest'
      refine ⟨T',hr,hS.trans bindComplete_statements,fun h => ?_⟩
      rw [bindComplete_none h] at hportals
      exact hportals h
    · exact ih (T := T) rest'

private theorem readyForQuery_statements (state : UInt8) : (T.readyForQuery state).statements = T.statements := by
  unfold readyForQuery
  split <;> rfl

private theorem readyForQuery_portals (state : UInt8) (h : T.portals.get name = none) :
    (T.readyForQuery state).portals.get name = none := by
  unfold readyForQuery
  split
  · rfl
  · exact h

theorem readReady_accepted {ps : List Parse} (state : UInt8)
    (S : Statements) (hcs : T.pendingCloses = cs) (hps : T.pendingPreparedStatements = ps)
    (has : ∀ a ∈ as, a = .bindComplete ∨ a = .error) :
    ∃ T' : State, T.readReady (cs.map .closeComplete ++ ps.map .parseComplete ++ as ++ [.readyForQuery state S]) =
        some (T',[]) ∧ T'.statements = (T.statements.closeAll cs).putAll ps ∧
      (T.pendingPortals = [] → (∀ name b, T.portals.get name = some b → ⟨.portal,name⟩ ∈ cs) →
        ∀ name, T'.portals.get name = none) := by
  obtain ⟨T₁,hr₁,hS₁,hportals₁,hparses,hbinds₁⟩ :=
    T.readReady_closes cs (ps.map .parseComplete ++ (as ++ [.readyForQuery state S])) hcs
  obtain ⟨T₂,hr₂,hS₂,hportals₂,hbinds₂⟩ :=
    T₁.readReady_parses ps (as ++ [.readyForQuery state S]) (hparses.trans hps)
  obtain ⟨T₃,hr₃,hS₃,hportals₃⟩ := T₂.readReady_binds [.readyForQuery state S] has
  refine ⟨T₃.readyForQuery state,?_,?_,fun hb hall name => ?_⟩
  · rw [List.append_assoc,List.append_assoc,hr₁,hr₂,hr₃]
    rfl
  · rw [readyForQuery_statements,hS₃,hS₂,hS₁]
  · refine readyForQuery_portals state ?_
    rw [hportals₃ (by rw [hbinds₂, hbinds₁, hb]),hportals₂,hportals₁]
    split
    · rfl
    · rename_i hn
      refine Option.eq_none_iff_forall_ne_some.mpr fun b hget => hn (hall name b hget)

end State
end Pggat.Eqp
