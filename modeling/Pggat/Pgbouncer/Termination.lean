import Pggat.Pgbouncer.Lookup

/-! When a `lookup` that nothing interferes with ends. The lookup of an auth user whose password is to be queried needs
the auth user's pool again. -/
namespace Pggat.Pgbouncer
open Pggat.Base Pggat.Auth
open Pggat.Ps (Fold)
variable {fold : Fold} {cfg : Config fold} {answers : GoString → Answer} {T : Module fold} {c : Call fold}

namespace Next

def Final : Next fold → Prop
  | .goes _ _ => False
  | _ => True

def IsEnd : Next fold → Prop
  | .ends _ _ => True
  | _ => False

theorem IsEnd.final {r : Next fold} (h : r.IsEnd) : r.Final := by
  cases r with
  | goes _ _ => cases h
  | ends _ _ | blocks | panics _ => trivial

end Next

namespace Call

/-- The call comes to an end, be it a panic or a mutex that is never unlocked. -/
def Stops (cfg : Config fold) (answers : GoString → Answer) (T : Module fold) (c : Call fold) : Prop :=
  ∃ n, (c.run cfg answers n T).Final

/-- The call ends with a pool or a refusal. -/
def Ends (cfg : Config fold) (answers : GoString → Answer) (T : Module fold) (c : Call fold) : Prop :=
  ∃ n, (c.run cfg answers n T).IsEnd

/-- The call stops, and does so with a pool or a refusal exactly under a condition. -/
def Closes (cfg : Config fold) (answers : GoString → Answer) (T : Module fold) (c : Call fold) (P : Prop) : Prop :=
  ∃ n, (c.run cfg answers n T).Final ∧ ((c.run cfg answers n T).IsEnd ↔ P)

theorem run_goes {T' : Module fold} {c' : Call fold} (h : c.step cfg (answers c.user) T = .goes T' c') (n : Nat) :
    c.run cfg answers (n + 1) T = c'.run cfg answers n T' := by
  rw [run,h]

theorem run_final (h : (c.step cfg (answers c.user) T).Final) (n : Nat) :
    c.run cfg answers (n + 1) T = c.step cfg (answers c.user) T := by
  rw [run]
  cases hs : c.step cfg (answers c.user) T with
  | goes _ _ =>
    rw [hs] at h
    cases h
  | ends _ _ | blocks | panics _ => rfl

private theorem run_stable {n m : Nat} (hm : n ≤ m) (h : (c.run cfg answers n T).Final) :
    c.run cfg answers m T = c.run cfg answers n T := by
  induction n generalizing m T c with
  | zero => cases h
  | succ n ih =>
    obtain ⟨m,rfl⟩ : ∃ k, m = k + 1 := ⟨m - 1,by omega⟩
    cases hs : c.step cfg (answers c.user) T with
    | goes T' c' =>
      rw [run_goes hs] at h ⊢
      rw [run_goes hs]
      exact ih (by omega) h
    | ends _ _ | blocks | panics _ =>
      have hf : (c.step cfg (answers c.user) T).Final := by rw [hs]; trivial
      rw [run_final hf,run_final hf]

namespace Closes
variable {P Q : Prop}

theorem stops (h : Closes cfg answers T c P) : Stops cfg answers T c := by
  obtain ⟨n,hn,_⟩ := h
  exact ⟨n,hn⟩

theorem ends_iff (h : Closes cfg answers T c P) : Ends cfg answers T c ↔ P := by
  obtain ⟨n,hn,hP⟩ := h
  rw [← hP]
  refine ⟨fun ⟨m,hm⟩ => ?_,fun he => ⟨n,he⟩⟩
  rw [← run_stable (Nat.le_max_left n m) hn,run_stable (Nat.le_max_right n m) hm.final]
  exact hm

theorem goes {T' : Module fold} {c' : Call fold} (hs : c.step cfg (answers c.user) T = .goes T' c')
    (h : Closes cfg answers T' c' P) : Closes cfg answers T c P := by
  obtain ⟨n,hn,hP⟩ := h
  refine ⟨n + 1,?_,?_⟩
  · rwa [run_goes hs]
  · rwa [run_goes hs]

theorem final (hs : (c.step cfg (answers c.user) T).Final) (hP : (c.step cfg (answers c.user) T).IsEnd ↔ P) :
    Closes cfg answers T c P := by
  refine ⟨1,?_,?_⟩
  · rwa [run_final hs]
  · rwa [run_final hs]

theorem congr (h : Closes cfg answers T c P) (hPQ : P ↔ Q) : Closes cfg answers T c Q := by
  obtain ⟨n,hn,hP⟩ := h
  exact ⟨n,hn,hP.trans hPQ⟩

end Closes

theorem refused_closes (hc : c.stage = .returned none) : Closes cfg answers T c True := by
  obtain ⟨user,database,waiting,stage⟩ := c
  cases hc
  induction waiting generalizing user with
  | nil => exact .final trivial Iff.rfl
  | cons frame waiting ih => exact .goes rfl (ih frame.user)

variable {db : Database fold} {password : GoString}

private theorem lock_closes (hc : c.stage = .lock db password) :
    Closes cfg answers T c False := by
  obtain ⟨user,database,waiting,stage⟩ := c
  cases hc
  by_cases hmu : T.mu
  · have hs : step cfg (answers user) T ⟨user,database,waiting,.lock db password⟩ = .blocks := if_pos hmu
    refine .final ?_ ?_
    · rw [hs]
      trivial
    · rw [hs]
      exact Iff.rfl
  · have hs : step cfg (answers user) T ⟨user,database,waiting,.lock db password⟩ = .goes { T with mu := true }
        ⟨user,database,waiting,.store db { creds := fromString user password }⟩ := if_neg hmu
    exact .goes hs (.goes rfl (.final trivial Iff.rfl))

theorem create_closes (db : Database fold) (password : Option GoString) :
    Closes cfg answers T (c.create cfg db password) (password ≠ none → ¬ cfg.Pools db c.user) := by
  cases password with
  | none => exact (refused_closes rfl).congr (by simp)
  | some password =>
    by_cases hp : cfg.Pools db c.user
    · have hc : (c.create cfg db (some password)).stage = .lock db password := if_pos hp
      exact (lock_closes hc).congr (by simp [hp])
    · have hc : (c.create cfg db (some password)).stage = .returned none := if_neg hp
      exact (refused_closes hc).congr (by simp [hp])

variable {p : PoolAndCredentials}

theorem query_closes (hc : c.stage = .query db p) :
    Closes cfg answers T c
      (p.pool ≠ none ∧ ((answers c.user).password c.user ≠ none → ¬ cfg.Pools db c.user)) := by
  obtain ⟨user,database,waiting,stage⟩ := c
  cases hc
  obtain ⟨_ | a,creds⟩ := p
  · exact .final trivial ⟨False.elim,fun h => h.1 rfl⟩
  · exact .goes rfl ((create_closes db _).congr (by simp))

theorem tryCreate_closes (hc : c.stage = .tryCreate)
    (hdb : cfg.database c.database = some db) (hpw : cfg.pgBouncer.authFile.get c.user = some password) :
    Closes cfg answers T c (¬ cfg.Pools db c.user) := by
  obtain ⟨user,database,waiting,stage⟩ := c
  cases hc
  have hs : step cfg (answers user) T ⟨user,database,waiting,.tryCreate⟩ =
      .goes T (create cfg ⟨user,database,waiting,.tryCreate⟩ db (some password)) := by
    simp only [step,tryCreate,hdb,Config.getPassword,hpw]
  exact .goes hs ((create_closes db _).congr (by simp))

theorem lookup_misses (hc : c.stage = .lookup) (hp : T.pools.get (c.user,c.database) = none) (answer : Answer) :
    c.step cfg answer T = .goes T { c with stage := .tryCreate } := by
  simp only [step,hc,hp]

theorem lookup_hits (hc : c.stage = .lookup) (hp : T.pools.get (c.user,c.database) = some p)
    (answer : Answer) : c.step cfg answer T = .goes T { c with stage := .returned (some p) } := by
  simp only [step,hc,hp]

variable {authUser : GoString}

theorem tryCreate_asks (hc : c.stage = .tryCreate)
    (hdb : cfg.database c.database = some db) (hpw : cfg.pgBouncer.authFile.get c.user = none)
    (ha : cfg.authUser c.database = some authUser) (answer : Answer) :
    c.step cfg answer T = .goes T ⟨authUser,c.database,⟨c.user,db⟩ :: c.waiting,.lookup⟩ := by
  simp only [step,hc,tryCreate,hdb,Config.getPassword,hpw,ha]

/-- An auth user without a stored pool and without a password in the auth file. -/
theorem not_stops {database : GoString} (hdb : cfg.database database = some db)
    (ha : cfg.authUser database = some authUser) (hpw : cfg.pgBouncer.authFile.get authUser = none)
    (hp : T.pools.get (authUser,database) = none) (waiting : List (Frame fold)) :
    ¬ Stops cfg answers T ⟨authUser,database,waiting,.lookup⟩ := by
  have hgoes : ∀ n (c : Call fold), c.user = authUser → c.database = database → c.stage = .lookup ∨ c.stage = .tryCreate →
      ¬ (c.run cfg answers n T).Final := by
    intro n
    induction n with
    | zero => exact fun _ _ _ _ => id
    | succ n ih =>
      rintro c rfl rfl (hc | hc)
      · rw [run_goes (lookup_misses hc hp _)]
        exact ih _ rfl rfl (.inr rfl)
      · rw [run_goes (tryCreate_asks hc hdb hpw ha _)]
        exact ih _ rfl rfl (.inl rfl)
  rintro ⟨n,hn⟩
  exact hgoes n _ rfl rfl (.inl rfl) hn

end Call

/-- A user who is not in the auth file needs an auth user that has a pool or is in the auth file. -/
def Grounded (cfg : Config fold) (T : Module fold) (user database : GoString) : Prop :=
  cfg.pgBouncer.authFile.get user = none → ∀ authUser, cfg.authUser database = some authUser →
    T.pools.get (authUser,database) ≠ none ∨ cfg.pgBouncer.authFile.get authUser ≠ none

/-- No pool is to be made, for the user or the auth user, and the auth query has a pool. -/
structure Unmade (cfg : Config fold) (answers : GoString → Answer) (T : Module fold) (db : Database fold)
    (user database : GoString) : Prop where
  listed : cfg.pgBouncer.authFile.get user ≠ none → ¬ cfg.Pools db user
  queried : cfg.pgBouncer.authFile.get user = none → ∀ authUser, cfg.authUser database = some authUser →
    ∀ p, T.pools.get (authUser,database) = some p →
      p.pool ≠ none ∧ ((answers user).password user ≠ none → ¬ cfg.Pools db user)
  auth : cfg.pgBouncer.authFile.get user = none → ∀ authUser, cfg.authUser database = some authUser →
    T.pools.get (authUser,database) = none → cfg.pgBouncer.authFile.get authUser ≠ none → ¬ cfg.Pools db authUser

variable {user database : GoString} {db : Database fold}

theorem Call.closes_of_grounded
    (hp : T.pools.get (user,database) = none) (hdb : cfg.database database = some db)
    (hg : Grounded cfg T user database) :
    Call.Closes cfg answers T ⟨user,database,[],.lookup⟩ (Unmade cfg answers T db user database) := by
  refine .goes (lookup_misses rfl hp _) ?_
  cases hpw : cfg.pgBouncer.authFile.get user with
  | some password =>
    refine (tryCreate_closes rfl hdb hpw).congr ⟨fun h => ⟨fun _ => h,?_,?_⟩,fun h => h.listed (by simp [hpw])⟩
    · intro hn
      simp [hpw] at hn
    · intro hn
      simp [hpw] at hn
  | none =>
    cases ha : cfg.authUser database with
    | none =>
      have hs : Call.step cfg (answers user) T ⟨user,database,[],.tryCreate⟩ =
          .goes T (Call.create cfg ⟨user,database,[],.tryCreate⟩ db none) := by
        simp only [Call.step,Call.tryCreate,hdb,Config.getPassword,hpw,ha]
      refine .goes hs ((refused_closes rfl).congr (iff_of_true trivial ⟨?_,?_,?_⟩))
      · exact fun hn => absurd hpw hn
      · intro _ authUser he
        cases ha.symm.trans he
      · intro _ authUser he
        cases ha.symm.trans he
    | some authUser =>
      refine .goes (tryCreate_asks rfl hdb hpw ha _) ?_
      cases hstored : T.pools.get (authUser,database) with
      | some p =>
        refine .goes (lookup_hits rfl hstored _) (.goes rfl ((query_closes rfl).congr ⟨fun h => ⟨?_,?_,?_⟩,fun h => ?_⟩))
        · exact fun hn => absurd hpw hn
        · intro _ a he q hq
          cases ha.symm.trans he
          cases hstored.symm.trans hq
          exact h
        · intro _ a he hn
          cases ha.symm.trans he
          cases hstored.symm.trans hn
        · exact h.queried hpw authUser ha p hstored
      | none =>
        have hlisted : cfg.pgBouncer.authFile.get authUser ≠ none :=
          (hg hpw authUser ha).resolve_left fun hn => hn hstored
        obtain ⟨password,hpw'⟩ := Option.ne_none_iff_exists'.mp hlisted
        refine .goes (lookup_misses rfl hstored _)
          ((tryCreate_closes rfl hdb hpw').congr ⟨fun h => ⟨?_,?_,?_⟩,fun h => ?_⟩)
        · exact fun hn => absurd hpw hn
        · intro _ a he q hq
          cases ha.symm.trans he
          cases hstored.symm.trans hq
        · intro _ a he _ _
          cases ha.symm.trans he
          exact h
        · exact h.auth hpw authUser ha hstored hlisted

theorem Call.not_stops_of_ungrounded
    (hp : T.pools.get (user,database) = none) (hdb : cfg.database database = some db)
    (hg : ¬ Grounded cfg T user database) : ¬ Call.Stops cfg answers T ⟨user,database,[],.lookup⟩ := by
  simp only [Grounded,not_forall,not_or,not_not] at hg
  obtain ⟨hpw,authUser,ha,hstored,hlisted⟩ := hg
  rintro ⟨n,hn⟩
  rcases n with _ | _ | n
  · exact hn
  · rw [run_goes (lookup_misses rfl hp _)] at hn
    exact hn
  · rw [run_goes (lookup_misses rfl hp _),run_goes (tryCreate_asks rfl hdb hpw ha _)] at hn
    exact not_stops hdb ha hlisted hstored _ ⟨n,hn⟩

/-- The recursion of `lookup` is finite exactly when a user who has no pool yet is grounded, and it then ends with a
pool or a refusal exactly when it has no pool to make. -/
theorem lookup_ends (cfg : Config fold) (answers : GoString → Answer) (T : Module fold) (user database : GoString) :
    (Call.Stops cfg answers T ⟨user,database,[],.lookup⟩ ↔
      (T.pools.get (user,database) = none → cfg.database database ≠ none → Grounded cfg T user database)) ∧
    (Call.Ends cfg answers T ⟨user,database,[],.lookup⟩ ↔
      (T.pools.get (user,database) = none → ∀ db, cfg.database database = some db →
        Grounded cfg T user database ∧ Unmade cfg answers T db user database)) := by
  cases hp : T.pools.get (user,database) with
  | some p =>
    have h : Call.Closes cfg answers T ⟨user,database,[],.lookup⟩ True :=
      .goes (Call.lookup_hits rfl hp _) (.final trivial Iff.rfl)
    exact ⟨iff_of_true h.stops (by simp),h.ends_iff.trans (by simp)⟩
  | none =>
    cases hdb : cfg.database database with
    | none =>
      have hs : Call.step cfg (answers user) T ⟨user,database,[],.tryCreate⟩ =
          .goes T ⟨user,database,[],.returned none⟩ := by
        simp only [Call.step,Call.tryCreate,hdb]
      have h : Call.Closes cfg answers T ⟨user,database,[],.lookup⟩ True :=
        .goes (Call.lookup_misses rfl hp _) (.goes hs (Call.refused_closes rfl))
      exact ⟨iff_of_true h.stops (by simp),h.ends_iff.trans (by simp)⟩
    | some db =>
      by_cases hg : Grounded cfg T user database
      · have h : Call.Closes cfg answers T _ _ := Call.closes_of_grounded hp hdb hg
        exact ⟨iff_of_true h.stops fun _ _ => hg,h.ends_iff.trans (by simp [hg])⟩
      · have h : ¬ Call.Stops cfg answers T _ := Call.not_stops_of_ungrounded hp hdb hg
        refine ⟨iff_of_false h fun hn => hg (hn rfl (by simp)),iff_of_false ?_ fun hn => hg (hn rfl db rfl).1⟩
        exact fun ⟨n,hn⟩ => h ⟨n,hn.final⟩

/-- The default configuration with a database and an auth user who is not in the auth file. -/
theorem lookup_endless :
    let fold : Fold := ⟨id,fun _ => rfl⟩
    let cfg : Config fold :=
      { pgBouncer := { authUser := ascii ['a'] }, databases := AList.singleton (ascii ['d']) {} }
    ¬ Call.Stops cfg (fun _ => .failed) {} ⟨ascii ['u'],ascii ['d'],[],.lookup⟩ := by
  intro fold cfg
  have hdb : cfg.database (ascii ['d']) = some {} := rfl
  refine Call.not_stops_of_ungrounded rfl hdb fun hg => ?_
  rcases hg rfl (ascii ['a']) (by decide) with h | h
  · exact h rfl
  · exact h rfl

end Pggat.Pgbouncer
