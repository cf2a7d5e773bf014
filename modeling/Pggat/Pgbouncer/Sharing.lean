import Pggat.Pgbouncer.Handle

/-! Every pool that is stored is nil, so the calls share a working pool only as long as none of them meets an entry
that another has stored. -/
namespace Pggat.Pgbouncer
open Pggat.Base Pggat.Auth
open Pggat.Ps (Fold)
variable {fold : Fold} {cfg : Config fold}

namespace Call

def Nil (c : Call fold) : Prop :=
  match c.stage with
  | .store _ p | .addRecipe _ p => p.pool = none
  | _ => True

/-- A step that goes on: it leaves the map alone, finds an entry or stores one. -/
inductive Moves (T : Module fold) (c : Call fold) (T' : Module fold) (c' : Call fold) : Prop
  | quiet (pools : T'.pools = T.pools) (publishes : c.publishes T = []) (finds : c'.finds = [])
      (apart : c.meets T = false) (nil : c'.Nil)
  | hit (p : PoolAndCredentials) (pools : T'.pools = T.pools) (publishes : c.publishes T = [])
      (finds : c'.finds = [(c.key,p)]) (meets : c.meets T = true) (nil : c'.Nil)
  | store (p : PoolAndCredentials) (pools : T'.pools = AList.insert c.key p T.pools)
      (publishes : c.publishes T = [⟨c.key,p,false⟩]) (finds : c'.finds = [])
      (apart : c.meets T = (T.pools.get c.key).isSome) (nil : c'.Nil)

theorem create_quiet (c : Call fold) (db : Database fold) (password : Option GoString) :
    (c.create cfg db password).finds = [] ∧ (c.create cfg db password).Nil := by
  cases password with
  | none => exact ⟨rfl,trivial⟩
  | some password =>
    by_cases hp : cfg.Pools db c.user
    · have hc : (c.create cfg db (some password)).stage = .lock db password := if_pos hp
      simp only [finds,Nil,hc,and_self]
    · have hc : (c.create cfg db (some password)).stage = .returned none := if_neg hp
      simp only [finds,Nil,hc,and_self]

private theorem tryCreate_quiet (c : Call fold) : (c.tryCreate cfg).finds = [] ∧ (c.tryCreate cfg).Nil := by
  unfold tryCreate
  split
  · exact ⟨rfl,trivial⟩
  · split
    · exact create_quiet c _ _
    · exact create_quiet c _ _
    · exact ⟨rfl,trivial⟩

variable {answer : Answer} {T T' : Module fold} {c : Call fold}

theorem step_moves {c' : Call fold} (hc : c.Nil)
    (h : c.step cfg answer T = .goes T' c') : Moves T c T' c' := by
  obtain ⟨user,database,waiting,stage⟩ := c
  cases stage with
  | lookup =>
    cases hp : T.pools.get (user,database) with
    | some p =>
      simp only [step,hp,Next.goes.injEq] at h
      obtain ⟨rfl,rfl⟩ := h
      exact .hit p rfl rfl rfl (congrArg Option.isSome hp) trivial
    | none =>
      simp only [step,hp,Next.goes.injEq] at h
      obtain ⟨rfl,rfl⟩ := h
      exact .quiet rfl rfl rfl (congrArg Option.isSome hp) trivial
  | tryCreate =>
    cases h
    exact .quiet rfl rfl (tryCreate_quiet _).1 rfl (tryCreate_quiet _).2
  | query db authPool =>
    obtain ⟨_ | a,creds⟩ := authPool
    · cases h
    · cases h
      exact .quiet rfl rfl (create_quiet _ _ _).1 rfl (create_quiet _ _ _).2
  | lock db password =>
    by_cases hmu : T.mu
    · simp only [step,hmu,if_true] at h
      cases h
    · simp only [step,hmu,Bool.false_eq_true,if_false,Next.goes.injEq] at h
      obtain ⟨rfl,rfl⟩ := h
      exact .quiet rfl rfl rfl rfl rfl
  | store db p =>
    cases h
    obtain ⟨pool,creds⟩ := p
    cases hc
    exact .store _ rfl rfl rfl rfl rfl
  | addRecipe db p =>
    obtain ⟨pool,creds⟩ := p
    cases hc
    cases h
  | returned p =>
    cases waiting with
    | nil => cases h
    | cons frame waiting =>
      cases p with
      | some p =>
        cases h
        exact .quiet rfl rfl rfl rfl trivial
      | none =>
        cases h
        exact .quiet rfl rfl rfl rfl trivial

theorem step_last
    (h : c.step cfg answer T = .panics T' ∨ ∃ p, c.step cfg answer T = .ends T' p) :
    T'.pools = T.pools ∧ c.meets T = false := by
  obtain ⟨user,database,waiting,stage⟩ := c
  cases stage with
  | lookup =>
    cases hp : T.pools.get (user,database) with
    | some p => simp [step,hp] at h
    | none => simp [step,hp] at h
  | tryCreate => simp [step] at h
  | query db authPool =>
    refine ⟨?_,rfl⟩
    obtain ⟨_ | a,creds⟩ := authPool
    · rcases h with h | ⟨p,h⟩
      · cases h
        rfl
      · cases h
    · simp [step] at h
  | lock db password =>
    by_cases hmu : T.mu
    · simp [step,hmu] at h
    · simp [step,hmu] at h
  | store db p => simp [step] at h
  | addRecipe db p =>
    refine ⟨?_,rfl⟩
    obtain ⟨_ | a,creds⟩ := p
    · rcases h with h | ⟨p,h⟩
      · cases h
        rfl
      · cases h
    · simp [step,addRecipe] at h
  | returned p =>
    refine ⟨?_,rfl⟩
    cases waiting with
    | nil =>
      rcases h with h | ⟨p,h⟩
      · cases h
      · cases h
        rfl
    | cons frame waiting =>
      cases p with
      | some p => simp [step] at h
      | none => simp [step] at h

end Call

namespace System

/-- What holds in every state: stored pools are nil, and `published` tells what is stored. -/
structure Inv (s : System fold) : Prop where
  nil : ∀ t c, s.handlers t = some (.looking c) → c.Nil
  unready : ∀ v ∈ s.published, v.ready = false
  stored : ∀ k, k ∈ s.published.map Published.key ↔ s.module.pools.get k ≠ none

theorem inv_start : ({} : System fold).Inv where
  nil _ _ h := by cases h
  unready _ h := by cases h
  stored k := by simp

variable {s : System fold} {t : Nat}

theorem Inv.setHandler (h : s.Inv) {x : Handler fold}
    (hx : ∀ c, x = .looking c → c.Nil) : (s.setHandler t x).Inv where
  nil t' c ht := by
    by_cases he : t' = t
    · subst he
      simp only [System.setHandler,Function.update_self,Option.some.injEq] at ht
      exact hx c ht
    · simp only [System.setHandler,Function.update_of_ne he] at ht
      exact h.nil t' c ht
  unready := h.unready
  stored := h.stored

variable {T : Module fold}

theorem Inv.withModule (h : s.Inv) (hT : T.pools = s.module.pools) :
    ({ s with module := T } : System fold).Inv where
  nil := h.nil
  unready := h.unready
  stored k := by rw [h.stored,hT]

theorem Inv.sound_iff (h : s.Inv) :
    s.Sound ↔ s.found = [] ∧ (s.published.map Published.key).Nodup := by
  constructor
  · intro hs
    refine ⟨List.eq_nil_iff_forall_not_mem.mpr fun e he => ?_,hs.once⟩
    obtain ⟨v,hv,-,-,hr⟩ := hs.ready e he
    rw [h.unready v hv] at hr
    cases hr
  · rintro ⟨hf,hn⟩
    refine ⟨?_,?_,hn⟩
    · simp [hf]
    · simp [hf]

/-- A step that keeps the invariant, and keeps the state sound exactly when it meets no entry. -/
def Good (s : System fold) (e : Event fold) (s' : System fold) : Prop := s'.Inv ∧ (s'.Sound ↔ s.Sound ∧ s.Apart e)

variable {s' : System fold} {e : Event fold}

theorem Inv.good (h : s.Inv) (h' : s'.Inv) (hf : s'.found = s.found)
    (hp : s'.published = s.published) (ha : s.Apart e) : s.Good e s' := by
  refine ⟨h',?_⟩
  rw [h.sound_iff,h'.sound_iff,hf,hp]
  exact ⟨fun hs => ⟨hs,ha⟩,And.left⟩

variable {c : Call fold}

theorem apart_iff (answer : Answer)
    (ht : s.handlers t = some (.looking c)) : s.Apart (.step t answer) ↔ c.meets s.module = false := by
  simp only [Apart,System.meets,ht]

theorem Inv.goes (h : s.Inv) {c' : Call fold} (answer : Answer)
    (ht : s.handlers t = some (.looking c)) (hm : c.Moves s.module T c') :
    s.Good (.step t answer) { s.setHandler t (.looking c') with
      module := T
      published := c.publishes s.module ++ s.published
      found := c'.finds ++ s.found } := by
  have hset : (s.setHandler t (.looking c')).Inv := h.setHandler fun _ he => by
    cases he
    cases hm with
    | quiet _ _ _ _ nil => exact nil
    | hit _ _ _ _ _ nil => exact nil
    | store _ _ _ _ _ nil => exact nil
  cases hm with
  | quiet pools publishes finds apart nil =>
    rw [publishes,finds]
    exact h.good (hset.withModule pools) rfl rfl ((apart_iff answer ht).mpr apart)
  | hit p pools publishes finds meets nil =>
    rw [publishes,finds]
    have h' : ({ s.setHandler t (.looking c') with module := T, found := [(c.key,p)] ++ s.found } : System fold).Inv :=
      ⟨hset.nil,hset.unready,(hset.withModule pools).stored⟩
    refine ⟨h',iff_of_false (fun hs => ?_) fun hs => ?_⟩
    · cases (h'.sound_iff.mp hs).1
    · cases meets.symm.trans ((apart_iff answer ht).mp hs.2)
  | store p pools publishes finds apart nil =>
    rw [publishes,finds]
    have h' : ({ s.setHandler t (.looking c') with
        module := T, published := [⟨c.key,p,false⟩] ++ s.published } : System fold).Inv := by
      refine ⟨hset.nil,?_,fun k => ?_⟩
      · rintro v (_ | ⟨_,hv⟩)
        · rfl
        · exact h.unready v hv
      · have hk := h.stored k
        by_cases he : k = c.key
        · simp [pools,he]
        · simp only [List.singleton_append,List.map_cons,List.mem_cons,he,false_or,pools,Map.get_insert,if_false]
          exact hk
    refine ⟨h',h'.sound_iff.trans ?_⟩
    rw [h.sound_iff,apart_iff answer ht,apart]
    simp only [List.singleton_append,List.map_cons,List.nodup_cons,h.stored,ne_eq,not_not,
      Option.isSome_eq_false_iff,Option.isNone_iff_eq_none]
    constructor
    · rintro ⟨hf,hk,hn⟩
      exact ⟨⟨hf,hn⟩,hk⟩
    · rintro ⟨⟨hf,hn⟩,hk⟩
      exact ⟨hf,hk,hn⟩

private theorem Inv.advance (h : s.Inv) {answer : Answer}
    (ht : s.handlers t = some (.looking c)) (hs : s.advance t c (c.step cfg answer s.module) = some s') :
    s.Good (.step t answer) s' := by
  cases hr : c.step cfg answer s.module with
  | goes T c' =>
    rw [hr] at hs
    cases hs
    exact h.goes answer ht (Call.step_moves (h.nil t c ht) hr)
  | ends T p =>
    obtain ⟨hT,ha⟩ := Call.step_last (.inr ⟨p,hr⟩)
    rw [hr] at hs
    cases p with
    | some p =>
      cases hs
      exact h.good ((h.setHandler (by simp)).withModule hT) rfl rfl ((apart_iff answer ht).mpr ha)
    | none =>
      cases hs
      exact h.good ((h.setHandler (by simp)).withModule hT) rfl rfl ((apart_iff answer ht).mpr ha)
  | blocks =>
    rw [hr] at hs
    cases hs
  | panics T =>
    obtain ⟨hT,ha⟩ := Call.step_last (.inl hr)
    rw [hr] at hs
    cases hs
    exact h.good ((h.setHandler (by simp)).withModule hT) rfl rfl ((apart_iff answer ht).mpr ha)

private theorem Inv.step (h : s.Inv) (hs : s.step cfg e = some s') : s.Good e s' := by
  unfold System.step at hs
  split at hs
  · cases hs
  · cases e with
    | handle t conn =>
      simp only at hs
      split at hs
      · cases hs
      · split at hs
        · cases hs
          exact h.good (h.setHandler (by simp)) rfl rfl rfl
        · cases hs
          refine h.good (h.setHandler ?_) rfl rfl rfl
          rintro c ⟨⟩
          trivial
    | step t answer =>
      simp only at hs
      split at hs
      · rename_i c ht
        exact h.advance ht hs
      · cases hs
    | authenticate t ok =>
      simp only at hs
      split at hs
      · split at hs
        · cases hs
          exact h.good (h.setHandler (by simp)) rfl rfl rfl
        · split at hs
          · cases hs
            exact h.good (h.setHandler (by simp)) rfl rfl rfl
          · cases hs
            exact h.good (h.setHandler (by simp)) rfl rfl rfl
      · cases hs
    | crash t =>
      simp only at hs
      split at hs
      · cases hs
        exact h.good ⟨h.nil,h.unready,h.stored⟩ rfl rfl rfl
      · cases hs

/-- A run that starts sound ends sound exactly when all its steps are apart. -/
theorem Inv.runs {t : System fold} {es : List (Event fold)} (h : s.Inv)
    (hr : run (fun _ _ => True) (System.step cfg) s es = some t) :
    t.Sound ↔ s.Sound ∧ run Apart (System.step cfg) s es = some t := by
  induction es generalizing s with
  | nil =>
    cases hr
    simp [Base.run]
  | cons e es ih =>
    rw [Base.run,if_pos trivial] at hr
    obtain ⟨s',he,hr⟩ := Option.bind_eq_some_iff.mp hr
    obtain ⟨h',hiff⟩ := h.step he
    rw [ih h' hr,hiff,Base.run]
    by_cases ha : s.Apart e
    · simp [ha,he]
    · simp [ha]

end System

/-- The calls of a run share working pools exactly when no `Load` and no `Store` of theirs meets an entry of the same
user and database. -/
theorem lookups_share (cfg : Config fold) (es : List (Event fold)) (s : System fold)
    (h : run (fun _ _ => True) (System.step cfg) {} es = some s) :
    s.Sound ↔ run System.Apart (System.step cfg) {} es = some s := by
  rw [System.inv_start.runs h]
  refine ⟨And.right,fun h => ⟨⟨?_,?_,List.nodup_nil⟩,h⟩⟩
  · simp
  · simp

/-- The first two connections of a user. The second finds the entry that the first has stored, and its pool is nil. -/
theorem lookups_share_nil :
    let fold : Fold := ⟨id,fun _ => rfl⟩
    let cfg : Config fold :=
      { pgBouncer := { authFile := AList.singleton (ascii ['u']) (ascii ['p']) }
        databases := AList.singleton (ascii ['d']) {} }
    let conn : Frontends.Conn fold := { user := ascii ['u'], database := ascii ['d'] }
    ∃ s, run (fun _ _ => True) (System.step cfg) {}
        [.handle 0 conn,.handle 1 conn,.step 0 .failed,.step 0 .failed,.step 0 .failed,.step 0 .failed,.step 1 .failed] =
          some s ∧
      s.found = [((ascii ['u'],ascii ['d']),⟨none,some (.cleartext (ascii ['u']) (ascii ['p']))⟩)] ∧ ¬ s.Sound := by
  refine ⟨_,rfl,rfl,fun h => ?_⟩
  obtain ⟨v,hv,-,-,hr⟩ := h.ready _ List.mem_cons_self
  cases List.mem_singleton.mp hv
  cases hr

/-- Connections to two databases do not meet. None finds a pool, and the first ends the process. -/
theorem lookups_share_apart :
    let fold : Fold := ⟨id,fun _ => rfl⟩
    let cfg : Config fold :=
      { pgBouncer := { authFile := AList.singleton (ascii ['u']) (ascii ['p']) }
        databases := AList.insert (ascii ['d']) {} (AList.singleton (ascii ['e']) {}) }
    let conn (database : GoString) : Frontends.Conn fold := { user := ascii ['u'], database }
    let es : List (Event fold) :=
      [.handle 0 (conn (ascii ['d'])),.handle 1 (conn (ascii ['e'])),.step 0 .failed,.step 1 .failed,.step 0 .failed,
        .step 1 .failed,.step 0 .failed,.step 0 .failed,.step 0 .failed,.step 1 .failed,.step 1 .failed,.crash 0]
    ∃ s, run (fun _ _ => True) (System.step cfg) {} es = some s ∧ s.crashed = true ∧ s.published.length = 2 ∧
      s.Sound := by
  intro fold cfg conn es
  exact ⟨_,rfl,rfl,rfl,(lookups_share cfg es _ rfl).mpr rfl⟩

end Pggat.Pgbouncer
