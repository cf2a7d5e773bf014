import Pggat.Discovery.Module

/-! The pools of one user and database, and what each statement of the module does to them.
Where replicas have pools of their own, a pair of user and database has two pools, under its own key and under the
derived one; statements about pairs whose keys do not collide do not meet. -/
namespace Pggat.Discovery
open Pggat.Base Pggat.Auth

def replicaKey (q : Key) : Key := (toReplicaUsername q.1,q.2)

theorem replicaKey_injective : Function.Injective replicaKey := by
  intro q q' h
  obtain ⟨hn,hd⟩ := Prod.ext_iff.mp h
  exact Prod.ext (List.append_cancel_right hn) hd

@[simp] theorem replicaKey_ne (q : Key) : replicaKey q ≠ q := by
  intro h
  have length := congrArg (fun q => q.1.length) h
  simp [replicaKey,toReplicaUsername,ascii] at length

/-- Two pairs that share a key. -/
def Clash (settings : Settings) (q q' : Key) : Prop :=
  q = q' ∨ settings.replicaPools = false ∧ (replicaKey q = q' ∨ q = replicaKey q')

instance (settings : Settings) (q q' : Key) : Decidable (Clash settings q q') := by unfold Clash; infer_instance

theorem clash_refl (settings : Settings) (q : Key) : Clash settings q q := .inl rfl

theorem Clash.symm {settings : Settings} {q q' : Key} : Clash settings q q' → Clash settings q' q := by
  rintro (e | ⟨separate,e | e⟩)
  · exact .inl e.symm
  · exact .inr ⟨separate,.inr e.symm⟩
  · exact .inr ⟨separate,.inl e.symm⟩

/-- The pools of a pair; `replica` is empty where its replicas are in the main pool. -/
@[ext] structure Slot where
  main : Option PoolAndCredentials
  replica : Option PoolAndCredentials

def Module.slot (m : Module) (q : Key) : Slot :=
  ⟨m.pools q,if m.settings.replicaPools then none else m.pools (replicaKey q)⟩

def fresh (user : User) : PoolAndCredentials where
  pool := {}
  creds := fromString user.username user.password

namespace Slot

def addPrimary (settings : Settings) (user : User) (database : GoString) (primary : Node) (slot : Slot) : Slot :=
  let p := slot.main.getD (fresh user)
  let d := settings.recipe primary user.username p.creds database
  { slot with main := some { p with pool := p.pool.addRecipe primaryName d } }

def addReplicas (settings : Settings) (user : User) (database : GoString)
    (replicas : List ((_ : GoString) × Node)) (slot : Slot) : Slot :=
  let p := slot.main.getD (fresh user)
  let d (replica : Node) := settings.recipe replica user.username p.creds database
  if settings.replicaPools then
    let pool := replicas.foldl (fun pool e => pool.addReplicaRecipe e.1 (d e.2)) p.pool
    { slot with main := some { p with pool := pool } }
  else
    let rp := slot.replica.getD (fresh (toReplicaUser user))
    let pool := replicas.foldl (fun pool e => pool.addRecipe e.1 (d e.2)) rp.pool
    ⟨some p,some { rp with pool := pool }⟩

def removeReplicas (settings : Settings) (replicas : Map GoString Node) (slot : Slot) : Slot :=
  match slot.main with
  | none => slot
  | some p =>
    if settings.replicaPools then
      let pool := replicas.entries.foldl (fun pool e => pool.removeReplicaRecipe e.1) p.pool
      { slot with main := some { p with pool := pool } }
    else { slot with replica := none }

def removeReplica (settings : Settings) (id : GoString) (slot : Slot) : Slot :=
  match slot.main with
  | none => slot
  | some p =>
    if settings.replicaPools then { slot with main := some { p with pool := p.pool.removeReplicaRecipe id } }
    else { slot with replica := slot.replica.map fun rp => { rp with pool := rp.pool.removeRecipe id } }

def removePrimary (slot : Slot) : Slot := { slot with main := none }

section Cases
variable {settings : Settings} {slot : Slot} {p : PoolAndCredentials}

theorem addReplicas_together (hs : settings.replicaPools = true) (user : User) (database : GoString)
    (replicas : List ((_ : GoString) × Node)) (hp : slot.main.getD (fresh user) = p) :
    slot.addReplicas settings user database replicas =
      { slot with main := some { p with pool := replicas.foldl (fun pool e => pool.addReplicaRecipe e.1
        (settings.recipe e.2 user.username p.creds database)) p.pool } } := by
  simp [addReplicas,hs,hp]

theorem addReplicas_separate (hs : settings.replicaPools = false) (user : User) (database : GoString)
    (replicas : List ((_ : GoString) × Node)) (hp : slot.main.getD (fresh user) = p) :
    ∃ rp, slot.addReplicas settings user database replicas = ⟨some p,some rp⟩ := by
  simp [addReplicas,hs,hp]

theorem removeReplicas_together (hs : settings.replicaPools = true) (replicas : Map GoString Node)
    (hp : slot.main = some p) :
    slot.removeReplicas settings replicas = { slot with main := some { p with
      pool := replicas.entries.foldl (fun pool e => pool.removeReplicaRecipe e.1) p.pool } } := by
  simp [removeReplicas,hs,hp]

theorem removeReplicas_separate (hs : settings.replicaPools = false) (replicas : Map GoString Node)
    (hp : slot.main = some p) : slot.removeReplicas settings replicas = { slot with replica := none } := by
  simp [removeReplicas,hs,hp]

theorem removeReplica_together (hs : settings.replicaPools = true) (id : GoString) (hp : slot.main = some p) :
    slot.removeReplica settings id =
      { slot with main := some { p with pool := p.pool.removeReplicaRecipe id } } := by
  simp [removeReplica,hs,hp]

theorem removeReplica_separate (hs : settings.replicaPools = false) (id : GoString) (hp : slot.main = some p) :
    slot.removeReplica settings id =
      { slot with replica := slot.replica.map fun rp => { rp with pool := rp.pool.removeRecipe id } } := by
  simp [removeReplica,hs,hp]

end Cases
end Slot

/-- The cache holds what would be computed again. -/
def Module.Cached (m : Module) : Prop :=
  ∀ user creds, m.creds user = some creds → creds = fromString user.username user.password

/-- Statements about pools concern neither the settings nor the clusters. -/
structure Kept (m m' : Module) : Prop where
  settings : m'.settings = m.settings
  clusters : m'.clusters = m.clusters
  cached : m'.Cached

theorem Kept.trans {m m' m'' : Module} (h : Kept m m') (h' : Kept m' m'') : Kept m m'' :=
  ⟨h'.settings.trans h.settings,h'.clusters.trans h.clusters,h'.cached⟩

/-- From `m` to `m'` the pair `q` goes through `f`, and the pools under other keys than its two stay. -/
structure Acts (q : Key) (f : Slot → Slot) (m m' : Module) : Prop where
  slot : m'.slot q = f (m.slot q)
  pools : ∀ k, k ≠ q → (m.settings.replicaPools = false → k ≠ replicaKey q) → m'.pools k = m.pools k
  kept : Kept m m'

namespace Acts
variable {q : Key} {f g : Slot → Slot} {m m' m'' : Module}

theorem frame (h : Acts q f m m') (q' : Key) (apart : ¬ Clash m.settings q q') : m'.slot q' = m.slot q' := by
  obtain ⟨ne,separate⟩ := not_or.mp apart
  have main : m'.pools q' = m.pools q' :=
    h.pools q' (Ne.symm ne) fun hs he => separate ⟨hs,.inl he.symm⟩
  rw [Module.slot,Module.slot,h.kept.settings,main]
  split
  · rfl
  · rename_i hs
    have hs' : m.settings.replicaPools = false := by simpa using hs
    rw [h.pools (replicaKey q') (fun he => separate ⟨hs',.inr he.symm⟩)
      fun _ he => ne (replicaKey_injective he).symm]

theorem of_main (main : m'.pools = Function.update m.pools q (f (m.slot q)).main)
    (replica : (f (m.slot q)).replica = (m.slot q).replica) (kept : Kept m m') : Acts q f m m' := by
  refine ⟨?_, fun k ne _ => by rw [main,Function.update_of_ne ne], kept⟩
  rw [Module.slot,kept.settings,main]
  ext1
  · simp
  · simpa [Module.slot] using replica.symm

theorem of_replica (separate : m.settings.replicaPools = false)
    (replica : m'.pools = Function.update m.pools (replicaKey q) (f (m.slot q)).replica)
    (main : (f (m.slot q)).main = (m.slot q).main) (kept : Kept m m') : Acts q f m m' := by
  refine ⟨?_, fun k _ ne => by rw [replica,Function.update_of_ne (ne separate)], kept⟩
  rw [Module.slot,kept.settings,replica]
  ext1
  · simpa [Module.slot,Function.update_of_ne (replicaKey_ne q).symm] using main.symm
  · simp [separate]

theorem trans (h : Acts q f m m') (h' : Acts q g m' m'') : Acts q (g ∘ f) m m'' where
  slot := by rw [h'.slot,h.slot]; rfl
  pools k ne ne' := by rw [h'.pools k ne (h.kept.settings ▸ ne'),h.pools k ne ne']
  kept := h.kept.trans h'.kept

end Acts

namespace Module
variable {m : Module}

private theorem Cached.getCreds (h : m.Cached) (user : User) :
    (m.getCreds user).1 = fromString user.username user.password ∧ (m.getCreds user).2.Cached ∧
      (m.getCreds user).2.pools = m.pools ∧ Kept m (m.getCreds user).2 := by
  unfold Module.getCreds
  split
  · rename_i creds hu
    exact ⟨h user creds hu,h,rfl,rfl,rfl,h⟩
  · rename_i hu
    have cached : ({ m with creds := Function.update m.creds user (some (fromString user.username user.password)) } :
        Module).Cached := by
      intro user' creds' hc
      rcases eq_or_ne user' user with rfl | ne
      · exact Option.some.inj (by simpa using hc.symm)
      · exact h user' creds' (by simpa [ne] using hc)
    exact ⟨rfl,cached,rfl,rfl,rfl,cached⟩

theorem Cached.getOrAddPool (h : m.Cached) (user : User) (database : GoString) :
    (m.getOrAddPool user database).1 = (m.pools (user.username,database)).getD (fresh user) ∧
      (m.getOrAddPool user database).2.pools =
        Function.update m.pools (user.username,database)
          (some ((m.pools (user.username,database)).getD (fresh user))) ∧
      Kept m (m.getOrAddPool user database).2 := by
  rw [Module.getOrAddPool]
  split
  · rename_i old hp
    rw [hp]
    exact ⟨rfl,(Function.update_eq_self_iff.mpr hp.symm).symm,rfl,rfl,h⟩
  · rename_i hp
    obtain ⟨hcreds,-,hpools,kept⟩ := h.getCreds user
    rw [hp]
    refine ⟨?_, ?_, kept.settings, kept.clusters, kept.cached⟩
    · simp only [hcreds]
      rfl
    · simp only [setPool,hcreds,hpools]
      rfl

theorem Kept.setPool {m' : Module} {key : Key} {p : PoolAndCredentials} (h : Kept m m') : Kept m (m'.setPool key p) :=
  ⟨h.settings,h.clusters,h.cached⟩

private theorem getOrAddPool_acts (h : m.Cached) (user : User) (database : GoString) :
    Acts (user.username,database) (fun slot => { slot with main := some (slot.main.getD (fresh user)) }) m
      (m.getOrAddPool user database).2 := by
  obtain ⟨-,hpools,kept⟩ := h.getOrAddPool user database
  exact .of_main hpools rfl kept

theorem addPrimaryNode_acts (h : m.Cached) (user : User) (database : GoString) (primary : Node) :
    Acts (user.username,database) (Slot.addPrimary m.settings user database primary) m
      (m.addPrimaryNode user database primary) := by
  obtain ⟨hp,hpools,kept⟩ := h.getOrAddPool user database
  refine .of_main ?_ rfl (Kept.setPool kept)
  simp only [addPrimaryNode,Module.setPool,hp,hpools,kept.settings,Function.update_idem]
  rfl

theorem removePrimaryNode_acts (h : m.Cached) (username database : GoString) :
    Acts (username,database) Slot.removePrimary m (m.removePrimaryNode username database) :=
  .of_main rfl rfl ⟨rfl,rfl,h⟩

theorem addReplicaRecipes_acts (h : m.Cached) (user : User) (database : GoString)
    (replicas : List ((_ : GoString) × Node)) :
    Acts (user.username,database) (Slot.addReplicas m.settings user database replicas) m
      (m.addReplicaRecipes user database replicas) := by
  obtain ⟨hp,hpools,kept⟩ := h.getOrAddPool user database
  cases hs : m.settings.replicaPools with
  | true =>
    have same : Kept m (m.addReplicaRecipes user database replicas) := by
      simp only [addReplicaRecipes,kept.settings,hs,if_true]
      exact Kept.setPool kept
    refine .of_main ?_ (by simp [Slot.addReplicas,hs]) same
    simp only [addReplicaRecipes,Slot.addReplicas,Module.setPool,hp,hpools,kept.settings,hs,if_true,
      Function.update_idem]
    rfl
  | false =>
    have opened := getOrAddPool_acts h user database
    have hs' : (m.getOrAddPool user database).2.settings.replicaPools = false := kept.settings ▸ hs
    obtain ⟨hrp,hrpools,rkept⟩ := kept.cached.getOrAddPool (toReplicaUser user) database
    let add (creds : Option Credentials) (pool : Pool) : Pool :=
      replicas.foldl (fun pool e => pool.addRecipe e.1 (m.settings.recipe e.2 user.username creds database)) pool
    let put (slot : Slot) : Slot :=
      let rp := slot.replica.getD (fresh (toReplicaUser user))
      { slot with replica := some { rp with pool := add ((slot.main.getD (fresh user)).creds) rp.pool } }
    have second : Acts (user.username,database) put (m.getOrAddPool user database).2
        (m.addReplicaRecipes user database replicas) := by
      simp only [addReplicaRecipes,kept.settings,hs,Bool.false_eq_true,if_false]
      refine .of_replica hs' ?_ rfl (Kept.setPool rkept)
      simp only [Module.setPool,getOrAddReplicaPool,hp,hrp,hrpools,put,slot,hs',hpools]
      simp [add,replicaKey,toReplicaUser]
    have both := opened.trans second
    refine ⟨?_,both.pools,both.kept⟩
    rw [both.slot]
    simp [put,add,Slot.addReplicas,hs]

theorem removeReplicaNodes_acts (h : m.Cached) (username database : GoString) (replicas : Map GoString Node) :
    Acts (username,database) (Slot.removeReplicas m.settings replicas) m
      (m.removeReplicaNodes username database replicas) := by
  have main : (m.slot (username,database)).main = m.getPool username database := rfl
  cases hp : m.getPool username database with
  | none =>
    simp only [removeReplicaNodes,hp]
    refine ⟨?_, fun _ _ _ => rfl, rfl, rfl, h⟩
    rw [Slot.removeReplicas,main,hp]
  | some p =>
    cases hs : m.settings.replicaPools with
    | true =>
      simp only [removeReplicaNodes,hp,hs,if_true]
      exact .of_main (by simp [Slot.removeReplicas,main,hp,hs,Module.setPool]) (by simp [Slot.removeReplicas,main,hp,hs])
        ⟨rfl,rfl,h⟩
    | false =>
      simp only [removeReplicaNodes,hp,hs,Bool.false_eq_true,if_false]
      refine .of_replica hs ?_ ?_ ⟨rfl,rfl,h⟩
      · simp [Slot.removeReplicas,main,hp,hs,removeReplicaPool,removePool,replicaKey]
      · simp [Slot.removeReplicas,main,hp,hs]

theorem removeReplicaNode_acts (h : m.Cached) (username database id : GoString) :
    Acts (username,database) (Slot.removeReplica m.settings id) m (m.removeReplicaNode username database id) := by
  have main : (m.slot (username,database)).main = m.getPool username database := rfl
  cases hp : m.getPool username database with
  | none =>
    simp only [removeReplicaNode,hp]
    refine ⟨?_, fun _ _ _ => rfl, rfl, rfl, h⟩
    rw [Slot.removeReplica,main,hp]
  | some p =>
    cases hs : m.settings.replicaPools with
    | true =>
      simp only [removeReplicaNode,hp,hs,if_true]
      exact .of_main (by simp [Slot.removeReplica,main,hp,hs,Module.setPool]) (by simp [Slot.removeReplica,main,hp,hs])
        ⟨rfl,rfl,h⟩
    | false =>
      have replica : (m.slot (username,database)).replica = m.getReplicaPool username database := by
        simp [slot,hs,getReplicaPool,getPool,replicaKey]
      cases hr : m.getReplicaPool username database with
      | none =>
        simp only [removeReplicaNode,hp,hs,hr,Bool.false_eq_true,if_false]
        refine ⟨?_, fun _ _ _ => rfl, rfl, rfl, h⟩
        ext1
        · simp [Slot.removeReplica,main,hp,hs]
        · simp [Slot.removeReplica,main,hp,hs,replica,hr]
      | some rp =>
        simp only [removeReplicaNode,hp,hs,hr,Bool.false_eq_true,if_false]
        refine .of_replica hs ?_ ?_ ⟨rfl,rfl,h⟩
        · simp [Slot.removeReplica,main,hp,hs,replica,hr,Module.setPool,replicaKey]
        · simp [Slot.removeReplica,main,hp,hs]

end Module
end Pggat.Discovery
