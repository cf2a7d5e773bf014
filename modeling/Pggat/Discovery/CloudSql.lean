import Pggat.Discovery.Reports
import Pggat.Pgbouncer.Config

/-! The discoverer of Google Cloud SQL, and what the recipes dial that come of its reports. -/
namespace Pggat.Discovery
open Pggat.Base
open Pggat.Pgbouncer (joinHostPort)

/-- The addresses that the primary may have for a user and a database, and those that the replicas of a name may have. -/
structure Sites where
  primary : Key → GoString → Prop
  replica : Key → GoString → GoString → Prop

/-- Every recipe of the pool under a key dials an address for the role in which it was registered. -/
structure Pool.Sited (sites : Sites) (settings : Settings) (key : Key) (p : Pool) : Prop where
  recipes : ∀ name r, p.recipes name = some r → name = primaryName ∧ sites.primary key r.address ∨
    settings.replicaPools = false ∧ ∃ q, replicaKey q = key ∧ sites.replica q name r.address
  replicaRecipes : ∀ name r, p.replicaRecipes name = some r → sites.replica key name r.address

/-- Reported clusters with that id have the user and the database. -/
structure Reported (S : Cluster → Prop) (id : GoString) (q : Key) : Prop where
  user : ∃ c, S c ∧ c.id = id ∧ q.1 ∈ c.names
  database : ∃ c, S c ∧ c.id = id ∧ q.2 ∈ c.databases

/-- Where the reported clusters are that have a user and a database. -/
def reportedSites (S : Cluster → Prop) : Sites where
  primary q address := ∃ c, S c ∧ Reported S c.id q ∧ c.primary.address = address
  replica q name address := ∃ c, S c ∧ Reported S c.id q ∧ ∃ node, c.replicas.get name = some node ∧ node.address = address

section
variable {sites : Sites} {settings : Settings} {key : Key} {m : Module} {pool : Pool} {S : Cluster → Prop}

private theorem update_some {P : GoString → Recipe → Prop} {f : GoString → Option Recipe} {id : GoString}
    {recipe : Recipe}
    (h : ∀ name r, f name = some r → P name r) (new : P id recipe) (name : GoString) (r : Recipe)
    (hr : Function.update f id (some recipe) name = some r) : P name r := by
  rcases eq_or_ne name id with rfl | ne
  · rw [Function.update_self] at hr
    exact Option.some.inj hr ▸ new
  · exact h name r (by rwa [Function.update_of_ne ne] at hr)

namespace Pool.Sited

theorem mono {sites' : Sites} (h : pool.Sited sites settings key)
    (primary : ∀ q address, sites.primary q address → sites'.primary q address)
    (replica : ∀ q name address, sites.replica q name address → sites'.replica q name address) :
    pool.Sited sites' settings key where
  recipes name r hr := (h.recipes name r hr).imp (fun ⟨hn,at'⟩ => ⟨hn,primary _ _ at'⟩)
    fun ⟨separate,q,hq,at'⟩ => ⟨separate,q,hq,replica _ _ _ at'⟩
  replicaRecipes name r hr := replica _ _ _ (h.replicaRecipes name r hr)

private theorem fresh (user : User) : (Discovery.fresh user).pool.Sited sites settings key := ⟨nofun,nofun⟩

private theorem removeReplicaRecipe (h : pool.Sited sites settings key) (id : GoString) :
    (pool.removeReplicaRecipe id).Sited sites settings key :=
  ⟨h.recipes,fun name r hr => h.replicaRecipes name r (update_none hr).2⟩

end Pool.Sited

private def AtSites (S : Cluster → Prop) (settings : Settings) (key : Key) (p : PoolAndCredentials) : Prop :=
  p.pool.Sited (reportedSites S) settings key

/-- A statement with nodes of a cluster registers recipes for their roles. -/
private theorem sited_act (s : Statement) (c : Cluster) (user : User) (database : GoString)
    (reports : s.Reports S c user database) (slot : Slot)
    (h : slot.Holds (AtSites S settings) s.key) :
    (s.act settings slot).Holds (AtSites S settings) s.key := by
  have has : Reported S c.id s.key := by
    obtain ⟨c₁,h₁,same₁,hu⟩ := reports.hasUser
    exact reports.about.key ▸ ⟨⟨c₁,h₁,same₁,Cluster.mem_names hu⟩,reports.hasDatabase⟩
  have placed := reports.about.places
  cases s with
  | addPrimaryNode user database primary =>
    have old := Slot.Holds.getD h.main (.fresh user)
    exact ⟨Slot.Holds.only ⟨update_some old.recipes (.inl ⟨rfl,c,reports.reported,has,congrArg _ placed.symm⟩),old.replicaRecipes⟩,
      h.replica⟩
  | addReplicaRecipes user database replicas =>
    have added (e) (he : e ∈ replicas) : (reportedSites S).replica (user.username,database) e.1 e.2.address :=
      ⟨c,reports.reported,has,e.2,(Map.mem_entries ..).mp (placed e he),rfl⟩
    rw [Statement.act,Slot.addReplicas]
    split
    · refine ⟨Slot.Holds.only (foldl_keeps (P := Pool.Sited (reportedSites S) settings (user.username,database))
        (fun e he _ old => ?_) (Slot.Holds.getD h.main (.fresh user))),h.replica⟩
      exact ⟨old.recipes,update_some old.replicaRecipes (added e he)⟩
    · rename_i separate
      refine ⟨Slot.Holds.only (Slot.Holds.getD h.main (.fresh user)),Slot.Holds.only (foldl_keeps
        (P := Pool.Sited (reportedSites S) settings (replicaKey (user.username,database)))
        (fun e he _ old => ?_) (Slot.Holds.getD h.replica (.fresh (toReplicaUser user))))⟩
      exact ⟨update_some old.recipes (.inr ⟨by simpa using separate,_,rfl,added e he⟩),old.replicaRecipes⟩
  | removeReplicaNodes username database replicas =>
    rw [Statement.act,Slot.removeReplicas]
    split
    · exact h
    · rename_i p hp
      split
      · exact ⟨Slot.Holds.only (foldl_keeps (fun e _ _ old => old.removeReplicaRecipe e.1) (h.main p hp)),h.replica⟩
      · exact ⟨h.main,fun _ hp => by cases hp⟩
  | removeReplicaNode username database id =>
    rw [Statement.act,Slot.removeReplica]
    split
    · exact h
    · rename_i p hp
      split
      · exact ⟨Slot.Holds.only ((h.main p hp).removeReplicaRecipe id),h.replica⟩
      · refine ⟨h.main,fun p hp => ?_⟩
        obtain ⟨rp,hrp,rfl⟩ := Option.map_eq_some_iff.mp hp
        have old := h.replica rp hrp
        exact ⟨fun name r hr => old.recipes name r (update_none hr).2,old.replicaRecipes⟩
  | removePrimaryNode => exact ⟨fun _ hp => (by cases hp),h.replica⟩

theorem sited_of_reachable {allowed : Module → Event → Prop}
    (hn : ∀ m e, allowed m e → ∀ c, .added c ∈ e.changes → S c)
    (h : Reachable { settings := settings } allowed Module.step m) {p : PoolAndCredentials} (hp : m.pools key = some p) :
    p.pool.Sited (reportedSites S) m.settings key := by
  have holds := Module.Holds.reachable sited_act hn h
  exact holds.settings ▸ holds.pools key p hp

/-- In every run, whatever the discoverer reports and in whatever order, every recipe dials an address for the role in
which it is registered that a report gave of a cluster with the user and the database of the pool. -/
theorem recipes_reported {S : Cluster → Prop} (h : Reachable { settings := settings }
    (fun _ e => ∀ c, .added c ∈ e.changes → S c) Module.step m) (key : Key) (p : PoolAndCredentials)
    (hp : m.pools key = some p) : p.pool.Sited (reportedSites S) m.settings key :=
  sited_of_reachable (fun _ _ => id) h hp

def withReplica : Cluster :=
  { single [97] [104] [117] [100] with replicas := (∅ : Map GoString Node).insert [114] ⟨[105],0⟩ }

theorem recipes_reported_replica : ∃ m p r,
    Module.step { settings := { replicaPools := true } } (.added withReplica) = some m ∧
    m.pools ([117],[100]) = some p ∧ p.pool.replicaRecipes [114] = some r ∧ r.address = [105] ∧
    p.pool.Sited (reportedSites (· = withReplica)) m.settings ([117],[100]) :=
  ⟨_,_,_,rfl,rfl,rfl,rfl,recipes_reported (.next (e := .added withReplica) .start (by simp [Event.changes]) rfl)
    ([117],[100]) _ rfl⟩

end

/-- `sqladmin.IpMapping` -/
structure IpMapping where
  type : GoString
  ipAddress : GoString

/-- `sqladmin.DatabaseInstance` -/
structure DatabaseInstance where
  name : GoString
  instanceType : GoString
  databaseVersion : GoString
  replicaNames : List GoString
  ipAddresses : List IpMapping

/-- What a call of `Clusters` meets: the configured type, the instances that the API lists, and for each primary its
databases and its users with their passwords. -/
structure CloudSql (E : Type) where
  ipAddressType : GoString
  items : List DatabaseInstance
  databases : DatabaseInstance → Except E (List GoString)
  users : DatabaseInstance → Except E (List User)

namespace CloudSql
variable {E : Type} (T : CloudSql E)

/-- The loops over the addresses of `primary` in `instanceToCluster`. -/
def address (primary : DatabaseInstance) : GoString :=
  primary.ipAddresses.foldl (fun address ip =>
    if ip.type ≠ T.ipAddressType then address else joinHostPort ip.ipAddress (ascii "5432".toList)) []

/-- The loop for a replica goes over the addresses of the primary too. -/
def instanceToCluster (primary : DatabaseInstance) (replicas : List DatabaseInstance) : Except E Cluster :=
  T.databases primary >>= fun databases =>
    (fun users =>
      { id := primary.name
        primary := ⟨T.address primary,0⟩
        replicas := replicas.foldl (fun nodes replica => nodes.insert replica.name ⟨T.address primary,0⟩) ∅
        databases := databases
        users := users }) <$> if databases = [] then .ok [] else T.users primary

def isPrimary (cluster : DatabaseInstance) : Bool :=
  cluster.instanceType = ascii "CLOUD_SQL_INSTANCE".toList && (ascii "POSTGRES_".toList).isPrefixOf cluster.databaseVersion

/-- The instances that a primary names as its replicas. -/
def replicasOf (cluster : DatabaseInstance) : List DatabaseInstance :=
  cluster.replicaNames.filterMap fun name => T.items.find? (·.name = name)

/-- `Clusters` -/
def clusters : Except E (List Cluster) :=
  (T.items.filter isPrimary).mapM fun cluster => T.instanceToCluster cluster (T.replicasOf cluster)

/-- The instance's own addresses of the configured type. -/
def own (i : DatabaseInstance) : List GoString :=
  (i.ipAddresses.filter (·.type = T.ipAddressType)).map fun ip => joinHostPort ip.ipAddress (ascii "5432".toList)

/-- Some calls found the user and the database at the primary of this name. -/
structure Serves (A : CloudSql E → Prop) (name : GoString) (q : Key) : Prop where
  user : ∃ T, A T ∧ ∃ i ∈ T.items, isPrimary i = true ∧ i.name = name ∧
    ∃ users, T.users i = .ok users ∧ ∃ user ∈ users, user.username = q.1
  database : ∃ T, A T ∧ ∃ i ∈ T.items, isPrimary i = true ∧ i.name = name ∧
    ∃ databases, T.databases i = .ok databases ∧ q.2 ∈ databases

/-- For a user and a database, the own addresses of the primary that serves them, and those of its replicas. -/
def sites (A : CloudSql E → Prop) : Sites where
  primary q address := ∃ T, A T ∧ ∃ i ∈ T.items, isPrimary i = true ∧ Serves A i.name q ∧ address ∈ T.own i
  replica q name address := ∃ T, A T ∧ ∃ i ∈ T.items, isPrimary i = true ∧ Serves A i.name q ∧
    name ∈ i.replicaNames ∧ ∃ r ∈ T.items, r.name = name ∧ address ∈ T.own r

variable {T} {A : CloudSql E → Prop}

private theorem get_foldl_insert {node n : Node} {replicas : List DatabaseInstance} {name : GoString}
    (h : (replicas.foldl (fun nodes replica => nodes.insert replica.name node) (∅ : Map GoString Node)).get name = some n) :
    (∃ replica ∈ replicas, replica.name = name) ∧ n = node := by
  refine foldl_keeps (P := fun nodes : Map GoString Node => ∀ name n, nodes.get name = some n →
    (∃ replica ∈ replicas, replica.name = name) ∧ n = node) (fun r hr nodes h name n hg => ?_) (by rintro _ _ ⟨⟩) name n h
  rw [Map.get_insert] at hg
  split at hg
  · rename_i hn
    exact ⟨⟨r,hr,hn.symm⟩,(Option.some.inj hg).symm⟩
  · exact h name n hg

/-- A cluster that a call makes of a primary. -/
structure Makes (T : CloudSql E) (i : DatabaseInstance) (c : Cluster) : Prop where
  item : i ∈ T.items
  primary : isPrimary i = true
  made : T.instanceToCluster i (T.replicasOf i) = .ok c

namespace Makes
variable {i : DatabaseInstance} {c : Cluster}

theorem database (h : T.Makes i c) {database : GoString} (hd : database ∈ c.databases) :
    ∃ databases, T.databases i = .ok databases ∧ database ∈ databases := by
  obtain ⟨databases,found,hc⟩ := bind_eq_ok.mp h.made
  obtain ⟨users,-,rfl⟩ := map_eq_ok.mp hc
  exact ⟨databases,found,hd⟩

theorem user (h : T.Makes i c) {name : GoString} (hu : name ∈ c.names) :
    ∃ users, T.users i = .ok users ∧ ∃ user ∈ users, user.username = name := by
  obtain ⟨databases,-,hc⟩ := bind_eq_ok.mp h.made
  obtain ⟨users,found,rfl⟩ := map_eq_ok.mp hc
  obtain ⟨user,hm,rfl⟩ := List.mem_map.mp hu
  split at found
  · cases found
    cases hm
  · exact ⟨users,found,user,hm,rfl⟩

end Makes

/-- A primary at 10.0.0.1 with one replica, at the second address. -/
def console (replica : String) : CloudSql Unit where
  ipAddressType := ascii "PRIVATE".toList
  items :=
    [⟨ascii "db".toList,ascii "CLOUD_SQL_INSTANCE".toList,ascii "POSTGRES_15".toList,[ascii "r".toList],
        [⟨ascii "PRIVATE".toList,ascii "10.0.0.1".toList⟩]⟩,
      ⟨ascii "r".toList,ascii "READ_REPLICA_INSTANCE".toList,ascii "POSTGRES_15".toList,[],
        [⟨ascii "PRIVATE".toList,ascii replica.toList⟩]⟩]
  databases _ := .ok [ascii "app".toList]
  users _ := .ok [⟨ascii "u".toList,[]⟩]

/-- The first reconcile. -/
def served (replica : String) : Option Module :=
  (console replica).clusters.toOption.bind fun report =>
    Module.step { settings := { replicaPools := true } } (.reconcile report [ascii "db".toList])

end CloudSql
end Pggat.Discovery
