import Pggat.Auth.Credentials
import Pggat.Base.Maps

/-! The discovery module: it keeps a pool for each user and database of the clusters that it is told about. -/
namespace Pggat.Discovery
open Pggat.Base Pggat.Auth

structure User where
  username : GoString
  password : GoString
  deriving DecidableEq, Repr

structure Node where
  address : GoString
  priority : Int
  deriving DecidableEq, Repr

structure Cluster where
  id : GoString
  primary : Node
  replicas : Map GoString Node
  databases : List GoString
  users : List User

/-- What the module is configured with. `replicaPools` says whether the pools that its factory makes are
`ReplicaPool`s; the rest goes into every recipe. -/
structure Settings where
  replicaPools : Bool
  sslMode : GoString := []
  parameters : List (GoString × GoString) := []
  minConnections : Int := 0
  maxConnections : Int := 0
  deriving DecidableEq, Repr

structure Recipe where
  address : GoString
  username : GoString
  credentials : Option Credentials
  database : GoString
  priority : Int
  settings : Settings
  deriving DecidableEq, Repr

def Settings.recipe (settings : Settings) (node : Node) (username : GoString) (creds : Option Credentials)
    (database : GoString) : Recipe where
  address := node.address
  username := username
  credentials := creds
  database := database
  priority := node.priority
  settings := settings

/-- The recipes of a pool by name. Pools are closed when they are taken out of the module, so those in it are open. -/
@[ext] structure Pool where
  recipes : GoString → Option Recipe := fun _ => none
  replicaRecipes : GoString → Option Recipe := fun _ => none

namespace Pool

def addRecipe (p : Pool) (name : GoString) (recipe : Recipe) : Pool :=
  { p with recipes := Function.update p.recipes name (some recipe) }

def removeRecipe (p : Pool) (name : GoString) : Pool := { p with recipes := Function.update p.recipes name none }

def addReplicaRecipe (p : Pool) (name : GoString) (recipe : Recipe) : Pool :=
  { p with replicaRecipes := Function.update p.replicaRecipes name (some recipe) }

def removeReplicaRecipe (p : Pool) (name : GoString) : Pool :=
  { p with replicaRecipes := Function.update p.replicaRecipes name none }

end Pool

@[ext] structure PoolAndCredentials where
  pool : Pool
  creds : Option Credentials

/-- A username and a database. -/
abbrev Key := GoString × GoString

structure Module where
  settings : Settings
  clusters : Map GoString Cluster := ∅
  creds : User → Option (Option Credentials) := fun _ => none
  pools : Key → Option PoolAndCredentials := fun _ => none

/-- `primary` -/
def primaryName : GoString := ascii ['p', 'r', 'i', 'm', 'a', 'r', 'y']

def toReplicaUsername (username : GoString) : GoString := username ++ ascii ['_', 'r', 'o']

def toReplicaUser (user : User) : User := { user with username := toReplicaUsername user.username }

namespace Module

def getCreds (m : Module) (user : User) : Option Credentials × Module :=
  match m.creds user with
  | some creds => (creds,m)
  | none =>
    let creds := fromString user.username user.password
    (creds,{ m with creds := Function.update m.creds user (some creds) })

def setPool (m : Module) (key : Key) (p : PoolAndCredentials) : Module :=
  { m with pools := Function.update m.pools key (some p) }

def getOrAddPool (m : Module) (user : User) (database : GoString) : PoolAndCredentials × Module :=
  match m.pools (user.username,database) with
  | some old => (old,m)
  | none =>
    let (creds,m) := m.getCreds user
    let p := { pool := {}, creds := creds }
    (p,m.setPool (user.username,database) p)

def getOrAddReplicaPool (m : Module) (user : User) (database : GoString) : PoolAndCredentials × Module :=
  m.getOrAddPool (toReplicaUser user) database

def getPool (m : Module) (username database : GoString) : Option PoolAndCredentials := m.pools (username,database)

def getReplicaPool (m : Module) (username database : GoString) : Option PoolAndCredentials :=
  m.getPool (toReplicaUsername username) database

def removePool (m : Module) (username database : GoString) : Module :=
  { m with pools := Function.update m.pools (username,database) none }

def removeReplicaPool (m : Module) (username database : GoString) : Module :=
  m.removePool (toReplicaUsername username) database

def addPrimaryNode (m : Module) (user : User) (database : GoString) (primary : Node) : Module :=
  let (p,m) := m.getOrAddPool user database
  let d := m.settings.recipe primary user.username p.creds database
  m.setPool (user.username,database) { p with pool := p.pool.addRecipe primaryName d }

def removePrimaryNode (m : Module) (username database : GoString) : Module := m.removePool username database

/-- The body that `addReplicaNodes` and `addReplicaNode` share. -/
def addReplicaRecipes (m : Module) (user : User) (database : GoString) (replicas : List ((_ : GoString) × Node)) :
    Module :=
  let (p,m) := m.getOrAddPool user database
  let d (replica : Node) := m.settings.recipe replica user.username p.creds database
  if m.settings.replicaPools then
    let pool := replicas.foldl (fun pool e => pool.addReplicaRecipe e.1 (d e.2)) p.pool
    m.setPool (user.username,database) { p with pool := pool }
  else
    let (rp,m) := m.getOrAddReplicaPool user database
    let pool := replicas.foldl (fun pool e => pool.addRecipe e.1 (d e.2)) rp.pool
    m.setPool (toReplicaUsername user.username,database) { rp with pool := pool }

def addReplicaNodes (m : Module) (user : User) (database : GoString) (replicas : Map GoString Node) : Module :=
  m.addReplicaRecipes user database replicas.entries

def addReplicaNode (m : Module) (user : User) (database id : GoString) (replica : Node) : Module :=
  m.addReplicaRecipes user database [⟨id,replica⟩]

def removeReplicaNodes (m : Module) (username database : GoString) (replicas : Map GoString Node) : Module :=
  match m.getPool username database with
  | none => m
  | some p =>
    if m.settings.replicaPools then
      let pool := replicas.entries.foldl (fun pool e => pool.removeReplicaRecipe e.1) p.pool
      m.setPool (username,database) { p with pool := pool }
    else m.removeReplicaPool username database

def removeReplicaNode (m : Module) (username database id : GoString) : Module :=
  match m.getPool username database with
  | none => m
  | some p =>
    if m.settings.replicaPools then
      m.setPool (username,database) { p with pool := p.pool.removeReplicaRecipe id }
    else
      match m.getReplicaPool username database with
      | none => m
      | some rp =>
        m.setPool (toReplicaUsername username,database) { rp with pool := rp.pool.removeRecipe id }

/-- The nested loops over users and databases. -/
def forPairs (users : List User) (databases : List GoString) (body : User → GoString → Module → Module) (m : Module) :
    Module :=
  users.foldl (fun m user => databases.foldl (fun m database => body user database m) m) m

def replacePrimary (m : Module) (users : List User) (databases : List GoString) (primary : Node) : Module :=
  m.forPairs users databases fun user database m => m.addPrimaryNode user database primary

def addReplicas (m : Module) (replicas : Map GoString Node) (users : List User) (databases : List GoString) : Module :=
  m.forPairs users databases fun user database m => m.addReplicaNodes user database replicas

def removeReplicas (m : Module) (replicas : Map GoString Node) (users : List User) (databases : List GoString) :
    Module :=
  m.forPairs users databases fun user database m => m.removeReplicaNodes user.username database replicas

def addReplica (m : Module) (users : List User) (databases : List GoString) (id : GoString) (replica : Node) : Module :=
  m.forPairs users databases fun user database m => m.addReplicaNode user database id replica

def removeReplica (m : Module) (users : List User) (databases : List GoString) (id : GoString) : Module :=
  m.forPairs users databases fun user database m => m.removeReplicaNode user.username database id

def addUser (m : Module) (primary : Node) (replicas : Map GoString Node) (databases : List GoString) (user : User) :
    Module :=
  databases.foldl
    (fun m database => (m.addPrimaryNode user database primary).addReplicaNodes user database replicas) m

def removeUser (m : Module) (replicas : Map GoString Node) (databases : List GoString) (username : GoString) : Module :=
  databases.foldl
    (fun m database => (m.removeReplicaNodes username database replicas).removePrimaryNode username database) m

def addDatabase (m : Module) (primary : Node) (replicas : Map GoString Node) (users : List User) (database : GoString) :
    Module :=
  users.foldl (fun m user => (m.addPrimaryNode user database primary).addReplicaNodes user database replicas) m

def removeDatabase (m : Module) (replicas : Map GoString Node) (users : List User) (database : GoString) : Module :=
  users.foldl
    (fun m user => (m.removeReplicaNodes user.username database replicas).removePrimaryNode user.username database) m

def updateReplicas (m : Module) (prev next : Cluster) : Module :=
  if prev.replicas.entries ≠ [] ∧ next.replicas.entries = [] then
    m.removeReplicas prev.replicas prev.users prev.databases
  else if prev.replicas.entries = [] ∧ next.replicas.entries ≠ [] then
    m.addReplicas next.replicas prev.users prev.databases
  else
    let m := next.replicas.entries.foldl
      (fun m e =>
        if prev.replicas.get e.1 ≠ some e.2 then m.addReplica prev.users prev.databases e.1 e.2 else m) m
    prev.replicas.entries.foldl
      (fun m e => if (next.replicas.get e.1).isSome then m else m.removeReplica prev.users prev.databases e.1) m

def updateUser (m : Module) (prev next : Cluster) (nextUser : User) : Module :=
  match prev.users.find? (·.username = nextUser.username) with
  | none => m.addUser next.primary next.replicas prev.databases nextUser
  | some prevUser =>
    if nextUser.password ≠ prevUser.password then
      (m.removeUser next.replicas prev.databases nextUser.username).addUser next.primary next.replicas
        prev.databases nextUser
    else m

def updateUsers (m : Module) (prev next : Cluster) : Module :=
  let m := next.users.foldl (fun m nextUser => m.updateUser prev next nextUser) m
  prev.users.foldl
    (fun m prevUser =>
      if next.users.any (·.username = prevUser.username) then m
      else m.removeUser next.replicas prev.databases prevUser.username) m

def updateDatabases (m : Module) (prev next : Cluster) : Module :=
  let m := next.databases.foldl
    (fun m database =>
      if database ∈ prev.databases then m else m.addDatabase next.primary next.replicas next.users database) m
  prev.databases.foldl
    (fun m database =>
      if database ∈ next.databases then m else m.removeDatabase next.replicas next.users database) m

def updated (m : Module) (prev next : Cluster) : Module :=
  let m := { m with clusters := m.clusters.insert next.id next }
  let m := if prev.primary ≠ next.primary then m.replacePrimary prev.users prev.databases next.primary else m
  ((m.updateReplicas prev next).updateUsers prev next).updateDatabases prev next

def added (m : Module) (cluster : Cluster) : Module :=
  match m.clusters.get cluster.id with
  | some prev => m.updated prev cluster
  | none =>
    let m := { m with clusters := m.clusters.insert cluster.id cluster }
    cluster.users.foldl (fun m user => m.addUser cluster.primary cluster.replicas cluster.databases user) m

def removed (m : Module) (id : GoString) : Module :=
  match m.clusters.get id with
  | none => m
  | some cluster =>
    let m := { m with clusters := m.clusters.erase id }
    cluster.databases.foldl (fun m database => m.removeDatabase cluster.replicas cluster.users database) m

/-- The first loop of `reconcile`, over what the discoverer reports. -/
def reconcileAdded (m : Module) (clusters : List Cluster) : Module :=
  clusters.foldl
    (fun m cluster =>
      match m.clusters.get cluster.id with
      | none => m.added cluster
      | some prev => m.updated prev cluster) m

/-- `reconcile` once the discoverer has reported; `order` is the order in which Go ranges over `T.clusters`. -/
def reconcile (m : Module) (clusters : List Cluster) (order : List GoString) : Module :=
  order.foldl (fun m id => if clusters.any (·.id = id) then m else m.removed id) (m.reconcileAdded clusters)

end Module

inductive Event where
  | added (cluster : Cluster)
  | removed (id : GoString)
  | reconcile (clusters : List Cluster) (order : List GoString)

/-- The branches of the select in `discoverLoop`. Go ranges over each id of a map once. -/
def Module.step (m : Module) : Event → Option Module
  | .added cluster => some (m.added cluster)
  | .removed id => some (m.removed id)
  | .reconcile clusters order =>
    if order.Perm (m.reconcileAdded clusters).clusters.keys then some (m.reconcile clusters order) else none

end Pggat.Discovery
