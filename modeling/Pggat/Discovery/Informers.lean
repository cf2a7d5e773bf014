import Pggat.Discovery.Module

/-! The Kubernetes discoverers: what they make of a resource, and what their informer handlers send. -/
namespace Pggat.Discovery
open Pggat.Base

structure NamespaceMatcher where
  name : GoString
  labels : Map GoString GoString

namespace NamespaceMatcher

def matchesNamespace (nm : NamespaceMatcher) (ns : GoString) : Bool := !(nm.name ≠ [] && nm.name ≠ ns)

/-- A label that is missing reads as the empty string. -/
def matchesNamespaceLabels (nm : NamespaceMatcher) (namespaceLabels : Map GoString GoString) : Bool :=
  nm.labels.entries.all fun e => (namespaceLabels.get e.1).getD [] = e.2

end NamespaceMatcher

/-- What the Kubernetes API answers while an event is handled: the labels of a namespace and the data of a secret, by
namespace and name. `none` is an error. -/
structure Api where
  namespaceLabels : GoString → Option (Map GoString GoString)
  secret : GoString → GoString → Option (Map GoString GoString)

namespace Api

/-- Both discoverers check namespaces in this way. -/
def namespaceMatches (api : Api) (nm : NamespaceMatcher) (ns : GoString) : Bool :=
  if nm.labels.entries = [] then nm.matchesNamespace ns
  else
    match api.namespaceLabels ns with
    | none => false
    | some labels => nm.matchesNamespace ns && nm.matchesNamespaceLabels labels

/-- The user whose password a secret holds, unless it cannot be read or holds none. -/
def secretUser (api : Api) (ns secretName username : GoString) : List User :=
  match (api.secret ns secretName).bind (·.get (ascii ['p', 'a', 's', 's', 'w', 'o', 'r', 'd'])) with
  | some password => [⟨username,password⟩]
  | none => []

end Api

/-- `watch.EventType` -/
inductive EventType where
  | added
  | modified
  | deleted

def postgres : GoString := ascii ['p', 'o', 's', 't', 'g', 'r', 'e', 's']

/-- `name.namespace.svc.domain:port` -/
def serviceAddress (name ns domain port : GoString) : GoString :=
  name ++ ascii ['.'] ++ ns ++ ascii ['.', 's', 'v', 'c', '.'] ++ domain ++ ascii [':'] ++ port

namespace CloudNativePG

structure Config where
  matcher : NamespaceMatcher
  clusterDomain : GoString
  readWriteServiceSuffix : GoString
  readOnlyServiceSuffix : GoString
  port : Int
  secretSuffix : GoString
  includeSuperuser : Bool

/-- The secret is named by the empty string if there is none. -/
structure InitDB where
  database : GoString
  owner : GoString
  secret : GoString

structure Resource where
  name : GoString
  ns : GoString
  uid : GoString
  instances : Int
  initDB : Option InitDB
  superuserSecret : GoString

def clusterToDiscoveryCluster (d : Config) (api : Api) (cluster : Resource) : Cluster :=
  let ns := if cluster.ns = [] then ascii ['d', 'e', 'f', 'a', 'u', 'l', 't'] else cluster.ns
  let endpoint (suffix : GoString) : Node :=
    ⟨serviceAddress (cluster.name ++ suffix) ns d.clusterDomain (ascii (toString d.port).toList),0⟩
  let (databases,users) :=
    match cluster.initDB with
    | none => ([],[])
    | some initDB =>
      let database := if initDB.database = [] then postgres else initDB.database
      let owner := if initDB.owner = [] then database else initDB.owner
      let secretName := if initDB.secret ≠ [] then initDB.secret else cluster.name ++ d.secretSuffix
      ([database],if secretName ≠ [] then api.secretUser ns secretName owner else [])
  let superuser :=
    if d.includeSuperuser ∧ cluster.superuserSecret ≠ [] then api.secretUser ns cluster.superuserSecret postgres
    else []
  { id := cluster.uid
    primary := endpoint d.readWriteServiceSuffix
    replicas :=
      if 1 < cluster.instances then
        (∅ : Map GoString Node).insert (ascii ['r', 'e', 'a', 'd', '-', 'o', 'n', 'l', 'y'])
          (endpoint d.readOnlyServiceSuffix)
      else ∅
    databases := databases ++ [postgres]
    users := users ++ superuser }

/-- What is sent, on the left to `added` and on the right to `removed`. An object that is not a cluster is `none`. -/
def handleClusterEvent (d : Config) (api : Api) (obj : Option Resource) (eventType : EventType) :
    Option (Cluster ⊕ GoString) :=
  match obj with
  | none => none
  | some cluster =>
    if api.namespaceMatches d.matcher cluster.ns then
      match eventType with
      | .added | .modified => some (.inl (clusterToDiscoveryCluster d api cluster))
      | .deleted => some (.inr cluster.uid)
    else none

end CloudNativePG

namespace Zalando

/-- `secretName` formats the operator's template for secrets, by username and cluster. -/
structure Config where
  matcher : NamespaceMatcher
  clusterDomain : GoString
  secretName : GoString → GoString → GoString

/-- The users and databases stand in the order in which Go ranges over them. -/
structure Resource where
  name : GoString
  ns : GoString
  uid : GoString
  numberOfInstances : Int
  users : List GoString
  databases : List GoString

def postgresqlToCluster (d : Config) (api : Api) (cluster : Resource) : Cluster :=
  let endpoint (name : GoString) : Node :=
    ⟨serviceAddress name cluster.ns d.clusterDomain (ascii ['5', '4', '3', '2']),0⟩
  { id := cluster.uid
    primary := endpoint cluster.name
    replicas :=
      if 1 < cluster.numberOfInstances then
        (∅ : Map GoString Node).insert (ascii ['r', 'e', 'p', 'l'])
          (endpoint (cluster.name ++ ascii ['-', 'r', 'e', 'p', 'l']))
      else ∅
    databases := cluster.databases
    users := cluster.users.flatMap fun user =>
      api.secretUser cluster.ns (d.secretName (user.map fun b => if b = 95 then 45 else b) cluster.name) user }

/-- `AddFunc` and `UpdateFunc` -/
def added (d : Config) (api : Api) (obj : Option Resource) : Option (Cluster ⊕ GoString) :=
  match obj with
  | none => none
  | some psql =>
    if api.namespaceMatches d.matcher psql.ns then some (.inl (postgresqlToCluster d api psql)) else none

/-- `DeleteFunc`, which looks at no namespace. -/
def deleted (obj : Option Resource) : Option (Cluster ⊕ GoString) := obj.map (.inr ·.uid)

end Zalando

/-- A discoverer that learns from an informer. -/
inductive Discoverer where
  | cloudNativePG (config : CloudNativePG.Config)
  | zalando (config : Zalando.Config)

namespace Discoverer

def Resource : Discoverer → Type
  | cloudNativePG _ => CloudNativePG.Resource
  | zalando _ => Zalando.Resource

/-- What the handler of an informer event sends. -/
def handle : (d : Discoverer) → Api → EventType → Option d.Resource → Option (Cluster ⊕ GoString)
  | cloudNativePG config, api, eventType, obj => CloudNativePG.handleClusterEvent config api obj eventType
  | zalando config, api, .added, obj | zalando config, api, .modified, obj => Zalando.added config api obj
  | zalando _, _, .deleted, obj => Zalando.deleted obj

end Discoverer

def about : Cluster ⊕ GoString → GoString := Sum.elim Cluster.id id

end Pggat.Discovery
