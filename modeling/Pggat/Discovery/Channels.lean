import Mathlib.Data.List.Induction
import Pggat.Base.Lanes
import Pggat.Discovery.Clusters
import Pggat.Discovery.Informers

/-! The two channels between an informer's handlers and `discoverLoop`, whose select takes from either. -/
namespace Pggat.Discovery
open Pggat.Base

/-- The module and the channels of its discoverer. No reconcile period is configured. -/
structure Feed where
  module : Module
  channels : Lanes Cluster GoString := {}

namespace Feed

def capacity : Nat := 200

/-- A message is dropped if its channel is full. -/
def send (f : Feed) : Cluster ⊕ GoString → Feed
  | .inl cluster =>
    if f.channels.left.length < capacity then { f with channels := f.channels.sendLeft cluster } else f
  | .inr id => if f.channels.right.length < capacity then { f with channels := f.channels.sendRight id } else f

inductive Event (d : Discoverer) where
  | notify (api : Api) (type : EventType) (obj : Option d.Resource)
  | takeAdded
  | takeRemoved

def step (d : Discoverer) (f : Feed) : Event d → Option Feed
  | .notify api type obj =>
    match d.handle api type obj with
    | none => some f
    | some message => some (f.send message)
  | .takeAdded => f.channels.takeLeft.map fun (cluster,channels) => ⟨f.module.added cluster,channels⟩
  | .takeRemoved => f.channels.takeRight.map fun (id,channels) => ⟨f.module.removed id,channels⟩

/-- What `Provision` leaves: it reconciles with what the discoverer reports. -/
def initial (settings : Settings) (clusters : List Cluster) (order : List GoString) : Feed where
  module := Module.reconcile { settings := settings } clusters order

/-- No message about the same cluster that was sent earlier waits in the other channel. -/
def InTurn {d : Discoverer} (f : Feed) : Event d → Prop
  | .notify .. => True
  | .takeAdded => f.channels.LeftTurn about
  | .takeRemoved => f.channels.RightTurn about

instance {d : Discoverer} (f : Feed) : (e : Event d) → Decidable (f.InTurn e)
  | .notify .. => .isTrue trivial
  | .takeAdded => inferInstanceAs (Decidable (f.channels.LeftTurn about))
  | .takeRemoved => inferInstanceAs (Decidable (f.channels.RightTurn about))

def lastSent (f : Feed) (id : GoString) : Option (Cluster ⊕ GoString) :=
  (f.channels.sent.filter (about · = id)).getLast?

def Drained (f : Feed) : Prop := f.channels.left = [] ∧ f.channels.right = []

end Feed

/-- What `discoverLoop` does with a message. -/
def Change.ofMessage : Cluster ⊕ GoString → Change := Sum.elim .added .removed

variable {m : Module}

theorem Change.cached_foldl (l : List Change) (h : m.Cached) : (l.foldl Change.apply m).Cached :=
  foldl_keeps (fun change _ _ h => (change.kept h).cached) h

theorem Change.get_ofMessage (e : Cluster ⊕ GoString) (h : m.Cached) (id : GoString) :
    ((ofMessage e).apply m).clusters.get id = if about e = id then e.getLeft? else m.clusters.get id := by
  split
  · rename_i here
    subst here
    cases e with
    | inl next => exact (congrArg (Map.get · next.id) ((Change.added next).kept h).clusters).trans (by simp [clusters])
    | inr id => exact (congrArg (Map.get · id) ((Change.removed id).kept h).clusters).trans (by simp [clusters])
  · rename_i other
    have ne : id ≠ (ofMessage e).id := by cases e <;> exact Ne.symm other
    exact get_apply _ h ne

/-- After a sequence of messages, the last one about a cluster decides whether it is known. -/
theorem get_messages (l : List (Cluster ⊕ GoString)) (h : m.Cached) (id : GoString) :
    (l.foldl (fun m e => (Change.ofMessage e).apply m) m).clusters.get id =
      ((l.filter (about · = id)).getLast?).elim (m.clusters.get id) Sum.getLeft? := by
  induction l using List.reverseRecOn with
  | nil => rfl
  | append_singleton l e ih =>
    have cached : (l.foldl (fun m e => (Change.ofMessage e).apply m) m).Cached :=
      foldl_keeps (P := Module.Cached) (fun e _ _ h => ((Change.ofMessage e).kept h).cached) h
    rw [List.foldl_append,List.foldl_cons,List.foldl_nil,Change.get_ofMessage e cached,ih,List.filter_append]
    by_cases here : about e = id <;> simp [here]

namespace Feed
variable {d : Discoverer} {start f : Feed}

/-- The module is what the messages taken so far made of it. -/
structure Follows (start f : Feed) : Prop where
  module : f.module = f.channels.taken.foldl (fun m e => (Change.ofMessage e).apply m) start.module
  orderly : f.channels.Orderly about

private theorem Follows.send (h : Follows start f) (message : Cluster ⊕ GoString) : Follows start (f.send message) := by
  cases message with
  | inl cluster =>
    rw [Feed.send]
    split
    · exact ⟨h.module,h.orderly.sendLeft cluster⟩
    · exact h
  | inr id =>
    rw [Feed.send]
    split
    · exact ⟨h.module,h.orderly.sendRight id⟩
    · exact h

private theorem Follows.step (h : Follows start f) {e : Event d} {f' : Feed} (turn : f.InTurn e)
    (he : f.step d e = some f') :
    Follows start f' := by
  cases e with
  | notify api type obj =>
    rw [Feed.step] at he
    split at he
    · cases he; exact h
    · cases he; exact h.send _
  | takeAdded =>
    obtain ⟨⟨cluster,channels⟩,ht,rfl⟩ := Option.map_eq_some_iff.mp he
    refine ⟨?_,h.orderly.takeLeft ht turn⟩
    obtain ⟨n,left,-,rfl⟩ := Lanes.takeLeft_some ht
    rw [List.foldl_append,← h.module]
    rfl
  | takeRemoved =>
    obtain ⟨⟨id,channels⟩,ht,rfl⟩ := Option.map_eq_some_iff.mp he
    refine ⟨?_,h.orderly.takeRight ht turn⟩
    obtain ⟨n,right,-,rfl⟩ := Lanes.takeRight_some ht
    rw [List.foldl_append,← h.module]
    rfl

private theorem follows {settings : Settings} {clusters : List Cluster} {order : List GoString}
    (h : Reachable (initial settings clusters order) InTurn (step d) f) :
    Follows (initial settings clusters order) f :=
  h.invariant ⟨rfl,.initial⟩ fun _ _ _ h turn he => h.step turn he

theorem initial_cached (settings : Settings) (clusters : List Cluster) (order : List GoString) :
    (initial settings clusters order).module.Cached := by
  have start : Module.Cached { settings := settings } := fun _ _ h => nomatch h
  have added := Change.cached_foldl (clusters.map .added) start
  rw [← Module.reconcileAdded_eq] at added
  refine foldl_keeps (P := Module.Cached) (fun id _ m h => ?_) added
  split
  · exact h
  · exact (Change.kept (.removed id) h).cached

end Feed

/-- In every run in which messages about a cluster are taken in turn, once both channels are drained, a cluster is known
exactly if the last message about it was not a removal. One that no message is about is as it was at the start. -/
theorem known_iff_lastSent {d : Discoverer} {settings : Settings} {clusters : List Cluster} {order : List GoString}
    {f : Feed} (h : Reachable (Feed.initial settings clusters order) Feed.InTurn (Feed.step d) f) (drained : f.Drained)
    (id : GoString) :
    (∀ message, f.lastSent id = some message → (f.module.clusters.get id ≠ none ↔ message.isLeft)) ∧
    (f.lastSent id = none →
      f.module.clusters.get id = (Feed.initial settings clusters order).module.clusters.get id) := by
  have follows := Feed.follows h
  have known := get_messages f.channels.taken (Feed.initial_cached settings clusters order) id
  rw [← follows.module,(follows.orderly.inOrder id).drained drained.1 drained.2] at known
  constructor
  · intro message last
    rw [Feed.lastSent] at last
    rw [known,last]
    cases message <;> simp
  · intro last
    rw [Feed.lastSent] at last
    rw [known,last]
    rfl

def zalandoCluster (name : Char) (uid : GoString) : Zalando.Resource where
  name := ascii [name]
  ns := postgres
  uid := uid
  numberOfInstances := 2
  users := []
  databases := [postgres]

def zalandoConfig : Zalando.Config where
  matcher := ⟨postgres,∅⟩
  clusterDomain := ascii ['k', '8', 's']
  secretName user cluster := user ++ cluster

def silent : Api := ⟨fun _ => none,fun _ _ => none⟩

/-- Two clusters of which one is deleted, each message taken before the next about its cluster is sent. -/
def inTurn : List (Feed.Event (.zalando zalandoConfig)) :=
  [.notify silent .added (some (zalandoCluster 'a' [1])), .notify silent .added (some (zalandoCluster 'b' [2])),
    .takeAdded, .notify silent .deleted (some (zalandoCluster 'a' [1])), .takeRemoved, .takeAdded]

theorem known_iff_lastSent_inTurn :
    ∃ f, Reachable (Feed.initial { replicaPools := true } [] []) Feed.InTurn
        (Feed.step (.zalando zalandoConfig)) f ∧
      f.Drained ∧ f.module.clusters.get [1] = none ∧ f.module.clusters.get [2] ≠ none := by
  have h : Reachable (Feed.initial { replicaPools := true } [] []) Feed.InTurn (Feed.step (.zalando zalandoConfig)) _ :=
    Reachable.of_run .start (fun _ _ => id) inTurn rfl
  have deleted := (known_iff_lastSent h ⟨rfl,rfl⟩ [1]).1 (.inr [1]) rfl
  have added := (known_iff_lastSent h ⟨rfl,rfl⟩ [2]).1 _ rfl
  exact ⟨_,h,⟨rfl,rfl⟩,by simpa using deleted,added.mpr rfl⟩

/-- With any discoverer, a deletion can overtake the addition of its cluster. -/
theorem overtaken {d : Discoverer} {r : d.Resource} {c : Cluster}
    (added : d.handle silent .added (some r) = some (.inl c))
    (deleted : d.handle silent .deleted (some r) = some (.inr c.id)) :
    ∃ f, Reachable (Feed.initial { replicaPools := true } [] []) (fun _ _ => True) (Feed.step d) f ∧
      f.Drained ∧ f.lastSent c.id = some (.inr c.id) ∧ f.module.clusters.get c.id ≠ none := by
  have sent (f : Feed) : f.step d (.notify silent .added (some r)) = some (f.send (.inl c)) := by rw [Feed.step,added]
  have sent' (f : Feed) : f.step d (.notify silent .deleted (some r)) = some (f.send (.inr c.id)) := by
    rw [Feed.step,deleted]
  have waiting : Reachable (Feed.initial { replicaPools := true } [] []) (fun _ _ => True) (Feed.step d) _ :=
    (Reachable.start.next trivial (sent _)).next trivial (sent' _)
  refine ⟨_,(waiting.next (e := .takeRemoved) trivial rfl).next (e := .takeAdded) trivial rfl,⟨rfl,rfl⟩,?_,?_⟩
  · simp [Feed.lastSent,Feed.send,Feed.capacity,Feed.initial,Lanes.sendLeft,Lanes.sendRight,about]
  · have cached := Feed.initial_cached { replicaPools := true } [] []
    have known := Change.get_ofMessage (.inl c) (Change.kept (.removed c.id) cached).cached c.id
    exact ne_of_eq_of_ne (known.trans (if_pos rfl)) (Option.some_ne_none c)

def cloudNativeConfig : CloudNativePG.Config where
  matcher := ⟨[],∅⟩
  clusterDomain := ascii ['k', '8', 's']
  readWriteServiceSuffix := ascii ['-', 'r', 'w']
  readOnlyServiceSuffix := ascii ['-', 'r', 'o']
  port := 5432
  secretSuffix := ascii ['-', 'a', 'p', 'p']
  includeSuperuser := false

/-- Under either discoverer a cluster that was added and then deleted can stay known. -/
theorem deleted_cluster_known :
    (∃ f, Reachable (Feed.initial { replicaPools := true } [] []) (fun _ _ => True)
        (Feed.step (.zalando zalandoConfig)) f ∧
      f.Drained ∧ f.lastSent [1] = some (.inr [1]) ∧ f.module.clusters.get [1] ≠ none) ∧
    ∃ f, Reachable (Feed.initial { replicaPools := true } [] []) (fun _ _ => True)
        (Feed.step (.cloudNativePG cloudNativeConfig)) f ∧
      f.Drained ∧ f.lastSent [1] = some (.inr [1]) ∧ f.module.clusters.get [1] ≠ none :=
  ⟨overtaken (d := .zalando zalandoConfig) (r := zalandoCluster 'a' [1]) rfl rfl,
    overtaken (d := .cloudNativePG cloudNativeConfig) (r := ⟨ascii ['a'],postgres,[1],1,none,[]⟩) rfl rfl⟩

end Pggat.Discovery
