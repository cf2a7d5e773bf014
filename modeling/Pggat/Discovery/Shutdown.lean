import Pggat.Discovery.Clusters

/-! `Cleanup` between the critical sections of `discoverLoop`, which does not look at the closed channel. -/
namespace Pggat.Discovery
open Pggat.Base

/-- The critical sections that change `T.pools`. -/
inductive Section where
  | getOrAddPool (user : User) (database : GoString)
  | removePool (username database : GoString)
  | removeReplicaPool (username database : GoString)

namespace Section

def run (m : Module) : Section → Module
  | getOrAddPool user database => (m.getOrAddPool user database).2
  | removePool username database => m.removePool username database
  | removeReplicaPool username database =>
    if (m.getPool username database).isSome then m.removeReplicaPool username database else m

def adds : Section → Bool
  | getOrAddPool _ _ => true
  | removePool _ _ | removeReplicaPool _ _ => false

theorem run_empty {m : Module} {x : Section} (hx : x.adds = false) (h : ∀ key, m.pools key = none) (key : Key) :
    (x.run m).pools key = none := by
  cases x with
  | getOrAddPool => cases hx
  | removePool username database =>
    rcases eq_or_ne key (username,database) with rfl | ne
    · exact Function.update_self ..
    · exact (Function.update_of_ne ne ..).trans (h key)
  | removeReplicaPool username database =>
    rw [run,Module.getPool,h]
    exact h key

end Section

def Statement.sections (settings : Settings) : Statement → List Section
  | addPrimaryNode user database _ => [.getOrAddPool user database]
  | addReplicaRecipes user database _ =>
    .getOrAddPool user database :: if settings.replicaPools then [] else [.getOrAddPool (toReplicaUser user) database]
  | removeReplicaNodes username database _ =>
    if settings.replicaPools then [] else [.removeReplicaPool username database]
  | removeReplicaNode _ _ _ => []
  | removePrimaryNode username database => [.removePool username database]

def Statement.adds : Statement → Bool
  | addPrimaryNode .. | addReplicaRecipes .. => true
  | removeReplicaNodes .. | removeReplicaNode .. | removePrimaryNode .. => false

/-- A removal, a new cluster without users or databases, or a report with nothing new for any pair. -/
def Change.Quiet (m : Module) : Change → Prop
  | removed _ => True
  | added next =>
    match m.clusters.get next.id with
    | none => next.users = [] ∨ next.databases = []
    | some prev =>
      ((prev.users = [] ∨ prev.databases = []) ∨
        prev.primary = next.primary ∧ ∀ e ∈ next.replicas.entries, prev.replicas.get e.1 = some e.2) ∧
      (∀ user ∈ next.users, prev.databases = [] ∨
        (prev.users.find? (·.username = user.username)).map User.password = some user.password) ∧
      ∀ database ∈ next.databases, database ∈ prev.databases ∨ next.users = []

section
variable {users : List User} {databases : List GoString} {body : User → GoString → List Statement} {prev next : Cluster}

private theorem sections_iff (settings : Settings) (s : Statement) :
    (∀ x ∈ s.sections settings, x.adds = false) ↔ s.adds = false := by
  cases s with
  | removeReplicaNodes => cases h : settings.replicaPools <;> simp [Statement.sections,h,Statement.adds,Section.adds]
  | _ => simp [Statement.sections,Statement.adds,Section.adds]

private theorem eachPair_iff (P : Prop) (h : ∀ user database, (∀ s ∈ body user database, s.adds = false) ↔ P) :
    (∀ s ∈ eachPair users databases body, s.adds = false) ↔ (users = [] ∨ databases = []) ∨ P := by
  simp only [eachPair,SProd.sprod,List.product,List.forall_mem_flatMap,List.forall_mem_map,h]
  rcases users with _ | ⟨user,users⟩
  · simp
  rcases databases with _ | ⟨database,databases⟩
  · simp
  · exact ⟨fun h => .inr (h user List.mem_cons_self database List.mem_cons_self),fun h _ _ _ _ => by simpa using h⟩

private theorem addsPair_iff : (∀ s ∈ eachPair users databases next.addsPair, s.adds = false) ↔
    users = [] ∨ databases = [] := by
  rw [eachPair_iff False fun _ _ => by simp [Cluster.addsPair, Statement.adds],or_false]

private theorem removesPair_iff : (∀ s ∈ eachPair users databases next.removesPair, s.adds = false) ↔ True := by
  rw [eachPair_iff True fun _ _ => by simp [Cluster.removesPair, Statement.adds],or_true]

private theorem ite_iff {c : Prop} [Decidable c] {l : List Statement} :
    ((∀ s ∈ if c then l else [], s.adds = false) ↔ ¬ c ∨ ∀ s ∈ l, s.adds = false) ∧
      ((∀ s ∈ if c then [] else l, s.adds = false) ↔ c ∨ ∀ s ∈ l, s.adds = false) := by
  by_cases h : c
  · simp [h]
  · simp [h]

private theorem replica_iff : (∀ s ∈ replicaStatements prev next, s.adds = false) ↔
    (prev.users = [] ∨ prev.databases = []) ∨ ∀ e ∈ next.replicas.entries, prev.replicas.get e.1 = some e.2 := by
  have adds (l : List ((_ : GoString) × Node)) : (∀ s ∈ eachPair prev.users prev.databases fun user database =>
      [.addReplicaRecipes user database l], s.adds = false) ↔ _ := eachPair_iff False fun _ _ => by simp [Statement.adds]
  have removes (id : GoString) : (∀ s ∈ eachPair prev.users prev.databases fun user database =>
      [.removeReplicaNode user.username database id], s.adds = false) ↔ _ :=
    eachPair_iff True fun _ _ => by simp [Statement.adds]
  unfold replicaStatements
  dsimp only
  split
  · rename_i h
    rw [eachPair_iff True fun _ _ => by simp [Statement.adds],h.2]
    simp
  · split
    · rename_i h
      have none : prev.replicas = ∅ := AList.ext h.1
      rw [adds,none]
      simp [List.eq_nil_iff_forall_not_mem.not.mp h.2]
    · simp only [List.forall_mem_append,List.forall_mem_flatMap,ite_iff,adds,removes,or_true,implies_true,and_true,
        or_false,ne_eq,not_not,or_comm (a := prev.replicas.get _ = _),forall_or_left]

private theorem user_iff {user : User} : (∀ s ∈ userStatements prev next user, s.adds = false) ↔
    prev.databases = [] ∨ (prev.users.find? (·.username = user.username)).map User.password = some user.password := by
  unfold userStatements
  dsimp only
  split
  · rename_i none
    simp [addsPair_iff,none]
  · rename_i prevUser found
    rw [ite_iff.1,List.forall_mem_append,addsPair_iff,removesPair_iff,or_comm,found]
    simp [@eq_comm _ user.password]

/-- The handler of a change adds a pool exactly when the change is not quiet. -/
theorem Change.quiet_iff (m : Module) (change : Change) :
    (∀ x ∈ (change.statements m).flatMap (·.sections m.settings), x.adds = false) ↔ change.Quiet m := by
  simp only [List.forall_mem_flatMap,sections_iff]
  cases change with
  | added next =>
    cases h : m.clusters.get next.id with
    | none => simp only [statements,Quiet,h,Cluster.addedStatements,addsPair_iff]
    | some prev =>
      simp only [statements,Quiet,h,updatedStatements,endpointStatements,usersStatements,databasesStatements,
        List.forall_mem_append,List.forall_mem_flatMap,ite_iff,replica_iff,user_iff,addsPair_iff,removesPair_iff,
        or_true,implies_true,and_true,List.cons_ne_nil,or_false,or_and_left]
      rw [eachPair_iff False fun _ _ => by simp [Statement.adds],or_false,ne_eq,not_not,or_comm]
  | removed id =>
    refine iff_of_true ?_ trivial
    cases h : m.clusters.get id with
    | none => simp [statements,h]
    | some cluster =>
      simp only [statements,h,Cluster.removedStatements,List.forall_mem_flatMap,removesPair_iff,implies_true]

end

instance (m : Module) (change : Change) : Decidable (change.Quiet m) := decidable_of_iff _ (change.quiet_iff m)

/-- The module with what the loop has still to do of the event that it took. -/
structure Loop where
  m : Module
  changes : List Change := []
  sections : List Section := []
  closed : Bool := false

namespace Loop

inductive Step where
  | event (e : Event)
  | change
  | lock
  | cleanup

def begun (s : Loop) (change : Change) : List Section :=
  (change.statements s.m).flatMap (·.sections s.m.settings)

def step (s : Loop) : Step → Option Loop
  | .event e => if s.changes.isEmpty ∧ s.sections.isEmpty then some { s with changes := e.changes } else none
  | .change =>
    match s.changes, s.sections with
    | change :: changes, [] =>
      some { s with m := { s.m with clusters := change.clusters s.m }, changes, sections := s.begun change }
    | _, _ => none
  | .lock =>
    match s.sections with
    | [] => none
    | x :: sections => some { s with m := x.run s.m, sections }
  | .cleanup => if s.closed then none else some { s with m := { s.m with pools := fun _ => none }, closed := true }

/-- Nothing that adds a pool is left to do at `Cleanup`, and only quiet changes are begun after it. -/
def Calm (s : Loop) : Step → Prop
  | .cleanup => ∀ x ∈ s.sections, x.adds = false
  | .change => s.closed = true → ∀ change ∈ s.changes.head?, change.Quiet s.m
  | _ => True

instance : ∀ s e, Decidable (Calm s e)
  | s, .cleanup => inferInstanceAs (Decidable (∀ x ∈ s.sections, _))
  | s, .change => inferInstanceAs (Decidable (s.closed = true → ∀ change ∈ s.changes.head?, _))
  | _, .event _ | _, .lock => .isTrue trivial

/-- In every run in which nothing that adds a pool is left to do at `Cleanup` and only quiet changes are begun later,
there are no pools from then on. -/
theorem closed_without_pools {settings : Settings} {s : Loop}
    (h : Reachable { m := { settings := settings } } Calm step s) (hc : s.closed = true) (key : Key) :
    s.m.pools key = none := by
  refine (h.invariant (P := fun s => s.closed = true →
    (∀ key, s.m.pools key = none) ∧ ∀ x ∈ s.sections, x.adds = false) Bool.noConfusion ?_ hc).1 key
  intro s e s' hi calm hs closed
  cases e with
  | event e =>
    rw [step] at hs
    split at hs
    · cases hs
      exact hi closed
    · cases hs
  | change =>
    rw [step] at hs
    split at hs
    · rename_i changes _
      cases hs
      exact ⟨(hi closed).1,(Change.quiet_iff ..).mpr (calm closed _ (by rw [changes]; rfl))⟩
    · cases hs
  | lock =>
    rw [step] at hs
    split at hs
    · cases hs
    · rename_i x rest sections
      cases hs
      obtain ⟨empty,rest⟩ := hi closed
      rw [sections,List.forall_mem_cons] at rest
      exact ⟨x.run_empty rest.1 empty,rest.2⟩
  | cleanup =>
    rw [step] at hs
    split at hs
    · cases hs
    · cases hs
      exact ⟨fun _ => rfl,calm⟩

def sole : Cluster := single (ascii ['a']) (ascii ['h']) (ascii ['u']) (ascii ['d'])

def start : Loop := { m := { settings := { replicaPools := true } } }

/-- The cluster is reported unchanged after `Cleanup`, and then removed. -/
def quietEnd : List Step :=
  [.event (.added sole), .change, .lock, .lock, .cleanup, .event (.added sole), .change, .event (.removed sole.id), .change,
    .lock]

theorem closed_without_pools_removed : ∃ s : Loop, run Calm step start quietEnd = some s ∧ s.closed = true ∧
    ∀ key, s.m.pools key = none := by
  obtain ⟨s,hs,closed⟩ := Option.map_eq_some_iff.mp
    (show (run Calm step start quietEnd).map Loop.closed = some true by decide +kernel)
  exact ⟨s,hs,closed,closed_without_pools (.of_run .start (fun _ _ h => h) _ hs) closed⟩

/-- A cluster that comes after `Cleanup` gets its pool. -/
theorem pool_after_cleanup : (run (fun _ _ => True) step start [.cleanup, .event (.added sole), .change, .lock]).map
    (fun s => (s.closed,(s.m.pools (ascii ['u'],ascii ['d'])).isSome)) = some (true,true) := by
  decide +kernel

end Loop
end Pggat.Discovery
