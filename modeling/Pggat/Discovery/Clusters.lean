import Pggat.Base.Runs
import Pggat.Discovery.Phases

/-! Clusters side by side: which pairs an event acts on, and what every event keeps as long as those are not the pairs
of other clusters. -/
namespace Pggat.Discovery
open Pggat.Base Pggat.Auth

def single (id address username database : GoString) : Cluster where
  id := id
  primary := ⟨address,0⟩
  replicas := ∅
  databases := [database]
  users := [⟨username,ascii ['p']⟩]

def pairs (names databases : List GoString) : List Key := names ×ˢ databases

/-- What a single event does; `reconcile` is a sequence of such changes. -/
inductive Change where
  | added (cluster : Cluster)
  | removed (id : GoString)

namespace Change

def id : Change → GoString
  | added cluster => cluster.id
  | removed id => id

def apply (m : Module) : Change → Module
  | added cluster => m.added cluster
  | removed id => m.removed id

def touched (m : Module) : Change → List Key
  | added next =>
    match m.clusters.get next.id with
    | some prev =>
      pairs prev.names prev.databases ++ pairs next.names prev.databases ++ pairs next.names next.databases
    | none => pairs next.names next.databases
  | removed id =>
    match m.clusters.get id with
    | some cluster => pairs cluster.names cluster.databases
    | none => []

def clusters (m : Module) : Change → Map GoString Cluster
  | added next => m.clusters.insert next.id next
  | removed id => m.clusters.erase id

def statements (m : Module) : Change → List Statement
  | added next =>
    match m.clusters.get next.id with
    | some prev => updatedStatements prev next
    | none => next.addedStatements
  | removed id =>
    match m.clusters.get id with
    | some cluster => cluster.removedStatements
    | none => []

/-- The pairs that the change acts on collide neither with each other nor with those of another cluster. -/
def Apart (m : Module) (change : Change) : Prop :=
  (∀ q ∈ change.touched m, ∀ q' ∈ change.touched m, q ≠ q' → ¬ Clash m.settings q q') ∧
    ∀ e ∈ m.clusters.entries, e.1 ≠ change.id →
      ∀ q ∈ change.touched m, ∀ q' ∈ pairs e.2.names e.2.databases, ¬ Clash m.settings q q'

instance (m : Module) (change : Change) : Decidable (change.Apart m) := by unfold Apart; infer_instance

def AllApart (m : Module) : List Change → Prop
  | [] => True
  | change :: rest => change.Apart m ∧ AllApart (change.apply m) rest

instance decidableAllApart : ∀ (m : Module) (l : List Change), Decidable (AllApart m l)
  | _, [] => .isTrue trivial
  | m, change :: rest => @instDecidableAnd _ _ _ (decidableAllApart (change.apply m) rest)

end Change

def Event.changes : Event → List Change
  | .added cluster => [.added cluster]
  | .removed id => [.removed id]
  | .reconcile clusters order =>
    clusters.map .added ++ (order.filter fun id => !clusters.any (·.id = id)).map .removed

theorem Module.reconcileAdded_eq (m : Module) (clusters : List Cluster) :
    m.reconcileAdded clusters = (clusters.map Change.added).foldl Change.apply m := by
  rw [List.foldl_map]
  refine congrArg (fun f => clusters.foldl f m) ?_
  funext m c
  dsimp only [Change.apply]
  cases hc : m.clusters.get c.id with
  | none => rfl
  | some prev => rw [Module.added,hc]

variable {m : Module}

theorem Module.step_changes {m' : Module} {e : Event} (h : m.step e = some m') :
    m' = e.changes.foldl Change.apply m := by
  cases e with
  | added cluster => exact (Option.some.inj h).symm
  | removed id => exact (Option.some.inj h).symm
  | reconcile clusters order =>
    rw [Module.step] at h
    split at h
    · rw [← Option.some.inj h,Module.reconcile,Event.changes,List.foldl_append,← reconcileAdded_eq,List.foldl_map,
        List.foldl_filter]
      refine congrArg (fun f => order.foldl f (m.reconcileAdded clusters)) ?_
      funext m id
      cases clusters.any (·.id = id) <;> rfl
    · cases h

def Event.Apart (m : Module) (e : Event) : Prop := Change.AllApart m e.changes

instance (m : Module) (e : Event) : Decidable (e.Apart m) := Change.decidableAllApart m e.changes

variable {c : Cluster} {q : Key}

theorem mem_pairs : q ∈ pairs c.names c.databases ↔ c.Has q := List.pair_mem_product

variable {next : Cluster}

theorem mem_touched_updated {prev : Cluster} (known : m.clusters.get next.id = some prev) :
    q ∈ (Change.added next).touched m ↔ Touched prev next q := by
  simp only [Change.touched,known,List.mem_append,mem_pairs,Touched,or_assoc]
  exact or_congr_right (or_congr_left List.pair_mem_product)

theorem mem_touched_added (unknown : m.clusters.get c.id = none) :
    q ∈ (Change.added c).touched m ↔ c.Has q := by
  rw [Change.touched,unknown]
  exact mem_pairs

variable {id : GoString}

theorem mem_touched_removed (known : m.clusters.get id = some c) :
    q ∈ (Change.removed id).touched m ↔ c.Has q := by
  rw [Change.touched,known]
  exact mem_pairs

variable {change : Change}

theorem Change.Apart.others (h : change.Apart m)
    (hc : m.clusters.get id = some c) (ne : id ≠ change.id) {q' : Key} (hq : q ∈ change.touched m) (has : c.Has q') :
    ¬ Clash m.settings q q' :=
  h.2 ⟨id,c⟩ ((Map.mem_entries _ id c).mpr hc) ne q hq q' (mem_pairs.mpr has)

theorem Change.mem_touched (known : m.clusters.get change.id = some c) (has : c.Has q) : q ∈ change.touched m := by
  cases change with
  | added next => exact (mem_touched_updated known).mpr (.inl has)
  | removed id => exact (mem_touched_removed known).mpr has

theorem next_touched (m : Module) (has : next.Has q) :
    q ∈ (Change.added next).touched m := by
  cases known : m.clusters.get next.id with
  | some prev => exact (mem_touched_updated known).mpr (.inr (.inr has))
  | none => exact (mem_touched_added known).mpr has

namespace Change
variable {m : Module} {q : Key} (change : Change)

theorem apply_eq : change.apply m =
    (change.statements m).foldl Statement.run { m with clusters := change.clusters m } := by
  cases change with
  | added next =>
    rw [apply,statements]
    cases known : m.clusters.get next.id with
    | none => exact added_eq known
    | some prev => exact (by rw [Module.added,known] : m.added next = m.updated prev next).trans updated_eq
  | removed id =>
    rw [apply,statements]
    cases known : m.clusters.get id with
    | some c => exact removed_eq known
    | none =>
      have same : m.clusters.erase id = m.clusters :=
        AList.ext (List.kerase_of_notMem_keys ((Map.get_eq_none _ id).mp known))
      rw [Module.removed,known,clusters,same]
      rfl

variable {change}

theorem key_touched {s : Statement} (hs : s ∈ change.statements m) : s.key ∈ change.touched m := by
  have pair {c : Cluster} (h : ∃ user ∈ c.users, ∃ database ∈ c.databases, s.About c user database) :
      s.key ∈ pairs c.names c.databases := by
    obtain ⟨user,hu,database,hd,about⟩ := h
    exact about.key ▸ mem_pairs.mpr ⟨Cluster.mem_names hu,hd⟩
  cases change with
  | added next =>
    rw [statements] at hs
    split at hs
    · rename_i known
      exact (mem_touched_updated known).mpr (touched_of_mem hs)
    · rename_i unknown
      exact (mem_touched_added unknown).mpr (mem_pairs.mp (pair (mem_addedStatements hs)))
  | removed id =>
    rw [statements] at hs
    split at hs
    · rename_i known
      exact (mem_touched_removed known).mpr (mem_pairs.mp (pair (mem_removedStatements hs)))
    · cases hs

theorem kept (change : Change) (h : m.Cached) : Kept { m with clusters := change.clusters m } (change.apply m) :=
  change.apply_eq ▸ Statement.foldl_kept _ h

/-- A pair goes through the statements about it if it collides with no other that the change acts on. -/
theorem slot_apply (h : m.Cached) (free : ∀ q' ∈ change.touched m, q' ≠ q → ¬ Clash m.settings q' q) :
    (change.apply m).slot q = (m.slot q).run m.settings q (change.statements m) :=
  change.apply_eq ▸ foldl_slot h fun _ hs => free _ (key_touched hs)

theorem slot_stays (h : m.Cached) (other : ∀ q' ∈ change.touched m, ¬ Clash m.settings q' q) :
    (change.apply m).slot q = m.slot q :=
  (slot_apply h fun q' hq' _ => other q' hq').trans
    (Slot.run_miss fun _ hs hq => other _ (key_touched hs) (hq ▸ clash_refl m.settings q))

theorem pools_stay (h : m.Cached) {k : Key}
    (other : ∀ q ∈ change.touched m, k ≠ q ∧ (m.settings.replicaPools = false → k ≠ replicaKey q)) :
    (change.apply m).pools k = m.pools k :=
  change.apply_eq ▸ Statement.foldl_pools (m := { m with clusters := change.clusters m }) h fun _ hs => other _ (key_touched hs)

end Change

theorem Change.Apart.frame (apart : change.Apart m) (cached : m.Cached) (hc : m.clusters.get id = some c) (ne : id ≠ change.id) (has : c.Has q) :
    (change.apply m).slot q = m.slot q :=
  slot_stays cached fun _ hq' => apart.others hc ne hq' has

theorem Change.get_apply (change : Change) (h : m.Cached) (ne : id ≠ change.id) :
    (change.apply m).clusters.get id = m.clusters.get id := by
  rw [(change.kept h).clusters]
  cases change with
  | added next => exact (Map.get_insert ..).trans (if_neg ne)
  | removed id' => exact (Map.get_erase ..).trans (if_neg ne)

theorem Change.get_apply_self (change : Change) (h : m.Cached)
    (hc : (change.apply m).clusters.get change.id = some c) : change = .added c := by
  rw [(change.kept h).clusters] at hc
  cases change with
  | added next => exact congrArg _ (Option.some.inj (((Map.get_insert ..).trans (if_pos rfl)).symm.trans hc))
  | removed id => exact absurd (((Map.get_erase ..).trans (if_pos rfl)).symm.trans hc) (Option.some_ne_none c).symm

/-- A cluster that is known afterwards was added, or it is another and was known. -/
theorem Change.known_apply (h : m.Cached)
    (hc : (change.apply m).clusters.get id = some c) :
    id = change.id ∧ change = .added c ∨ id ≠ change.id ∧ m.clusters.get id = some c := by
  rcases eq_or_ne id change.id with rfl | ne
  · exact .inl ⟨rfl,change.get_apply_self h hc⟩
  · exact .inr ⟨ne,(change.get_apply h ne).symm.trans hc⟩

def Module.Clear (m : Module) (q : Key) : Prop :=
  ∀ id c q', m.clusters.get id = some c → c.Has q' → ¬ Clash m.settings q' q

private theorem Change.Apart.clear (apart : change.Apart m)
    (hq : q ∈ change.touched m) (new : ∀ c, m.clusters.get change.id = some c → ¬ c.Has q) : m.Clear q := by
  intro id c q' hc has
  rcases eq_or_ne id change.id with rfl | ne
  · refine apart.1 q' (mem_touched hc has) q hq ?_
    rintro rfl
    exact new c hc has
  · exact fun clash => apart.others hc ne hq has clash.symm

/-- Every pair of a known cluster is in good order, and those that collide with none of these are blank. -/
structure Orderly (settings : Settings) (std : ∀ q, Standard settings q) (m : Module) : Prop where
  settings : m.settings = settings
  cached : m.Cached
  good : ∀ id c, m.clusters.get id = some c → ∀ user ∈ c.users, ∀ d ∈ c.databases,
    (std (user.username,d)).Good user.password c.primary c.replicas.get (m.slot (user.username,d))
  blank : ∀ q, m.Clear q → (std q).Blank (m.slot q)

namespace Orderly
variable {settings : Settings} {std : ∀ q, Standard settings q} {m : Module} {change : Change} {q : Key}

theorem good_slot (h : Orderly settings std m) {id : GoString} {c : Cluster} (hc : m.clusters.get id = some c)
    (has : c.Has q) (user : User) (hu : user ∈ c.users) (hn : user.username = q.1) :
    (std q).Good user.password c.primary c.replicas.get (m.slot q) := by
  obtain ⟨name,database⟩ := q
  cases hn
  exact h.good id c hc user hu database has.2

theorem blank_slot (h : Orderly settings std m) (apart : change.Apart m) (hq : q ∈ change.touched m)
    (new : ∀ c, m.clusters.get change.id = some c → ¬ c.Has q) : (std q).Blank (m.slot q) :=
  h.blank q (apart.clear hq new)

theorem slot_apply (h : Orderly settings std m) (apart : change.Apart m) (hq : q ∈ change.touched m) :
    (change.apply m).slot q = (m.slot q).run settings q (change.statements m) :=
  h.settings ▸ Change.slot_apply h.cached fun q' hq' => apart.1 q' hq' q hq

private theorem good_added (h : Orderly settings std m) {next : Cluster} (apart : (Change.added next).Apart m)
    (tells : ∀ q, (std q).Tells next) {user : User} (hu : user ∈ next.users) {d : GoString} (hd : d ∈ next.databases) :
    (std (user.username,d)).Good user.password next.primary next.replicas.get
      ((m.added next).slot (user.username,d)) := by
  have touched : (user.username,d) ∈ (Change.added next).touched m := next_touched m ⟨Cluster.mem_names hu,hd⟩
  rw [show m.added next = (Change.added next).apply m from rfl,h.slot_apply apart touched,Change.statements]
  cases known : m.clusters.get next.id with
  | some prev =>
    refine Standard.updated (h.good_slot known) (fun hp => ?_) (tells _) hu rfl hd
    exact h.blank_slot apart touched fun c hc => Option.some.inj (known.symm.trans hc) ▸ hp
  | none =>
    refine Standard.added (tells _) hu rfl hd (h.blank_slot apart touched fun c hc => ?_)
    exact absurd (known.symm.trans hc) (Option.some_ne_none c).symm

theorem good_apply (h : Orderly settings std m) (apart : change.Apart m)
    (tells : ∀ c, change = .added c → ∀ q, (std q).Tells c) (id : GoString) (c : Cluster)
    (hc : (change.apply m).clusters.get id = some c) (user : User) (hu : user ∈ c.users) (d : GoString)
    (hd : d ∈ c.databases) :
    (std (user.username,d)).Good user.password c.primary c.replicas.get ((change.apply m).slot (user.username,d)) := by
  rcases eq_or_ne id change.id with rfl | ne
  · obtain rfl := change.get_apply_self h.cached hc
    exact h.good_added apart (tells c rfl) hu hd
  · rw [change.get_apply h.cached ne] at hc
    rw [apart.frame h.cached hc ne ⟨Cluster.mem_names hu,hd⟩]
    exact h.good id c hc user hu d hd

/-- Of the pairs that it acts on, a change leaves those blank that no cluster has any more. -/
theorem blank_apply (h : Orderly settings std m) (apart : change.Apart m)
    (tells : ∀ c, change = .added c → ∀ q, (std q).Tells c) (hq : q ∈ change.touched m)
    (gone : ∀ c, (change.apply m).clusters.get change.id = some c → ¬ c.Has q) :
    (std q).Blank ((change.apply m).slot q) := by
  rw [h.slot_apply apart hq]
  rw [(change.kept h.cached).clusters] at gone
  cases change with
  | added next =>
    have hasNot : ¬ next.Has q := gone next ((Map.get_insert ..).trans (if_pos rfl))
    rw [Change.statements]
    cases known : m.clusters.get next.id with
    | some prev =>
      refine Standard.updated_blank (h.good_slot known) (fun hp => ?_) (tells next rfl q) hasNot
      exact h.blank_slot apart hq fun c hc => Option.some.inj (known.symm.trans hc) ▸ hp
    | none => exact absurd ((mem_touched_added known).mp hq) hasNot
  | removed id =>
    rw [Change.statements]
    cases known : m.clusters.get id with
    | some c =>
      have has := (mem_touched_removed known).mp hq
      obtain ⟨u,hu,hn⟩ := List.mem_map.mp has.1
      exact Standard.removed has ((std q).fit_of_good (h.good_slot known has u hu hn))
    | none => simp [Change.touched,known] at hq

/-- A standard under which blank pairs cannot collide with others, or do not matter. -/
def Loose (settings : Settings) (std : ∀ q, Standard settings q) : Prop :=
  settings.replicaPools = true ∨ ∀ q slot, (std q).Blank slot

theorem initial (loose : Loose settings std) (empty : settings.replicaPools = true → ∀ q, (std q).Blank ⟨none,none⟩) :
    Orderly settings std { settings := settings } where
  settings := rfl
  cached _ _ h := nomatch h
  good _ _ h := nomatch h
  blank q _ := by
    rcases loose with hr | hb
    · have slot : Module.slot { settings := settings } q = ⟨none,none⟩ := by simp [Module.slot,hr]
      exact slot ▸ empty hr q
    · exact hb q _

theorem free_of_replicaPools (hr : settings.replicaPools = true) {q q' : Key} (ne : q' ≠ q) : ¬ Clash settings q' q := by
  rintro (e | ⟨hs,-⟩)
  · exact ne e
  · simp [hr] at hs

/-- Where replicas have no pools of their own, a pair collides with no other. -/
theorem blank_of_none (h : Orderly settings std m) (hr : settings.replicaPools = true)
    (none : ∀ id c, m.clusters.get id = some c → ¬ c.Has q) : (std q).Blank (m.slot q) :=
  h.blank q fun id c _ hc has => h.settings ▸ free_of_replicaPools hr fun e => none id c hc (e ▸ has)

theorem apply (h : Orderly settings std m) (loose : Loose settings std) (apart : change.Apart m)
    (tells : ∀ c, change = .added c → ∀ q, (std q).Tells c) : Orderly settings std (change.apply m) := by
  have kept := change.kept h.cached
  refine ⟨kept.settings.trans h.settings, kept.cached, h.good_apply apart tells, fun q clear => ?_⟩
  have none id c (hc : (change.apply m).clusters.get id = some c) (has : c.Has q) := clear id c q hc has (clash_refl _ q)
  rcases loose with hr | hb
  · by_cases hq : q ∈ change.touched m
    · exact h.blank_apply apart tells hq fun c hc => none change.id c hc
    · have same : (change.apply m).slot q = m.slot q :=
        Change.slot_stays h.cached fun q' hq' => h.settings ▸ free_of_replicaPools hr fun e => hq (e ▸ hq')
      rw [same]
      refine h.blank_of_none hr fun id c hc has => ?_
      rcases eq_or_ne id change.id with rfl | ne
      · exact hq (change.mem_touched hc has)
      · exact none id c ((change.get_apply h.cached ne).trans hc) has
  · exact hb q _

private theorem changes (h : Orderly settings std m) (loose : Loose settings std) {l : List Change}
    (apart : Change.AllApart m l) (tells : ∀ c, .added c ∈ l → ∀ q, (std q).Tells c) :
    Orderly settings std (l.foldl Change.apply m) := by
  induction l generalizing m with
  | nil => exact h
  | cons change l ih =>
    have first := h.apply loose apart.1 fun c e => tells c (e ▸ List.mem_cons_self)
    exact ih first apart.2 fun c hc => tells c (List.mem_cons_of_mem change hc)

theorem step (h : Orderly settings std m) (loose : Loose settings std) {e : Event} (apart : e.Apart m)
    (tells : ∀ c, .added c ∈ e.changes → ∀ q, (std q).Tells c) {m' : Module} (he : m.step e = some m') :
    Orderly settings std m' :=
  Module.step_changes he ▸ h.changes loose apart tells

end Orderly
end Pggat.Discovery
