import Pggat.Spool.Pool

/-! A server in use is marked as such, so that `ScaleDown` passes it over. -/
namespace Pggat.Spool
open Pggat.Base
namespace Pool
variable {σ : Type}

/-- Held servers are not idle, and what `ScaleDown` has condemned or closed is held by nobody. A server it
closed is still listed only until the same critical section drops it. -/
structure Inv (st : Pool σ) : Prop where
  busy : ∀ s, st.Held s → (st.servers s).state ≠ .idle
  heldKnown : ∀ s, st.Held s → s ∈ st.ids
  listedKnown : ∀ s ∈ st.serversByID, s ∈ st.ids
  ignitedKnown : ∀ s ∈ st.ignited, s ∈ st.ids
  condemned : ∀ scan s, st.scan = some scan → scan.stage = .condemned s → s ∈ st.ids ∧ ¬ st.Held s
  spared : ∀ s ∈ st.ignited, ¬ st.Held s
  unlisted : ∀ s ∈ st.ignited, s ∈ st.serversByID → ∃ scan, st.scan = some scan ∧ scan.stage = .ignited s

theorem held_goto {st : Pool σ} {client : Uuid} {phase : Phase} {s : Uuid} (h : (st.goto client phase).Held s) :
    phase.holds = some s ∨ st.Held s := by
  obtain ⟨c,hc⟩ := h
  by_cases he : c = client
  · exact .inl (by simpa [goto,he] using hc)
  · exact .inr ⟨c,by simpa [goto,he] using hc⟩

namespace Inv
variable {st : Pool σ} (h : Inv st)
include h

variable {client : Uuid}

theorem goto {phase : Phase} (hp : ∀ s, phase.holds = some s → (st.clients client).holds = some s) :
    Inv (st.goto client phase) := by
  have hheld : ∀ s, (st.goto client phase).Held s → st.Held s := fun s hs =>
    (held_goto hs).elim (fun he => ⟨client,hp s he⟩) id
  exact ⟨fun s hs => h.busy s (hheld s hs),fun s hs => h.heldKnown s (hheld s hs),h.listedKnown,h.ignitedKnown,
    fun scan s hscan hst => ⟨(h.condemned scan s hscan hst).1,fun hs => (h.condemned scan s hscan hst).2 (hheld s hs)⟩,
    fun s hs hh => h.spared s hs (hheld s hh),h.unlisted⟩

variable {id : Uuid}

theorem setServer {s : Server} (hs : st.Held id → s.state ≠ .idle) : Inv (st.setServer id s) := by
  refine ⟨fun s' hs' => ?_,h.heldKnown,h.listedKnown,h.ignitedKnown,h.condemned,h.spared,h.unlisted⟩
  by_cases he : s' = id
  · subst he
    simpa [Pool.setServer] using hs hs'
  · simpa [Pool.setServer,he] using h.busy s' hs'

theorem setState {state : ConnState} {peer : Option Uuid} (hs : st.Held id → state ≠ .idle) :
    Inv (st.setState id state peer) := h.setServer hs

theorem unlist {listed : List Uuid} (hl : ∀ s ∈ listed, s ∈ st.serversByID) :
    Inv { st with serversByID := listed } :=
  ⟨h.busy,h.heldKnown,fun s hs => h.listedKnown s (hl s hs),h.ignitedKnown,h.condemned,h.spared,
    fun s hs hs' => h.unlisted s hs (hl s hs')⟩

variable {st' : Pool σ}

/-- Neither the pooler nor the kitchen nor the clock is read by the invariant. -/
theorem quiet (hservers : st'.servers = st.servers) (hids : st'.ids = st.ids)
    (hlisted : st'.serversByID = st.serversByID) (hignited : st'.ignited = st.ignited) (hscan : st'.scan = st.scan)
    (hclients : st'.clients = st.clients) : Inv st' := by
  obtain ⟨hb,hk,hl,hi,hc,hs,hu⟩ := h
  constructor <;> simp only [Held,hservers,hids,hlisted,hignited,hscan,hclients]
  all_goals assumption

theorem withPooler (p : σ) : Inv { st with pooler := p } := h.quiet rfl rfl rfl rfl rfl rfl

theorem withConns (conns : List Uuid) : Inv { st with byConn := conns } := h.quiet rfl rfl rfl rfl rfl rfl

theorem deleteServer (P : Pooler σ) (id : Uuid) : Inv (Pool.deleteServer P st id) :=
  (h.unlist fun _ hs => (List.mem_filter.mp hs).1).quiet rfl rfl rfl rfl rfl rfl

theorem addServer (P : Pooler σ) (hnew : id ∉ st.ids) : Inv (Pool.addServer P st id) := by
  have hheld : ¬ st.Held id := fun hh => hnew (h.heldKnown id hh)
  have hset := h.setServer (s := .newServer st.clock) fun hh => absurd hh hheld
  refine ⟨hset.busy,fun s hs => List.mem_cons_of_mem _ (h.heldKnown s hs),fun s hs => ?_,
    fun s hs => List.mem_cons_of_mem _ (h.ignitedKnown s hs),
    fun scan s hscan hst => ⟨List.mem_cons_of_mem _ (h.condemned scan s hscan hst).1,(h.condemned scan s hscan hst).2⟩,
    h.spared,fun s hs hl => ?_⟩
  · exact (List.mem_cons.mp hs).elim (fun he => he ▸ List.mem_cons_self) fun hs =>
      List.mem_cons_of_mem _ (h.listedKnown s hs)
  · rcases List.mem_cons.mp hl with rfl | hl
    · exact absurd (h.ignitedKnown s hs) hnew
    · exact h.unlisted s hs hl

variable {server : Uuid}

/-- Under the read lock a client becomes the holder of a listed server, which it marks. -/
theorem lookup (hfree : st.scan = none) : Inv (st.lookup client server) := by
  unfold Pool.lookup
  split
  · rename_i hl
    have hbusy : Inv (st.setState server .pairing (some client)) := h.setState fun _ => by decide
    have hnot : server ∉ st.ignited := fun hi => by
      obtain ⟨scan,hscan,_⟩ := h.unlisted server hi hl
      simp [hfree] at hscan
    refine ⟨fun s hs => ?_,fun s hs => ?_,h.listedKnown,h.ignitedKnown,fun scan s hscan => ?_,fun s hi hs => ?_,
      h.unlisted⟩
    · rcases held_goto hs with he | hs
      · obtain rfl : server = s := by simpa [Phase.holds] using he
        simp [Pool.goto,Pool.setState,Pool.setServer]
      · exact hbusy.busy s hs
    · rcases held_goto hs with he | hs
      · obtain rfl : server = s := by simpa [Phase.holds] using he
        exact h.listedKnown server hl
      · exact h.heldKnown s hs
    · exact absurd (hfree.symm.trans hscan) (by simp)
    · rcases held_goto hs with he | hs
      · obtain rfl : server = s := by simpa [Phase.holds] using he
        exact hnot hi
      · exact h.spared s hi hs
  · exact h.goto (by simp [Phase.holds])

theorem rescan {scan : Option Scan} (hc : ∀ x s, scan = some x → x.stage = .condemned s → s ∈ st.ids ∧ ¬ st.Held s)
    (hu : ∀ s ∈ st.ignited, s ∉ st.serversByID) : Inv { st with scan := scan } :=
  ⟨h.busy,h.heldKnown,h.listedKnown,h.ignitedKnown,hc,h.spared,fun s hs hl => absurd hl (hu s hs)⟩

theorem unlisted_of_stage (hstage : ∀ scan s, st.scan = some scan → scan.stage ≠ .ignited s) :
    ∀ s ∈ st.ignited, s ∉ st.serversByID := by
  intro s hs hl
  obtain ⟨scan,hscan,hst⟩ := h.unlisted s hs hl
  exact hstage scan s hscan hst

variable {scan : Scan}

private theorem look (config : Config) (hscan : st.scan = some scan) (hstage : scan.stage = .next)
    (hl : server ∈ st.serversByID) : Inv (Pool.look config st scan server) := by
  have hu := h.unlisted_of_stage fun x s hx => by
    obtain rfl : scan = x := by simpa [hscan] using hx
    simp [hstage]
  refine h.rescan (fun x s hx hst => ?_) hu
  by_cases hidle : (st.servers server).state = .idle
  · by_cases hold : scan.now - (st.servers server).since > config.idleTimeout
    · obtain rfl : _ = x := by simpa [Server.getState,hidle,hold] using hx
      cases hst
      exact ⟨h.listedKnown server hl,fun hh => h.busy server hh hidle⟩
    · obtain rfl : _ = x := by simpa [Server.getState,hidle,hold] using hx
      simp [hstage] at hst
  · obtain rfl : _ = x := by simpa [Server.getState,hidle] using hx
    simp [hstage] at hst

private theorem ignite {tryFree : Bool} (hscan : st.scan = some scan)
    (hstage : scan.stage = .condemned server) : Inv (st.ignite scan server tryFree) := by
  obtain ⟨hknown,hheld⟩ := h.condemned scan server hscan hstage
  have hu := h.unlisted_of_stage fun x s hx => by
    obtain rfl : scan = x := by simpa [hscan] using hx
    simp [hstage]
  unfold Pool.ignite
  split
  · refine ⟨h.busy,h.heldKnown,h.listedKnown,fun s hs => ?_,by rintro x s ⟨⟩ ⟨⟩,fun s hs => ?_,fun s hs hl => ?_⟩
    · exact (List.mem_cons.mp hs).elim (fun he => he ▸ hknown) (h.ignitedKnown s)
    · exact (List.mem_cons.mp hs).elim (fun he => he ▸ hheld) (h.spared s)
    · rcases List.mem_cons.mp hs with rfl | hs
      · exact ⟨_,rfl,rfl⟩
      · exact absurd hl (hu s hs)
  · exact h.rescan (by rintro x s ⟨⟩ ⟨⟩) hu

private theorem drop (P : Pooler σ) (hscan : st.scan = some scan)
    (hstage : scan.stage = .ignited server) :
    Inv { Pool.deleteServer P st server with scan := some { scan with stage := .next } } := by
  refine (h.deleteServer P server).rescan (by rintro x s ⟨⟩ ⟨⟩) fun s hs hl => ?_
  obtain ⟨hl,hne⟩ := List.mem_filter.mp hl
  obtain ⟨x,hx,hst⟩ := h.unlisted s hs hl
  obtain rfl : scan = x := by simpa [hscan] using hx
  simp [hstage] at hst
  simp [hst] at hne

variable {config : Config} {P : Pooler σ} {e : Event}

theorem scanStep
    (hscan : st.scan = some scan) (hs : Pool.scanStep config P st scan e = some st') : Inv st' := by
  unfold Pool.scanStep at hs
  split at hs
  · split at hs
    · rename_i hc
      cases hs
      exact h.look config hscan hc.1 hc.2.1
    · cases hs
  · split at hs
    · rename_i hstage
      cases hs
      exact h.ignite hscan hstage
    · cases hs
  · split at hs
    · rename_i hstage
      cases hs
      exact h.drop P hscan hstage
    · cases hs
  · split at hs
    · rename_i hc
      cases hs
      refine h.rescan (by rintro x s ⟨⟩) (h.unlisted_of_stage fun x s hx => ?_)
      obtain rfl : scan = x := by simpa [hscan] using hx
      simp [hc.1]
    · cases hs
  · cases hs

theorem poolStep
    (hs : Pool.poolStep config P st e = some st') : Inv st' := by
  unfold Pool.poolStep at hs
  split at hs
  · cases hs
    exact h.quiet rfl rfl rfl rfl rfl rfl
  · split at hs
    · cases hs
    · rename_i hc
      cases hs
      exact h.addServer P fun hid => hc (.inr hid)
  · split at hs
    · cases hs
      exact h.quiet rfl rfl rfl rfl rfl rfl
    · cases hs
  · split at hs
    · cases hs
    · cases hs
      exact (h.deleteServer P _).quiet rfl rfl rfl rfl rfl rfl
  · split at hs
    · cases hs
      exact h.setServer fun hh => h.busy _ hh
    · cases hs
  · split at hs
    · cases hs
    · rename_i hc
      cases hs
      have hfree : st.scan = none := by simpa [locked] using fun hl => hc (.inl hl)
      exact h.rescan (by rintro x s ⟨⟩ ⟨⟩) (h.unlisted_of_stage fun x s hx => by simp [hfree] at hx)
  · cases hs
    exact h.quiet rfl rfl rfl rfl rfl rfl
  · split at hs
    · cases hs
    · cases hs
      exact h.unlist (by simp)
  · cases hs

theorem take (client : Uuid) (server : Option Uuid) : Inv (st.take client server) :=
  h.goto (by cases server <;> simp [Phase.holds])

private theorem acquire (P : Pooler σ) (client : Uuid) : Inv (Pool.acquire P st client) := by
  unfold Pool.acquire
  split
  · exact h.withPooler _
  · exact (h.withPooler _).take client _
  · exact (h.withPooler _).goto (by simp [Phase.holds])

private theorem release (config : Config) (hc : st.clients client = .holding server) :
    Inv (Pool.release config st client server) := by
  unfold Pool.release
  split
  · exact (h.setState fun _ => by decide).goto (by simp [Pool.setState,Pool.setServer,hc,Phase.holds])
  · exact h.goto (by simp [hc,Phase.holds])

/-- A step of a client keeps the invariant, the late `SetState(Idle)` of a `Release` only when it is prompt. -/
theorem clientStep
    (hprompt : st.Prompt e) (hact : actor e = some client)
    (hs : Pool.clientStep config P st client (st.clients client) e = some st') : Inv st' := by
  unfold Pool.clientStep at hs
  split at hs
  case h_1 =>
    cases hs
    exact h.acquire P client
  case h_2 | h_3 =>
    obtain ⟨r,_,rfl⟩ := Option.map_eq_some_iff.mp hs
    exact (h.withPooler r.2).take client r.1
  case h_4 =>
    split at hs
    · cases hs
    · rename_i hfree
      cases hs
      exact h.lookup (by simpa [locked] using hfree)
  case h_5 =>
    cases hs
    exact (h.withPooler _).goto (by simp [Phase.holds])
  case h_6 | h_7 =>
    cases hs
    exact h.setState fun _ => by decide
  case h_8 =>
    cases hs
    exact h.setServer fun hh => h.busy _ hh
  case h_9 _ _ hc =>
    cases hs
    exact h.release config hc
  case h_10 _ ok hc =>
    cases hs
    exact h.goto (by cases ok <;> simp [hc,Phase.holds])
  case h_11 _ _ hc =>
    cases hs
    exact (h.withPooler _).goto (by simp [hc,Phase.holds])
  case h_12 _ _ hc =>
    cases hs
    obtain rfl : _ = client := by simpa [actor] using hact
    exact (h.setState fun hh => absurd hh (hprompt _ hc)).goto (by simp [Phase.holds])
  case h_13 _ _ hc =>
    cases hs
    exact h.goto (by simp [hc,Phase.holds])
  case h_14 _ _ hc =>
    cases hs
    exact (h.withConns _).goto (by simp [hc,Phase.holds])
  case h_15 _ _ hc =>
    cases hs
    exact (h.withPooler _).goto (by simp [hc,Phase.holds])
  case h_16 =>
    split at hs
    · cases hs
    · cases hs
      exact (h.deleteServer P _).goto (by simp [Phase.holds])
  case h_17 => cases hs

private theorem step (hprompt : st.Prompt e)
    (hs : Pool.step config P st e = some st') : Inv st' := by
  unfold Pool.step at hs
  split at hs
  · rename_i hact
    exact h.clientStep hprompt hact hs
  · rename_i hscan
    rcases hr : Pool.scanStep config P st _ e with _ | st''
    · rw [hr] at hs
      exact h.poolStep hs
    · rw [hr] at hs
      cases hs
      exact h.scanStep hscan hr
  · exact h.poolStep hs

end Inv

private theorem inv_start (p : σ) : Inv ({ pooler := p } : Pool σ) := by
  have hheld : ∀ s, ¬ ({ pooler := p } : Pool σ).Held s := by
    rintro s ⟨c,hc⟩
    cases hc
  exact ⟨fun s hs => absurd hs (hheld s),fun s hs => absurd hs (hheld s),by simp,by simp,by simp,by simp,by simp⟩

/-- In every run in which each `Release` marks its server idle before the server is acquired again, with
any pooler, `ScaleDown` closes no server that a client has acquired and not yet released, and no client
ever holds one that it closed. -/
theorem scaleDown_spares_held {config : Config} {P : Pooler σ} {p : σ} {st : Pool σ}
    (h : Reachable { pooler := p } Prompt (step config P) st) :
    (∀ e s, st.Ignites e s → ¬ st.Held s) ∧ ∀ s ∈ st.ignited, ¬ st.Held s := by
  have hinv : Inv st := h.invariant (inv_start p) fun _ _ _ hi hp hs => hi.step hp hs
  refine ⟨?_,hinv.spared⟩
  rintro e s ⟨scan,hscan,hstage,_,_⟩
  exact (hinv.condemned scan s hscan hstage).2

def tenIdle : Config := { idleTimeout := 10, resetQuery := false }

def marksIdle : Event → Bool
  | .setIdle _ => true
  | _ => false

private theorem prompt_of_marksIdle (st : Pool σ) (e : Event) (h : marksIdle e = false) : st.Prompt e := by
  cases e with
  | setIdle c => cases h
  | _ => trivial

/-- Client 1 holds server 7, and client 2 gives server 8 back. -/
def oneReleases : List Event :=
  [.addServer 7, .acquire 1, .lookup 1, .activate 1, .addServer 8, .acquire 2, .lookup 2, .release 2, .giveBack 2]

/-- A run in which a released server is closed and a held one is not. -/
theorem scaleDown_spares_held_oneReleases : ∃ st : Pool Lifo,
    Reachable { pooler := {} } Prompt (step tenIdle lifo) st ∧ st.Ignites (.ignite true) 8 ∧ ¬ st.Held 8 ∧ st.Held 7 := by
  have hfirst := Reachable.of_run .start prompt_of_marksIdle oneReleases
    (show run (fun _ e => marksIdle e = false) (step tenIdle lifo) { pooler := {} } oneReleases = some _ from rfl)
  have hidle := hfirst.next (e := .setIdle 2) (by
    rintro server ⟨⟩ ⟨c,hc⟩
    rcases c with _ | _ | _ | c <;> cases hc) (show _ = some _ from rfl)
  have hlast := Reachable.of_run hidle prompt_of_marksIdle [.tick 11, .scaleDown 12, .look 7, .look 8]
    (show run (fun _ e => marksIdle e = false) _ _ _ = some _ from rfl)
  refine ⟨_,hlast,⟨_,rfl,rfl,?_,rfl⟩,(scaleDown_spares_held hlast).1 (.ignite true) 8 ⟨_,rfl,rfl,?_,rfl⟩,⟨1,rfl⟩⟩
  · decide
  · decide

/-- Client 1 gives server 7 back, client 2 acquires it, and only then client 1 marks it idle. -/
def lateIdle : List Event :=
  [.addServer 7, .acquire 1, .lookup 1, .activate 1, .release 1, .giveBack 1, .acquire 2, .lookup 2, .activate 2,
    .setIdle 1, .tick 11, .scaleDown 12, .look 7]

/-- `ScaleDown` closes a server that a client is using. -/
theorem scaleDown_ignites_held : ∃ st : Pool Lifo,
    Reachable { pooler := {} } (fun _ _ => True) (step tenIdle lifo) st ∧ st.Ignites (.ignite true) 7 ∧ st.Held 7 := by
  refine ⟨_,Reachable.of_run .start (fun _ _ => id) lateIdle rfl,⟨_,rfl,rfl,?_,rfl⟩,⟨2,rfl⟩⟩
  decide

end Pool
end Pggat.Spool
