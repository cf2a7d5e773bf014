import Pggat.Pools.Serving

/-! Who has which server while a pool serves its clients: the serve loops lend and note servers as a custody does. -/
namespace Pggat.Pools
open Pggat.Spool Pggat.Base

variable {ι κ : Type}

/-- What a statement does to the server in the variables of its loop; only that server is recorded as peer. -/
def Op.Fits : Op ι → Option (ι × Uuid) → Option (ι × Uuid) → Prop
  | .acquire server, before, after => before = none ∧ after = some server
  | .release server, before, after => before = some server ∧ after = none
  | .removeServer server, before, after => before = some server ∧ after = none
  | .setState _ (some peer) _, before, after => after = before ∧ ∃ pool, before = some (pool,peer)
  | _, before, after => after = before

namespace Loop
variable {loop : Loop ι κ} {s s' : System ι κ} {id : Uuid} {place : κ} {op : Op ι} {c c' : Custody ι Uuid Uuid}
  {after : Option (ι × Uuid)}

def Sound (loop : Loop ι κ) : Prop :=
  ∀ recipes place choice op place', loop.next recipes place choice = some (op,place') →
    op.Fits (loop.held place) (loop.held place')

def custody (loop : Loop ι κ) (s : System ι κ) : Custody ι Uuid Uuid where
  made := {server | server ∈ s.made}
  stock := {server | server ∈ s.servers}
  free := {server | server ∈ s.pooled}
  holds id := loop.held (s.clients id).place
  noted := s.peerOf

theorem custody_setClient (loop : Loop ι κ) (s : System ι κ) (id : Uuid) (client : Client κ) :
    loop.custody (s.setClient id client) =
      { loop.custody s with
        holds := Function.update (loop.custody s).holds id (loop.held client.place)
        noted := Function.update (loop.custody s).noted id client.found } := by
  have lookup : ∀ other, (s.setClient id client).clients other = if other = id then client else s.clients other :=
    fun other => Function.update_apply ..
  ext : 1
  · rfl
  · rfl
  · rfl
  · funext other
    simp only [custody,lookup,Function.update_apply]
    split <;> rfl
  · funext other
    simp only [custody,System.peerOf,lookup,Function.update_apply]
    split <;> rfl

theorem custody_place (loop : Loop ι κ) (s : System ι κ) (id : Uuid) (place : κ) :
    loop.custody (s.setClient id { s.clients id with place := place }) =
      { loop.custody s with holds := Function.update (loop.custody s).holds id (loop.held place) } := by
  rw [custody_setClient]
  ext : 1
  · rfl
  · rfl
  · rfl
  · rfl
  · exact Function.update_eq_self id (loop.custody s).noted

theorem update_held (h : loop.held place = loop.held (s.clients id).place) :
    Function.update (loop.custody s).holds id (loop.held place) = (loop.custody s).holds := by
  rw [h]
  exact Function.update_eq_self ..

/-- The custody after a statement that fits, by its effect. -/
def Moved (c : Custody ι Uuid Uuid) (id : Uuid) : Op ι → Custody ι Uuid Uuid → Prop
  | .pass, c' => c' = c
  | .addClient, c' | .removeClient, c' => c' = c.note id none
  | .setState _ peer _, c' => c' = c ∨ c' = c.note id peer
  | .acquire server, c' => server ∈ c.free ∧ c' = c.take id server
  | .release server, c' => c' = c.giveBack id server
  | .removeServer server, c' => c' = c.discard id server

theorem Moved.lent (moved : Moved c id op c') (fits : op.Fits (c.holds id) after) (h : c.Lent) : c'.Lent := by
  cases op with
  | pass => exact moved ▸ h
  | addClient => exact moved ▸ h.note
  | removeClient => exact moved ▸ h.note
  | setState state peer replica =>
    rcases moved with rfl | rfl
    · exact h
    · exact h.note
  | acquire server => exact moved.2 ▸ h.take moved.1
  | release server => exact moved ▸ h.giveBack fits.1
  | removeServer server => exact moved ▸ h.discard

/-- A statement keeps what is noted of every client, unless it gives back what is noted of its own. -/
theorem Moved.attended (moved : Moved c id op c') (fits : op.Fits (c.holds id) after)
    (prompt : ∀ server, op = .release server → c.noted id ≠ some server.2) (hl : c.Lent) (h : c.Attended) :
    c'.Attended := by
  cases op with
  | pass => exact moved ▸ h
  | addClient => exact moved ▸ h.note_none
  | removeClient => exact moved ▸ h.note_none
  | setState state peer replica =>
    rcases moved with rfl | rfl
    · exact h
    · cases peer with
      | none => exact h.note_none
      | some peer =>
        obtain ⟨-,pool,held⟩ := fits
        exact h.note_some hl held
  | acquire server => exact moved.2 ▸ h.take moved.1 fits.1
  | release server => exact moved ▸ h.giveBack fits.1 (prompt server rfl)
  | removeServer server => exact moved ▸ h.discard fits.1

def Starts (loop : Loop ι κ) (clients : Uuid → κ) : Prop := ∀ id, loop.held (clients id) = none

/-- The pool before it has servers or clients; `clients` are the places where the serve loops begin. -/
def initial (clients : Uuid → κ) : System ι κ where
  clients id := { place := clients id }

variable {clients : Uuid → κ}

theorem initial_lent (starts : loop.Starts clients) :
    (loop.custody (initial clients)).Lent where
  free_stock _ h := nomatch h
  stock_made _ h := nomatch h
  made_once _ h := nomatch h
  holds_made id _ h := nomatch (starts id).symm.trans h
  holds_busy id _ h := nomatch (starts id).symm.trans h
  holds_once id _ _ h := nomatch (starts id).symm.trans h

theorem initial_attended : (loop.custody (initial clients)).Attended :=
  fun _ _ h => nomatch h

section Moves
variable [DecidableEq ι]

theorem custody_dropServer (loop : Loop ι κ) (s : System ι κ) (server : ι × Uuid) :
    loop.custody (s.dropServer server) = (loop.custody s).drop server := by
  ext p
  · rfl
  · simp [custody,System.dropServer,Custody.drop]
  · simp [custody,System.dropServer,Custody.drop]
  · rfl
  · rfl

theorem exec_moved (h : s.exec id place op = some s') (fits : op.Fits (loop.held (s.clients id).place) (loop.held place)) :
    Moved (loop.custody s) id op (loop.custody s') := by
  cases op with
  | pass =>
    obtain rfl := Option.some.inj h
    rw [Moved,custody_place,update_held fits]
  | addClient =>
    obtain rfl := Option.some.inj h
    rw [Moved,custody_setClient,update_held fits]
    rfl
  | removeClient =>
    obtain rfl := Option.some.inj h
    rw [Moved,custody_setClient,update_held fits]
    rfl
  | setState state peer replica =>
    obtain rfl := Option.some.inj h
    have kept : loop.held place = loop.held (s.clients id).place := by
      cases peer with
      | none => exact fits
      | some peer => exact fits.1
    rw [Moved,custody_setClient,update_held kept]
    cases hr : (s.clients id).registered with
    | true => exact .inr (by simp [Client.found,hr,Custody.note])
    | false =>
      left
      have unfound : (loop.custody s).noted id = none := by simp [custody,System.peerOf,Client.found,hr]
      simp [Client.found,hr,← unfound]
  | acquire server =>
    rw [System.exec] at h
    split at h
    · rename_i pooled
      obtain rfl := Option.some.inj h
      refine ⟨pooled, ?_⟩
      rw [custody_place,fits.2]
      ext p : 2
      · rfl
      · rfl
      · simp [custody,Custody.take]
      · rfl
      · rfl
    · cases h
  | release server =>
    obtain rfl := Option.some.inj h
    rw [Moved,custody_place,fits.2]
    ext p : 2
    · rfl
    · rfl
    · simp only [custody,Custody.giveBack]
      split <;> simp_all
    · rfl
    · rfl
  | removeServer server =>
    obtain rfl := Option.some.inj h
    have taken := custody_place loop (s.dropServer server) id place
    rw [custody_dropServer,fits.2] at taken
    exact taken

theorem step_client {choice : Choice} (sound : loop.Sound) (h : loop.step s (.client id choice) = some s') :
    ∃ op place, loop.next s.recipes (s.clients id).place choice = some (op,place) ∧
      op.Fits (loop.held (s.clients id).place) (loop.held place) ∧
      Moved (loop.custody s) id op (loop.custody s') := by
  rw [step] at h
  split at h
  · rename_i op place hnext
    have fits := sound _ _ _ _ _ hnext
    exact ⟨op,place,hnext,fits,exec_moved h fits⟩
  · cases h

theorem step_addServer {server : ι × Uuid} (h : loop.step s (.addServer server) = some s') :
    (∀ other ∈ (loop.custody s).made, server.2 ≠ other.2) ∧ loop.custody s' = (loop.custody s).add server := by
  rw [step] at h
  split at h
  · rename_i fresh
    obtain rfl := Option.some.inj h
    refine ⟨fun other made e => fresh (List.mem_map.mpr ⟨other,made,e.symm⟩), ?_⟩
    ext p : 2
    · simp [custody,Custody.add]
    · simp [custody,Custody.add]
    · simp [custody,Custody.add]
    · rfl
    · rfl
  · cases h

variable {e : Event ι}

theorem lent_step (sound : loop.Sound) (h : (loop.custody s).Lent) (he : loop.step s e = some s') :
    (loop.custody s').Lent := by
  cases e with
  | client id choice =>
    obtain ⟨op,place,-,fits,moved⟩ := step_client sound he
    exact moved.lent fits h
  | addServer server =>
    obtain ⟨fresh,e⟩ := step_addServer he
    exact e ▸ h.add fresh
  | removeServer server =>
    obtain rfl := Option.some.inj he
    exact custody_dropServer loop s server ▸ h.drop
  | setRecipes pool present =>
    obtain rfl := Option.some.inj he
    exact h

private theorem attended_step (sound : loop.Sound) (hl : (loop.custody s).Lent) (h : (loop.custody s).Attended)
    (prompt : loop.Prompt s e) (he : loop.step s e = some s') : (loop.custody s').Attended := by
  cases e with
  | client id choice =>
    obtain ⟨op,place,hnext,fits,moved⟩ := step_client sound he
    refine moved.attended fits ?_ hl h
    rintro server rfl
    rw [Prompt,hnext] at prompt
    exact prompt
  | addServer server =>
    obtain ⟨fresh,e⟩ := step_addServer he
    exact e ▸ h.add fresh
  | removeServer server =>
    obtain rfl := Option.some.inj he
    exact custody_dropServer loop s server ▸ h.drop
  | setRecipes pool present =>
    obtain rfl := Option.some.inj he
    exact h

variable {clients : Uuid → κ}

/-- In every reachable state a server is with one client or to be handed out, never both. -/
theorem reachable_lent {allowed : System ι κ → Event ι → Prop} (sound : loop.Sound)
    (starts : loop.Starts clients) (h : Reachable (initial clients) allowed loop.step s) : (loop.custody s).Lent :=
  h.invariant (P := fun s => (loop.custody s).Lent) (initial_lent starts)
    fun _ _ _ hl _ he => lent_step sound hl he

theorem reachable_attended (sound : loop.Sound) (starts : loop.Starts clients)
    (h : Reachable (initial clients) loop.Prompt loop.step s) : (loop.custody s).Attended := by
  refine (h.invariant (P := fun s => (loop.custody s).Lent ∧ (loop.custody s).Attended) ?_ ?_).2
  · exact ⟨initial_lent starts,initial_attended⟩
  · intro s e s' hs prompt he
    exact ⟨lent_step sound hs.1 he,attended_step sound hs.1 hs.2 prompt he⟩

end Moves
end Loop
end Pggat.Pools
