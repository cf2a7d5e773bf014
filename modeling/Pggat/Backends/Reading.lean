import Pggat.Backends.Server
import Mathlib.Algebra.GroupWithZero.Nat

/-! What a server sends when it is read: how the steps up to a packet compose, and how many packets and
copyings are still to come. -/
namespace Pggat.Backends
open Pggat.Base Packets

namespace Server

private theorem accept_silence (s : Server) (m : Message) (hm : s.mode = .ready) :
    (s.accept m).silence ≤ s.silence + 1 := by
  unfold accept silence
  rw [hm]
  cases m.kind <;> simp [hm]

private theorem skip_silence (s : Server) (m : Message) (hm : s.mode = .skipping) :
    (s.skip m).silence ≤ s.silence + 1 := by
  unfold skip silence
  rw [hm]
  split <;> simp [hm]

variable {s s' : Server} {c : Context} {job : Job c} {error : List UInt8}

private theorem fail_packet : s.fail job error ≠ (none,s') := by
  simp [fail]

private theorem copyIn_silence {patience : Nat} {synced : Bool}
    {m : Message} (h : s.copyIn patience error synced job m = (none,s')) : s'.silence ≤ 2 * s.inbox.length + 1 := by
  unfold copyIn at h
  split at h
  · cases h
    simp [silence]
  · cases h
    simp [silence]
  · cases h
    simp [silence]
  · cases h
    simp [silence]
  · exact absurd h fail_packet

theorem step_silence (h : s.step = some (none,s')) : s'.silence < s.silence := by
  unfold step at h
  split at h
  · cases h
  · rename_i hm
    split at h
    · cases h
    · rename_i m inbox hi
      cases h
      have := accept_silence { s with inbox := inbox } m hm
      simp only [silence,hm,hi,List.length_cons] at this ⊢
      omega
  · rename_i hm
    split at h
    · cases h
    · rename_i m inbox hi
      cases h
      have := skip_silence { s with inbox := inbox } m hm
      simp only [silence,hm,hi,List.length_cons] at this ⊢
      omega
  · rename_i hm
    unfold finish at h
    split at h
    · cases h
      simp [silence,hm]
    · cases h
  · rename_i i items state hm
    cases i <;> cases h
  · rename_i data error job hm
    unfold copyOut at h
    cases data with
    | cons p data => cases h
    | nil =>
      cases error <;> cases h
  · cases h
  · rename_i hm
    split at h
    · cases h
    · rename_i m inbox hi
      have := copyIn_silence (Option.some.inj h)
      simp only [silence,hm,hi,List.length_cons] at this ⊢
      omega

private theorem settle_stable {n k : Nat} (hn : s.silence < n) (hk : s.silence < k) : settle n s = settle k s := by
  induction n generalizing s k with
  | zero => omega
  | succ n ih =>
    obtain ⟨k,rfl⟩ : ∃ j, k = j + 1 := ⟨k - 1,by omega⟩
    unfold settle
    rcases hs : s.step with _ | ⟨_ | p,s'⟩
    · rfl
    · have hl := step_silence hs
      exact ih (by omega) (by omega)
    · rfl

theorem read_eq (s : Server) : s.read = match s.step with
    | none => (none,s)
    | some (some p,s') => (some p,s')
    | some (none,s') => s'.read := by
  unfold read
  rw [settle]
  rcases hs : s.step with _ | ⟨_ | p,s'⟩
  · rfl
  · have hl := step_silence hs
    exact settle_stable (by omega) (by omega)
  · rfl

def Sends (s : Server) (R : Packet → Server → Prop) : Prop := ∃ p s', s.read = (some p,s') ∧ R p s'

/-- The server takes a step that keeps `J` or sends a packet of which `R` holds. -/
def Proceeds (s : Server) (J : Server → Prop) (R : Packet → Server → Prop) : Prop :=
  ∃ o s', s.step = some (o,s') ∧ match o with
    | none => J s'
    | some p => R p s'

variable {J : Server → Prop} {R : Packet → Server → Prop}

theorem Proceeds.silent
    (hs : s.step = some (none,s')) (h : J s') : s.Proceeds J R :=
  ⟨none,s',hs,h⟩

theorem Proceeds.sends {p : Packet}
    (hs : s.step = some (some p,s')) (h : R p s') : s.Proceeds J R :=
  ⟨some p,s',hs,h⟩

theorem sends_of_proceeds (h : ∀ s, J s → s.Proceeds J R)
    (hJ : J s) : s.Sends R := by
  induction hn : s.silence using Nat.strongRecOn generalizing s with
  | _ n ih =>
    obtain ⟨o,s',hs,ho⟩ := h s hJ
    cases o with
    | some p => exact ⟨p,s',by rw [read_eq,hs],ho⟩
    | none =>
      obtain ⟨p,s'',hr,hp⟩ := ih s'.silence (hn ▸ step_silence hs) ho rfl
      exact ⟨p,s'',by rw [read_eq,hs]; exact hr,hp⟩

end Server

def Item.weight {c : Context} : Item c → Nat
  | .reply _ => 1
  | .error _ => 1
  | .copyOut _ _ data _ => data.length + 2
  | .copyIn _ _ _ _ => 2

def Item.copyIns {c : Context} : Item c → Nat
  | .copyIn _ _ _ _ => 1
  | _ => 0

def Job.weight {c : Context} (job : Job c) : Nat := (job.items.map Item.weight).sum + 1

def Job.copyIns {c : Context} (job : Job c) : Nat := (job.items.map Item.copyIns).sum

def Message.weight (m : Message) : Nat :=
  match m.kind with
  | .asks c => (m.job c).weight
  | _ => 0

def Message.copyIns (m : Message) : Nat :=
  match m.kind with
  | .asks c => (m.job c).copyIns
  | _ => 0

def Mode.weight : Mode → Nat
  | .running _ job => job.weight
  | .copyingOut _ data _ job => data.length + 1 + job.weight
  | .copyingIn _ _ _ _ job => 1 + job.weight
  | _ => 0

def Mode.copyIns : Mode → Nat
  | .running _ job => job.copyIns
  | .copyingOut _ _ _ job => job.copyIns
  | .copyingIn _ _ _ _ job => job.copyIns
  | _ => 0

namespace Server

/-- A bound on the packets that the server can still send. -/
def weight (s : Server) : Nat := s.mode.weight + (s.inbox.map Message.weight).sum

/-- How many more times the server can ask for data. -/
def copyIns (s : Server) : Nat := s.mode.copyIns + (s.inbox.map Message.copyIns).sum

/-- What a step makes of the two measures. It leaves the fates of later messages alone. -/
structure Spends (s : Server) (o : Option Packet) (s' : Server) : Prop where
  weight : s'.weight + o.toList.length ≤ s.weight
  copyIns : s'.copyIns ≤ s.copyIns
  copyIn : ∀ p ∈ o, p.type = typeCopyInResponse → s'.copyIns < s.copyIns
  early : s.early = true → s'.early = true
  fates : s'.fates = s.fates

variable {c : Context}

private theorem failed_weight (job : Job c) : (Mode.failed job).weight ≤ 1 := by
  unfold Mode.failed
  split <;> simp [Mode.weight,Job.weight]

private theorem failed_copyIns (job : Job c) : (Mode.failed job).copyIns = 0 := by
  unfold Mode.failed
  split <;> simp [Mode.copyIns,Job.copyIns]

variable {s s₀ : Server}

theorem fail_spends (job : Job c) (error : List UInt8)
    (hw : 2 + (s.inbox.map Message.weight).sum ≤ s₀.weight) (hc : (s.inbox.map Message.copyIns).sum ≤ s₀.copyIns)
    (he : s₀.early = true → s.early = true) (hf : s.fates = s₀.fates) :
    s₀.Spends (s.fail job error).1 (s.fail job error).2 where
  weight := by
    have := failed_weight job
    simp only [fail,Server.weight,Option.toList,List.length_singleton] at hw ⊢
    omega
  copyIns := by
    have := failed_copyIns job
    simp only [fail,Server.copyIns] at hc ⊢
    omega
  copyIn := by
    intro p hp ht
    cases hp
    exact absurd ht (show typeMarkiplierResponse ≠ typeCopyInResponse by decide)
  early := he
  fates := hf

variable {m : Message} {inbox : List Message}

theorem accept_spends (hm : s.mode = .ready) (hi : s.inbox = m :: inbox) :
    s.Spends none (accept { s with inbox := inbox } m) := by
  unfold accept
  split <;> rename_i hk <;> exact ⟨by simp [Server.weight,hm,hi,Mode.weight,Message.weight,hk],
    by simp [Server.copyIns,hm,hi,Mode.copyIns,Message.copyIns,hk],by simp,id,rfl⟩

theorem skip_spends (hm : s.mode = .skipping) (hi : s.inbox = m :: inbox) :
    s.Spends none (skip { s with inbox := inbox } m) := by
  unfold skip
  split <;> rename_i hk <;> exact ⟨by simp [Server.weight,hm,hi,Mode.weight,Message.weight,hk],
    by simp [Server.copyIns,hm,hi,Mode.copyIns,Message.copyIns,hk],by simp,id,rfl⟩

variable {state : UInt8}

theorem finish_spends (hm : s.mode = .running c ⟨[],state⟩) :
    s.Spends (s.finish (c := c) ⟨[],state⟩).1 (s.finish (c := c) ⟨[],state⟩).2 := by
  unfold finish
  split
  · exact ⟨by simp [Server.weight,hm,Mode.weight],by simp [Server.copyIns,hm,Mode.copyIns],by simp,id,rfl⟩
  · refine ⟨?_,by simp [Server.copyIns,hm,Mode.copyIns],?_,id,rfl⟩
    · simp only [Server.weight,hm,Mode.weight,Job.weight,Option.toList,List.length_singleton]
      omega
    · intro p hp ht
      cases hp
      exact absurd ht (show typeReadyForQuery ≠ typeCopyInResponse by decide)

theorem copyIn_not_reply {types : List UInt8} (h : typeCopyInResponse ∉ types) (p : Reply types) :
    p.val.type ≠ typeCopyInResponse :=
  fun ht => h (ht ▸ p.2)

theorem answer_spends {i : Item c} {items : List (Item c)}
    (hm : s.mode = .running c ⟨i :: items,state⟩) :
    s.Spends (s.answer ⟨items,state⟩ i).1 (s.answer ⟨items,state⟩ i).2 := by
  cases i with
  | error error =>
    refine fail_spends _ error ?_ ?_ id rfl
    · simp [Server.weight,hm,Mode.weight,Job.weight,Item.weight]
    · simp [Server.copyIns]
  | _ =>
    refine ⟨?_,?_,fun q hq ht => ?_,id,rfl⟩
    · simp only [answer,Server.weight,hm,Mode.weight,Job.weight,Item.weight,List.map_cons,List.sum_cons,
        Option.toList,List.length_singleton]
      omega
    · simp [answer,Server.copyIns,hm,Mode.copyIns,Job.copyIns,Item.copyIns]
    · cases hq
      first
      | exact absurd ht (copyIn_not_reply (by cases c <;> decide) _)
      | exact absurd ht (show typeCopyOutResponse ≠ typeCopyInResponse by decide)
      | simp [answer,Server.copyIns,hm,Mode.copyIns,Job.copyIns,Item.copyIns]

variable {job : Job c}

theorem copyOut_spends {data : List (Reply Context.copied)} {error : Option (List UInt8)} (hm : s.mode = .copyingOut c data error job) :
    s.Spends (s.copyOut error job data).1 (s.copyOut error job data).2 := by
  cases data with
  | cons p data =>
    refine ⟨?_,?_,?_,id,rfl⟩
    · simp only [copyOut,Server.weight,hm,Mode.weight,List.length_cons,Option.toList,List.length_nil]
      omega
    · simp [copyOut,Server.copyIns,hm,Mode.copyIns]
    · intro q hq ht
      cases hq
      exact absurd ht (copyIn_not_reply (by decide) p)
  | nil =>
    cases error with
    | some error =>
      refine fail_spends job error ?_ ?_ id rfl
      · simp only [Server.weight,hm,Mode.weight,Job.weight,List.length_nil]
        omega
      · simp [Server.copyIns]
    | none =>
      refine ⟨?_,?_,?_,id,rfl⟩
      · simp only [copyOut,Server.weight,hm,Mode.weight,List.length_nil,Option.toList,List.length_singleton]
        omega
      · simp [copyOut,Server.copyIns,hm,Mode.copyIns]
      · intro q hq ht
        cases hq
        exact absurd ht (by decide)

variable {patience : Nat} {error : List UInt8} {synced : Bool}

theorem failIn_spends
    (hm : s₀.mode = .copyingIn c patience error synced job)
    (hw : (s.inbox.map Message.weight).sum ≤ (s₀.inbox.map Message.weight).sum)
    (hc : (s.inbox.map Message.copyIns).sum ≤ (s₀.inbox.map Message.copyIns).sum) (he : s.early = s₀.early)
    (hf : s.fates = s₀.fates) : s₀.Spends (s.failIn error synced job).1 (s.failIn error synced job).2 := by
  refine fail_spends job error ?_ ?_ ?_ hf
  · simp only [Server.weight,hm,Mode.weight,Job.weight]
    omega
  · simp only [Server.copyIns]
    omega
  · intro h
    simp [he,h]

private theorem copyIn_spends (hm : s.mode = .copyingIn c (patience + 1) error synced job) (hi : s.inbox = m :: inbox) :
    s.Spends (copyIn { s with inbox := inbox } patience error synced job m).1
      (copyIn { s with inbox := inbox } patience error synced job m).2 := by
  unfold copyIn
  split
  · exact ⟨by simp [Server.weight,hm,hi,Mode.weight],by simp [Server.copyIns,hm,hi,Mode.copyIns],by simp,id,rfl⟩
  · exact ⟨by simp [Server.weight,hm,hi,Mode.weight],by simp [Server.copyIns,hm,hi,Mode.copyIns],by simp,id,rfl⟩
  · exact ⟨by simp [Server.weight,hm,hi,Mode.weight],by simp [Server.copyIns,hm,hi,Mode.copyIns],by simp,id,rfl⟩
  · refine ⟨?_,by simp [Server.copyIns,hm,hi,Mode.copyIns],by simp,id,rfl⟩
    simp only [Server.weight,hm,hi,Mode.weight,List.map_cons,List.sum_cons,Option.toList,List.length_nil]
    omega
  · exact failIn_spends hm (by simp [hi]) (by simp [hi]) rfl rfl

variable {s' : Server} {o : Option Packet}

private theorem Spends.of_some {x : Option Packet × Server} (hx : s.Spends x.1 x.2) (h : some x = some (o,s')) :
    s.Spends o s' := by
  cases h
  exact hx

private theorem step_spends (h : s.step = some (o,s')) : s.Spends o s' := by
  unfold step at h
  split at h
  · cases h
  · rename_i hm
    split at h
    · cases h
    · rename_i hi
      cases h
      exact accept_spends hm hi
  · rename_i hm
    split at h
    · cases h
    · rename_i hi
      cases h
      exact skip_spends hm hi
  · rename_i hm
    exact (finish_spends hm).of_some h
  · rename_i hm
    exact (answer_spends hm).of_some h
  · rename_i hm
    exact (copyOut_spends hm).of_some h
  · rename_i hm
    exact (failIn_spends hm (Nat.le_refl _) (Nat.le_refl _) rfl rfl).of_some h
  · rename_i hm
    split at h
    · cases h
    · rename_i hi
      exact (copyIn_spends hm hi).of_some h

private theorem Spends.trans {s'' : Server} (h : s.Spends none s') (h' : s'.Spends o s'') :
    s.Spends o s'' where
  weight := Nat.le_trans h'.weight (Nat.le_trans (by simp) h.weight)
  copyIns := Nat.le_trans h'.copyIns h.copyIns
  copyIn p hp ht := Nat.lt_of_lt_of_le (h'.copyIn p hp ht) h.copyIns
  early he := h'.early (h.early he)
  fates := h'.fates.trans h.fates

private theorem Spends.refl (s : Server) : s.Spends none s := ⟨by simp,Nat.le_refl _,by simp,id,rfl⟩

theorem read_spends (h : s.read = (o,s')) : s.Spends o s' := by
  induction hn : s.silence using Nat.strongRecOn generalizing s with
  | _ n ih =>
    rw [read_eq] at h
    rcases hs : s.step with _ | ⟨_ | q,s''⟩
    · rw [hs] at h
      cases h
      exact .refl _
    · rw [hs] at h
      exact (step_spends hs).trans (ih s''.silence (hn ▸ step_silence hs) h rfl)
    · rw [hs] at h
      cases h
      exact step_spends hs

end Server
end Pggat.Backends
