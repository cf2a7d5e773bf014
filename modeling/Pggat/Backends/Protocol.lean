import Pggat.Base.Pattern
import Pggat.Backends.Reading

/-! What the bouncer can count on while a server answers: the states of the server in the middle of a request
and of a batch, and the packets that it sends in them. -/
namespace Pggat.Backends
open Pggat.Base Packets

namespace Message

def Stray (m : Message) : Prop := m.kind ∈ [.flush, .copyData, .copyDone, .copyFail]

def Asks (c : Context) (state : UInt8) (m : Message) : Prop := m.kind = .asks c ∧ m.fate.state m.packet = state

def Extends (m : Message) : Prop := m.kind = .asks .extended ∨ m.kind = .flush

def Syncs (m : Message) : Prop := m.kind = .asks .sync

def Feeds (m : Message) : Prop := m.kind = .copyData

def Ends (m : Message) : Prop := m.kind = .copyDone ∨ m.kind = .copyFail

def Batched (m : Message) : Prop := m.kind = .asks .extended ∨ m.Stray

variable {m : Message}

theorem stray_iff : m.Stray ↔ m.kind = .flush ∨ m.kind = .copyData ∨ m.kind = .copyDone ∨ m.kind = .copyFail := by
  simp [Stray]

theorem Feeds.stray (h : m.Feeds) : m.Stray := stray_iff.mpr (.inr (.inl h))

theorem Ends.stray (h : m.Ends) : m.Stray := stray_iff.mpr (.inr (.inr h))

theorem Extends.batched (h : m.Extends) : m.Batched := h.imp_right fun h => stray_iff.mpr (.inl h)

end Message

open Message

/-- A packet of an answer: the server goes on in `J`, copies data out in `O`, waits for data in `H`, or has
ended the answer in `F`. -/
def Answered (types : List UInt8) (J O H : Server → Prop) (F : UInt8 → Server → Prop) (p : Packet) (s : Server) : Prop :=
  p.type ∈ typeMarkiplierResponse :: types ∧ J s ∨
    p.type = typeCopyInResponse ∧ H s ∨
    p.type = typeCopyOutResponse ∧ O s ∨
    ∃ state, p = readyForQuery state ∧ F state s

/-- A packet of the data that a server copies out: it goes on or is back in `J`. -/
def CopiedOut (J O : Server → Prop) (p : Packet) (s : Server) : Prop :=
  p.type ∈ Context.copied ∧ O s ∨ (p.type = typeCopyDone ∨ p.type = typeMarkiplierResponse) ∧ J s

namespace Server

/-- The last answer ended with this transaction state. -/
def Ended (state : UInt8) (s : Server) : Prop := s.Drained ∧ s.ready.head? = some state

/-- In the middle of a request whose answer ends with a state. -/
def Asked (c : Context) (state : UInt8) (s : Server) : Prop :=
  match s.mode with
  | .ready => Matches [.many Stray, .one (Asks c state)] s.inbox
  | .running d job => d = c ∧ job.state = state ∧ Matches [.many Stray] s.inbox
  | .copyingIn d _ _ _ job => d = c ∧ job.state = state ∧ Matches [.many Stray, .one Ends, .many Stray] s.inbox
  | _ => False

def AskedOut (c : Context) (state : UInt8) (s : Server) : Prop :=
  match s.mode with
  | .copyingOut d _ _ job => d = c ∧ c.copies = true ∧ job.state = state ∧ Matches [.many Stray] s.inbox
  | _ => False

def AskedIn (c : Context) (state : UInt8) (s : Server) : Prop :=
  match s.mode with
  | .copyingIn d _ _ _ job => d = c ∧ c.copies = true ∧ job.state = state ∧ Matches [.many Stray] s.inbox
  | _ => False

variable {inbox : List Message}

theorem strays_of_ending (h : Matches [.many Stray, .one Ends, .many Stray] inbox) :
    Matches [.many Stray] inbox :=
  (h.merge_one fun _ => Ends.stray).merge fun _ => id

variable {s : Server} {m : Message}

theorem accept_stray (h : m.Stray) : s.accept m = s := by
  unfold accept
  rcases stray_iff.mp h with hk | hk | hk | hk <;> rw [hk]

variable {c : Context}

theorem accept_asks (h : m.kind = .asks c) :
    s.accept m = { s with mode := .running c (m.job c) } := by
  unfold accept
  rw [h]

theorem failed_request {job : Job c} (hc : c ≠ .extended) :
    Mode.failed job = .running c ⟨[],job.state⟩ :=
  if_neg hc

variable {job : Job .extended}

theorem failed_asked {job : Job c} (hc : c ≠ .extended) (hm : s.mode = .failed job)
    (hi : Matches [.many Stray] s.inbox) : s.Asked c job.state := by
  unfold Asked
  rw [hm,failed_request hc]
  exact ⟨rfl,rfl,hi⟩

theorem ending_tail
    (h : Matches [.many Stray, .one Ends, .many Stray] (m :: inbox)) :
    m.Stray ∧ Matches [.many Stray] inbox ∧ (m.Ends ∨ Matches [.many Stray, .one Ends, .many Stray] inbox) := by
  rw [Matches.many_cons,Matches.one_cons] at h
  rcases h with ⟨hm,h⟩ | ⟨hm,h⟩
  · exact ⟨hm,strays_of_ending h,.inr h⟩
  · exact ⟨hm.stray,h,.inl hm⟩

section
variable {s : Server} {c : Context} {patience : Nat} {error : List UInt8} {synced : Bool} {job : Job c} {m : Message}

theorem copyIn_stays (h : m.kind = .flush ∨ m.kind = .copyData) :
    s.copyIn patience error synced job m = (none,{ s with mode := .copyingIn c patience error synced job }) := by
  unfold copyIn
  rcases h with hk | hk <;> rw [hk]

theorem copyIn_sync (h : m.kind = .asks .sync) :
    s.copyIn patience error synced job m = (none,{ s with mode := .copyingIn c patience error true job }) := by
  unfold copyIn
  rw [h]

theorem copyIn_done (h : m.kind = .copyDone) :
    s.copyIn patience error synced job m = (none,{ s with mode := .running c job }) := by
  unfold copyIn
  rw [h]

theorem copyIn_fails (h : m.kind = .copyFail ∨ m.kind = .asks .extended) :
    s.copyIn patience error synced job m = s.failIn error synced job := by
  unfold copyIn
  rcases h with hk | hk <;> rw [hk]

end

def AskedAnswer (c : Context) (state : UInt8) : Packet → Server → Prop :=
  Answered c.replies (Asked c state) (AskedOut c state) (AskedIn c state) fun st s => st = state ∧ s.Ended state

private theorem asked_running {job : Job c} (hc : c ≠ .extended) (hm : s.mode = .running c job)
    (hi : Matches [.many Stray] s.inbox) : s.Proceeds (Asked c job.state) (AskedAnswer c job.state) := by
  obtain ⟨inbox,mode,early,ready,fates,turn⟩ := s
  cases hm
  obtain ⟨items,state⟩ := job
  cases items with
  | nil =>
    refine .sends (congrArg some (if_neg hc)) (.inr (.inr (.inr ⟨state,rfl,rfl,?_,rfl⟩)))
    exact Matches.many_iff.mp hi
  | cons i items =>
    cases i with
    | reply p => exact .sends rfl (.inl ⟨by simp [p.2],rfl,rfl,hi⟩)
    | error error => exact .sends rfl (.inl ⟨by simp,failed_asked hc rfl hi⟩)
    | copyOut may format data error => exact .sends rfl (.inr (.inr (.inl ⟨rfl,rfl,may,rfl,hi⟩)))
    | copyIn may format patience error => exact .sends rfl (.inr (.inl ⟨rfl,rfl,may,rfl,hi⟩))

variable {patience : Nat} {error : List UInt8}

private theorem asked_copying {synced : Bool} {job : Job c}
    (hc : c ≠ .extended) (hm : s.mode = .copyingIn c patience error synced job)
    (hi : Matches [.many Stray, .one Ends, .many Stray] s.inbox) :
    s.Proceeds (Asked c job.state) (AskedAnswer c job.state) := by
  obtain ⟨inbox,mode,early,ready,fates,turn⟩ := s
  cases hm
  cases patience with
  | zero => exact .sends rfl (.inl ⟨by simp,failed_asked hc rfl (strays_of_ending hi)⟩)
  | succ patience =>
    cases inbox with
    | nil => simp at hi
    | cons m inbox =>
      obtain ⟨hm,hs,hi⟩ := ending_tail hi
      by_cases he : m.Ends
      · rcases he with hk | hk
        · exact .silent (congrArg some (copyIn_done hk)) ⟨rfl,rfl,hs⟩
        · exact .sends (congrArg some (copyIn_fails (.inl hk))) (.inl ⟨by simp,failed_asked hc rfl hs⟩)
      · have hk : m.kind = .flush ∨ m.kind = .copyData := by
          rcases stray_iff.mp hm with hk | hk | hk
          · exact .inl hk
          · exact .inr hk
          · exact absurd hk he
        exact .silent (congrArg some (copyIn_stays hk)) ⟨rfl,rfl,hi.resolve_left he⟩

variable {state : UInt8}

theorem asked_sends (hc : c ≠ .extended) (h : s.Asked c state) :
    s.Sends (AskedAnswer c state) := by
  refine sends_of_proceeds (fun s h => ?_) h
  rcases hm : s.mode with _ | _ | _ | ⟨d,job⟩ | _ | ⟨d,patience,error,synced,job⟩ <;> simp only [Asked,hm] at h
  · rcases hi : s.inbox with _ | ⟨m,inbox⟩
    · simp [hi] at h
    · have hs : s.step = some (none,accept { s with inbox := inbox } m) := by
        unfold step
        rw [hm,hi]
      rw [hi,Matches.many_cons,Matches.one_cons] at h
      rcases h with ⟨hk,hr⟩ | ⟨⟨hk,hst⟩,hr⟩
      · rw [accept_stray hk] at hs
        refine .silent hs ?_
        simp only [Asked,hm]
        exact hr
      · rw [accept_asks hk] at hs
        exact .silent hs ⟨rfl,hst,Matches.skip hr⟩
  · obtain ⟨rfl,rfl,hi⟩ := h
    exact asked_running hc hm hi
  · obtain ⟨rfl,rfl,hi⟩ := h
    exact asked_copying hc hm hi

/-- In the middle of a batch, up to the answer to its `Sync`. -/
def Batch (s : Server) : Prop :=
  match s.mode with
  | .ready => Matches [.many Stray, .many Extends, .one Syncs] s.inbox
  | .skipping => Matches [.many Batched, .one Syncs] s.inbox
  | .running .extended _ => Matches [.many Extends, .one Syncs] s.inbox
  | .running .sync _ => s.inbox = []
  | .copyingIn .extended _ _ true _ => Matches [.many Feeds, .one Ends, .many Extends, .one Syncs] s.inbox
  | .copyingIn .extended _ _ false _ =>
    Matches [.many Extends, .one Syncs, .many Feeds, .one Ends, .many Extends, .one Syncs] s.inbox
  | _ => False

def BatchOut (s : Server) : Prop :=
  match s.mode with
  | .copyingOut .extended _ _ _ => Matches [.many Extends, .one Syncs] s.inbox
  | _ => False

/-- Waiting for the data of a batch, in front of the `Sync` that was meant to end it. -/
def BatchIn (s : Server) : Prop :=
  match s.mode with
  | .copyingIn .extended _ _ false _ => Matches [.many Extends, .one Syncs, .many Feeds] s.inbox
  | _ => False

/-- A batch without its `Sync`, which may go on after data was copied in. -/
def Open (s : Server) : Prop :=
  match s.mode with
  | .ready => Matches [.many Stray, .many Extends] s.inbox
  | .copyingIn .extended _ _ false _ =>
    Matches [.many Extends, .one Syncs, .many Feeds, .one Ends, .many Extends] s.inbox
  | _ => False

theorem batched_of_copying
    (h : Matches [.many Feeds, .one Ends, .many Extends, .one Syncs] inbox) : Matches [.many Batched, .one Syncs] inbox :=
  have hf : ∀ m, Feeds m → Batched m := fun _ hm => .inr hm.stray
  ((h.mono hf).merge_one fun _ hm => .inr hm.stray).merge fun _ => Extends.batched

private theorem skip_batched (h : m.Batched) : s.skip m = s := by
  unfold skip
  rw [if_neg]
  intro hk
  rcases h with h | h
  · rw [hk] at h
    cases h
  · simp [Stray,hk] at h

theorem notice_of_sync {p : Packet} (h : p.type ∈ Context.sync.replies) : p.type ∈ Context.extended.replies :=
  List.mem_append_right _ h

private theorem skip_syncs (h : m.Syncs) :
    s.skip m = { s with mode := .running .sync (m.job .sync) } :=
  if_pos h

def BatchAnswer (p : Packet) (s : Server) : Prop :=
  s.early = true ∨ Answered Context.extended.replies Batch BatchOut BatchIn Ended p s

theorem batch_ready (hm : s.mode = .ready) (hi : Matches [.many Stray, .many Extends, .one Syncs] s.inbox) :
    s.Proceeds Batch BatchAnswer := by
  obtain ⟨inbox,mode,early,ready,fates,turn⟩ := s
  cases hm
  cases inbox with
  | nil => simp at hi
  | cons m inbox =>
    simp only [Matches.many_cons,Matches.one_cons,Matches.nil_iff] at hi
    refine .silent rfl ?_
    rcases hi with ⟨hk,h⟩ | ⟨hk | hk,h⟩ | ⟨hk,h⟩
    · rw [accept_stray hk]
      exact h
    · rw [accept_asks hk]
      exact h
    · rw [accept_stray (stray_iff.mpr (.inl hk))]
      exact h.skip
    · rw [accept_asks hk]
      exact h

theorem batch_skipping (hm : s.mode = .skipping) (hi : Matches [.many Batched, .one Syncs] s.inbox) :
    s.Proceeds Batch BatchAnswer := by
  obtain ⟨inbox,mode,early,ready,fates,turn⟩ := s
  cases hm
  cases inbox with
  | nil => simp at hi
  | cons m inbox =>
    simp only [Matches.many_cons,Matches.one_cons,Matches.nil_iff] at hi
    refine .silent rfl ?_
    rcases hi with ⟨hk,h⟩ | ⟨hk,h⟩
    · rw [skip_batched hk]
      exact h
    · rw [skip_syncs hk]
      exact h

theorem batch_running (hm : s.mode = .running .extended job)
    (hi : Matches [.many Extends, .one Syncs] s.inbox) : s.Proceeds Batch BatchAnswer := by
  obtain ⟨inbox,mode,early,ready,fates,turn⟩ := s
  cases hm
  obtain ⟨items,state⟩ := job
  cases items with
  | nil => exact .silent rfl (Matches.skip hi)
  | cons i items =>
    cases i with
    | reply p => exact .sends rfl (.inr (.inl ⟨by simp [p.2],hi⟩))
    | error error => exact .sends rfl (.inr (.inl ⟨by simp,hi.mono fun _ => Extends.batched⟩))
    | copyOut may format data error => exact .sends rfl (.inr (.inr (.inr (.inl ⟨rfl,hi⟩))))
    | copyIn may format patience error => exact .sends rfl (.inr (.inr (.inl ⟨rfl,hi.open_end⟩)))

theorem batch_syncing {job : Job .sync} (hm : s.mode = .running .sync job) (hi : s.inbox = []) :
    s.Proceeds Batch BatchAnswer := by
  obtain ⟨inbox,mode,early,ready,fates,turn⟩ := s
  cases hm
  cases hi
  obtain ⟨items,state⟩ := job
  cases items with
  | nil => exact .sends rfl (.inr (.inr (.inr (.inr ⟨state,rfl,by simp [Drained],rfl⟩))))
  | cons i items =>
    cases i with
    | reply p => exact .sends rfl (.inr (.inl ⟨by simp [notice_of_sync p.2],rfl⟩))
    | error error => exact .sends rfl (.inr (.inl ⟨by simp,rfl⟩))
    | copyOut may format data error => cases may
    | copyIn may format patience error => cases may

/-- The data has been sent and the server has ignored the `Sync` in front of it. -/
theorem batch_copying
    (hm : s.mode = .copyingIn .extended patience error true job)
    (hi : Matches [.many Feeds, .one Ends, .many Extends, .one Syncs] s.inbox) : s.Proceeds Batch BatchAnswer := by
  obtain ⟨inbox,mode,early,ready,fates,turn⟩ := s
  cases hm
  cases patience with
  | zero => exact .sends rfl (.inr (.inl ⟨by simp,batched_of_copying hi⟩))
  | succ patience =>
    cases inbox with
    | nil => simp at hi
    | cons m inbox =>
      rw [Matches.many_cons,Matches.one_cons] at hi
      rcases hi with ⟨hk,h⟩ | ⟨hk | hk,h⟩
      · exact .silent (congrArg some (copyIn_stays (.inr hk))) h
      · exact .silent (congrArg some (copyIn_done hk)) h
      · exact .sends (congrArg some (copyIn_fails (.inl hk))) (.inr (.inl ⟨by simp,h.mono fun _ => Extends.batched⟩))

/-- The data has been sent and the server has not come to the `Sync` in front of it. -/
theorem batch_halted
    (hm : s.mode = .copyingIn .extended patience error false job)
    (hi : Matches [.many Extends, .one Syncs, .many Feeds, .one Ends, .many Extends, .one Syncs] s.inbox) :
    s.Proceeds Batch BatchAnswer := by
  obtain ⟨inbox,mode,early,ready,fates,turn⟩ := s
  cases hm
  cases patience with
  | zero => exact .sends rfl (.inl (by simp))
  | succ patience =>
    cases inbox with
    | nil => simp at hi
    | cons m inbox =>
      rw [Matches.many_cons,Matches.one_cons] at hi
      rcases hi with ⟨hk | hk,h⟩ | ⟨hk,h⟩
      · exact .sends (congrArg some (copyIn_fails (.inr hk))) (.inl (by simp))
      · exact .silent (congrArg some (copyIn_stays (.inl hk))) h
      · exact .silent (congrArg some (copyIn_sync hk)) h

/-- A server in the middle of a batch sends the next packet of the answers, unless it leaves a copying early. -/
theorem batch_sends (h : s.Batch) : s.Sends BatchAnswer := by
  refine sends_of_proceeds (fun s h => ?_) h
  unfold Batch at h
  split at h
  · exact batch_ready ‹_› h
  · exact batch_skipping ‹_› h
  · exact batch_running ‹_› h
  · exact batch_syncing ‹_› h
  · exact batch_copying ‹_› h
  · exact batch_halted ‹_› h
  · cases h

theorem copyingOut_sends {data : List (Reply Context.copied)} {error : Option (List UInt8)}
    {job : Job c} (hm : s.mode = .copyingOut c data error job) {J O : Server → Prop}
    (hO : ∀ data, O { s with mode := .copyingOut c data error job }) (hJ : J { s with mode := .running c job })
    (hF : J { s with mode := .failed job }) : s.Sends (CopiedOut J O) := by
  have hs : s.step = some (s.copyOut error job data) := by
    unfold step
    rw [hm]
  cases data with
  | cons p data => exact ⟨p.val,_,by rw [read_eq,hs]; rfl,.inl ⟨p.2,hO data⟩⟩
  | nil =>
    cases error with
    | some error => exact ⟨_,_,by rw [read_eq,hs]; rfl,.inr ⟨.inr rfl,hF⟩⟩
    | none => exact ⟨_,_,by rw [read_eq,hs]; rfl,.inr ⟨.inl rfl,hJ⟩⟩

theorem askedOut_sends (hc : c ≠ .extended) (h : s.AskedOut c state) :
    s.Sends (CopiedOut (Asked c state) (AskedOut c state)) := by
  unfold AskedOut at h
  split at h
  · rename_i hm
    obtain ⟨rfl,may,rfl,hi⟩ := h
    exact copyingOut_sends hm (fun _ => ⟨rfl,may,rfl,hi⟩) ⟨rfl,rfl,hi⟩ (failed_asked hc rfl hi)
  · cases h

theorem batchOut_sends (h : s.BatchOut) : s.Sends (CopiedOut Batch BatchOut) := by
  unfold BatchOut at h
  split at h
  · rename_i hm
    exact copyingOut_sends hm (fun _ => h) h (Matches.mono h fun _ => Extends.batched)
  · cases h

section Write
variable {s : Server} {p : Packet}

variable {c : Context}

theorem Drained.asks (h : s.Drained) (hk : kindOf p.type = .asks c) :
    (s.write p).Asked c ((s.fates s.turn).state p) := by
  obtain ⟨inbox,mode,early,ready,fates,turn⟩ := s
  cases mode with
  | ready => exact Matches.snoc (u := [.many Stray]) (Matches.many_iff.mpr h) ⟨hk,rfl⟩
  | _ => cases h

variable {state : UInt8}

theorem AskedIn.feeds (h : s.AskedIn c state) (hk : kindOf p.type = .copyData) :
    (s.write p).AskedIn c state := by
  unfold AskedIn at h ⊢
  split at h
  · rename_i hm
    obtain ⟨hd,may,hs,hi⟩ := h
    simp only [write,hm]
    exact ⟨hd,may,hs,hi.extend (u := []) (Feeds.stray hk)⟩
  · cases h

theorem AskedIn.ends (h : s.AskedIn c state)
    (hk : kindOf p.type = .copyDone ∨ kindOf p.type = .copyFail) : (s.write p).Asked c state := by
  unfold AskedIn at h
  split at h
  · rename_i hm
    obtain ⟨hd,may,hs,hi⟩ := h
    simp only [Asked,write,hm]
    have he : Ends ⟨p,s.fates s.turn⟩ := hk
    exact ⟨hd,hs,(hi.snoc he).open_end⟩
  · cases h

theorem Drained.opens (h : s.Drained) (hk : kindOf p.type = .asks .extended ∨ kindOf p.type = .flush) :
    (s.write p).Open := by
  obtain ⟨inbox,mode,early,ready,fates,turn⟩ := s
  cases mode with
  | ready =>
    have hi : Matches [.many Stray] inbox := Matches.many_iff.mpr h
    exact hi.open_end.extend (u := [.many Stray]) (P := Extends) hk
  | _ => cases h

theorem Open.extends (h : s.Open) (hk : kindOf p.type = .asks .extended ∨ kindOf p.type = .flush) :
    (s.write p).Open := by
  unfold Open at h ⊢
  split at h
  · rename_i hm
    simp only [write,hm]
    exact h.extend (u := [.many Stray]) (P := Extends) hk
  · rename_i hm
    simp only [write,hm]
    exact h.extend (u := [.many Extends, .one Syncs, .many Feeds, .one Ends]) (P := Extends) hk
  · cases h

theorem Open.syncs (h : s.Open) (hk : kindOf p.type = .asks .sync) : (s.write p).Batch := by
  unfold Open at h
  split at h
  · rename_i hm
    simp only [Batch,write,hm]
    exact h.snoc (P := Syncs) hk
  · rename_i hm
    simp only [Batch,write,hm]
    exact h.snoc (P := Syncs) hk
  · cases h

theorem BatchIn.feeds (h : s.BatchIn) (hk : kindOf p.type = .copyData) : (s.write p).BatchIn := by
  unfold BatchIn at h ⊢
  split at h
  · rename_i hm
    simp only [write,hm]
    exact h.extend (u := [.many Extends, .one Syncs]) (P := Feeds) hk
  · cases h

theorem BatchIn.ends (h : s.BatchIn) (hk : kindOf p.type = .copyDone ∨ kindOf p.type = .copyFail) :
    (s.write p).Open := by
  unfold BatchIn at h
  split at h
  · rename_i hm
    simp only [Open,write,hm]
    have he : Ends ⟨p,s.fates s.turn⟩ := hk
    exact (h.snoc he).open_end
  · cases h

theorem write_weight (h : ∀ c, kindOf p.type ≠ .asks c) : (s.write p).weight = s.weight := by
  have hw : Message.weight ⟨p,s.fates s.turn⟩ = 0 := by
    unfold Message.weight
    split
    · rename_i c hc
      exact absurd hc (h c)
    · rfl
  simp [weight,write,hw]

private theorem sync_copyIns (items : List (Item .sync)) : (items.map Item.copyIns).sum = 0 := by
  induction items with
  | nil => rfl
  | cons i items ih =>
    rw [List.map_cons,List.sum_cons,ih]
    cases i with
    | copyIn may _ _ _ => cases may
    | _ => rfl

theorem write_copyIns (h : ∀ c, kindOf p.type = .asks c → c = .sync) : (s.write p).copyIns = s.copyIns := by
  have hw : Message.copyIns ⟨p,s.fates s.turn⟩ = 0 := by
    unfold Message.copyIns
    split
    · rename_i c hc
      cases h c hc
      exact sync_copyIns _
    · rfl
  simp [copyIns,write,hw]

end Write

end Server
end Pggat.Backends
